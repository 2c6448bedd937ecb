import ClassCompiler.Proofs.Soundness.Claims

namespace ClassCompiler

abbrev Context.typeFlow (ctx : Context) (o : CompileOptions) (files : List ClassFile) (k : Contract) : Flow Facts :=
  ClassCompiler.typeFlow o ctx.table (Machine.load files) k

/-- What is claimed of a piece follows from what is claimed of its parts. -/
def Upholds (ctx : Context) (o : CompileOptions) (files : List ClassFile) (k : Contract) (q : Piece) (s : Supply)
    (items : List Item) : Prop :=
  ∀ ⦃T a b⦄, typeClaim ctx T q s a b → ∃ own : String → Option Facts, (∀ l x, own l = some x → Flow.Owned items l) ∧
    (ctx.typeFlow o files k).Chain (typeClaim ctx) (fun l x => T l x ∨ own l = some x) own items a b

namespace Context

variable {ctx : Context} {s t t' : Supply} {a b : Facts} {cell : Cell} {cs : List Cell} {τ τ' : Nat → Fact} {n : Nat}
  {f : Fact} {e : Expr} {u : Ty}

theorem Ready.mono (h : ctx.Ready t a) (ht : t.slots ≤ t'.slots) : ctx.Ready t' a where
  count := Nat.le_trans h.count ht
  note := h.note
  self := h.self
  vars := h.vars
  free n hn := h.free n (Nat.le_trans ht hn)
  cells n hn := ⟨(h.cells n hn).1, Nat.lt_of_lt_of_le (h.cells n hn).2 ht⟩

theorem Ready.push (h : ctx.Ready t ⟨cs, τ, none⟩) (hc : ∀ n, cell = .slot n → ctx.method.slotCount ≤ n ∧ n < t.slots) :
    ctx.Ready t ⟨cell :: cs, τ, none⟩ :=
  { h with cells := fun n hn => (List.mem_cons.1 hn).elim (fun he => hc n he.symm) (h.cells n) }

theorem Ready.known {k : Fact} (h : ctx.Ready t ⟨cs, τ, none⟩) : ctx.Ready t ⟨.known k :: cs, τ, none⟩ := h.push (by simp)

theorem Ready.again (h : ctx.Ready t ⟨cs, τ, none⟩) : ctx.Ready t ⟨.again :: cs, τ, none⟩ := h.push (by simp)

theorem Ready.adds {ts : List Ty} (h : ctx.Ready t ⟨cs, τ, none⟩) : ctx.Ready t ⟨.adds ts :: cs, τ, none⟩ := h.push (by simp)

theorem Ready.pop (h : ctx.Ready t ⟨cell :: cs, τ, none⟩) : ctx.Ready t ⟨cs, τ, none⟩ :=
  { h with cells := fun n hn => h.cells n (List.mem_cons_of_mem _ hn) }

theorem Ready.take (h : ctx.Ready t ⟨cs, τ, none⟩) (hn : t.slots ≤ n) (hn' : n < t'.slots) :
    ctx.Ready t' ⟨cs, Function.update τ n f, none⟩ := by
  have hcount := h.count
  refine ⟨by omega, rfl, ?_, fun name sym hs => ?_, fun i hi => ?_, fun i hi => ?_⟩
  · have hpos : 0 ≠ n := by unfold MethodDecl.slotCount at hcount; omega
    simpa [Function.update_apply, hpos] using h.self
  · have hlt := (MethodDecl.symbol?_slot_lt hs).2
    have hne : sym.slot ≠ n := by omega
    simpa [Function.update_apply, hne] using h.vars name sym hs
  · have hne : i ≠ n := by omega
    simpa [Function.update_apply, hne] using h.free i (by omega)
  · have hi := h.cells i hi
    exact ⟨hi.1, by omega⟩

theorem Ready.pos (h : ctx.Ready t a) : 0 < t.slots := by
  have hcount := h.count
  unfold MethodDecl.slotCount at hcount
  omega

/-- No value on the stack is said to be in the slot of a variable, or in one that is free. -/
theorem Ready.not_mem (h : ctx.Ready t a) (hn : n < ctx.method.slotCount ∨ t.slots ≤ n) : Cell.slot n ∉ a.stack := by
  intro hmem
  have hcell := h.cells n hmem
  omega

/-- What was found out of slots that were free may be forgotten. -/
theorem Ready.forget (h : ctx.Ready t ⟨cs, τ, none⟩) {p : Program} {ds : List Cell}
    (hτ : ∀ n, n < t.slots → τ' n = τ n) : Facts.Entails p ⟨ds, τ', none⟩ ⟨ds, τ, none⟩ := by
  refine .slots fun n => ?_
  by_cases hn : n < t.slots
  · rw [hτ n hn]
    exact .refl _
  · rw [show τ n = .any from h.free n (by omega)]
    exact Fact.implies_any

theorem held_eq (h : (ctx.typeOf e).isPrimitive = false) : ctx.held e = .val (ctx.typeOf e) := by
  have hheld := Ty.held_of_not_isPrimitive h
  cases e with
  | int => cases h
  | _ => exact hheld

@[simp] theorem held_unary {t : Token} {op : UnOp} {x : Expr} :
    ctx.held (.unary t op x) = (ctx.typeOf (.unary t op x)).held := rfl

@[simp] theorem held_binary {t : Token} {op : BinOp} {l r : Expr} :
    ctx.held (.binary t op l r) = (ctx.typeOf (.binary t op l r)).held := rfl

theorem held_of_type (h : ctx.typeOf e = u) (hu : u.isPrimitive = false) : ctx.held e = .val u := by
  subst h
  exact held_eq hu

theorem isPrimitive_or_held (e : Expr) : (ctx.typeOf e).isPrimitive = true ∨ ctx.held e = .val (ctx.typeOf e) := by
  cases h : (ctx.typeOf e).isPrimitive with
  | true => exact .inl rfl
  | false => exact .inr (held_eq h)

theorem held_of_box (h : box (ctx.typeOf e) = []) : ctx.held e = .val (ctx.typeOf e) :=
  held_eq (by cases ht : ctx.typeOf e <;> simp_all [box, Ty.isPrimitive])

theorem held_implies (ctx : Context) (e : Expr) (p : Program) : (ctx.held e).Implies p (ctx.typeOf e).held := by
  cases e with
  | int => exact Fact.implies_any
  | _ => exact .refl _

end Context

section

variable {ctx : Context} {o : CompileOptions} {files : List ClassFile} {k : Contract} {T : Targets Facts}
  {own : String → Option Facts} {s t t' : Supply} {items : List Item} {a b : Facts} {cs : List Cell} {τ : Nat → Fact}
  {e r : Expr} {code : List Instr} {sp : List Span} {line : Int} {os : List Op} {u : Ty}

theorem typeClaim_expr (hq : (Piece.expr e).Typable ctx) (hr : ctx.Ready t ⟨cs, τ, none⟩) :
    typeClaim ctx T (.expr e) t ⟨cs, τ, none⟩ ⟨.known (ctx.held e) :: cs, τ, none⟩ := ⟨hq, hr, rfl⟩

theorem upholds_of_chain (h : ∀ T cs τ, ctx.Ready s ⟨cs, τ, none⟩ → (ctx.typeFlow o files k).Chain (typeClaim ctx) T
    (fun _ => none) items ⟨cs, τ, none⟩ ⟨.known (ctx.held e) :: cs, τ, none⟩) :
    Upholds ctx o files k (.expr e) s items := by
  rintro T ⟨cs, τ, note⟩ b ⟨-, hready, rfl⟩
  obtain rfl : note = none := hready.note
  exact ⟨fun _ => none, by simp, h _ cs τ hready⟩

theorem chain_row (h : Row o ctx.table (Machine.load files) os a b) (hne : os = [] → b = a)
    {c : Facts} (hc : (ctx.typeFlow o files k).Chain (typeClaim ctx) T own items b c) :
    (ctx.typeFlow o files k).Chain (typeClaim ctx) T own (.ops line os :: items) a c := ⟨b, path_of_row h hne, hc⟩

/-- A value that is stored is copied if it is a list. -/
theorem chain_stored (hq : (Piece.expr r).Typable ctx) (hr : ctx.Ready t ⟨cs, τ, none⟩)
    (hc : (ctx.typeFlow o files k).Chain (typeClaim ctx) T own items ⟨.known (ctx.held r) :: cs, τ, none⟩ b) :
    (ctx.typeFlow o files k).Chain (typeClaim ctx) T own
      (.ops line (copyBegin u (ctx.typeOf r)) :: .part (.expr r) t code t' sp ::
        .ops line (copyEnd u (ctx.typeOf r)) :: items) ⟨cs, τ, none⟩ b := by
  have hready : ctx.Ready t ⟨Cell.copied u (ctx.typeOf r) ++ cs, τ, none⟩ := by
    unfold Cell.copied
    split
    · exact hr.known.again
    · exact hr
  refine chain_row row_copyBegin (fun h => by rw [Cell.copied_of_copyBegin h]; rfl) ⟨_, typeClaim_expr hq hready, ?_⟩
  refine chain_row (row_copyEnd (ctx.isPrimitive_or_held r)) (fun h => ?_) hc
  rw [Cell.copied_of_copyBegin (copyBegin_of_copyEnd h)]
  rfl

/-- The value of an index picks positions of the type of the access. -/
theorem Context.Admits.picks {dropped : Bool} {t : Token} {x i : Expr} (ha : ctx.Admits dropped (.index t x i))
    (hs : ctx.Sound) (hp : ctx.AllPlain (Expr.index t x i).subterms) : ∃ es, ctx.typeOf x = .list es ∧
      (ctx.typeOf (.index t x i)).Solid ctx.table.hasClass ∧ (ctx.held i).Picks es (ctx.typeOf (.index t x i)) := by
  obtain ⟨es, hx, hsolid, hall | ⟨u, n, e, rfl, hn, he, htype⟩⟩ := ha.index_position hs hp
  · exact ⟨es, hx, hsolid, .inl hall⟩
  · exact ⟨es, hx, hsolid, .inr ⟨n, e, hn, rfl, he, by rw [htype]⟩⟩

theorem Context.AllPlain.operand {t : Token} {op : UnOp} {x : Expr} (hp : ctx.AllPlain (Expr.unary t op x).subterms) :
    ctx.AllPlain x.subterms := by
  simp only [Expr.subterms, List.forall_cons] at hp
  exact hp.2

theorem Context.AllPlain.operands {t : Token} {op : BinOp} {l r : Expr}
    (hp : ctx.AllPlain (Expr.binary t op l r).subterms) : ctx.AllPlain l.subterms ∧ ctx.AllPlain r.subterms := by
  simp only [Expr.subterms, List.cons_append, List.forall_cons, List.forall_append] at hp
  exact hp.2

theorem Cell.values_cons (u : Ty) (us : List Ty) (cs : List Cell) :
    Cell.values (u :: us) ++ cs = Cell.values us ++ .known (.val u) :: cs := by simp [Cell.values]

end

namespace Rule

variable {ctx : Context} {o : CompileOptions} {files : List ClassFile} {k : Contract} {q : Piece} {s s' : Supply}
  {items : List Item} {e : Expr}

theorem typable (hr : Rule ctx q s items s') (hq : q.Typable ctx)
    (hslots : Parts (fun _ t _ t' _ => t.slots ≤ t'.slots) items) :
    Parts (fun r t _ t' _ => r.Typable ctx ∧ t.slots ≤ t'.slots) items := by
  have hadm := Parts.iff_forall_mem.1 (hr.admitted hq.admitted)
  have hplain := Parts.iff_forall_mem.1 (hr.forall_subterms (P := ctx.Plain) (fun _ _ _ => trivial) hq.plain)
  exact Parts.iff_forall_mem.2 fun r t c t' sp hm =>
    ⟨⟨hadm r t c t' sp hm, hplain r t c t' sp hm⟩, Parts.iff_forall_mem.1 hslots r t c t' sp hm⟩

theorem upholds_unary {t : Token} {op : UnOp} {x : Expr} (hi : Installed o ctx.table files) (hs : ctx.Sound)
    (hr : Rule ctx (.expr (.unary t op x)) s items s')
    (hslots : Parts (fun _ t _ t' _ => t.slots ≤ t'.slots) items) (hq : (Piece.expr (.unary t op x)).Typable ctx) :
    Upholds ctx o files k (.expr (.unary t op x)) s items := by
  have hparts := hr.typable hq hslots
  obtain ⟨dropped, ha⟩ := hq.admitted.admits
  have hplain : ctx.AllPlain (Expr.unary t op x).subterms := hq.plain
  have hk := hs.known
  cases hr
  case neg xc xs =>
    simp only [Parts.part_iff, Parts.ops_iff, Parts.nil_iff] at hparts
    obtain ⟨htype, hx⟩ := ha.negation_types hk rfl
    refine upholds_of_chain fun T cs τ hready => ⟨_, typeClaim_expr hparts.1.1 hready, ?_⟩
    exact chain_row (.single rfl (leads_neg.before (.top Fact.implies_any))) (by simp) (by
      rw [Context.held_unary, htype, hx]; rfl)
  case not xc s₁ xs =>
    simp only [Parts.part_iff, Parts.ops_iff, Parts.nil_iff] at hparts
    obtain ⟨htype, hx⟩ := ha.negation_types hk rfl
    rintro T ⟨cs, τ, note⟩ b ⟨-, hready, rfl⟩
    obtain rfl : note = none := hready.note
    -- The test has two labels of its own, and `testFacts` says what is known at each.
    refine ⟨Flow.ownStates s₁ (testFacts cs τ), fun l x => Flow.owned_of_ownStates ?_, ?_⟩
    · simp [testFacts, Flow.Owned, branchMerge]
      omega
    · rw [Context.held_unary, htype, hx]
      exact ⟨_, typeClaim_expr hparts.1.1 hready, _, path_branchTest s₁ .ifNonzero 0 Facts.drops_one, rfl⟩
  case changeIdent sym v hsym ho =>
    obtain ⟨htype, hv⟩ := ha.change_types hk ho
    rw [Context.typeOf_ident hsym] at hv
    obtain ⟨hpos, hlt⟩ := MethodDecl.symbol?_slot_lt hsym
    refine upholds_of_chain fun T cs τ hready => ?_
    rw [Context.held_unary, htype]
    exact chain_row (row_changeVariable op hpos (hready.not_mem (.inl hlt)) (hv ▸ hready.vars _ sym hsym))
      (by simp [changeVariable]) rfl
  case changeIndex u x i xc s₁ xs ic is ho =>
    simp only [Parts.part_iff, Parts.ops_iff, Parts.nil_iff, Supply.take_slots] at hparts
    obtain ⟨hx, hi', -⟩ := hparts
    obtain ⟨htype, hindex⟩ := ha.change_types hk ho
    obtain ⟨es, ht, -, hpick⟩ := ha.operand.picks hs hplain.operand
    rw [hindex] at hpick
    refine upholds_of_chain fun T cs τ hready => ⟨_, typeClaim_expr hx.1 (hready.mono (by simp)), ?_⟩
    have hfree : ∀ n, s.slots ≤ n → τ n = .any := hready.free
    rw [Context.held_of_type ht rfl, Context.held_unary, htype]
    -- The list and then the index wait in slots that are free again behind the change.
    have hlist : ctx.Ready s₁ ⟨cs, Function.update τ s.slots (.val (.list es)), none⟩ :=
      hready.take (Nat.le_refl _) (by omega)
    refine chain_row (.single rfl (leads_store hready.pos (hready.not_mem (.inr (Nat.le_refl _))))) (by simp)
      ⟨_, typeClaim_expr hi'.1 hlist, ?_⟩
    refine chain_row (.single rfl (leads_store (by omega) (hready.not_mem (.inr (by omega))))) (by simp) ?_
    refine chain_row ((hi.row_changeElement (i := .slot (s.slots + 1)) op (show _ = Fact.val (.list es) by simp) ?_ (by omega)
      (hready.not_mem (.inr (by omega))) ?_).before (hready.forget fun n hn => ?_)) (by simp [ClassCompiler.changeElement]) rfl
    · simpa [Index.fact] using hpick
    · simp [hfree]
    · rw [Function.update_of_ne (by omega), Function.update_of_ne (by omega)]
  case changeElement x es i u m xc xs ht hpos ho =>
    simp only [Parts.part_iff, Parts.ops_iff, Parts.nil_iff, Supply.take_slots] at hparts
    obtain ⟨htype, hmember⟩ := ha.change_types hk ho
    obtain ⟨hlt, e, he, het⟩ := ha.operand.element_position hs hplain.operand ht hpos
    rw [hmember] at het
    refine upholds_of_chain fun T cs τ hready => ⟨_, typeClaim_expr hparts.1.1 (hready.mono (by simp)), ?_⟩
    have hfree : ∀ n, s.slots ≤ n → τ n = .any := hready.free
    rw [Context.held_of_type ht rfl, Context.held_unary, htype]
    refine chain_row (.single rfl (leads_store hready.pos (hready.not_mem (.inr (Nat.le_refl _))))) (by simp) ?_
    refine chain_row ((hi.row_changeElement (i := .const i) op (show _ = Fact.val (.list es) by simp)
      (.inr ⟨i, e, hlt, rfl, he, by rw [het]⟩) (by omega) (hready.not_mem (.inr (by omega))) (by simp [hfree])).before
      (hready.forget fun n hn => Function.update_of_ne (by omega) _ _)) (by simp [ClassCompiler.changeElement]) rfl
  case changeField x c owner f u m xc xs ht hf ho =>
    simp only [Parts.part_iff, Parts.ops_iff, Parts.nil_iff, Supply.take_slots] at hparts
    obtain ⟨htype, hmember⟩ := ha.change_types hk ho
    rw [Context.typeOf_member_field ht hf] at hmember
    obtain ⟨cd, hcd, hfield⟩ := hs.flat.field?_eq_some hf
    refine upholds_of_chain fun T cs τ hready => ⟨_, typeClaim_expr hparts.1.1 (hready.mono (by simp)), ?_⟩
    have hfree : ∀ n, s.slots ≤ n → τ n = .any := hready.free
    rw [Context.held_of_type ht rfl, Context.held_unary, htype]
    refine chain_row (.single rfl (leads_store hready.pos (hready.not_mem (.inr (Nat.le_refl _))))) (by simp) ?_
    refine chain_row ((row_changeField op (show _ = Fact.val (.cls c) by simp) ⟨cd, hcd, hfield⟩ hmember (by omega)
      (hready.not_mem (.inr (by omega))) (by simp [hfree])).before
      (hready.forget fun n hn => Function.update_of_ne (by omega) _ _)) (by simp [ClassCompiler.changeField]) rfl

theorem upholds_binary {t : Token} {op : BinOp} {l r : Expr} (hi : Installed o ctx.table files) (hs : ctx.Sound)
    (hr : Rule ctx (.expr (.binary t op l r)) s items s')
    (hslots : Parts (fun _ t _ t' _ => t.slots ≤ t'.slots) items) (hq : (Piece.expr (.binary t op l r)).Typable ctx) :
    Upholds ctx o files k (.expr (.binary t op l r)) s items := by
  have hparts := hr.typable hq hslots
  obtain ⟨dropped, ha⟩ := hq.admitted.admits
  have hplain : ctx.AllPlain (Expr.binary t op l r).subterms := hq.plain
  have hk := hs.known
  cases hr
  case assignIdent sym v rc rs hsym =>
    simp only [Parts.part_iff, Parts.ops_iff, Parts.nil_iff] at hparts
    obtain ⟨htype, hbelow⟩ := ha.assign_below hs hplain
    rw [Context.typeOf_ident hsym] at hbelow
    obtain ⟨hpos, hlt⟩ := MethodDecl.symbol?_slot_lt hsym
    refine upholds_of_chain fun T cs τ hready => chain_stored hparts.1.1 hready ?_
    have hmem := hready.not_mem (.inl hlt)
    have hstore : (Op.store .ref sym.slot).Leads o ctx.table (Machine.load files)
        ⟨.known (.val sym.type) :: .known (ctx.held r) :: cs, τ, none⟩ ⟨.known (ctx.held r) :: cs, τ, none⟩ :=
      leads_store_known hpos (by simpa using hmem) (hready.vars _ sym hsym)
    refine chain_row (.cons rfl (leads_dup.before .again) (.append ((row_box (ctx.isPrimitive_or_held r)).before
      (.top (Fact.implies_of_below hbelow))) (.single rfl (hstore.before (.top ?_))))) (by simp) rfl
    rw [Context.held_binary, htype]
    exact ctx.held_implies r _
  case assignIndex x xc s₁ xs i ic s₂ is rc rs u hl =>
    subst hl
    simp only [Parts.part_iff, Parts.ops_iff, Parts.nil_iff, Supply.take_slots] at hparts
    obtain ⟨hx, hi', hr', -⟩ := hparts
    obtain ⟨htype, hbelow⟩ := ha.assign_below hs hplain
    obtain ⟨es, ht, hsolid, hpick⟩ := ha.operands.1.picks hs hplain.operands.1
    refine upholds_of_chain fun T cs τ hready => ⟨_, typeClaim_expr hx.1 hready, ?_⟩
    rw [Context.held_of_type ht rfl, Context.held_binary, htype]
    have hlist : ctx.Ready s₂ ⟨.again :: .known (.val (.list es)) :: cs, τ, none⟩ := (hready.mono (by omega)).known.again
    refine chain_row (.single rfl leads_dup) (by simp) ⟨_, typeClaim_expr hi'.1 (hready.mono hx.2).known.again, ?_⟩
    refine chain_row (.cons rfl leads_dup (.single rfl
      (leads_store_again hlist.pos (hlist.not_mem (.inr (Nat.le_refl _)))))) (by simp) ?_
    -- The index waits in the first free slot while the value is computed.
    have htake : ctx.Ready (s₂.take 0 1) _ := hlist.take (f := ctx.held i) (Nat.le_refl _) (by simp)
    refine chain_stored hr'.1 (htake.push ?_) (chain_row ((hi.row_storeElementOps (i := .slot s₂.slots) hbelow hsolid
      (ha.operands.2.solid hs hplain.operands.2) (by simpa [Index.fact] using hpick) (ctx.isPrimitive_or_held r)).before
      (hlist.forget fun n hn => Function.update_of_ne (by omega) _ _)) ?_ rfl)
    · rintro _ ⟨⟩
      exact ⟨hlist.count, by simp⟩
    · simp [storeElementOps]
  case assignElement x es i xc s₁ xs rc rs u m ht hpos hl =>
    subst hl
    simp only [Parts.part_iff, Parts.ops_iff, Parts.nil_iff] at hparts
    obtain ⟨hx, hr', -⟩ := hparts
    obtain ⟨htype, hbelow⟩ := ha.assign_below hs hplain
    obtain ⟨hlt, e, he, het⟩ := ha.operands.1.element_position hs hplain.operands.1 ht hpos
    have hsolid := ha.operands.1.member.1.elements_solid hs hx.1.plain ht e (List.mem_of_getElem? he)
    refine upholds_of_chain fun T cs τ hready => ⟨_, typeClaim_expr hx.1 hready, ?_⟩
    rw [Context.held_of_type ht rfl, Context.held_binary, htype]
    have hlist : ctx.Ready s₁ ⟨.again :: .known (.val (.list es)) :: cs, τ, none⟩ := (hready.mono hx.2).known.again
    refine chain_row (.cons rfl leads_dup (.single rfl (leads_pushInt i))) (by simp) (chain_stored hr'.1 hlist.known
      (chain_row (hi.row_storeElementOps (i := .const i) hbelow (het ▸ hsolid)
        (ha.operands.2.solid hs hplain.operands.2) (.inr ⟨i, e, hlt, rfl, he, by rw [het]⟩)
        (ctx.isPrimitive_or_held r)) ?_ rfl))
    simp [storeElementOps]
  case assignField x c owner f xc s₁ xs rc rs u m ht hf hl =>
    subst hl
    simp only [Parts.part_iff, Parts.ops_iff, Parts.nil_iff] at hparts
    obtain ⟨hx, hr', -⟩ := hparts
    obtain ⟨htype, hbelow⟩ := ha.assign_below hs hplain
    obtain ⟨cd, hcd, hfield⟩ := hs.flat.field?_eq_some hf
    have hsolid := ha.operands.1.place_solid hs hplain.operands.1 (ha.assigns hk)
    refine upholds_of_chain fun T cs τ hready => ⟨_, typeClaim_expr hx.1 hready, ?_⟩
    rw [Context.held_of_type ht rfl, Context.held_binary, htype]
    refine chain_row (.single rfl leads_dup) (by simp) (chain_stored hr'.1 (hready.mono hx.2).known.again
      (chain_row (row_storeField (x := f) ⟨cd, hcd, hfield⟩
        (Context.typeOf_member_field ht hf).symm hbelow hsolid (ctx.isPrimitive_or_held r)) ?_ rfl))
    simp [storeField]
  case logical exit decided lc s₁ ls rc rs ho =>
    simp only [Parts.part_iff, Parts.ops_iff, Parts.nil_iff, Supply.take_slots] at hparts
    obtain ⟨htype, -, -⟩ := ha.logical_types hk ho
    obtain ⟨-, hpops⟩ := BinOp.shortcut?_pops ho
    rintro T ⟨cs, τ, note⟩ b ⟨-, hready, rfl⟩
    obtain rfl : note = none := hready.note
    refine ⟨Flow.ownStates s (testFacts cs τ), fun l x => Flow.owned_of_ownStates ?_, ?_⟩
    · simp [testFacts, Flow.Owned, or_and_right, exists_or, branchMerge]
      omega
    · have hdrops : ∀ e, Facts.Drops ctx.table exit.pops ⟨.known (ctx.held e) :: cs, τ, none⟩ ⟨cs, τ, none⟩ := fun _ =>
        hpops ▸ Facts.drops_one
      rw [Context.held_binary, htype]
      exact ⟨_, typeClaim_expr hparts.1.1 (hready.mono (by simp)), _, ⟨_, ⟨typeFlow_jump exit
        (Facts.enters_own (Flow.ownStates_label s (testFacts cs τ) 0) (.refl _)) (hdrops l) fun _ => rfl, by simp⟩, rfl⟩,
        _, typeClaim_expr hparts.2.1.1 (hready.mono (by omega)), _, path_branchTest s exit decided (hdrops r), rfl⟩
  case arith a lc s₁ ls rc rs ho =>
    simp only [Parts.part_iff, Parts.ops_iff, Parts.nil_iff] at hparts
    obtain ⟨htype, -, -⟩ := ha.arith_types hk ho
    refine upholds_of_chain fun T cs τ hready => ⟨_, typeClaim_expr hparts.1.1 hready,
      _, typeClaim_expr hparts.2.1.1 (hready.mono hparts.1.2).known, ?_⟩
    rw [Context.held_binary, htype]
    exact chain_row (.single rfl (leads_arith a)) (by simp) rfl
  case compare lc s₁ ls rc s₂ rs ho =>
    simp only [Parts.part_iff, Parts.ops_iff, Parts.nil_iff] at hparts
    obtain ⟨htype, -, -⟩ := ha.compare_types hk ho
    obtain ⟨-, hpops⟩ := BinOp.comparison_pops op (ctx.typeOf l).isPrimitive
    rintro T ⟨cs, τ, note⟩ b ⟨-, hready, rfl⟩
    obtain rfl : note = none := hready.note
    refine ⟨Flow.ownStates s₂ (testFacts cs τ), fun l x => Flow.owned_of_ownStates ?_, ?_⟩
    · simp [testFacts, Flow.Owned, branchMerge]
      omega
    · rw [Context.held_binary, htype]
      exact ⟨_, typeClaim_expr hparts.1.1 hready, _, typeClaim_expr hparts.2.1.1 (hready.mono hparts.1.2).known, _,
        path_branchTest s₂ _ 1 (hpops ▸ Facts.drops_two), rfl⟩

theorem upholds_expr (hi : Installed o ctx.table files) (hs : ctx.Sound) (hr : Rule ctx (.expr e) s items s')
    (hslots : Parts (fun _ t _ t' _ => t.slots ≤ t'.slots) items) (hq : (Piece.expr e).Typable ctx) :
    Upholds ctx o files k (.expr e) s items := by
  have hparts := hr.typable hq hslots
  obtain ⟨dropped, ha⟩ := hq.admitted.admits
  have hplain : ctx.AllPlain e.subterms := hq.plain
  have hwhole := hr
  cases hr
  case neg | not | changeIdent | changeIndex | changeElement | changeField => exact upholds_unary hi hs hwhole hslots hq
  case assignIdent | assignIndex | assignElement | assignField | logical | arith | compare =>
    exact upholds_binary hi hs hwhole hslots hq
  case int => exact upholds_of_chain fun T cs τ _ => chain_row (.single rfl (leads_pushInt _)) (by simp) rfl
  case bool =>
    exact upholds_of_chain fun T cs τ _ =>
      chain_row (.single rfl ((leads_pushInt _).before (.top Fact.implies_any))) (by simp) rfl
  case string v =>
    exact upholds_of_chain fun T cs τ _ =>
      chain_row (.single rfl ((leads_pushString v).before (.top (Fact.implies_of_is (t := .string) fun _ => ⟨v, rfl⟩)))) (by simp) rfl
  case null =>
    exact upholds_of_chain fun T cs τ _ =>
      chain_row (.single rfl (leads_pushNull.before (.top (Fact.implies_of_is (t := .null) fun _ => rfl)))) (by simp) rfl
  case this =>
    refine upholds_of_chain fun T cs τ hready => chain_row (.single rfl (leads_load_known rfl)) (by simp) ?_
    rw [show τ 0 = .val (.cls ctx.className) from hready.self]
    rfl
  case ident sym v hsym =>
    refine upholds_of_chain fun T cs τ hready => chain_row (.cons rfl (leads_load_known rfl) ?_) (by simp) rfl
    rw [show τ sym.slot = .val sym.type from hready.vars _ sym hsym, ← Context.typeOf_ident hsym]
    exact row_unbox
  case field x c owner f t m xc xs ht hf =>
    simp only [Parts.part_iff, Parts.ops_iff, Parts.nil_iff] at hparts
    obtain ⟨cd, hcd, hfield⟩ := hs.flat.field?_eq_some hf
    refine upholds_of_chain fun T cs τ hready => ⟨_, typeClaim_expr hparts.1.1 hready, ?_⟩
    rw [Context.held_of_type ht rfl]
    refine chain_row (.cons rfl (leads_getField ⟨cd, hcd, hfield⟩) ?_) (by simp) rfl
    rw [← Context.typeOf_member_field (t := t) ht hf]
    exact row_unbox
  case method x c d t m xc xs ht hf hm =>
    simp only [Parts.part_iff, Parts.ops_iff, Parts.nil_iff] at hparts
    refine upholds_of_chain fun T cs τ hready => ?_
    -- The reference to the method lies on the stack twice while its object is computed.
    have hnew : Row o ctx.table (Machine.load files) [.new fptrClass, .dup] ⟨cs, τ, none⟩
        ⟨.again :: .known (.made d.2.functionType) :: cs, τ, none⟩ := .cons rfl (leads_newFptr _ _) (.single rfl leads_dup)
    refine chain_row hnew (by simp) ⟨_, typeClaim_expr hparts.1.1 hready.known.again, ?_⟩
    rw [Context.held_of_type ht rfl, Context.held_of_type (Context.typeOf_member_method ht hf hm) rfl]
    exact chain_row (.cons rfl (leads_pushString _) (.single rfl (leads_bind hm))) (by simp) rfl
  case element x es i t m xc xs ht hpos =>
    simp only [Parts.part_iff, Parts.ops_iff, Parts.nil_iff] at hparts
    obtain ⟨hlt, e, he, htype⟩ := ha.element_position hs hplain ht hpos
    have hsolid := ha.member.1.elements_solid hs hparts.1.1.plain ht e (List.mem_of_getElem? he)
    refine upholds_of_chain fun T cs τ hready => ⟨_, typeClaim_expr hparts.1.1 hready, ?_⟩
    rw [Context.held_of_type ht rfl]
    refine chain_row (.cons rfl (leads_pushInt i) (.cons rfl (leads_getElement (.inr ⟨i, e, hlt, rfl, he, by rw [htype]⟩))
      (hi.row_narrow (htype ▸ hsolid)))) (by simp) rfl
  case index t x i xc s₁ xs ic is =>
    simp only [Parts.part_iff, Parts.ops_iff, Parts.nil_iff] at hparts
    obtain ⟨es, ht, hsolid, hpick⟩ := ha.picks hs hplain
    refine upholds_of_chain fun T cs τ hready => ⟨_, typeClaim_expr hparts.1.1 hready, ?_⟩
    rw [Context.held_of_type ht rfl]
    exact ⟨_, typeClaim_expr hparts.2.1.1 (hready.mono hparts.1.2).known,
      chain_row (.cons rfl (leads_getElement hpick) (hi.row_narrow hsolid)) (by simp) rfl⟩
  case list t es ec xs =>
    simp only [Parts.part_iff, Parts.ops_iff, Parts.nil_iff] at hparts
    refine upholds_of_chain fun T cs τ hready => ?_
    rw [Context.held_of_type (ctx.typeOf_list t es) rfl]
    refine chain_row (.append (.cons rfl (leads_newList ((es.map ctx.typeOf).map fun u => ("", u))) (.single rfl leads_dup))
      row_newArrayList) (by simp)
      ⟨_, ⟨hparts.1.1, hready.known.again.adds, [], _, rfl, rfl⟩, ?_⟩
    refine chain_row (.single rfl (leads_listOfArrayList ?_)) (by simp) rfl
    simp [Ty.Below.refl]
  case new t c as ac xs =>
    simp only [Parts.part_iff, Parts.ops_iff, Parts.nil_iff] at hparts
    obtain ⟨hclass, hbelow, htype⟩ := ha.new_below hs hplain
    obtain ⟨cd, hcd⟩ := Option.isSome_iff_exists.1 hclass
    obtain ⟨hmem, hname⟩ := findClass?_name hcd
    refine upholds_of_chain fun T cs τ hready => ?_
    rw [Context.held_of_type htype rfl]
    -- Nothing but its constructor may be called on the object while it is `making`.
    have hnew : (Op.new cd.name.name).Leads o ctx.table (Machine.load files) ⟨cs, τ, none⟩
        ⟨.known (.making cd.name.name []) :: cs, τ, none⟩ := hi.leads_new hmem
    rw [hname] at hnew
    exact chain_row (.cons rfl hnew (.single rfl leads_dup)) (by simp) ⟨_, ⟨hparts.1.1, hready.known.again, rfl⟩,
      chain_row (.single rfl (hi.leads_constructor hclass hbelow)) (by simp) rfl⟩
  case call t f as fc s₁ xs ac ys =>
    simp only [Parts.part_iff, Parts.ops_iff, Parts.nil_iff] at hparts
    obtain ⟨ps, r, hf, hbelow, hsolid, htype⟩ := ha.call_below hs hplain
    refine upholds_of_chain fun T cs τ hready => ⟨_, typeClaim_expr hparts.1.1 hready, ?_⟩
    rw [Context.held_of_type hf rfl, show ctx.held _ = (ctx.typeOf _).held from rfl, htype, hf]
    -- The reference to the method stays below the list in which the arguments gather.
    exact chain_row row_newArrayList (by simp [newArrayList])
      ⟨_, ⟨hparts.2.1.1, (hready.mono hparts.1.2).known.adds, [], _, rfl, rfl⟩,
        chain_row (hi.row_call hbelow hsolid) (by simp) rfl⟩

/-- Elements are added to the list of elements on the stack, as their types say. -/
theorem upholds_elements {line : Int} {es : List Expr} (hr : Rule ctx (.elements line es) s items s')
    (hslots : Parts (fun _ t _ t' _ => t.slots ≤ t'.slots) items) (hq : (Piece.elements line es).Typable ctx) :
    Upholds ctx o files k (.elements line es) s items := by
  have hparts := hr.typable hq hslots
  rintro T ⟨_, τ, note⟩ b ⟨-, hready, ts, cs, rfl, rfl⟩
  obtain rfl : note = none := hready.note
  refine ⟨fun _ => none, by simp, ?_⟩
  cases hr
  case noElements => simp [Flow.Chain]
  case elements e es ec s₁ xs rest ys =>
    simp only [Parts.part_iff, Parts.ops_iff, Parts.nil_iff] at hparts
    refine chain_row (.single rfl leads_dup) (by simp) ⟨_, typeClaim_expr hparts.1.1 hready.again, ?_⟩
    refine chain_row (row_box (ctx.isPrimitive_or_held e)) (fun h => by rw [Context.held_of_box h])
      (chain_row row_addElement (by simp [addElement]) ⟨_, ⟨hparts.2.1.1, ?_, _, cs, rfl, rfl⟩, ?_⟩)
    · exact hready.pop.adds.mono hparts.1.2
    · simp [Flow.Chain]

/-- The values of arguments are left in a row, as their types say. -/
theorem upholds_args {es : List Expr} (hr : Rule ctx (.args es) s items s')
    (hslots : Parts (fun _ t _ t' _ => t.slots ≤ t'.slots) items) (hq : (Piece.args es).Typable ctx) :
    Upholds ctx o files k (.args es) s items := by
  have hparts := hr.typable hq hslots
  rintro T ⟨cs, τ, note⟩ b ⟨-, hready, rfl⟩
  obtain rfl : note = none := hready.note
  refine ⟨fun _ => none, by simp, ?_⟩
  cases hr
  case noArgs => rfl
  case args e es ec s₁ xs rest ys =>
    simp only [Parts.part_iff, Parts.ops_iff, Parts.nil_iff] at hparts
    refine ⟨_, typeClaim_expr hparts.1.1 hready, chain_row (row_box (ctx.isPrimitive_or_held e))
      (fun h => by rw [Context.held_of_box h]) ⟨_, ⟨hparts.2.1.1, (hready.mono hparts.1.2).known, ?_⟩, rfl⟩⟩
    simp [Cell.values_cons]

end Rule

end ClassCompiler
