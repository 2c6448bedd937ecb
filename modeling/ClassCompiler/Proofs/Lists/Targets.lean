import ClassCompiler.Proofs.Lists.Stores

namespace ClassCompiler

section

variable {m : Machine} {ctx : Context} {mc : MethodCode} {callers : Outer} {entry : String} {spans : List Span} {x : Span}
  {c d : Spot} {s : State} {temps : List Nat}

def Copies (copy : Option Nat) : Set Nat := {b | copy = some b}

theorem Copies.none : Copies none = ∅ := Set.eq_empty_of_forall_notMem fun _ h => by cases h

theorem Copies.some {b : Nat} : Copies (some b) = {b} := Set.ext fun _ => ⟨fun h => (Option.some.inj h).symm, fun h => h ▸ rfl⟩

theorem Spot.Hidden.copyOf {left right : Ty} (hc : c.Hidden ∅) (hlocals : ∀ v ∈ d.locals, v.Clear ∅ c.heap.size)
    (hheap : d.heap = if left.isList && right.isList then c.heap.push (.list []) else c.heap) :
    d.Hidden (Copies (Crosses.copyOf left right c.heap)) := by
  unfold Crosses.copyOf
  split at hheap
  · next hlists =>
    rw [if_pos hlists, Copies.some, ← insert_empty_eq c.heap.size]
    refine ⟨hheap ▸ hc.heap.push_hidden (.list []), fun v hv => ?_⟩
    rw [hheap, Array.size_push]
    exact (hlocals v hv).insert_size
  · next hlists =>
    rw [if_neg hlists, Copies.none]
    exact ⟨hheap ▸ hc.heap, fun v hv => hheap ▸ hlocals v hv⟩

/-- The value of an assignment is computed where its place has been found, and stored there. -/
theorem Machine.RunsParts.value {t : Token} {l r : Expr} {u u' : Supply} {code : List Instr} {sp : List Span} {ops : List Op}
    {line' line'' : Int} {k : Nat} {found : List Value} {locals : Array Value} (line : Int) (pre : List Op)
    (more : List Value)
    (hn : ∀ cls, argCount (ctx.table.constructorDescriptor cls) = (ctx.table.constructorParams cls).length)
    (hl : LabelsOnce mc.code) (hr : m.Reaches entry s) (hs : s.IsAt mc callers d) (hpc : d.pc = k)
    (hitems : ItemsAt ctx mc spans k [.ops line pre, .ops line' (copyBegin (ctx.typeOf l) (ctx.typeOf r)),
      .part (.expr r) u code u' sp, .ops line' (copyEnd (ctx.typeOf l) (ctx.typeOf r)), .ops line'' ops])
    (hstop : x.start + x.length = k + (codeOf [.ops line pre, .ops line' (copyBegin (ctx.typeOf l) (ctx.typeOf r)),
      .part (.expr r) u code u' sp, .ops line' (copyEnd (ctx.typeOf l) (ctx.typeOf r)), .ops line'' ops]).length)
    (hsize : c.heap.size ≤ d.heap.size) (hd : d.Hidden ∅) (hclear : ∀ v ∈ locals, v.Clear ∅ d.heap.size)
    (hfound : ∀ v ∈ found, v.Clear ∅ d.heap.size) (hlen : found.length = l.finders.length) (hmore : more.length ≤ 3)
    (hlocals : ∀ i, i ∉ temps → locals[i]? = d.locals[i]?)
    (htemps : ∀ i : Nat, i ∈ temps → ¬OwnSlot ctx.method.slotCount u u' i)
    (hcross : ∀ {hi : Nat} {E : Spot → Cause → Prop} {Q : Spot → State → Prop} {rest : List Instr},
      (∀ e, mc.Full (c.stack.length + 4) → E e .stackOverflow) →
      (∀ e s', e.stack = more ++ c.stack → e.locals = locals → e.heap = d.heap →
        Crosses m mc callers d.pc hi E Q rest e s') → Crosses m mc callers d.pc hi E Q (onLine line pre ++ rest) d s)
    (haim : ∀ f s', m.Reaches entry s' → s'.IsAt mc callers f →
      (∀ i : Nat, ¬OwnSlot ctx.method.slotCount u u' i → f.locals[i]? = locals[i]?) →
      Found ctx (ctx.typeOf l) (ctx.typeOf r) f.locals l found more ops)
    (htype : ctx.typeOf (.binary t .assign l r) = ctx.typeOf r) (htakes : Ty.Takes (ctx.typeOf l) (ctx.typeOf r)) :
    m.RunsParts mc callers (c.stack.length + 4) temps
      (m.Finishes mc callers ctx x (.binary t .assign l r) l (some r) temps c)
      [⟨.expr r, u, k + pre.length + (copyBegin (ctx.typeOf l) (ctx.typeOf r)).length, code.length⟩] found d s := by
  subst hpc
  obtain ⟨hpre, hbegin, he, -, hend, hops, -⟩ := hitems
  have hglue := CodeAt.append_iff.2 ⟨hpre, by rwa [length_onLine]⟩
  have hpost := CodeAt.append_iff.2 ⟨hend, by rwa [length_onLine]⟩
  refine .next (P := fun e => e.stack = Crosses.copyRefs (Crosses.copyOf (ctx.typeOf l) (ctx.typeOf r) d.heap) ++
    (more ++ c.stack) ∧ e.locals = locals ∧ e.heap = if (ctx.typeOf l).isList && (ctx.typeOf r).isList then
      d.heap.push (.list []) else d.heap) (D := Copies (Crosses.copyOf (ctx.typeOf l) (ctx.typeOf r) d.heap)) he hn hl hr hs
    hglue (by simp [length_onLine, Nat.add_assoc]) ?_ ?_ htemps ?_
  -- In front of the value: where it will go, and the new list if one is to be copied to.
  · refine hcross (fun _ hf => ⟨rfl, hf⟩) fun e s₁ hes hel heh => ?_
    rw [← List.append_nil (onLine line' _)]
    refine .copyBegin (fun _ hf => ⟨rfl, hf.mono (by simp [hes]; omega)⟩) fun f s₂ hfs hfl hfh => .nil ?_
    exact ⟨by rw [hfs, hes, heh], hfl.trans hel, heh ▸ hfh⟩
  · rintro e ⟨-, hel, heh⟩
    refine ⟨hd.copyOf (hel ▸ hclear) heh, fun i hi => by rw [hel, hlocals i hi], ?_⟩
    rw [heh]
    split
    · exact .push _ _
    · exact .refl
  -- Behind it: the value has touched neither the place nor the new list, which it could not name.
  · rintro e f v s₁ ⟨hes, hel, heh⟩ hgoes hr₁ hs₁ hpc
    have hhidden : f.Hidden (Copies (Crosses.copyOf (ctx.typeOf l) (ctx.typeOf r) d.heap)) :=
      ⟨hgoes.keeps.hides, hgoes.locals⟩
    have hfound' := haim f s₁ hr₁ hs₁ fun i hi => by rw [hgoes.same i hi, hel]
    refine ⟨Crosses.copyOf (ctx.typeOf l) (ctx.typeOf r) d.heap, fun b hb => ?_, fun found' stored hvs hfits hright _ => ?_⟩
    · refine ⟨?_, ?_⟩
      · unfold Crosses.copyOf at hb
        split at hb
        · rwa [← Option.some.inj hb]
        · cases hb
      · rwa [hb, Copies.some] at hhidden
    · obtain ⟨rfl, rfl⟩ := List.append_inj hvs (hlen.trans hfits.length_eq)
      obtain ⟨hv, -⟩ := List.forall₂_cons.1 hright
      rw [← hpc] at hpost
      have hstop : x.start + x.length =
          f.pc + (onLine line' (copyEnd (ctx.typeOf l) (ctx.typeOf r)) ++ onLine line'' ops).length := by
        simp [hstop, hpc, codeOf, Item.code, length_onLine]
        omega
      refine hfound'.puts htype htakes (by rw [hgoes.stack, hes]; rfl) ?_ (fun b hb => ?_) hfits hv hpost hstop le_rfl hs₁
      · unfold Crosses.copyOf
        split <;> simp_all
      · have hkept := hgoes.keeps.same b hb
        unfold Crosses.copyOf at hb
        split at hb
        · next hlists =>
          obtain rfl := Option.some.inj hb
          rw [heh, if_pos hlists] at hkept
          refine ⟨hkept.trans (Heap.get?_push _ _), fun hmem => ?_⟩
          exact Nat.lt_irrefl _ (hfound _ hmem _ rfl).1
        · cases hb

end

/-- An expression that stores has its parts among the spans of the method, and slots for what it keeps that neither
variables nor the code around it have; whenever it is run it stores as it should. -/
def Span.StoresAt (m : Machine) (mc : MethodCode) (ctx : Context) (spans : List Span) (x : Span) (e target : Expr)
    (right : Option Expr) : Prop :=
  ∃ parts temps, (∀ y ∈ parts, y ∈ spans) ∧ parts.map Span.expr? = (target.finders ++ right.toList).map some ∧
    ctx.method.slotCount ≤ x.before.slots ∧ (∀ n ∈ temps, x.before.slots ≤ n) ∧
    ∀ entry callers c s, m.Reaches entry s → s.IsAt mc callers c → c.pc = x.start →
      m.Stores mc callers ctx x parts e target right temps c s

/-- The items of a piece stand at a span in a method of a machine whose methods have frames for their code. -/
structure Span.Carries (m : Machine) (mc : MethodCode) (ctx : Context) (spans : List Span) (x : Span)
    (items : List Item) : Prop where
  placed : ItemsAt ctx mc spans x.start items
  length : x.length = (codeOf items).length
  slots : ctx.method.slotCount ≤ x.before.slots
  labels : LabelsOnce mc.code
  frames : ∃ o : CompileOptions, ∀ mc, m.HasMethod mc → ∃ n, FrameOf o n mc
  args : ∀ cls, argCount (ctx.table.constructorDescriptor cls) = (ctx.table.constructorParams cls).length

section

variable {m : Machine} {ctx : Context} {mc : MethodCode} {spans : List Span} {x : Span} {t u : Token} {items : List Item}
  {after s₁ s₂ : Supply} {l r y i : Expr} {id : Ident} {yc ic rc : List Instr} {ys is rs : List Span}

/-- A call has the slots that are named in its code. -/
theorem CodeAt.slots {callers : Outer} {entry : String} {s : State} {c : Spot} {k : Nat} {line : Int} {ops : List Op}
    (hat : CodeAt mc.code k (onLine line ops)) (hm : ∃ o : CompileOptions, ∀ mc, m.HasMethod mc → ∃ n, FrameOf o n mc)
    (hr : m.Reaches entry s) (hs : s.IsAt mc callers c) (op : Op) (hop : op ∈ ops) {n : Nat}
    (hn : op.slot? = some (n : Int)) : n < c.locals.size := by
  obtain ⟨o, hm⟩ := hm
  obtain ⟨j, hj⟩ := List.mem_iff_getElem?.1 hop
  exact hr.slots hm hs ⟨line, hat j ⟨op, line⟩ (by simp [onLine, hj])⟩ hn

theorem Piece.StandsAt.slots_mono {q : Piece} {u u' : Supply} {code : List Instr} {k : Nat}
    (h : q.StandsAt ctx mc u code u' k) : u.slots ≤ u'.slots := by
  obtain ⟨-, ⟨_, hemits⟩, -⟩ := h
  exact hemits.slots_mono

theorem not_ownSlot {n j : Nat} {u u' : Supply} (hn : n ≤ j) (hj : j < u.slots ∨ u'.slots ≤ j) : ¬OwnSlot n u u' j := by
  unfold OwnSlot
  omega

theorem forall_mem_setIfInBounds {P : Value → Prop} {locals : Array Value} {n : Nat} {w : Value} (h : ∀ v ∈ locals, P v)
    (hw : P w) : ∀ v ∈ locals.setIfInBounds n w, P v := fun v hv => by
  rcases Array.mem_or_eq_of_mem_setIfInBounds hv with hv | rfl
  · exact h v hv
  · exact hw

section

variable (htype : ctx.typeOf (.binary t .assign l r) = ctx.typeOf r) (htakes : Ty.Takes (ctx.typeOf l) (ctx.typeOf r))

include htype htakes

theorem Span.Carries.assignIdent {sym : Symbol} (hl : l = .ident id) (hsym : ctx.method.symbol? id.name = some sym)
    (h : x.Carries m mc ctx spans [.ops r.line (copyBegin (ctx.typeOf l) (ctx.typeOf r)),
      .part (.expr r) x.before rc after rs, .ops r.line (copyEnd (ctx.typeOf l) (ctx.typeOf r)),
      .ops t.pos.line (.dup :: box (ctx.typeOf r) ++ [.store .ref sym.slot])]) :
    x.StoresAt m mc ctx spans (.binary t .assign l r) l (some r) := by
  subst hl
  have hops := h.placed.2.2.2.2.1
  refine ⟨_, [], List.forall_mem_singleton.2 h.placed.2.2.1, rfl, h.slots, by simp,
    fun entry callers c s hreach hs hpc => ?_⟩
  have hhidden := hreach.bounded.hidden hs
  exact .value 0 [] [] h.args h.labels hreach hs hpc ⟨.nil, h.placed⟩ (by rw [h.length]; rfl) le_rfl hhidden
    hhidden.locals (by simp) rfl (by simp) (fun _ _ => rfl) (by simp) (fun _ hk => hk c s rfl rfl rfl)
    (fun f s' hf hs' _ => .ident hsym (hops.slots h.frames hf hs' _ List.mem_concat_self rfl)) htype htakes

theorem Span.Carries.assignIndex {ts : List (String × Ty)} (hl : l = .index u y i) (hts : ctx.typeOf y = .list ts)
    (h : x.Carries m mc ctx spans [.part (.expr y) x.before yc s₁ ys, .ops t.pos.line [.dup],
      .part (.expr i) s₁ ic s₂ is, .ops t.pos.line [.dup, .store .int s₂.slots],
      .ops r.line (copyBegin (ctx.typeOf l) (ctx.typeOf r)), .part (.expr r) (s₂.take 0 1) rc after rs,
      .ops r.line (copyEnd (ctx.typeOf l) (ctx.typeOf r)),
      .ops t.pos.line (storeElementOps (ctx.typeOf l) (ctx.typeOf r) (.load .int s₂.slots))]) :
    x.StoresAt m mc ctx spans (.binary t .assign l r) l (some r) := by
  subst hl
  obtain ⟨hy, hymem, hdup, hi, himem, hitems⟩ := h.placed
  have hslots := h.slots
  have hmono := hy.slots_mono
  have hmono' := hi.slots_mono
  refine ⟨[_, _, _], [s₂.slots], List.forall_mem_cons.2 ⟨hymem, List.forall_mem_cons.2 ⟨himem,
    List.forall_mem_singleton.2 hitems.2.2.2.1⟩⟩, rfl, hslots, List.forall_mem_singleton.2 (by omega),
    fun entry callers c s hreach hs hpc => ?_⟩
  refine .first hy h.args h.labels hreach hs hpc (List.forall_mem_singleton.2 (not_ownSlot (by omega) (by omega)))
    fun f v s' hgoes hr₁ hs₁ hpc₁ => ?_
  rw [← hpc₁] at hdup
  refine .next (P := fun d => d = f.next (v :: f.stack)) (D := ∅) hi h.args h.labels hr₁ hs₁ hdup (by rw [hpc₁]; rfl)
    (.step (by simp) (.dup hgoes.stack fun hf => ⟨rfl, hf.mono (by simp)⟩) rfl fun _ => .nil (by rw [hgoes.stack]; rfl))
    ?_ (List.forall_mem_singleton.2 (not_ownSlot (by omega) (by omega))) ?_
  · rintro _ rfl
    exact ⟨⟨(hr₁.bounded.hidden hs₁).heap, (hr₁.bounded.hidden hs₁).locals⟩, fun _ _ => rfl, .refl⟩
  rintro _ g n s'' rfl hgoes' hr₂ hs₂ hpc₂
  have hst : g.stack = n :: v :: v :: c.stack := by
    rw [hgoes'.stack]
    exact congrArg (n :: v :: ·) hgoes.stack
  have hslot : s₂.slots < g.locals.size := hitems.1.slots h.frames hr₂ hs₂ (.store .int s₂.slots) (by simp) rfl
  have hhidden := hr₂.bounded.hidden hs₂
  have hkept : ¬OwnSlot ctx.method.slotCount (s₂.take 0 1) after s₂.slots := not_ownSlot (by omega) (.inl (by simp))
  refine .value t.pos.line [.dup, .store .int _] [n, v, v] h.args h.labels hr₂ hs₂ hpc₂ hitems ?_
    (hgoes.keeps.size.trans hgoes'.keeps.size) hhidden
    (forall_mem_setIfInBounds hhidden.locals (hgoes'.clear n (by simp))) ?_ rfl (by simp)
    (fun j hj => Array.getElem?_setIfInBounds_ne fun he => hj (List.mem_singleton.2 he.symm))
    (List.forall_mem_singleton.2 hkept)
    (fun hfull hk => .keepIn hst hslot (fun d hf => hfull d (hf.mono (by simp))) hk)
    (fun f' _ _ _ hsame => .index hts ?_) htype htakes
  · simp [h.length, codeOf, Item.code, length_onLine]
    omega
  · have hv := (hgoes.clear v (by simp)).mono hgoes'.keeps.size
    simpa using ⟨hv, hgoes'.clear n (by simp)⟩
  · rw [hsame s₂.slots hkept, Array.getElem?_setIfInBounds_self, if_pos hslot]

theorem Span.Carries.assignElement {ts : List (String × Ty)} {k : Nat} (hl : l = .member u y id)
    (hts : ctx.typeOf y = .list ts) (hk : Ty.position? ts id.name = some k)
    (h : x.Carries m mc ctx spans [.part (.expr y) x.before yc s₁ ys, .ops t.pos.line [.dup, .pushInt k],
      .ops r.line (copyBegin (ctx.typeOf l) (ctx.typeOf r)), .part (.expr r) s₁ rc after rs,
      .ops r.line (copyEnd (ctx.typeOf l) (ctx.typeOf r)),
      .ops t.pos.line (storeElementOps (ctx.typeOf l) (ctx.typeOf r) (.pushInt k))]) :
    x.StoresAt m mc ctx spans (.binary t .assign l r) l (some r) := by
  subst hl
  obtain ⟨hy, hymem, hitems⟩ := h.placed
  refine ⟨[_, _], [], List.forall_mem_cons.2 ⟨hymem, List.forall_mem_singleton.2 hitems.2.2.2.1⟩, rfl, h.slots, by simp,
    fun entry callers c s hreach hs hpc => ?_⟩
  refine .first hy h.args h.labels hreach hs hpc (by simp) fun f v s' hgoes hr₁ hs₁ hpc₁ => ?_
  have hhidden := hr₁.bounded.hidden hs₁
  refine .value t.pos.line [.dup, .pushInt k] [.int (Int32.ofInt k), v, v] h.args h.labels hr₁ hs₁ hpc₁ hitems ?_
    hgoes.keeps.size hhidden hhidden.locals (List.forall_mem_singleton.2 (hgoes.clear v (by simp))) rfl (by simp)
    (fun _ _ => rfl) (by simp) (fun hfull hgo => ?_) (fun _ _ _ _ _ => .element hts hk) htype htakes
  · simp [h.length, codeOf, Item.code, length_onLine]
    omega
  · refine .step (by simp) (.dup hgoes.stack fun hf => hfull _ (hf.mono (by simp))) rfl fun _ => ?_
    exact .step (by simp) (.pushInt fun hf => hfull _ (hf.mono (by simp [Spot.next]))) rfl fun s₂ => hgo _ s₂ rfl rfl rfl

theorem Span.Carries.assignField {cls owner desc : String} (hl : l = .member u y id) (hcls : ctx.typeOf y = .cls cls)
    (h : x.Carries m mc ctx spans [.part (.expr y) x.before yc s₁ ys, .ops t.pos.line [.dup],
      .ops r.line (copyBegin (ctx.typeOf l) (ctx.typeOf r)), .part (.expr r) s₁ rc after rs,
      .ops r.line (copyEnd (ctx.typeOf l) (ctx.typeOf r)),
      .ops t.pos.line (storeField (ctx.typeOf l) (ctx.typeOf r) ⟨owner, id.name, desc⟩)]) :
    x.StoresAt m mc ctx spans (.binary t .assign l r) l (some r) := by
  subst hl
  obtain ⟨hy, hymem, hitems⟩ := h.placed
  refine ⟨[_, _], [], List.forall_mem_cons.2 ⟨hymem, List.forall_mem_singleton.2 hitems.2.2.2.1⟩, rfl, h.slots, by simp,
    fun entry callers c s hreach hs hpc => ?_⟩
  refine .first hy h.args h.labels hreach hs hpc (by simp) fun f v s' hgoes hr₁ hs₁ hpc₁ => ?_
  have hhidden := hr₁.bounded.hidden hs₁
  refine .value t.pos.line [.dup] [v, v] h.args h.labels hr₁ hs₁ hpc₁ hitems ?_ hgoes.keeps.size hhidden hhidden.locals
    (List.forall_mem_singleton.2 (hgoes.clear v (by simp))) rfl (by simp) (fun _ _ => rfl) (by simp)
    (fun hfull hgo => ?_) (fun _ _ _ _ _ => .field hcls) htype htakes
  · simp [h.length, codeOf, Item.code, length_onLine]
    omega
  · exact .step (by simp) (.dup hgoes.stack fun hf => hfull _ (hf.mono (by simp))) rfl fun s₂ => hgo _ s₂ rfl rfl rfl

end

section

variable {op : UnOp} {e : Expr} (htype : ctx.typeOf (.unary t op e) = .int)

include htype

theorem Span.Carries.changeIdent {sym : Symbol} (he : e = .ident id) (hsym : ctx.method.symbol? id.name = some sym)
    (h : x.Carries m mc ctx spans [.ops t.pos.line (changeVariable sym.slot op)]) :
    x.StoresAt m mc ctx spans (.unary t op e) e none := by
  subst he
  refine ⟨[], [], by simp, rfl, h.slots, by simp, fun entry callers c s hreach hs hpc => ?_⟩
  refine ⟨none, by simp, fun found stored hvs hfits hright hold => ?_⟩
  obtain ⟨rfl, rfl⟩ := List.append_eq_nil_iff.1 hvs.symm
  obtain ⟨w, n, hw, hint⟩ := hold rfl _ (.ident hsym)
  refine putsVariable hsym htype hw hint (hpc ▸ h.placed.1) ?_ le_rfl hs
  simp [h.length, hpc, codeOf, Item.code]

/-- The list is kept in the first slot, the index in the second, and the number in the third. -/
theorem Span.Carries.changeIndex {ts : List (String × Ty)} (he : e = .index u y i) (hts : ctx.typeOf y = .list ts)
    (h : x.Carries m mc ctx spans [.part (.expr y) (x.before.take 0 3) yc s₁ ys, .ops t.pos.line [.store .ref x.before.slots],
      .part (.expr i) s₁ ic after is, .ops t.pos.line [.store .int ((x.before.slots + 1 : Nat) : Int)],
      .ops t.pos.line (changeElement x.before.slots (x.before.slots + 2)
        (.load .int ((x.before.slots + 1 : Nat) : Int)) op)]) :
    x.StoresAt m mc ctx spans (.unary t op e) e none := by
  subst he
  obtain ⟨hy, hymem, hkeep, hi, himem, hkeep', hchange, -⟩ := h.placed
  have hslots := h.slots
  have hmono := hy.slots_mono
  simp only [Supply.take_slots] at hmono
  have htemps : ∀ {u' s' : Supply}, x.before.slots + 3 ≤ u'.slots →
      ∀ j ∈ [x.before.slots, x.before.slots + 1, x.before.slots + 2], ¬OwnSlot ctx.method.slotCount u' s' (j : Nat) := by
    intro u' s' hle j hj
    have hj : j = x.before.slots ∨ j = x.before.slots + 1 ∨ j = x.before.slots + 2 := by simpa using hj
    exact not_ownSlot (by omega) (by omega)
  refine ⟨[_, _], [x.before.slots, x.before.slots + 1, x.before.slots + 2],
    List.forall_mem_cons.2 ⟨hymem, List.forall_mem_singleton.2 himem⟩, rfl, hslots, by simp,
    fun entry callers c s hreach hs hpc => ?_⟩
  refine .first hy h.args h.labels hreach hs hpc (htemps le_rfl) fun f v s' hgoes hr₁ hs₁ hpc₁ => ?_
  have hslot := hkeep.slots h.frames hr₁ hs₁ (.store .ref x.before.slots) (by simp) rfl
  have hhidden := hr₁.bounded.hidden hs₁
  rw [← hpc₁] at hkeep
  refine .next (P := fun d => d = { f.next c.stack with locals := f.locals.setIfInBounds x.before.slots v }) (D := ∅)
    hi h.args h.labels hr₁ hs₁ hkeep (by rw [hpc₁]; rfl) (.store hgoes.stack hslot fun _ => .nil rfl) ?_ (htemps hmono) ?_
  · rintro _ rfl
    exact ⟨⟨hhidden.heap, forall_mem_setIfInBounds hhidden.locals (hgoes.clear v (by simp))⟩,
      fun j hj => Array.getElem?_setIfInBounds_ne fun he => hj (by simp [he]), .refl⟩
  rintro _ g n s'' rfl hgoes' hr₂ hs₂ hpc₂
  refine ⟨none, by simp, fun found stored hvs hfits hright hold => ?_⟩
  obtain ⟨rfl, rfl⟩ := List.append_inj ((List.append_nil [v, n]).trans hvs) hfits.length_eq
  obtain ⟨hv, -⟩ := List.forall₂_cons.1 hfits
  obtain ⟨es, hes⟩ := Machine.Fits.list_or_null hts hv
  have hfirst : g.locals[x.before.slots]? = some v := by
    rw [hgoes'.same x.before.slots (htemps hmono _ (by simp))]
    simp [hslot]
  have hsecond := hkeep'.slots h.frames hr₂ hs₂ (.store .int ((x.before.slots + 1 : Nat) : Int)) (by simp) rfl
  have hthird := hchange.slots h.frames hr₂ hs₂ (.load .int ((x.before.slots + 2 : Nat) : Int))
    (by simp [ClassCompiler.changeElement]) rfl
  have hcode := CodeAt.append_iff.2 ⟨hkeep', by rwa [length_onLine]⟩
  rw [← hpc₂] at hcode
  refine Crosses.store hgoes'.stack hsecond (fun _ => putsElement n htype hes (fun a k ha hk hlt => ?_)
    (fun cause hno => hno.unaddressed hes fun a ho => .index ho) (hold rfl) rfl rfl
    (fun j hj => Array.getElem?_setIfInBounds_ne fun he => hj (by simp [he])) ?_ (by simpa using hthird) (by simp)
    fun he hlen hk => ?_) hcode ?_ le_rfl hs₂
  · subst ha
    exact .index (hes.resolve_left (by simp)) hk hlt
  · exact (Array.getElem?_setIfInBounds_ne (by omega)).trans hfirst
  · exact .load (by rw [he]; simp [hsecond]) (fun hf => .inl ⟨rfl, hf.mono (by omega)⟩) hk
  · simp [h.length, hpc₂, codeOf, Item.code, length_onLine]
    omega

/-- The list is kept in the first slot, and the number in the second. -/
theorem Span.Carries.changeElement {ts : List (String × Ty)} {k : Nat} (he : e = .member u y id)
    (hts : ctx.typeOf y = .list ts) (hk : Ty.position? ts id.name = some k)
    (h : x.Carries m mc ctx spans [.part (.expr y) (x.before.take 0 2) yc after ys,
      .ops t.pos.line [.store .ref x.before.slots],
      .ops t.pos.line (changeElement x.before.slots (x.before.slots + 1) (.pushInt k) op)]) :
    x.StoresAt m mc ctx spans (.unary t op e) e none := by
  subst he
  obtain ⟨hy, hymem, hkeep, hchange, -⟩ := h.placed
  have hslots := h.slots
  refine ⟨[_], [x.before.slots, x.before.slots + 1], List.forall_mem_singleton.2 hymem, rfl, hslots, by simp,
    fun entry callers c s hreach hs hpc => ?_⟩
  refine .first hy h.args h.labels hreach hs hpc ?_ fun f v s' hgoes hr₁ hs₁ hpc₁ => ?_
  · intro j hj
    have hj : j = x.before.slots ∨ j = x.before.slots + 1 := by simpa using hj
    exact not_ownSlot (by omega) (.inl (by rw [Supply.take_slots]; omega))
  refine ⟨none, by simp, fun found stored hvs hfits hright hold => ?_⟩
  obtain ⟨rfl, rfl⟩ := List.append_inj ((List.append_nil [v]).trans hvs) hfits.length_eq
  obtain ⟨hv, -⟩ := List.forall₂_cons.1 hfits
  obtain ⟨es, hes⟩ := Machine.Fits.list_or_null hts hv
  have hfirst := hkeep.slots h.frames hr₁ hs₁ (.store .ref x.before.slots) (by simp) rfl
  have hsecond := hchange.slots h.frames hr₁ hs₁ (.load .int ((x.before.slots + 1 : Nat) : Int))
    (by simp [ClassCompiler.changeElement]) rfl
  have hcode := CodeAt.append_iff.2 ⟨hkeep, by rwa [length_onLine]⟩
  rw [← hpc₁] at hcode
  refine Crosses.store hgoes.stack hfirst (fun _ => putsElement (.int (Int32.ofInt k)) htype hes
    (fun a k ha hk' hlt => ?_) (fun cause hno => hno.unaddressed hes fun a ho => .element hts hk ho) (hold rfl) rfl rfl
    (fun j hj => Array.getElem?_setIfInBounds_ne fun he => hj (by simp [he])) (by simp [hfirst]) (by simpa using hsecond)
    (by simp) fun he hlen hk => ?_) hcode ?_ le_rfl hs₁
  · subst ha
    exact .element hts hk (hes.resolve_left (by simp)) hk' hlt
  · exact .step (by simp) (.pushInt fun hf => .inl ⟨rfl, hf.mono (by omega)⟩) rfl hk
  · simp [h.length, hpc₁, codeOf, Item.code, length_onLine]
    omega

/-- The object is kept in the first slot, and the number in the second. -/
theorem Span.Carries.changeField {cls owner desc : String} (he : e = .member u y id) (hcls : ctx.typeOf y = .cls cls)
    (h : x.Carries m mc ctx spans [.part (.expr y) (x.before.take 0 2) yc after ys,
      .ops t.pos.line [.store .ref x.before.slots],
      .ops t.pos.line (changeField x.before.slots (x.before.slots + 1) ⟨owner, id.name, desc⟩ op)]) :
    x.StoresAt m mc ctx spans (.unary t op e) e none := by
  subst he
  obtain ⟨hy, hymem, hkeep, hchange, -⟩ := h.placed
  have hslots := h.slots
  refine ⟨[_], [x.before.slots, x.before.slots + 1], List.forall_mem_singleton.2 hymem, rfl, hslots, by simp,
    fun entry callers c s hreach hs hpc => ?_⟩
  refine .first hy h.args h.labels hreach hs hpc ?_ fun f v s' hgoes hr₁ hs₁ hpc₁ => ?_
  · intro j hj
    have hj : j = x.before.slots ∨ j = x.before.slots + 1 := by simpa using hj
    exact not_ownSlot (by omega) (.inl (by rw [Supply.take_slots]; omega))
  refine ⟨none, by simp, fun found stored hvs hfits hright hold => ?_⟩
  obtain ⟨rfl, rfl⟩ := List.append_inj ((List.append_nil [v]).trans hvs) hfits.length_eq
  obtain ⟨hv, -⟩ := List.forall₂_cons.1 hfits
  obtain ⟨cls', fields, hinst⟩ := Machine.Fits.inst_or_null hcls hv
  have hfirst := hkeep.slots h.frames hr₁ hs₁ (.store .ref x.before.slots) (by simp) rfl
  have hsecond := hchange.slots h.frames hr₁ hs₁ (.load .int ((x.before.slots + 1 : Nat) : Int))
    (by simp [ClassCompiler.changeField]) rfl
  have hcode := CodeAt.append_iff.2 ⟨hkeep, by rwa [length_onLine]⟩
  rw [← hpc₁] at hcode
  refine Crosses.store hgoes.stack hfirst (fun _ => putsField htype hcls hinst (hold rfl) rfl rfl
    (fun j hj => Array.getElem?_setIfInBounds_ne fun he => hj (by simp [he])) (by simp [hfirst]) (by simpa using hsecond)
    (by simp)) hcode ?_ le_rfl hs₁
  simp [h.length, hpc₁, codeOf, Item.code, length_onLine]
  omega

end

theorem Rule.assigns (hr : Rule ctx (.expr (.binary t .assign l r)) x.before items after)
    (h : x.Carries m mc ctx spans items) (hlist : ∀ u y i, l = .index u y i → ∃ ts, ctx.typeOf y = .list ts)
    (htype : ctx.typeOf (.binary t .assign l r) = ctx.typeOf r) (htakes : Ty.Takes (ctx.typeOf l) (ctx.typeOf r)) :
    x.StoresAt m mc ctx spans (.binary t .assign l r) l (some r) := by
  cases hr with
  | assignIdent hsym => exact h.assignIdent htype htakes rfl hsym
  | assignIndex hl =>
    obtain ⟨ts, hts⟩ := hlist _ _ _ hl
    exact h.assignIndex htype htakes hl hts
  | assignElement hl hts hk => exact h.assignElement htype htakes hl hts hk
  | assignField hl hcls => exact h.assignField htype htakes hl hcls
  | logical ho => simp [BinOp.shortcut?] at ho
  | arith ho => simp [BinOp.arith?] at ho
  | compare ho => simp [BinOp.isComparison] at ho

theorem Rule.changes {op : UnOp} {e : Expr} (ho : op.isIncDec = true)
    (hr : Rule ctx (.expr (.unary t op e)) x.before items after) (h : x.Carries m mc ctx spans items)
    (hlist : ∀ u y i, e = .index u y i → ∃ ts, ctx.typeOf y = .list ts)
    (htype : ctx.typeOf (.unary t op e) = .int) : x.StoresAt m mc ctx spans (.unary t op e) e none := by
  cases hr with
  | changeIdent _ hsym => exact h.changeIdent htype rfl hsym
  | changeIndex =>
    obtain ⟨ts, hts⟩ := hlist _ _ _ rfl
    exact h.changeIndex htype rfl hts
  | changeElement _ hts hk => exact h.changeElement htype rfl hts hk
  | changeField _ hcls => exact h.changeField htype rfl hcls
  | neg => cases ho
  | not => cases ho

end

/-- What may stand for another is kept as that is. -/
theorem Ty.takes_of_isSubtype {isA : String → String → Bool} {left right : Ty} (h : isSubtype isA right left = true)
    (hr : right.isNoType = false) : left.Takes right := by
  have hprim := isPrimitive_of_isSubtype h hr
  refine ⟨hprim.symm, fun hleft => ?_, fun hnull => ?_⟩
  · cases left <;> cases right <;> simp_all [isSubtype, isPrimitive, isNoType]
  · cases right <;> simp_all [isNull, isPrimitive]

/-- The checker has seen to it that a store finds what it stores to. -/
theorem Span.Stands.storesAt {m : Machine} {ctx : Context} {mc : MethodCode} {spans : List Span} {x : Span}
    {e target : Expr} {right : Option Expr} (h : x.Stands ctx mc spans) (hk : ctx.Known) (ha : x.piece.Admitted ctx)
    (he : x.expr? = some e) (hstore : e.store? = some (target, right))
    (hm : ∃ o : CompileOptions, ∀ mc, m.HasMethod mc → ∃ n, FrameOf o n mc)
    (hn : ∀ cls, argCount (ctx.table.constructorDescriptor cls) = (ctx.table.constructorParams cls).length) :
    x.StoresAt m mc ctx spans e target right := by
  have hpiece : x.piece = .expr e := by
    cases hp : x.piece <;> simp_all [Span.expr?, Piece.expr?]
  obtain ⟨items, after, hr, hitems, hlen⟩ := h.itemsAt
  have hcarries : x.Carries m mc ctx spans items := ⟨hitems, hlen, h.slots, h.labels, hm, hn⟩
  rw [hpiece] at hr ha
  obtain ⟨dropped, hadmits⟩ := ha.admits
  have hlist : ∀ {dropped : Bool} {z : Expr}, ctx.Admits dropped z →
      ∀ u y i, z = .index u y i → ∃ ts, ctx.typeOf y = .list ts := by
    rintro dropped _ hz u y i rfl
    obtain ⟨-, ts, hts, -⟩ := hz.index_types hk
    exact ⟨ts, hts⟩
  unfold Expr.store? at hstore
  split at hstore
  · next t op y =>
    split at hstore
    · next ho =>
      obtain ⟨rfl, rfl⟩ := Prod.mk.inj (Option.some.inj hstore)
      exact hr.changes ho hcarries (hlist hadmits.operand) (hadmits.change_types hk ho).1
    · cases hstore
  · next t l r =>
    obtain ⟨rfl, rfl⟩ := Prod.mk.inj (Option.some.inj hstore)
    obtain ⟨htype, hsub⟩ := hadmits.assign_types hk
    obtain ⟨hl, hright⟩ := hadmits.operands
    exact hr.assigns hcarries (hlist hl) htype (Ty.takes_of_isSubtype hsub (hright.known hk).isNoType)
  · cases hstore

/-- Every assignment and every change by one in an accepted program without an empty list literal evaluates what finds its
target, and its value, once each and in that order. Where these are of their types, it then writes to the slot, the
element or the field that is found, and to slots and a list of its own, and nothing else, and leaves what it
stored, or for a change that gives the old number, that. It stops with nothing stored where the list or the object is null
or has no such element, and may overflow the stack where that has no room for four values more. -/
theorem accepted_stores_touch_target {o : CompileOptions} {p : Program} {files : List ClassFile}
    (hw : p.Written) (ha : (p.check o.entry).issues = [])
    (hlists : ∀ c ∈ p.classes, ∀ d ∈ c.bodies, ∀ t es, Expr.list t es ∈ d.subterms → es ≠ [])
    (hc : Program.compile o (p.check o.entry).decl (p.check o.entry).decl = .ok files) :
    (∀ mc, (Machine.load files).HasMethod mc →
        ∃ c ∈ p.classes, Made o c mc ∨ ∃ d ∈ c.bodies, CodeFor o p c d mc) ∧
      ∀ c ∈ p.classes, ∀ d ∈ c.bodies, ∀ mc, CodeFor o p c d mc →
        ∃ spans : List Span, spans.filterMap Span.expr? = Stmt.evaluatedAll d.body ∧
          (∀ x ∈ spans, x.Covers ⟨p, c.name.name, d⟩ mc.code.toList) ∧
          ∀ x ∈ spans, ∀ e target right, x.expr? = some e → e.store? = some (target, right) →
            x.StoresAt (Machine.load files) mc ⟨p, c.name.name, d⟩ spans e target right := by
  obtain ⟨hdecl, hclean⟩ := Program.check_clean ha
  rw [hdecl] at hc
  have hframes := Program.compile_frames hw hclean hc
  have hm : ∃ o : CompileOptions, ∀ mc, (Machine.load files).HasMethod mc → ∃ n, FrameOf o n mc := by
    refine ⟨o, fun mc hmc => ?_⟩
    obtain ⟨n, hn, -⟩ := HasMethod.frameOf hframes hmc
    exact ⟨n, hn⟩
  refine ⟨fun mc hmc => HasMethod.origin (Program.compile_ok hc) hmc, fun c hmem d hd mc hcode => ?_⟩
  have hadm := hclean.admitted hw hmem hd (allFilled_of_lists (hlists c hmem d hd))
  obtain ⟨spans, hspans, hpieces⟩ := hcode.admittedSpans ((hw c hmem).bodies d hd) (hclean.bodyClean hmem hd) hadm
  exact ⟨spans, hspans.exprs, hspans.covers, fun x hx e target right he hstore =>
    (hspans.stands x hx).storesAt hadm.known (hpieces x hx) he hstore hm hw.argCount_constructorDescriptor⟩

namespace PrintedStore

open Sample Yaml

/-- A number is stored in a variable, and the number that this leaves is printed. -/
def source : String :=
  "classes: [{class: Main, constructor: {locals: [{x: int}], body: [{print: {assign: [x, 1]}}]}}]"

def root : Node :=
  entry 1 [word "classes" 1, row 10 [
    entry 11 [word "class" 12, word "Main" 19, word "constructor" 25, entry 38 [
      word "locals" 39, row 47 [entry 48 [word "x" 49, word "int" 52]],
      word "body" 59, row 65 [entry 66 [word "print" 67, entry 74 [word "assign" 75, row 83 [word "x" 84,
        ⟨.scalar, "!!int", .plain, "1", 1, 87, []⟩]]]]]]]]

def program : Program where
  file := "sample"
  classes := [{
    token := ⟨.classDecl, "Main", 1, 11⟩
    name := name "Main" 19
    constructor := some {
      token := ⟨.constructor, "", 1, 38⟩
      name := ⟨⟨.constructor, "", 1, 38⟩, "Main"⟩
      locals := [⟨⟨.var, "x", 1, 49⟩, name "x" 49, .int⟩]
      body := [.print (token .print 67) (.binary (token (.binary .assign) 75) .assign (.ident (name "x" 84))
        (.int ⟨.intLit, "1", 1, 87⟩ 1))] } }]

theorem parse_int : Ty.parse "int" = .ok .int := by rfl

theorem int?_one : Numeral.int? 32 ['1'] = some 1 := by rfl

theorem ofNode_root : Program.ofNode "sample" root = .ok program := by
  simp [Program.ofNode, root, entry, row, word, Decoder.classLists, Decoder.classDecl, Decoder.entries,
    Decoder.classParts, Decoder.name, Decoder.constructor, Decoder.methodParts, Decoder.stmtList, Decoder.stmts,
    Decoder.stmt, Decoder.expr, Decoder.scalar, Decoder.vars, Decoder.var, Decoder.type, Node.isNull, bind, Except.bind,
    pure, Except.pure, parse_int, int?_one]
  rfl

theorem decode_source : Program.decode "sample" source = .ok program :=
  Program.decode_of_read (by decide +kernel) ofNode_root

theorem accepted : (program.check "Main").issues = [] := by decide

theorem compiled : ∃ files, Program.compile {} (program.check "Main").decl (program.check "Main").decl = .ok files := by
  have hc : (Program.compile {} (program.check "Main").decl (program.check "Main").decl).toOption.isSome := by decide
  cases hf : Program.compile {} (program.check "Main").decl (program.check "Main").decl with
  | error e => simp [hf, Except.toOption] at hc
  | ok files => exact ⟨files, rfl⟩

/-- How a run of the program ends if stacks have room for so many values: why it stops, or what it has printed. -/
def ends? (stack : Int) : Option (Option Cause × Option String) :=
  (Program.compile { limits := { stack } } (program.check "Main").decl (program.check "Main").decl).toOption.map
    fun files => let run := (Machine.load files).run false 30 "Main"; (run.cause?, run.printed?)

end PrintedStore

theorem accepted_stores_touch_target_printed : ∃ files,
    Program.compile {} (PrintedStore.program.check "Main").decl (PrintedStore.program.check "Main").decl = .ok files ∧
      ∀ c ∈ PrintedStore.program.classes, ∀ d ∈ c.bodies, ∀ mc, CodeFor {} PrintedStore.program c d mc →
        ∃ spans : List Span, spans.filterMap Span.expr? = Stmt.evaluatedAll d.body ∧
          ∀ x ∈ spans, ∀ e target right, x.expr? = some e → e.store? = some (target, right) →
            x.StoresAt (Machine.load files) mc ⟨PrintedStore.program, c.name.name, d⟩ spans e target right := by
  obtain ⟨files, hf⟩ := PrintedStore.compiled
  obtain ⟨-, hbodies⟩ := accepted_stores_touch_target (o := {}) (Program.decode_written PrintedStore.decode_source) PrintedStore.accepted (by
    simp [PrintedStore.program, ClassDecl.bodies, MethodDecl.subterms, Stmt.subtermsOfAll, Stmt.subterms, Expr.subterms]) hf
  refine ⟨files, hf, fun c hc d hd mc hcode => ?_⟩
  obtain ⟨spans, hexprs, -, hstores⟩ := hbodies c hc d hd mc hcode
  exact ⟨spans, hexprs, hstores⟩

/-- The number is computed, but the second copy of it does not fit on the stack above the stream that it is to be printed
to, and that is not checked; with room for one value more, 1 is stored and printed. -/
theorem printed_store_overflows : ∃ files out e,
    Program.decode "sample" PrintedStore.source = .ok PrintedStore.program ∧
      (PrintedStore.program.check "Main").issues = [] ∧
      Program.compile { limits := { stack := 2 } } (PrintedStore.program.check "Main").decl
        (PrintedStore.program.check "Main").decl = .ok files ∧
      (Machine.load files).run false 30 "Main" = .failed out e ∧ e.cause = .stackOverflow ∧
      PrintedStore.ends? 3 = some (none, some "1") := by
  have hrun : (Program.compile { limits := { stack := 2 } } (PrintedStore.program.check "Main").decl
      (PrintedStore.program.check "Main").decl).toOption.bind (fun files =>
        ((Machine.load files).run false 30 "Main").cause?) = some .stackOverflow := by decide +kernel
  obtain ⟨files, hc, hcause⟩ := exists_ok_of_bind hrun
  obtain ⟨out, e, ho, he⟩ := Outcome.failed_of_cause? hcause
  exact ⟨files, out, e, PrintedStore.decode_source, PrintedStore.accepted, hc, ho, he, by decide +kernel⟩

end ClassCompiler
