import ClassCompiler.Proofs.Soundness.Rows

namespace ClassCompiler

/-- What is known of frames along the edges of code that runs under a contract. -/
def typeFlow (o : CompileOptions) (p : Program) (m : Machine) (k : Contract) : Flow Facts where
  falls op a b := match op with
    | .ret => ∀ w d (f : Frame), f.Has p w d a → k.left.Holds p w (f.local? 0)
    | .retRef => ∀ w d (f : Frame), f.Has p w d a → k.left.Holds p w (f.local? 0) ∧
      ∃ v vs, f.stack = v :: vs ∧ w.Fits p k.result v
    | .jump test _ => test ≠ .always → a.Drops p test.pops b
    | op => op.Leads o p m a b
  jumps test a x := a.Drops p test.pops x

def Facts.Enters (p : Program) (T : Targets Facts) (l : String) (a : Facts) : Prop := ∃ x, T l x ∧ a.Entails p x

/-- Where a loop goes on and where it ends may be entered. -/
def Facts.LoopEnters (p : Program) (T : Targets Facts) (loop : Option Loop) (a : Facts) : Prop :=
  ∀ lp, loop = some lp → a.Enters p T lp.next ∧ a.Enters p T lp.done

/-- What is known of the value of an expression. A number that is written out is known itself, as it may be the index
of an element. -/
def Context.held (ctx : Context) : Expr → Fact
  | .int _ v => .is (.int (Int32.ofInt v))
  | e => (ctx.typeOf e).held

/-- Before the code of a piece, the slots of variables hold what they are declared for, and nothing is known of those
that are free. -/
structure Context.Ready (ctx : Context) (t : Supply) (a : Facts) : Prop where
  count : ctx.method.slotCount ≤ t.slots
  note : a.note = none
  self : a.slots 0 = .val (.cls ctx.className)
  vars : ∀ name sym, ctx.method.symbol? name = some sym → a.slots sym.slot = .val sym.type
  free : ∀ n, t.slots ≤ n → a.slots n = .any
  cells : ∀ n, Cell.slot n ∈ a.stack → ctx.method.slotCount ≤ n ∧ n < t.slots

/-- A piece that the checker admits, in which no list literal has an element of type `null`. -/
structure Piece.Typable (ctx : Context) (q : Piece) : Prop where
  admitted : q.Admitted ctx
  plain : ctx.AllPlain q.subterms

/-- What is claimed of the code of a piece: an expression leaves a value of its type. -/
def typeClaim (ctx : Context) : Claim Facts := fun T q t a b =>
  q.Typable ctx ∧ ctx.Ready t a ∧ match q with
  | .expr e => b = { a with stack := .known (ctx.held e) :: a.stack }
  | .elements _ es => ∃ ts cs, a.stack = .adds ts :: cs ∧ b = { a with stack := .adds (ts ++ es.map ctx.typeOf) :: cs }
  | .args es => b = { a with stack := Cell.values (es.map ctx.typeOf) ++ a.stack }
  | .update _ => b = a
  | .test _ done _ => b = a ∧ a.Enters ctx.table T done
  | .stmt loop _ | .stmts loop _ | .orElse loop _ => b = a ∧ a.LoopEnters ctx.table T loop

section

variable {o : CompileOptions} {p : Program} {m : Machine} {n : Nat} {a b c x : Facts} {op : Op} {os : List Op}
  {k : Contract} {cell : Cell} {cs : List Cell} {τ : Nat → Fact} {t u : Ty} {ts : List Ty} {es : List (String × Ty)}
  {files : List ClassFile} {T U : Targets Facts} {own : String → Option Facts} {l : String} {loop : Option Loop}

theorem Facts.Enters.mono (h : a.Enters p T l) (hT : ∀ l x, T l x → U l x) (ha : b.Entails p a) : b.Enters p U l := by
  obtain ⟨x, hx, hax⟩ := h
  exact ⟨x, hT l x hx, ha.trans hax⟩

theorem Facts.LoopEnters.mono (h : a.LoopEnters p T loop) (hT : ∀ l x, T l x → U l x) (ha : b.Entails p a) :
    b.LoopEnters p U loop := fun lp hlp => ⟨(h lp hlp).1.mono hT ha, (h lp hlp).2.mono hT ha⟩

theorem Facts.enters_own (h : own l = some x) (ha : a.Entails p x) : a.Enters p (fun l x => T l x ∨ own l = some x) l :=
  ⟨x, .inr h, ha⟩

theorem typeFlow_step (hs : op.isStraight = true) (h : op.Leads o p m a b) :
    (typeFlow o p m k).Step T op a b ∧ ∀ l, op = .label l → own l = some a := by
  refine ⟨⟨?_, ?_⟩, ?_⟩
  · cases op <;> first | exact h | cases hs
  · rintro test l rfl
    cases hs
  · rintro l rfl
    cases hs

/-- Operations in a row, as a path. Where there is none, nothing changes. -/
theorem path_of_row (h : Row o p m os a b) (hne : os = [] → b = a) : (typeFlow o p m k).Path T own os a b := by
  induction os generalizing a with
  | nil => exact hne rfl
  | cons op os ih =>
    obtain ⟨x, hs, hl, hr⟩ := h
    cases os with
    | nil => exact ⟨b, typeFlow_step hs (hl.before hr), rfl⟩
    | cons op' os => exact ⟨x, typeFlow_step hs hl, ih hr (by simp)⟩

theorem typeFlow_jump (test : Jump) (hl : b.Enters p T l) (hd : a.Drops p test.pops b)
    (hc : test ≠ .always → c = b) : (typeFlow o p m k).Step T (.jump test l) a c := by
  refine ⟨fun hne => hc hne ▸ hd, ?_⟩
  rintro test' l' ⟨⟩
  obtain ⟨x, hx, hax⟩ := hl
  exact ⟨x, hd.weaken hax, hx⟩

theorem typeFlow_label (h : own l = some a) :
    (typeFlow o p m k).Step T (.label l) a a ∧ ∀ l', Op.label l = .label l' → own l' = some a := by
  refine ⟨⟨leads_label l, by simp⟩, ?_⟩
  rintro l' ⟨⟩
  exact h

theorem Facts.drops_nothing (a : Facts) : a.Drops p 0 a := .of_entails (.refl a)

theorem Facts.drops_one {note : Option Note} : Facts.Drops p 1 ⟨cell :: cs, τ, note⟩ ⟨cs, τ, none⟩ :=
  .of_cons (Facts.drops_nothing _)

theorem Facts.drops_two {cell' : Cell} {note : Option Note} :
    Facts.Drops p 2 ⟨cell :: cell' :: cs, τ, note⟩ ⟨cs, τ, none⟩ := .of_cons Facts.drops_one

/-- What is known at the labels of a test: before one of two numbers is there, and after. -/
def testFacts (cs : List Cell) (τ : Nat → Fact) : List Facts := [⟨cs, τ, none⟩, ⟨.known .any :: cs, τ, none⟩]

theorem path_branchTest (s : Supply) (test : Jump) (taken : Int) (ha : a.Drops p test.pops ⟨cs, τ, none⟩) :
    (typeFlow o p m k).Path (fun l x => T l x ∨ Flow.ownStates s (testFacts cs τ) l = some x)
      (Flow.ownStates s (testFacts cs τ)) (branchMerge test taken (s.label 0) (s.label 1)) a
      ⟨.known .any :: cs, τ, none⟩ := by
  have hy := Flow.ownStates_label s (testFacts cs τ) 0
  have hafter := Flow.ownStates_label s (testFacts cs τ) 1
  have hpush : ∀ i, (Op.pushInt i).Leads o p m ⟨cs, τ, none⟩ ⟨.known .any :: cs, τ, none⟩ := fun i =>
    (leads_pushInt i).before (.top Fact.implies_any)
  exact ⟨⟨cs, τ, none⟩, ⟨typeFlow_jump test (Facts.enters_own hy (.refl _)) ha fun _ => rfl, by simp⟩,
    ⟨.known .any :: cs, τ, none⟩, typeFlow_step rfl (hpush _),
    ⟨cs, τ, none⟩, ⟨typeFlow_jump .always (Facts.enters_own hafter (.refl _)) (Facts.drops_nothing _) (absurd rfl), by simp⟩,
    ⟨cs, τ, none⟩, typeFlow_label hy, ⟨.known .any :: cs, τ, none⟩, typeFlow_step rfl (hpush _),
    ⟨.known .any :: cs, τ, none⟩, typeFlow_label hafter, rfl⟩

theorem typeFlow_ret (hk : (τ 0).Implies p k.left) {note : Option Note} :
    (typeFlow o p m k).Path T own [.ret] ⟨cs, τ, note⟩ b :=
  ⟨b, ⟨⟨fun w _ f hf => hk w _ (hf.slots 0), by simp⟩, by simp⟩, rfl⟩

theorem path_returnOf {f : Fact} (hk : (τ 0).Implies p k.left) (hf : t.isPrimitive = true ∨ f = .val t)
    (hb : t.Below k.result) : (typeFlow o p m k).Path T own (returnValue t) ⟨.known f :: cs, τ, none⟩ b := by
  unfold returnValue
  split
  · exact ⟨⟨cs, τ, none⟩, typeFlow_step rfl leads_pop, typeFlow_ret hk⟩
  · refine Flow.path_append.2 ⟨⟨.known (.val t) :: cs, τ, none⟩, path_of_row (row_box hf) fun hbox => ?_, b, ⟨⟨?_, by simp⟩,
      by simp⟩, rfl⟩
    · cases t <;> simp_all [box, Ty.isPrimitive]
    · intro w d f hf
      obtain ⟨v, vs, hs, hv, -⟩ := hf.uncons
      exact ⟨hk w _ (hf.slots 0), v, vs, hs, TypedHeap.Fits.below hv hb⟩

/-- What is known inside a loop over a list: the list is kept in a slot. -/
def loopFacts (s : Supply) (es : List (String × Ty)) (cs : List Cell) (τ : Nat → Fact) : Facts :=
  ⟨cs, Function.update τ s.slots (.val (.list es)), none⟩

/-- The head of a loop over a list puts the next element into a variable, or leaves the loop. -/
theorem Installed.path_foreachHead (hi : Installed o p files) {s : Supply} {slot : Nat} {start done : String}
    (hpos : 0 < s.slots) (hcs : Cell.slot s.slots ∉ cs ∧ Cell.slot (s.slots + 1) ∉ cs ∧ Cell.slot slot ∉ cs)
    (hindex : τ (s.slots + 1) = .any) (hslot : 0 < slot ∧ slot ≠ s.slots ∧ τ slot = .val t)
    (ht : t.Solid p.hasClass) (hes : ∀ e ∈ es, e.2.unnamed = t.unnamed)
    (hstart : own start = some (loopFacts s es cs τ)) (hdone : (loopFacts s es cs τ).Enters p T done) :
    (typeFlow o p (Machine.load files) k).Path T own ([Op.store .ref s.slots, .pushInt 0,
      .store .int ((s.slots + 1 : Nat) : Int), .label start, .load .int ((s.slots + 1 : Nat) : Int), .pushInt es.length,
      .jump (.ifInts .ge) done, .load .ref s.slots, .load .int ((s.slots + 1 : Nat) : Int),
      .invokeVirtual NativeMethod.getElement.ref] ++ castElement t ++ [Op.store .ref slot])
      ⟨.known (.val (.list es)) :: cs, τ, none⟩ (loopFacts s es cs τ) := by
  have hsplit : ([Op.store .ref s.slots, .pushInt 0, .store .int ((s.slots + 1 : Nat) : Int), .label start,
      .load .int ((s.slots + 1 : Nat) : Int), .pushInt es.length, .jump (.ifInts .ge) done, .load .ref s.slots,
      .load .int ((s.slots + 1 : Nat) : Int), .invokeVirtual NativeMethod.getElement.ref] ++
      castElement t ++ [Op.store .ref slot] : List Op) =
      [Op.store .ref s.slots, .pushInt 0, .store .int ((s.slots + 1 : Nat) : Int)] ++ ([Op.label start] ++
        ([Op.load .int ((s.slots + 1 : Nat) : Int), .pushInt es.length] ++ ([Op.jump (.ifInts .ge) done] ++
          ([Op.load .ref s.slots, .load .int ((s.slots + 1 : Nat) : Int),
            .invokeVirtual NativeMethod.getElement.ref] ++ castElement t ++ [Op.store .ref slot])))) := by simp
  let σ : Nat → Fact := Function.update τ s.slots (.val (.list es))
  have hσindex : σ (s.slots + 1) = .any := by simp [σ, hindex]
  have hσlist : σ s.slots = .val (.list es) := by simp [σ]
  have hσslot : σ slot = .val t := by simp [σ, hslot]
  have hzero : (Op.store .int ((s.slots + 1 : Nat) : Int)).Leads o p (Machine.load files)
      ⟨.known (.is (.int (Int32.ofInt 0))) :: cs, σ, none⟩ ⟨cs, σ, none⟩ :=
    (leads_store_known (by omega) hcs.2.1 hσindex).after (.top Fact.implies_any)
  have hbegin : Row o p (Machine.load files)
      [Op.store .ref s.slots, .pushInt 0, .store .int ((s.slots + 1 : Nat) : Int)]
      ⟨.known (.val (.list es)) :: cs, τ, none⟩ ⟨cs, σ, none⟩ :=
    .cons rfl (leads_store hpos hcs.1) (.cons rfl (leads_pushInt 0) (.single rfl hzero))
  have htest : Row o p (Machine.load files) [Op.load .int ((s.slots + 1 : Nat) : Int), .pushInt es.length] ⟨cs, σ, none⟩
      ⟨.known (.is (.int (Int32.ofInt es.length))) :: .slot (s.slots + 1) :: cs, σ, none⟩ :=
    .cons rfl (leads_load _) (.single rfl (leads_pushInt _))
  have hnext : Row o p (Machine.load files) ([Op.load .ref s.slots, .load .int ((s.slots + 1 : Nat) : Int),
      .invokeVirtual NativeMethod.getElement.ref] ++ castElement t ++ [Op.store .ref slot]) ⟨cs, σ, none⟩
      ⟨cs, σ, none⟩ :=
    .append (.append (.cons rfl (leads_load_known hσlist) (.cons rfl (leads_load_known rfl) (.single rfl (leads_getElement (.inl hes)))))
      (hi.row_castElement ht)) (.single rfl (leads_store_known hslot.1 hcs.2.2 hσslot))
  rw [hsplit]
  exact Flow.path_append.2 ⟨⟨cs, σ, none⟩, path_of_row hbegin (by simp),
    Flow.path_append.2 ⟨⟨cs, σ, none⟩, ⟨_, typeFlow_label hstart, rfl⟩,
      Flow.path_append.2 ⟨_, path_of_row htest (by simp),
        Flow.path_append.2 ⟨⟨cs, σ, none⟩, ⟨_, ⟨typeFlow_jump (.ifInts .ge) hdone Facts.drops_two fun _ => rfl,
          by simp⟩, rfl⟩, path_of_row hnext (by simp)⟩⟩⟩⟩

end

end ClassCompiler
