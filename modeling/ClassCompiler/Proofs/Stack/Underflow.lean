import ClassCompiler.Proofs.Stack.Methods
import ClassCompiler.Proofs.Stack.Slots
import ClassCompiler.Machine.Run

namespace ClassCompiler

/-- A frame at the same place with another stack. -/
structure Frame.At (f : Frame) (n : Nat) (g : Frame) : Prop where
  method : g.method = f.method
  pushesResult : g.pushesResult = f.pushesResult
  pc : g.pc = f.pc
  locals : g.locals.size = f.locals.size
  length : g.stack.length = n

theorem Frame.At.trans {f g k : Frame} {n j : Nat} (h : f.At n g) (h' : g.At j k) : f.At j k :=
  ⟨h'.method.trans h.method, h'.pushesResult.trans h.pushesResult, h'.pc.trans h.pc, h'.locals.trans h.locals,
    h'.length⟩

/-- A cause that lies neither in the frame nor in its code. -/
def Cause.Outside (c : Cause) : Prop :=
  c ≠ .stackUnderflow ∧ c ≠ .stackOverflow ∧ c ≠ .invalidLocalSlot ∧ c ≠ .unknownLabel

/-- What an operation may fail for in a frame that has the values it takes: the frame has no room for those
that it leaves, or not the slot that it names, or the cause lies outside. -/
def Op.MayFault (f : Frame) (op : Op) : Cause → Prop
  | .stackUnderflow => False
  | .stackOverflow => 0 < f.method.stackLimit ∧ f.method.stackLimit < (f.stack.length - op.pops + op.pushes : Nat)
  | .invalidLocalSlot => ∃ i, op.slot? = some i ∧ ¬(0 ≤ i ∧ i.toNat < f.locals.size)
  | _ => True

theorem Op.MayFault.of_outside {f : Frame} {op : Op} (c : Cause) (h : c.Outside) : op.MayFault f c := by
  cases c <;> simp_all [MayFault, Cause.Outside]

theorem ArithOp.apply_depth (op : ArithOp) (v w : Int32) : Attempt Cause.Outside (fun _ => True) (op.apply v w) := by
  cases op with
  | div | rem =>
    simp only [apply]
    split <;> simp [Attempt, fault, Cause.Outside]
  | _ => trivial

namespace Frame

variable {f : Frame} {P : Cause → Prop}

theorem pop_depth (h : 1 ≤ f.stack.length) :
    Attempt P (fun r => f.At (f.stack.length - 1) r.2) f.pop := by
  unfold pop
  cases hs : f.stack with
  | nil => simp [hs] at h
  | cons v vs => exact ⟨rfl, rfl, rfl, rfl, by simp⟩

theorem popTwo_depth (h : 2 ≤ f.stack.length) :
    Attempt P (fun r => f.At (f.stack.length - 2) r.2.2) f.popTwo := by
  unfold popTwo
  split
  · next b a vs hs => exact ⟨rfl, rfl, rfl, rfl, by simp [hs]⟩
  · next hs =>
    exfalso
    match hf : f.stack with
    | [] | [_] => simp [hf] at h
    | b :: a :: vs => exact hs b a vs hf

theorem popMany_depth {n : Nat} (h : n ≤ f.stack.length) :
    Attempt P (fun r => f.At (f.stack.length - n) r.2) (f.popMany n) := by
  unfold popMany
  rw [if_neg (by omega)]
  exact ⟨rfl, rfl, rfl, rfl, List.length_drop⟩

/-- A value is pushed, or the stack is as deep as it may be. -/
theorem push_depth (v : Value)
    (hP : 0 < f.method.stackLimit → f.method.stackLimit ≤ f.stack.length → P .stackOverflow) :
    Attempt P (f.At (f.stack.length + 1)) (f.push v) := by
  unfold push
  split
  · next hl =>
    simp only [Bool.and_eq_true, decide_eq_true_eq] at hl
    exact hP hl.1 hl.2
  · exact ⟨rfl, rfl, rfl, rfl, rfl⟩

theorem slot_depth (i : Int) (hP : ¬(0 ≤ i ∧ i.toNat < f.locals.size) → P .invalidLocalSlot) :
    Attempt P (fun _ => True) (f.slot i) := by
  unfold slot
  split
  · trivial
  · next hi => exact hP (by simpa using hi)

theorem setLocal_depth (i : Nat) (v : Value) : f.At f.stack.length (f.setLocal i v) :=
  ⟨rfl, rfl, rfl, by simp [setLocal], rfl⟩

end Frame

def Machine.HasMethod (m : Machine) (mc : MethodCode) : Prop := ∃ c ∈ m.classes, mc ∈ c.methods

/-- What an operation does to the frame `f` that it runs in. -/
def Effect.Fits (m : Machine) (f : Frame) (op : Op) : Effect → Prop
  | .next g _ _ => (op.isFinal = false ∧ f.At (f.stack.length - op.pops + op.pushes) g) ∨
    ∃ test l k, op = .jump test l ∧ f.method.code.labelOffset? l = some k ∧
      { f with pc := k }.At (f.stack.length - test.pops) g
  | .call g _ _ mc _ pushes => m.HasMethod mc ∧ op.isFinal = false ∧
    ∃ n, f.At n g ∧ n + (if pushes then 1 else 0) = f.stack.length - op.pops + op.pushes

theorem Frame.At.self (f : Frame) : f.At f.stack.length f := ⟨rfl, rfl, rfl, rfl, rfl⟩

/-- A push of an operation that leaves at least so many values. -/
theorem Frame.At.push {f g : Frame} {op : Op} {n : Nat} (hg : f.At n g)
    (hn : n < f.stack.length - op.pops + op.pushes) (v : Value) :
    Attempt (op.MayFault f) (f.At (n + 1)) (g.push v) := by
  refine (Frame.push_depth v fun hpos hle => ?_).imp fun k hk => ?_
  · rw [hg.method] at hpos
    rw [hg.method, hg.length] at hle
    exact ⟨hpos, by omega⟩
  · have := hg.trans hk
    rwa [hg.length] at this

namespace Machine

variable {m : Machine} {f : Frame} {h : Heap}

theorem class?_mem {name : String} {c : ClassFile} (hc : m.class? name = some c) : c ∈ m.classes :=
  List.mem_of_find?_eq_some hc

theorem chainIn_subset (steps : Nat) (cs : List ClassFile) (name : String) : chainIn steps cs name ⊆ cs := by
  induction steps generalizing cs name with
  | zero => simp [chainIn]
  | succ n ih =>
    unfold chainIn
    split
    · simp
    · next c hc =>
      refine List.cons_subset.2 ⟨List.mem_of_find?_eq_some hc, ?_⟩
      exact List.Subset.trans (ih _ _) (List.filter_subset_self _)

theorem allocate_depth (cls : String) : Attempt Cause.Outside (fun _ => True) (m.allocate cls) := by
  unfold allocate
  repeat' split
  all_goals simp [Attempt, fault, Cause.Outside]

theorem asInstance_depth (v : Value) : Attempt Cause.Outside (fun _ => True) (asInstance h v) := by
  unfold asInstance
  repeat' split
  all_goals simp [Attempt, fault, castFault, Cause.Outside]

theorem elementsOf_depth (select : Object → Option (List Value)) (v : Value) (note : String) :
    Attempt Cause.Outside (fun _ => True) (elementsOf h select v note) := by
  unfold elementsOf
  repeat' split
  all_goals simp [Attempt, fault, castFault, Cause.Outside]

theorem constructor_depth (n : NativeConstructor) (recv : Value) (args : List Value) :
    Attempt Cause.Outside (fun _ => True) (n.run h recv args) := by
  have hfill : ∀ select, Attempt Cause.Outside (fun _ => True) (NativeConstructor.run.fillList h recv args {} select) := by
    intro select
    unfold NativeConstructor.run.fillList
    split
    · exact (elementsOf_depth _ _ _).bind fun _ _ => trivial
    · simp [Attempt, fault, Cause.Outside]
  cases n with
  | listOfArrayList | listCopy => exact hfill _
  | fptrBind =>
    simp only [NativeConstructor.run]
    repeat' split
    all_goals simp [Attempt, fault, castFault, Cause.Outside]

/-- A call made in place of a runtime method is one of a method of the machine. -/
def Reply.Fits (m : Machine) : Reply → Prop
  | .value _ _ _ => True
  | .call _ _ mc _ => m.HasMethod mc

theorem dispatch_depth (receiver : Value) (name : String) (args : List Value) :
    Attempt Cause.Outside (Reply.Fits m) (m.dispatch h receiver name args) := by
  unfold dispatch
  have hi := asInstance_depth (h := h) receiver
  split
  · next e he =>
    rw [he] at hi
    exact hi
  · split
    · simp [Attempt, fault, Cause.Outside]
    · split
      · simp [Attempt, fault, Cause.Outside]
      · next c hc =>
        split
        · simp [Attempt, fault, Cause.Outside]
        · next mc hmc =>
          simp only
          split
          · exact ⟨c, class?_mem hc, List.mem_of_find?_eq_some hmc⟩
          · simp [Attempt, fault, Cause.Outside]

theorem method_depth (n : NativeMethod) (recv : Value) (args : List Value) :
    Attempt Cause.Outside (Reply.Fits m) (n.run m h recv args) := by
  have hpos : ∀ es, Attempt Cause.Outside (fun _ => True) (NativeMethod.run.position args es) := by
    intro es
    unfold NativeMethod.run.position
    simp only
    split <;> simp [Attempt, fault, Cause.Outside]
  cases n with
  | getElement | setElement =>
    simp only [NativeMethod.run]
    split
    · next es _ =>
      have := hpos es
      split <;> simp_all [Attempt, Reply.Fits]
    · simp [castTo, Attempt, fault, Cause.Outside]
  | invoke =>
    simp only [NativeMethod.run]
    split
    · exact (elementsOf_depth _ _ _).bind fun es _ => dispatch_depth _ _ _
    · simp [castTo, Attempt, fault, Cause.Outside]
  | _ =>
    simp only [NativeMethod.run]
    repeat' split
    all_goals simp [castTo, Attempt, fault, castFault, Cause.Outside, Reply.Fits]

theorem invokeSpecial_depth (r : MemberRef) (hd : argCount r.desc + 1 ≤ f.stack.length) :
    Attempt (Op.MayFault f (.invokeSpecial r)) (Effect.Fits m f (.invokeSpecial r)) (m.invokeSpecial f h r) := by
  unfold invokeSpecial
  split
  · simp [Attempt, fault, Op.MayFault]
  · refine (Frame.popMany_depth hd).bind fun ⟨vals, g⟩ hg => ?_
    have hnext : ∀ h, Effect.Fits m f (.invokeSpecial r) (.next g h "") := fun _ => .inl ⟨rfl, hg⟩
    simp only
    split
    · simp [Attempt, fault, Op.MayFault]
    · split
      · exact ((constructor_depth _ _ _).allow Op.MayFault.of_outside).bind fun h _ => hnext h
      · split
        · exact hnext h
        · split
          · simp [Attempt, fault, Op.MayFault]
          · next c hc =>
            split
            · simp [Attempt, fault, Op.MayFault]
            · next mc hmc =>
              exact ⟨⟨c, class?_mem hc, List.mem_of_find?_eq_some hmc⟩, rfl, _, hg, rfl⟩

theorem invokeVirtual_depth (r : MemberRef) (hd : argCount r.desc + 1 ≤ f.stack.length) :
    Attempt (Op.MayFault f (.invokeVirtual r)) (Effect.Fits m f (.invokeVirtual r)) (m.invokeVirtual f h r) := by
  unfold invokeVirtual
  refine (Frame.popMany_depth hd).bind fun ⟨vals, g⟩ hg => ?_
  have hcall : ∀ h cls mc as, m.HasMethod mc →
      Effect.Fits m f (.invokeVirtual r) (.call g h cls mc as (!returnsVoid r.desc)) := by
    intro h cls mc as hmc
    refine ⟨hmc, rfl, _, hg, ?_⟩
    cases hr : returnsVoid r.desc <;> simp [Op.pops, Op.pushes, hr]
  simp only
  split
  · simp [Attempt, fault, Op.MayFault]
  · split
    · refine ((method_depth _ _ _).allow Op.MayFault.of_outside).bind fun reply hreply => ?_
      cases reply with
      | call h cls mc as => exact hcall h cls mc as hreply
      | value v h printed =>
        simp only
        cases hr : returnsVoid r.desc with
        | true =>
          refine .inl ⟨rfl, ?_⟩
          simpa [Op.pops, Op.pushes, hr] using hg
        | false =>
          have hpushes : (Op.invokeVirtual r).pushes = 1 := by simp [Op.pushes, hr]
          refine (hg.push (by simp [Op.pops, hpushes]) v).bind fun k hk => .inl ⟨rfl, ?_⟩
          simpa [Op.pops, hpushes] using hk
    · refine ((asInstance_depth _).allow Op.MayFault.of_outside).bind fun ⟨cls, _⟩ _ => ?_
      simp only
      split
      · simp [Attempt, fault, Op.MayFault]
      · next owner mc hv =>
        refine hcall h owner.name mc vals ?_
        unfold virtualMethod? at hv
        obtain ⟨c, hc, hm⟩ := List.exists_of_findSome?_eq_some hv
        simp only [Option.map_eq_some_iff, Prod.mk.injEq] at hm
        obtain ⟨mc', hmc, rfl, rfl⟩ := hm
        exact ⟨c, chainIn_subset _ _ _ hc, List.mem_of_find?_eq_some hmc⟩

theorem invokeStatic_depth (r : MemberRef) (hd : argCount r.desc ≤ f.stack.length) :
    Attempt (Op.MayFault f (.invokeStatic r)) (Effect.Fits m f (.invokeStatic r)) (invokeStatic f h r) := by
  unfold invokeStatic
  refine (Frame.popMany_depth hd).bind fun ⟨vals, g⟩ hg => ?_
  simp only
  split
  · simp [Attempt, fault, Op.MayFault]
  · exact (hg.push (by simp [Op.pops, Op.pushes]) _).bind fun k hk => .inl ⟨rfl, hk⟩

theorem decide_depth {P : Cause → Prop} (test : Jump) (hd : test.pops ≤ f.stack.length) :
    Attempt P (fun r => f.At (f.stack.length - test.pops) r.2) (test.decide f) := by
  cases test with
  | always => exact Frame.At.self f
  | ifZero | ifNonzero => exact (Frame.pop_depth hd).bind fun ⟨v, g⟩ hg => hg
  | ifInts _ | ifSame | ifDifferent => exact (Frame.popTwo_depth hd).bind fun ⟨a, b, g⟩ hg => hg

theorem jump_depth (test : Jump) (l : String) (hd : test.pops ≤ f.stack.length) :
    Attempt (Op.MayFault f (.jump test l)) (Effect.Fits m f (.jump test l)) (m.exec f h (.jump test l)) := by
  have halways : test = .always → ∀ g, test.decide f = .ok (false, g) → False := by
    rintro rfl g hg
    cases hg
  have hdecide := decide_depth (P := Op.MayFault f (.jump test l)) test hd
  unfold exec
  simp only
  cases hr : test.decide f with
  | error e =>
    rw [hr] at hdecide
    exact hdecide
  | ok r =>
    obtain ⟨taken, g⟩ := r
    rw [hr] at hdecide
    cases taken with
    | false =>
      refine .inl ⟨?_, hdecide⟩
      cases test with
      | always => exact (halways rfl g hr).elim
      | _ => rfl
    | true =>
      show Attempt (Op.MayFault f (.jump test l)) _ (Effect.quiet h <$> g.jumpTo l)
      unfold Frame.jumpTo
      split
      · next k hk =>
        rw [hdecide.method] at hk
        exact .inr ⟨test, l, k, rfl, hk,
          ⟨hdecide.method, hdecide.pushesResult, rfl, hdecide.locals, hdecide.length⟩⟩
      · simp [Attempt, fault, Op.MayFault]

theorem exec_depth (op : Op) (hd : op.pops ≤ f.stack.length) :
    Attempt (op.MayFault f) (Effect.Fits m f op) (m.exec f h op) := by
  have hpush : ∀ n g, f.At n g → n < f.stack.length - op.pops + op.pushes → ∀ v,
      Attempt (op.MayFault f) (f.At (n + 1)) (g.push v) := fun n g hg hn v => hg.push hn v
  have hslot : ∀ i, op.slot? = some i → Attempt (op.MayFault f) (fun _ => True) (f.slot i) := fun i hi =>
    Frame.slot_depth i fun hout => ⟨i, hi, hout⟩
  have hself := Frame.At.self f
  -- `hpush` is the one place where the limit comes in, `hslot` where the slots do.
  cases op with
  | jump test l => exact jump_depth test l hd
  | invokeSpecial r => exact invokeSpecial_depth r hd
  | invokeVirtual r => exact invokeVirtual_depth r hd
  | invokeStatic r => exact invokeStatic_depth r hd
  | pushInt v => exact (hpush _ f hself (Nat.lt_succ_self _) _).map fun g hg => .inl ⟨rfl, hg⟩
  | pushString v => exact (hpush _ f hself (Nat.lt_succ_self _) _).map fun g hg => .inl ⟨rfl, hg⟩
  | pushNull => exact (hpush _ f hself (Nat.lt_succ_self _) _).map fun g hg => .inl ⟨rfl, hg⟩
  | load k i =>
    exact (hslot i rfl).bind fun _ _ => (hpush _ f hself (Nat.lt_succ_self _) _).map fun g hg => .inl ⟨rfl, hg⟩
  | store k i =>
    exact (hslot i rfl).bind fun _ _ => (Frame.pop_depth hd).bind fun ⟨v, g⟩ hg =>
      .inl ⟨rfl, hg.trans (hg.length ▸ Frame.setLocal_depth _ _)⟩
  | increment i d => exact (hslot i rfl).bind fun _ _ => .inl ⟨rfl, Frame.setLocal_depth _ _⟩
  | dup =>
    refine (Frame.pop_depth hd).bind fun ⟨v, g⟩ hg => (hpush _ g hg ?_ v).bind fun k hk =>
      (hpush _ k hk ?_ v).map fun k' hk' => .inl ⟨rfl, hk'⟩
    all_goals simp [Op.pops, Op.pushes]
  | pop => exact (Frame.pop_depth hd).bind fun ⟨v, g⟩ hg => .inl ⟨rfl, hg⟩
  | arith op =>
    exact (Frame.popTwo_depth hd).bind fun ⟨a, b, g⟩ hg => ((op.apply_depth _ _).allow Op.MayFault.of_outside).bind
      fun r _ => (hpush _ g hg (Nat.lt_succ_self _) _).map fun k hk => .inl ⟨rfl, hk⟩
  | neg =>
    exact (Frame.pop_depth hd).bind fun ⟨v, g⟩ hg =>
      (hpush _ g hg (Nat.lt_succ_self _) _).map fun k hk => .inl ⟨rfl, hk⟩
  | label l => exact .inl ⟨rfl, hself⟩
  | new cls =>
    exact ((m.allocate_depth cls).allow Op.MayFault.of_outside).bind fun o _ => (hpush _ f hself (Nat.lt_succ_self _) _).bind fun g hg => .inl ⟨rfl, hg⟩
  | cast cls =>
    unfold exec
    simp only
    split
    · next hs => simp [hs, Op.pops] at hd
    · next v vs hs =>
      split
      · exact .inl ⟨rfl, by simpa [hs, Op.pops, Op.pushes] using hself⟩
      · simp [Attempt, castFault, Op.MayFault]
  | getField r =>
    refine (Frame.pop_depth hd).bind fun ⟨v, g⟩ hg => ?_
    have hi : Attempt (Op.MayFault f (.getField r)) (fun _ => True) (asInstance h v) :=
      (asInstance_depth v).allow Op.MayFault.of_outside
    simp only
    split
    · next e he =>
      rw [he] at hi
      exact hi
    · exact (hpush _ g hg (Nat.lt_succ_self _) _).map fun k hk => .inl ⟨rfl, hk⟩
  | putField r =>
    refine (Frame.popTwo_depth hd).bind fun ⟨a, b, g⟩ hg => ?_
    have hi : Attempt (Op.MayFault f (.putField r)) (fun _ => True) (asInstance h a) :=
      (asInstance_depth a).allow Op.MayFault.of_outside
    simp only
    split
    · next e he =>
      rw [he] at hi
      exact hi
    · exact .inl ⟨rfl, hg⟩
  | getStatic r =>
    unfold exec
    simp only
    split
    · exact (hpush _ f hself (Nat.lt_succ_self _) _).map fun g hg => .inl ⟨rfl, hg⟩
    · simp [Attempt, fault, Op.MayFault]
  | ret | retRef | unknown => simp [exec, Attempt, fault, Op.MayFault]

end Machine

def Machine.Balanced (m : Machine) : Prop := ∀ mc, m.HasMethod mc → ∃ depth, ClassCompiler.Balanced mc.code depth

/-- One depth for each position of each method of a machine. -/
def Machine.Depths (m : Machine) (depth : MethodCode → Nat → Nat) : Prop :=
  ∀ mc, m.HasMethod mc → ClassCompiler.Balanced mc.code (depth mc)

/-- What a run may fail for if its methods have these depths: one of them rises above its limit, or names a
slot that its frame lacks, or the cause lies outside. -/
def Machine.MayFault (m : Machine) (depth : MethodCode → Nat → Nat) : Cause → Prop
  | .stackUnderflow => False
  | .stackOverflow => ∃ mc, m.HasMethod mc ∧ 0 < mc.stackLimit ∧ ∃ j, mc.stackLimit < depth mc j
  | .invalidLocalSlot => ∃ mc, m.HasMethod mc ∧
    ∃ i ∈ slotsOf (mc.code.toList.map Instr.op), ¬(0 ≤ i ∧ i < mc.localsLimit)
  | _ => True

/-- A frame runs a method of the machine, with the slots that it may have, and holds as many values as its
place asks for once it gets `n` more. -/
structure Frame.Sized (m : Machine) (depth : MethodCode → Nat → Nat) (n : Nat) (f : Frame) : Prop where
  method : m.HasMethod f.method
  locals : f.method.localsLimit ≤ f.locals.size
  depth : f.stack.length + n = depth f.method f.pc

/-- Every frame fits; the innermost one gets `n` values before it goes on. -/
def StacksFit (m : Machine) (depth : MethodCode → Nat → Nat) : (n : Nat) → List Frame → Prop
  | _, [] => True
  | n, f :: fs => f.Sized m depth n ∧ StacksFit m depth (if f.pushesResult then 1 else 0) fs

/-- The stacks still fit after a step, and a step that failed did so for a cause that there may be. -/
def Progress.Fits (m : Machine) (depth : MethodCode → Nat → Nat) : Progress → Prop
  | .running s => StacksFit m depth 0 s.frames
  | .finished _ => True
  | .failed _ e => m.MayFault depth e.cause

section

variable {m : Machine} {depth : MethodCode → Nat → Nat}

theorem Frame.Sized.enter (hD : m.Depths depth) {cls : String} {mc : MethodCode} {args : List Value} {pushes : Bool}
    (hmc : m.HasMethod mc) : (Frame.enter cls mc args pushes).Sized m depth 0 := by
  refine ⟨hmc, ?_, by simp [Frame.enter, (hD mc hmc).entry]⟩
  simp only [Frame.enter, Array.size_append, List.size_toArray, Array.size_replicate]
  omega

/-- The depth after an operation is one of its method. -/
theorem Frame.Sized.room (hD : m.Depths depth) {f : Frame} {i : Instr} (hf : f.Sized m depth 0)
    (hi : f.method.code[f.pc]? = some i) :
    ∃ j, f.stack.length - i.op.pops + i.op.pushes ≤ depth f.method j := by
  have hb := hD _ hf.method
  have hd := hf.depth
  rw [Nat.add_zero] at hd
  rw [hd]
  cases hfinal : i.op.isFinal with
  | false => exact ⟨_, Nat.le_of_eq (hb.falls hi hfinal).symm⟩
  | true =>
    have hnone : i.op.pushes = 0 := by
      cases hop : i.op <;> simp_all [Op.isFinal, Op.pushes]
    exact ⟨f.pc, by omega⟩

/-- What the operation of a frame may fail for is what its run may fail for. -/
theorem Frame.Sized.mayFault (hD : m.Depths depth) {f : Frame} {i : Instr} (hf : f.Sized m depth 0)
    (hi : f.method.code[f.pc]? = some i) {c : Cause} {steps : Nat}
    (hc : i.op.MayFault { f with pc := f.pc + 1, steps } c) : m.MayFault depth c := by
  cases c with
  | stackUnderflow => exact hc
  | stackOverflow =>
    obtain ⟨hpos, hover⟩ := hc
    obtain ⟨j, hj⟩ := hf.room hD hi
    exact ⟨f.method, hf.method, hpos, j, Int.lt_of_lt_of_le hover (Int.ofNat_le.2 hj)⟩
  | invalidLocalSlot =>
    obtain ⟨k, hk, hout⟩ := hc
    have hmem : i ∈ f.method.code.toList := Array.mem_toList_iff.2 (Array.mem_of_getElem? hi)
    refine ⟨f.method, hf.method, k, List.mem_filterMap.2 ⟨i.op, List.mem_map_of_mem hmem, hk⟩, fun hin => hout ?_⟩
    have hlocals := hf.locals
    exact ⟨hin.1, by simp only; omega⟩
  | _ => trivial

theorem State.leave_fits {f : Frame} {callers : List Frame} {heap : Heap} {out : String} {v : Value}
    (h : StacksFit m depth (if f.pushesResult then 1 else 0) callers) :
    (leave f callers heap out v).Fits m depth := by
  unfold leave
  split
  · trivial
  · next g gs =>
    obtain ⟨hg, hgs⟩ := h
    split
    · next hp =>
      have hd := hg.depth
      rw [hp, if_pos rfl] at hd
      have hpush := Frame.push_depth (f := g) (P := m.MayFault depth) v fun hpos hle =>
        ⟨g.method, hg.method, hpos, g.pc, by omega⟩
      split
      · next k hk =>
        rw [hk] at hpush
        simp only [Attempt] at hpush
        refine ⟨⟨hpush.method ▸ hg.method, ?_, ?_⟩, by rw [hpush.pushesResult]; exact hgs⟩
        · rw [hpush.method, hpush.locals]
          exact hg.locals
        · rw [hpush.length, hpush.method, hpush.pc, Nat.add_zero, hd]
      · next e he =>
        rw [he] at hpush
        exact hpush
    · next hp =>
      refine ⟨⟨hg.method, hg.locals, ?_⟩, hgs⟩
      simpa [hp] using hg.depth

theorem State.perform_fits (hD : m.Depths depth) {f : Frame} {callers : List Frame} {heap : Heap} {out : String}
    {op : Op} (hmc : m.HasMethod f.method) (hlocals : f.method.localsLimit ≤ f.locals.size)
    (hfalls : op.isFinal = false → depth f.method f.pc = f.stack.length - op.pops + op.pushes)
    (hjumps : ∀ test l, op = .jump test l →
      ∃ k, f.method.code.labelOffset? l = some k ∧ depth f.method k = f.stack.length - test.pops)
    (hpops : op.pops ≤ f.stack.length) (hfault : ∀ c, op.MayFault f c → m.MayFault depth c)
    (hc : StacksFit m depth (if f.pushesResult then 1 else 0) callers) :
    (perform m f callers heap out op).Fits m depth := by
  have he := (Machine.exec_depth (m := m) (h := heap) op hpops).allow hfault
  unfold perform
  cases hx : m.exec f heap op with
  | error e =>
    rw [hx] at he
    exact he
  | ok r =>
    rw [hx] at he
    cases r with
    | next g heap' printed =>
      rcases he with ⟨hf, hat⟩ | ⟨test, l, k, rfl, hk, hat⟩
      · refine ⟨⟨hat.method ▸ hmc, ?_, ?_⟩, by rw [hat.pushesResult]; exact hc⟩
        · rw [hat.method, hat.locals]
          exact hlocals
        · rw [hat.length, hat.method, hat.pc, hfalls hf]
          rfl
      · obtain ⟨k', hk', hd⟩ := hjumps test l rfl
        obtain rfl : k' = k := Option.some.inj (hk'.symm.trans hk)
        have hmethod : g.method = f.method := hat.method
        refine ⟨⟨hmethod ▸ hmc, ?_, ?_⟩, by rw [hat.pushesResult]; exact hc⟩
        · rw [hmethod, hat.locals]
          exact hlocals
        · rw [hat.length, hmethod, hat.pc, hd]
          rfl
    | call g heap' cls mc args pushes =>
      obtain ⟨hmem, hf, n, hat, hn⟩ := he
      simp only
      split
      · simp [Progress.Fits, Fault.within, Machine.MayFault]
      · refine ⟨Frame.Sized.enter hD hmem, ⟨hat.method ▸ hmc, ?_, ?_⟩, ?_⟩
        · rw [hat.method, hat.locals]
          exact hlocals
        · rw [hat.length, hat.method, hat.pc, hfalls hf]
          exact hn
        · rw [hat.pushesResult]
          exact hc

theorem State.step_fits (hD : m.Depths depth) (canceled : Bool) {s : State} (h : StacksFit m depth 0 s.frames) :
    (s.step m canceled).Fits m depth := by
  obtain ⟨frames, heap, out⟩ := s
  cases frames with
  | nil => trivial
  | cons f callers =>
    obtain ⟨hf, hc⟩ := h
    have hb := hD _ hf.method
    have hd := hf.depth
    unfold step
    simp only
    split
    · exact leave_fits hc
    · next i hi =>
      have hpops := hb.enough hi
      rw [← hd, Nat.add_zero] at hpops
      have hfalls := hb.falls hi
      rw [← hd, Nat.add_zero] at hfalls
      split
      · simp [Progress.Fits, Fault.within, Machine.MayFault]
      · split
        · exact leave_fits hc
        · next hop =>
          rw [hop] at hpops
          split
          · next hs =>
            simp [hs, Op.pops] at hpops
          · exact leave_fits hc
        · refine perform_fits hD hf.method hf.locals hfalls (fun test l hop => ?_) hpops
            (fun c hfault => hf.mayFault hD hi hfault) hc
          obtain ⟨k, hk, hdk⟩ := hb.jumps hi hop
          exact ⟨k, hk, by rw [hdk, ← hd]; rfl⟩

theorem State.run_fits (hD : m.Depths depth) (canceled : Bool) (fuel : Nat) {s : State}
    (h : StacksFit m depth 0 s.frames) {out : String} {e : Fault} (hr : s.run m canceled fuel = .failed out e) :
    m.MayFault depth e.cause := by
  induction fuel generalizing s with
  | zero => cases hr
  | succ fuel ih =>
    have hs := step_fits hD canceled h
    unfold run at hr
    cases hx : s.step m canceled with
    | running s' =>
      rw [hx] at hr hs
      exact ih hs hr
    | finished out => simp [hx] at hr
    | failed out' e' =>
      simp only [hx, Outcome.failed.injEq] at hr
      rw [hx] at hs
      exact hr.2 ▸ hs

/-- A run that starts does so in the first frame of a method of the machine. -/
theorem Machine.start_fits (hD : m.Depths depth) {entry : String} {s : State} (hs : m.start entry = .ok s) :
    StacksFit m depth 0 s.frames := by
  unfold start at hs
  split at hs
  · simp [fault] at hs
  · next c hc =>
    split at hs
    · simp [fault] at hs
    · next mc hmc =>
      obtain rfl := Except.ok.inj hs
      have hmem : m.HasMethod mc := ⟨c, class?_mem hc, List.mem_of_find?_eq_some hmc⟩
      exact ⟨Frame.Sized.enter hD hmem, trivial⟩

/-- A run that does not start finds no class or no entry point. -/
theorem Machine.start_error {entry : String} {e : Fault} (hs : m.start entry = .error e) :
    e.cause = .noSuchClass ∨ e.cause = .noSuchMethod := by
  unfold start at hs
  repeat' split at hs
  all_goals simp [fault] at hs
  all_goals simp [← hs]

theorem Machine.run_fits (hD : m.Depths depth) {canceled : Bool} {fuel : Nat} {entry out : String} {e : Fault}
    (hr : m.run canceled fuel entry = .failed out e) : m.MayFault depth e.cause := by
  unfold run at hr
  cases hs : m.start (if entry.isEmpty then "Main" else entry) with
  | error e' =>
    simp only [hs, Outcome.failed.injEq] at hr
    obtain ⟨-, rfl⟩ := hr
    rcases start_error hs with he | he <;> simp [he, MayFault]
  | ok s =>
    simp only [hs] at hr
    exact State.run_fits hD canceled fuel (start_fits hD hs) hr

end

theorem Machine.run_underflow {m : Machine} (hm : m.Balanced) {canceled : Bool} {fuel : Nat} {entry out : String}
    {e : Fault} (hr : m.run canceled fuel entry = .failed out e) : e.cause ≠ .stackUnderflow := by
  choose! depth hD using hm
  have h := Machine.run_fits hD hr
  intro he
  rw [he] at h
  exact h

theorem FileDisciplined.balanced {p : Program} {c : ClassDecl} {f : ClassFile} (h : FileDisciplined p c f)
    {mc : MethodCode} (hmc : mc ∈ f.methods) : ∃ depth, Balanced mc.code depth := by
  obtain ⟨made, bodies, he, hmade, hbodies⟩ := h
  rw [he] at hmc
  rcases List.mem_append.1 hmc with hmc | hmc
  · exact hmade mc hmc
  · obtain ⟨m, -, depth, spans, hd⟩ := exists_mem_of_forall₂ hbodies hmc
    exact ⟨depth, hd.balanced⟩

/-- All methods of an accepted program keep to one depth of the operand stack at each place, and no run
finds the stack too short. -/
theorem accepted_stack_discipline {o : CompileOptions} {p : Program}
    {files : List ClassFile} (hw : p.Written) (ha : (p.check o.entry).issues = [])
    (hc : Program.compile o (p.check o.entry).decl (p.check o.entry).decl = .ok files) :
    List.Forall₂ (FileDisciplined p) p.classes files ∧
      ∀ canceled fuel entry out e,
        (Machine.load files).run canceled fuel entry = .failed out e → e.cause ≠ .stackUnderflow := by
  obtain ⟨hd, hclean⟩ := Program.check_clean ha
  rw [hd] at hc
  have hfiles : List.Forall₂ (FileDisciplined p) p.classes files :=
    forall₂_imp_mem (Program.compile_ok hc) fun c hm f hf =>
      hf.disciplined hw (hclean.classes c hm).toMembersClean
  have hbalanced : (Machine.load files).Balanced := by
    rintro mc ⟨f, hf, hmc⟩
    obtain ⟨c, -, hcf⟩ := exists_mem_of_forall₂ hfiles (List.mem_reverse.1 hf)
    exact hcf.balanced hmc
  exact ⟨hfiles, fun _ _ _ _ _ hr => Machine.run_underflow hbalanced hr⟩

theorem accepted_stack_discipline_sample :
    ∃ files, List.Forall₂ (FileDisciplined Tally.program) Tally.program.classes files ∧
      ∀ canceled fuel entry out e,
        (Machine.load files).run canceled fuel entry = .failed out e → e.cause ≠ .stackUnderflow := by
  obtain ⟨files, hf⟩ := Tally.compiled
  exact ⟨files, accepted_stack_discipline (o := {}) Tally.written Tally.accepted hf⟩

end ClassCompiler
