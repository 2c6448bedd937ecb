import ClassCompiler.Proofs.Machine.Defaults

namespace ClassCompiler

/-- The stack of a method has no room for more than `n` values. -/
def MethodCode.Full (mc : MethodCode) (n : Nat) : Prop := 0 < mc.stackLimit ∧ mc.stackLimit ≤ n

theorem MethodCode.Full.mono {mc : MethodCode} {n k : Nat} (h : mc.Full n) (hn : n ≤ k) : mc.Full k :=
  ⟨h.1, Int.le_trans h.2 (Int.ofNat_le.2 hn)⟩

/-- An operation goes on in the same call, at a spot as wanted, or fails for a cause that is allowed. -/
def Does (m : Machine) (mc : MethodCode) (callers : Outer) (A : Cause → Prop) (op : Op) (c : Spot) (P : Spot → Prop) :
    Prop :=
  ∀ f : Frame, FrameAt mc callers { c with pc := c.pc + 1 } f → Attempt A
    (fun r => ∃ d g printed, P d ∧ r = .next g d.heap printed ∧ d.out = c.out ++ printed ∧ FrameAt mc callers d g)
    (m.exec f c.heap op)

theorem asInstance_eq_ok {h : Heap} {v : Value} {cls : String} {fields : List (String × Value)}
    (hi : asInstance h v = .ok (cls, fields)) : h.get? v = some (.inst cls fields) := by
  unfold asInstance at hi
  split at hi
  · cases hi
  · split at hi
    · next ho =>
      obtain ⟨rfl, rfl⟩ := Prod.mk.inj (Except.ok.inj hi)
      exact ho
    · cases hi

theorem asInstance_eq_error {h : Heap} {v : Value} {e : Fault} (hi : asInstance h v = .error e) :
    v.isNull = true ∧ e.cause = .nullReference ∨
      v.isNull = false ∧ (∀ cls fields, h.get? v ≠ some (.inst cls fields)) ∧ e.cause = .classCast := by
  unfold asInstance fault at hi
  split at hi
  · next hv => exact .inl ⟨hv, by rw [← Except.error.inj hi]⟩
  · next hv =>
    split at hi
    · cases hi
    · next ho => exact .inr ⟨by simpa using hv, ho, by rw [← Except.error.inj hi]⟩

theorem NativeMethod.run.position_cases (args es : List Value) :
    (∃ k : Nat, position args es = .ok k ∧ (argument args 0).toInt32.toInt = k ∧ k < es.length) ∨
      ∃ e, position args es = .error e ∧ e.cause = .indexOutOfRange ∧
        ¬(0 ≤ (argument args 0).toInt32.toInt ∧ (argument args 0).toInt32.toInt < es.length) := by
  unfold position
  simp only [Bool.and_eq_true, decide_eq_true_eq]
  split
  · next hi => exact .inl ⟨_, rfl, by omega, by omega⟩
  · next hi => exact .inr ⟨_, rfl, rfl, hi⟩

namespace Does

variable {m : Machine} {mc : MethodCode} {callers : Outer} {A : Cause → Prop} {op : Op} {c : Spot} {P : Spot → Prop}
  {v w : Value} {vs : List Value}

/-- The heap stays as it is, and nothing is printed. -/
theorem of_quiet (hx : ∀ f : Frame, FrameAt mc callers { c with pc := c.pc + 1 } f → Attempt A
      (fun r => ∃ d g, P d ∧ r = .quiet c.heap g ∧ d.heap = c.heap ∧ d.out = c.out ∧ FrameAt mc callers d g)
      (m.exec f c.heap op)) : Does m mc callers A op c P := by
  refine fun f hf => (hx f hf).imp fun r hr => ?_
  obtain ⟨d, g, hP, rfl, hheap, hout, hg⟩ := hr
  exact ⟨d, g, "", hP, by rw [hheap]; rfl, by simp [hout], hg⟩

theorem push_attempt {f : Frame} {v : Value} (hfull : f.method.Full f.stack.length → A .stackOverflow) :
    Attempt A (· = { f with stack := v :: f.stack }) (f.push v) := by
  unfold Frame.push
  split
  · next hl =>
    simp only [Bool.and_eq_true, decide_eq_true_eq] at hl
    exact hfull hl
  · rfl

theorem slot_attempt (f : Frame) {n : Nat} (hslot : f.locals.size ≤ n → A .invalidLocalSlot) :
    Attempt A (fun i => i = n ∧ n < f.locals.size) (f.slot (n : Int)) := by
  unfold Frame.slot
  split
  · next hn => simpa [Attempt] using hn
  · next hn => exact hslot (by simpa using hn)

theorem of_push (hx : ∀ f : Frame, FrameAt mc callers { c with pc := c.pc + 1 } f →
      m.exec f c.heap op = Effect.quiet c.heap <$> { f with stack := vs }.push v)
    (hfull : mc.Full vs.length → A .stackOverflow) : Does m mc callers A op c (· = c.next (v :: vs)) := by
  refine of_quiet fun f hf => ?_
  rw [hx f hf]
  refine (push_attempt (f := { f with stack := vs }) (by rw [hf.method]; exact hfull)).map fun g hg => ?_
  rw [hg]
  exact ⟨_, _, rfl, rfl, rfl, rfl, hf.with_stack _⟩

theorem pushNull (hfull : mc.Full c.stack.length → A .stackOverflow) :
    Does m mc callers A .pushNull c (· = c.next (.null :: c.stack)) :=
  of_push (fun f hf => by rw [← hf.stack]; rfl) hfull

theorem pushInt {n : Int} (hfull : mc.Full c.stack.length → A .stackOverflow) :
    Does m mc callers A (.pushInt n) c (· = c.next (.int (Int32.ofInt n) :: c.stack)) :=
  of_push (fun f hf => by rw [← hf.stack]; rfl) hfull

theorem pushString {text : String} (hfull : mc.Full c.stack.length → A .stackOverflow) :
    Does m mc callers A (.pushString text) c (· = c.next (.str text :: c.stack)) :=
  of_push (fun f hf => by rw [← hf.stack]; rfl) hfull

theorem load {k : SlotKind} {n : Nat} (hslot : c.locals.size ≤ n → A .invalidLocalSlot)
    (hfull : mc.Full c.stack.length → A .stackOverflow) :
    Does m mc callers A (.load k n) c fun d => ∃ v, c.locals[n]? = some v ∧ d = c.next (v :: c.stack) := by
  refine of_quiet fun f hf => ?_
  have hloc : f.locals = c.locals := hf.locals
  have hst : f.stack = c.stack := hf.stack
  refine (slot_attempt f (hloc ▸ hslot)).bind fun i hi => ?_
  obtain ⟨rfl, hi⟩ := hi
  refine (push_attempt (by rw [hf.method, hst]; exact hfull)).map fun g hg => ?_
  rw [hg]
  refine ⟨_, _, ⟨f.local? i, ?_, rfl⟩, rfl, rfl, rfl, by rw [← hst]; exact hf.with_stack _⟩
  rw [hloc] at hi
  rw [Frame.local?, hloc, Array.getElem?_eq_getElem hi]
  rfl

theorem store {k : SlotKind} {n : Nat} (hs : c.stack = v :: vs) (hslot : c.locals.size ≤ n → A .invalidLocalSlot) :
    Does m mc callers A (.store k n) c fun d =>
      n < c.locals.size ∧ d = { c.next vs with locals := c.locals.setIfInBounds n v } := by
  refine of_quiet fun f hf => ?_
  have hst : f.stack = v :: vs := hf.stack.trans hs
  have hloc : f.locals = c.locals := hf.locals
  refine (slot_attempt f (hloc ▸ hslot)).bind fun i hi => ?_
  obtain ⟨rfl, hi⟩ := hi
  simp only [Frame.pop, hst, bind, Except.bind, pure, Except.pure]
  exact ⟨_, _, ⟨hloc ▸ hi, rfl⟩, rfl, rfl, rfl, hf.method, hf.pc, rfl, by simp [Frame.setLocal, hloc], hf.pushes⟩

theorem increment {n : Nat} {k : Int} (hslot : c.locals.size ≤ n → A .invalidLocalSlot) :
    Does m mc callers A (.increment n k) c fun d => ∃ v, c.locals[n]? = some v ∧ d =
      { c.next c.stack with locals := c.locals.setIfInBounds n (.int (v.toInt32 + Int32.ofInt k)) } := by
  refine of_quiet fun f hf => ?_
  have hloc : f.locals = c.locals := hf.locals
  refine (slot_attempt f (hloc ▸ hslot)).bind fun i hi => ?_
  obtain ⟨rfl, hi⟩ := hi
  refine ⟨_, _, ⟨f.local? i, ?_, rfl⟩, rfl, rfl, rfl, hf.method, hf.pc, hf.stack, by simp [Frame.setLocal, hloc],
    hf.pushes⟩
  rw [hloc] at hi
  rw [Frame.local?, hloc, Array.getElem?_eq_getElem hi]
  rfl

theorem dup (hs : c.stack = v :: vs) (hfull : mc.Full (vs.length + 1) → A .stackOverflow) :
    Does m mc callers A .dup c (· = c.next (v :: v :: vs)) := by
  refine of_quiet fun f hf => ?_
  have hst : f.stack = v :: vs := hf.stack.trans hs
  unfold Machine.exec
  simp only [Frame.pop, hst, bind, Except.bind]
  refine (push_attempt (f := { f with stack := vs })
    (by rw [hf.method]; exact fun h => hfull (h.mono (Nat.le_succ _)))).bind fun g hg => ?_
  refine (push_attempt (by rw [hg, hf.method]; exact hfull)).map fun k hk => ?_
  rw [hk, hg]
  exact ⟨_, _, rfl, rfl, rfl, rfl, hf.with_stack _⟩

theorem pop (hs : c.stack = v :: vs) : Does m mc callers A .pop c (· = c.next vs) := by
  refine of_quiet fun f hf => ?_
  have hst : f.stack = v :: vs := hf.stack.trans hs
  unfold Machine.exec
  simp only [Frame.pop, hst, bind, Except.bind]
  exact ⟨_, _, rfl, rfl, rfl, rfl, hf.with_stack _⟩

theorem arith {op : ArithOp} (hs : c.stack = w :: v :: vs)
    (herr : ∀ e, op.apply v.toInt32 w.toInt32 = .error e → A e.cause) (hfull : mc.Full vs.length → A .stackOverflow) :
    Does m mc callers A (.arith op) c fun d =>
      ∃ r, op.apply v.toInt32 w.toInt32 = .ok r ∧ d = c.next (.int r :: vs) := by
  refine of_quiet fun f hf => ?_
  have hst : f.stack = w :: v :: vs := hf.stack.trans hs
  unfold Machine.exec
  simp only [Frame.popTwo, hst, bind, Except.bind]
  cases hr : op.apply v.toInt32 w.toInt32 with
  | error e => exact herr e hr
  | ok r =>
    refine (push_attempt (f := { f with stack := vs }) (by rw [hf.method]; exact hfull)).map fun g hg => ?_
    rw [hg]
    exact ⟨_, _, ⟨r, rfl, rfl⟩, rfl, rfl, rfl, hf.with_stack _⟩

theorem label {l : String} : Does m mc callers A (.label l) c (· = c.next c.stack) :=
  of_quiet fun _ hf => ⟨_, _, rfl, rfl, rfl, rfl, hf.method, hf.pc, hf.stack, hf.locals, hf.pushes⟩

theorem jump {test : Jump} {l : String} {b : Bool} {k : Nat} (hl : mc.code.labelOffset? l = some k)
    (hd : ∀ f : Frame, f.stack = c.stack → test.decide f = .ok (b, { f with stack := vs })) :
    Does m mc callers A (.jump test l) c (· = if b then c.goto k vs else c.next vs) := by
  refine of_quiet fun f hf => ?_
  have hdecide := hd f hf.stack
  have hlabel : f.method.code.labelOffset? l = some k := by rw [hf.method, hl]
  unfold Machine.exec
  simp only [hdecide, bind, Except.bind]
  cases b with
  | false => exact ⟨_, _, rfl, rfl, rfl, rfl, hf.with_stack vs⟩
  | true =>
    simp only [Frame.jumpTo, hlabel, if_true]
    exact ⟨_, _, rfl, rfl, rfl, rfl, hf.method, rfl, rfl, hf.locals, hf.pushes⟩

theorem jump_always {l : String} {k : Nat} (hl : mc.code.labelOffset? l = some k) :
    Does m mc callers A (.jump .always l) c (· = c.goto k c.stack) :=
  jump (b := true) hl fun f hf => by rw [← hf]; rfl

theorem cast {cls : String} (hempty : c.stack = [] → A .stackUnderflow) (hfits : ∀ v vs, c.stack = v :: vs →
      (v.isNull || v.isReference && m.isInstance c.heap v cls) = false → A .classCast) :
    Does m mc callers A (.cast cls) c (· = c.next c.stack) := by
  refine of_quiet fun f hf => ?_
  have hst : f.stack = c.stack := hf.stack
  unfold Machine.exec
  simp only
  split
  · next hs => exact hempty (hst ▸ hs)
  · next v vs hs =>
    split
    · exact ⟨_, _, rfl, rfl, rfl, rfl, hf.method, hf.pc, hf.stack, hf.locals, hf.pushes⟩
    · next hv => exact hfits v vs (hst ▸ hs) (by simpa using hv)

theorem new {cls : String} {o : Object} (ho : m.allocate cls = .ok o)
    (hfull : mc.Full c.stack.length → A .stackOverflow) : Does m mc callers A (.new cls) c
      (· = { c.next (.ref c.heap.size :: c.stack) with heap := c.heap.push o }) := by
  intro f hf
  have hst : f.stack = c.stack := hf.stack
  unfold Machine.exec
  simp only [ho, bind, Except.bind, Heap.alloc]
  refine (push_attempt (by rw [hf.method, hst]; exact hfull)).bind fun g hg => ?_
  rw [hg]
  exact ⟨_, _, "", rfl, rfl, by simp [Spot.next], hf.method, hf.pc, by simp [Spot.next, hst], hf.locals, hf.pushes⟩

theorem getField {r : MemberRef} (hs : c.stack = v :: vs) (herr : ∀ e, asInstance c.heap v = .error e → A e.cause)
    (hfull : mc.Full vs.length → A .stackOverflow) : Does m mc callers A (.getField r) c fun d =>
      ∃ cls fields, c.heap.get? v = some (.inst cls fields) ∧ d = c.next (fieldValue fields r.name :: vs) := by
  refine of_quiet fun f hf => ?_
  have hst : f.stack = v :: vs := hf.stack.trans hs
  unfold Machine.exec
  simp only [Frame.pop, hst, bind, Except.bind]
  split
  · next e he => exact herr e he
  · next cls fields hi =>
    refine (push_attempt (f := { f with stack := vs }) (by rw [hf.method]; exact hfull)).map fun g hg => ?_
    rw [hg]
    exact ⟨_, _, ⟨cls, fields, asInstance_eq_ok hi, rfl⟩, rfl, rfl, rfl, hf.with_stack _⟩

theorem putField {r : MemberRef} (hs : c.stack = w :: v :: vs) (herr : ∀ e, asInstance c.heap v = .error e → A e.cause) :
    Does m mc callers A (.putField r) c fun d => ∃ cls fields, c.heap.get? v = some (.inst cls fields) ∧
      d = { c.next vs with heap := c.heap.set v (.inst cls (setFieldValue fields r.name w)) } := by
  intro f hf
  have hst : f.stack = w :: v :: vs := hf.stack.trans hs
  unfold Machine.exec
  simp only [Frame.popTwo, hst, bind, Except.bind]
  split
  · next e he => exact herr e he
  · next cls fields hi =>
    exact ⟨_, _, "", ⟨cls, fields, asInstance_eq_ok hi, rfl⟩, rfl, by simp [Spot.next],
      hf.method, hf.pc, rfl, hf.locals, hf.pushes⟩

theorem invokeSpecial (args : List Value) {n : NativeConstructor} (hs : c.stack = args.reverse ++ w :: vs)
    (hn : args.length = n.arity) (hnull : w.isNull = true → A .nullReference)
    (herr : ∀ e, n.run c.heap w args = .error e → A e.cause) : Does m mc callers A (.invokeSpecial n.ref) c fun d =>
      ∃ heap, n.run c.heap w args = .ok heap ∧ d = { c.next vs with heap := heap } := by
  intro f hf
  have hst : f.stack = (w :: args).reverse ++ vs := by simp [hf.stack, hs]
  have hpop := Moves.popMany_eq hst (n := argCount n.ref.desc + 1) (by simp [hn])
  have hname : n.ref.name = initName := by cases n <;> rfl
  unfold Machine.exec
  simp only [Machine.invokeSpecial, hname, hpop, bind, Except.bind, argument, List.getElem?_cons_zero,
    Option.getD_some, NativeConstructor.ofRef?_ref, List.tail_cons, ne_eq, not_true_eq_false, if_false]
  split
  · next hw => exact hnull hw
  · cases hrun : n.run c.heap w args with
    | error e => exact herr e hrun
    | ok heap =>
      exact ⟨_, _, "", ⟨heap, rfl, rfl⟩, rfl, by simp [Spot.next], hf.method, hf.pc, rfl, hf.locals, hf.pushes⟩

/-- A constructor without parameters of a class that has nothing to construct. -/
theorem invokeSpecial_plain {cls : String} (hc : cls = rootClass ∨ cls = arrayListClass) (hs : c.stack = w :: vs)
    (hnull : w.isNull = true → A .nullReference) :
    Does m mc callers A (.invokeSpecial ⟨cls, initName, "()V"⟩) c (· = c.next vs) := by
  refine of_quiet fun f hf => ?_
  have hst : f.stack = [w].reverse ++ vs := by simp [hf.stack, hs]
  have hpop := Moves.popMany_eq hst (n := argCount "()V" + 1) (by simp)
  have hplain : (decide (cls = rootClass) || decide (cls = arrayListClass)) = true := by simpa using hc
  unfold Machine.exec
  simp only [Machine.invokeSpecial, hpop, bind, Except.bind, argument, List.getElem?_cons_zero, Option.getD_some,
    NativeConstructor.ofRef?_noParams, ne_eq, not_true_eq_false, if_false, hplain, if_true]
  split
  · next hw => exact hnull hw
  · exact ⟨_, _, rfl, rfl, rfl, rfl, hf.with_stack vs⟩

theorem invokeSpecial_arrayList (hs : c.stack = w :: vs) (hnull : w.isNull = true → A .nullReference) :
    Does m mc callers A (.invokeSpecial ⟨arrayListClass, initName, "()V"⟩) c (· = c.next vs) :=
  invokeSpecial_plain (.inr rfl) hs hnull

/-- A runtime method that calls no other and prints nothing. -/
theorem invokeVirtual (args : List Value) {n : NativeMethod} (hs : c.stack = args.reverse ++ w :: vs)
    (hn : args.length = n.arity) (hnull : w.isNull = true → A .nullReference)
    (herr : w.isNull = false → ∀ e, n.run m c.heap w args = .error e → A e.cause)
    (hvalue : ∀ r, n.run m c.heap w args = .ok r → ∃ v heap, r = .value v heap "")
    (hfull : mc.Full vs.length → A .stackOverflow) : Does m mc callers A (.invokeVirtual n.ref) c fun d =>
      ∃ v heap, n.run m c.heap w args = .ok (.value v heap "") ∧
        d = { c.next (if n.answers then v :: vs else vs) with heap := heap } := by
  intro f hf
  have hst : f.stack = (w :: args).reverse ++ vs := by simp [hf.stack, hs]
  have hpop := Moves.popMany_eq hst (n := argCount n.ref.desc + 1) (by simp [hn])
  unfold Machine.exec
  simp only [Machine.invokeVirtual, hpop, bind, Except.bind, argument, List.getElem?_cons_zero,
    Option.getD_some, NativeMethod.ofRef?_ref, List.tail_cons, returnsVoid_method, Bool.not_not]
  cases hw : w.isNull with
  | true => exact hnull hw
  | false =>
    cases hrun : n.run m c.heap w args with
    | error e => exact herr hw e hrun
    | ok r =>
      obtain ⟨v, heap, rfl⟩ := hvalue r hrun
      cases n.answers with
      | false =>
        exact ⟨_, _, "", ⟨v, heap, rfl, rfl⟩, rfl, by simp [Spot.next], hf.method, hf.pc, rfl, hf.locals, hf.pushes⟩
      | true =>
        refine (push_attempt (f := { f with stack := vs }) (by rw [hf.method]; exact hfull)).bind fun g hg => ?_
        rw [hg]
        exact ⟨_, _, "", ⟨v, heap, rfl, rfl⟩, rfl, by simp [Spot.next], hf.method, hf.pc, rfl, hf.locals, hf.pushes⟩

theorem invokeStatic {n : NativeStatic} (hs : c.stack = v :: vs) (hfull : mc.Full vs.length → A .stackOverflow) :
    Does m mc callers A (.invokeStatic n.ref) c
      (· = { c.next ((n.run c.heap [v]).2 :: vs) with heap := (n.run c.heap [v]).1 }) := by
  intro f hf
  have hst : f.stack = [v].reverse ++ vs := by simp [hf.stack, hs]
  have hpop := Moves.popMany_eq hst (n := argCount n.ref.desc) (by simp)
  unfold Machine.exec
  simp only [Machine.invokeStatic, hpop, bind, Except.bind, NativeStatic.ofRef?_ref]
  refine (push_attempt (f := { f with stack := vs }) (by rw [hf.method]; exact hfull)).bind fun g hg => ?_
  rw [hg]
  exact ⟨_, _, "", rfl, rfl, by simp [Spot.next], hf.method, hf.pc, rfl, hf.locals, hf.pushes⟩

theorem getElement {n : Value} (hs : c.stack = n :: w :: vs) (hnull : w.isNull = true → A .nullReference)
    (hlist : w.isNull = false → (∀ es, c.heap.get? w ≠ some (.list es)) → A .classCast)
    (hrange : ∀ es, c.heap.get? w = some (.list es) →
      ¬(0 ≤ n.toInt32.toInt ∧ n.toInt32.toInt < es.length) → A .indexOutOfRange)
    (hfull : mc.Full vs.length → A .stackOverflow) :
    Does m mc callers A (.invokeVirtual NativeMethod.getElement.ref) c fun d => ∃ a es, ∃ k : Nat, ∃ x, w = .ref a ∧
      c.heap[a]? = some (.list es) ∧ n.toInt32.toInt = k ∧ es[k]? = some x ∧ d = c.next (x :: vs) := by
  refine fun f hf => (invokeVirtual [n] hs rfl hnull (fun hw e he => ?_) (fun r hr => ?_) hfull f hf).imp fun r hr => ?_
  · simp only [NativeMethod.run] at he
    split at he
    · next es ho =>
      obtain ⟨k, hk, -⟩ | ⟨e', he', hcause, hout⟩ := NativeMethod.run.position_cases [n] es
      · simp [hk] at he
      · rw [he'] at he
        obtain rfl := Except.error.inj he
        exact hcause ▸ hrange es ho hout
    · next ho =>
      obtain rfl := Except.error.inj he
      exact hlist hw ho
  · simp only [NativeMethod.run] at hr
    repeat' split at hr
    all_goals cases hr
    exact ⟨_, _, rfl⟩
  · obtain ⟨d, g, printed, ⟨v, heap, hrun, rfl⟩, hg⟩ := hr
    refine ⟨_, g, printed, ?_, hg⟩
    simp only [NativeMethod.run] at hrun
    split at hrun
    · next es ho =>
      obtain ⟨k, hk, hkn, hlt⟩ | ⟨e, he, -⟩ := NativeMethod.run.position_cases [n] es
      · rw [hk] at hrun
        obtain ⟨rfl, rfl, -⟩ := Reply.value.inj (Except.ok.inj hrun)
        obtain ⟨a, rfl⟩ := Heap.ref_of_get? ho
        exact ⟨a, es, k, _, rfl, ho, hkn, by simp [argument, List.getElem?_eq_getElem hlt], rfl⟩
      · simp [he] at hrun
    · cases hrun

theorem setElement {n : Value} (hs : c.stack = v :: n :: w :: vs) (hnull : w.isNull = true → A .nullReference)
    (hlist : w.isNull = false → (∀ es, c.heap.get? w ≠ some (.list es)) → A .classCast)
    (hrange : ∀ es, c.heap.get? w = some (.list es) →
      ¬(0 ≤ n.toInt32.toInt ∧ n.toInt32.toInt < es.length) → A .indexOutOfRange)
    (hfull : mc.Full vs.length → A .stackOverflow) :
    Does m mc callers A (.invokeVirtual NativeMethod.setElement.ref) c fun d => ∃ a es, ∃ k : Nat, w = .ref a ∧
      c.heap[a]? = some (.list es) ∧ n.toInt32.toInt = k ∧ k < es.length ∧
      d = { c.next vs with heap := c.heap.setIfInBounds a (.list (es.set k v)) } := by
  refine fun f hf => (invokeVirtual [n, v] hs rfl hnull (fun hw e he => ?_) (fun r hr => ?_) hfull f hf).imp
    fun r hr => ?_
  · simp only [NativeMethod.run] at he
    split at he
    · next es ho =>
      obtain ⟨k, hk, -⟩ | ⟨e', he', hcause, hout⟩ := NativeMethod.run.position_cases [n, v] es
      · simp [hk] at he
      · rw [he'] at he
        obtain rfl := Except.error.inj he
        exact hcause ▸ hrange es ho hout
    · next ho =>
      obtain rfl := Except.error.inj he
      exact hlist hw ho
  · simp only [NativeMethod.run] at hr
    repeat' split at hr
    all_goals cases hr
    exact ⟨_, _, rfl⟩
  · obtain ⟨d, g, printed, ⟨x, heap, hrun, rfl⟩, hg⟩ := hr
    refine ⟨_, g, printed, ?_, hg⟩
    simp only [NativeMethod.run] at hrun
    split at hrun
    · next es ho =>
      obtain ⟨k, hk, hkn, hlt⟩ | ⟨e, he, -⟩ := NativeMethod.run.position_cases [n, v] es
      · rw [hk] at hrun
        obtain ⟨rfl, rfl, -⟩ := Reply.value.inj (Except.ok.inj hrun)
        obtain ⟨a, rfl⟩ := Heap.ref_of_get? ho
        exact ⟨a, es, k, rfl, ho, hkn, hlt, rfl⟩
      · simp [he] at hrun
    · cases hrun

end Does

end ClassCompiler
