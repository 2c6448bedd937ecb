import ClassCompiler.Proofs.Code.Native
import ClassCompiler.Proofs.Outcome
import ClassCompiler.Machine.Run
import Mathlib.Tactic.Common

namespace ClassCompiler

def Outcome.out : Outcome → String
  | .finished out => out
  | .failed out _ => out
  | .outOfFuel out => out

def Outcome.printed? : Outcome → Option String
  | .finished out => some out
  | _ => none

theorem Outcome.eq_finished {r : Outcome} {out : String} (h : r.printed? = some out) : r = .finished out := by
  cases r with
  | finished out' => exact congrArg Outcome.finished (Option.some.inj h)
  | failed out' e => cases h
  | outOfFuel out' => cases h

def Outcome.Ended : Outcome → Prop
  | .outOfFuel _ => False
  | _ => True

theorem State.run_of_ended {m : Machine} {canceled : Bool} {s : State} {n k : Nat}
    (h : (s.run m canceled n).Ended) (hle : n ≤ k) : s.run m canceled k = s.run m canceled n := by
  induction n generalizing s k with
  | zero => exact h.elim
  | succ n ih =>
    obtain ⟨k, rfl⟩ : ∃ j, k = j + 1 := ⟨k - 1, by omega⟩
    simp only [run] at h ⊢
    cases hs : s.step m canceled with
    | running s' =>
      simp only [hs] at h ⊢
      exact ih h (by omega)
    | finished out => rfl
    | failed out e => rfl

def Progress.Extends (out : String) : Progress → Prop
  | .running s => ∃ more, s.out = out ++ more
  | .finished out' => out' = out
  | .failed out' _ => out' = out

theorem State.leave_extends (f : Frame) (callers : List Frame) (heap : Heap) (out : String) (v : Value) :
    (leave f callers heap out v).Extends out := by
  unfold leave
  repeat' split
  all_goals first | rfl | exact ⟨"", by simp⟩

theorem State.perform_extends (m : Machine) (f : Frame) (callers : List Frame) (heap : Heap) (out : String) (op : Op) :
    (perform m f callers heap out op).Extends out := by
  unfold perform
  simp only
  split
  · rfl
  · exact ⟨_, rfl⟩
  · split
    · rfl
    · exact ⟨"", by simp⟩

theorem State.step_extends (m : Machine) (canceled : Bool) (s : State) : (s.step m canceled).Extends s.out := by
  obtain ⟨frames, heap, out⟩ := s
  cases frames with
  | nil => rfl
  | cons f callers =>
    unfold step
    simp only
    split
    · exact leave_extends f callers heap out .null
    · split
      · rfl
      · split
        · exact leave_extends _ callers heap out .null
        · split
          · rfl
          · exact leave_extends _ callers heap out _
        · exact perform_extends m _ callers heap out _

theorem State.run_extends {m : Machine} {canceled : Bool} {s : State} {n k : Nat} (hle : n ≤ k) :
    ∃ more, (s.run m canceled k).out = (s.run m canceled n).out ++ more := by
  induction k generalizing s n with
  | zero =>
    obtain rfl : n = 0 := by omega
    exact ⟨"", by simp⟩
  | succ k ih =>
    have hstep := s.step_extends m canceled
    cases n with
    | zero =>
      simp only [run]
      cases hs : s.step m canceled with
      | running s' =>
        rw [hs] at hstep
        obtain ⟨more, hmore⟩ := hstep
        obtain ⟨rest, hrest⟩ := ih (s := s') (Nat.zero_le k)
        refine ⟨more ++ rest, ?_⟩
        rw [hrest, ← String.append_assoc, Outcome.out, ← hmore]
        rfl
      | finished out =>
        rw [hs] at hstep
        exact ⟨"", by rw [String.append_empty]; exact hstep⟩
      | failed out e =>
        rw [hs] at hstep
        exact ⟨"", by rw [String.append_empty]; exact hstep⟩
    | succ n =>
      simp only [run]
      cases hs : s.step m canceled with
      | running s' => exact ih (by omega)
      | finished out => exact ⟨"", by simp⟩
      | failed out e => exact ⟨"", by simp⟩

/-- What is printed first and what is printed in the end. -/
def Continues (out whole : String) : Prop := ∃ more, whole = out ++ more

theorem Continues.refl (out : String) : Continues out out := ⟨"", by simp⟩

theorem Continues.trans {a b c : String} (h : Continues a b) (h' : Continues b c) : Continues a c := by
  obtain ⟨more, rfl⟩ := h
  obtain ⟨rest, rfl⟩ := h'
  exact ⟨more ++ rest, String.append_assoc⟩

/-- A run comes to a state as wanted, `n` steps having been made so far, or its stack overflows before
it has printed more than `whole`. -/
inductive Leads (m : Machine) (wanted : Nat → State → Prop) (whole : String) : (n : Nat) → State → Prop where
  | here {n : Nat} {s : State} (h : wanted n s) : Leads m wanted whole n s
  | step {n : Nat} {s s' : State} (h : s.step m false = .running s') (hs : Leads m wanted whole (n + 1) s') :
    Leads m wanted whole n s
  | overflow {n : Nat} {s : State} {out : String} {e : Fault} (h : s.step m false = .failed out e)
      (he : e.cause = .stackOverflow) (ho : Continues out whole) : Leads m wanted whole n s

theorem Leads.bind {m : Machine} {P Q : Nat → State → Prop} {out whole : String} {n : Nat} {s : State}
    (h : Leads m P out n s) (ho : Continues out whole) (hk : ∀ k t, P k t → Leads m Q whole k t) :
    Leads m Q whole n s := by
  induction h with
  | here h => exact hk _ _ h
  | step h _ ih => exact .step h ih
  | overflow h he ho' => exact .overflow h he (ho'.trans ho)

theorem Leads.imp {m : Machine} {P Q : Nat → State → Prop} {whole : String} {n : Nat} {s : State}
    (h : Leads m P whole n s) (hi : ∀ k t, P k t → Q k t) : Leads m Q whole n s :=
  h.bind (.refl whole) fun k t hk => .here (hi k t hk)

/-- The run as a whole, seen from a state it leads to. -/
theorem Leads.run {m : Machine} {P : Nat → State → Prop} {whole : String} {n : Nat} {s : State}
    (h : Leads m P whole n s) :
    (∃ k t, P (n + k) t ∧ ∀ fuel, s.run m false (k + fuel) = t.run m false fuel) ∨
      ∃ k out e, s.run m false k = .failed out e ∧ e.cause = .stackOverflow ∧ Continues out whole := by
  induction h with
  | @here n s h => exact .inl ⟨0, s, h, fun fuel => by rw [Nat.zero_add]⟩
  | step h _ ih =>
    rcases ih with ⟨k, t, hP, hrun⟩ | ⟨k, out, e, hrun, he⟩
    · refine .inl ⟨k + 1, t, by rwa [Nat.add_assoc, Nat.add_comm 1] at hP, fun fuel => ?_⟩
      rw [Nat.add_right_comm, State.run, h]
      exact hrun fuel
    · refine .inr ⟨k + 1, out, e, ?_, he⟩
      rw [State.run, h]
      exact hrun
  | @overflow n s out e h he ho => exact .inr ⟨1, out, e, by rw [State.run, h], he, ho⟩

/-- What a call returns to: the calls around it, and whether they get its result. -/
structure Outer where
  frames : List Frame
  pushes : Bool := false

/-- Where a call stands and what it has in hand. -/
structure Spot where
  pc : Nat
  stack : List Value
  locals : Array Value
  heap : Heap
  out : String

/-- A frame runs a method and stands at a spot. -/
structure FrameAt (mc : MethodCode) (callers : Outer) (c : Spot) (f : Frame) : Prop where
  method : f.method = mc
  pc : f.pc = c.pc
  stack : f.stack = c.stack
  locals : f.locals = c.locals
  pushes : f.pushesResult = callers.pushes

/-- The innermost call stands at a spot. -/
structure StandsAt (mc : MethodCode) (callers : Outer) (c : Spot) (f : Frame) (s : State) : Prop
    extends FrameAt mc callers c f where
  state : s = ⟨f :: callers.frames, c.heap, c.out⟩

/-- A run comes from one spot of a call to another in at least `j` steps, or the stack overflows. -/
structure Moves (m : Machine) (mc : MethodCode) (callers : Outer) (j : Nat) (c d : Spot) : Prop where
  prints : Continues c.out d.out
  leads : ∀ n f s, StandsAt mc callers c f s →
    Leads m (fun k t => n + j ≤ k ∧ ∃ g, StandsAt mc callers d g t) d.out n s

/-- A run comes from a spot to a division by zero, or the stack overflows. -/
structure Divides (m : Machine) (mc : MethodCode) (callers : Outer) (c : Spot) (out : String) : Prop where
  prints : Continues c.out out
  leads : ∀ n f s, StandsAt mc callers c f s →
    Leads m (fun _ t => ∃ e, t.step m false = .failed out e ∧ e.cause = .divisionByZero) out n s

namespace Moves

variable {m : Machine} {mc : MethodCode} {callers : Outer} {i j : Nat} {a b c : Spot}

theorem refl : Moves m mc callers 0 a a := ⟨.refl _, fun _ f _ h => .here ⟨Nat.le_refl _, f, h⟩⟩

theorem trans (h : Moves m mc callers i a b) (h' : Moves m mc callers j b c) :
    Moves m mc callers (i + j) a c := by
  refine ⟨h.prints.trans h'.prints, fun n f s hs => (h.leads n f s hs).bind h'.prints fun k t hk => ?_⟩
  obtain ⟨hle, g, hg⟩ := hk
  refine (h'.leads k g t hg).imp fun k' t' hk' => ?_
  obtain ⟨hle', g', hg'⟩ := hk'
  exact ⟨by omega, g', hg'⟩

theorem weaken (h : Moves m mc callers i a b) (hij : j ≤ i) : Moves m mc callers j a b := by
  refine ⟨h.prints, fun n f s hs => (h.leads n f s hs).imp fun k t hk => ?_⟩
  obtain ⟨hle, g, hg⟩ := hk
  exact ⟨by omega, g, hg⟩

theorem arrive (h : Moves m mc callers i a b) (hb : b = c) : Moves m mc callers 0 a c :=
  hb ▸ h.weaken (Nat.zero_le _)

theorem divides {out : String} (h : Moves m mc callers i a b) (h' : Divides m mc callers b out) :
    Divides m mc callers a out := by
  refine ⟨h.prints.trans h'.prints, fun n f s hs => (h.leads n f s hs).bind h'.prints fun k t hk => ?_⟩
  obtain ⟨-, g, hg⟩ := hk
  exact h'.leads k g t hg

end Moves

def OpAt (code : Code) (pc : Nat) (op : Op) : Prop := ∃ line, code[pc]? = some ⟨op, line⟩

section

variable {m : Machine} {mc : MethodCode} {callers : Outer} {c d : Spot} {op : Op}

theorem step_of_opAt (hi : OpAt mc.code c.pc op) (hr : op ≠ .ret) (hr' : op ≠ .retRef) {f : Frame} {s : State}
    (hs : StandsAt mc callers c f s) : s.step m false =
      State.perform m { f with pc := f.pc + 1, steps := f.steps + 1 } callers.frames c.heap c.out op := by
  obtain ⟨line, hi⟩ := hi
  have hget : f.method.code[f.pc]? = some ⟨op, line⟩ := by rw [hs.method, hs.pc, hi]
  rw [hs.state]
  simp only [State.step, hget, Bool.false_and, Bool.false_eq_true, if_false]

theorem Moves.of_exec (printed : String) (hi : OpAt mc.code c.pc op) (hr : op ≠ .ret) (hr' : op ≠ .retRef)
    (hout : d.out = c.out ++ printed)
    (hx : ∀ f : Frame, FrameAt mc callers { c with pc := c.pc + 1 } f → Attempt (· = .stackOverflow)
      (fun r => ∃ g, r = .next g d.heap printed ∧ FrameAt mc callers d g) (m.exec f c.heap op)) :
    Moves m mc callers 1 c d := by
  refine ⟨⟨printed, hout⟩, fun n f s hs => ?_⟩
  have hstep := step_of_opAt (m := m) hi hr hr' hs
  have hexec := hx { f with pc := f.pc + 1, steps := f.steps + 1 }
    ⟨hs.method, by simp [hs.pc], hs.stack, hs.locals, hs.pushes⟩
  unfold State.perform at hstep
  simp only at hstep
  cases he : m.exec { f with pc := f.pc + 1, steps := f.steps + 1 } c.heap op with
  | error e =>
    rw [he] at hexec hstep
    exact .overflow hstep hexec ⟨printed, hout⟩
  | ok r =>
    rw [he] at hexec hstep
    obtain ⟨g, rfl, hg⟩ := hexec
    refine .step hstep (.here ⟨Nat.le_refl _, g, ?_⟩)
    rw [← hout]
    exact ⟨hg, rfl⟩

theorem Divides.of_exec (hi : OpAt mc.code c.pc op) (hr : op ≠ .ret) (hr' : op ≠ .retRef)
    (hx : ∀ f : Frame, FrameAt mc callers { c with pc := c.pc + 1 } f →
      m.exec f c.heap op = fault .divisionByZero) : Divides m mc callers c c.out := by
  refine ⟨.refl _, fun n f s hs => ?_⟩
  have hstep := step_of_opAt (m := m) hi hr hr' hs
  have hexec := hx { f with pc := f.pc + 1, steps := f.steps + 1 }
    ⟨hs.method, by simp [hs.pc], hs.stack, hs.locals, hs.pushes⟩
  unfold State.perform at hstep
  simp only [hexec, fault] at hstep
  exact .here ⟨_, hstep, rfl⟩

end

/-- The spot after an operation that only changes the stack. -/
def Spot.next (c : Spot) (stack : List Value) : Spot := { c with pc := c.pc + 1, stack }

def Spot.goto (c : Spot) (pc : Nat) (stack : List Value) : Spot := { c with pc, stack }

theorem Frame.push_attempt (f : Frame) (v : Value) :
    Attempt (· = .stackOverflow) (· = { f with stack := v :: f.stack }) (f.push v) := by
  unfold Frame.push
  split <;> simp [Attempt, fault]

theorem FrameAt.with_stack {mc : MethodCode} {c : Spot} {f : Frame} (h : FrameAt mc callers { c with pc := c.pc + 1 } f)
    (stack : List Value) : FrameAt mc callers (c.next stack) { f with stack } :=
  ⟨h.method, h.pc, rfl, h.locals, h.pushes⟩

theorem Jump.decide_ints {test : IntTest} {f : Frame} {x y : Value} {vs : List Value}
    (hf : f.stack = y :: x :: vs) :
    (Jump.ifInts test).decide f = .ok (test.holds x.toInt32 y.toInt32, { f with stack := vs }) := by
  simp [Jump.decide, Frame.popTwo, hf, bind, Except.bind, pure, Except.pure]

namespace Moves

variable {m : Machine} {mc : MethodCode} {callers : Outer} {c : Spot} {v w : Value} {vs : List Value}

/-- An operation that puts one value on the stack. -/
theorem of_push {op : Op} (hi : OpAt mc.code c.pc op) (hr : op ≠ .ret) (hr' : op ≠ .retRef)
    (hx : ∀ f : Frame, FrameAt mc callers { c with pc := c.pc + 1 } f →
      m.exec f c.heap op = Effect.quiet c.heap <$> { f with stack := vs }.push v) :
    Moves m mc callers 1 c (c.next (v :: vs)) := by
  refine of_exec "" hi hr hr' (by simp [Spot.next]) fun f hf => ?_
  rw [hx f hf]
  refine (Frame.push_attempt _ v).map fun g hg => ⟨g, rfl, ?_⟩
  rw [hg]
  exact ⟨hf.method, hf.pc, rfl, hf.locals, hf.pushes⟩

/-- An operation that changes the frame and prints nothing. -/
theorem of_quiet {op : Op} {d : Spot} (hi : OpAt mc.code c.pc op) (hr : op ≠ .ret) (hr' : op ≠ .retRef)
    (hh : d.heap = c.heap) (ho : d.out = c.out)
    (hx : ∀ f : Frame, FrameAt mc callers { c with pc := c.pc + 1 } f →
      ∃ g, m.exec f c.heap op = .ok (.quiet c.heap g) ∧ FrameAt mc callers d g) : Moves m mc callers 1 c d := by
  refine of_exec "" hi hr hr' (by simp [ho]) fun f hf => ?_
  obtain ⟨g, he, hg⟩ := hx f hf
  rw [he, hh]
  exact ⟨g, rfl, hg⟩

theorem pushInt {n : Int} (hi : OpAt mc.code c.pc (.pushInt n)) :
    Moves m mc callers 1 c (c.next (.int (Int32.ofInt n) :: c.stack)) := by
  refine of_push hi (by simp) (by simp) fun f hf => ?_
  rw [← hf.stack]
  rfl

theorem pushString {s : String} (hi : OpAt mc.code c.pc (.pushString s)) :
    Moves m mc callers 1 c (c.next (.str s :: c.stack)) := by
  refine of_push hi (by simp) (by simp) fun f hf => ?_
  rw [← hf.stack]
  rfl

theorem pushNull (hi : OpAt mc.code c.pc .pushNull) : Moves m mc callers 1 c (c.next (.null :: c.stack)) := by
  refine of_push hi (by simp) (by simp) fun f hf => ?_
  rw [← hf.stack]
  rfl

theorem slot_eq {f : Frame} {n : Nat} (h : n < f.locals.size) : f.slot (n : Int) = .ok n := by
  simp [Frame.slot, h]

theorem load {k : SlotKind} {n : Nat} (hi : OpAt mc.code c.pc (.load k n)) (hn : c.locals[n]? = some v) :
    Moves m mc callers 1 c (c.next (v :: c.stack)) := by
  refine of_push hi (by simp) (by simp) fun f hf => ?_
  have hget : f.locals[n]? = some v := by rw [hf.locals]; exact hn
  have hlt : n < f.locals.size := (Array.getElem?_eq_some_iff.1 hget).1
  unfold Machine.exec
  simp only [slot_eq hlt, Frame.local?, hget, Option.getD_some, bind, Except.bind]
  rw [show c.stack = f.stack from hf.stack.symm]

theorem store {k : SlotKind} {n : Nat} (hi : OpAt mc.code c.pc (.store k n)) (hs : c.stack = v :: vs)
    (hn : n < c.locals.size) :
    Moves m mc callers 1 c { c.next vs with locals := c.locals.setIfInBounds n v } := by
  refine of_quiet hi (by simp) (by simp) rfl rfl fun f hf => ?_
  have hlt : n < f.locals.size := by rw [hf.locals]; exact hn
  have hst : f.stack = v :: vs := hf.stack.trans hs
  refine ⟨_, by unfold Machine.exec; simp only [slot_eq hlt, Frame.pop, hst, bind, Except.bind]; rfl, ?_⟩
  exact ⟨hf.method, hf.pc, rfl, by simp [Frame.setLocal, hf.locals], hf.pushes⟩

theorem dup (hi : OpAt mc.code c.pc .dup) (hs : c.stack = v :: vs) :
    Moves m mc callers 1 c (c.next (v :: v :: vs)) := by
  refine of_exec "" hi (by simp) (by simp) (by simp [Spot.next]) fun f hf => ?_
  have hst : f.stack = v :: vs := hf.stack.trans hs
  unfold Machine.exec
  simp only [Frame.pop, hst, bind, Except.bind]
  refine (Frame.push_attempt { f with stack := vs } v).bind fun g hg => ?_
  refine (Frame.push_attempt g v).map fun k hk => ⟨k, rfl, ?_⟩
  rw [hk, hg]
  exact hf.with_stack _

theorem pop (hi : OpAt mc.code c.pc .pop) (hs : c.stack = v :: vs) : Moves m mc callers 1 c (c.next vs) := by
  refine of_quiet hi (by simp) (by simp) rfl rfl fun f hf => ?_
  have hst : f.stack = v :: vs := hf.stack.trans hs
  exact ⟨_, by unfold Machine.exec; simp only [Frame.pop, hst, bind, Except.bind]; rfl, hf.with_stack vs⟩

theorem neg (hi : OpAt mc.code c.pc .neg) (hs : c.stack = v :: vs) :
    Moves m mc callers 1 c (c.next (.int (-v.toInt32) :: vs)) := by
  refine of_push hi (by simp) (by simp) fun f hf => ?_
  have hst : f.stack = v :: vs := hf.stack.trans hs
  unfold Machine.exec
  simp only [Frame.pop, hst, bind, Except.bind]

theorem arith {op : ArithOp} {r : Int32} (hi : OpAt mc.code c.pc (.arith op)) (hs : c.stack = w :: v :: vs)
    (hr : op.apply v.toInt32 w.toInt32 = .ok r) : Moves m mc callers 1 c (c.next (.int r :: vs)) := by
  refine of_push hi (by simp) (by simp) fun f hf => ?_
  have hst : f.stack = w :: v :: vs := hf.stack.trans hs
  unfold Machine.exec
  simp only [Frame.popTwo, hst, bind, Except.bind, hr]

theorem label {l : String} (hi : OpAt mc.code c.pc (.label l)) : Moves m mc callers 1 c (c.next c.stack) :=
  of_quiet hi (by simp) (by simp) rfl rfl fun f hf => ⟨f, rfl, hf.method, hf.pc, hf.stack, hf.locals, hf.pushes⟩

theorem getStatic (hi : OpAt mc.code c.pc (.getStatic outField)) :
    Moves m mc callers 1 c (c.next (.stream :: c.stack)) := by
  refine of_push hi (by simp) (by simp) fun f hf => ?_
  rw [← hf.stack]
  unfold Machine.exec
  simp

theorem jump {test : Jump} {l : String} {b : Bool} {k : Nat} (hi : OpAt mc.code c.pc (.jump test l))
    (hl : mc.code.labelOffset? l = some k)
    (hd : ∀ f : Frame, f.stack = c.stack → test.decide f = .ok (b, { f with stack := vs })) :
    Moves m mc callers 1 c (if b then c.goto k vs else c.next vs) := by
  refine of_quiet hi (by simp) (by simp) (by split <;> rfl) (by split <;> rfl) fun f hf => ?_
  have hdecide := hd f hf.stack
  have hlabel : f.method.code.labelOffset? l = some k := by rw [hf.method, hl]
  cases b with
  | false =>
    refine ⟨{ f with stack := vs }, ?_, hf.with_stack vs⟩
    unfold Machine.exec
    simp only [hdecide, bind, Except.bind]
    rfl
  | true =>
    refine ⟨{ f with pc := k, stack := vs }, ?_, hf.method, rfl, rfl, hf.locals, hf.pushes⟩
    unfold Machine.exec
    simp only [hdecide, bind, Except.bind, Frame.jumpTo, hlabel, if_true]
    rfl

theorem jump_always {l : String} {k : Nat} (hi : OpAt mc.code c.pc (.jump .always l))
    (hl : mc.code.labelOffset? l = some k) : Moves m mc callers 1 c (c.goto k c.stack) := by
  refine jump (b := true) hi hl fun f hf => ?_
  rw [← hf]
  rfl

theorem popMany_eq {f : Frame} {n : Nat} {args : List Value} (hs : f.stack = args.reverse ++ vs)
    (hn : args.length = n) : f.popMany n = .ok (args, { f with stack := vs }) := by
  subst hn
  have hlen : args.reverse.length = args.length := by simp
  simp only [Frame.popMany, hs, List.length_append, hlen]
  rw [if_neg (by omega), List.take_left' hlen, List.drop_left' hlen, List.reverse_reverse]

theorem invokeVirtual (args : List Value) {n : NativeMethod} {h : Heap} {printed : String}
    (hi : OpAt mc.code c.pc (.invokeVirtual n.ref)) (hs : c.stack = args.reverse ++ w :: vs)
    (hn : args.length = n.arity) (hw : w.isNull = false)
    (hrun : n.run m c.heap w args = .ok (.value v h printed)) :
    Moves m mc callers 1 c
      { c.next (if n.answers then v :: vs else vs) with heap := h, out := c.out ++ printed } := by
  refine of_exec printed hi (by simp) (by simp) rfl fun f hf => ?_
  have hst : f.stack = (w :: args).reverse ++ vs := by simp [hf.stack, hs]
  have hpop := popMany_eq hst (n := argCount n.ref.desc + 1) (by simp [hn])
  unfold Machine.exec
  simp only [Machine.invokeVirtual, hpop, bind, Except.bind, argument, List.getElem?_cons_zero,
    Option.getD_some, hw, NativeMethod.ofRef?_ref, List.tail_cons, hrun, returnsVoid_method, Bool.not_not,
    Bool.false_eq_true, if_false]
  cases n.answers with
  | false => exact ⟨_, rfl, hf.method, hf.pc, rfl, hf.locals, hf.pushes⟩
  | true =>
    refine (Frame.push_attempt { f with stack := vs } v).bind fun g hg => ⟨g, rfl, ?_⟩
    rw [hg]
    exact ⟨hf.method, hf.pc, rfl, hf.locals, hf.pushes⟩

theorem invokeStatic {n : NativeStatic} (hi : OpAt mc.code c.pc (.invokeStatic n.ref)) (hs : c.stack = v :: vs) :
    Moves m mc callers 1 c
      { c.next ((n.run c.heap [v]).2 :: vs) with heap := (n.run c.heap [v]).1 } := by
  refine of_exec "" hi (by simp) (by simp) (by simp [Spot.next]) fun f hf => ?_
  have hst : f.stack = [v].reverse ++ vs := by simp [hf.stack, hs]
  have hpop := popMany_eq hst (n := argCount n.ref.desc) (by simp)
  unfold Machine.exec
  simp only [Machine.invokeStatic, hpop, bind, Except.bind, NativeStatic.ofRef?_ref]
  refine (Frame.push_attempt { f with stack := vs } _).bind fun g hg => ⟨g, rfl, ?_⟩
  rw [hg]
  exact ⟨hf.method, hf.pc, rfl, hf.locals, hf.pushes⟩

theorem new {cls : String} {o : Object} (hi : OpAt mc.code c.pc (.new cls)) (ho : m.allocate cls = .ok o) :
    Moves m mc callers 1 c
      { c.next (.ref c.heap.size :: c.stack) with heap := c.heap.push o } := by
  refine of_exec "" hi (by simp) (by simp) (by simp [Spot.next]) fun f hf => ?_
  unfold Machine.exec
  simp only [ho, bind, Except.bind, Heap.alloc]
  refine (Frame.push_attempt f _).bind fun g hg => ⟨g, rfl, ?_⟩
  rw [hg]
  exact ⟨hf.method, hf.pc, by simp [Spot.next, hf.stack], hf.locals, hf.pushes⟩

theorem invokeSpecial (args : List Value) {n : NativeConstructor} {h : Heap}
    (hi : OpAt mc.code c.pc (.invokeSpecial n.ref)) (hs : c.stack = args.reverse ++ w :: vs)
    (hn : args.length = n.arity) (hw : w.isNull = false) (hrun : n.run c.heap w args = .ok h) :
    Moves m mc callers 1 c { c.next vs with heap := h } := by
  refine of_exec "" hi (by simp) (by simp) (by simp [Spot.next]) fun f hf => ?_
  have hst : f.stack = (w :: args).reverse ++ vs := by simp [hf.stack, hs]
  have hpop := popMany_eq hst (n := argCount n.ref.desc + 1) (by simp [hn])
  have hname : n.ref.name = initName := by cases n <;> rfl
  unfold Machine.exec
  simp only [Machine.invokeSpecial, hname, hpop, bind, Except.bind, argument,
    List.getElem?_cons_zero, Option.getD_some, hw, NativeConstructor.ofRef?_ref, List.tail_cons, hrun,
    Bool.false_eq_true, if_false, ne_eq, not_true_eq_false]
  exact ⟨_, rfl, hf.method, hf.pc, rfl, hf.locals, hf.pushes⟩

/-- A constructor without parameters of a class that has nothing to construct. -/
theorem invokeSpecial_plain {cls : String} (hc : cls = rootClass ∨ cls = arrayListClass)
    (hi : OpAt mc.code c.pc (.invokeSpecial ⟨cls, initName, "()V"⟩)) (hs : c.stack = w :: vs)
    (hw : w.isNull = false) : Moves m mc callers 1 c (c.next vs) := by
  refine of_quiet hi (by simp) (by simp) rfl rfl fun f hf => ?_
  have hst : f.stack = [w].reverse ++ vs := by simp [hf.stack, hs]
  have hpop := popMany_eq hst (n := argCount "()V" + 1) (by simp)
  have hnone : NativeConstructor.ofRef? ⟨cls, initName, "()V"⟩ = none := by
    rcases hc with rfl | rfl <;> decide
  refine ⟨_, ?_, hf.with_stack vs⟩
  unfold Machine.exec
  rcases hc with rfl | rfl <;>
  simp only [Machine.invokeSpecial, hpop, bind, Except.bind, argument, List.getElem?_cons_zero,
    Option.getD_some, hw, hnone, Bool.false_eq_true, if_false, ne_eq, not_true_eq_false, decide_true,
    Bool.true_or, Bool.or_true, if_true] <;> rfl

theorem putField {r : MemberRef} {cls : String} {fields : List (String × Value)}
    (hi : OpAt mc.code c.pc (.putField r)) (hs : c.stack = w :: v :: vs) (hv : v.isNull = false)
    (ho : c.heap.get? v = some (.inst cls fields)) :
    Moves m mc callers 1 c
      { c.next vs with heap := c.heap.set v (.inst cls (setFieldValue fields r.name w)) } := by
  refine of_exec "" hi (by simp) (by simp) (by simp [Spot.next]) fun f hf => ?_
  have hst : f.stack = w :: v :: vs := hf.stack.trans hs
  unfold Machine.exec
  simp only [Frame.popTwo, hst, bind, Except.bind, asInstance, hv, ho, Bool.false_eq_true,
    if_false]
  exact ⟨_, rfl, hf.method, hf.pc, rfl, hf.locals, hf.pushes⟩

end Moves

theorem Divides.arith {m : Machine} {mc : MethodCode} {callers : Outer} {c : Spot} {v w : Value}
    {vs : List Value} {op : ArithOp} (hi : OpAt mc.code c.pc (.arith op)) (hs : c.stack = w :: v :: vs)
    (hr : op.apply v.toInt32 w.toInt32 = fault .divisionByZero) : Divides m mc callers c c.out := by
  refine Divides.of_exec hi (by simp) (by simp) fun f hf => ?_
  have hst : f.stack = w :: v :: vs := hf.stack.trans hs
  unfold Machine.exec
  simp only [Frame.popTwo, hst, bind, Except.bind, hr, fault]

section

variable {m : Machine} {mc : MethodCode} {callers : Outer} {c : Spot} {f : Frame} {s : State}

/-- The step that calls a constructor without parameters, if there is still room for a call. -/
theorem StandsAt.step_construct {owner : String} {cls : ClassFile} {code : MethodCode} {w : Value} {vs : List Value}
    (h : StandsAt mc callers c f s) (hi : OpAt mc.code c.pc (.invokeSpecial ⟨owner, initName, "()V"⟩))
    (hs : c.stack = w :: vs) (hw : w.isNull = false) (ho : owner ≠ rootClass ∧ owner ≠ arrayListClass)
    (hcls : m.class? owner = some cls) (hcode : cls.method? initName "()V" = some code) :
    ∃ g, FrameAt mc callers (c.next vs) g ∧
      s.step m false = if maxCallDepth ≤ callers.frames.length + 1 then
          .failed c.out (Fault.within { cause := .callDepth } g callers.frames true)
        else .running ⟨Frame.enter cls.name code [w] false :: g :: callers.frames, c.heap, c.out⟩ := by
  have hst : f.stack = [w].reverse ++ vs := by simp [h.stack, hs]
  have hpop := Moves.popMany_eq (f := { f with pc := f.pc + 1, steps := f.steps + 1 }) hst
    (n := argCount "()V" + 1) (by simp)
  refine ⟨{ f with pc := f.pc + 1, steps := f.steps + 1, stack := vs },
    ⟨h.method, by rw [h.pc]; rfl, rfl, h.locals, h.pushes⟩, ?_⟩
  rw [step_of_opAt hi (by simp) (by simp) h]
  unfold State.perform Machine.exec
  simp only [Machine.invokeSpecial, hpop, bind, Except.bind, argument,
    List.getElem?_cons_zero, Option.getD_some, hw, NativeConstructor.ofRef?_noParams, ho.1, ho.2, hcls, hcode,
    decide_false, Bool.or_self, Bool.false_eq_true, if_false, ne_eq, not_true_eq_false, pure, Except.pure]

theorem StandsAt.construct {owner : String} {cls : ClassFile} {code : MethodCode} {w : Value} {vs : List Value}
    (h : StandsAt mc callers c f s) (hi : OpAt mc.code c.pc (.invokeSpecial ⟨owner, initName, "()V"⟩))
    (hs : c.stack = w :: vs) (hw : w.isNull = false) (ho : owner ≠ rootClass ∧ owner ≠ arrayListClass)
    (hcls : m.class? owner = some cls) (hcode : cls.method? initName "()V" = some code)
    (hdepth : callers.frames.length + 1 < maxCallDepth) :
    ∃ g, FrameAt mc callers (c.next vs) g ∧
      s.step m false = .running ⟨Frame.enter cls.name code [w] false :: g :: callers.frames, c.heap, c.out⟩ := by
  obtain ⟨g, hg, hstep⟩ := h.step_construct hi hs hw ho hcls hcode
  exact ⟨g, hg, by rw [hstep, if_neg (by omega)]⟩

/-- A method ends where its code ends or where it returns. -/
def EndsAt (code : Code) (pc : Nat) : Prop := code[pc]? = none ∨ OpAt code pc .ret

theorem StandsAt.step_of_endsAt (h : StandsAt mc callers c f s) (he : EndsAt mc.code c.pc) :
    ∃ g : Frame, g.pushesResult = callers.pushes ∧ s.step m false = State.leave g callers.frames c.heap c.out .null := by
  rw [h.state]
  rcases he with he | ⟨line, he⟩
  · have hget : f.method.code[f.pc]? = none := by rw [h.method, h.pc, he]
    exact ⟨f, h.pushes, by simp only [State.step, hget]⟩
  · have hget : f.method.code[f.pc]? = some ⟨.ret, line⟩ := by rw [h.method, h.pc, he]
    refine ⟨{ f with pc := f.pc + 1, steps := f.steps + 1 }, h.pushes, ?_⟩
    simp only [State.step, hget, Bool.false_and, Bool.false_eq_true, if_false]

end

end ClassCompiler
