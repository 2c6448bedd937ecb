import ClassCompiler.Proofs.Machine.Hidden
import ClassCompiler.Proofs.Boxing.Runs
import ClassCompiler.Proofs.Code.Placed

namespace ClassCompiler

/-- What a step of a run may come to whose innermost call is `f`. -/
inductive Frame.Steps (m : Machine) (f : Frame) (callers : List Frame) (heap : Heap) (out : String) : State → Prop
  | next {i : Instr} {g : Frame} {heap' : Heap} {printed : String} (hi : f.method.code[f.pc]? = some i)
      (hr : i.op ≠ .ret ∧ i.op ≠ .retRef)
      (he : m.exec { f with pc := f.pc + 1, steps := f.steps + 1 } heap i.op = .ok (.next g heap' printed)) :
      Steps m f callers heap out ⟨g :: callers, heap', out ++ printed⟩
  | call {i : Instr} {g : Frame} {heap' : Heap} {cls : String} {mc : MethodCode} {args : List Value} {pushes : Bool}
      (hi : f.method.code[f.pc]? = some i)
      (he : m.exec { f with pc := f.pc + 1, steps := f.steps + 1 } heap i.op = .ok (.call g heap' cls mc args pushes)) :
      Steps m f callers heap out ⟨Frame.enter cls mc args pushes :: g :: callers, heap', out⟩
  | leave {v : Value} {g : Frame} {gs : List Frame} (hc : callers = g :: gs) (hv : v = .null ∨ v ∈ f.stack)
      (hi : ∀ i, f.method.code[f.pc]? = some i → i.op = .ret ∨ i.op = .retRef) :
      Steps m f callers heap out ⟨(if f.pushesResult then { g with stack := v :: g.stack } else g) :: gs, heap, out⟩

section

variable {m : Machine} {f : Frame} {callers : List Frame} {heap : Heap} {out : String} {s' : State}

theorem State.steps_of_leave {g : Frame} {v : Value} (hv : v = .null ∨ v ∈ f.stack)
    (hi : ∀ i, f.method.code[f.pc]? = some i → i.op = .ret ∨ i.op = .retRef) (hp : g.pushesResult = f.pushesResult)
    (hs : leave g callers heap out v = .running s') :
    f.Steps m callers heap out s' := by
  unfold leave at hs
  split at hs
  · cases hs
  · next k gs =>
    rw [hp] at hs
    split at hs
    · next hpushes =>
      split at hs
      · next k' hk =>
        obtain rfl := Progress.running.inj hs
        have hpush := k.push_attempt v
        rw [hk] at hpush
        obtain rfl := hpush
        have hleave : f.Steps m (k :: gs) heap out _ := .leave rfl hv hi
        rwa [if_pos hpushes] at hleave
      · cases hs
    · next hpushes =>
      obtain rfl := Progress.running.inj hs
      have hleave : f.Steps m (k :: gs) heap out _ := .leave rfl hv hi
      rwa [if_neg hpushes] at hleave

theorem State.steps_of_running {canceled : Bool} (hs : State.step m canceled ⟨f :: callers, heap, out⟩ = .running s') :
    f.Steps m callers heap out s' := by
  unfold step at hs
  simp only at hs
  split at hs
  · next hi => exact steps_of_leave (.inl rfl) (fun i hi' => by simp [hi] at hi') rfl hs
  · next i hi =>
    have hop : ∀ {op : Op}, i.op = op → ∀ k, f.method.code[f.pc]? = some k → k.op = op := fun h k hk => by
      rw [← h, Option.some.inj (hk.symm.trans hi)]
    split at hs
    · cases hs
    · split at hs
      · next hr => exact steps_of_leave (.inl rfl) (fun k hk => .inl (hop hr k hk)) rfl hs
      · next hr =>
        split at hs
        · cases hs
        · next v vs hv =>
          exact steps_of_leave (.inr (by simp [show f.stack = v :: vs from hv])) (fun k hk => .inr (hop hr k hk)) rfl hs
      · next hr hr' =>
        unfold perform at hs
        simp only at hs
        split at hs
        · cases hs
        · next he =>
          obtain rfl := Progress.running.inj hs
          exact .next hi ⟨hr, hr'⟩ he
        · next he =>
          split at hs
          · cases hs
          · obtain rfl := Progress.running.inj hs
            exact .call hi he

end

/-- All values of a frame are clear. -/
structure Frame.ClearIn (D : Set Nat) (n : Nat) (f : Frame) : Prop where
  stack : ∀ v ∈ f.stack, v.Clear D n
  locals : ∀ v ∈ f.locals, v.Clear D n

namespace Frame.ClearIn

variable {m : Machine} {D : Set Nat} {n k : Nat} {f : Frame} {h : Heap}

theorem mono (hf : f.ClearIn D n) (hn : n ≤ k) : f.ClearIn D k :=
  ⟨fun v hv => (hf.stack v hv).mono hn, fun v hv => (hf.locals v hv).mono hn⟩

theorem push (hf : f.ClearIn D n) {v : Value} (hv : v.Clear D n) : Frame.ClearIn D n { f with stack := v :: f.stack } :=
  ⟨List.forall_mem_cons.2 ⟨hv, hf.stack⟩, hf.locals⟩

theorem enter {cls : String} {mc : MethodCode} {args : List Value} {pushes : Bool} (ha : ∀ v ∈ args, v.Clear D n) :
    (Frame.enter cls mc args pushes).ClearIn D n := by
  refine ⟨fun v hv => by simp [Frame.enter] at hv, fun v hv => ?_⟩
  simp only [Frame.enter, Array.mem_append, List.mem_toArray, Array.mem_replicate] at hv
  rcases hv with hv | ⟨-, rfl⟩
  · exact ha v hv
  · exact Value.clear_null

/-- What an operation may do to a frame of which all values are clear. -/
theorem exec (hf : f.ClearIn D h.size) (hh : h.Hides D) {op : Op} {r : Effect} (he : m.exec f h op = .ok r) :
    Effect.Clear D h [] f op r := by
  have hclear : Attempt AnyCause (Effect.Clear D h [] f op) (m.exec f h op) :=
    exec_clear hh (List.append_nil _).symm hf.stack hf.locals fun hne => (hne rfl).elim
  rwa [he] at hclear

theorem of_after {op : Op} {g : Frame} (hg : f.After D n [] op g) : g.ClearIn D n := by
  obtain ⟨ws, hs, hw⟩ := hg.stack
  exact ⟨by rwa [hs, List.append_nil], hg.locals⟩

end Frame.ClearIn

/-- All references of a state are to objects that are there. -/
structure State.Bounded (s : State) : Prop where
  heap : s.heap.Hides ∅
  frames : ∀ f ∈ s.frames, f.ClearIn ∅ s.heap.size

theorem State.Bounded.step {m : Machine} {canceled : Bool} {s s' : State} (h : s.Bounded)
    (hs : s.step m canceled = .running s') : s'.Bounded := by
  obtain ⟨frames, heap, out⟩ := s
  cases frames with
  | nil => cases hs
  | cons f callers =>
    obtain ⟨hh, hframes⟩ := h
    obtain ⟨hf, hc⟩ := List.forall_mem_cons.1 hframes
    have hf' : Frame.ClearIn ∅ heap.size { f with pc := f.pc + 1, steps := f.steps + 1 } := ⟨hf.stack, hf.locals⟩
    cases steps_of_running hs with
    | next _ _ he =>
      obtain ⟨hkeeps, hg⟩ := hf'.exec hh he
      exact ⟨hkeeps.hides, List.forall_mem_cons.2 ⟨.of_after hg, fun k hk => (hc k hk).mono hkeeps.size⟩⟩
    | call _ he =>
      obtain ⟨hkeeps, hg, hargs⟩ := hf'.exec hh he
      exact ⟨hkeeps.hides, List.forall_mem_cons.2 ⟨.enter hargs,
        List.forall_mem_cons.2 ⟨.of_after hg, fun k hk => (hc k hk).mono hkeeps.size⟩⟩⟩
    | @leave v g gs hcallers hv =>
      subst hcallers
      obtain ⟨hg, hgs⟩ := List.forall_mem_cons.1 hc
      have hv' : v.Clear ∅ heap.size := by
        rcases hv with rfl | hv
        · exact Value.clear_null
        · exact hf.stack v hv
      refine ⟨hh, List.forall_mem_cons.2 ⟨?_, hgs⟩⟩
      split
      · exact hg.push hv'
      · exact hg

theorem Machine.Reaches.bounded {m : Machine} {entry : String} {s : State} (h : m.Reaches entry s) : s.Bounded := by
  induction h with
  | start h =>
    unfold Machine.start at h
    split at h
    · cases h
    · split at h
      · cases h
      · obtain rfl := Except.ok.inj h
        refine ⟨⟨fun a ha => ha.elim, fun a o ho => by simp at ho⟩, List.forall_mem_singleton.2 (.enter ?_)⟩
        exact List.forall_mem_singleton.2 Value.clear_null
  | step _ hs ih => exact ih.step hs

/-- A call is active, and does not stand at a position itself. -/
def State.Before (callers : List Frame) (stop : Nat) (s : State) : Prop :=
  ∃ inner f, s.frames = inner ++ f :: callers ∧ (inner = [] → f.pc ≠ stop)

/-- A run goes on for as long as a call is active and has not come to a position. -/
inductive Machine.Passes (m : Machine) (callers : List Frame) (stop : Nat) : State → State → Prop
  | refl {s : State} : Passes m callers stop s s
  | step {s s' t : State} {canceled : Bool} (hb : s.Before callers stop) (hs : s.step m canceled = .running s')
      (h : Passes m callers stop s' t) : Passes m callers stop s t

def State.IsAt (mc : MethodCode) (callers : Outer) (c : Spot) (s : State) : Prop := ∃ f, StandsAt mc callers c f s

namespace Machine.Passes

variable {m : Machine} {callers : List Frame} {stop : Nat} {s t u : State}

theorem trans (h : m.Passes callers stop s t) (h' : m.Passes callers stop t u) : m.Passes callers stop s u := by
  induction h with
  | refl => exact h'
  | step hb hs _ ih => exact .step hb hs (ih h')

theorem active (h : m.Passes callers stop s t) (ht : callers.length < t.frames.length) :
    callers.length < s.frames.length := by
  cases h with
  | refl => exact ht
  | step hb =>
    obtain ⟨inner, f, hs, -⟩ := hb
    simp [hs]
    omega

end Machine.Passes

theorem Machine.Reaches.passes {m : Machine} {entry : String} {callers : List Frame} {stop : Nat} {s t : State}
    (hs : m.Reaches entry s) (h : m.Passes callers stop s t) : m.Reaches entry t := by
  induction h with
  | refl => exact hs
  | step _ hstep _ ih => exact ih (.step hs hstep)

/-- Nothing that a call has, or can reach from what it has in its slots, is hidden. -/
structure Spot.Hidden (D : Set Nat) (c : Spot) : Prop where
  heap : c.heap.Hides D
  locals : ∀ v ∈ c.locals, v.Clear D c.heap.size

/-- The calls while one that came from the spot `c` is in the code after it: that one has clear values above
those that it had at `c`, as many as the code has at its place, and all calls that it made have clear values
only. The slots that the code does not own are as they were. -/
inductive Held (mc : MethodCode) (callers : Outer) (c : Spot) (D : Set Nat) (length : Nat) (depth : Nat → Nat)
    (own : Int → Prop) (n : Nat) : (waits : Bool) → List Frame → Prop
  | bottom {g : Frame} {waits : Bool} {ws : List Value} {j : Nat} (method : g.method = mc)
      (pushes : g.pushesResult = callers.pushes) (pc : g.pc = c.pc + j) (inside : j ≤ length)
      (stack : g.stack = ws ++ c.stack) (count : ws.length + (if waits then 1 else 0) = depth j)
      (clear : ∀ v ∈ ws, v.Clear D n) (locals : ∀ v ∈ g.locals, v.Clear D n)
      (same : ∀ i : Nat, ¬own i → g.locals[i]? = c.locals[i]?) :
      Held mc callers c D length depth own n waits (g :: callers.frames)
  | inner {k : Frame} {fs : List Frame} {waits : Bool} (clear : k.ClearIn D n)
      (h : Held mc callers c D length depth own n k.pushesResult fs) :
      Held mc callers c D length depth own n waits (k :: fs)

section

variable {m : Machine} {mc : MethodCode} {callers : Outer} {c : Spot} {D : Set Nat} {depth : Nat → Nat}
  {own : Int → Prop} {n k : Nat} {waits : Bool}

theorem Held.mono {length : Nat} {fs : List Frame} (h : Held mc callers c D length depth own n waits fs) (hn : n ≤ k) :
    Held mc callers c D length depth own k waits fs := by
  induction h with
  | bottom method pushes pc inside stack count clear locals same =>
    exact .bottom method pushes pc inside stack count (fun v hv => (clear v hv).mono hn)
      (fun v hv => (locals v hv).mono hn) same
  | inner clear _ ih => exact .inner (clear.mono hn) ih

/-- The innermost call gets the result that it waits for. -/
theorem Held.push {length : Nat} {g : Frame} {gs : List Frame} (h : Held mc callers c D length depth own n true (g :: gs))
    {v : Value} (hv : v.Clear D n) :
    Held mc callers c D length depth own n false ({ g with stack := v :: g.stack } :: gs) := by
  cases h with
  | @bottom _ _ ws j method pushes pc inside stack count clear locals same =>
    refine .bottom method pushes pc inside (show v :: g.stack = (v :: ws) ++ c.stack by simp [stack]) ?_
      (List.forall_mem_cons.2 ⟨hv, clear⟩) locals same
    simpa using count
  | inner clear h => exact .inner (clear.push hv) h

theorem Held.length_lt {length : Nat} {fs : List Frame} (h : Held mc callers c D length depth own n waits fs) :
    callers.frames.length < fs.length := by
  induction h with
  | bottom => simp
  | inner _ _ ih =>
    rw [List.length_cons]
    omega

/-- The call that is in the code, when it makes no other. -/
theorem Held.innermost {length : Nat} {g : Frame}
    (h : Held mc callers c D length depth own n false (g :: callers.frames)) :
    ∃ j ≤ length, g.pc = c.pc + j ∧ (∃ ws, g.stack = ws ++ c.stack ∧ ws.length = depth j ∧ ∀ v ∈ ws, v.Clear D n) ∧
      g.method = mc ∧ g.pushesResult = callers.pushes ∧ (∀ v ∈ g.locals, v.Clear D n) ∧
      ∀ i : Nat, ¬own i → g.locals[i]? = c.locals[i]? := by
  cases h with
  | @bottom _ _ ws j method pushes pc inside stack count clear locals same =>
    exact ⟨j, inside, pc, ⟨ws, stack, by simpa using count, clear⟩, method, pushes, locals, same⟩
  | inner _ h => exact (Nat.lt_irrefl _ h.length_lt).elim

/-- Code that a call is in from the spot `c` on: it keeps to some depths, jumps only inside or to the labels around
it, and names slots of its own only. -/
structure Stretch (mc : MethodCode) (T : Targets Nat) (c : Spot) (code : List Instr) (depth : Nat → Nat)
    (own : Int → Prop) : Prop where
  at_ : CodeAt mc.code c.pc code
  labels : LabelsOnce mc.code
  traced : depthFlow.Traced T code depth
  slots : ∀ i ∈ slotsOf (code.map Instr.op), own i

/-- A call went from one spot to another with more values on its stack, and without touching what is hidden
or slots that are not its own. -/
structure Spot.Goes (D : Set Nat) (own : Int → Prop) (more : List Value) (c d : Spot) : Prop where
  stack : d.stack = more ++ c.stack
  clear : ∀ v ∈ more, v.Clear D d.heap.size
  keeps : c.heap.Keeps D d.heap
  locals : ∀ v ∈ d.locals, v.Clear D d.heap.size
  same : ∀ i : Nat, ¬own i → d.locals[i]? = c.locals[i]?

/-- The call that was in the code has jumped to a label around it. -/
inductive Left (mc : MethodCode) (callers : Outer) (T : Targets Nat) (c : Spot) (D : Set Nat) (own : Int → Prop)
    (code : List Instr) (s s' : State) : Prop
  | intro {b d : Spot} {j : Nat} {i : Instr} {test : Jump} {l : String} {more : List Value} (before : s.IsAt mc callers b)
      (inside : b.pc = c.pc + j) (jumps : code[j]? = some i) (op : i.op = .jump test l) (after : s'.IsAt mc callers d)
      (target : T l more.length) (label : mc.code.labelOffset? l = some d.pc)
      (goes : { c with heap := s.heap }.Goes D own more d) : Left mc callers T c D own code s s'

variable {code : List Instr} {T : Targets Nat}

theorem Stretch.step (hs : Stretch mc T c code depth own) {f : Frame} {fs : List Frame} {heap : Heap} {out : String}
    {s' : State} (hf : Held mc callers c D code.length depth own heap.size false (f :: fs)) (hh : heap.Hides D)
    (hb : State.Before callers.frames (c.pc + code.length) ⟨f :: fs, heap, out⟩) (hstep : f.Steps m fs heap out s') :
    heap.Keeps D s'.heap ∧ (Held mc callers c D code.length depth own s'.heap.size false s'.frames ∨
      Left mc callers T c D own code ⟨f :: fs, heap, out⟩ s' ∨
      s'.frames.length ≤ callers.frames.length ∧ ∃ i ∈ code, i.op = .ret ∨ i.op = .retRef) := by
  cases hf with
  | inner clear h =>
    -- A frame of a call that the code made: it holds nothing of `D`, and what is below it stays as it is.
    have hclear : Frame.ClearIn D heap.size { f with pc := f.pc + 1, steps := f.steps + 1 } :=
      ⟨clear.stack, clear.locals⟩
    cases hstep with
    | next _ _ he =>
      obtain ⟨hkeeps, hg⟩ := hclear.exec hh he
      refine ⟨hkeeps, .inl (.inner (.of_after hg) ?_)⟩
      rw [hg.pushes]
      exact h.mono hkeeps.size
    | call _ he =>
      obtain ⟨hkeeps, hg, hargs⟩ := hclear.exec hh he
      refine ⟨hkeeps, .inl (.inner (.enter hargs) (.inner (.of_after hg) ?_))⟩
      rw [hg.pushes]
      exact h.mono hkeeps.size
    | @leave v g gs hcallers hv =>
      subst hcallers
      have hv' : v.Clear D heap.size := by
        rcases hv with rfl | hv
        · exact Value.clear_null
        · exact clear.stack v hv
      refine ⟨hh.keeps, .inl ?_⟩
      cases hp : f.pushesResult with
      | true =>
        rw [hp] at h
        exact h.push hv'
      | false =>
        rw [hp] at h
        exact h
  | @bottom _ _ ws j method pushes pc inside stack count clear locals same =>
    -- The frame that runs the code itself, which it has not gone through.
    have hj : j < code.length := by
      obtain ⟨inner, g, hframes, hne⟩ := hb
      have hnil : inner = [] := by
        have hlen := congrArg List.length hframes
        simp only [List.length_cons, List.length_append] at hlen
        exact List.eq_nil_of_length_eq_zero (by omega)
      subst hnil
      obtain ⟨rfl, -⟩ := List.cons.inj hframes
      have := hne rfl
      omega
    have hget : ∀ {i}, f.method.code[f.pc]? = some i → code[j]? = some i := by
      intro i hi
      have hat := hs.at_ j _ (List.getElem?_eq_getElem hj)
      rw [method, pc, hat] at hi
      rw [← hi]
      exact List.getElem?_eq_getElem hj
    rw [if_neg (by simp), Nat.add_zero] at count
    -- What the operation leaves: the values above those at `c`, and where the frame goes on.
    have hstack : ∀ {i : Instr}, code[j]? = some i → i.op.pops ≤ ws.length := fun hi => by
      rw [count]
      exact (hs.traced j _ hi).1.1
    have hclear : ∀ {i : Instr} {r : Effect}, code[j]? = some i →
        m.exec { f with pc := f.pc + 1, steps := f.steps + 1 } heap i.op = .ok r →
        Effect.Clear D heap c.stack { f with pc := f.pc + 1, steps := f.steps + 1 } i.op r ∧
          Effect.Fits m { f with pc := f.pc + 1, steps := f.steps + 1 } i.op r := by
      intro i r hi he
      have hlen := hstack hi
      have h₁ := exec_clear (m := m) (f := { f with pc := f.pc + 1, steps := f.steps + 1 }) hh stack clear locals
        (show c.stack ≠ [] → i.op.pops ≤ ws.length from fun _ => hlen)
      have h₂ := m.exec_depth (f := { f with pc := f.pc + 1, steps := f.steps + 1 }) (h := heap) i.op
        (by simp only [stack, List.length_append]; omega)
      rw [he] at h₁ h₂
      exact ⟨h₁, h₂⟩
    have hslot : ∀ {i : Instr}, code[j]? = some i → ∀ k : Nat, ¬own k → i.op.slot? ≠ some (k : Int) := by
      intro i hi k hk hslot
      refine hk (hs.slots k (List.mem_filterMap.2 ⟨i.op, List.mem_map_of_mem (List.mem_of_getElem? hi), hslot⟩))
    cases hstep with
    | @next i g heap' printed hi _ he =>
      have hi := hget hi
      obtain ⟨⟨hkeeps, hafter⟩, hfits⟩ := hclear hi he
      obtain ⟨ws', hstack', hws'⟩ := hafter.stack
      refine ⟨hkeeps, ?_⟩
      have hsame : ∀ k : Nat, ¬own k → g.locals[k]? = c.locals[k]? := fun k hk =>
        (hafter.same k (hslot hi k hk)).trans (same k hk)
      rcases hfits with ⟨hfinal, hat⟩ | ⟨test, l, k, hop, hk, hat⟩
      · have hdepth := (hs.traced j _ hi).1.2 hfinal
        have hlen := hat.length
        refine .inl (.bottom (j := j + 1) (hat.method.trans method) (hat.pushesResult.trans pushes) ?_ hj hstack' ?_ hws'
          hafter.locals hsame)
        · rw [hat.pc, pc, Nat.add_assoc]
        · have := hstack hi
          simp only [hstack', stack, List.length_append] at hlen
          simp
          omega
      · obtain ⟨x, hx, hT | ⟨p, hp, rfl⟩⟩ := (hs.traced j _ hi).2 test l hop
        · -- The jump leaves the code.
          have hlen := hat.length
          have hpops := hstack hi
          rw [hop] at hpops
          rw [depthFlow_jumps] at hx
          have hcount : ws'.length = x := by
            simp only [hstack', stack, List.length_append, Op.pops] at hlen hpops
            omega
          simp only [method] at hk
          exact .inr (.inl (.intro (b := ⟨f.pc, f.stack, f.locals, heap, out⟩)
            (d := ⟨g.pc, g.stack, g.locals, heap', out ++ printed⟩) ⟨f, ⟨method, rfl, rfl, rfl, pushes⟩, rfl⟩ pc hi hop
            ⟨g, ⟨hat.method.trans method, rfl, rfl, rfl, hat.pushesResult.trans pushes⟩, rfl⟩ (hcount ▸ hT)
            (hk.trans (congrArg some hat.pc.symm)) ⟨hstack', hws', hkeeps, hafter.locals, hsame⟩))
        · obtain ⟨line, hline⟩ := hp
          have hlabel := hs.labels.offset (k := c.pc + p) (l := l) ⟨line, hs.at_ p _ hline⟩
          simp only [method] at hk
          obtain rfl : c.pc + p = k := Option.some.inj (hlabel.symm.trans hk)
          have hlen := hat.length
          have hple : p < code.length := (List.getElem?_eq_some_iff.1 hline).1
          refine .inl (.bottom (j := p) (hat.method.trans method) (hat.pushesResult.trans pushes) hat.pc
            (Nat.le_of_lt hple) hstack' ?_ hws' hafter.locals hsame)
          have := hstack hi
          rw [hop] at this
          rw [depthFlow_jumps] at hx
          simp only [hstack', stack, List.length_append, Op.pops] at hlen this
          simp
          omega
    | @call i g heap' cls mc' args wants hi he =>
      have hi := hget hi
      obtain ⟨⟨hkeeps, hafter, hargs⟩, -, hfinal, k, hat, hk⟩ := hclear hi he
      obtain ⟨ws', hstack', hws'⟩ := hafter.stack
      have hdepth := (hs.traced j _ hi).1.2 hfinal
      have hlen := hat.length
      refine ⟨hkeeps, .inl (.inner (.enter hargs) (.bottom (j := j + 1) (hat.method.trans method)
        (hat.pushesResult.trans pushes) ?_ hj hstack' ?_ hws' hafter.locals fun k hk =>
          (hafter.same k (hslot hi k hk)).trans (same k hk)))⟩
      · rw [hat.pc, pc, Nat.add_assoc]
      · have := hstack hi
        simp only [hstack', stack, List.length_append] at hlen hk
        rw [hdepth, ← count]
        cases wants with
        | true => simp [Frame.enter] at hk ⊢; omega
        | false => simp [Frame.enter] at hk ⊢; omega
    | @leave v k gs hcallers _ hi =>
      have hat := hs.at_ j _ (List.getElem?_eq_getElem hj)
      rw [← pc, ← method] at hat
      refine ⟨hh.keeps, .inr (.inr ⟨?_, _, List.getElem_mem hj, hi _ hat⟩)⟩
      simp [hcallers]

/-- A run that comes through the code comes to its end. -/
theorem Stretch.split (hs : Stretch mc (fun _ _ => False) c code depth own) {stop : Nat} (hle : c.pc + code.length ≤ stop) {s t : State}
    (h : m.Passes callers.frames stop s t) (ht : ∃ g, t.frames = g :: callers.frames ∧ g.pc = stop)
    (hf : Held mc callers c D code.length depth own s.heap.size false s.frames) (hh : s.heap.Hides D) :
    ∃ u, m.Passes callers.frames (c.pc + code.length) s u ∧ m.Passes callers.frames stop s u ∧
      m.Passes callers.frames stop u t ∧ (∃ g, u.frames = g :: callers.frames ∧ g.pc = c.pc + code.length) ∧
      s.heap.Keeps D u.heap ∧ Held mc callers c D code.length depth own u.heap.size false u.frames := by
  induction h with
  | @refl s =>
    obtain ⟨g, hg, hpc⟩ := ht
    refine ⟨s, .refl, .refl, .refl, ⟨g, hg, ?_⟩, hh.keeps, hf⟩
    rw [hg] at hf
    obtain ⟨j, hj, hgpc, -⟩ := hf.innermost
    omega
  | @step s s' t canceled hb hstep h ih =>
    by_cases hb' : s.Before callers.frames (c.pc + code.length)
    · have hactive : callers.frames.length < s'.frames.length := by
        obtain ⟨g, hg, -⟩ := ht
        exact h.active (by simp [hg])
      obtain ⟨f, fs, hframes⟩ : ∃ f fs, s.frames = f :: fs := by
        obtain ⟨inner, f, hframes, -⟩ := hb
        cases inner with
        | nil => exact ⟨f, callers.frames, hframes⟩
        | cons k ks => exact ⟨k, ks ++ f :: callers.frames, hframes⟩
      obtain ⟨frames, heap, out⟩ := s
      obtain rfl : frames = f :: fs := hframes
      obtain ⟨hkeeps, hf' | ⟨-, -, -, -, -, hfalse, -, -⟩ | ⟨hleft, -⟩⟩ := hs.step hf hh hb' (State.steps_of_running hstep)
      case inr.inl => exact hfalse.elim
      case inr.inr => omega
      obtain ⟨u, hsu, hsu', hut, hu, hkeeps', hheld⟩ := ih ht hf' hkeeps.hides
      exact ⟨u, .step hb' hstep hsu, .step hb hstep hsu', hut, hu, hkeeps.trans hkeeps', hheld⟩
    · obtain ⟨inner, f, hframes, hne⟩ := hb
      have hat : inner = [] ∧ f.pc = c.pc + code.length := by
        by_contra hnot
        exact hb' ⟨inner, f, hframes, fun hi hpc => hnot ⟨hi, hpc⟩⟩
      obtain ⟨rfl, hpc⟩ := hat
      exact ⟨s, .refl, .refl, .step ⟨[], f, hframes, hne⟩ hstep h, ⟨f, hframes, hpc⟩, hh.keeps, hf⟩

namespace Spot.Goes

variable {more more' : List Value} {d e : Spot} {v : Value}

theorem hidden (h : c.Goes D own more d) : d.Hidden D := ⟨h.keeps.hides, h.locals⟩

theorem refl (hc : c.Hidden D) : c.Goes D own [] c :=
  ⟨rfl, List.forall_mem_nil _, hc.heap.keeps, hc.locals, fun _ _ => rfl⟩

theorem mono (h : c.Goes D own more d) {own' : Int → Prop} (hown : ∀ i, own i → own' i) : c.Goes D own' more d :=
  ⟨h.stack, h.clear, h.keeps, h.locals, fun i hi => h.same i fun ho => hi (hown i ho)⟩

theorem trans (h : c.Goes D own more d) (h' : d.Goes D own more' e) : c.Goes D own (more' ++ more) e := by
  refine ⟨by rw [h'.stack, h.stack, List.append_assoc], List.forall_mem_append.2 ⟨h'.clear, fun v hv => ?_⟩,
    h.keeps.trans h'.keeps, h'.locals, fun i hi => (h'.same i hi).trans (h.same i hi)⟩
  exact (h.clear v hv).mono h'.keeps.size

theorem next (h : c.Goes D own more d) (hm : ∀ v ∈ more', v.Clear D d.heap.size) :
    c.Goes D own more' (d.next (more' ++ c.stack)) := ⟨rfl, hm, h.keeps, h.locals, h.same⟩

theorem store (h : c.Goes D own (v :: more) d) {n : Nat} (hn : own n) :
    c.Goes D own more { d.next (more ++ c.stack) with locals := d.locals.setIfInBounds n v } := by
  obtain ⟨hv, hmore⟩ := List.forall_mem_cons.1 h.clear
  refine ⟨rfl, hmore, h.keeps, fun w hw => ?_, fun i hi => ?_⟩
  · rcases Array.mem_or_eq_of_mem_setIfInBounds hw with hw | rfl
    · exact h.locals w hw
    · exact hv
  · have hne : n ≠ i := fun he => hi (he ▸ hn)
    exact (Array.getElem?_setIfInBounds_ne hne).trans (h.same i hi)

end Spot.Goes

/-- The code leaves as many more values as it is deep at its end. -/
theorem Stretch.arrives (hs : Stretch mc (fun _ _ => False) c code depth own) (hstart : depth 0 = 0) (hc : c.Hidden D) {stop : Nat}
    (hle : c.pc + code.length ≤ stop) {s t : State} (hsc : s.IsAt mc callers c)
    (h : m.Passes callers.frames stop s t) (ht : ∃ g, t.frames = g :: callers.frames ∧ g.pc = stop) :
    ∃ u d more, m.Passes callers.frames (c.pc + code.length) s u ∧ m.Passes callers.frames stop s u ∧
      m.Passes callers.frames stop u t ∧ u.IsAt mc callers d ∧ d.pc = c.pc + code.length ∧
      more.length = depth code.length ∧ c.Goes D own more d := by
  obtain ⟨f, ⟨hmethod, hpc, hstack, hlocals, hpushes⟩, rfl⟩ := hsc
  have hheld : Held mc callers c D code.length depth own c.heap.size false (f :: callers.frames) :=
    .bottom hmethod hpushes (j := 0) hpc (Nat.zero_le _) (show f.stack = [] ++ c.stack from hstack) (by simp [hstart])
      (List.forall_mem_nil _) (hlocals ▸ hc.locals) fun i _ => by rw [hlocals]
  obtain ⟨u, hsu, hsu', hut, ⟨g, hg, hgpc⟩, hkeeps, hheld⟩ := hs.split hle h ht hheld hc.heap
  obtain ⟨frames, heap, out⟩ := u
  obtain rfl : frames = g :: callers.frames := hg
  obtain ⟨j, hj, hjpc, ⟨ws, hws, hcount, hclear⟩, hmethod', hpushes', hlocals', hsame⟩ := hheld.innermost
  obtain rfl : j = code.length := by omega
  exact ⟨_, ⟨g.pc, g.stack, g.locals, heap, out⟩, ws, hsu, hsu', hut,
    ⟨g, ⟨hmethod', rfl, rfl, rfl, hpushes'⟩, rfl⟩, hjpc, hcount, hws, hclear, hkeeps, hlocals', hsame⟩

/-- The code of an expression leaves one more value. -/
theorem Stretch.goes (hs : Stretch mc (fun _ _ => False) c code depth own) (hstart : depth 0 = 0) (hend : depth code.length = 1)
    (hc : c.Hidden D) {stop : Nat} (hle : c.pc + code.length ≤ stop) {s t : State} (hsc : s.IsAt mc callers c)
    (h : m.Passes callers.frames stop s t) (ht : ∃ g, t.frames = g :: callers.frames ∧ g.pc = stop) :
    ∃ u d v, m.Passes callers.frames (c.pc + code.length) s u ∧ m.Passes callers.frames stop s u ∧
      m.Passes callers.frames stop u t ∧ u.IsAt mc callers d ∧ d.pc = c.pc + code.length ∧
      c.Goes D own [v] d := by
  obtain ⟨u, d, more, hsu, hsu', hut, hu, hpc, hcount, hgoes⟩ := hs.arrives hstart hc hle hsc h ht
  obtain ⟨v, rfl⟩ := List.length_eq_one_iff.1 (hcount.trans hend)
  exact ⟨u, d, v, hsu, hsu', hut, hu, hpc, hgoes⟩

end

end ClassCompiler
