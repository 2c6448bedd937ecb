import ClassCompiler.Proofs.Code.Relabel
import ClassCompiler.Proofs.Machine.Hierarchy
import ClassCompiler.Proofs.Machine.Moves

namespace ClassCompiler

/-- A frame of a method and the same frame of the method with its labels renamed. -/
structure Frame.Mirrors (mc : MethodCode) (r : String → String) (f g : Frame) : Prop where
  method : f.method = mc
  eq : g = { f with method := mc.relabel r }

namespace Frame.Mirrors

variable {mc : MethodCode} {r : String → String} {f g : Frame}

theorem push (h : f.Mirrors mc r g) (v : Value) : Parallel (Mirrors mc r) (f.push v) (g.push v) := by
  obtain ⟨rfl, rfl⟩ := h
  unfold Frame.push MethodCode.relabel
  dsimp only
  split
  · rfl
  · exact ⟨rfl, rfl⟩

theorem pop (h : f.Mirrors mc r g) : Parallel (fun a b => b.1 = a.1 ∧ a.2.Mirrors mc r b.2) f.pop g.pop := by
  obtain ⟨rfl, rfl⟩ := h
  unfold Frame.pop
  dsimp only
  cases f.stack with
  | nil => rfl
  | cons v vs => exact ⟨rfl, rfl, rfl⟩

theorem popTwo (h : f.Mirrors mc r g) :
    Parallel (fun a b => b.1 = a.1 ∧ b.2.1 = a.2.1 ∧ a.2.2.Mirrors mc r b.2.2) f.popTwo g.popTwo := by
  obtain ⟨rfl, rfl⟩ := h
  unfold Frame.popTwo
  dsimp only
  match f.stack with
  | [] | [_] => rfl
  | _ :: _ :: _ => exact ⟨rfl, rfl, rfl, rfl⟩

theorem popMany (h : f.Mirrors mc r g) (n : Nat) :
    Parallel (fun a b => b.1 = a.1 ∧ a.2.Mirrors mc r b.2) (f.popMany n) (g.popMany n) := by
  obtain ⟨rfl, rfl⟩ := h
  unfold Frame.popMany
  dsimp only
  split
  · rfl
  · exact ⟨rfl, rfl, rfl⟩

theorem slot (h : f.Mirrors mc r g) (i : Int) : Parallel (fun a b => b = a) (f.slot i) (g.slot i) := by
  obtain ⟨rfl, rfl⟩ := h
  exact .refl (R := fun a b => b = a) (fun _ => rfl) (f.slot i)

theorem local? (h : f.Mirrors mc r g) (i : Nat) : g.local? i = f.local? i := by
  obtain ⟨rfl, rfl⟩ := h
  rfl

theorem setLocal (h : f.Mirrors mc r g) (i : Nat) (v : Value) : (f.setLocal i v).Mirrors mc r (g.setLocal i v) := by
  obtain ⟨rfl, rfl⟩ := h
  exact ⟨rfl, rfl⟩

theorem jumpTo (h : f.Mirrors mc r g) (hr : Set.InjOn r mc.labels) {l : String} (hl : l ∈ mc.labels) :
    Parallel (Mirrors mc r) (f.jumpTo l) (g.jumpTo (r l)) := by
  obtain ⟨rfl, rfl⟩ := h
  unfold Frame.jumpTo
  simp only [MethodCode.labelOffset?_relabel hr hl]
  cases f.method.code.labelOffset? l with
  | none => rfl
  | some i => exact ⟨rfl, rfl⟩

theorem decide (h : f.Mirrors mc r g) (test : Jump) :
    Parallel (fun a b => b.1 = a.1 ∧ a.2.Mirrors mc r b.2) (test.decide f) (test.decide g) := by
  cases test with
  | always => exact ⟨rfl, h⟩
  | ifZero | ifNonzero => exact h.pop.bind fun a b ⟨hv, hab⟩ => ⟨by rw [hv], hab⟩
  | ifInts t => exact h.popTwo.bind fun a b ⟨hv, hw, hab⟩ => ⟨by rw [hv, hw], hab⟩
  | ifSame | ifDifferent => exact h.popTwo.bind fun a b ⟨hv, hw, hab⟩ => ⟨by rw [hv, hw], hab⟩

end Frame.Mirrors

/-- Machines with the same classes, but for the names of labels. -/
structure Machine.Renamed (m n : Machine) : Prop where
  class? : ∀ name, Option.Rel ClassFile.Renamed (m.class? name) (n.class? name)
  length : n.classes.length = m.classes.length

theorem forall₂_chainIn_of_renamed {steps : Nat} {cs ds : List ClassFile}
    (h : ∀ n, Option.Rel ClassFile.Renamed (cs.find? (·.name = n)) (ds.find? (·.name = n))) (name : String) :
    List.Forall₂ ClassFile.Renamed (Machine.chainIn steps cs name) (Machine.chainIn steps ds name) := by
  induction steps generalizing cs ds name with
  | zero => exact .nil
  | succ steps ih =>
    rw [Machine.chainIn, Machine.chainIn]
    have hname := h name
    cases hc : cs.find? (·.name = name) with
    | none =>
      rw [hc] at hname
      generalize ds.find? (·.name = name) = found at hname
      cases hname
      exact .nil
    | some c =>
      rw [hc] at hname
      generalize ds.find? (·.name = name) = found at hname
      cases hname with
      | some hcd =>
        refine .cons hcd (hcd.super ▸ ih (fun k => ?_) _)
        rw [find?_filter_ne ClassFile.name, find?_filter_ne ClassFile.name]
        split
        · exact .none
        · exact h k

namespace Machine.Renamed

variable {m n : Machine}

theorem chain (h : m.Renamed n) (name : String) : List.Forall₂ ClassFile.Renamed (m.chain name) (n.chain name) := by
  rw [Machine.chain, Machine.chain, h.length]
  exact forall₂_chainIn_of_renamed h.class? name

theorem isSome_class? (h : m.Renamed n) (name : String) : (n.class? name).isSome = (m.class? name).isSome := by
  have hname := h.class? name
  generalize m.class? name = a at hname
  generalize n.class? name = b at hname
  cases hname <;> rfl

theorem lookup_table (h : m.Renamed n) (cls name : String) :
    (n.class? cls).bind (·.table.lookup name) = (m.class? cls).bind (·.table.lookup name) := by
  have hcls := h.class? cls
  generalize m.class? cls = a at hcls
  generalize n.class? cls = b at hcls
  cases hcls with
  | none => rfl
  | some hc => rw [Option.bind_some, Option.bind_some, hc.table]

theorem isInstance (h : m.Renamed n) (heap : Heap) (v : Value) (cls : String) :
    n.isInstance heap v cls = m.isInstance heap v cls := by
  have hany : ∀ c, (n.chain c).any (·.name = cls) = (m.chain c).any (·.name = cls) := by
    intro c
    have hchain := h.chain c
    generalize m.chain c = cs at hchain
    generalize n.chain c = ds at hchain
    induction hchain with
    | nil => rfl
    | cons hc _ ih => rw [List.any_cons, List.any_cons, hc.name, ih]
  simp only [Machine.isInstance, hany]

theorem virtualMethod? (h : m.Renamed n) (cls name desc : String) :
    Option.Rel (fun a b => b.1.name = a.1.name ∧ a.2.Renamed b.2) (m.virtualMethod? cls name desc)
      (n.virtualMethod? cls name desc) := by
  rw [Machine.virtualMethod?, Machine.virtualMethod?]
  have hchain := h.chain cls
  generalize m.chain cls = cs at hchain
  generalize n.chain cls = ds at hchain
  induction hchain with
  | nil => exact .none
  | @cons c d _ _ hc _ ih =>
    rw [List.findSome?_cons, List.findSome?_cons]
    have hmethod := hc.method? name desc
    generalize c.method? name desc = a at hmethod
    generalize d.method? name desc = b at hmethod
    cases hmethod with
    | none => exact ih
    | some hm => exact .some ⟨hc.name, hm⟩

theorem allocate (h : m.Renamed n) (cls : String) : n.allocate cls = m.allocate cls := by
  simp only [Machine.allocate, h.isSome_class?]

end Machine.Renamed

/-- Replies that differ in the labels of the method called at most. -/
def Reply.Mirrors : Reply → Reply → Prop
  | .value v h s, .value v' h' s' => v' = v ∧ h' = h ∧ s' = s
  | .call h cls code args, .call h' cls' code' args' => h' = h ∧ cls' = cls ∧ code.Renamed code' ∧ args' = args
  | _, _ => False

theorem Reply.mirrors_value (v : Value) (h : Heap) (s : String) : Reply.Mirrors (.value v h s) (.value v h s) :=
  ⟨rfl, rfl, rfl⟩

/-- Effects that differ in the labels of the methods that run at most. -/
def Effect.Mirrors (mc : MethodCode) (r : String → String) : Effect → Effect → Prop
  | .next f h s, .next g h' s' => f.Mirrors mc r g ∧ h' = h ∧ s' = s
  | .call f h cls code args p, .call g h' cls' code' args' p' =>
    f.Mirrors mc r g ∧ h' = h ∧ cls' = cls ∧ code.Renamed code' ∧ args' = args ∧ p' = p
  | _, _ => False

theorem MethodCode.Renamed.desc {a b : MethodCode} (h : a.Renamed b) : b.desc = a.desc := by
  obtain ⟨f, -, rfl⟩ := h
  rfl

namespace Machine.Renamed

variable {m n : Machine}

theorem dispatch (h : m.Renamed n) (heap : Heap) (receiver : Value) (name : String) (args : List Value) :
    Parallel Reply.Mirrors (m.dispatch heap receiver name args) (n.dispatch heap receiver name args) := by
  unfold Machine.dispatch
  cases asInstance heap receiver with
  | error e => rfl
  | ok r =>
    obtain ⟨cls, fields⟩ := r
    simp only [h.lookup_table]
    cases (m.class? cls).bind (·.table.lookup name) with
    | none => rfl
    | some owner =>
      have howner := h.class? owner
      simp only
      generalize m.class? owner = a at howner
      generalize n.class? owner = b at howner
      cases howner with
      | none => rfl
      | @some c d hc =>
        have hcode := hc.methodNamed? name
        simp only
        generalize c.methodNamed? name = a at hcode
        generalize d.methodNamed? name = b at hcode
        cases hcode with
        | none => rfl
        | some hcode =>
          simp only [hcode.desc]
          split
          · exact ⟨rfl, hc.name, hcode, rfl⟩
          · rfl

theorem nativeMethod (h : m.Renamed n) (heap : Heap) (recv : Value) (args : List Value) (k : NativeMethod) :
    Parallel Reply.Mirrors (k.run m heap recv args) (k.run n heap recv args) := by
  cases k with
  | invoke =>
    simp only [NativeMethod.run]
    split
    · refine Parallel.bind (R := Eq) (.refl (fun _ => rfl) _) fun es _ he => ?_
      subst he
      exact h.dispatch heap _ _ es
    · rfl
  | getElement | setElement =>
    simp only [NativeMethod.run]
    split
    · split
      · exact Reply.mirrors_value _ _ _
      · rfl
    · rfl
  | printInt | printBool => exact Reply.mirrors_value _ _ _
  | printString =>
    simp only [NativeMethod.run]
    split
    · exact Reply.mirrors_value _ _ _
    · rfl
  | intValue | booleanValue | arrayListAdd =>
    simp only [NativeMethod.run]
    split
    · exact Reply.mirrors_value _ _ _
    · rfl

variable {mc : MethodCode} {r : String → String} {f g : Frame} (h : m.Renamed n) (hf : f.Mirrors mc r g) (heap : Heap)

include h hf

theorem invokeSpecial (ref : MemberRef) :
    Parallel (Effect.Mirrors mc r) (m.invokeSpecial f heap ref) (n.invokeSpecial g heap ref) := by
  unfold Machine.invokeSpecial
  split
  · rfl
  · refine (hf.popMany _).bind ?_
    rintro ⟨_, f⟩ ⟨vals, g⟩ ⟨rfl, hfg⟩
    dsimp only
    split
    · rfl
    · split
      · refine Parallel.bind (R := Eq) (.refl (fun _ => rfl) _) fun h' _ he => ?_
        subst he
        exact ⟨hfg, rfl, rfl⟩
      · split
        · exact ⟨hfg, rfl, rfl⟩
        · have hcls := h.class? ref.owner
          generalize m.class? ref.owner = a at hcls
          generalize n.class? ref.owner = b at hcls
          cases hcls with
          | none => rfl
          | @some c d hc =>
            have hcode := hc.method? ref.name ref.desc
            simp only
            generalize c.method? ref.name ref.desc = a at hcode
            generalize d.method? ref.name ref.desc = b at hcode
            cases hcode with
            | none => rfl
            | some hcode => exact ⟨hfg, rfl, hc.name, hcode, rfl, rfl⟩

theorem invokeVirtual (ref : MemberRef) :
    Parallel (Effect.Mirrors mc r) (m.invokeVirtual f heap ref) (n.invokeVirtual g heap ref) := by
  unfold Machine.invokeVirtual
  refine (hf.popMany _).bind ?_
  rintro ⟨_, f⟩ ⟨vals, g⟩ ⟨rfl, hfg⟩
  dsimp only
  split
  · rfl
  · split
    · next k _ =>
      refine (h.nativeMethod heap _ _ k).bind fun a b hab => ?_
      match a, b, hab with
      | .value v _ s, .value _ _ _, ⟨rfl, rfl, rfl⟩ =>
        dsimp only
        split
        · exact (hfg.push v).bind fun a b hab => ⟨hab, rfl, rfl⟩
        · exact ⟨hfg, rfl, rfl⟩
      | .call _ _ _ _, .call _ _ _ _, ⟨rfl, rfl, hcode, rfl⟩ => exact ⟨hfg, rfl, rfl, hcode, rfl, rfl⟩
    · refine Parallel.bind (R := Eq) (.refl (fun _ => rfl) _) fun ⟨cls, fields⟩ _ he => ?_
      subst he
      have hmethod := h.virtualMethod? cls ref.name ref.desc
      dsimp only
      generalize m.virtualMethod? cls ref.name ref.desc = a at hmethod
      generalize n.virtualMethod? cls ref.name ref.desc = b at hmethod
      cases hmethod with
      | none => rfl
      | some hm => exact ⟨hfg, rfl, hm.1, hm.2, rfl, rfl⟩

omit h in
theorem invokeStatic (ref : MemberRef) :
    Parallel (Effect.Mirrors mc r) (Machine.invokeStatic f heap ref) (Machine.invokeStatic g heap ref) := by
  unfold Machine.invokeStatic
  refine (hf.popMany _).bind ?_
  rintro ⟨_, f⟩ ⟨vals, g⟩ ⟨rfl, hfg⟩
  dsimp only
  split
  · rfl
  · exact (hfg.push _).bind fun a b hab => ⟨hab, rfl, rfl⟩

omit h in
theorem pushes (v : Value) : Parallel (Effect.Mirrors mc r) (Effect.quiet heap <$> f.push v) (Effect.quiet heap <$> g.push v) :=
  (hf.push v).map fun _ _ hab => ⟨hab, rfl, rfl⟩

/-- One operation does the same on both machines, with its label renamed. -/
theorem exec (hr : Set.InjOn r mc.labels) (op : Op) (hl : ∀ l, op.label? = some l → l ∈ mc.labels) :
    Parallel (Effect.Mirrors mc r) (m.exec f heap op) (n.exec g heap (op.relabel r)) := by
  cases op with
  | pushInt v => exact pushes hf heap _
  | pushString s => exact pushes hf heap _
  | pushNull => exact pushes hf heap _
  | load k i =>
    refine (hf.slot i).bind fun j _ hj => ?_
    subst hj
    rw [hf.local?]
    exact pushes hf heap _
  | store k i =>
    refine (hf.slot i).bind fun j _ hj => ?_
    subst hj
    exact hf.pop.bind fun a b ⟨hv, hab⟩ => ⟨hv ▸ hab.setLocal _ _, rfl, rfl⟩
  | increment i d =>
    refine (hf.slot i).bind fun j _ hj => ?_
    subst hj
    exact ⟨hf.local? _ ▸ hf.setLocal _ _, rfl, rfl⟩
  | dup =>
    refine hf.pop.bind ?_
    rintro ⟨_, f⟩ ⟨v, g⟩ ⟨rfl, hab⟩
    exact (hab.push _).bind fun c d hcd => pushes hcd heap _
  | pop => exact hf.pop.bind fun a b ⟨_, hab⟩ => ⟨hab, rfl, rfl⟩
  | arith op =>
    refine hf.popTwo.bind ?_
    rintro ⟨_, _, f⟩ ⟨v, w, g⟩ ⟨rfl, rfl, hab⟩
    refine Parallel.bind (R := Eq) (.refl (fun _ => rfl) _) fun v _ he => ?_
    subst he
    exact pushes hab heap _
  | neg =>
    refine hf.pop.bind ?_
    rintro ⟨_, f⟩ ⟨v, g⟩ ⟨rfl, hab⟩
    exact pushes hab heap _
  | jump test l =>
    refine (hf.decide test).bind ?_
    rintro ⟨_, f⟩ ⟨taken, g⟩ ⟨rfl, hab⟩
    dsimp only
    split
    · exact (hab.jumpTo hr (hl l rfl)).map fun _ _ hcd => ⟨hcd, rfl, rfl⟩
    · exact ⟨hab, rfl, rfl⟩
  | label l => exact ⟨hf, rfl, rfl⟩
  | new cls =>
    refine Parallel.bind (R := Eq) (h.allocate cls ▸ .refl (fun _ => rfl) _) fun o _ he => ?_
    subst he
    exact (hf.push _).bind fun a b hab => ⟨hab, rfl, rfl⟩
  | cast cls =>
    obtain ⟨rfl, rfl⟩ := hf
    simp only [Machine.exec, Op.relabel, h.isInstance]
    split
    · rfl
    · split
      · exact ⟨⟨rfl, rfl⟩, rfl, rfl⟩
      · rfl
  | getField ref =>
    refine hf.pop.bind ?_
    rintro ⟨_, f⟩ ⟨v, g⟩ ⟨rfl, hab⟩
    dsimp only
    cases asInstance heap v with
    | error e => rfl
    | ok o => exact pushes hab heap _
  | putField ref =>
    refine hf.popTwo.bind ?_
    rintro ⟨_, _, f⟩ ⟨v, w, g⟩ ⟨rfl, rfl, hab⟩
    dsimp only
    cases asInstance heap v with
    | error e => rfl
    | ok o => exact ⟨hab, rfl, rfl⟩
  | getStatic ref =>
    simp only [Machine.exec, Op.relabel]
    split
    · exact pushes hf heap _
    · rfl
  | invokeSpecial ref => exact h.invokeSpecial hf heap ref
  | invokeVirtual ref => exact h.invokeVirtual hf heap ref
  | invokeStatic ref => exact invokeStatic hf heap ref
  | ret | retRef | unknown => rfl

end Machine.Renamed

/-- A call of a method and the same call of the method with its labels renamed. -/
def Frame.Renamed (f g : Frame) : Prop := ∃ r, Set.InjOn r f.method.labels ∧ f.Mirrors f.method r g

structure State.Renamed (s t : State) : Prop where
  frames : List.Forall₂ Frame.Renamed s.frames t.frames
  heap : t.heap = s.heap
  out : t.out = s.out

/-- Two steps that print the same and go on, end or fail for one cause. -/
def Progress.Renamed : Progress → Progress → Prop
  | .running s, .running t => s.Renamed t
  | .finished out, .finished out' => out' = out
  | .failed out e, .failed out' e' => out' = out ∧ e'.cause = e.cause
  | _, _ => False

/-- Runs that print the same and end, fail for one cause, or are cut off. -/
def Outcome.SameEnd : Outcome → Outcome → Prop
  | .finished out, .finished out' => out' = out
  | .failed out e, .failed out' e' => out' = out ∧ e'.cause = e.cause
  | .outOfFuel out, .outOfFuel out' => out' = out
  | _, _ => False

theorem Frame.Mirrors.renamed {mc : MethodCode} {r : String → String} {f g : Frame} (h : f.Mirrors mc r g)
    (hr : Set.InjOn r mc.labels) : f.Renamed g := by
  obtain ⟨rfl, rfl⟩ := h
  exact ⟨r, hr, rfl, rfl⟩

theorem Frame.Renamed.enter {a b : MethodCode} (h : a.Renamed b) (cls : String) (args : List Value) (pushes : Bool) :
    (Frame.enter cls a args pushes).Renamed (Frame.enter cls b args pushes) := by
  obtain ⟨r, hr, rfl⟩ := h
  exact ⟨r, hr, rfl, rfl⟩

theorem Frame.Renamed.pushesResult {f g : Frame} (h : f.Renamed g) : g.pushesResult = f.pushesResult := by
  obtain ⟨r, -, -, rfl⟩ := h
  rfl

namespace State

variable {f g : Frame} {fs gs : List Frame}

theorem leave_renamed (h : f.Renamed g) (hs : List.Forall₂ Frame.Renamed fs gs) (heap : Heap) (out : String) (v : Value) :
    (leave f fs heap out v).Renamed (leave g gs heap out v) := by
  unfold leave
  rw [h.pushesResult]
  cases hs with
  | nil => rfl
  | @cons f' g' fs gs hc hs =>
    dsimp only
    split
    · obtain ⟨r, hr, hm⟩ := hc
      have hpush := hm.push v
      generalize f'.push v = a at hpush
      generalize g'.push v = b at hpush
      match a, b, hpush with
      | .ok a, .ok b, hab => exact ⟨.cons (hab.renamed hr) hs, rfl, rfl⟩
      | .error e, .error e', he => exact ⟨rfl, he⟩
    · exact ⟨.cons hc hs, rfl, rfl⟩

variable {m n : Machine} (hmn : m.Renamed n)

include hmn

theorem perform_renamed {r : String → String} (hr : Set.InjOn r f.method.labels) (h : f.Mirrors f.method r g)
    (hs : List.Forall₂ Frame.Renamed fs gs) (heap : Heap) (out : String) {op : Op}
    (hl : ∀ l, op.label? = some l → l ∈ f.method.labels) :
    (perform m f fs heap out op).Renamed (perform n g gs heap out (op.relabel r)) := by
  have hexec := hmn.exec h heap hr op hl
  unfold perform
  dsimp only
  generalize m.exec f heap op = a at hexec
  generalize n.exec g heap (op.relabel r) = b at hexec
  match a, b, hexec with
  | .error e, .error e', he => exact ⟨rfl, he⟩
  | .ok (.next _ _ _), .ok (.next _ _ _), ⟨hfg, rfl, rfl⟩ => exact ⟨.cons (hfg.renamed hr) hs, rfl, rfl⟩
  | .ok (.call _ _ _ _ _ _), .ok (.call _ _ _ _ _ _), ⟨hfg, rfl, rfl, hcode, rfl, rfl⟩ =>
    simp only [hs.length_eq]
    split
    · exact ⟨rfl, rfl⟩
    · exact ⟨.cons (.enter hcode _ _ _) (.cons (hfg.renamed hr) hs), rfl, rfl⟩

theorem step_renamed (canceled : Bool) {s t : State} (h : s.Renamed t) :
    (s.step m canceled).Renamed (t.step n canceled) := by
  obtain ⟨fs, _, _⟩ := s
  obtain ⟨gs, heap, out⟩ := t
  obtain ⟨hs, rfl, rfl⟩ := h
  cases hs with
  | nil => rfl
  | @cons f g fs gs hfg hs =>
    obtain ⟨r, hr, -, rfl⟩ := hfg
    unfold step
    simp only [MethodCode.getElem?_relabel]
    cases hi : f.method.code[f.pc]? with
    | none => exact leave_renamed ⟨r, hr, rfl, rfl⟩ hs heap out _
    | some i =>
      simp only [Option.map_some]
      split
      · exact ⟨rfl, rfl⟩
      · have hl : ∀ l, i.op.label? = some l → l ∈ f.method.labels := fun l => MethodCode.mem_labels hi
        obtain ⟨op, line⟩ := i
        have hfg : ({ f with pc := f.pc + 1, steps := f.steps + 1 } : Frame).Mirrors f.method r
            { f with method := f.method.relabel r, pc := f.pc + 1, steps := f.steps + 1 } := ⟨rfl, rfl⟩
        cases op with
        | ret => exact leave_renamed (hfg.renamed hr) hs heap out _
        | retRef =>
          simp only [Instr.relabel, Op.relabel]
          split
          · exact ⟨rfl, rfl⟩
          · exact leave_renamed (hfg.renamed hr) hs heap out _
        | _ => exact perform_renamed hmn (f := { f with pc := f.pc + 1, steps := f.steps + 1 }) hr hfg hs heap out hl

theorem run_renamed (canceled : Bool) (fuel : Nat) {s t : State} (h : s.Renamed t) :
    (s.run m canceled fuel).SameEnd (t.run n canceled fuel) := by
  induction fuel generalizing s t with
  | zero => exact h.out
  | succ fuel ih =>
    have hstep := step_renamed hmn canceled h
    simp only [run]
    generalize s.step m canceled = a at hstep
    generalize t.step n canceled = b at hstep
    cases a with
    | running s =>
      cases b with
      | running t => exact ih hstep
      | finished _ | failed _ _ => exact hstep.elim
    | finished _ =>
      cases b with
      | finished _ => exact hstep
      | running _ | failed _ _ => exact hstep.elim
    | failed _ _ =>
      cases b with
      | failed _ _ => exact hstep
      | running _ | finished _ => exact hstep.elim

end State

/-- The entry point of a class does the same on both machines. -/
theorem Machine.Renamed.run {m n : Machine} (h : m.Renamed n) (canceled : Bool) (fuel : Nat) (entry : String) :
    (m.run canceled fuel entry).SameEnd (n.run canceled fuel entry) := by
  have hstart : Parallel State.Renamed (m.start (if entry.isEmpty then "Main" else entry))
      (n.start (if entry.isEmpty then "Main" else entry)) := by
    unfold Machine.start
    have hcls := h.class? (if entry.isEmpty then "Main" else entry)
    generalize m.class? (if entry.isEmpty then "Main" else entry) = a at hcls
    generalize n.class? (if entry.isEmpty then "Main" else entry) = b at hcls
    cases hcls with
    | none => rfl
    | @some c d hc =>
      have hcode := hc.method? mainName mainDesc
      dsimp only
      generalize c.method? mainName mainDesc = a at hcode
      generalize d.method? mainName mainDesc = b at hcode
      cases hcode with
      | none => rfl
      | some hcode => exact ⟨.cons (hc.name ▸ .enter hcode _ _ _) .nil, rfl, rfl⟩
  unfold Machine.run
  generalize m.start (if entry.isEmpty then "Main" else entry) = a at hstart
  generalize n.start (if entry.isEmpty then "Main" else entry) = b at hstart
  match a, b, hstart with
  | .error e, .error e', he => exact ⟨rfl, he⟩
  | .ok s, .ok t, hst => exact State.run_renamed h canceled fuel hst

end ClassCompiler
