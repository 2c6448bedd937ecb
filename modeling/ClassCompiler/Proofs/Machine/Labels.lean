import ClassCompiler.Proofs.Boxing.Methods
import ClassCompiler.Proofs.Compile.Jumps
import ClassCompiler.Proofs.Compile.Loops
import ClassCompiler.Proofs.Machine.Links
import ClassCompiler.Proofs.Stack.Underflow
import Mathlib.Data.List.Flatten

namespace ClassCompiler

/-- Failure for another cause than a label that is not there. -/
abbrev Cause.NotLabel (c : Cause) : Prop := c ≠ .unknownLabel

theorem Cause.Outside.notLabel (c : Cause) (h : c.Outside) : c.NotLabel := h.2.2.2

def MethodCode.FindsLabels (mc : MethodCode) : Prop :=
  ∀ {j : Nat} {i : Instr} {test : Jump} {l : String}, mc.code[j]? = some i → i.op = .jump test l →
    (mc.code.labelOffset? l).isSome

/-- A frame stays in its method, and the method that it calls is one of the machine. -/
def Effect.StaysIn (m : Machine) (f : Frame) : Effect → Prop
  | .next g _ _ => g.method = f.method
  | .call g _ _ mc _ _ => g.method = f.method ∧ m.HasMethod mc

namespace Frame

variable {f : Frame}

theorem pop_method : Attempt Cause.NotLabel (fun r => r.2.method = f.method) f.pop := by
  unfold pop
  split <;> simp [Attempt, fault]

theorem popTwo_method : Attempt Cause.NotLabel (fun r => r.2.2.method = f.method) f.popTwo := by
  unfold popTwo
  split <;> simp [Attempt, fault]

theorem popMany_method (n : Nat) : Attempt Cause.NotLabel (fun r => r.2.method = f.method) (f.popMany n) := by
  unfold popMany
  split <;> simp [Attempt, fault]

theorem push_method (v : Value) : Attempt Cause.NotLabel (fun g => g.method = f.method) (f.push v) := by
  unfold push
  split <;> simp [Attempt, fault]

theorem slot_method (i : Int) : Attempt Cause.NotLabel (fun _ => True) (f.slot i) := by
  unfold slot
  split <;> simp [Attempt, fault]

theorem jumpTo_method {l : String} (hl : (f.method.code.labelOffset? l).isSome) :
    Attempt Cause.NotLabel (fun g => g.method = f.method) (f.jumpTo l) := by
  unfold jumpTo
  obtain ⟨k, hk⟩ := Option.isSome_iff_exists.1 hl
  simp [hk, Attempt]

end Frame

theorem Jump.decide_method (test : Jump) (f : Frame) :
    Attempt Cause.NotLabel (fun r => r.2.method = f.method) (test.decide f) := by
  cases test with
  | always => rfl
  | ifZero | ifNonzero => exact Frame.pop_method.bind fun ⟨v, g⟩ hg => hg
  | ifInts _ | ifSame | ifDifferent => exact Frame.popTwo_method.bind fun ⟨a, b, g⟩ hg => hg

namespace Machine

variable {m : Machine} {f : Frame} {h : Heap}

theorem invokeSpecial_staysIn (r : MemberRef) :
    Attempt Cause.NotLabel (Effect.StaysIn m f) (m.invokeSpecial f h r) := by
  unfold invokeSpecial
  split
  · simp [Attempt, fault]
  · refine (Frame.popMany_method _).bind ?_
    rintro ⟨vals, g⟩ hg
    simp only
    split
    · simp [Attempt, fault]
    · split
      · exact ((constructor_depth _ _ _).allow Cause.Outside.notLabel).bind fun h _ => hg
      · split
        · exact hg
        · split
          · simp [Attempt, fault]
          · next c hc =>
            split
            · simp [Attempt, fault]
            · next mc hmc => exact ⟨hg, c, class?_mem hc, List.mem_of_find?_eq_some hmc⟩

theorem invokeVirtual_staysIn (r : MemberRef) :
    Attempt Cause.NotLabel (Effect.StaysIn m f) (m.invokeVirtual f h r) := by
  unfold invokeVirtual
  refine (Frame.popMany_method _).bind ?_
  rintro ⟨vals, g⟩ hg
  simp only
  split
  · simp [Attempt, fault]
  · split
    · refine ((method_depth _ _ _).allow Cause.Outside.notLabel).bind fun reply hreply => ?_
      cases reply with
      | call h cls mc as => exact ⟨hg, hreply⟩
      | value v h printed =>
        simp only
        split
        · exact (g.push_method v).bind fun k hk => hk.trans hg
        · exact hg
    · refine ((asInstance_depth _).allow Cause.Outside.notLabel).bind ?_
      rintro ⟨cls, -⟩ -
      simp only
      split
      · simp [Attempt, fault]
      · next owner mc hv =>
        unfold virtualMethod? at hv
        obtain ⟨c, hc, hm⟩ := List.exists_of_findSome?_eq_some hv
        simp only [Option.map_eq_some_iff, Prod.mk.injEq] at hm
        obtain ⟨mc', hmc, rfl, rfl⟩ := hm
        exact ⟨hg, c, chainIn_subset _ _ _ hc, List.mem_of_find?_eq_some hmc⟩

theorem invokeStatic_staysIn (r : MemberRef) :
    Attempt Cause.NotLabel (Effect.StaysIn m f) (invokeStatic f h r) := by
  unfold invokeStatic
  refine (Frame.popMany_method _).bind ?_
  rintro ⟨vals, g⟩ hg
  simp only
  split
  · simp [Attempt, fault]
  · exact (g.push_method _).bind fun k hk => hk.trans hg

/-- An operation of a method that has the label it jumps to. -/
theorem exec_staysIn {op : Op} (hl : ∀ test l, op = .jump test l → (f.method.code.labelOffset? l).isSome) :
    Attempt Cause.NotLabel (Effect.StaysIn m f) (m.exec f h op) := by
  have hpush : ∀ {g : Frame}, g.method = f.method → ∀ v,
      Attempt Cause.NotLabel (Effect.StaysIn m f) (Effect.quiet h <$> g.push v) := fun hg v =>
    (Frame.push_method v).map fun k hk => hk.trans hg
  cases op with
  | invokeSpecial r => exact invokeSpecial_staysIn r
  | invokeVirtual r => exact invokeVirtual_staysIn r
  | invokeStatic r => exact invokeStatic_staysIn r
  | jump test l =>
    refine (test.decide_method f).bind ?_
    rintro ⟨taken, g⟩ hg
    cases taken with
    | false => exact hg
    | true => exact (Frame.jumpTo_method (hg ▸ hl test l rfl)).map fun k hk => hk.trans hg
  | pushInt v => exact hpush rfl _
  | pushString v => exact hpush rfl _
  | pushNull => exact hpush rfl _
  | load k i => exact (Frame.slot_method i).bind fun _ _ => hpush rfl _
  | store k i => exact (Frame.slot_method i).bind fun _ _ => Frame.pop_method.bind fun _ hg => hg
  | increment i d => exact (Frame.slot_method i).bind fun _ _ => rfl
  | dup =>
    exact Frame.pop_method.bind fun r hg => (Frame.push_method r.1).bind fun _ hk => hpush (hk.trans hg) r.1
  | pop => exact Frame.pop_method.bind fun _ hg => hg
  | arith op =>
    exact Frame.popTwo_method.bind fun _ hg => ((op.apply_depth _ _).allow Cause.Outside.notLabel).bind
      fun r _ => hpush hg _
  | neg => exact Frame.pop_method.bind fun _ hg => hpush hg _
  | label l => exact (rfl : f.method = f.method)
  | new cls =>
    exact ((m.allocate_depth cls).allow Cause.Outside.notLabel).bind fun o _ => (Frame.push_method _).bind fun g hg => hg
  | cast cls =>
    unfold exec
    simp only
    split
    · simp [Attempt, fault]
    · split
      · exact (rfl : f.method = f.method)
      · simp [Attempt, castFault]
  | getField r =>
    refine Frame.pop_method.bind ?_
    rintro ⟨v, g⟩ hg
    have hi : Attempt Cause.NotLabel (fun _ => True) (asInstance h v) :=
      (asInstance_depth v).allow Cause.Outside.notLabel
    simp only
    split
    · next e he =>
      rw [he] at hi
      exact hi
    · exact hpush hg _
  | putField r =>
    refine Frame.popTwo_method.bind ?_
    rintro ⟨a, b, g⟩ hg
    have hi : Attempt Cause.NotLabel (fun _ => True) (asInstance h a) :=
      (asInstance_depth a).allow Cause.Outside.notLabel
    simp only
    split
    · next e he =>
      rw [he] at hi
      exact hi
    · exact hg
  | getStatic r =>
    unfold exec
    simp only
    split
    · exact hpush rfl _
    · simp [Attempt, fault]
  | ret | retRef | unknown => simp [exec, Attempt, fault]

def FindsLabels (m : Machine) : Prop := ∀ mc, m.HasMethod mc → mc.FindsLabels

end Machine

/-- The frames of a state are in methods of the machine. -/
def State.InMethods (m : Machine) (s : State) : Prop := ∀ f ∈ s.frames, m.HasMethod f.method

/-- The frames are in methods of the machine after a step, and a step does not fail at a label. -/
def Progress.InMethods (m : Machine) : Progress → Prop
  | .running s => s.InMethods m
  | .finished _ => True
  | .failed _ e => e.cause.NotLabel

section

variable {m : Machine}

theorem State.leave_inMethods {f : Frame} {callers : List Frame} {heap : Heap} {out : String} {v : Value}
    (hc : ∀ g ∈ callers, m.HasMethod g.method) : (leave f callers heap out v).InMethods m := by
  unfold leave
  split
  · trivial
  · next g gs =>
    obtain ⟨hg, hgs⟩ := List.forall_mem_cons.1 hc
    have hpush := g.push_method v
    split
    · split
      · next k hk =>
        rw [hk] at hpush
        exact List.forall_mem_cons.2 ⟨(hpush : k.method = g.method) ▸ hg, hgs⟩
      · next e he =>
        rw [he] at hpush
        exact hpush
    · exact hc

theorem State.perform_inMethods {f : Frame} {callers : List Frame} {heap : Heap} {out : String} {op : Op}
    (hf : m.HasMethod f.method) (hc : ∀ g ∈ callers, m.HasMethod g.method)
    (hl : ∀ test l, op = .jump test l → (f.method.code.labelOffset? l).isSome) :
    (perform m f callers heap out op).InMethods m := by
  have he := Machine.exec_staysIn (m := m) (h := heap) hl
  unfold perform
  cases hx : m.exec f heap op with
  | error e =>
    rw [hx] at he
    exact he
  | ok r =>
    rw [hx] at he
    cases r with
    | next g heap' printed =>
      exact List.forall_mem_cons.2 ⟨(he : g.method = f.method) ▸ hf, hc⟩
    | call g heap' cls mc args pushes =>
      obtain ⟨hg, hmc⟩ := he
      simp only
      split
      · simp [Progress.InMethods, Fault.within]
      · exact List.forall_mem_cons.2 ⟨hmc, List.forall_mem_cons.2 ⟨hg ▸ hf, hc⟩⟩

theorem State.step_inMethods (hm : m.FindsLabels) (canceled : Bool) {s : State} (h : s.InMethods m) :
    (s.step m canceled).InMethods m := by
  obtain ⟨frames, heap, out⟩ := s
  cases frames with
  | nil => trivial
  | cons f callers =>
    obtain ⟨hf, hc⟩ := List.forall_mem_cons.1 h
    unfold step
    simp only
    split
    · exact leave_inMethods hc
    · next i hi =>
      split
      · simp [Progress.InMethods, Fault.within]
      · split
        · exact leave_inMethods hc
        · split
          · simp [Progress.InMethods, Fault.within]
          · exact leave_inMethods hc
        · exact perform_inMethods hf hc fun test l hop => hm _ hf hi hop

theorem State.run_notLabel (hm : m.FindsLabels) (canceled : Bool) (fuel : Nat) {s : State} (h : s.InMethods m)
    {out : String} {e : Fault} (hr : s.run m canceled fuel = .failed out e) : e.cause.NotLabel := by
  induction fuel generalizing s with
  | zero => cases hr
  | succ fuel ih =>
    have hs := step_inMethods hm canceled h
    unfold run at hr
    cases hx : s.step m canceled with
    | running s' =>
      rw [hx] at hr hs
      exact ih hs hr
    | finished out => simp [hx] at hr
    | failed out' e' =>
      simp only [hx, Outcome.failed.injEq] at hr
      rw [hx] at hs
      exact hr.2 ▸ hs

theorem Machine.start_inMethods {entry : String} {s : State} (hs : m.start entry = .ok s) : s.InMethods m := by
  unfold start at hs
  split at hs
  · simp [fault] at hs
  · next c hc =>
    split at hs
    · simp [fault] at hs
    · next mc hmc =>
      obtain rfl := Except.ok.inj hs
      exact List.forall_mem_singleton.2 ⟨c, class?_mem hc, List.mem_of_find?_eq_some hmc⟩

/-- No run of a machine whose methods find their labels stops at one. -/
theorem Machine.run_notLabel (hm : m.FindsLabels) {canceled : Bool} {fuel : Nat} {entry out : String} {e : Fault}
    (hr : m.run canceled fuel entry = .failed out e) : e.cause.NotLabel := by
  unfold run at hr
  cases hs : m.start (if entry.isEmpty then "Main" else entry) with
  | error e' =>
    simp only [hs, Outcome.failed.injEq] at hr
    obtain ⟨-, rfl⟩ := hr
    rcases start_error hs with he | he <;> simp [he]
  | ok s =>
    simp only [hs] at hr
    exact State.run_notLabel hm canceled fuel (start_inMethods hs) hr

end

theorem MethodCode.findsLabels {mc : MethodCode} (h : JumpsInside mc.code.toList) : mc.FindsLabels := by
  intro j i test l hi hop
  have hmem : i ∈ mc.code.toList := Array.mem_toList_iff.2 (Array.mem_of_getElem? hi)
  obtain ⟨k, hk, hop⟩ := List.countP_pos_iff.1 (Nat.pos_of_ne_zero (h l (mem_jumps hmem hop)))
  obtain ⟨n, hn⟩ := List.mem_iff_getElem?.1 hk
  exact labelOffset?_isSome_of_labelAt (j := n) ⟨k.line, by rw [hn, ← of_decide_eq_true hop]⟩

section

variable {o : CompileOptions} {p : Program} {c : ClassDecl} {f : ClassFile} {d : MethodDecl} {mc : MethodCode}

theorem FileOf.jumpsInside (h : FileOf o p c f) : ∀ mc ∈ f.methods, JumpsInside mc.code.toList := by
  refine h.forall_code ?_ ?_ (fun d _ code b => ?_) fun d _ code b => b.jumpsInside (c.jumps_prologue _)
  · simp [JumpsInside, ClassDecl.entryCode, Op.jump?]
  · simp [JumpsInside, c.jumps_prologue, Op.jump?]
  · have hnone : jumps [] = [] := rfl
    exact b.jumpsInside hnone

/-- Every body of a class has its code in the file. -/
theorem FileOf.codeFor (h : FileOf o p c f) (hd : d ∈ c.bodies) : ∃ mc ∈ f.methods, CodeFor o p c d mc := by
  obtain ⟨ks, ms, hks, hms, hm⟩ := h.methods
  simp only [hm, List.append_assoc, List.mem_append]
  rcases List.mem_append.1 hd with hd | hd
  · cases hks with
    | none hc => simp [hc] at hd
    | @plain m mc hc _ hk | @withArgs m mc hc _ hk =>
      obtain rfl : d = m := by simpa [hc] using hd
      exact ⟨mc, .inr (.inl (by simp)), .inr hk⟩
  · obtain ⟨mc, hmc, hcode⟩ := exists_mem_of_forall₂ (List.Forall₂.flip hms) hd
    exact ⟨mc, .inr (.inr hmc), .inl hcode⟩

theorem CodeFor.exitsLead (h : CodeFor o p c d mc) : ∃ xs, ExitsLead ⟨p, c.name.name, d⟩ d.body mc.code xs := by
  rcases h with ⟨code, ⟨b, -⟩, rfl⟩ | ⟨code, ⟨b, -⟩, rfl⟩
  · have hnone : ∀ l, labelCount [] l = 0 := fun _ => rfl
    exact ⟨_, b.exitsLead hnone⟩
  · exact ⟨_, b.exitsLead (c.labelCount_prologue _)⟩

end

/-- The labels in the file of a class: a jump goes to a label that its method places once, and in the code of a body
every `break` and `continue` goes where the tree says. -/
structure FileLabels (o : CompileOptions) (p : Program) (c : ClassDecl) (f : ClassFile) : Prop where
  jumps : ∀ mc ∈ f.methods, ∀ l ∈ jumps mc.code.toList, labelCount mc.code.toList l = 1
  exits : ∀ d ∈ c.bodies, ∃ mc ∈ f.methods, CodeFor o p c d mc ∧ ∃ xs, ExitsLead ⟨p, c.name.name, d⟩ d.body mc.code xs

theorem labelCount_le_codeOfFiles {files : List ClassFile} {f : ClassFile} (hf : f ∈ files) {mc : MethodCode}
    (hmc : mc ∈ f.methods) (l : String) : labelCount mc.code.toList l ≤ labelCount (codeOfFiles files) l := by
  have hmethod := (List.singleton_sublist.2 hmc).flatMap (·.code.toList)
  have hfile := (List.singleton_sublist.2 hf).flatMap fun f => codeOfMethods f.methods
  rw [List.flatMap_singleton] at hmethod hfile
  exact (hmethod.trans hfile).countP_le

/-- The labels of a compiled program: none is placed twice in all its files, each jump has its label in its own method,
each `break` and `continue` goes to the innermost loop around it, and no run stops for want of a label. -/
theorem compiled_labels_sound {o : CompileOptions} {table p : Program} {files : List ClassFile}
    (h : Program.compile o table p = .ok files) :
    (∀ l, labelCount (codeOfFiles files) l ≤ 1) ∧ List.Forall₂ (FileLabels o table) p.classes files ∧
      ∀ canceled fuel entry out e,
        (Machine.load files).run canceled fuel entry = .failed out e → e.cause ≠ .unknownLabel := by
  have honce := Program.compile_labels h
  have hfiles := Program.compile_ok h
  have hinside : ∀ f ∈ files, ∀ mc ∈ f.methods, JumpsInside mc.code.toList := fun f hf => by
    obtain ⟨c, -, hc⟩ := exists_mem_of_forall₂ hfiles hf
    exact hc.jumpsInside
  refine ⟨honce, ?_, fun _ _ _ _ _ hr => Machine.run_notLabel ?_ hr⟩
  · have hmem : List.Forall₂ (fun f c => f ∈ files ∧ FileOf o table c f) files p.classes :=
      forall₂_imp_mem (List.Forall₂.flip hfiles) fun f hf c hc => ⟨hf, hc⟩
    refine (List.Forall₂.flip hmem).imp fun c f ⟨hf, hc⟩ => ⟨fun mc hmc l hl => ?_, fun d hd => ?_⟩
    · have hplaced := hinside f hf mc hmc l hl
      have hle := Nat.le_trans (labelCount_le_codeOfFiles hf hmc l) (honce l)
      omega
    · obtain ⟨mc, hmc, hcode⟩ := hc.codeFor hd
      exact ⟨mc, hmc, hcode, hcode.exitsLead⟩
  · rintro mc ⟨f, hf, hmc⟩
    exact MethodCode.findsLabels (hinside f (List.mem_reverse.1 hf) mc hmc)

namespace Sample

def nestedLoops : Program where
  file := "sample"
  classes := [{
    token := ⟨.classDecl, "Main", 1, 11⟩
    name := name "Main" 19
    constructor := some {
      token := ⟨.constructor, "", 1, 38⟩
      name := ⟨⟨.constructor, "", 1, 38⟩, "Main"⟩
      locals := [⟨⟨.var, "i", 1, 49⟩, name "i" 49, .int⟩, ⟨⟨.var, "j", 1, 57⟩, name "j" 57, .int⟩]
      body := [
        .for (token .for 70) none none (some ⟨token (.binary .assign) 80, .ident (name "i" 81), .int {} 1⟩)
          (.block {} [
            .foreach (token .foreach 90) (name "j" 91) (.list {} [.ident (name "i" 92)])
              (.cond {} (.binary {} .eq (.ident (name "i" 93)) (.ident (name "j" 94))) (.continue {})
                (some (.break {}))),
            .cond {} (.bool {} true) (.break {}) none])] } }]

end Sample

theorem compiled_labels_sound_nested :
    ∃ files, Program.compile {} Sample.nestedLoops Sample.nestedLoops = .ok files ∧
      (∀ l, labelCount (codeOfFiles files) l ≤ 1) ∧
      List.Forall₂ (FileLabels {} Sample.nestedLoops) Sample.nestedLoops.classes files ∧
      ∀ canceled fuel entry out e,
        (Machine.load files).run canceled fuel entry = .failed out e → e.cause ≠ .unknownLabel := by
  have hc : (Program.compile {} Sample.nestedLoops Sample.nestedLoops).toOption.isSome := by decide +kernel
  cases hf : Program.compile {} Sample.nestedLoops Sample.nestedLoops with
  | error e => simp [hf, Except.toOption] at hc
  | ok files => exact ⟨files, rfl, compiled_labels_sound hf⟩

end ClassCompiler
