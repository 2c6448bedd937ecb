import ClassCompiler.Compile.Program
import ClassCompiler.Machine.Session
import ClassCompiler.Proofs.Build.Keys
import ClassCompiler.Proofs.Machine.Named
import ClassCompiler.Typing.Program
import Mathlib.Data.List.Nodup

namespace ClassCompiler

theorem Code.isLabel_eq {code : Code} {l : String} {n : Nat} {l' : String} {line : Int}
    (hn : code[n]? = some ⟨.label l', line⟩) : code.isLabel l n = decide (l' = l) := by
  simp only [Code.isLabel, hn]

theorem Code.lookup_labelsBelow (code : Code) (l : String) (n : Nat) :
    (code.labelsBelow n).lookup l = code.labelBelow? l n := by
  induction n with
  | zero => rfl
  | succ n ih =>
    rw [Code.labelsBelow, Code.labelBelow?]
    split
    · next l' line hn =>
      rw [List.lookup_cons, ih, Code.isLabel_eq hn]
      by_cases h : l' = l
      · simp [h]
      · simp only [decide_eq_false h, beq_false_of_ne (Ne.symm h)]
        rfl
    · next hn =>
      have hnone : code.isLabel l n = false := by
        unfold Code.isLabel
        split
        · next l' line hl => exact absurd hl (hn l' line)
        · rfl
      rw [ih, hnone]
      rfl

namespace Session

variable {s : Session}

/-- What holds of a session all along: a text has one string, the strings are named in the order in which they
were made, and the label tables are those of their codes. -/
structure Sound (s : Session) : Prop where
  texts : (s.strings.map (·.1)).Nodup
  names : s.strings.map (·.2) = (List.range s.strings.length).map toString
  tables : ∀ entry ∈ s.tables, entry.2 = entry.1.labelTable

namespace Sound

theorem fresh : Sound {} := ⟨.nil, rfl, nofun⟩

theorem nodup_names (h : s.Sound) : (s.strings.map (·.2)).Nodup := by
  rw [h.names]
  exact List.nodup_range.map fun _ _ => nat_repr_inj

theorem oneToOne (h : s.Sound) : OneToOne s.strings := by
  intro a ha b hb
  constructor
  · intro hab
    rw [List.inj_on_of_nodup_map h.nodup_names ha hb hab]
  · intro hab
    rw [List.inj_on_of_nodup_map h.texts ha hb hab]

theorem reads (h : s.Sound) : s.lookup.Reads s.strings := by
  intro a ha
  have hfound : (s.strings.find? (·.2 = a.2)).isSome := List.find?_isSome.2 ⟨a, ha, by simp⟩
  obtain ⟨b, hb⟩ := Option.isSome_iff_exists.1 hfound
  have hname : b.2 = a.2 := by simpa using List.find?_some hb
  have hab := List.inj_on_of_nodup_map h.nodup_names (List.mem_of_find?_eq_some hb) ha hname
  simp [Session.lookup, hb, hab]

theorem of_eq {t : Session} (h : s.Sound) (hs : t.strings = s.strings) (ht : t.tables = s.tables) : t.Sound :=
  ⟨hs ▸ h.texts, hs ▸ h.names, ht ▸ h.tables⟩

theorem exit (h : s.Sound) (calls : Nat) : (s.exit calls).Sound := h.of_eq rfl rfl

theorem intern (h : s.Sound) (text : String) : (s.intern text).Sound := by
  unfold Session.intern
  cases hl : s.strings.lookup text with
  | some name => exact h
  | none =>
    have hnew : ∀ a ∈ s.strings, text ≠ a.1 := by simpa using List.lookup_eq_none_iff.1 hl
    refine ⟨?_, ?_, h.tables⟩
    · rw [List.map_append, List.nodup_append]
      refine ⟨h.texts, by simp, ?_⟩
      simpa using fun t n ha => (hnew (t, n) ha).symm
    · simp [h.names, List.range_succ]

theorem index (h : s.Sound) (code : Code) : (s.index code).Sound := by
  unfold Session.index
  split
  · exact h
  · refine ⟨h.texts, h.names, fun entry he => ?_⟩
    rcases List.mem_append.1 he with he | he
    · exact h.tables entry he
    · rw [List.mem_singleton.1 he]

theorem prepare (h : s.Sound) (f : Frame) (op : Op) : (s.prepare f op).Sound := by
  unfold Session.prepare
  split
  · exact h.intern _
  · split
    · exact h.index _
    · exact h
  · exact h

end Sound

theorem intern_string (s : Session) (text : String) :
    (text, (s.intern text).lookup.string text) ∈ (s.intern text).strings := by
  have hmem : ∀ (t : Session) (name : String), t.strings.lookup text = some name →
      (text, t.lookup.string text) ∈ t.strings := by
    intro t name hname
    obtain ⟨before, after, heq, -⟩ := List.lookup_eq_some_iff.1 hname
    simp only [Session.lookup, hname, Option.getD_some]
    simp [heq]
  unfold Session.intern
  cases hl : s.strings.lookup text with
  | some name => exact hmem s name hl
  | none =>
    refine hmem _ (toString s.strings.length) ?_
    simp [List.lookup_append, hl]

theorem index_label (h : s.Sound) (code : Code) (l : String) :
    (s.index code).lookup.label code l = code.labelOffset? l := by
  have htable : ∀ (t : Session) (table : List (String × Nat)), t.Sound → t.tables.lookup code = some table →
      t.lookup.label code l = code.labelOffset? l := by
    intro t table ht hl
    obtain ⟨before, after, heq, -⟩ := List.lookup_eq_some_iff.1 hl
    have hright : table = code.labelTable := ht.tables (code, table) (by simp [heq])
    simp only [Session.lookup, hl, Option.bind_some, hright]
    exact Code.lookup_labelsBelow code l code.size
  have hindex := h.index code
  unfold Session.index at hindex ⊢
  cases hl : s.tables.lookup code with
  | some table => exact htable s table h hl
  | none =>
    rw [hl] at hindex
    refine htable _ code.labelTable hindex ?_
    simp [List.lookup_append, hl]

theorem strings_subset_intern (s : Session) (text : String) : s.strings ⊆ (s.intern text).strings := by
  unfold Session.intern
  split
  · exact List.Subset.refl _
  · exact List.subset_append_left _ _

@[simp] theorem strings_index (s : Session) (code : Code) : (s.index code).strings = s.strings := by
  unfold Session.index
  split <;> rfl

theorem strings_subset_prepare (s : Session) (f : Frame) (op : Op) : s.strings ⊆ (s.prepare f op).strings := by
  unfold Session.prepare
  split
  · exact s.strings_subset_intern _
  · split
    · rw [strings_index]
      exact List.Subset.refl _
    · exact List.Subset.refl _
  · exact List.Subset.refl _

theorem depth_prepare (s : Session) (f : Frame) (op : Op) : (s.prepare f op).depth = s.depth := by
  unfold Session.prepare Session.intern Session.index
  repeat' split
  all_goals rfl

end Session

/-- A state of a run in a session whose strings are `p`, and the state it stands for. -/
structure State.Stands (p : List (String × String)) (s t : State) : Prop where
  frames : List.Forall₂ (Frame.Stands p) s.frames t.frames
  heap : s.heap.Stands p t.heap
  out : t.out = s.out

/-- A step in a session and the same step on a new machine. While the run goes on each active call is counted,
and no call is once it has ended in whatever way. -/
inductive Session.Follows : Progress × Session → Progress → Prop
  | running {st t : State} {s : Session} (hs : s.Sound) (hd : s.depth = st.frames.length)
      (h : st.Stands s.strings t) : Follows (.running st, s) (.running t)
  | finished {s : Session} (hs : s.Sound) (hd : s.depth = 0) (out : String) :
      Follows (.finished out, s) (.finished out)
  | failed {s : Session} (hs : s.Sound) (hd : s.depth = 0) (out : String) (e : Fault) :
      Follows (.failed out e, s) (.failed out e)

theorem Fault.within_stands {p : List (String × String)} {f g : Frame} {fs gs : List Frame} (hf : f.Stands p g)
    (hs : List.Forall₂ (Frame.Stands p) fs gs) (e : Fault) (atInstr : Bool) :
    e.within f fs atInstr = e.within g gs atInstr := by
  have hframe : ∀ {f g : Frame}, f.Stands p g → f.title = g.title ∧ f.site = g.site := fun h => by
    obtain ⟨-, -⟩ := h
    exact ⟨rfl, rfl⟩
  have hcallers : fs.map (fun f => [f.title, f.site]) = gs.map (fun g => [g.title, g.site]) :=
    map_eq_of_forall₂ hs fun _ _ h => by rw [(hframe h).1, (hframe h).2]
  simp only [Fault.within, List.flatMap, List.map_reverse, hcallers, hframe hf]

namespace Session

variable {s : Session} {f g : Frame} {fs gs : List Frame} {h h' : Heap}

theorem follows_fault (hs : s.Sound) (hd : s.depth = (f :: fs).length) (out : String) (e : Fault) :
    Follows (.failed out e, s.exit (fs.length + 1)) (.failed out e) :=
  .failed (hs.exit _) (by simp [Session.exit, hd]) out e

theorem leave_follows (hs : s.Sound) (hd : s.depth = (f :: fs).length) (hf : f.Stands s.strings g)
    (hfs : List.Forall₂ (Frame.Stands s.strings) fs gs) (hh : h.Stands s.strings h') (out : String) {v w : Value}
    (hv : v.Stands s.strings w) : Follows (s.leave f fs h out v) (State.leave g gs h' out w) := by
  have hpushes : g.pushesResult = f.pushesResult := by
    obtain ⟨-, -⟩ := hf
    rfl
  have hexit : (s.exit 1).depth = fs.length := by simp [Session.exit, hd]
  unfold Session.leave State.leave
  rw [hpushes]
  cases hfs with
  | nil => exact .finished (hs.exit 1) hexit out
  | @cons f' g' fs gs hfg hfs =>
    dsimp only
    split_ifs
    · have hpush := hfg.push hv
      generalize f'.push v = x at hpush
      generalize g'.push w = y at hpush
      match x, y, hpush with
      | .ok _, .ok _, hfg => exact .running (hs.exit 1) hexit ⟨.cons hfg hfs, hh, rfl⟩
      | .error e, .error _, rfl =>
        dsimp only
        rw [Fault.within_stands hfg hfs]
        exact .failed ((hs.exit 1).exit _) (by simp [Session.exit, hd]) out _
    · exact .running (hs.exit 1) hexit ⟨.cons hfg hfs, hh, rfl⟩

variable {m : Machine}

theorem perform_follows (hs : s.Sound) (hd : s.depth = (f :: fs).length) (hf : f.Stands s.strings g)
    (hfs : List.Forall₂ (Frame.Stands s.strings) fs gs) (hh : h.Stands s.strings h') (out : String) (op : Op) :
    Follows (perform m f fs h out op s) (State.perform m g gs h' out op) := by
  have hsub := s.strings_subset_prepare f op
  have hname : ∀ text, op = .pushString text →
      (text, (s.prepare f op).lookup.string text) ∈ (s.prepare f op).strings := by
    rintro text rfl
    exact s.intern_string text
  have hlabel : ∀ test label f', op = .jump test label → test.decide f = .ok (true, f') →
      (s.prepare f op).lookup.label f.method.code label = f.method.code.labelOffset? label := by
    rintro test label f' rfl htaken
    simp only [Session.prepare, htaken]
    exact index_label hs _ _
  replace hfs := hfs.imp fun _ _ hfg => hfg.mono hsub
  have hprepared := hs.prepare f op
  have hexec := exec_stands (m := m) (hh.mono hsub) hprepared.reads (hf.mono hsub) hprepared.oneToOne op hname hlabel
  replace hd : (s.prepare f op).depth = (f :: fs).length := (s.depth_prepare f op).trans hd
  unfold Session.perform State.perform
  dsimp only
  generalize s.prepare f op = s at *
  generalize m.exec f h op s.lookup = x at hexec
  generalize m.exec g h' op = y at hexec
  match x, y, hexec with
  | .error e, .error _, rfl =>
    obtain ⟨-, -⟩ := hf
    have hwithin := Fault.within_stands (f := { cls := f.cls, method := f.method, pc := f.pc }) ⟨.nil, .nil⟩ hfs e true
    dsimp only at hwithin ⊢
    rw [hwithin]
    exact follows_fault hprepared hd out _
  | .ok _, .ok _, .next hfg hheap printed => exact .running hprepared hd ⟨.cons hfg hfs, hheap, rfl⟩
  | .ok _, .ok _, .call hfg hheap cls code hargs pushes =>
    have hlimit : maxCallDepth ≤ s.depth ↔ maxCallDepth ≤ gs.length + 1 := by
      rw [hd, ← hfs.length_eq]
      exact Int.ofNat_le
    dsimp only
    simp only [hlimit]
    split_ifs
    · rw [Fault.within_stands hfg hfs]
      exact follows_fault hprepared hd out _
    · exact .running (hprepared.of_eq rfl rfl) (by simp [hd]) ⟨.cons (.enter hargs cls code pushes) (.cons hfg hfs), hheap, rfl⟩

/-- One step does the same in a session, whatever it has kept, and keeps the session sound. -/
theorem step_follows (canceled : Bool) {st t : State} (hs : s.Sound) (hd : s.depth = st.frames.length)
    (hst : st.Stands s.strings t) : Follows (s.step m canceled st) (t.step m canceled) := by
  obtain ⟨fs, h, out⟩ := st
  obtain ⟨gs, h', out'⟩ := t
  obtain ⟨hfs, hh, rfl⟩ := hst
  cases hfs with
  | nil => exact .finished hs hd _
  | @cons f g fs gs hf hfs =>
    obtain ⟨hl, hstack⟩ := hf
    obtain ⟨cls, method, locals, vs, pc, steps, pushes⟩ := f
    unfold Session.step State.step
    dsimp only at hl hstack ⊢
    cases method.code[pc]? with
    | none => exact leave_follows hs hd ⟨hl, hstack⟩ hfs hh _ .null
    | some i =>
      have hf : Frame.Stands s.strings ⟨cls, method, locals, vs, pc + 1, steps + 1, pushes⟩ _ := ⟨hl, hstack⟩
      replace hd : s.depth = (⟨cls, method, locals, vs, pc + 1, steps + 1, pushes⟩ :: fs : List Frame).length := hd
      dsimp only
      split_ifs
      · rw [Fault.within_stands hf hfs]
        exact follows_fault hs hd _ _
      · cases i.op with
        | ret => exact leave_follows hs hd hf hfs hh _ .null
        | retRef =>
          cases hstack with
          | nil =>
            dsimp only
            rw [Fault.within_stands hf hfs]
            exact follows_fault hs hd _ _
          | cons hv _ => exact leave_follows hs hd hf hfs hh _ hv
        | _ => exact perform_follows hs hd hf hfs hh _ _

/-- A session in which no call is active. -/
structure Idle (s : Session) : Prop where
  sound : s.Sound
  depth : s.depth = 0

theorem Idle.fresh : Idle {} := ⟨.fresh, rfl⟩

theorem run_follows (canceled : Bool) (fuel : Nat) {st t : State} (hs : s.Sound) (hd : s.depth = st.frames.length)
    (hst : st.Stands s.strings t) :
    (s.run m canceled fuel st).1 = t.run m canceled fuel ∧ ∀ s' ∈ (s.run m canceled fuel st).2, s'.Idle := by
  induction fuel generalizing s st t with
  | zero => exact ⟨by rw [Session.run, State.run, hst.out], nofun⟩
  | succ fuel ih =>
    have hstep := step_follows (m := m) canceled hs hd hst
    unfold Session.run State.run
    generalize s.step m canceled st = x at hstep
    generalize t.step m canceled = y at hstep
    cases hstep with
    | running hs hd hst => exact ih hs hd hst
    | finished hs hd out => exact ⟨rfl, fun s' he => Option.some.inj he ▸ ⟨hs, hd⟩⟩
    | failed hs hd out e => exact ⟨rfl, fun s' he => Option.some.inj he ▸ ⟨hs, hd⟩⟩

/-- A call in an idle session does what it does on a new machine, and leaves an idle session. -/
theorem Idle.call (hs : s.Idle) (m : Machine) (canceled : Bool) (fuel : Nat) (entry : String) :
    (s.call m canceled fuel entry).1 = m.run canceled fuel entry ∧
      ∀ s' ∈ (s.call m canceled fuel entry).2, s'.Idle := by
  unfold Session.call Machine.run
  cases hstart : m.start (if entry.isEmpty then "Main" else entry) with
  | error e => exact ⟨rfl, fun s' he => Option.some.inj he ▸ hs⟩
  | ok st =>
    have hlimit : ¬ (maxCallDepth : Int) ≤ s.depth := by
      rw [hs.depth]
      decide
    obtain ⟨code, cls, rfl⟩ : ∃ code cls, st = { frames := [Frame.enter cls code [.null] false] } := by
      unfold Machine.start at hstart
      split at hstart
      · cases hstart
      · split at hstart
        · cases hstart
        · exact ⟨_, _, (Except.ok.inj hstart).symm⟩
    simp only [hlimit, if_false]
    exact run_follows canceled fuel (hs.sound.of_eq rfl rfl) (by simp [hs.depth])
      ⟨.cons (.enter (.cons .null .nil) cls code false) .nil, .nil, rfl⟩

/-- The sessions that calls on one machine lead to, each call started when the one before has come back. -/
inductive Reached (m : Machine) : Session → Prop
  | fresh : Reached m {}
  | call {s s' : Session} (h : Reached m s) (canceled : Bool) (fuel : Nat) (entry : String)
      (hs : (s.call m canceled fuel entry).2 = some s') : Reached m s'

theorem Reached.idle (h : s.Reached m) : s.Idle := by
  induction h with
  | fresh => exact .fresh
  | call _ canceled fuel entry hs ih => exact (ih.call m canceled fuel entry).2 _ hs

/-- Whatever was called before, and however those calls ended, a call prints and ends as on a new machine. -/
theorem Reached.call_eq_fresh (h : s.Reached m) (canceled : Bool) (fuel : Nat) (entry : String) :
    (s.call m canceled fuel entry).1 = (Session.call m canceled fuel entry {}).1 ∧
      (s.call m canceled fuel entry).1 = m.run canceled fuel entry :=
  ⟨(h.idle.call m canceled fuel entry).1.trans (Idle.fresh.call m canceled fuel entry).1.symm,
    (h.idle.call m canceled fuel entry).1⟩

end Session

namespace DividedText

def program : Program where
  file := "sample"
  classes := [{
    token := {}
    name := ⟨{}, "Main"⟩
    constructor := some {
      token := {}
      name := ⟨{}, "Main"⟩
      body := [.print {} (.string {} "a"), .print {} (.binary {} .div (.int {} 1) (.int {} 0))] } }]

theorem accepted : (program.check "Main").issues = [] := by decide

/-- A run that printed and failed as it should, and what its session keeps. -/
def failsAfterPrinting : Outcome × Option Session → Bool
  | (.failed out e, some s) => out = "a" && e.cause = .divisionByZero && s.strings.map (·.1) = ["a"]
  | _ => false

theorem compiled : ∃ files, Program.compile {} (program.check "Main").decl (program.check "Main").decl = .ok files ∧
    ∃ s e, Session.call (Machine.load files) false 40 "Main" {} = (.failed "a" e, some s) ∧
      e.cause = .divisionByZero ∧ s.strings.map (·.1) = ["a"] := by
  have hc : (Program.compile {} (program.check "Main").decl (program.check "Main").decl).toOption.any (fun files =>
      failsAfterPrinting (Session.call (Machine.load files) false 40 "Main" {})) = true := by decide +kernel
  cases hf : Program.compile {} (program.check "Main").decl (program.check "Main").decl with
  | error e => simp [hf, Except.toOption] at hc
  | ok files =>
    refine ⟨files, rfl, ?_⟩
    simp only [hf, Except.toOption, Option.any_some] at hc
    unfold failsAfterPrinting at hc
    split at hc
    · next out e s hcall =>
      simp only [Bool.and_eq_true, decide_eq_true_eq] at hc
      obtain ⟨⟨rfl, he⟩, hs⟩ := hc
      exact ⟨s, e, hcall, he, hs⟩
    · cases hc

end DividedText

theorem Session.call_eq_fresh_after_fault : ∃ files s e, (DividedText.program.check "Main").issues = [] ∧
    Program.compile {} (DividedText.program.check "Main").decl (DividedText.program.check "Main").decl = .ok files ∧
      Session.call (Machine.load files) false 40 "Main" {} = (.failed "a" e, some s) ∧ e.cause = .divisionByZero ∧
      s.strings.map (·.1) = ["a"] ∧ (s.call (Machine.load files) false 40 "Main").1 = .failed "a" e := by
  obtain ⟨files, hf, s, e, hcall, he, hs⟩ := DividedText.compiled
  have hagain := Reached.call_eq_fresh (.call .fresh false 40 "Main" (congrArg Prod.snd hcall)) false 40 "Main"
  exact ⟨files, s, e, DividedText.accepted, hf, hcall, he, hs, hagain.1.trans (congrArg Prod.fst hcall)⟩

end ClassCompiler
