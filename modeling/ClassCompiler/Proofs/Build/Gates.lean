import ClassCompiler.Files.Store
import ClassCompiler.Proofs.Tree.Written

namespace ClassCompiler

/-- What is left of a stage when the build failed before. -/
def Stage.afterFailure {m : Type → Type} : Stage m → Build → Build
  | .decode, b => b.decode
  | .check, b => b.check
  | .generate, b => b
  | .write _ _, b => b
  | .run, b => b

theorem Sink.addAll_hasErrors {s : Sink} (h : s.hasErrors = true) (ds : List Diagnostic) :
    (s.addAll ds).hasErrors = true := by
  induction ds generalizing s with
  | nil => exact h
  | cons d ds ih =>
    refine ih ?_
    unfold add push
    split
    · simp [hasErrors]
    · exact h

namespace Build

/-- A build that failed came to one that failed too, with the same class files and the same error, if any. -/
structure StaysFailed (b b' : Build) : Prop where
  failed : b'.failed = true
  files : b'.files = b.files
  error : ∀ e, b.error = some e → b'.error = some e

theorem StaysFailed.refl {b : Build} (h : b.failed = true) : b.StaysFailed b := ⟨h, rfl, fun _ he => he⟩

theorem StaysFailed.trans {a b c : Build} (h : a.StaysFailed b) (h' : b.StaysFailed c) : a.StaysFailed c :=
  ⟨h'.failed, h'.files.trans h.files, fun e he => h'.error e (h.error e he)⟩

theorem failed_eq_true {b : Build} :
    b.failed = true ↔ b.error.isSome = true ∨ b.errors ≠ [] ∨ b.sink.hasErrors = true := by
  simp [failed, or_assoc]

theorem delivers_of_failed {b : Build} (h : b.failed = true) : b.delivers = false := by simp [delivers, h]

/-- An error stops the reading. Without one, a program that is read changes nothing that a failure is told by. -/
theorem decode_staysFailed {b : Build} (h : b.failed = true) : b.StaysFailed b.decode := by
  unfold decode
  split
  · exact .refl h
  · next hnone =>
    have herror : b.error = none := by simpa using hnone
    split
    · exact ⟨h, rfl, fun _ he => he⟩
    · exact ⟨failed_eq_true.2 (.inl rfl), rfl, fun e he => by simp [herror] at he⟩

theorem check_staysFailed {b : Build} (h : b.failed = true) : b.StaysFailed b.check := by
  unfold check
  split
  · exact .refl h
  · refine ⟨failed_eq_true.2 ?_, rfl, fun _ he => he⟩
    rcases failed_eq_true.1 h with he | he | he
    · exact .inl he
    · exact .inr (.inl (List.append_ne_nil_of_left_ne_nil he _))
    · exact .inr (.inr (Sink.addAll_hasErrors he _))

theorem generate_of_failed {b : Build} (h : b.failed = true) : b.generate = b := by
  unfold generate
  split
  · rfl
  · rw [if_pos h]

end Build

theorem Stage.staysFailed {m : Type → Type} (s : Stage m) {b : Build} (h : b.failed = true) :
    b.StaysFailed (s.afterFailure b) := by
  cases s with
  | decode => exact Build.decode_staysFailed h
  | check => exact Build.check_staysFailed h
  | generate => exact .refl h
  | write dir keep => exact .refl h
  | run => exact .refl h

section

variable {m : Type → Type} [Monad m] [LawfulMonad m] (h : Host m)

/-- One stage after a failure asks nothing of the host. -/
theorem Host.stage_of_failed (s : Stage m) {b : Build} (hb : b.failed = true) : h.stage s b = pure (s.afterFailure b) := by
  have hdelivers := Build.delivers_of_failed hb
  cases s with
  | decode => rfl
  | check => rfl
  | generate => exact congrArg pure (Build.generate_of_failed hb)
  | write dir keep => simp [stage, writeBuild, hdelivers, Stage.afterFailure]
  | run => simp [stage, runBuild, hdelivers, Stage.afterFailure]

theorem Host.stages_of_failed (ss : List (Stage m)) {b : Build} (hb : b.failed = true) :
    h.stages ss b = pure (ss.foldl (fun b s => s.afterFailure b) b) ∧
      b.StaysFailed (ss.foldl (fun b s => s.afterFailure b) b) := by
  induction ss generalizing b with
  | nil => exact ⟨rfl, .refl hb⟩
  | cons s ss ih =>
    have hs := s.staysFailed hb
    obtain ⟨hrest, hstays⟩ := ih hs.failed
    refine ⟨?_, hs.trans hstays⟩
    rw [stages, h.stage_of_failed s hb, pure_bind, hrest]
    rfl

theorem Host.stages_append (ss ts : List (Stage m)) (b : Build) :
    h.stages (ss ++ ts) b = h.stages ss b >>= h.stages ts := by
  induction ss generalizing b with
  | nil => simp [stages]
  | cons s ss ih => simp [stages, ih]

/-- Stages in any order, with any repetitions: whenever the build has failed, those that follow come down to
reading and checking without the host, which neither writes, keeps, runs nor prints anything. The build stays
failed, and neither its class files nor its error change. -/
theorem failure_gates_stages (before after : List (Stage m)) (b : Build) :
    (h.stages (before ++ after) b = do
      let b ← h.stages before b
      if b.failed then pure (after.foldl (fun b s => s.afterFailure b) b) else h.stages after b) ∧
    ∀ (b : Build) (ss : List (Stage m)), b.failed = true →
      b.StaysFailed (ss.foldl (fun b s => s.afterFailure b) b) := by
  refine ⟨?_, fun b ss hb => (h.stages_of_failed ss hb).2⟩
  rw [h.stages_append]
  refine congrArg _ (funext fun b => ?_)
  split
  · next hb => exact (h.stages_of_failed after hb).1
  · rfl

end

namespace Sample

/-- A build of the sample for an entry class that it does not have. -/
def build : Build := .start "sample" source (some { entry := "Other" })

/-- What the sample comes to when it is read and checked. -/
def checked : Build := ({ build with program := some program } : Build).check

theorem decode_build : build.decode = { build with program := some program } := by
  rw [Build.decode, if_neg (by decide)]
  split
  · next p hp =>
    obtain rfl := Except.ok.inj (hp.symm.trans decode_source)
    rfl
  · next e he => cases he.symm.trans decode_source

theorem checked_failed : checked.failed = true := Build.failed_eq_true.2 (.inr (.inr (by decide)))

def later : List (Stage (StateM World)) :=
  [.generate, .write "out" (fun _ => .mk fun w => (.error { problem := .noCache }, { w with out := "kept" })), .run, .check]

end Sample

/-- Nothing is written, kept or run, and a second check only adds to the diagnostics. -/
theorem failure_gates_stages_sample : ∃ b : Build,
    (World.host 100).stages [.decode, .check] Sample.build = pure Sample.checked ∧ Sample.checked.failed = true ∧
      (World.host 100).stages ([.decode, .check] ++ Sample.later) Sample.build = pure b ∧ Sample.checked.StaysFailed b := by
  obtain ⟨hstages, hstays⟩ := failure_gates_stages (World.host 100) [.decode, .check] Sample.later Sample.build
  have hfirst : (World.host 100).stages [.decode, .check] Sample.build = pure Sample.checked :=
    congrArg (fun b : Build => (pure b.check : StateM World Build)) Sample.decode_build
  refine ⟨_, hfirst, Sample.checked_failed, ?_, hstays _ Sample.later Sample.checked_failed⟩
  rw [hstages, hfirst, pure_bind, if_pos Sample.checked_failed]

end ClassCompiler
