import ClassCompiler.CommandLine
import ClassCompiler.Proofs.Compile.Relabel
import ClassCompiler.Proofs.Typing.Accepted

namespace ClassCompiler

def Generates (p : Project) (tree source : String) (units : List ClassFile) : Prop :=
  ∃ prog, Program.decode tree (Octets.toUnicode source) = .ok prog ∧ (prog.check p.options.entry).issues = [] ∧
    prog.compile p.options prog = .ok units

/-- The texts of the class files of a source that is accepted. -/
def Renders (p : Project) (tree source : String) (files : List (String × String)) : Prop :=
  ∃ units, Generates p tree source units ∧ units ≠ [] ∧ files = renderFiles units

theorem Program.decode_elsewhere {file text : String} {p : Program} (h : Program.decode file text = .ok p)
    (file' : String) : Program.decode file' text = .ok { p with file := file' } := by
  unfold Program.decode at h ⊢
  cases hr : Yaml.readDocument text.toList with
  | error e => simp [hr] at h
  | ok r =>
    cases r with
    | none =>
      simp only [hr, Except.ok.injEq] at h
      subst h
      rfl
    | some root =>
      simp only [hr, Program.ofNode] at h ⊢
      split at h
      · next hk =>
        obtain ⟨cs, hcs, hp⟩ := bind_eq_ok.1 h
        rw [if_pos hk, hcs]
        obtain rfl := pure_eq_ok.1 hp
        rfl
      · cases h

theorem MethodCode.relabel_id : MethodCode.relabel id = id := by
  have hinstr : Instr.relabel id = id := funext fun ⟨op, line⟩ => by cases op <;> rfl
  funext m
  simp [MethodCode.relabel, hinstr]

theorem ClassFile.relabel_id (c : ClassFile) : c.relabel id = c := by
  simp [ClassFile.relabel, MethodCode.relabel_id]

variable {p q : Program} {o : CompileOptions}

theorem compileClasses_alike (h : p.Alike q) (cs : List ClassDecl) (s : Supply) :
    o.compileClasses q cs s = o.compileClasses p cs s := by
  have hclass (c : ClassDecl) (s : Supply) : o.compileClass q c s = o.compileClass p c s := by
    have hs := compileClass_shifts (o := o) (c := c) (f := id) (d := 0) (fun _ => rfl) h s
    simp only [Supply.shift, Nat.add_zero, ClassFile.relabel_id] at hs
    rw [hs]
    cases o.compileClass p c s <;> rfl
  induction cs generalizing s with
  | nil => rfl
  | cons c cs ih =>
    simp only [CompileOptions.compileClasses, Bind.bind, StateT.bind, Gen.within, hclass]
    cases o.compileClass p c s with
    | error e => rfl
    | ok r => simp only [Except.bind, ih]

theorem Program.compile_congr (h : p.classes = q.classes) : q.compile o q = p.compile o p := by
  unfold Program.compile
  rw [compileClasses_alike (alike_of_classes h), h]

/-- The same is generated wherever the source lies and whatever other settings say. -/
theorem Generates.congr {p q : Project} {tree source : String} {units : List ClassFile}
    (h : Generates p tree source units) (tree' : String) (he : q.entry = p.entry) (hs : q.stack = p.stack)
    (hl : q.locals = p.locals) : Generates q tree' source units := by
  obtain ⟨prog, hd, ha, hc⟩ := h
  have ho : q.options = p.options := by rw [Project.options, Project.options, he, hs, hl]
  refine ⟨{ prog with file := tree' }, Program.decode_elsewhere hd tree', ?_, ?_⟩
  · rw [ho]
    rw [Program.check_issues_eq_nil_iff] at ha ⊢
    exact ha.alike (p := prog) (q := { prog with file := tree' }) (Program.alike_of_classes rfl) fun c => Iff.rfl
  · rw [ho, ← hc]
    exact Program.compile_congr (p := prog) rfl

theorem Generates.unique {p : Project} {tree source : String} {units units' : List ClassFile}
    (h : Generates p tree source units) (h' : Generates p tree source units') : units = units' := by
  obtain ⟨prog, hd, -, hc⟩ := h
  obtain ⟨prog', hd', -, hc'⟩ := h'
  obtain rfl := Except.ok.inj (hd.symm.trans hd')
  exact Except.ok.inj (hc.symm.trans hc')

theorem Renders.congr {p q : Project} {tree source : String} {files : List (String × String)}
    (h : Renders p tree source files) (tree' : String) (he : q.entry = p.entry) (hs : q.stack = p.stack)
    (hl : q.locals = p.locals) : Renders q tree' source files := by
  obtain ⟨units, hg, hne, rfl⟩ := h
  exact ⟨units, hg.congr tree' he hs hl, hne, rfl⟩

theorem Renders.unique {p : Project} {tree source : String} {files files' : List (String × String)}
    (h : Renders p tree source files) (h' : Renders p tree source files') : files = files' := by
  obtain ⟨units, hg, -, rfl⟩ := h
  obtain ⟨units', hg', -, rfl⟩ := h'
  rw [hg.unique hg']

theorem Sink.size_addAll {s : Sink} (hs : s.keeps = true) (ds : List Diagnostic) :
    (s.addAll ds).size = s.size + ds.length := by
  unfold Sink.addAll
  induction ds generalizing s with
  | nil => rfl
  | cons d ds ih =>
    have hadd : (s.add d).keeps = true ∧ (s.add d).size = s.size + 1 := by simp [Sink.add, Sink.push, hs, Sink.size]
    rw [List.foldl_cons, ih hadd.1, hadd.2, List.length_cons]
    omega

theorem Sink.hasErrors_addAll (file : String) (ds : List Diagnostic) :
    (Sink.addAll { file } ds).hasErrors = !ds.isEmpty := by
  have h := Sink.size_addAll (s := { file }) rfl ds
  unfold Sink.hasErrors
  cases ds with
  | nil => rfl
  | cons d ds =>
    simp only [Sink.size, List.length_nil, List.length_cons] at h
    cases he : (Sink.addAll { file } (d :: ds)).entries with
    | nil => simp [he] at h
    | cons x xs => rfl

namespace Build

def made (p : Project) (tree source : String) : Build :=
  (Build.start tree (Octets.toUnicode source) (some p)).decode.check.generate

variable {p : Project} {tree source : String}

theorem entry_of_project {b : Build} (h : b.project = some p) : b.entry = p.options.entry := by
  simp [Build.entry, h, Project.options, CompileOptions.ofSettings]

theorem made_delivers_of_clean {prog : Program} (h : Program.decode tree (Octets.toUnicode source) = .ok prog)
    (ha : (prog.check p.options.entry).issues = []) {units : List ClassFile} :
    (made p tree source).delivers = true ∧ (made p tree source).files = units ↔
      prog.compile p.options prog = .ok units ∧ units ≠ [] := by
  have hdecl := (Program.check_clean ha).1
  cases hc : prog.compile p.options prog with
  | error e =>
    simp [made, start, decode, check, generate, h, delivers, failed, entry_of_project (p := p), ha, hdecl,
      Sink.addAll, Sink.hasErrors, Sink.sorted, compiled, options, hc]
  | ok files =>
    have hfiles : files ≠ [] ∧ files = units ↔ files = units ∧ units ≠ [] :=
      ⟨fun ⟨hne, he⟩ => ⟨he, he ▸ hne⟩, fun ⟨he, hne⟩ => ⟨he ▸ hne, he⟩⟩
    simpa [made, start, decode, check, generate, h, delivers, failed, entry_of_project (p := p), ha, hdecl,
      Sink.addAll, Sink.hasErrors, Sink.sorted, compiled, options, hc] using hfiles

/-- A build delivers what is generated from its source, if anything is. -/
theorem made_delivers_iff {units : List ClassFile} : (made p tree source).delivers = true ∧
    (made p tree source).files = units ↔ Generates p tree source units ∧ units ≠ [] := by
  cases hd : Program.decode tree (Octets.toUnicode source) with
  | error e =>
    have hnot : (made p tree source).delivers = false := by
      simp [made, start, decode, check, generate, hd, delivers, failed]
    simp [hnot, Generates, hd]
  | ok prog =>
    by_cases ha : (prog.check p.options.entry).issues = []
    · rw [made_delivers_of_clean hd ha, and_congr_left_iff]
      refine fun _ => ⟨fun hc => ⟨prog, hd, ha, hc⟩, fun ⟨prog', hd', _, hc⟩ => ?_⟩
      rwa [Except.ok.inj (hd.symm.trans hd')]
    · have hnot : (made p tree source).delivers = false := by
        have hsink := Sink.hasErrors_addAll tree (prog.check p.options.entry).issues
        rw [List.isEmpty_eq_false_iff.2 ha] at hsink
        simp [made, start, decode, check, generate, hd, delivers, failed, entry_of_project (p := p), hsink]
      simp [hnot, Generates, hd, ha]

theorem renders_of_delivers (h : (made p tree source).delivers = true) :
    Renders p tree source (renderFiles (made p tree source).files) := by
  obtain ⟨hg, hne⟩ := made_delivers_iff.1 ⟨h, rfl⟩
  exact ⟨_, hg, hne, rfl⟩

theorem delivers_of_renders {files : List (String × String)} (h : Renders p tree source files) :
    (made p tree source).delivers = true ∧ renderFiles (made p tree source).files = files := by
  obtain ⟨units, hg, hne, rfl⟩ := h
  obtain ⟨hdel, hfiles⟩ := made_delivers_iff.2 ⟨hg, hne⟩
  exact ⟨hdel, by rw [hfiles]⟩

def withProject (b : Build) (p : Project) : Build := { b with project := some p }

theorem decode_withProject (b : Build) (p : Project) : (b.withProject p).decode = b.decode.withProject p := by
  unfold decode withProject
  dsimp only
  split
  · rfl
  · split <;> rfl

theorem check_withProject {b : Build} (h : (b.withProject p).entry = b.entry) :
    (b.withProject p).check = b.check.withProject p := by
  unfold check
  rw [h]
  cases hb : b.program <;> simp [withProject, hb]

theorem generate_withProject {b : Build} (h : (b.withProject p).options = b.options) :
    (b.withProject p).generate = b.generate.withProject p := by
  have hprogram : (b.withProject p).program = b.program := rfl
  have hfailed : (b.withProject p).failed = b.failed := rfl
  have hcompiled (o : CompileOptions) (prog : Program) : (b.withProject p).compiled o prog = b.compiled o prog := rfl
  unfold generate
  rw [h, hprogram, hfailed]
  cases b.program with
  | none => rfl
  | some prog =>
    cases b.failed with
    | true => rfl
    | false =>
      simp only [hcompiled]
      cases b.compiled b.options prog <;> rfl

theorem delivers_clean {b : Build} (h : b.delivers = true) : b.error = none ∧ b.errors = [] := by
  simp only [delivers, failed, Bool.and_eq_true, Bool.not_eq_true', Bool.or_eq_false_iff] at h
  exact ⟨by simpa using h.1.1.1, by simpa using h.1.1.2⟩

theorem made_file (p : Project) (tree source : String) : (made p tree source).file = tree := by
  have hcheck (b : Build) : b.check.file = b.file := by
    unfold check
    split <;> rfl
  have hgenerate (b : Build) : b.generate.file = b.file := by
    unfold generate
    split
    · rfl
    · split
      · rfl
      · split <;> rfl
  have hdecode (b : Build) : b.decode.file = b.file := by
    unfold decode
    split
    · rfl
    · split <;> rfl
  rw [made, hgenerate, hcheck, hdecode]
  rfl

theorem decode_project (b : Build) : b.decode.project = b.project := by
  unfold decode
  split
  · rfl
  · split <;> rfl

theorem check_project (b : Build) : b.check.project = b.project := by
  unfold check
  split <;> rfl

theorem generate_project (b : Build) : b.generate.project = b.project := by
  unfold generate
  split
  · rfl
  · split
    · rfl
    · split <;> rfl

theorem made_project (p : Project) (tree source : String) : (made p tree source).project = some p := by
  rw [made, generate_project, check_project, decode_project]
  rfl

/-- Settings that generated code does not depend on are kept and nothing else. -/
theorem made_congr {q : Project} (h : q.options = p.options) (tree source : String) :
    made q tree source = (made p tree source).withProject q := by
  have hstart : start tree (Octets.toUnicode source) (some q) =
      (start tree (Octets.toUnicode source) (some p)).withProject q := rfl
  have hp : (start tree (Octets.toUnicode source) (some p)).decode.project = some p := decode_project _
  unfold made
  rw [hstart, decode_withProject, check_withProject, generate_withProject]
  · simp [options, withProject, check_project, hp, h]
  · rw [entry_of_project hp, entry_of_project (p := q) rfl, h]

end Build

end ClassCompiler
