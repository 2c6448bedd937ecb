import ClassCompiler.Proofs.Typing.Alike
import ClassCompiler.Proofs.Typing.Clean

namespace ClassCompiler

variable {hasClass : String → Bool}

theorem VarDecl.Clean.checkAll {vs : List VarDecl} (h : ∀ v ∈ vs, v.Clean hasClass) :
    (VarDecl.checkAll hasClass vs).issues = [] :=
  List.flatMap_eq_nil_iff.2 h

theorem MethodDecl.checkVars_of_clean {m : MethodDecl} (h : ∀ v ∈ m.args ++ m.locals, v.Clean hasClass) :
    (m.checkVars hasClass).issues = [] := by
  rw [MethodDecl.checkVars, List.append_eq_nil_iff]
  exact ⟨VarDecl.Clean.checkAll fun v hv => h v (by simp [hv]), VarDecl.Clean.checkAll fun v hv => h v (by simp [hv])⟩

theorem MethodDecl.ResultClean.checkResult {m : MethodDecl} (h : m.ResultClean hasClass) :
    (m.checkResult hasClass).issues = [] := by
  unfold MethodDecl.checkResult
  cases hr : m.returnType with
  | none => rfl
  | some t => exact h t hr

theorem MethodDecl.BodyClean.checkConstructor {cls : String} {table : MethodDecl → Program} {m : MethodDecl}
    (hn : m.name.name = cls) (h : m.BodyClean (table m) cls) : (m.checkConstructor cls table).issues = [] := by
  have hv := MethodDecl.checkVars_of_clean h.vars
  simp only [MethodDecl.checkConstructor, hv, (MethodDecl.checkVars_clean hv).1, hn, h.body]
  simp

theorem MethodDecl.Clean.checkMethod {cls : String} {table : MethodDecl → Program} {m : MethodDecl}
    (h : m.Clean (table m) cls) : (m.checkMethod cls table).issues = [] := by
  have hr := h.result.checkResult
  have hv := MethodDecl.checkVars_of_clean h.vars
  have hb := h.body
  simp only [MethodDecl.checkMethod, hr, (MethodDecl.checkResult_clean hr).1, hv, (MethodDecl.checkVars_clean hv).1, hb]
  rcases h.returns with he | he <;> simp [he]

theorem checkMethods_of_clean {cls : String} {table : List MethodDecl → Program} {done ms : List MethodDecl}
    (h : ∀ m ∈ ms, m.Clean (table (done ++ ms)) cls) : (checkMethods cls table done ms).issues = [] := by
  induction ms generalizing done with
  | nil => rfl
  | cons m ms ih =>
    have hm : (m.checkMethod cls fun m' => table (done ++ m' :: ms)).issues = [] :=
      MethodDecl.Clean.checkMethod (h m (by simp))
    simp only [checkMethods, hm, (MethodDecl.checkMethod_clean hm).1, List.nil_append]
    exact ih fun m' hm' => by simpa using h m' (by simp [hm'])

theorem ClassDecl.MembersClean.checkMembers {table : ClassDecl → Program} {c : ClassDecl}
    (h : c.MembersClean (table c)) : (c.checkMembers table).issues = [] := by
  obtain ⟨token, name, parent, fields, ctor, methods⟩ := c
  have hf := VarDecl.Clean.checkAll h.fields
  have hms : (checkMethods name.name (fun ms => table ⟨token, name, parent, fields, ctor, ms⟩) [] methods).issues = [] :=
    checkMethods_of_clean h.methods
  simp only [ClassDecl.checkMembers, (VarDecl.checkAll_clean hf).1, hf]
  cases ctor with
  | none => simpa using hms
  | some k =>
    obtain ⟨hn, hb⟩ := h.constructor k rfl
    have hk : (k.checkConstructor name.name fun k' => table ⟨token, name, parent, fields, some k', methods⟩).issues = [] :=
      MethodDecl.BodyClean.checkConstructor hn hb
    simp only [hk, (MethodDecl.checkConstructor_clean hk).1]
    simpa using hms

theorem checkClasses_of_clean {file entry : String} {done cs : List ClassDecl}
    (h : ∀ c ∈ cs, c.Clean entry { file, classes := done ++ cs }) :
    (checkClasses file entry done cs).issues = [] := by
  induction cs generalizing done with
  | nil => rfl
  | cons c cs ih =>
    have hc := h c (by simp)
    have hm : (c.checkMembers fun c' => { file, classes := done ++ c' :: cs }).issues = [] :=
      ClassDecl.MembersClean.checkMembers hc.toMembersClean
    simp only [checkClasses, hc.head, hm, (ClassDecl.checkMembers_clean hm).1, List.nil_append]
    exact ih fun c' hc' => by simpa using h c' (by simp [hc'])

/-- A check reports nothing exactly if each class is clean against the whole program. -/
theorem Program.check_issues_eq_nil_iff {entry : String} {p : Program} :
    (p.check entry).issues = [] ↔ p.Clean entry := by
  refine ⟨fun h => (Program.check_clean h).2, fun h => ?_⟩
  have hcs : (checkClasses p.file entry [] p.classes).issues = [] := checkClasses_of_clean h.classes
  simpa [Program.check, hcs] using h.entry

section

variable {p q : Program} (h : p.Alike q)

include h

theorem MethodDecl.BodyClean.alike {cls : String} {m : MethodDecl} (hm : m.BodyClean p cls) : m.BodyClean q cls :=
  ⟨h.hasClass ▸ hm.vars, by rw [← Context.bodyIssues_alike h]; exact hm.body⟩

theorem ClassDecl.Clean.alike {entry : String} {c : ClassDecl} (hc : c.Clean entry p) : c.Clean entry q where
  fields := h.hasClass ▸ hc.fields
  constructor m hm := ⟨(hc.constructor m hm).1, (hc.constructor m hm).2.alike h⟩
  methods m hm := ⟨(hc.methods m hm).toBodyClean.alike h, h.hasClass ▸ (hc.methods m hm).result, (hc.methods m hm).returns⟩
  head := h.hasClass ▸ hc.head

/-- Of two programs with the same classes in different order both are clean or none. -/
theorem Program.Clean.alike {entry : String} (hp : p.Clean entry) (hm : ∀ c, c ∈ p.classes ↔ c ∈ q.classes) :
    q.Clean entry where
  classes c hc := (hp.classes c ((hm c).2 hc)).alike h
  entry := by
    obtain ⟨c, hc, hn⟩ := hp.entry
    exact ⟨c, (hm c).1 hc, hn⟩

end

end ClassCompiler
