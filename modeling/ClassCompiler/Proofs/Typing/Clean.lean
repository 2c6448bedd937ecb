import ClassCompiler.Typing.Program
import ClassCompiler.Tree.Subterms
import Mathlib.Tactic.Common

namespace ClassCompiler

variable {hasClass : String → Bool} {pos : Pos} {name : String}

theorem Ty.isRepeated_eq_false_of_firstRepeated? {elems : List (String × Ty)}
    (h : Ty.firstRepeated? elems = none) {e : String × Ty} (he : e ∈ elems) :
    Ty.isRepeated elems e.1 = false := by
  simp only [Ty.firstRepeated?, Option.map_eq_none_iff, List.find?_eq_none] at h
  simpa using h e he

mutual

theorem Ty.withoutRepeated_eq_self (t : Ty) (h : t.issues hasClass pos name = []) :
    t.withoutRepeated = t := by
  match t with
  | .int | .bool | .string | .null | .void | .noType | .cls _ => simp [Ty.withoutRepeated]
  | .fptr ps r =>
    simp only [Ty.issues, List.append_eq_nil_iff] at h
    simp only [Ty.withoutRepeated, Ty.withoutRepeatedAll_eq_self ps h.1,
      Ty.withoutRepeated_eq_self r h.2]
  | .list [] => simp [Ty.issues] at h
  | .list (e :: es) =>
    simp only [Ty.issues, List.append_eq_nil_iff] at h
    obtain ⟨⟨hr, he⟩, hes⟩ := h
    have hn : Ty.firstRepeated? (e :: es) = none := by
      cases hf : Ty.firstRepeated? (e :: es) with
      | none => rfl
      | some n => simp [hf] at hr
    have hrep : ∀ x ∈ e :: es, Ty.isRepeated (e :: es) x.1 = false :=
      fun x hx => Ty.isRepeated_eq_false_of_firstRepeated? hn hx
    obtain ⟨n, t⟩ := e
    simp only [Ty.withoutRepeated, Ty.withoutRepeatedElems, hrep (n, t) (by simp),
      Ty.withoutRepeated_eq_self t he,
      Ty.withoutRepeatedElems_eq_self es (fun x hx => hrep x (by simp [hx])) hes]
    simp

theorem Ty.withoutRepeatedAll_eq_self (ts : List Ty)
    (h : Ty.issuesOfAll hasClass pos name ts = []) : Ty.withoutRepeatedAll ts = ts := by
  match ts with
  | [] => rfl
  | t :: ts =>
    simp only [Ty.issuesOfAll, List.append_eq_nil_iff] at h
    simp only [Ty.withoutRepeatedAll, Ty.withoutRepeated_eq_self t h.1,
      Ty.withoutRepeatedAll_eq_self ts h.2]

theorem Ty.withoutRepeatedElems_eq_self {repeated : String → Bool} (es : List (String × Ty))
    (hr : ∀ e ∈ es, repeated e.1 = false)
    (h : Ty.issuesOfElems hasClass pos name es = []) : Ty.withoutRepeatedElems repeated es = es := by
  match es with
  | [] => rfl
  | (n, t) :: es =>
    simp only [Ty.issuesOfElems, List.append_eq_nil_iff] at h
    simp only [Ty.withoutRepeatedElems, hr (n, t) (by simp), Ty.withoutRepeated_eq_self t h.1,
      Ty.withoutRepeatedElems_eq_self es (fun e he => hr e (by simp [he])) h.2]
    simp

end

theorem Ty.firstRepeated?_eq_none {elems : List (String × Ty)} :
    Ty.firstRepeated? elems = none ↔ (elems.any fun e => Ty.isRepeated elems e.1) = false := by
  rw [Ty.firstRepeated?, Option.map_eq_none_iff, List.find?_eq_none, List.any_eq_false]

mutual

/-- The check of a declared type passes exactly if it reports nothing. -/
theorem Ty.passes_iff (t : Ty) : t.passes hasClass = true ↔ t.issues hasClass pos name = [] := by
  match t with
  | .int | .bool | .string | .null | .void | .noType => simp [Ty.passes, Ty.issues]
  | .cls c => cases h : hasClass c <;> simp [Ty.passes, Ty.issues, h]
  | .fptr ps r =>
    rw [Ty.passes, Ty.issues, Bool.and_eq_true, List.append_eq_nil_iff, Ty.passesAll_iff ps, Ty.passes_iff r]
  | .list [] => simp [Ty.passes, Ty.issues]
  | .list (e :: es) =>
    rw [Ty.passes, Ty.issues, Bool.and_eq_true, Bool.and_eq_true, Bool.not_eq_true', ← Ty.firstRepeated?_eq_none,
      Ty.passes_iff e.2, Ty.passesElems_iff es, List.append_eq_nil_iff, List.append_eq_nil_iff]
    -- The names come first in the reports and last in the answer.
    cases Ty.firstRepeated? (e :: es) <;> simp

theorem Ty.passesAll_iff (ts : List Ty) :
    Ty.passesAll hasClass ts = true ↔ Ty.issuesOfAll hasClass pos name ts = [] := by
  match ts with
  | [] => simp [Ty.passesAll, Ty.issuesOfAll]
  | t :: ts =>
    rw [Ty.passesAll, Ty.issuesOfAll, Bool.and_eq_true, List.append_eq_nil_iff, Ty.passes_iff t, Ty.passesAll_iff ts]

theorem Ty.passesElems_iff (es : List (String × Ty)) :
    Ty.passesElems hasClass es = true ↔ Ty.issuesOfElems hasClass pos name es = [] := by
  match es with
  | [] => simp [Ty.passesElems, Ty.issuesOfElems]
  | (_, t) :: es =>
    rw [Ty.passesElems, Ty.issuesOfElems, Bool.and_eq_true, List.append_eq_nil_iff, Ty.passes_iff t,
      Ty.passesElems_iff es]

end

theorem Ty.passes_eq_false_iff {t : Ty} : t.passes hasClass = false ↔ t.issues hasClass pos name ≠ [] := by
  rw [← Bool.not_eq_true, Ty.passes_iff t]

/-- A variable keeps its type exactly if nothing is reported of it. -/
theorem VarDecl.decl_check_eq (v : VarDecl) : (v.check hasClass).decl =
    if v.type.issues hasClass v.token.pos v.name.name = [] then v else { v with type := .noType } :=
  if_congr (Ty.passes_iff v.type) rfl rfl

def VarDecl.Clean (hasClass : String → Bool) (v : VarDecl) : Prop :=
  v.type.issues hasClass v.token.pos v.name.name = []

theorem VarDecl.checkAll_clean {vs : List VarDecl}
    (h : (VarDecl.checkAll hasClass vs).issues = []) :
    (VarDecl.checkAll hasClass vs).decl = vs ∧ ∀ v ∈ vs, v.Clean hasClass := by
  have hv : ∀ v ∈ vs, v.Clean hasClass := by
    simpa [VarDecl.checkAll, VarDecl.check, VarDecl.Clean] using h
  refine ⟨?_, hv⟩
  have hid : ∀ v ∈ vs, (v.check hasClass).decl = v := fun v hm => by
    rw [VarDecl.decl_check_eq]
    exact if_pos (hv v hm)
  simpa [VarDecl.checkAll] using List.map_congr_left hid

theorem MethodDecl.checkVars_clean {m : MethodDecl} (h : (m.checkVars hasClass).issues = []) :
    (m.checkVars hasClass).decl = m ∧ ∀ v ∈ m.args ++ m.locals, v.Clean hasClass := by
  simp only [MethodDecl.checkVars, List.append_eq_nil_iff] at h
  obtain ⟨ha, hca⟩ := VarDecl.checkAll_clean h.1
  obtain ⟨hl, hcl⟩ := VarDecl.checkAll_clean h.2
  refine ⟨by simp [MethodDecl.checkVars, ha, hl], ?_⟩
  intro v hv
  rcases List.mem_append.1 hv with hv | hv
  · exact hca v hv
  · exact hcl v hv

def MethodDecl.ResultClean (hasClass : String → Bool) (m : MethodDecl) : Prop :=
  ∀ t, m.returnType = some t → t.issues hasClass m.token.pos m.name.name = []

theorem MethodDecl.checkResult_clean {m : MethodDecl} (h : (m.checkResult hasClass).issues = []) :
    (m.checkResult hasClass).decl = m ∧ m.ResultClean hasClass := by
  unfold MethodDecl.checkResult at h ⊢
  unfold MethodDecl.ResultClean
  cases hr : m.returnType with
  | none => simp
  | some t =>
    simp only [hr] at h
    refine ⟨?_, by simpa using h⟩
    simp only [Ty.withoutRepeated_eq_self t h, ← hr]

/-- The body and the variables of a method, checked against a program. -/
structure MethodDecl.BodyClean (p : Program) (className : String) (m : MethodDecl) : Prop where
  vars : ∀ v ∈ m.args ++ m.locals, v.Clean p.hasClass
  body : ({ table := p, className, method := m } : Context).bodyIssues = []

/-- A method with nothing wrong in it. -/
structure MethodDecl.Clean (p : Program) (className : String) (m : MethodDecl) : Prop
    extends m.BodyClean p className where
  result : m.ResultClean p.hasClass
  returns : m.result.isVoid = true ∨ m.hasReturn = true

theorem MethodDecl.checkConstructor_clean {cls : String} {table : MethodDecl → Program}
    {m : MethodDecl} (h : (m.checkConstructor cls table).issues = []) :
    (m.checkConstructor cls table).decl = m ∧ m.name.name = cls ∧ m.BodyClean (table m) cls := by
  simp only [MethodDecl.checkConstructor, List.append_eq_nil_iff] at h
  obtain ⟨⟨hn, hv⟩, hb⟩ := h
  obtain ⟨hd, hc⟩ := MethodDecl.checkVars_clean hv
  rw [hd] at hb
  refine ⟨by simp [MethodDecl.checkConstructor, hd], ?_, ⟨hc, hb⟩⟩
  by_contra hne
  simp [hne] at hn

theorem MethodDecl.checkMethod_clean {cls : String} {table : MethodDecl → Program}
    {m : MethodDecl} (h : (m.checkMethod cls table).issues = []) :
    (m.checkMethod cls table).decl = m ∧ m.Clean (table m) cls := by
  simp only [MethodDecl.checkMethod, List.append_eq_nil_iff] at h
  obtain ⟨⟨⟨hr, hv⟩, hb⟩, he⟩ := h
  obtain ⟨hrd, hrc⟩ := MethodDecl.checkResult_clean hr
  rw [hrd] at hv hb he
  obtain ⟨hd, hc⟩ := MethodDecl.checkVars_clean hv
  rw [hd] at hb he
  refine ⟨by simp [MethodDecl.checkMethod, hrd, hd], ⟨⟨hc, hb⟩, hrc, ?_⟩⟩
  by_contra hne
  simp only [not_or, Bool.not_eq_true] at hne
  simp [hne] at he

theorem checkMethods_clean {cls : String} {table : List MethodDecl → Program} {done ms : List MethodDecl}
    (h : (checkMethods cls table done ms).issues = []) :
    (checkMethods cls table done ms).decl = done ++ ms ∧
      ∀ m ∈ ms, m.Clean (table (done ++ ms)) cls := by
  induction ms generalizing done with
  | nil => simp [checkMethods]
  | cons m ms ih =>
    simp only [checkMethods, List.append_eq_nil_iff] at h
    obtain ⟨hd, hc⟩ := MethodDecl.checkMethod_clean h.1
    rw [hd] at h
    obtain ⟨hrest, hcs⟩ := ih h.2
    simp only [List.append_assoc, List.cons_append, List.nil_append] at hrest hcs
    refine ⟨by simp only [checkMethods, hd, hrest], ?_⟩
    intro m' hm'
    rcases List.mem_cons.1 hm' with rfl | hm'
    · exact hc
    · exact hcs m' hm'

/-- A class whose members have nothing wrong in them. -/
structure ClassDecl.MembersClean (p : Program) (c : ClassDecl) : Prop where
  fields : ∀ v ∈ c.fields, v.Clean p.hasClass
  constructor : ∀ m, c.constructor = some m → m.name.name = c.name.name ∧ m.BodyClean p c.name.name
  methods : ∀ m ∈ c.methods, m.Clean p c.name.name

theorem ClassDecl.checkMembers_clean {table : ClassDecl → Program} {c : ClassDecl}
    (h : (c.checkMembers table).issues = []) :
    (c.checkMembers table).decl = c ∧ c.MembersClean (table c) := by
  obtain ⟨token, cname, parent, fields, ctor, methods⟩ := c
  simp only [ClassDecl.checkMembers, List.append_eq_nil_iff] at h ⊢
  obtain ⟨⟨hf, hk⟩, hm⟩ := h
  obtain ⟨hfd, hfc⟩ := VarDecl.checkAll_clean hf
  simp only [hfd] at hk hm ⊢
  cases ctor with
  | none =>
    obtain ⟨hmd, hmc⟩ := checkMethods_clean hm
    rw [List.nil_append] at hmd hmc
    exact ⟨by rw [hmd], ⟨hfc, fun m h => (by cases h), hmc⟩⟩
  | some k =>
    let table' (k' : MethodDecl) : Program := table ⟨token, cname, parent, fields, some k', methods⟩
    have hk : (k.checkConstructor cname.name table').issues = [] := hk
    obtain ⟨hkd, hkn, hkc⟩ := MethodDecl.checkConstructor_clean hk
    simp only [table'] at hkd hkc
    simp only [hkd] at hm ⊢
    obtain ⟨hmd, hmc⟩ := checkMethods_clean hm
    rw [List.nil_append] at hmd hmc
    refine ⟨by rw [hmd], ⟨hfc, ?_, hmc⟩⟩
    rintro m ⟨⟩
    exact ⟨hkn, hkc⟩

/-- A class with nothing wrong in it. -/
structure ClassDecl.Clean (entry : String) (p : Program) (c : ClassDecl) : Prop
    extends c.MembersClean p where
  head : c.headIssues entry p.hasClass = []

/-- The parent that a class with nothing wrong in it is declared with is a class of the program. -/
theorem ClassDecl.Clean.hasParent {entry : String} {p : Program} {c : ClassDecl} (h : c.Clean entry p)
    (hn : c.parentName ≠ "") : p.hasClass c.parentName = true := by
  have hparent : c.parentIssues p.hasClass = [] := by
    have hhead := h.head
    unfold ClassDecl.headIssues at hhead
    simp only [hn, if_false] at hhead
    split at hhead
    · simp at hhead
    · split at hhead
      · simp at hhead
      · exact hhead
  cases hp : c.parent with
  | none => simp [ClassDecl.parentName, hp] at hn
  | some parent =>
    by_contra hne
    have hfalse : p.hasClass parent.name = false := by simpa [ClassDecl.parentName, hp] using hne
    simp [ClassDecl.parentIssues, hp, hfalse] at hparent

theorem checkClasses_clean {file entry : String} {done cs : List ClassDecl}
    (h : (checkClasses file entry done cs).issues = []) :
    (checkClasses file entry done cs).decl = done ++ cs ∧
      ∀ c ∈ cs, c.Clean entry { file, classes := done ++ cs } := by
  induction cs generalizing done with
  | nil => simp [checkClasses]
  | cons c cs ih =>
    simp only [checkClasses, List.append_eq_nil_iff] at h
    obtain ⟨⟨hh, hm⟩, hrest⟩ := h
    obtain ⟨hd, hc⟩ := ClassDecl.checkMembers_clean hm
    rw [hd] at hrest
    obtain ⟨hrd, hrc⟩ := ih hrest
    simp only [List.append_assoc, List.cons_append, List.nil_append] at hrd hrc
    refine ⟨by simp only [checkClasses, hd, hrd], ?_⟩
    intro c' hc'
    rcases List.mem_cons.1 hc' with rfl | hc'
    · exact ⟨hc, hh⟩
    · exact hrc c' hc'

/-- A program with nothing wrong in it. -/
structure Program.Clean (entry : String) (p : Program) : Prop where
  classes : ∀ c ∈ p.classes, c.Clean entry p
  entry : ∃ c ∈ p.classes, c.name.name = entry

/-- Checking leaves a program alone that it finds nothing wrong with. -/
theorem Program.check_clean {entry : String} {p : Program} (h : (p.check entry).issues = []) :
    (p.check entry).decl = p ∧ p.Clean entry := by
  simp only [Program.check, List.append_eq_nil_iff] at h
  obtain ⟨hcs, hm⟩ := h
  obtain ⟨hd, hc⟩ := checkClasses_clean hcs
  refine ⟨by simp [Program.check, hd], ⟨hc, ?_⟩⟩
  simpa using hm

end ClassCompiler
