import ClassCompiler.Proofs.Typing.Absorbed
import ClassCompiler.Proofs.Typing.Accepted

namespace ClassCompiler

variable {hasClass : String → Bool}

/-- All variables of a class: its fields, and the parameters and locals of its bodies. -/
def ClassDecl.variables (c : ClassDecl) : List VarDecl :=
  c.fields ++ c.bodies.flatMap fun m => m.args ++ m.locals

theorem VarDecl.mem_issues_checkAll {vs : List VarDecl} {v : VarDecl} (hv : v ∈ vs) {d : Diagnostic}
    (hd : d ∈ v.type.issues hasClass v.token.pos v.name.name) : d ∈ (VarDecl.checkAll hasClass vs).issues :=
  List.mem_flatMap.2 ⟨v, hv, hd⟩

theorem MethodDecl.mem_issues_checkVars {m : MethodDecl} {v : VarDecl} (hv : v ∈ m.args ++ m.locals) {d : Diagnostic}
    (hd : d ∈ v.type.issues hasClass v.token.pos v.name.name) : d ∈ (m.checkVars hasClass).issues := by
  rw [MethodDecl.checkVars, List.mem_append]
  exact (List.mem_append.1 hv).imp (VarDecl.mem_issues_checkAll · hd) (VarDecl.mem_issues_checkAll · hd)

theorem MethodDecl.mem_issues_checkConstructor {cls : String} {table : MethodDecl → Program} {m : MethodDecl}
    (ht : (table m).hasClass = hasClass) {v : VarDecl} (hv : v ∈ m.args ++ m.locals) {d : Diagnostic}
    (hd : d ∈ v.type.issues hasClass v.token.pos v.name.name) : d ∈ (m.checkConstructor cls table).issues := by
  simp only [MethodDecl.checkConstructor, ht, List.mem_append]
  exact .inl (.inr (MethodDecl.mem_issues_checkVars hv hd))

theorem MethodDecl.mem_issues_checkMethod {cls : String} {table : MethodDecl → Program} {m : MethodDecl}
    (ht : (table m).hasClass = hasClass) {v : VarDecl} (hv : v ∈ m.args ++ m.locals) {d : Diagnostic}
    (hd : d ∈ v.type.issues hasClass v.token.pos v.name.name) : d ∈ (m.checkMethod cls table).issues := by
  have hvars : v ∈ (m.checkResult hasClass).decl.args ++ (m.checkResult hasClass).decl.locals := by
    unfold MethodDecl.checkResult
    cases m.returnType with
    | none => exact hv
    | some t => exact hv
  simp only [MethodDecl.checkMethod, ht, List.mem_append]
  exact .inl (.inl (.inr (MethodDecl.mem_issues_checkVars hvars hd)))

theorem mem_issues_checkMethods {cls : String} {table : List MethodDecl → Program} {done ms : List MethodDecl}
    (ht : ∀ ms', (table ms').hasClass = hasClass) {m : MethodDecl} (hm : m ∈ ms) {v : VarDecl}
    (hv : v ∈ m.args ++ m.locals) {d : Diagnostic} (hd : d ∈ v.type.issues hasClass v.token.pos v.name.name) :
    d ∈ (checkMethods cls table done ms).issues := by
  induction ms generalizing done with
  | nil => cases hm
  | cons n ms ih =>
    rw [checkMethods, List.mem_append]
    obtain rfl | hm := List.mem_cons.1 hm
    · exact .inl (MethodDecl.mem_issues_checkMethod (ht _) hv hd)
    · exact .inr (ih hm)

theorem ClassDecl.mem_issues_checkMembers {table : ClassDecl → Program} {c : ClassDecl}
    (ht : ∀ c', c'.name = c.name → (table c').hasClass = hasClass) {v : VarDecl} (hv : v ∈ c.variables) {d : Diagnostic}
    (hd : d ∈ v.type.issues hasClass v.token.pos v.name.name) : d ∈ (c.checkMembers table).issues := by
  obtain ⟨token, name, parent, fields, ctor, methods⟩ := c
  simp only [ClassDecl.variables, ClassDecl.bodies, List.mem_append, List.mem_flatMap, Option.mem_toList] at hv
  simp only [ClassDecl.checkMembers, List.mem_append]
  have htable : ∀ fields' ctor' methods', (table ⟨token, name, parent, fields', ctor', methods'⟩).hasClass = hasClass :=
    fun _ _ _ => ht _ rfl
  rw [htable]
  obtain hv | ⟨m, hm | hm, hv⟩ := hv
  · exact .inl (.inl (VarDecl.mem_issues_checkAll hv hd))
  · obtain rfl : ctor = some m := hm
    have hctor : d ∈ (m.checkConstructor name.name fun m' =>
        table ⟨token, name, parent, (VarDecl.checkAll hasClass fields).decl, some m', methods⟩).issues :=
      MethodDecl.mem_issues_checkConstructor (htable _ _ _) (List.mem_append.2 hv) hd
    exact .inl (.inr hctor)
  · exact .inr (mem_issues_checkMethods (fun _ => htable _ _ _) hm (List.mem_append.2 hv) hd)

theorem mem_issues_checkClasses {file entry : String} {done cs : List ClassDecl}
    (ht : ∀ p : Program, p.classes.map (·.name.name) = (done ++ cs).map (·.name.name) → p.hasClass = hasClass)
    {c : ClassDecl} (hc : c ∈ cs) {v : VarDecl} (hv : v ∈ c.variables) {d : Diagnostic}
    (hd : d ∈ v.type.issues hasClass v.token.pos v.name.name) : d ∈ (checkClasses file entry done cs).issues := by
  induction cs generalizing done with
  | nil => cases hc
  | cons e cs ih =>
    simp only [checkClasses, List.mem_append]
    obtain rfl | hc := List.mem_cons.1 hc
    · exact .inl (.inr (ClassDecl.mem_issues_checkMembers (fun c' hn => ht _ (by simp [hn])) hv hd))
    · exact .inr (ih (fun p hp => ht p (by simpa [ClassDecl.checkMembers] using hp)) hc)

/-- Whatever is wrong with the type of a field, a parameter or a local is reported, whatever else is wrong. -/
theorem Program.mem_issues_check {entry : String} {p : Program} {c : ClassDecl} (hc : c ∈ p.classes) {v : VarDecl}
    (hv : v ∈ c.variables) {d : Diagnostic} (hd : d ∈ v.type.issues p.hasClass v.token.pos v.name.name) :
    d ∈ (p.check entry).issues :=
  List.mem_append_left _ (mem_issues_checkClasses (fun _ hq => Program.hasClass_congr hq) hc hv hd)

def VarDecl.withType (v : VarDecl) (t : Ty) : VarDecl := { v with type := t }

theorem VarDecl.retyped_withType {R : Ty → Ty → Prop} (v : VarDecl) {t : Ty} (h : R v.type t) : v.Retyped R (v.withType t) :=
  ⟨rfl, rfl, h⟩

theorem VarDecl.retyped_noType (v : VarDecl) : v.Retyped Ty.KeptOrLost (v.withType .noType) :=
  v.retyped_withType (Ty.keptOrLost_noType v.type)

/-- A place among the parameters or the locals of a body. -/
inductive VarPlace where
  | param (m : MethodDecl) (before after : List VarDecl)
  | localVar (m : MethodDecl) (before after : List VarDecl)

def VarPlace.fill : VarPlace → VarDecl → MethodDecl
  | .param m before after, v => { m with args := before ++ v :: after }
  | .localVar m before after, v => { m with locals := before ++ v :: after }

def VarPlace.isLocal : VarPlace → Bool
  | .param _ _ _ => false
  | .localVar _ _ _ => true

/-- A place in a class: among its fields, in its constructor, or in one of its methods. -/
inductive MemberPlace where
  | field (c : ClassDecl) (before after : List VarDecl)
  | ofConstructor (c : ClassDecl) (place : VarPlace)
  | ofMethod (c : ClassDecl) (before : List MethodDecl) (place : VarPlace) (after : List MethodDecl)

namespace MemberPlace

def fill : MemberPlace → VarDecl → ClassDecl
  | .field c before after, v => { c with fields := before ++ v :: after }
  | .ofConstructor c place, v => { c with constructor := some (place.fill v) }
  | .ofMethod c before place after, v => { c with methods := before ++ place.fill v :: after }

def className : MemberPlace → String
  | .field c _ _ => c.name.name
  | .ofConstructor c _ => c.name.name
  | .ofMethod c _ _ _ => c.name.name

def isLocal : MemberPlace → Bool
  | .field _ _ _ => false
  | .ofConstructor _ place => place.isLocal
  | .ofMethod _ _ place _ => place.isLocal

/-- The bodies of the class that are checked before the declaration. -/
def earlier : MemberPlace → List MethodDecl
  | .field _ _ _ => []
  | .ofConstructor _ _ => []
  | .ofMethod c before _ _ => c.constructor.toList ++ before

def around : MemberPlace → VarDecl → List MethodDecl
  | .field _ _ _, _ => []
  | .ofConstructor _ place, v => [place.fill v]
  | .ofMethod _ _ place _, v => [place.fill v]

/-- The other bodies of the class that are checked after the declaration. -/
def later : MemberPlace → List MethodDecl
  | .field c _ _ => c.bodies
  | .ofConstructor c _ => c.methods
  | .ofMethod _ _ _ after => after

end MemberPlace

/-- A place in a program. -/
structure DeclPlace where
  file : String
  before : List ClassDecl
  member : MemberPlace
  after : List ClassDecl

/-- The bodies of classes, each with the name of its class. -/
def bodiesOf (cs : List ClassDecl) : List (String × MethodDecl) :=
  cs.flatMap fun c => c.bodies.map (c.name.name, ·)

namespace DeclPlace

variable (s : DeclPlace)

def fill (v : VarDecl) : Program := { file := s.file, classes := s.before ++ s.member.fill v :: s.after }

def earlier : List (String × MethodDecl) :=
  bodiesOf s.before ++ s.member.earlier.map (s.member.className, ·)

def around (v : VarDecl) : List (String × MethodDecl) := (s.member.around v).map (s.member.className, ·)

def later : List (String × MethodDecl) := s.member.later.map (s.member.className, ·) ++ bodiesOf s.after

end DeclPlace

section

variable {R L : Ty → Ty → Prop} (hR : ∀ t, R t t) (hL : ∀ t, L t t) {v w : VarDecl}

include hR hL

theorem VarPlace.retyped_fill (s : VarPlace) (h : s.isLocal = false → v.Retyped R w)
    (hl : s.isLocal = true → v.Retyped L w) : (s.fill v).Retyped R L (s.fill w) := by
  cases s with
  | param m before after =>
    exact { m.retyped_self hR hL with args := forall₂_append_cons (VarDecl.retyped_self hR) (h rfl) before after }
  | localVar m before after =>
    exact { m.retyped_self hR hL with locals := forall₂_append_cons (VarDecl.retyped_self hL) (hl rfl) before after }

theorem MemberPlace.retyped_fill (s : MemberPlace) (h : s.isLocal = false → v.Retyped R w)
    (hl : s.isLocal = true → v.Retyped L w) : (s.fill v).Retyped R L (s.fill w) := by
  cases s with
  | field c before after =>
    exact { c.retyped_self hR hL with fields := forall₂_append_cons (VarDecl.retyped_self hR) (h rfl) before after }
  | ofConstructor c place =>
    exact { c.retyped_self hR hL with constructor := .some (place.retyped_fill hR hL h hl) }
  | ofMethod c before place after =>
    exact { c.retyped_self hR hL with
      methods := forall₂_append_cons (MethodDecl.retyped_self hR hL) (place.retyped_fill hR hL h hl) before after }

theorem DeclPlace.retyped_fill (s : DeclPlace) (h : s.member.isLocal = false → v.Retyped R w)
    (hl : s.member.isLocal = true → v.Retyped L w) : (s.fill v).Retyped R L (s.fill w) :=
  forall₂_append_cons (ClassDecl.retyped_self hR hL) (s.member.retyped_fill hR hL h hl) s.before s.after

end

theorem VarPlace.fades_fill (s : VarPlace) (v : VarDecl) :
    (s.fill v).Retyped Ty.KeptOrLost Ty.KeptOrLost (s.fill (v.withType .noType)) :=
  s.retyped_fill Ty.keptOrLost_self Ty.keptOrLost_self (fun _ => v.retyped_noType) fun _ => v.retyped_noType

theorem MemberPlace.fades_fill (s : MemberPlace) (v : VarDecl) :
    (s.fill v).Retyped Ty.KeptOrLost Ty.KeptOrLost (s.fill (v.withType .noType)) :=
  s.retyped_fill Ty.keptOrLost_self Ty.keptOrLost_self (fun _ => v.retyped_noType) fun _ => v.retyped_noType

theorem DeclPlace.fades_fill (s : DeclPlace) (v : VarDecl) :
    (s.fill v).Retyped Ty.KeptOrLost Ty.KeptOrLost (s.fill (v.withType .noType)) :=
  s.retyped_fill Ty.keptOrLost_self Ty.keptOrLost_self (fun _ => v.retyped_noType) fun _ => v.retyped_noType

theorem DeclPlace.twin_fill (s : DeclPlace) (v : VarDecl) (unknown : String) :
    (s.fill v).Retyped (fun _ _ => True) (fun _ _ => True) (s.fill (v.withType (.cls unknown))) :=
  s.retyped_fill (fun _ => trivial) (fun _ => trivial) (fun _ => v.retyped_withType trivial)
    fun _ => v.retyped_withType trivial

theorem Checked.eq_mk {α : Type} {r : Checked α} {decl : α} {found : List Diagnostic} (hd : r.decl = decl)
    (hi : r.issues = found) : r = { decl, issues := found } := by
  cases r
  simp_all

theorem VarDecl.checkAll_of_clean {vs : List VarDecl} (h : ∀ v ∈ vs, v.Clean hasClass) :
    VarDecl.checkAll hasClass vs = { decl := vs } := by
  have hi := VarDecl.Clean.checkAll h
  exact Checked.eq_mk (VarDecl.checkAll_clean hi).1 hi

theorem checkMethods_append_of_clean {cls : String} {table : List MethodDecl → Program} {done before after : List MethodDecl}
    (h : ∀ m ∈ before, m.Clean (table (done ++ before ++ after)) cls) :
    checkMethods cls table done (before ++ after) = checkMethods cls table (done ++ before) after := by
  induction before generalizing done with
  | nil => simp
  | cons m before ih =>
    have hm : (m.checkMethod cls fun m' => table (done ++ m' :: (before ++ after))).issues = [] :=
      MethodDecl.Clean.checkMethod (by simpa using h m (by simp))
    have hrest : checkMethods cls table (done ++ [m]) (before ++ after) =
        checkMethods cls table (done ++ [m] ++ before) after := ih fun n hn => by simpa using h n (by simp [hn])
    simp only [List.cons_append, checkMethods, hm, (MethodDecl.checkMethod_clean hm).1, hrest, List.nil_append]
    simp

theorem checkClasses_append_of_clean {file entry : String} {done before after : List ClassDecl}
    (h : ∀ c ∈ before, c.Clean entry { file, classes := done ++ before ++ after }) :
    checkClasses file entry done (before ++ after) = checkClasses file entry (done ++ before) after := by
  induction before generalizing done with
  | nil => simp
  | cons c before ih =>
    have hc := h c (by simp)
    have hm : (c.checkMembers fun c' => { file, classes := done ++ c' :: (before ++ after) }).issues = [] :=
      ClassDecl.MembersClean.checkMembers (by simpa using hc.toMembersClean)
    have hh : c.headIssues entry ({ file, classes := done ++ c :: (before ++ after) } : Program).hasClass = [] := by
      simpa using hc.head
    have hrest : checkClasses file entry (done ++ [c]) (before ++ after) =
        checkClasses file entry (done ++ [c] ++ before) after := ih fun d hd => by simpa using h d (by simp [hd])
    simp only [List.cons_append, checkClasses, hh, hm, (ClassDecl.checkMembers_clean hm).1, hrest, List.nil_append]
    simp

/-- Where only the fields are at fault, the class that is left is the one with other fields. -/
theorem ClassDecl.checkMembers_of_fields {table : ClassDecl → Program} {c c' : ClassDecl} {found : List Diagnostic}
    (he : c' = { c with fields := c'.fields }) (hf : VarDecl.checkAll (table c).hasClass c.fields =
      { decl := c'.fields, issues := found }) (hm : c'.MembersClean (table c')) :
    c.checkMembers table = { decl := c', issues := found } := by
  obtain ⟨token, name, parent, fields, ctor, methods⟩ := c
  obtain ⟨token', name', parent', fields', ctor', methods'⟩ := c'
  obtain ⟨rfl, rfl, rfl, -, rfl, rfl⟩ := ClassDecl.mk.inj he
  have hi := hm.checkMembers
  have hd := (ClassDecl.checkMembers_clean hi).1
  simp only [ClassDecl.checkMembers, VarDecl.checkAll_of_clean hm.fields] at hf hi hd ⊢
  simp only [hf]
  rw [List.nil_append] at hi
  exact Checked.eq_mk hd (by rw [List.append_assoc, hi, List.append_nil])

/-- Where only the constructor is at fault, the class that is left is the one with another constructor. -/
theorem ClassDecl.checkMembers_of_constructor {table : ClassDecl → Program} {c c' : ClassDecl} {m m' : MethodDecl}
    {found : List Diagnostic} (he : c' = { c with constructor := some m' }) (hc : c.constructor = some m)
    (hk : m.checkConstructor c.name.name (fun k => table { c with constructor := some k }) =
      { decl := m', issues := found }) (ht : (table c).hasClass = (table c').hasClass)
    (hm : c'.MembersClean (table c')) : c.checkMembers table = { decl := c', issues := found } := by
  obtain ⟨token, name, parent, fields, ctor, methods⟩ := c
  obtain rfl : ctor = some m := hc
  subst he
  have hi := hm.checkMembers
  have hd := (ClassDecl.checkMembers_clean hi).1
  obtain ⟨hn, hb⟩ := hm.constructor m' rfl
  have hk' : (m'.checkConstructor name.name fun k => table ⟨token, name, parent, fields, some k, methods⟩).issues = [] :=
    MethodDecl.BodyClean.checkConstructor hn hb
  simp only [ClassDecl.checkMembers, ht, VarDecl.checkAll_of_clean hm.fields] at hk hi hd ⊢
  simp only [hk, hk', (MethodDecl.checkConstructor_clean hk').1, List.nil_append] at hi hd ⊢
  exact Checked.eq_mk hd (by rw [hi, List.append_nil])

/-- After clean fields and a clean constructor the methods are checked. -/
theorem ClassDecl.checkMembers_of_methods {table : ClassDecl → Program} {c : ClassDecl}
    (hf : ∀ v ∈ c.fields, v.Clean hasClass)
    (hc : ∀ m, c.constructor = some m →
      (m.checkConstructor c.name.name fun k => table { c with constructor := some k }).issues = [])
    (ht : (table c).hasClass = hasClass) :
    c.checkMembers table =
      { decl := { c with methods := (checkMethods c.name.name (fun ms => table { c with methods := ms }) [] c.methods).decl }
        issues := (checkMethods c.name.name (fun ms => table { c with methods := ms }) [] c.methods).issues } := by
  obtain ⟨token, name, parent, fields, ctor, methods⟩ := c
  simp only [ClassDecl.checkMembers, ht, VarDecl.checkAll_of_clean hf]
  cases ctor with
  | none => simp
  | some m =>
    have hm := hc m rfl
    simp only at hm
    simp only [hm, (MethodDecl.checkConstructor_clean hm).1]
    simp

section

variable {v : VarDecl} {unknown : String}

theorem VarDecl.check_undeclared (hu : hasClass unknown = false) : (v.withType (.cls unknown)).check hasClass =
    { decl := v.withType .noType, issues := [report v.token.pos .D001 [unknown]] } := by
  simp [VarDecl.check, VarDecl.withType, Ty.issues, Ty.passes, hu]

theorem VarDecl.checkAll_undeclared (hu : hasClass unknown = false) {before after : List VarDecl}
    (hb : ∀ w ∈ before, w.Clean hasClass) (ha : ∀ w ∈ after, w.Clean hasClass) :
    VarDecl.checkAll hasClass (before ++ v.withType (.cls unknown) :: after) =
      { decl := before ++ v.withType .noType :: after, issues := [report v.token.pos .D001 [unknown]] } := by
  have happend : ∀ vs ws, VarDecl.checkAll hasClass (vs ++ ws) =
      { decl := (VarDecl.checkAll hasClass vs).decl ++ (VarDecl.checkAll hasClass ws).decl
        issues := (VarDecl.checkAll hasClass vs).issues ++ (VarDecl.checkAll hasClass ws).issues } := by
    simp [VarDecl.checkAll]
  have hcons : VarDecl.checkAll hasClass (v.withType (.cls unknown) :: after) =
      { decl := v.withType .noType :: (VarDecl.checkAll hasClass after).decl
        issues := report v.token.pos .D001 [unknown] :: (VarDecl.checkAll hasClass after).issues } := by
    simp [VarDecl.checkAll, VarDecl.check_undeclared hu]
  rw [happend, hcons, VarDecl.checkAll_of_clean hb, VarDecl.checkAll_of_clean ha]
  rfl

theorem VarPlace.checkVars_undeclared (hu : hasClass unknown = false) {s : VarPlace}
    (hc : ∀ w ∈ (s.fill (v.withType .noType)).args ++ (s.fill (v.withType .noType)).locals, w.Clean hasClass) :
    (s.fill (v.withType (.cls unknown))).checkVars hasClass =
      { decl := s.fill (v.withType .noType), issues := [report v.token.pos .D001 [unknown]] } := by
  obtain ⟨hargs, hlocals⟩ := List.forall_mem_append.1 hc
  cases s with
  | param m before after =>
    obtain ⟨hb, ha⟩ := List.forall_mem_append.1 hargs
    have ha := (List.forall_mem_cons.1 ha).2
    simp only [VarPlace.fill] at hlocals ⊢
    simp only [MethodDecl.checkVars, VarDecl.checkAll_undeclared hu hb ha, VarDecl.checkAll_of_clean hlocals]
    rfl
  | localVar m before after =>
    obtain ⟨hb, ha⟩ := List.forall_mem_append.1 hlocals
    have ha := (List.forall_mem_cons.1 ha).2
    simp only [VarPlace.fill] at hargs ⊢
    simp only [MethodDecl.checkVars, VarDecl.checkAll_undeclared hu hb ha, VarDecl.checkAll_of_clean hargs]
    rfl

theorem VarPlace.name_fill (s : VarPlace) (v w : VarDecl) : (s.fill v).name = (s.fill w).name := by
  cases s <;> rfl

theorem VarPlace.checkConstructor_undeclared {s : VarPlace} {cls : String} {table : MethodDecl → Program}
    (hu : hasClass unknown = false) (hq : (table (s.fill (v.withType (.cls unknown)))).hasClass = hasClass)
    (hq' : (table (s.fill (v.withType .noType))).hasClass = hasClass) (hn : (s.fill (v.withType .noType)).name.name = cls)
    (hc : (s.fill (v.withType .noType)).BodyClean (table (s.fill (v.withType .noType))) cls) :
    (s.fill (v.withType (.cls unknown))).checkConstructor cls table =
      { decl := s.fill (v.withType .noType), issues := [report v.token.pos .D001 [unknown]] } := by
  have hvars := VarPlace.checkVars_undeclared hu (hq' ▸ hc.vars)
  have hname : (s.fill (v.withType (.cls unknown))).name.name = cls := s.name_fill _ (v.withType .noType) ▸ hn
  simp only [MethodDecl.checkConstructor, hq, hvars, hname, hc.body]
  simp

theorem VarPlace.checkMethod_undeclared {s : VarPlace} {cls : String} {table : MethodDecl → Program}
    (hu : hasClass unknown = false) (hq : (table (s.fill (v.withType (.cls unknown)))).hasClass = hasClass)
    (hq' : (table (s.fill (v.withType .noType))).hasClass = hasClass)
    (hc : (s.fill (v.withType .noType)).Clean (table (s.fill (v.withType .noType))) cls) :
    (s.fill (v.withType (.cls unknown))).checkMethod cls table =
      { decl := s.fill (v.withType .noType), issues := [report v.token.pos .D001 [unknown]] } := by
  have hvars := VarPlace.checkVars_undeclared hu (hq' ▸ hc.vars)
  have hresult : (s.fill (v.withType (.cls unknown))).ResultClean hasClass := by
    have h := hq' ▸ hc.result
    cases s <;> exact h
  have hi := hresult.checkResult
  have hending : (if (s.fill (v.withType .noType)).result.isVoid || (s.fill (v.withType .noType)).hasReturn then []
      else [report (s.fill (v.withType (.cls unknown))).token.pos .D010 [(s.fill (v.withType (.cls unknown))).name.name]]) =
      ([] : List Diagnostic) := if_pos (by simpa using hc.returns)
  simp only [MethodDecl.checkMethod, hq, hi, (MethodDecl.checkResult_clean hi).1, hvars, hc.body, hending]
  simp

theorem checkMethods_undeclared {place : VarPlace} {before after : List MethodDecl} {cls : String}
    {table : List MethodDecl → Program} (hu : hasClass unknown = false)
    (hq : (table (before ++ place.fill (v.withType (.cls unknown)) :: after)).hasClass = hasClass)
    (hq' : (table (before ++ place.fill (v.withType .noType) :: after)).hasClass = hasClass)
    (hb : ∀ m ∈ before, m.Clean (table (before ++ place.fill (v.withType (.cls unknown)) :: after)) cls)
    (ha : ∀ m ∈ place.fill (v.withType .noType) :: after,
      m.Clean (table (before ++ place.fill (v.withType .noType) :: after)) cls) :
    checkMethods cls table [] (before ++ place.fill (v.withType (.cls unknown)) :: after) =
      { decl := before ++ place.fill (v.withType .noType) :: after
        issues := [report v.token.pos .D001 [unknown]] } := by
  obtain ⟨hm, ha⟩ := List.forall_mem_cons.1 ha
  have hmethod : (place.fill (v.withType (.cls unknown))).checkMethod cls (fun m' => table (before ++ m' :: after)) =
      { decl := place.fill (v.withType .noType), issues := [report v.token.pos .D001 [unknown]] } :=
    VarPlace.checkMethod_undeclared hu hq hq' hm
  have hrest : (checkMethods cls table (before ++ [place.fill (v.withType .noType)]) after).issues = [] :=
    checkMethods_of_clean (by simpa using ha)
  rw [checkMethods_append_of_clean (by simpa using hb), List.nil_append, checkMethods, hmethod]
  exact Checked.eq_mk (by simp [(checkMethods_clean hrest).1]) (by simp [hrest])

end

theorem MethodDecl.Clean.of_bodyClean {p q : Program} {cls : String} {m n : MethodDecl}
    (h : m.Retyped Ty.KeptOrLost Ty.KeptOrLost n) (hc : m.Clean p cls) (hcls : q.hasClass = p.hasClass) (hb : n.BodyClean q cls) :
    n.Clean q cls := by
  refine ⟨hb, ?_, ?_⟩
  · unfold MethodDecl.ResultClean
    rw [h.returnType, h.token, h.name, hcls]
    exact hc.result
  · rw [h.result, MethodDecl.hasReturn, h.body]
    exact hc.returns

/-- A class is clean if its bodies are, in a program with the same classes. -/
theorem ClassDecl.MembersClean.of_bodies {p q : Program} {c d : ClassDecl} (h : c.Retyped Ty.KeptOrLost Ty.KeptOrLost d)
    (hc : c.MembersClean p) (hcls : q.hasClass = p.hasClass) (hb : ∀ m ∈ d.bodies, m.BodyClean q d.name.name) :
    d.MembersClean q where
  fields w hw := by
    obtain ⟨v, hv, hvw⟩ := exists_mem_of_forall₂ h.fields hw
    rw [hcls]
    exact VarDecl.Clean.fades hvw (hc.fields v hv)
  constructor n hn := by
    obtain ⟨hm, hd⟩ | ⟨m, n', hm, hd, hmn⟩ := optionRel_cases h.constructor
    · simp [hd] at hn
    · obtain rfl : n' = n := Option.some.inj (hd.symm.trans hn)
      rw [hmn.name, h.name]
      exact ⟨(hc.constructor m hm).1, h.name ▸ hb n' (by simp [ClassDecl.bodies, hd])⟩
  methods n hn := by
    obtain ⟨m, hm, hmn⟩ := exists_mem_of_forall₂ h.methods hn
    exact MethodDecl.Clean.of_bodyClean hmn (h.name ▸ hc.methods m hm) hcls (hb n (by simp [ClassDecl.bodies, hn]))

theorem ClassDecl.headIssues_retyped {R L : Ty → Ty → Prop} {c d : ClassDecl} (h : c.Retyped R L d) (entry : String) :
    d.headIssues entry hasClass = c.headIssues entry hasClass := by
  have hparent : d.parentIssues hasClass = c.parentIssues hasClass := by
    rw [ClassDecl.parentIssues, ClassDecl.parentIssues, h.parent]
  unfold ClassDecl.headIssues
  rw [h.name, h.token, h.parentName, hparent]
  obtain ⟨hc, hd⟩ | ⟨m, n, hc, hd, hmn⟩ := optionRel_cases h.constructor
  · rw [hc, hd]
  · have hargs : n.args.isEmpty = m.args.isEmpty := by
      rw [Bool.eq_iff_iff, List.isEmpty_iff_length_eq_zero, List.isEmpty_iff_length_eq_zero, hmn.args.length_eq]
    rw [hc, hd]
    simp only [hargs, hmn.token]

section

variable {v : VarDecl} {unknown : String} {table : ClassDecl → Program} {p : Program}

/-- The class of the declaration reports it and keeps it without a type, if its bodies are clean against what they
are checked against. -/
theorem MemberPlace.checkMembers_undeclared {s : MemberPlace} (hu : p.hasClass unknown = false)
    (hq : (table (s.fill (v.withType (.cls unknown)))).hasClass = p.hasClass)
    (hq' : (table (s.fill (v.withType .noType))).hasClass = p.hasClass) (hc : (s.fill v).MembersClean p)
    (hearlier : ∀ m ∈ s.earlier, m.BodyClean (table (s.fill (v.withType (.cls unknown)))) s.className)
    (hlater : ∀ m ∈ s.around (v.withType .noType) ++ s.later, m.BodyClean (table (s.fill (v.withType .noType))) s.className) :
    (s.fill (v.withType (.cls unknown))).checkMembers table =
      { decl := s.fill (v.withType .noType), issues := [report v.token.pos .D001 [unknown]] } := by
  have hfade := s.fades_fill v
  cases s with
  | field c before after =>
    have hm := hc.of_bodies hfade hq' hlater
    have hfields := hm.fields
    rw [hq'] at hfields
    obtain ⟨hb, ha⟩ := List.forall_mem_append.1 hfields
    refine ClassDecl.checkMembers_of_fields rfl ?_ hm
    rw [hq]
    exact VarDecl.checkAll_undeclared hu hb (List.forall_mem_cons.1 ha).2
  | ofConstructor c place =>
    have hm := hc.of_bodies hfade hq' hlater
    obtain ⟨hn, hb⟩ := hm.constructor _ rfl
    refine ClassDecl.checkMembers_of_constructor rfl rfl ?_ (hq.trans hq'.symm) hm
    exact VarPlace.checkConstructor_undeclared hu hq hq' hn hb
  | ofMethod c before place after =>
    obtain ⟨token, name, parent, fields, ctor, methods⟩ := c
    have hbefore : ∀ m ∈ before, m.Clean (table ⟨token, name, parent, fields, ctor,
        before ++ place.fill (v.withType (.cls unknown)) :: after⟩) name.name := fun m hm =>
      MethodDecl.Clean.of_bodyClean (m.retyped_self Ty.keptOrLost_self Ty.keptOrLost_self) (hc.methods m (by simp [MemberPlace.fill, hm])) hq
        (hearlier m (by simp [MemberPlace.earlier, hm]))
    have hafter : ∀ m ∈ place.fill (v.withType .noType) :: after, m.Clean (table ⟨token, name, parent, fields, ctor,
        before ++ place.fill (v.withType .noType) :: after⟩) name.name := fun m hm => by
      have hplaces : List.Forall₂ (MethodDecl.Retyped Ty.KeptOrLost Ty.KeptOrLost) (place.fill v :: after)
          (place.fill (v.withType .noType) :: after) :=
        forall₂_append_cons (MethodDecl.retyped_self Ty.keptOrLost_self Ty.keptOrLost_self) (place.fades_fill v) [] after
      obtain ⟨n, hn, hnm⟩ := exists_mem_of_forall₂ hplaces hm
      exact MethodDecl.Clean.of_bodyClean hnm (hc.methods n (List.mem_append_right before hn)) hq' (hlater m hm)
    have hmethods : checkMethods name.name (fun ms => table ⟨token, name, parent, fields, ctor, ms⟩) []
        (before ++ place.fill (v.withType (.cls unknown)) :: after) =
          { decl := before ++ place.fill (v.withType .noType) :: after
            issues := [report v.token.pos .D001 [unknown]] } :=
      checkMethods_undeclared hu hq hq' hbefore hafter
    have hctor : ∀ m, ctor = some m → (m.checkConstructor name.name fun k => table ⟨token, name, parent, fields, some k,
        before ++ place.fill (v.withType (.cls unknown)) :: after⟩).issues = [] := by
      rintro m rfl
      exact MethodDecl.BodyClean.checkConstructor (hc.constructor m rfl).1 (hearlier m (by simp [MemberPlace.earlier]))
    let c : ClassDecl := ⟨token, name, parent, fields, ctor, before ++ place.fill (v.withType (.cls unknown)) :: after⟩
    have hfields : ∀ x ∈ c.fields, x.Clean p.hasClass := hc.fields
    have hclass := ClassDecl.checkMembers_of_methods (c := c) hfields hctor hq
    simp only [c, hmethods] at hclass
    exact hclass

end

theorem ClassDecl.Clean.of_bodies {entry : String} {p q : Program} {c : ClassDecl} (hc : c.Clean entry p)
    (hcls : q.hasClass = p.hasClass) (hb : ∀ m ∈ c.bodies, m.BodyClean q c.name.name) : c.Clean entry q :=
  ⟨hc.toMembersClean.of_bodies (c.retyped_self Ty.keptOrLost_self Ty.keptOrLost_self) hcls hb, hcls ▸ hc.head⟩

theorem mem_bodiesOf {cs : List ClassDecl} {c : ClassDecl} (hc : c ∈ cs) {m : MethodDecl} (hm : m ∈ c.bodies) :
    (c.name.name, m) ∈ bodiesOf cs :=
  List.mem_flatMap.2 ⟨c, hc, List.mem_map.2 ⟨m, hm, rfl⟩⟩

/-- The declaration alone is reported, if all bodies are clean against what they are checked against. -/
theorem DeclPlace.check_undeclared {entry : String} {s : DeclPlace} {v : VarDecl} {unknown : String}
    (hc : (s.fill v).Clean entry) (hu : (s.fill v).hasClass unknown = false)
    (hearlier : ∀ b ∈ s.earlier, b.2.BodyClean (s.fill (v.withType (.cls unknown))) b.1)
    (hlater : ∀ b ∈ s.around (v.withType .noType) ++ s.later, b.2.BodyClean (s.fill (v.withType .noType)) b.1) :
    ((s.fill (v.withType (.cls unknown))).check entry).issues = [report v.token.pos .D001 [unknown]] := by
  have htwin := s.twin_fill v unknown
  have hfade := s.fades_fill v
  have hbefore : ∀ c ∈ s.before, c.Clean entry (s.fill (v.withType (.cls unknown))) := fun c hm =>
    (hc.classes c (List.mem_append_left _ hm)).of_bodies htwin.hasClass fun m hm' =>
      hearlier (c.name.name, m) (List.mem_append_left _ (mem_bodiesOf hm hm'))
  have hafter : ∀ c ∈ s.after, c.Clean entry (s.fill (v.withType .noType)) := fun c hm =>
    (hc.classes c (List.mem_append_right _ (List.mem_cons_of_mem _ hm))).of_bodies hfade.hasClass fun m hm' =>
      hlater (c.name.name, m) (List.mem_append_right _ (List.mem_append_right _ (mem_bodiesOf hm hm')))
  have hclass := hc.classes (s.member.fill v) (by simp [DeclPlace.fill])
  have hmembers : (s.member.fill (v.withType (.cls unknown))).checkMembers
      (fun c => { file := s.file, classes := s.before ++ c :: s.after }) =
        { decl := s.member.fill (v.withType .noType), issues := [report v.token.pos .D001 [unknown]] } := by
    refine MemberPlace.checkMembers_undeclared hu htwin.hasClass hfade.hasClass hclass.toMembersClean ?_ ?_
    · exact fun m hm => hearlier (s.member.className, m) (List.mem_append_right _ (List.mem_map_of_mem hm))
    · refine fun m hm => hlater (s.member.className, m) ?_
      exact List.mem_append.2 ((List.mem_append.1 hm).imp List.mem_map_of_mem
        fun hm => List.mem_append_left _ (List.mem_map_of_mem hm))
  have hmember : (s.member.fill v).Retyped (fun _ _ => True) (fun _ _ => True) (s.member.fill (v.withType (.cls unknown))) :=
    s.member.retyped_fill (fun _ => trivial) (fun _ => trivial) (fun _ => v.retyped_withType trivial)
      fun _ => v.retyped_withType trivial
  have hhead : (s.member.fill (v.withType (.cls unknown))).headIssues entry
      ({ file := s.file, classes := s.before ++ s.member.fill (v.withType (.cls unknown)) :: s.after } : Program).hasClass =
        [] := by
    rw [ClassDecl.headIssues_retyped hmember entry]
    exact htwin.hasClass ▸ hclass.head
  have hrest : (checkClasses s.file entry (s.before ++ [s.member.fill (v.withType .noType)]) s.after).issues = [] :=
    checkClasses_of_clean (by simpa [DeclPlace.fill] using hafter)
  have hclasses : (checkClasses s.file entry [] (s.fill (v.withType (.cls unknown))).classes).issues =
      [report v.token.pos .D001 [unknown]] := by
    rw [DeclPlace.fill, checkClasses_append_of_clean (by simpa [DeclPlace.fill] using hbefore), List.nil_append, checkClasses]
    simp only [hhead, hmembers, hrest]
    rfl
  have hentry : (s.fill (v.withType (.cls unknown))).classes.any (·.name.name = entry) = true := by
    obtain ⟨c, hc, hn⟩ := hc.entry
    have hmem : entry ∈ (s.fill (v.withType (.cls unknown))).classes.map (·.name.name) :=
      htwin.names ▸ List.mem_map.2 ⟨c, hc, hn⟩
    simpa using hmem
  rw [Program.check]
  simp only [hentry, if_true, List.append_nil]
  exact hclasses

theorem MemberPlace.mem_bodies {s : MemberPlace} {v : VarDecl} {m : MethodDecl}
    (hm : m ∈ s.earlier ++ (s.around v ++ s.later)) : (s.fill v).name.name = s.className ∧ m ∈ (s.fill v).bodies := by
  cases s with
  | field c before after => exact ⟨rfl, hm⟩
  | ofConstructor c place => exact ⟨rfl, hm⟩
  | ofMethod c before place after => exact ⟨rfl, by simpa [MemberPlace.fill, earlier, around, later, ClassDecl.bodies] using hm⟩

theorem VarPlace.exists_of_mem {m : MethodDecl} {v : VarDecl} (hv : v ∈ m.args ++ m.locals) :
    ∃ s : VarPlace, s.fill v = m := by
  obtain ⟨token, name, args, locals, returnType, body⟩ := m
  obtain hv | hv := List.mem_append.1 hv
  · obtain ⟨before, after, rfl⟩ := List.append_of_mem hv
    exact ⟨.param ⟨token, name, [], locals, returnType, body⟩ before after, rfl⟩
  · obtain ⟨before, after, rfl⟩ := List.append_of_mem hv
    exact ⟨.localVar ⟨token, name, args, [], returnType, body⟩ before after, rfl⟩

theorem MemberPlace.exists_of_mem {c : ClassDecl} {v : VarDecl} (hv : v ∈ c.variables) :
    ∃ s : MemberPlace, s.fill v = c := by
  obtain ⟨token, name, parent, fields, ctor, methods⟩ := c
  simp only [ClassDecl.variables, ClassDecl.bodies, List.mem_append, List.mem_flatMap, Option.mem_toList] at hv
  obtain hv | ⟨m, hm | hm, hv⟩ := hv
  · obtain ⟨before, after, rfl⟩ := List.append_of_mem hv
    exact ⟨.field ⟨token, name, parent, [], ctor, methods⟩ before after, rfl⟩
  · obtain rfl : ctor = some m := hm
    obtain ⟨place, rfl⟩ := VarPlace.exists_of_mem (List.mem_append.2 hv)
    exact ⟨.ofConstructor ⟨token, name, parent, fields, none, methods⟩ place, rfl⟩
  · obtain ⟨place, rfl⟩ := VarPlace.exists_of_mem (List.mem_append.2 hv)
    obtain ⟨before, after, rfl⟩ := List.append_of_mem hm
    exact ⟨.ofMethod ⟨token, name, parent, fields, ctor, []⟩ before place after, rfl⟩

namespace DeclPlace

variable {s : DeclPlace} {v : VarDecl}

/-- The bodies checked before the declaration that can refer to it. -/
def seenEarlier (s : DeclPlace) : List (String × MethodDecl) := if s.member.isLocal then [] else s.earlier

/-- The bodies checked after it, the one around it aside, that can refer to it. -/
def seenLater (s : DeclPlace) : List (String × MethodDecl) := if s.member.isLocal then [] else s.later

theorem exists_class_of_mem {b : String × MethodDecl} (hb : b ∈ s.earlier ++ (s.around v ++ s.later)) :
    ∃ c ∈ (s.fill v).classes, c.name.name = b.1 ∧ b.2 ∈ c.bodies := by
  obtain ⟨cls, m⟩ := b
  have hmember : ∀ n ∈ s.member.earlier ++ (s.member.around v ++ s.member.later), (s.member.className, n) = (cls, m) →
      ∃ c ∈ (s.fill v).classes, c.name.name = cls ∧ m ∈ c.bodies := by
    rintro n hn ⟨⟩
    exact ⟨s.member.fill v, by simp [fill], MemberPlace.mem_bodies hn⟩
  have hclass : ∀ cs ⊆ (s.fill v).classes, (cls, m) ∈ bodiesOf cs →
      ∃ c ∈ (s.fill v).classes, c.name.name = cls ∧ m ∈ c.bodies := by
    intro cs hcs hm
    obtain ⟨c, hc, hm⟩ := List.mem_flatMap.1 hm
    obtain ⟨n, hn, ⟨⟩⟩ := List.mem_map.1 hm
    exact ⟨c, hcs hc, rfl, hn⟩
  simp only [earlier, around, later, List.mem_append, List.mem_map] at hb
  obtain (hb | ⟨n, hn, he⟩) | ⟨n, hn, he⟩ | ⟨n, hn, he⟩ | hb := hb
  · exact hclass s.before (by simp [fill]) hb
  · exact hmember n (by simp [hn]) he
  · exact hmember n (by simp [hn]) he
  · exact hmember n (by simp [hn]) he
  · exact hclass s.after (by simp [fill]) hb

theorem known_of_mem {entry : String} (hc : (s.fill v).Clean entry) (hw : (s.fill v).Written) {b : String × MethodDecl}
    (hb : b ∈ s.earlier ++ (s.around v ++ s.later)) :
    Context.Known ⟨s.fill v, b.1, b.2⟩ ∧ b.2.BodyClean (s.fill v) b.1 := by
  obtain ⟨c, hm, hn, hbody⟩ := exists_class_of_mem hb
  exact hn ▸ ⟨hc.context_known hw hm hbody, hc.bodyClean hm hbody⟩

theorem exists_mem_around {b : String × MethodDecl} (hb : b ∈ s.around (v.withType .noType)) :
    ∃ m, (b.1, m) ∈ s.around v ∧ m.Retyped Ty.KeptOrLost Ty.KeptOrLost b.2 := by
  obtain ⟨file, before, member, after⟩ := s
  cases member with
  | field c before after => cases hb
  | ofConstructor c place =>
    obtain rfl := List.mem_singleton.1 hb
    exact ⟨_, List.mem_singleton_self _, place.fades_fill v⟩
  | ofMethod c before place after =>
    obtain rfl := List.mem_singleton.1 hb
    exact ⟨_, List.mem_singleton_self _, place.fades_fill v⟩

/-- Where the loss of a declared type goes unnoticed. Bodies that could refer to the declaration but are checked
before it do not, and those checked after it absorb `noType`; nothing in them indexes a list without positions. -/
structure Quiet (s : DeclPlace) (v : VarDecl) (unknown : String) : Prop where
  earlier : ∀ b ∈ s.seenEarlier, ∀ e ∈ b.2.subterms,
    Context.FindsAlike ⟨s.fill v, b.1, b.2⟩ ⟨s.fill (v.withType (.cls unknown)), b.1, b.2⟩ e
  later : ∀ b ∈ s.around (v.withType .noType) ++ s.seenLater,
    Context.AbsorbsAll ⟨s.fill (v.withType .noType), b.1, b.2⟩
  filled : ∀ b ∈ s.around v ++ s.seenLater, Context.IndexesFilled ⟨s.fill v, b.1, b.2⟩ b.2.values

variable {unknown entry : String}

/-- Outside its body nothing hangs on the type of a local. -/
theorem retyped_fill_of_isLocal (hl : s.member.isLocal = true) (v w : VarDecl) (h : w.token = v.token ∧ w.name = v.name) :
    (s.fill v).Retyped Eq (fun _ _ => True) (s.fill w) :=
  s.retyped_fill (fun _ => rfl) (fun _ => trivial) (fun hf => by simp [hl] at hf) fun _ => ⟨h.1, h.2, trivial⟩

theorem Quiet.bodyClean_earlier (h : s.Quiet v unknown) (hc : (s.fill v).Clean entry) (hw : (s.fill v).Written)
    {b : String × MethodDecl} (hb : b ∈ s.earlier) : b.2.BodyClean (s.fill (v.withType (.cls unknown))) b.1 := by
  obtain ⟨-, hbody⟩ := known_of_mem hc hw (List.mem_append_left (s.around v ++ s.later) hb)
  by_cases hl : s.member.isLocal = true
  · have htwin := retyped_fill_of_isLocal hl v (v.withType (.cls unknown)) ⟨rfl, rfl⟩
    exact hbody.of_findsAlike htwin fun e _ => Context.findsAlike_retyped htwin e
  · exact hbody.of_findsAlike (s.twin_fill v unknown) (h.earlier b (by simpa [seenEarlier, hl] using hb))

theorem Quiet.bodyClean_later (h : s.Quiet v unknown) (hc : (s.fill v).Clean entry) (hw : (s.fill v).Written)
    {b : String × MethodDecl} (hb : b ∈ s.around (v.withType .noType) ++ s.later) :
    b.2.BodyClean (s.fill (v.withType .noType)) b.1 := by
  obtain hb | hb := List.mem_append.1 hb
  · obtain ⟨m, hm, hmb⟩ := exists_mem_around hb
    obtain ⟨hk, hbody⟩ := known_of_mem hc hw (List.mem_append_right s.earlier (List.mem_append_left s.later hm))
    exact hbody.fades ⟨s.fades_fill v, rfl, hmb⟩ hk (h.filled _ (List.mem_append_left _ hm))
      (h.later b (List.mem_append_left _ hb))
  · obtain ⟨hk, hbody⟩ := known_of_mem hc hw (List.mem_append_right s.earlier (List.mem_append_right (s.around v) hb))
    by_cases hl : s.member.isLocal = true
    · have htwin := retyped_fill_of_isLocal hl v (v.withType .noType) ⟨rfl, rfl⟩
      exact hbody.of_findsAlike htwin fun e _ => Context.findsAlike_retyped htwin e
    · have hseen : b ∈ s.seenLater := by simpa [seenLater, hl] using hb
      exact hbody.fades ⟨s.fades_fill v, rfl, b.2.retyped_self Ty.keptOrLost_self Ty.keptOrLost_self⟩ hk
        (h.filled b (List.mem_append_right _ hseen)) (h.later b (List.mem_append_right _ hseen))

theorem mem_variables_fill (s : MemberPlace) (w : VarDecl) : w ∈ (s.fill w).variables := by
  have hplace : ∀ place : VarPlace, w ∈ (place.fill w).args ++ (place.fill w).locals := by
    intro place
    cases place <;> simp [VarPlace.fill]
  cases s with
  | field c before after => simp [MemberPlace.fill, ClassDecl.variables]
  | ofConstructor c place =>
    exact List.mem_append_right _ (List.mem_flatMap.2 ⟨place.fill w, by simp [MemberPlace.fill, ClassDecl.bodies], hplace place⟩)
  | ofMethod c before place after =>
    exact List.mem_append_right _ (List.mem_flatMap.2 ⟨place.fill w, by simp [MemberPlace.fill, ClassDecl.bodies], hplace place⟩)

end DeclPlace

theorem Program.exists_place {p : Program} {c : ClassDecl} (hc : c ∈ p.classes) {v : VarDecl} (hv : v ∈ c.variables) :
    ∃ s : DeclPlace, s.fill v = p := by
  obtain ⟨file, classes⟩ := p
  obtain ⟨before, after, rfl⟩ := List.append_of_mem hc
  obtain ⟨member, rfl⟩ := MemberPlace.exists_of_mem hv
  exact ⟨⟨file, before, member, after⟩, rfl⟩

/-- Every field, parameter and local of an accepted program has its place. Where the type there is replaced by a class
that is not declared, that is reported at the declaration, and nothing else is if the place is quiet. -/
theorem undeclared_type_reported {entry : String} {p : Program} {unknown : String} (hw : p.Written)
    (ha : (p.check entry).issues = []) (hu : p.hasClass unknown = false) :
    (∀ c ∈ p.classes, ∀ v ∈ c.variables, ∃ s : DeclPlace, s.fill v = p) ∧
    ∀ (s : DeclPlace) (v : VarDecl), s.fill v = p →
      report v.token.pos .D001 [unknown] ∈ ((s.fill (v.withType (.cls unknown))).check entry).issues ∧
        (s.Quiet v unknown →
          ((s.fill (v.withType (.cls unknown))).check entry).issues = [report v.token.pos .D001 [unknown]]) := by
  obtain ⟨-, hclean⟩ := Program.check_clean ha
  refine ⟨fun c hc v hv => Program.exists_place hc hv, ?_⟩
  rintro s v rfl
  constructor
  · have hcls : (s.fill (v.withType (.cls unknown))).hasClass unknown = false := (s.twin_fill v unknown).hasClass ▸ hu
    have hd : report v.token.pos .D001 [unknown] ∈ (Ty.cls unknown).issues (s.fill (v.withType (.cls unknown))).hasClass
        v.token.pos v.name.name := by simp [Ty.issues, hcls]
    exact Program.mem_issues_check (c := s.member.fill (v.withType (.cls unknown))) (by simp [DeclPlace.fill])
      (DeclPlace.mem_variables_fill s.member _) hd
  · intro hq
    exact DeclPlace.check_undeclared hclean hu (fun b hb => hq.bodyClean_earlier hclean hw hb)
      fun b hb => hq.bodyClean_later hclean hw hb

namespace PassedParam

open Sample Yaml

/-- A class with a variable that is set and printed, and a method that is called with a number. -/
def source : String :=
  "classes: [{class: Main, constructor: {locals: [{x: int}], body: [{assign: [x, 1]}, {print: x}]}, methods: [{name: m, args: [{a: int}]}, {name: n, body: [{call: [{dot: [this, m]}, 1]}]}]}]"

def number (text : String) (column : Nat) : Node := ⟨.scalar, "!!int", .plain, text, 1, column, []⟩

def root : Node :=
  entry 1 [word "classes" 1, row 10 [
    entry 11 [word "class" 12, word "Main" 19, word "constructor" 25,
      entry 38 [word "locals" 39, row 47 [entry 48 [word "x" 49, word "int" 52]],
        word "body" 59, row 65 [
          entry 66 [word "assign" 67, row 75 [word "x" 76, number "1" 79]],
          entry 84 [word "print" 85, word "x" 92]]],
      word "methods" 98, row 107 [
        entry 108 [word "name" 109, word "m" 115, word "args" 118, row 124 [entry 125 [word "a" 126, word "int" 129]]],
        entry 137 [word "name" 138, word "n" 144, word "body" 147, row 153 [
          entry 154 [word "call" 155, row 161 [
            entry 162 [word "dot" 163, row 168 [word "this" 169, word "m" 175]], number "1" 180]]]]]]]]

def held : VarDecl := ⟨⟨.var, "x", 1, 49⟩, name "x" 49, .int⟩

def param : VarDecl := ⟨⟨.var, "a", 1, 126⟩, name "a" 126, .int⟩

def constructor : MethodDecl where
  token := ⟨.constructor, "", 1, 38⟩
  name := ⟨⟨.constructor, "", 1, 38⟩, "Main"⟩
  locals := [held]
  body := [
    .assign ⟨token (.binary .assign) 67, .ident (name "x" 76), .int ⟨.intLit, "1", 1, 79⟩ 1⟩,
    .print (token .print 85) (.ident (name "x" 92))]

def callee : MethodDecl where
  token := ⟨.method, "m", 1, 108⟩
  name := name "m" 115
  args := [param]
  returnType := some .void

def call : Stmt :=
  .call (token .paren 155) (.member (token .dot 163) (.this (token .this 169)) (name "m" 175))
    [.int ⟨.intLit, "1", 1, 180⟩ 1]

def caller : MethodDecl where
  token := ⟨.method, "n", 1, 137⟩
  name := name "n" 144
  returnType := some .void
  body := [call]

def main : ClassDecl where
  token := ⟨.classDecl, "Main", 1, 11⟩
  name := name "Main" 19
  constructor := some constructor
  methods := [callee, caller]

def program : Program := { file := "sample", classes := [main] }

theorem parse_int : Ty.parse "int" = .ok .int := by rfl

theorem ofNode_root : Program.ofNode "sample" root = .ok program := by
  simp [Program.ofNode, root, entry, row, word, number, Decoder.classLists, Decoder.classDecl, Decoder.entries,
    Decoder.classParts, Decoder.name, Decoder.constructor, Decoder.method, Decoder.methodParts, Decoder.stmtList,
    Decoder.stmts, Decoder.stmt, Decoder.expr, Decoder.exprs, Decoder.scalar, Decoder.vars, Decoder.var, Decoder.type,
    Decoder.assignment, Decoder.callParts, Node.isNull, bind, Except.bind, pure, Except.pure, int?_one, parse_int]
  rfl

set_option maxRecDepth 1500 in
theorem decode_source : Program.decode "sample" source = .ok program :=
  Program.decode_of_read (by decide +kernel) ofNode_root

def localPlace : DeclPlace := ⟨"sample", [], .ofConstructor main (.localVar constructor [] []), []⟩

/-- The place of the parameter of the method that is called. -/
def paramPlace : DeclPlace := ⟨"sample", [], .ofMethod main [] (.param callee [] []) [caller], []⟩

theorem quiet_localPlace : localPlace.Quiet held "Missing" where
  earlier _ hb := nomatch hb
  later b hb := by
    obtain rfl := List.mem_singleton.1 hb
    refine ⟨fun e he => ?_, fun l hl => nomatch hl⟩
    have hterms : e = .ident (name "x" 76) ∨ e = .int ⟨.intLit, "1", 1, 79⟩ 1 ∨ e = .ident (name "x" 92) := by
      simpa [MethodDecl.subterms, Stmt.subtermsOfAll, Stmt.subterms, Assign.subterms, Expr.subterms, VarPlace.fill,
        constructor, main] using he
    obtain rfl | rfl | rfl := hterms <;> trivial
  filled b hb := by
    obtain rfl := List.mem_singleton.1 hb
    intro t x i hi
    simp [MethodDecl.values, Stmt.valuesOfAll, Stmt.values, Assign.subterms, Expr.subterms, VarPlace.fill,
      constructor] at hi

end PassedParam

theorem undeclared_type_reported_sample :
    (∀ c ∈ PassedParam.program.classes, ∀ v ∈ c.variables, ∃ s : DeclPlace, s.fill v = PassedParam.program) ∧
      (report ⟨1, 49⟩ .D001 ["Missing"] ∈
        ((PassedParam.localPlace.fill (PassedParam.held.withType (.cls "Missing"))).check "Main").issues) ∧
      PassedParam.localPlace.Quiet PassedParam.held "Missing" ∧
      ((PassedParam.localPlace.fill (PassedParam.held.withType (.cls "Missing"))).check "Main").issues =
        [report ⟨1, 49⟩ .D001 ["Missing"]] := by
  obtain ⟨hplaced, hplaces⟩ := undeclared_type_reported (Program.decode_written PassedParam.decode_source)
    (by decide : (PassedParam.program.check "Main").issues = []) (by decide : PassedParam.program.hasClass "Missing" = false)
  obtain ⟨hreport, honly⟩ := hplaces PassedParam.localPlace PassedParam.held rfl
  exact ⟨hplaced, hreport, PassedParam.quiet_localPlace, honly PassedParam.quiet_localPlace⟩

/-- The number that is passed to the method is reported as well, for there is no type that it could have. -/
theorem undeclared_param_reported_twice :
    Program.decode "sample" PassedParam.source = .ok (PassedParam.paramPlace.fill PassedParam.param) ∧
      ((PassedParam.paramPlace.fill PassedParam.param).check "Main").issues = [] ∧
      (PassedParam.paramPlace.fill PassedParam.param).hasClass "Missing" = false ∧
      ((PassedParam.paramPlace.fill (PassedParam.param.withType (.cls "Missing"))).check "Main").issues =
        [report ⟨1, 126⟩ .D001 ["Missing"], report ⟨1, 155⟩ .E013] :=
  ⟨PassedParam.decode_source, by decide, by decide, by decide⟩

end ClassCompiler
