import ClassCompiler.Proofs.Tree.Written
import ClassCompiler.Proofs.Typing.Clean

namespace ClassCompiler

variable {hasClass : String → Bool}

namespace Ty

theorem names_withoutRepeatedElems (repeated : String → Bool) (es : List (String × Ty)) :
    (withoutRepeatedElems repeated es).map Prod.fst = es.map Prod.fst := by
  induction es with
  | nil => rfl
  | cons e es ih => simp [withoutRepeatedElems, ih]

/-- Whether a name is repeated hangs on the names alone. -/
theorem isRepeated_congr {es fs : List (String × Ty)} (h : es.map Prod.fst = fs.map Prod.fst) :
    isRepeated es = isRepeated fs := by
  have hcount (es : List (String × Ty)) (name : String) :
      es.countP (·.1 = name) = (es.map Prod.fst).countP (· = name) := by
    rw [List.countP_map]
    rfl
  funext name
  rw [isRepeated, isRepeated, hcount, hcount, h]

mutual

theorem withoutRepeated_withoutRepeated (t : Ty) : t.withoutRepeated.withoutRepeated = t.withoutRepeated := by
  match t with
  | .int | .bool | .string | .null | .void | .noType | .cls _ => simp [withoutRepeated]
  | .fptr ps r =>
    simp only [withoutRepeated, withoutRepeatedAll_withoutRepeatedAll ps, withoutRepeated_withoutRepeated r]
  | .list es =>
    simp only [withoutRepeated, isRepeated_congr (names_withoutRepeatedElems (isRepeated es) es),
      withoutRepeatedElems_withoutRepeatedElems (isRepeated es) es]

theorem withoutRepeatedAll_withoutRepeatedAll (ts : List Ty) :
    withoutRepeatedAll (withoutRepeatedAll ts) = withoutRepeatedAll ts := by
  match ts with
  | [] => rfl
  | t :: ts =>
    simp only [withoutRepeatedAll, withoutRepeated_withoutRepeated t, withoutRepeatedAll_withoutRepeatedAll ts]

theorem withoutRepeatedElems_withoutRepeatedElems (repeated : String → Bool) (es : List (String × Ty)) :
    withoutRepeatedElems repeated (withoutRepeatedElems repeated es) = withoutRepeatedElems repeated es := by
  match es with
  | [] => rfl
  | (n, t) :: es =>
    simp only [withoutRepeatedElems, withoutRepeatedElems_withoutRepeatedElems repeated es]
    cases repeated n with
    | true => rfl
    | false => simp [withoutRepeated_withoutRepeated t]

end

end Ty

def VarDecl.downgraded (hasClass : String → Bool) (v : VarDecl) : VarDecl := (v.check hasClass).decl

def MethodDecl.downgradedVars (hasClass : String → Bool) (m : MethodDecl) : MethodDecl :=
  { m with args := m.args.map (VarDecl.downgraded hasClass), locals := m.locals.map (VarDecl.downgraded hasClass) }

def MethodDecl.downgraded (hasClass : String → Bool) (m : MethodDecl) : MethodDecl :=
  { m.downgradedVars hasClass with returnType := m.returnType.map Ty.withoutRepeated }

def ClassDecl.downgraded (hasClass : String → Bool) (c : ClassDecl) : ClassDecl :=
  { c with
    fields := c.fields.map (VarDecl.downgraded hasClass)
    constructor := c.constructor.map (MethodDecl.downgradedVars hasClass)
    methods := c.methods.map (MethodDecl.downgraded hasClass) }

def Program.downgraded (p : Program) : Program := { p with classes := p.classes.map (ClassDecl.downgraded p.hasClass) }

theorem VarDecl.downgraded_downgraded (v : VarDecl) : (v.downgraded hasClass).downgraded hasClass = v.downgraded hasClass := by
  by_cases h : v.type.issues hasClass v.token.pos v.name.name = []
  · simp [VarDecl.downgraded, VarDecl.decl_check_eq, h]
  · simp [VarDecl.downgraded, VarDecl.decl_check_eq, h, Ty.issues]

theorem MethodDecl.downgradedVars_downgradedVars (m : MethodDecl) :
    (m.downgradedVars hasClass).downgradedVars hasClass = m.downgradedVars hasClass := by
  simp [MethodDecl.downgradedVars, VarDecl.downgraded_downgraded, Function.comp_def]

theorem MethodDecl.downgraded_downgraded (m : MethodDecl) :
    (m.downgraded hasClass).downgraded hasClass = m.downgraded hasClass := by
  simp [MethodDecl.downgraded, MethodDecl.downgradedVars, VarDecl.downgraded_downgraded, Function.comp_def,
    Ty.withoutRepeated_withoutRepeated]

theorem ClassDecl.downgraded_downgraded (c : ClassDecl) :
    (c.downgraded hasClass).downgraded hasClass = c.downgraded hasClass := by
  simp [ClassDecl.downgraded, VarDecl.downgraded_downgraded, MethodDecl.downgradedVars_downgradedVars,
    MethodDecl.downgraded_downgraded, Function.comp_def]

/-- Which classes there are hangs on the names alone. -/
theorem Program.hasClass_congr {p q : Program}
    (h : p.classes.map (·.name.name) = q.classes.map (·.name.name)) : p.hasClass = q.hasClass := by
  have hany (p : Program) (n : String) : p.hasClass n = (p.classes.map (·.name.name)).any (· = n) := by
    rw [Bool.eq_iff_iff]
    simp [Program.hasClass, Program.class?, findClass?]
  funext n
  rw [hany, hany, h]

theorem Program.hasClass_downgraded (p : Program) : p.downgraded.hasClass = p.hasClass :=
  Program.hasClass_congr (by simp [Program.downgraded, ClassDecl.downgraded])

theorem Program.downgraded_downgraded (p : Program) : p.downgraded.downgraded = p.downgraded := by
  rw [Program.downgraded, Program.hasClass_downgraded]
  simp [Program.downgraded, ClassDecl.downgraded_downgraded, Function.comp_def]

theorem VarDecl.decl_checkAll (vs : List VarDecl) :
    (VarDecl.checkAll hasClass vs).decl = vs.map (VarDecl.downgraded hasClass) := rfl

theorem MethodDecl.decl_checkVars (m : MethodDecl) : (m.checkVars hasClass).decl = m.downgradedVars hasClass := rfl

theorem MethodDecl.decl_checkMethod {cls : String} {table : MethodDecl → Program} (m : MethodDecl)
    (ht : ∀ m', (table m').hasClass = hasClass) : (m.checkMethod cls table).decl = m.downgraded hasClass := by
  simp only [MethodDecl.checkMethod, ht, MethodDecl.decl_checkVars]
  unfold MethodDecl.checkResult
  cases hr : m.returnType with
  | none => simp [MethodDecl.downgraded, MethodDecl.downgradedVars, hr]
  | some t => simp [MethodDecl.downgraded, MethodDecl.downgradedVars, hr]

theorem decl_checkMethods {cls : String} {table : List MethodDecl → Program} (done ms : List MethodDecl)
    (ht : ∀ ms', (table ms').hasClass = hasClass) :
    (checkMethods cls table done ms).decl = done ++ ms.map (MethodDecl.downgraded hasClass) := by
  induction ms generalizing done with
  | nil => simp [checkMethods]
  | cons m ms ih =>
    simp only [checkMethods, ih, List.map_cons, MethodDecl.decl_checkMethod m fun m' => ht (done ++ m' :: ms)]
    simp

theorem ClassDecl.decl_checkMembers {table : ClassDecl → Program} (c : ClassDecl)
    (ht : ∀ c' : ClassDecl, c'.name = c.name → (table c').hasClass = hasClass) :
    (c.checkMembers table).decl = c.downgraded hasClass := by
  obtain ⟨token, name, parent, fields, ctor, methods⟩ := c
  simp only [ClassDecl.checkMembers, ht _ rfl, VarDecl.decl_checkAll]
  -- the methods are checked against tables that hold the downgraded fields and constructor
  have hmethods (ctor : Option MethodDecl) : (checkMethods name.name (fun ms => table
      ⟨token, name, parent, fields.map (VarDecl.downgraded hasClass), ctor, ms⟩) [] methods).decl =
      [] ++ methods.map (MethodDecl.downgraded hasClass) := decl_checkMethods [] methods fun ms => ht _ rfl
  cases ctor with
  | none => simp only [hmethods, List.nil_append, ClassDecl.downgraded, Option.map_none]
  | some m =>
    have hctor := ht ⟨token, name, parent, fields.map (VarDecl.downgraded hasClass), some m, methods⟩ rfl
    simp only [hmethods, List.nil_append, ClassDecl.downgraded, Option.map_some, MethodDecl.checkConstructor,
      MethodDecl.decl_checkVars, hctor]

/-- The classes before the one that is checked are downgraded, those after it are not yet; none has another name. -/
theorem decl_checkClasses {file entry : String} (done cs : List ClassDecl)
    (ht : ∀ p : Program, p.classes.map (·.name.name) = (done ++ cs).map (·.name.name) → p.hasClass = hasClass) :
    (checkClasses file entry done cs).decl = done ++ cs.map (ClassDecl.downgraded hasClass) := by
  induction cs generalizing done with
  | nil => simp [checkClasses]
  | cons c cs ih =>
    have hc : (c.checkMembers fun c' => { file, classes := done ++ c' :: cs }).decl = c.downgraded hasClass :=
      c.decl_checkMembers fun c' hn => ht _ (by simp [hn])
    simp only [checkClasses, hc]
    rw [ih (done ++ [c.downgraded hasClass]) fun p hp => ht p (by simpa [ClassDecl.downgraded] using hp)]
    simp

/-- A check downgrades every declaration and leaves the rest. -/
theorem Program.decl_check (entry : String) (p : Program) : (p.check entry).decl = p.downgraded := by
  have hcs : (checkClasses p.file entry [] p.classes).decl = [] ++ p.classes.map (ClassDecl.downgraded p.hasClass) :=
    decl_checkClasses [] p.classes fun q hq => Program.hasClass_congr hq
  simp only [Program.check, hcs, List.nil_append]
  rfl

def Program.afterChecks (entry : String) (p : Program) : (times : Nat) → Program
  | 0 => p
  | n + 1 => ((p.afterChecks entry n).check entry).decl

theorem Program.afterChecks_succ (entry : String) (p : Program) (n : Nat) : p.afterChecks entry (n + 1) = p.downgraded := by
  induction n with
  | zero => exact p.decl_check entry
  | succ n ih => rw [afterChecks, ih, decl_check, downgraded_downgraded]

def Program.expressionTypes (p : Program) : List (List (List Ty)) :=
  p.classes.map fun c => c.bodies.map fun m =>
    m.subterms.map ({ table := p, className := c.name.name, method := m } : Context).typeOf

/-- One check is enough: all further checks leave the program and report the same, and a check without reports
changes nothing at all. -/
theorem check_idempotent (entry : String) (p : Program) :
    (∀ n, ((p.check entry).decl.afterChecks entry n = (p.check entry).decl) ∧
      (((p.check entry).decl.afterChecks entry n).check entry).issues = ((p.check entry).decl.check entry).issues) ∧
    ((p.check entry).issues = [] → (p.check entry).decl = p ∧ ((p.check entry).decl.check entry).issues = [] ∧
      (p.check entry).decl.expressionTypes = p.expressionTypes) := by
  have hfix (n : Nat) : (p.check entry).decl.afterChecks entry n = (p.check entry).decl := by
    cases n with
    | zero => rfl
    | succ n => rw [Program.afterChecks_succ, Program.decl_check, Program.downgraded_downgraded]
  refine ⟨fun n => ⟨hfix n, by rw [hfix n]⟩, fun h => ?_⟩
  obtain ⟨hdecl, -⟩ := Program.check_clean h
  exact ⟨hdecl, by rw [hdecl, h], by rw [hdecl]⟩

/-- The program of a tally, with a local of a class that there is not. -/
def Tally.misspelt : Program where
  file := "sample"
  classes := [{ main with constructor := some { entry with locals := [Sample.var "t" (.cls "Tale")] } }, tally]

theorem check_idempotent_sample :
    (Tally.misspelt.check "Main").issues = [report ⟨0, 0⟩ .D001 ["Tale"]] ∧
    ((Tally.misspelt.check "Main").decl.classes.map fun c => c.bodies.map fun m => m.locals.map (·.type.isNoType)) =
      [[[true]], [[], [false]]] ∧
    (∀ n, ((Tally.misspelt.check "Main").decl.afterChecks "Main" n = (Tally.misspelt.check "Main").decl) ∧
      (((Tally.misspelt.check "Main").decl.afterChecks "Main" n).check "Main").issues =
        ((Tally.misspelt.check "Main").decl.check "Main").issues) ∧
    (Tally.program.check "Main").decl = Tally.program ∧ ((Tally.program.check "Main").decl.check "Main").issues = [] ∧
    (Tally.program.check "Main").decl.expressionTypes = Tally.program.expressionTypes := by
  obtain ⟨hruns, -⟩ := check_idempotent "Main" Tally.misspelt
  obtain ⟨-, hclean⟩ := check_idempotent "Main" Tally.program
  exact ⟨by decide +kernel, by decide +kernel, hruns, hclean Tally.accepted⟩

end ClassCompiler
