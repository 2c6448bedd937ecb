import ClassCompiler.Typing.Basic

namespace ClassCompiler

namespace Ty

/-- The names of a list type that stand at another position too. -/
def isRepeated (elems : List (String × Ty)) (name : String) : Bool :=
  name ≠ "" && 1 < elems.countP (·.1 = name)

def firstRepeated? (elems : List (String × Ty)) : Option String :=
  (elems.find? fun e => isRepeated elems e.1).map Prod.fst

mutual

/-- What is wrong with a declared type; `name` is what is declared. -/
def issues (hasClass : String → Bool) (pos : Pos) (name : String) : Ty → List Diagnostic
  | .cls c => if hasClass c then [] else [report pos .D001 [c]]
  | .fptr ps r => issuesOfAll hasClass pos name ps ++ r.issues hasClass pos name
  | .list [] => [report pos .D008 [name]]
  | .list (e :: es) =>
    (match firstRepeated? (e :: es) with
      | some n => [report pos .D009 [n]]
      | none => []) ++ e.2.issues hasClass pos name ++ issuesOfElems hasClass pos name es
  | _ => []

def issuesOfAll (hasClass : String → Bool) (pos : Pos) (name : String) : List Ty → List Diagnostic
  | [] => []
  | t :: ts => t.issues hasClass pos name ++ issuesOfAll hasClass pos name ts

def issuesOfElems (hasClass : String → Bool) (pos : Pos) (name : String) :
    List (String × Ty) → List Diagnostic
  | [] => []
  | (_, t) :: es => t.issues hasClass pos name ++ issuesOfElems hasClass pos name es

end

mutual

def passes (hasClass : String → Bool) : Ty → Bool
  | .cls c => hasClass c
  | .fptr ps r => passesAll hasClass ps && r.passes hasClass
  | .list [] => false
  | .list (e :: es) =>
    e.2.passes hasClass && passesElems hasClass es && !(e :: es).any fun f => isRepeated (e :: es) f.1
  | _ => true

def passesAll (hasClass : String → Bool) : List Ty → Bool
  | [] => true
  | t :: ts => t.passes hasClass && passesAll hasClass ts

def passesElems (hasClass : String → Bool) : List (String × Ty) → Bool
  | [] => true
  | (_, t) :: es => t.passes hasClass && passesElems hasClass es

end

mutual

/-- A type with `noType` at the positions whose name is repeated in their list. -/
def withoutRepeated : Ty → Ty
  | .fptr ps r => .fptr (withoutRepeatedAll ps) r.withoutRepeated
  | .list es => .list (withoutRepeatedElems (isRepeated es) es)
  | t => t

def withoutRepeatedAll : List Ty → List Ty
  | [] => []
  | t :: ts => t.withoutRepeated :: withoutRepeatedAll ts

def withoutRepeatedElems (repeated : String → Bool) : List (String × Ty) → List (String × Ty)
  | [] => []
  | (n, t) :: es =>
    (n, if repeated n then .noType else t.withoutRepeated) :: withoutRepeatedElems repeated es

end

end Ty

/-- A declaration after it was checked, and what is wrong with it. -/
structure Checked (α : Type) where
  decl : α
  issues : List Diagnostic := []

/-- A variable whose type is wrong in any part has type `noType`. -/
def VarDecl.check (hasClass : String → Bool) (v : VarDecl) : Checked VarDecl :=
  { decl := if v.type.passes hasClass then v else { v with type := .noType }
    issues := v.type.issues hasClass v.token.pos v.name.name }

def VarDecl.checkAll (hasClass : String → Bool) (vs : List VarDecl) : Checked (List VarDecl) :=
  { decl := vs.map fun v => (v.check hasClass).decl
    issues := vs.flatMap fun v => (v.check hasClass).issues }

def MethodDecl.checkResult (hasClass : String → Bool) (m : MethodDecl) : Checked MethodDecl :=
  match m.returnType with
  | none => { decl := m }
  | some t =>
    -- Only repeated names are taken out here: a wrong result type stays, unlike that of a variable.
    { decl := { m with returnType := some t.withoutRepeated }
      issues := t.issues hasClass m.token.pos m.name.name }

/-- The parameters and the locals of a method or constructor. -/
def MethodDecl.checkVars (hasClass : String → Bool) (m : MethodDecl) : Checked MethodDecl :=
  let args := VarDecl.checkAll hasClass m.args
  let locals := VarDecl.checkAll hasClass m.locals
  { decl := { m with args := args.decl, locals := locals.decl }, issues := args.issues ++ locals.issues }

end ClassCompiler
