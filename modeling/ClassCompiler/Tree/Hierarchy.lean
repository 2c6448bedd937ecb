import ClassCompiler.Tree.Basic
import ClassCompiler.Ty.Subtype

namespace ClassCompiler

namespace ClassDecl

def field? (c : ClassDecl) (name : String) : Option VarDecl :=
  c.fields.find? (·.name.name = name)

def method? (c : ClassDecl) (name : String) : Option MethodDecl :=
  c.methods.find? (·.name.name = name)

end ClassDecl

def findClass? (cs : List ClassDecl) (name : String) : Option ClassDecl :=
  cs.find? (·.name.name = name)

/-- The walk from a class up through its parents. Every class met is taken out of `cs`, so the walk
ends at an unknown class and on a cycle, and `cs.length` steps are enough. -/
def ancestorsIn : (steps : Nat) → (cs : List ClassDecl) → (name : String) → List ClassDecl
  | 0, _, _ => []
  | steps + 1, cs, name =>
    match findClass? cs name with
    | none => []
    | some c => c :: ancestorsIn steps (cs.filter (·.name.name ≠ name)) c.parentName

namespace Program

def class? (p : Program) (name : String) : Option ClassDecl := findClass? p.classes name

def hasClass (p : Program) (name : String) : Bool := (p.class? name).isSome

/-- The classes that are the declaration of their name, in order. -/
def declaredClasses (p : Program) : List ClassDecl :=
  p.classes.foldl (fun seen c => if (findClass? seen c.name.name).isSome then seen else seen ++ [c]) []

def ancestors (p : Program) (name : String) : List ClassDecl :=
  ancestorsIn p.classes.length p.classes name

/-- Whether `name` is `ancestor` or has it for an ancestor; the last parent of the walk counts even
if it is not declared. -/
def hasAncestor (p : Program) (name ancestor : String) : Bool :=
  name = ancestor || (p.ancestors name).any fun c => c.name.name = ancestor || c.parentName = ancestor

/-- A field of a class or of its nearest ancestor that has one of that name, with its owner. -/
def field? (p : Program) (cls name : String) : Option (String × VarDecl) :=
  (p.ancestors cls).findSome? fun c => (c.field? name).map (c.name.name, ·)

def method? (p : Program) (cls name : String) : Option (String × MethodDecl) :=
  (p.ancestors cls).findSome? fun c => (c.method? name).map (c.name.name, ·)

/-- The constructor a class itself declares; constructors are not inherited. -/
def constructor? (p : Program) (cls : String) : Option MethodDecl :=
  (p.class? cls).bind ClassDecl.constructor

/-- Adds the methods of a class that the table does not have yet. -/
def addMethods (table : List (String × String)) (c : ClassDecl) : List (String × String) :=
  c.methods.foldl (fun table m =>
    if (table.lookup m.name.name).isSome then table
    else table ++ [(m.name.name, c.name.name)]) table

/-- Every method name callable on a class, with the class that declares it. -/
def methodTable (p : Program) (cls : String) : List (String × String) :=
  (p.ancestors cls).foldl addMethods []

def methodNames (p : Program) (cls : String) : List String :=
  ((p.methodTable cls).map Prod.fst).mergeSort (fun a b => decide (a ≤ b))

/-- Whether a value of the first type may stand where the second is expected. -/
def isSubtype (p : Program) (a b : Ty) : Bool := Ty.isSubtype p.hasAncestor a b

def equivalent (p : Program) (a b : Ty) : Bool := Ty.equivalent p.hasAncestor a b

end Program

/-- What a name stands for. Parameters and locals have a slot of the frame, members an owner. -/
inductive Symbol where
  | param (slot : Nat) (decl : VarDecl)
  | localVar (slot : Nat) (decl : VarDecl)
  | field (owner : String) (decl : VarDecl)
  | method (owner : String) (decl : MethodDecl)
  deriving Repr, Inhabited

namespace Symbol

def name : Symbol → String
  | .param _ d => d.name.name
  | .localVar _ d => d.name.name
  | .field _ d => d.name.name
  | .method _ d => d.name.name

def type : Symbol → Ty
  | .param _ d => d.type
  | .localVar _ d => d.type
  | .field _ d => d.type
  | .method _ d => d.functionType

def slot : Symbol → Nat
  | .param s _ => s
  | .localVar s _ => s
  | _ => 0

def owner : Symbol → String
  | .field o _ => o
  | .method o _ => o
  | _ => ""

def kindName : Symbol → String
  | .param _ _ => "param"
  | .localVar _ _ => "local"
  | .field _ _ => "field"
  | .method _ _ => "method"

end Symbol

namespace MethodDecl

/-- The names of a body. Slot 0 holds the receiver; the parameters follow, then the locals. -/
def symbols (m : MethodDecl) : List Symbol :=
  (m.args.zipIdx 1).map (fun (d, i) => .param i d) ++
    (m.locals.zipIdx (1 + m.args.length)).map (fun (d, i) => .localVar i d)

def symbol? (m : MethodDecl) (name : String) : Option Symbol := m.symbols.find? (·.name = name)

/-- The slots of the receiver, the parameters and the locals. -/
def slotCount (m : MethodDecl) : Nat := 1 + m.args.length + m.locals.length

end MethodDecl

end ClassCompiler
