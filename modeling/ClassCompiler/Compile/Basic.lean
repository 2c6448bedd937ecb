import ClassCompiler.Code.Native
import ClassCompiler.Machine.Basic
import ClassCompiler.Typing.Basic

namespace ClassCompiler

/-- Why no code is generated. -/
inductive CompileProblem where
  | hasDiagnostics (count : Nat)
  | localsLimit (method : String) (needed : Nat) (limit : Int)
  | unresolved (name : String) (line : Int)
  | noElement (name : String) (line : Int)
  | noField (name cls : String) (line : Int)
  | noMember (name cls : String) (line : Int)
  | memberAccess (type : Ty) (line : Int)
  | cannotAssign (form : String) (line : Int)
  | cannotIncrement (form : String) (line : Int)
  | cannotPrint (type : Ty) (line : Int)
  | cannotIterate (type : Ty) (line : Int)
  | breakOutside (line : Int)
  | continueOutside (line : Int)
  deriving Repr, Inhabited

def atLine (s : String) (line : Int) : String := s ++ " at line " ++ toString line

def CompileProblem.text : CompileProblem → String
  | .hasDiagnostics n => toString n ++ " diagnostics: program has diagnostics"
  | .localsLimit m n l =>
    m ++ " needs " ++ toString n ++ " locals, limit " ++ toString l ++ ": locals limit exceeded"
  | .unresolved n l => atLine ("unresolved " ++ n) l
  | .noElement n l => atLine ("no element " ++ n) l
  | .noField n c l => atLine ("no field " ++ n ++ " in " ++ c) l
  | .noMember n c l => atLine ("no member " ++ n ++ " in " ++ c) l
  | .memberAccess t l => atLine ("member access on " ++ t.text) l
  | .cannotAssign f l => atLine ("cannot assign to *ast." ++ f) l
  | .cannotIncrement f l => atLine ("cannot increment *ast." ++ f) l
  | .cannotPrint t l => atLine ("cannot print " ++ t.text) l
  | .cannotIterate t l => atLine ("foreach over " ++ t.text) l
  | .breakOutside l => atLine "break outside of a loop" l
  | .continueOutside l => atLine "continue outside of a loop" l

/-- A problem with notes on where it was met, the outermost first. -/
structure CompileError where
  problem : CompileProblem
  notes : List String := []
  deriving Repr, Inhabited

def CompileError.message (e : CompileError) : String := joinNotes e.notes e.problem.text

def CompileError.within (note : String) (e : CompileError) : CompileError :=
  { e with notes := note :: e.notes }

/-- The next label and the next free slot. -/
structure Supply where
  labels : Nat := 0
  slots : Nat := 1
  deriving Repr, DecidableEq, Inhabited

abbrev Gen := StateT Supply (Except CompileError)

namespace Gen

def fail {α : Type} (p : CompileProblem) : Gen α := fun _ => .error { problem := p }

def newLabel : Gen String := fun s =>
  .ok ("Label_" ++ toString s.labels, { s with labels := s.labels + 1 })

def newSlot : Gen Nat := fun s => .ok (s.slots, { s with slots := s.slots + 1 })

/-- Starts a method: the slots from `n` on are free. -/
def freeSlotsFrom (n : Nat) : Gen Unit := fun s => .ok ((), { s with slots := n })

def within {α : Type} (note : String) (g : Gen α) : Gen α := fun s =>
  match g s with
  | .ok r => .ok r
  | .error e => .error (e.within note)

end Gen

def onLine (line : Int) (ops : List Op) : List Instr := ops.map fun op => { op, line }

def box : Ty → List Op
  | .int => [.invokeStatic NativeStatic.integerValueOf.ref]
  | .bool => [.invokeStatic NativeStatic.booleanValueOf.ref]
  | _ => []

/-- Turns an object of a boxed type into a raw number. -/
def unbox : Ty → List Op
  | .int => [.invokeVirtual NativeMethod.intValue.ref]
  | .bool => [.invokeVirtual NativeMethod.booleanValue.ref]
  | _ => []

/-- Turns a reference of unknown class into a value of the type. -/
def narrow : Ty → List Op
  | .null => []
  | .noType => []
  | .void => []
  | t => .cast t.classRef :: unbox t

def newArrayList : List Op :=
  [.new arrayListClass, .dup, .invokeSpecial ⟨arrayListClass, initName, "()V"⟩]

/-- Adds the value on the stack to the array list below it. -/
def addElement : List Op := [.invokeVirtual NativeMethod.arrayListAdd.ref, .pop]

mutual

/-- The value that a variable of the type starts with, boxed. -/
def defaultValue : Ty → List Op
  | .int => .pushInt 0 :: box .int
  | .bool => .pushInt 0 :: box .bool
  | .string => [.pushString ""]
  | .list es =>
    [.new listClass, .dup] ++ newArrayList ++ defaultElements es ++
      [.invokeSpecial NativeConstructor.listOfArrayList.ref]
  | _ => [.pushNull]

def defaultElements : List (String × Ty) → List Op
  | [] => []
  | (_, t) :: es => .dup :: defaultValue t ++ addElement ++ defaultElements es

end

/-- Pushes 1 if the jump is taken and 0 if it is not, or the other way round. -/
def branchMerge (jump : Jump) (taken : Int) (yes after : String) : List Op :=
  [.jump jump yes, .pushInt (1 - taken), .jump .always after, .label yes, .pushInt taken, .label after]

end ClassCompiler
