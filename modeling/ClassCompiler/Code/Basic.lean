import ClassCompiler.Ty.Descriptor

namespace ClassCompiler

/-- A field or method of a class. -/
structure MemberRef where
  owner : String := ""
  name : String := ""
  desc : String := ""
  deriving Repr, DecidableEq, Inhabited

inductive ArithOp where
  | add | sub | mul | div | rem
  deriving Repr, DecidableEq, Inhabited

inductive IntTest where
  | eq | ne | lt | gt | ge
  deriving Repr, DecidableEq, Inhabited

/-- When a jump is taken. -/
inductive Jump where
  | always
  | ifZero
  | ifNonzero
  | ifInts (test : IntTest)
  | ifSame
  | ifDifferent
  deriving Repr, DecidableEq, Inhabited

/-- What a slot is said to hold. -/
inductive SlotKind where
  | ref | int
  deriving Repr, DecidableEq, Inhabited

inductive Op where
  | pushInt (value : Int)
  | pushString (value : String)
  | pushNull
  | load (kind : SlotKind) (slot : Int)
  | store (kind : SlotKind) (slot : Int)
  | increment (slot delta : Int)
  | dup
  | pop
  | arith (op : ArithOp)
  | neg
  | jump (test : Jump) (label : String)
  | label (name : String)
  | new (cls : String)
  | cast (cls : String)
  | getField (ref : MemberRef)
  | putField (ref : MemberRef)
  | getStatic (ref : MemberRef)
  | invokeSpecial (ref : MemberRef)
  | invokeVirtual (ref : MemberRef)
  | invokeStatic (ref : MemberRef)
  | ret
  | retRef
  | unknown
  deriving Repr, DecidableEq, Inhabited

/-- An operation and the source line it comes from. -/
structure Instr where
  op : Op
  line : Int := 0
  deriving Repr, DecidableEq, Inhabited

abbrev Code := Array Instr

namespace Code

def isLabel (code : Code) (name : String) (i : Nat) : Bool :=
  match code[i]? with
  | some ⟨.label l, _⟩ => l = name
  | _ => false

/-- The last position below `n` where a label stands. -/
def labelBelow? (code : Code) (name : String) : (n : Nat) → Option Nat
  | 0 => none
  | n + 1 => if code.isLabel name n then some n else labelBelow? code name n

/-- Where a label stands; of two labels of one name the later counts. -/
def labelOffset? (code : Code) (name : String) : Option Nat := code.labelBelow? name code.size

end Code

/-- A method with the limits of its frame. -/
structure MethodCode where
  name : String
  desc : String
  isStatic : Bool := false
  stackLimit : Int := 0
  localsLimit : Int := 0
  code : Code := #[]
  deriving Repr, DecidableEq, Inhabited

/-- The compiled form of a class. `table` maps every callable method name to the class that
declares it. -/
structure ClassFile where
  name : String
  super : String
  fields : List (String × String) := []
  methods : List MethodCode := []
  table : List (String × String) := []
  deriving Repr, DecidableEq, Inhabited

namespace ClassFile

def method? (c : ClassFile) (name desc : String) : Option MethodCode :=
  c.methods.find? fun m => m.name = name && m.desc = desc

/-- The first method of that name that has a receiver. -/
def methodNamed? (c : ClassFile) (name : String) : Option MethodCode :=
  c.methods.find? fun m => m.name = name && !m.isStatic

end ClassFile

/-- The number of parameters before the closing bracket of a descriptor, if it has one. -/
def countParams? : (skipping : Bool) → List Char → Option Nat
  | _, [] => none
  | _, ')' :: _ => some 0
  | true, ';' :: cs => (countParams? false cs).map (· + 1)
  | true, _ :: cs => countParams? true cs
  | false, '[' :: cs => countParams? false cs
  | false, 'L' :: cs => countParams? true cs
  | false, _ :: cs => (countParams? false cs).map (· + 1)

/-- The number of values a call with this descriptor takes besides the receiver. A text that is no
descriptor takes none. -/
def argCount (desc : String) : Nat :=
  match desc.toList with
  | '(' :: cs => (countParams? false cs).getD 0
  | _ => 0

def returnsVoid (desc : String) : Bool := [')', 'V'] <:+ desc.toList

end ClassCompiler
