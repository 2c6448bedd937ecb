import ClassCompiler.Tree.Basic

namespace ClassCompiler.Diagnostic

/-- The problems of declarations (`D`), expressions (`E`) and statements (`S`). -/
inductive Code where
  | D001 | D002 | D003 | D004 | D005 | D006 | D007 | D008 | D009 | D010
  | E001 | E002 | E003 | E004 | E005 | E006 | E007 | E008 | E009 | E010 | E011 | E012 | E013 | E014
  | S001 | S002 | S003 | S004 | S005 | S006 | S007
  | other (text : String)
  deriving Repr, DecidableEq, Inhabited

/-- What is known of a code: its kind and its wording, as the texts around the arguments. -/
structure Entry where
  code : Code
  text : String
  kind : String
  wording : List String
  deriving Repr

def catalogue : List Entry := [
  ⟨.D001, "D001", "ClassNotDeclared", ["class ", " is not declared"]⟩,
  ⟨.D002, "D002", "NoMainClass", ["no class named ", " was declared"]⟩,
  ⟨.D003, "D003", "NoConstructorInMainClass", ["class ", " has no constructor"]⟩,
  ⟨.D004, "D004", "MainConstructorCantHaveArgs", ["constructor of class ", " can't take arguments"]⟩,
  ⟨.D005, "D005", "MainClassCantExtend", ["class ", " can't extend another class"]⟩,
  ⟨.D006, "D006", "CannotExtendFromMainClass", ["class ", " can't extend entry class ", ""]⟩,
  ⟨.D007, "D007", "ConstructorNotSameNameAsClass", ["constructor ", " must be named after class ", ""]⟩,
  ⟨.D008, "D008", "CannotHaveEmptyList", ["list type of ", " can't be empty"]⟩,
  ⟨.D009, "D009", "DuplicateListId", ["duplicate element name ", " in list type"]⟩,
  ⟨.D010, "D010", "MissingReturnStatement", ["method ", " has no return statement"]⟩,
  ⟨.E001, "E001", "VarNotDeclared", ["variable ", " is not declared"]⟩,
  ⟨.E002, "E002", "MemberNotAvailableInClass", ["class ", " has no member ", ""]⟩,
  ⟨.E003, "E003", "ListMemberNotFound", ["list has no element named ", ""]⟩,
  ⟨.E004, "E004", "MemberAccessOnNoneObjOrListType",
    ["member ", " accessed on a value that is neither an object nor a list"]⟩,
  ⟨.E005, "E005", "ListIndexNotInt", ["list index must be int, got ", ""]⟩,
  ⟨.E006, "E006", "ListAccessByIndexOnNoneList", ["index access on a value of type ", ""]⟩,
  ⟨.E007, "E007", "CantUseExprAsIndexOfMultiTypeList",
    ["index of a list with different element types must be a constant int in range"]⟩,
  ⟨.E008, "E008", "UnsupportedOperandType", ["unsupported operand type for ", ""]⟩,
  ⟨.E009, "E009", "LeftSideNotLvalue", ["left side of assignment is not assignable"]⟩,
  ⟨.E010, "E010", "IncDecOperandNotLvalue", ["operand of ", " is not assignable"]⟩,
  ⟨.E011, "E011", "CallOnNoneFptrType", ["call on a value of type ", ""]⟩,
  ⟨.E012, "E012", "CantUseValueOfVoidMethod", ["can't use the value of a void method"]⟩,
  ⟨.E013, "E013", "MethodCallNotMatchDefinition", ["arguments don't match the method definition"]⟩,
  ⟨.E014, "E014", "ConstructorArgsNotMatchDefinition",
    ["arguments don't match the constructor of class ", ""]⟩,
  ⟨.S001, "S001", "ConditionNotBool", ["condition must be bool, got ", ""]⟩,
  ⟨.S002, "S002", "UnsupportedTypeForPrint", ["can't print a value of type ", ""]⟩,
  ⟨.S003, "S003", "ReturnValueNotMatchMethodReturnType",
    ["returned ", " doesn't match method return type ", ""]⟩,
  ⟨.S004, "S004", "ContinueBreakNotInLoop", ["", " outside of a loop"]⟩,
  ⟨.S005, "S005", "ForeachCantIterateNoneList", ["foreach over a value of type ", ""]⟩,
  ⟨.S006, "S006", "ForeachListElementsNotSameType",
    ["foreach over a list with different element types"]⟩,
  ⟨.S007, "S007", "ForeachVarNotMatchList",
    ["loop variable of type ", " doesn't match list element type ", ""]⟩]

namespace Code

def entry? (c : Code) : Option Entry := catalogue.find? (·.code = c)

def ofText (s : String) : Code :=
  ((catalogue.find? (·.text = s)).map Entry.code).getD (.other s)

def text : Code → String
  | .other s => s
  | c => (c.entry?.map Entry.text).getD ""

/-- A code that is not in the catalogue is its own kind. -/
def kind (c : Code) : String := (c.entry?.map Entry.kind).getD c.text

end Code

/-- Puts arguments between the texts of a wording. A missing argument is marked, and arguments left
over are listed at the end. -/
def fill : (wording args : List String) → String
  | [], [] => ""
  | [], extra =>
    "%!(EXTRA " ++ ", ".intercalate (extra.map ("string=" ++ ·)) ++ ")"
  | [s], [] => s
  | [s], extra => s ++ fill [] extra
  | s :: rest, [] => s ++ "%!s(MISSING)" ++ fill rest []
  | s :: rest, a :: args => s ++ a ++ fill rest args

end Diagnostic

structure Diagnostic where
  code : Diagnostic.Code
  pos : Pos
  args : List String := []
  file : String := ""
  deriving Repr, DecidableEq, Inhabited

namespace Diagnostic

def message (d : Diagnostic) : String :=
  match d.code.entry? with
  | some e => fill e.wording d.args
  | none => d.code.kind

def text (d : Diagnostic) : String :=
  d.pos.text ++ ": " ++ d.code.text ++ " " ++ d.code.kind ++ ": " ++ d.message

def place (d : Diagnostic) : String :=
  if d.file.isEmpty then d.pos.text else d.file ++ ":" ++ d.pos.text

def line (d : Diagnostic) : String :=
  d.place ++ ": " ++ d.code.text ++ " " ++ d.code.kind ++ ": " ++ d.message

def bold : String := "\x1b[1m"
def red : String := "\x1b[31m"
def plain : String := "\x1b[0m"

def coloredLine (d : Diagnostic) : String :=
  bold ++ d.place ++ ":" ++ plain ++ " " ++ red ++ d.code.text ++ " " ++ d.code.kind ++ plain ++ ": " ++
    d.message

def rendered (color : Bool) (d : Diagnostic) : String := if color then d.coloredLine else d.line

end Diagnostic

end ClassCompiler
