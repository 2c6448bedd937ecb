namespace ClassCompiler

inductive Ty where
  | int
  | bool
  | string
  | null
  | void
  | noType
  | cls (name : String)
  | fptr (params : List Ty) (result : Ty)
  | list (elems : List (String × Ty))
  deriving Repr, Inhabited, BEq

namespace Ty

/-- A missing type counts as one that could not be computed. -/
def ofOption (t : Option Ty) : Ty := t.getD .noType

def resultOfOption (t : Option Ty) : Ty := t.getD .void

def isNoType : Ty → Bool
  | .noType => true
  | _ => false

def isVoid : Ty → Bool
  | .void => true
  | _ => false

def isInt : Ty → Bool
  | .int => true
  | _ => false

def isBool : Ty → Bool
  | .bool => true
  | _ => false

def isList : Ty → Bool
  | .list _ => true
  | _ => false

def isNull : Ty → Bool
  | .null => true
  | _ => false

def isPrimitive : Ty → Bool
  | .int => true
  | .bool => true
  | _ => false

def elementAt (elems : List (String × Ty)) (i : Int) : Ty :=
  if i < 0 then .noType else (elems[i.toNat]?.map Prod.snd).getD .noType

def position? (elems : List (String × Ty)) (name : String) : Option Nat :=
  elems.findIdx? fun e => e.1 ≠ "" && e.1 = name

mutual

def chars : Ty → List Char
  | .int => "int".toList
  | .bool => "bool".toList
  | .string => "string".toList
  | .null => "null".toList
  | .void => "void".toList
  | .noType => "notype".toList
  | .cls name => name.toList
  | .fptr [] r => "fptr(-> ".toList ++ r.chars ++ [')']
  | .fptr (p :: ps) r =>
    "fptr(".toList ++ p.chars ++ charsAfter ps ++ " -> ".toList ++ r.chars ++ [')']
  | .list [] => "list()".toList
  | .list ((n, t) :: es) => "list(".toList ++ elemName n ++ t.chars ++ elemsAfter es ++ [')']

def charsAfter : List Ty → List Char
  | [] => []
  | t :: ts => ", ".toList ++ t.chars ++ charsAfter ts

def elemsAfter : List (String × Ty) → List Char
  | [] => []
  | (n, t) :: es => ", ".toList ++ elemName n ++ t.chars ++ elemsAfter es

/-- The name of a position, with its colon, if it has one. -/
def elemName (n : String) : List Char :=
  if n = "" then [] else n.toList ++ ": ".toList

end

def text (t : Ty) : String := String.ofList t.chars

end Ty
end ClassCompiler
