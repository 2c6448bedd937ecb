import ClassCompiler.Ty.Basic

namespace ClassCompiler.Ty

mutual

/-- Whether a value of the first type may stand where the second is expected. `isA a b` says that
class `a` has `b` for an ancestor. -/
def isSubtype (isA : String → String → Bool) : Ty → Ty → Bool
  -- Only on this side: what is wanted may not be lost.
  | .noType, _ => true
  | .int, .int => true
  | .bool, .bool => true
  | .string, .string => true
  | .void, .void => true
  | .null, .null => true
  | .null, .cls _ => true
  | .null, .fptr _ _ => true
  | .cls a, .cls b => a = b || isA a b
  -- Parameters vary in the same direction as the result.
  | .fptr ps r, .fptr qs s => isSubtype isA r s && allSubtypes isA ps qs
  | .list es, .list fs => allElemSubtypes isA es fs
  | _, _ => false

def allSubtypes (isA : String → String → Bool) : List Ty → List Ty → Bool
  | [], [] => true
  | t :: ts, u :: us => isSubtype isA t u && allSubtypes isA ts us
  | _, _ => false

def allElemSubtypes (isA : String → String → Bool) :
    List (String × Ty) → List (String × Ty) → Bool
  | [], [] => true
  | (_, t) :: ts, (_, u) :: us => isSubtype isA t u && allElemSubtypes isA ts us
  | _, _ => false

end

def equivalent (isA : String → String → Bool) (a b : Ty) : Bool :=
  isSubtype isA a b && isSubtype isA b a

end ClassCompiler.Ty
