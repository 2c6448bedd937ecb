import ClassCompiler.Build.Cache
import ClassCompiler.Text.Numeral

namespace ClassCompiler

namespace Cache

def writePart (s : String) : List Char := (toString s.length).toList ++ ':' :: s.toList

/-- Reads parts up to the end of the text; `fuel` is more than there are. -/
def readParts : (fuel : Nat) → List Char → Option (List String)
  | 0, _ => none
  | _, [] => some []
  | fuel + 1, cs => do
    let size ← Numeral.plainNat? 10 (cs.takeWhile (· ≠ ':'))
    let rest := (cs.dropWhile (· ≠ ':')).drop 1
    if rest.length < size then none
    else return String.ofList (rest.take size) :: (← readParts fuel (rest.drop size))

def entryParts (digest : String) (b : CachedBuild) : List String :=
  [digest, toString b.number, toString b.files.length] ++ b.files.flatMap fun (cls, text) => [cls, text]

/-- Reads `n` class files and gives the parts after them. -/
def filesOfParts? : (n : Nat) → List String → Option (List (String × String) × List String)
  | 0, ps => some ([], ps)
  | n + 1, cls :: text :: ps => do
    let (files, rest) ← filesOfParts? n ps
    return ((cls, text) :: files, rest)
  | _, _ => none

def entriesOfParts? : (fuel : Nat) → List String → Option (List (String × CachedBuild))
  | _, [] => some []
  | fuel + 1, digest :: number :: count :: ps => do
    let number ← Numeral.plainNat? 10 number.toList
    let count ← Numeral.plainNat? 10 count.toList
    let (files, rest) ← filesOfParts? count ps
    return (digest, { number, files }) :: (← entriesOfParts? fuel rest)
  | _, _ => none

def text (c : Cache) : String :=
  String.ofList ((toString c.builds :: c.entries.flatMap fun (d, b) => entryParts d b).flatMap writePart)

def ofText? (s : String) : Option Cache := do
  match ← readParts (s.length + 1) s.toList with
  | [] => none
  | builds :: ps =>
    return { builds := (← Numeral.plainNat? 10 builds.toList), entries := (← entriesOfParts? ps.length ps) }

end Cache

end ClassCompiler
