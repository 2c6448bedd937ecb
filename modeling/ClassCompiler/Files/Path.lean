namespace ClassCompiler.Path

/-- The names of a path, empty ones where slashes meet. -/
def split (cs : List Char) : List (List Char) :=
  cs.foldr (fun c acc =>
    match acc with
    | [] => if c = '/' then [[], []] else [[c]]
    | n :: ns => if c = '/' then [] :: n :: ns else (c :: n) :: ns) [[]]

def names (path : String) : List String := (split path.toList).map String.ofList

def isRooted (path : String) : Bool := path.toList.head? = some '/'

/-- Adds a name to a path kept backwards; `..` takes one away if it can. -/
def pushName (rooted : Bool) (acc : List String) (name : String) : List String :=
  if name = "" || name = "." then acc
  else if name = ".." then
    match acc with
    | [] => if rooted then [] else [".."]
    | last :: rest => if last = ".." then ".." :: acc else rest
  else name :: acc

def clean (path : String) : String :=
  let rooted := isRooted path
  let short := "/".intercalate ((names path).foldl (pushName rooted) []).reverse
  if rooted then "/" ++ short else if short.isEmpty then "." else short

def join (dir name : String) : String :=
  if dir.isEmpty then (if name.isEmpty then "" else clean name) else clean (dir ++ "/" ++ name)

def parent (path : String) : String :=
  clean (String.ofList (path.toList.reverse.dropWhile (· ≠ '/')).reverse)

/-- The paths to the places above a path and to the path itself, outermost first. -/
def prefixes (path : String) : List String :=
  let rec go (before : List String) : List String → List String
    | [] => []
    | n :: ns =>
      let here := before ++ [n]
      if n = "" || n = "." then go here ns else "/".intercalate here :: go here ns
  go [] (names path)

end ClassCompiler.Path
