namespace ClassCompiler

/-- Rendered class files by class name, and the number of the build that made them. -/
structure CachedBuild where
  number : Nat
  files : List (String × String)
  deriving Repr, DecidableEq, Inhabited

/-- A cache counts the builds that were put into it. -/
structure Cache where
  builds : Nat := 0
  entries : List (String × CachedBuild) := []
  deriving Repr, DecidableEq, Inhabited

namespace Cache

/-- The file in which the cache of some name is kept: the name without what follows a `?`, or the
path of a `file:` address. A cache named `:memory:` is kept in none. -/
def file? (name : String) : Option String :=
  let cs := name.toList
  let path := match cs with
    | [] => []
    | c :: rest =>
      if "file:".isPrefixOf name then (cs.drop 5).takeWhile fun d => d ≠ '?' && d ≠ '#'
      else if c = '?' then cs
      else c :: rest.takeWhile (· ≠ '?')
  let path := String.ofList path
  if path.isEmpty || path = ":memory:" then none else some path

/-- Replaces what is kept under a digest. A build without files leaves nothing. -/
def put (c : Cache) (digest : String) (files : List (String × String)) : Cache :=
  let number := c.builds + 1
  let others := c.entries.filter (·.1 ≠ digest)
  { builds := number
    entries := if files.isEmpty then others else others ++ [(digest, { number, files })] }

def get? (c : Cache) (digest : String) : Option (List (String × String)) :=
  (c.entries.lookup digest).map CachedBuild.files

/-- The number of the build kept under a digest, 0 if there is none. -/
def buildNumber (c : Cache) (digest : String) : Nat :=
  ((c.entries.lookup digest).map CachedBuild.number).getD 0

end Cache

end ClassCompiler
