import ClassCompiler.Files.Host

namespace ClassCompiler

inductive FileEntry where
  | folder
  | text (s : String)
  | cache (c : Cache)
  deriving Repr, DecidableEq, Inhabited

structure Store where
  /-- The path of the working directory, from the root and without a slash at its end. -/
  root : String := "/work"
  entries : List (List String × FileEntry) := []
  deriving Repr, Inhabited

/-- Where a path leads. -/
inductive Place where
  | inside (names : List String)
  | outside
  deriving Repr, DecidableEq, Inhabited

namespace Store

def entry? (s : Store) (names : List String) : Option FileEntry :=
  if names.isEmpty then some .folder else s.entries.lookup names

def set (s : Store) (names : List String) (e : FileEntry) : Store :=
  { s with entries := s.entries.filter (·.1 ≠ names) ++ [(names, e)] }

def maxPath : Nat := 4095

def nameProblem? (name : String) : Option FileProblem :=
  if name.toList.contains (Char.ofNat 0) then some .invalidName
  else if 255 < name.length then some .nameTooLong
  else none

/-- Follows names from a directory. Every name but the last has to lead to a directory. -/
def walk (s : Store) (here : List String) : List String → Except FileProblem Place
  | [] => .ok (.inside here)
  | n :: ns =>
    match s.entry? here with
    | none => .error .notFound
    | some .folder =>
      if n = "" || n = "." then walk s here ns
      else if n = ".." then (if here.isEmpty then .ok .outside else walk s here.dropLast ns)
      else match nameProblem? n with
        | some p => .error p
        | none => walk s (here ++ [n]) ns
    | some _ => .error .notDirectory

def locate (s : Store) (path : String) : Except FileProblem Place :=
  if path.isEmpty then .error .notFound
  else if maxPath < path.length then .error .nameTooLong
  else if path = s.root then .ok (.inside [])
  else if (s.root ++ "/").isPrefixOf path then
    s.walk [] (Path.names (path.drop (s.root.length + 1)).toString)
  else if Path.isRooted path then .ok .outside
  else s.walk [] (Path.names path)

def find? (s : Store) (path : String) : Except FileProblem FileEntry :=
  match s.locate path with
  | .error p => .error p
  | .ok .outside => .error .notFound
  | .ok (.inside names) =>
    match s.entry? names with
    | some e => .ok e
    | none => .error .notFound

def read (s : Store) (path : String) : Except FileError String :=
  match s.find? path with
  | .error p => .error { problem := p, notes := ["open " ++ path] }
  | .ok .folder => .error { problem := .isDirectory, notes := ["read " ++ path] }
  | .ok (.text t) => .ok t
  | .ok (.cache _) => .ok ""

def isPresent (s : Store) (path : String) : Bool :=
  match s.find? path with
  | .ok _ => true
  | .error _ => false

def absolute (s : Store) (path : String) : String :=
  if Path.isRooted path then Path.clean path else Path.join s.root path

/-- Makes one directory in a directory that exists. -/
def makeDir (s : Store) (path : String) : Except FileError Store :=
  match s.find? path with
  | .ok .folder => .ok s
  | .ok _ => .error { problem := .notDirectory, notes := ["mkdir " ++ path] }
  | .error _ =>
    match s.locate path with
    | .error p => .error { problem := p, notes := ["mkdir " ++ path] }
    | .ok .outside => .ok s
    | .ok (.inside names) => .ok (s.set names .folder)

def makeDirs (s : Store) (path : String) : Except FileError Store :=
  if path.isEmpty then .error { problem := .notFound, notes := ["mkdir "] }
  else (Path.prefixes path).foldlM makeDir s

def put (s : Store) (path : String) (e : FileEntry) : Except FileError Store :=
  match s.locate path with
  | .error p => .error { problem := p, notes := ["open " ++ path] }
  | .ok .outside => .ok s
  | .ok (.inside names) =>
    match s.entry? names with
    | some .folder => .error { problem := .isDirectory, notes := ["open " ++ path] }
    | _ => .ok (s.set names e)

/-- Opens the cache in a file; an empty file is an empty cache. -/
def openCacheFile (s : Store) (path : String) : Except FileProblem (Cache × Store) :=
  let fresh : Except FileProblem (Cache × Store) :=
    match s.put path (.cache {}) with
    | .ok s => .ok ({}, s)
    | .error _ => .error .noCache
  match s.find? path with
  | .ok (.cache c) => .ok (c, s)
  | .ok (.text t) => if t.isEmpty then fresh else .error .notACache
  | _ => fresh

/-- Opens a cache by its name, and makes the directory for it. -/
def openCache (s : Store) (name : String) : Except FileError (Cache × Store) :=
  let dir := Path.parent name
  match if dir = "." then .ok s else s.makeDirs dir with
  | .error e => .error (e.within "create cache dir")
  | .ok s =>
    match Cache.file? name with
    | none => .ok ({}, s)
    | some path =>
      match s.openCacheFile path with
      | .ok r => .ok r
      | .error problem => .error { problem, notes := ["init cache " ++ name] }

def saveCache (s : Store) (name : String) (c : Cache) : Except FileError Store :=
  match Cache.file? name with
  | none => .ok s
  | some path => s.put path (.cache c)

def ofFiles (root : String) (files : List (String × String)) : Store :=
  files.foldl (fun s (path, text) =>
    let s := match s.makeDirs (Path.parent path) with
      | .ok s => s
      | .error _ => s
    match s.put path (.text text) with
    | .ok s => s
    | .error _ => s) { root }

/-- The text of a file. A cache shows none, and neither does a file whose name says it is one. -/
def textOf? (path : String) : FileEntry → Option String
  | .text t => if ".db".toList.isSuffixOf path.toList then none else some t
  | _ => none

/-- The files of a store, without its directories: by path, what can be seen of them. -/
def files (s : Store) : List (String × Option String) :=
  (s.entries.filter (·.2 ≠ .folder)).map fun (names, e) =>
    let path := "/".intercalate names
    (path, textOf? path e)

/-- The files of `s` that `before` does not have, or has with other texts. -/
def changesSince (s before : Store) : List (String × Option String) :=
  s.files.filter fun (path, t) => before.files.lookup path ≠ some t

end Store

/-- A store with what was printed and reported. -/
structure World where
  store : Store
  out : String := ""
  reports : List String := []
  deriving Inhabited

namespace World

def withStore (w : World) : Except FileError Store → Except FileError Unit × World
  | .ok s => (.ok (), { w with store := s })
  | .error e => (.error e, w)

/-- The host that keeps everything in a world. Runs end when their fuel does, or were canceled before. -/
def host (fuel : Nat) (canceled : Bool := false) : Host (StateM World) where
  read path := fun w => (w.store.read path, w)
  isPresent path := fun w => (w.store.isPresent path, w)
  absolute path := fun w => (w.store.absolute path, w)
  makeDirs path := fun w => w.withStore (w.store.makeDirs path)
  write path text := fun w => w.withStore (w.store.put path (.text text))
  openCache path := fun w =>
    match w.store.openCache path with
    | .ok (c, s) => (.ok c, { w with store := s })
    | .error e => (.error e, w)
  saveCache path c := fun w => w.withStore (w.store.saveCache path c)
  print s := fun w => ((), { w with out := w.out ++ s })
  report line := fun w => ((), { w with reports := w.reports ++ [line] })
  likesColor := fun w => (false, w)
  run files entry := fun w =>
    match (Machine.load files).run canceled fuel entry with
    | .finished out => (none, { w with out := w.out ++ out })
    | .outOfFuel out => (none, { w with out := w.out ++ out })
    | .failed out e => (some e, { w with out := w.out ++ out })

end World

end ClassCompiler
