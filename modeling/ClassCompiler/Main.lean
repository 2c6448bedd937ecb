import ClassCompiler.Build.CacheText
import ClassCompiler.CommandLine

namespace ClassCompiler.Console

def bytes (s : String) : ByteArray := ⟨(Octets.toBytes s).toArray⟩

def ofBytes (b : ByteArray) : String := String.ofList (b.toList.map Char.ofUInt8)

def problem : IO.Error → FileProblem
  | .noFileOrDirectory .. => .notFound
  | .inappropriateType .. => .isDirectory
  | e => .other (toString e)

/-- Does something with a file and names it if that fails. -/
def attempt {α : Type} (note path : String) (act : IO α) : IO (Except FileError α) := do
  match ← act.toBaseIO with
  | .ok a => return .ok a
  | .error e => return .error { problem := problem e, notes := [note ++ " " ++ path] }

def read (path : String) : IO (Except FileError String) := do
  match ← attempt "open" path (IO.FS.readBinFile (Octets.toUnicode path)) with
  | .ok b => return .ok (ofBytes b)
  | .error e => return .error (if e.problem = .isDirectory then { e with notes := ["read " ++ path] } else e)

def write (path text : String) : IO (Except FileError Unit) :=
  attempt "open" path (IO.FS.writeBinFile (Octets.toUnicode path) (bytes text))

def isPresent (path : String) : IO Bool := do
  match ← (IO.FS.realPath (Octets.toUnicode path)).toBaseIO with
  | .ok _ => return true
  | .error _ => return false

def absolute (path : String) : IO String := do
  if Path.isRooted path then return Path.clean path
  else return Path.join (Octets.ofUnicode (← IO.currentDir).toString) path

def makeDirs (path : String) : IO (Except FileError Unit) :=
  attempt "mkdir" path (IO.FS.createDirAll (Octets.toUnicode path))

def openCacheFile (path : String) : IO (Except FileProblem Cache) := do
  let fresh := do
    match ← write path ({} : Cache).text with
    | .ok _ => return .ok {}
    | .error _ => return .error .noCache
  if ← isPresent path then
    match ← read path with
    | .error _ => return .error .noCache
    | .ok text =>
      if text.isEmpty then fresh
      else match Cache.ofText? text with
        | some c => return .ok c
        | none => return .error .notACache
  else fresh

def openCache (name : String) : IO (Except FileError Cache) := do
  match ← makeDirs (Path.parent name) with
  | .error e => return .error (e.within "create cache dir")
  | .ok _ =>
    match Cache.file? name with
    | none => return .ok {}
    | some path =>
      match ← openCacheFile path with
      | .ok c => return .ok c
      | .error problem => return .error { problem, notes := ["init cache " ++ name] }

def saveCache (name : String) (c : Cache) : IO (Except FileError Unit) := do
  match Cache.file? name with
  | none => return .ok ()
  | some path => write path c.text

def print (s : String) : IO Unit := do (← IO.getStdout).write (bytes s)

def report (line : String) : IO Unit := do (← IO.getStderr).write (bytes (line ++ "\n"))

def likesColor : IO Bool := do
  if (← IO.getEnv "NO_COLOR").isSome then return false
  else (← IO.getStderr).isTty

/-- Runs until the end, however far away it is, and prints as it goes. -/
partial def follow (m : Machine) (s : State) : IO (Option Fault) := do
  match s.step m false with
  | .running s =>
    if s.out.isEmpty then follow m s
    else
      print s.out
      follow m { s with out := "" }
  | .finished out =>
    print out
    return none
  | .failed out e =>
    print out
    return some e

def run (files : List ClassFile) (entry : String) : IO (Option Fault) := do
  let m := Machine.load files
  match m.start (if entry.isEmpty then "Main" else entry) with
  | .error e => return some e
  | .ok s => follow m s

def host : Host IO where
  read := read
  isPresent := isPresent
  absolute := absolute
  makeDirs := makeDirs
  write := write
  openCache := openCache
  saveCache := saveCache
  print := print
  report := report
  likesColor := likesColor
  run := run

end ClassCompiler.Console

def main (args : List String) : IO UInt32 :=
  ClassCompiler.Console.host.commandLine (args.map ClassCompiler.Octets.ofUnicode)
