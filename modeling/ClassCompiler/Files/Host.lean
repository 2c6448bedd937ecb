import ClassCompiler.Build.Basic
import ClassCompiler.Build.Cache
import ClassCompiler.Files.Path

namespace ClassCompiler

structure Host (m : Type → Type) where
  /-- The text of a file. -/
  read : String → m (Except FileError String)
  /-- Whether something exists at a path. -/
  isPresent : String → m Bool
  /-- A path from the root. -/
  absolute : String → m String
  /-- Makes a directory and those above it. -/
  makeDirs : String → m (Except FileError Unit)
  write : String → String → m (Except FileError Unit)
  /-- Opens a cache, which is made if it does not exist. -/
  openCache : String → m (Except FileError Cache)
  saveCache : String → Cache → m (Except FileError Unit)
  print : String → m Unit
  /-- Shows a line beside the output. -/
  report : String → m Unit
  /-- Whether reports go to somebody who wants colors. -/
  likesColor : m Bool
  /-- Runs the entry point of a class, printing what it prints. -/
  run : List ClassFile → String → m (Option Fault)

def classFileName (cls : String) : String := cls ++ ".j"

namespace Host

variable {m : Type → Type} [Monad m] (h : Host m)

def writeEach (dir : String) : List (String × String) → m (Except FileError Unit)
  | [] => return .ok ()
  | (cls, text) :: rest => do
    match ← h.write (Path.join dir (classFileName cls)) text with
    | .error e => return .error (e.within ("write " ++ cls))
    | .ok _ => writeEach dir rest

/-- Writes one file for each class into a directory. -/
def writeFiles (dir : String) (files : List (String × String)) : m (Except FileError Unit) := do
  match ← h.makeDirs dir with
  | .error e => return .error (e.within "create output dir")
  | .ok _ => h.writeEach dir files

/-- The stage that writes the class files of a build. -/
def writeBuild (dir : String) (b : Build) : m Build := do
  if b.delivers then
    match ← h.writeFiles dir (renderFiles b.files) with
    | .ok _ => return b
    | .error e => return { b with error := some (.file (e.within "writer")) }
  else return b

def runBuild (b : Build) : m Build := do
  if b.delivers then
    match ← h.run b.files b.entry with
    | none => return b
    | some e => return { b with error := some (.run { e with notes := "vm" :: e.notes }) }
  else return b

end Host

/-- Where a build is written if no directory is given. -/
def Build.outputDir (b : Build) (dir : String) : String :=
  if dir.isEmpty then
    match b.project with
    | some p => p.output
    | none => "."
  else dir

/-- A stage of a build. What the writer wrote may be kept, as in a cache. -/
inductive Stage (m : Type → Type) where
  | decode | check | generate
  | write (dir : String) (keep : List (String × String) → ExceptT FileError m Unit)
  | run

namespace Host

variable {m : Type → Type} [Monad m] (h : Host m)

def stage : Stage m → Build → m Build
  | .decode, b => return b.decode
  | .check, b => return b.check
  | .generate, b => return b.generate
  | .write dir keep, b => do
    let b ← h.writeBuild (b.outputDir dir) b
    if b.delivers then
      match ← (keep (renderFiles b.files)).run with
      | .ok _ => return b
      | .error e => return { b with error := some (.file ((e.within "cache units").within "writer")) }
    else return b
  | .run, b => h.runBuild b

/-- All stages, one after the other. None is left out after a failure; each decides for itself. -/
def stages : List (Stage m) → Build → m Build
  | [], b => return b
  | s :: ss, b => do
    let b ← h.stage s b
    stages ss b

end Host

end ClassCompiler
