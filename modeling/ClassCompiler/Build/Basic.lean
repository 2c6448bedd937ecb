import ClassCompiler.Diagnostic.Sink
import ClassCompiler.Machine.Run
import ClassCompiler.Project.Basic
import ClassCompiler.Tree.Decoder
import ClassCompiler.Typing.Program

namespace ClassCompiler

/-- Why a file could not be read or written. -/
inductive FileProblem where
  | notFound | isDirectory | notDirectory | invalidName | nameTooLong | notACache | noCache
  | other (text : String)
  deriving Repr, DecidableEq, Inhabited

def FileProblem.text : FileProblem → String
  | .notFound => "no such file or directory"
  | .isDirectory => "is a directory"
  | .notDirectory => "not a directory"
  | .invalidName => "invalid argument"
  | .nameTooLong => "file name too long"
  | .notACache => "file is not a database (26)"
  | .noCache => "unable to open database file: out of memory (14)"
  | .other t => t

/-- A file problem with notes on what was being done, the outermost first. -/
structure FileError where
  problem : FileProblem
  notes : List String := []
  deriving Repr, DecidableEq, Inhabited

def FileError.message (e : FileError) : String := joinNotes e.notes e.problem.text

def FileError.within (note : String) (e : FileError) : FileError := { e with notes := note :: e.notes }

/-- Why a build failed, diagnostics apart. -/
inductive BuildError where
  | decode (e : DecodeError)
  | compile (e : CompileError)
  | noFiles
  | run (e : Fault)
  | file (e : FileError)
  | other (text : String)
  deriving Repr

def BuildError.message : BuildError → String
  | .decode e => e.message
  | .compile e => e.message
  | .noFiles => "no units to run"
  | .run e => e.message
  | .file e => e.message
  | .other t => t

structure Build where
  file : String
  source : String
  project : Option Project := some {}
  program : Option Program := none
  /-- The classes that names are looked up in, once the program was checked. -/
  table : Option Program := none
  sink : Sink := { file }
  /-- The diagnostics of all checks so far, each check sorted by position. -/
  errors : List Diagnostic := []
  files : List ClassFile := []
  error : Option BuildError := none

namespace Build

def start (file source : String) (project : Option Project) : Build :=
  { file, source, project, sink := { file } }

def failed (b : Build) : Bool := b.error.isSome || !b.errors.isEmpty || b.sink.hasErrors

def entry (b : Build) : String :=
  match b.project with
  | some p => if p.entry.isEmpty then "Main" else p.entry
  | none => "Main"

def options (b : Build) : CompileOptions :=
  match b.project with
  | some p => p.options
  | none => {}

def decode (b : Build) : Build :=
  if b.error.isSome then b
  else match Program.decode b.file b.source with
    | .ok p => { b with program := some p }
    | .error e => { b with error := some (.decode e) }

/-- Checks the program. What was reported before is reported again. -/
def check (b : Build) : Build :=
  match b.program with
  | none => b
  | some p =>
    let r := p.check b.entry
    let sink := b.sink.addAll r.issues
    { b with program := some r.decl, table := some r.decl, sink, errors := b.errors ++ sink.sorted }

/-- The class files of a program that nothing was reported about. -/
def compiled (o : CompileOptions) (b : Build) (p : Program) : Except CompileError (List ClassFile) :=
  if b.sink.hasErrors then .error { problem := .hasDiagnostics b.sink.size }
  else p.compile o (b.table.getD p)

/-- Generates code, unless something failed before. -/
def generate (b : Build) : Build :=
  match b.program with
  | none => b
  | some p =>
    if b.failed then b
    else match b.compiled b.options p with
      | .ok files => { b with files }
      | .error e => { b with error := some (.compile e) }

/-- Generates code with the default options, whatever failed before. -/
def generateAnyway (b : Build) : Build :=
  match b.program with
  | none => b
  | some p =>
    match b.compiled {} p with
    | .ok files => { b with files, error := none }
    | .error e => { b with files := [], error := some (.compile e) }

def delivers (b : Build) : Bool := !b.failed && !b.files.isEmpty

end Build

/-- The assembler text of each class, by name; the last of two classes of one name counts. -/
def renderFiles (files : List ClassFile) : List (String × String) :=
  (files.foldl (fun acc f => acc.filter (·.1 ≠ f.name) ++ [(f.name, f.asmText)]) []).mergeSort
    fun a b => decide (a.1 ≤ b.1)

end ClassCompiler
