import ClassCompiler.Files.Host
import ClassCompiler.Project.Reader
import ClassCompiler.Tree.Printer

namespace ClassCompiler

inductive Command where
  | check | compile | run | disasm | print
  deriving Repr, DecidableEq, Inhabited

namespace Command

def all : List Command := [.check, .compile, .run, .disasm, .print]

def name : Command → String
  | .check => "check"
  | .compile => "compile"
  | .run => "run"
  | .disasm => "disasm"
  | .print => "print"

def ofName? (s : String) : Option Command := all.find? (·.name = s)

def purpose : Command → String
  | .check => "decode and check program trees, printing diagnostics"
  | .compile => "check program trees and write one unit file per class"
  | .run => "compile a program tree and execute it with the reference interpreter"
  | .disasm => "compile a program tree and print the rendered units"
  | .print => "decode program trees and print them as source text"

end Command

/-- A flag has a value, is on or off, or asks for help. -/
inductive Flag where
  | config | entry | color | topics | out | cache
  | trace
  | help
  deriving Repr, DecidableEq, Inhabited

namespace Flag

def names : Flag → List String
  | .config => ["config"]
  | .entry => ["entry"]
  | .color => ["color"]
  | .topics => ["v"]
  | .out => ["out"]
  | .cache => ["cache"]
  | .trace => ["trace"]
  | .help => ["help", "h"]

def shown (f : Flag) : String :=
  ",".intercalate f.names ++ (if f = .help then "=[hidden]" else "")

def purpose : Flag → String
  | .config => "project file (default: sophia.yaml next to the tree or above)"
  | .entry => "entry class (overrides the project file)"
  | .color => "diagnostic colors: auto, always or never"
  | .topics => "verbose log topics, e.g. codegen,cache"
  | .out => "output directory (overrides the project file)"
  | .cache => "sqlite build cache path (overrides the project file)"
  | .trace => "log a listing of every method before running (default false)"
  | .help => "print command help end exit"

def common : List Flag := [.config, .entry, .color, .topics, .help]

end Flag

def Command.flags : Command → List Flag
  | .compile => Flag.common ++ [.out, .cache]
  | .run => Flag.common ++ [.trace]
  | .print => []
  | _ => Flag.common

def Command.flag? (c : Command) (name : String) : Option Flag := c.flags.find? (·.names.contains name)

def helpLine (name purpose : String) : String :=
  "    " ++ name ++ String.ofList (List.replicate (20 - name.length) ' ') ++ " - " ++ purpose ++ "\n"

def Command.help (c : Command) : String :=
  c.name ++ " [flags_and_args] - " ++ c.purpose ++ "\n\nFlags\n" ++
    String.join (c.flags.map fun f => helpLine f.shown f.purpose)

def overview : String :=
  "sophia [flags] - sophia checks class-based programs and generates stack machine units\n\nSubcommands\n" ++
    String.join (Command.all.map fun c => helpLine c.name c.purpose)

abbrev Options := List (Flag × String)

def Options.value (o : Options) (f : Flag) : String := (o.lookup f).getD ""

/-- Why a command fails. -/
inductive CommandError where
  | unexpected (arg : String)
  | noSuchFlag (flag : String)
  | noValue (flag : String)
  | noTruth (flag : String)
  | oneTree
  | colorMode (mode : String)
  | file (e : FileError)
  | project (path : String) (e : Project.ReadError)
  | decode (e : DecodeError)
  | build (path : String) (e : BuildError)
  | diagnostics (path : String) (count : Nat)
  deriving Repr

def CommandError.message : CommandError → String
  | .unexpected a => "no args expected, got " ++ a
  | .noSuchFlag f => "parse flag: " ++ f ++ ": no such flag"
  | .noValue f => "parse flag: " ++ f ++ ": flag value is required"
  | .noTruth f => "parse flag: " ++ f ++ ": not a bool value"
  | .oneTree => "run takes exactly one tree"
  | .colorMode m => "unknown color mode " ++ Text.quote m
  | .file e => e.message
  | .project path e =>
    match e with
    | .negative _ _ => e.message
    | e => "parse " ++ path ++ ": " ++ e.message
  | .decode e => e.message
  | .build path e => joinNotes [path] e.message
  | .diagnostics path n => path ++ ": " ++ toString n ++ ": program has diagnostics"

def CommandError.isDiagnostics : CommandError → Bool
  | .diagnostics _ _ => true
  | _ => false

/-- The name of a flag and the value written with it, after `=` or a blank. -/
def splitFlag (arg : String) : String × Option String :=
  let cs := arg.toList.dropWhile (· = '-')
  let isName (c : Char) : Bool := c ≠ '=' && c ≠ ' '
  let name := String.ofList (cs.takeWhile isName)
  match cs.dropWhile isName with
  | [] => (name, none)
  | _ :: v => (name, some (String.ofList v))

/-- What ends the flags; only arguments follow it. -/
def flagsEnd : String := "--"

def isFlag (arg : String) : Bool :=
  match arg.toList with
  | '-' :: _ :: _ => arg ≠ flagsEnd
  | _ => false

def truthWords : List String := ["1", "t", "true", "y", "yes", "0", "f", "false", "n", "no"]

/-- What a command is asked to do. -/
inductive Request where
  | help
  | trees (options : Options) (paths : List String)

/-- Tells flags from arguments; they may stand in any order. The first fault or call for help is all
that counts. -/
def Command.parse (c : Command) (o : Options) (args : List String) :
    List String → Except CommandError Request
  | [] => .ok (.trees o args)
  | a :: rest =>
    if a = flagsEnd then .ok (.trees o (args ++ rest))
    else if isFlag a then
      let (name, value) := splitFlag a
      match c.flag? name, value, rest with
      | none, _, _ => .error (.noSuchFlag a)
      | some .help, _, _ => .ok .help
      | some .trace, none, rest => c.parse ((.trace, "true") :: o) args rest
      | some .trace, some v, rest =>
        if truthWords.contains (v.map Char.toLower) then c.parse ((.trace, v) :: o) args rest
        else .error (.noTruth a)
      | some f, some v, rest => c.parse ((f, v) :: o) args rest
      | some f, none, v :: rest => c.parse ((f, v) :: o) args rest
      | some _, none, [] => .error (.noValue a)
    else c.parse o (args ++ [a]) rest

def projectFileName : String := "sophia.yaml"

/-- A directory and those above it, nearest first. -/
def dirsUpward : (steps : Nat) → (dir : String) → List String
  | 0, dir => [dir]
  | steps + 1, dir => if Path.parent dir = dir then [dir] else dir :: dirsUpward steps (Path.parent dir)

namespace Project

/-- What flags say counts more than the project file. -/
def override (o : Options) (p : Project) : Except CommandError Project :=
  let or (new old : String) := if new.isEmpty then old else new
  let p := { p with
    entry := or (o.value .entry) p.entry
    output := or (o.value .out) p.output
    cache := or (o.value .cache) p.cache }
  match o.value .color with
  | "" | "auto" => .ok p
  | "always" => .ok { p with color := some true }
  | "never" => .ok { p with color := some false }
  | mode => .error (.colorMode mode)

end Project

namespace Host

variable {m : Type → Type} [Monad m] (h : Host m)

def firstPresent : List String → m (Option String)
  | [] => return none
  | p :: ps => do
    if ← h.isPresent p then return some p else firstPresent ps

/-- The project file nearest to a tree, in its directory or above. -/
def findProject (tree : String) : m (Option String) := do
  let dir ← h.absolute (Path.parent tree)
  h.firstPresent ((dirsUpward dir.length dir).map (Path.join · projectFileName))

def readProject (path : String) : m (Except CommandError Project) := do
  match ← h.read path with
  | .error e => return .error (.file (e.within ("read config " ++ path)))
  | .ok text =>
    match Project.parse (Octets.toUnicode text) path with
    | .ok p => return .ok p
    | .error e => return .error (.project path e)

def loadProject (o : Options) (tree : String) : m (Except CommandError Project) := do
  let path ← if (o.value .config).isEmpty then h.findProject tree else pure (some (o.value .config))
  match path with
  | none => return ({} : Project).override o
  | some path =>
    match ← h.readProject path with
    | .error e => return .error e
    | .ok p => return p.override o

/-- Shows the diagnostics of a build, and says why it failed if it did. -/
def conclude (p : Project) (b : Build) : m (Except CommandError Build) := do
  if b.errors.isEmpty then
    match b.error with
    | none => return .ok b
    | some e => return .error (.build b.file e)
  else
    let color ← match p.color with
      | some c => pure c
      | none => h.likesColor
    b.errors.forM fun d => h.report (d.rendered color)
    return .error (.diagnostics b.file b.errors.length)

/-- Reads and checks a tree, then goes through the rest of its stages. -/
def buildTree (p : Project) (tree : String) (rest : List (Stage m)) : m (Except CommandError Build) := do
  match ← h.read tree with
  | .error e => return .error (.file (e.within ("read " ++ tree)))
  | .ok text =>
    let b ← h.stages (.decode :: .check :: rest) (Build.start tree (Octets.toUnicode text) (some p))
    h.conclude p b

/-- Generates the class files of a tree and writes them; `keep` gets what was written. -/
def compileAnew (p : Project) (tree : String) (keep : List (String × String) → ExceptT FileError m Unit) :
    m (Except CommandError Unit) := do
  let r ← h.buildTree p tree [.generate, .write p.output keep]
  return r.map fun _ => ()

/-- Writes the class files of a tree. With a cache, files made before from the same source under the
same settings are written again. -/
def compileTree (p : Project) (tree : String) : m (Except CommandError Unit) := do
  if p.cache.isEmpty then h.compileAnew p tree fun _ => pure ()
  else
    match ← h.openCache p.cache with
    | .error e => return .error (.file e)
    | .ok cache =>
      match ← h.read tree with
      | .error e => return .error (.file (e.within ("read " ++ tree)))
      | .ok text =>
        let digest := p.digest (Octets.toBytes text)
        match cache.get? digest with
        | some files =>
          match ← h.writeFiles p.output files with
          | .ok _ => return .ok ()
          | .error e => return .error (.file e)
        | none => h.compileAnew p tree fun files => .mk (h.saveCache p.cache (cache.put digest files))

/-- Does something for each tree with its settings, up to the first that fails. -/
def eachTree (o : Options) (act : Project → String → m (Except CommandError Unit)) :
    List String → m (Except CommandError Unit)
  | [] => return .ok ()
  | tree :: trees => do
    match ← h.loadProject o tree with
    | .error e => return .error e
    | .ok p =>
      match ← act p tree with
      | .error e => return .error e
      | .ok _ => eachTree o act trees

/-- Checks trees. Diagnostics do not stop it; the last tree that has some is the failure. -/
def checkTrees (o : Options) (failure : Option CommandError) : List String → m (Except CommandError Unit)
  | [] =>
    match failure with
    | some e => return .error e
    | none => return .ok ()
  | tree :: trees => do
    match ← h.loadProject o tree with
    | .error e => return .error e
    | .ok p =>
      match ← h.buildTree p tree [] with
      | .ok _ => checkTrees o failure trees
      | .error e => if e.isDiagnostics then checkTrees o (some e) trees else return .error e

def runTree (o : Options) : List String → m (Except CommandError Unit)
  | [tree] => h.eachTree o (fun p tree => do
      let r ← h.buildTree p tree [.generate, .run]
      return r.map fun _ => ()) [tree]
  | _ => return .error .oneTree

def disasmTree (p : Project) (tree : String) : m (Except CommandError Unit) := do
  match ← h.buildTree p tree [.generate] with
  | .error e => return .error e
  | .ok b =>
    (renderFiles b.files).forM fun (cls, text) =>
      h.print ("; " ++ classFileName cls ++ "\n" ++ text ++ "\n")
    return .ok ()

def printTrees : List String → m (Except CommandError Unit)
  | [] => return .ok ()
  | tree :: trees => do
    match ← h.read tree with
    | .error e => return .error (.file (e.within "read tree"))
    | .ok text =>
      match Program.decode tree (Octets.toUnicode text) with
      | .error e => return .error (.decode e)
      | .ok p =>
        h.print p.text
        printTrees trees

def perform (c : Command) (o : Options) (trees : List String) : m (Except CommandError Unit) :=
  match c with
  | .check => h.checkTrees o none trees
  | .compile => h.eachTree o h.compileTree trees
  | .run => h.runTree o trees
  | .disasm => h.eachTree o h.disasmTree trees
  | .print => h.printTrees trees

def fail (command : Option Command) (e : CommandError) : m UInt32 := do
  h.report (joinNotes ("error" :: (command.map Command.name).toList) e.message)
  return 1

def commandLine : List String → m UInt32
  | [] => do
    h.print overview
    return 0
  | name :: args => do
    match Command.ofName? name with
    | none => h.fail none (if isFlag name then .noSuchFlag name else .unexpected name)
    | some c =>
      match c.parse [] [] args with
      | .error e => h.fail (some c) e
      | .ok .help =>
        h.print c.help
        return 0
      | .ok (.trees o trees) =>
        match ← h.perform c o trees with
        | .error e => h.fail (some c) e
        | .ok _ => return 0

end Host

end ClassCompiler
