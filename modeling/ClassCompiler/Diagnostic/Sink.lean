import ClassCompiler.Diagnostic.Basic

namespace ClassCompiler

/-- A place of a program that diagnostics are attached to. -/
structure Site where
  id : Nat
  pos : Pos
  deriving Repr, DecidableEq, Inhabited

/-- A sink that does not keep reports stays empty. -/
structure Sink where
  file : String := ""
  keeps : Bool := true
  entries : List (Option Nat × Diagnostic) := []
  deriving Repr, Inhabited

namespace Sink

def push (s : Sink) (site : Option Nat) (d : Diagnostic) : Sink :=
  if s.keeps then { s with entries := s.entries ++ [(site, d)] } else s

/-- Records a diagnostic on a site. Every report counts, also the second of the same problem. -/
def attach (s : Sink) (site : Site) (code : Diagnostic.Code) (args : List String) : Sink :=
  s.push (some site.id) { code, pos := site.pos, args, file := s.file }

/-- Records a diagnostic tied to no site. Its own file, if it names one, is kept. -/
def add (s : Sink) (d : Diagnostic) : Sink :=
  s.push none (if d.file.isEmpty then { d with file := s.file } else d)

def addAll (s : Sink) (ds : List Diagnostic) : Sink := ds.foldl add s

def size (s : Sink) : Nat := s.entries.length

def hasErrors (s : Sink) : Bool := !s.entries.isEmpty

/-- All diagnostics by position; those of one position keep the order of reporting. -/
def sorted (s : Sink) : List Diagnostic :=
  (s.entries.map Prod.snd).mergeSort fun a b => !b.pos.before a.pos

def attached (s : Sink) (id : Nat) : List Diagnostic :=
  (s.entries.filter (·.1 = some id)).map Prod.snd

def count (s : Sink) (code : Diagnostic.Code) : Nat :=
  s.entries.countP (·.2.code = code)

end Sink

end ClassCompiler
