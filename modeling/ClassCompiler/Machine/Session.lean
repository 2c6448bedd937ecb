import ClassCompiler.Machine.Run

namespace ClassCompiler

namespace Code

/-- The labels below `n` with where they stand, the later ones first. -/
def labelsBelow (code : Code) : (n : Nat) → List (String × Nat)
  | 0 => []
  | n + 1 =>
    match code[n]? with
    | some ⟨.label l, _⟩ => (l, n) :: labelsBelow code n
    | _ => labelsBelow code n

def labelTable (code : Code) : List (String × Nat) := code.labelsBelow code.size

end Code

/-- What a machine keeps from run to run: the strings made so far, each text with the name of its object,
the number of active calls, and the label tables built so far. -/
structure Session where
  strings : List (String × String) := []
  depth : Int := 0
  tables : List (Code × List (String × Nat)) := []
  deriving Inhabited

namespace Session

/-- Makes the string of a text, unless there is one. -/
def intern (s : Session) (text : String) : Session :=
  match s.strings.lookup text with
  | some _ => s
  | none => { s with strings := s.strings ++ [(text, toString s.strings.length)] }

/-- Builds the label table of a code, unless there is one. -/
def index (s : Session) (code : Code) : Session :=
  match s.tables.lookup code with
  | some _ => s
  | none => { s with tables := s.tables ++ [(code, code.labelTable)] }

def exit (s : Session) (calls : Nat) : Session := { s with depth := s.depth - calls }

def lookup (s : Session) : Lookup where
  string text := (s.strings.lookup text).getD ""
  text name := ((s.strings.find? (·.2 = name)).map (·.1)).getD ""
  label code l := (s.tables.lookup code).bind (·.lookup l)

/-- What is looked up first by an operation: the string of a constant, and the labels of the method once a
jump is taken. -/
def prepare (s : Session) (f : Frame) : Op → Session
  | .pushString text => s.intern text
  | .jump test _ =>
    match test.decide f with
    | .ok (true, _) => s.index f.method.code
    | _ => s
  | _ => s

/-- Ends the call of `f` with a result. A fault ends every other call too. -/
def leave (s : Session) (f : Frame) (callers : List Frame) (heap : Heap) (out : String) (v : Value) :
    Progress × Session :=
  match State.leave f callers heap out v with
  | .failed out e => (.failed out e, (s.exit 1).exit callers.length)
  | p => (p, s.exit 1)

/-- Runs the operation that `f` is at. A fault ends every active call. -/
def perform (m : Machine) (f : Frame) (callers : List Frame) (heap : Heap) (out : String) (op : Op) (s : Session) :
    Progress × Session :=
  let s := s.prepare f op
  let ⟨cls, method, _, _, pc, _, _⟩ := f
  match m.exec f heap op s.lookup with
  | .error e => (.failed out (e.within { cls, method, pc } callers true), s.exit (callers.length + 1))
  | .ok (.next f heap printed) => (.running ⟨f :: callers, heap, out ++ printed⟩, s)
  | .ok (.call f heap cls code args pushes) =>
    if maxCallDepth ≤ s.depth then
      (.failed out (Fault.within { cause := .callDepth } f callers true), s.exit (callers.length + 1))
    else (.running ⟨Frame.enter cls code args pushes :: f :: callers, heap, out⟩, { s with depth := s.depth + 1 })

def step (m : Machine) (canceled : Bool) (s : Session) : State → Progress × Session
  | ⟨[], _, out⟩ => (.finished out, s)
  | ⟨f :: callers, heap, out⟩ =>
    match f.method.code[f.pc]? with
    | none => s.leave f callers heap out .null
    | some i =>
      let f := { f with pc := f.pc + 1, steps := f.steps + 1 }
      if canceled && f.steps % cancelPeriod = 0 then
        (.failed out (Fault.within { cause := .canceled } f callers false), s.exit (callers.length + 1))
      else match i.op with
        | .ret => s.leave f callers heap out .null
        | .retRef =>
          match f.stack with
          | [] => (.failed out (Fault.within { cause := .stackUnderflow } f callers false),
              s.exit (callers.length + 1))
          | v :: _ => s.leave f callers heap out v
        | op => perform m f callers heap out op s

def run (m : Machine) (canceled : Bool) : (fuel : Nat) → Session → State → Outcome × Option Session
  -- A run that is cut off leaves no session: what it would leave is not known yet.
  | 0, _, st => (.outOfFuel st.out, none)
  | fuel + 1, s, st =>
    match s.step m canceled st with
    | (.running st, s) => run m canceled fuel s st
    | (.finished out, s) => (.finished out, some s)
    | (.failed out e, s) => (.failed out e, some s)

/-- Runs the entry point of a class, by default of `Main`. -/
def call (m : Machine) (canceled : Bool) (fuel : Nat) (entry : String) (s : Session) : Outcome × Option Session :=
  match m.start (if entry.isEmpty then "Main" else entry) with
  | .error e => (.failed "" e, some s)
  | .ok st =>
    -- The calls are counted over all runs of the session.
    if maxCallDepth ≤ s.depth then (.failed "" { cause := .callDepth }, some s)
    else run m canceled fuel { s with depth := s.depth + 1 } st

end Session

end ClassCompiler
