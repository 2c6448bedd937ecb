import ClassCompiler.Machine.Step

namespace ClassCompiler

/-- The calls that are active, the innermost first. -/
structure State where
  frames : List Frame
  heap : Heap := #[]
  out : String := ""
  deriving Inhabited

inductive Progress where
  | running (s : State)
  | finished (out : String)
  | failed (out : String) (fault : Fault)

def maxCallDepth : Nat := 1024

def cancelPeriod : Nat := 4096

namespace Frame

def title (f : Frame) : String := f.cls ++ "." ++ f.method.name

/-- The instruction a frame is at, which is the one before `pc`. -/
def site (f : Frame) : String :=
  "at " ++ toString (f.pc - 1) ++ " " ++ ((f.method.code[f.pc - 1]?.map (·.op.text)).getD "")

end Frame

/-- A fault seen from outside: where each caller stands, then the innermost frame. -/
def Fault.within (e : Fault) (f : Frame) (callers : List Frame) (atInstr : Bool) : Fault :=
  { e with notes := callers.reverse.flatMap (fun g => [g.title, g.site]) ++
      f.title :: (if atInstr then f.site :: e.notes else e.notes) }

namespace State

def leave (f : Frame) (callers : List Frame) (heap : Heap) (out : String) (v : Value) : Progress :=
  match callers with
  | [] => .finished out
  | g :: gs =>
    if f.pushesResult then
      match g.push v with
      | .ok g => .running ⟨g :: gs, heap, out⟩
      | .error e => .failed out (e.within g gs true)
    else .running ⟨g :: gs, heap, out⟩

def perform (m : Machine) (f : Frame) (callers : List Frame) (heap : Heap) (out : String) (op : Op) :
    Progress :=
  let ⟨cls, method, _, _, pc, _, _⟩ := f
  match m.exec f heap op with
  | .error e => .failed out (e.within { cls, method, pc } callers true)
  | .ok (.next f heap printed) => .running ⟨f :: callers, heap, out ++ printed⟩
  | .ok (.call f heap cls code args pushes) =>
    -- The calls that are active, this one included, but not the one that is to start.
    if maxCallDepth ≤ callers.length + 1 then
      .failed out (Fault.within { cause := .callDepth } f callers true)
    else .running ⟨Frame.enter cls code args pushes :: f :: callers, heap, out⟩

def step (m : Machine) (canceled : Bool) : State → Progress
  | ⟨[], _, out⟩ => .finished out
  | ⟨f :: callers, heap, out⟩ =>
    match f.method.code[f.pc]? with
    -- Code that runs out ends the call without a result.
    | none => leave f callers heap out .null
    | some i =>
      let f := { f with pc := f.pc + 1, steps := f.steps + 1 }
      if canceled && f.steps % cancelPeriod = 0 then
        .failed out (Fault.within { cause := .canceled } f callers false)
      else match i.op with
        | .ret => leave f callers heap out .null
        | .retRef =>
          match f.stack with
          | [] => .failed out (Fault.within { cause := .stackUnderflow } f callers false)
          | v :: _ => leave f callers heap out v
        | op => perform m f callers heap out op

end State

/-- How a run ended, with all that it printed. -/
inductive Outcome where
  | finished (out : String)
  | failed (out : String) (fault : Fault)
  | outOfFuel (out : String)

def State.run (m : Machine) (canceled : Bool) : (fuel : Nat) → State → Outcome
  | 0, s => .outOfFuel s.out
  | fuel + 1, s =>
    match s.step m canceled with
    | .running s => run m canceled fuel s
    | .finished out => .finished out
    | .failed out e => .failed out e

/-- The state in which the entry point of a class is about to run. -/
def Machine.start (m : Machine) (entry : String) : Except Fault State :=
  match m.class? entry with
  | none => fault .noSuchClass [entry]
  | some c =>
    match c.method? mainName mainDesc with
    | none => fault .noSuchMethod [entry ++ "." ++ mainName]
    | some code => .ok { frames := [Frame.enter c.name code [.null] false] }

/-- Runs the entry point of a class, by default of `Main`. -/
def Machine.run (m : Machine) (canceled : Bool) (fuel : Nat) (entry : String) : Outcome :=
  match m.start (if entry.isEmpty then "Main" else entry) with
  | .error e => .failed "" e
  | .ok s => s.run m canceled fuel

end ClassCompiler
