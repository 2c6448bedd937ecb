import ClassCompiler.Code.Native
import ClassCompiler.Code.Listing

namespace ClassCompiler

/-- A value of the operand stack. Strings of equal text are one object, and so are all print
streams. A string is told by its text, or by a name that its text goes with. -/
inductive Value where
  | null
  | int (v : Int32)
  | str (s : String)
  | stream
  | ref (addr : Nat)
  deriving Repr, DecidableEq, Inhabited

/-- An object of the heap. -/
inductive Object where
  | integer (v : Int32)
  | boolean (b : Bool)
  | inst (cls : String) (fields : List (String × Value))
  | list (elems : List Value)
  | fptr (receiver : Value) (method : String)
  | arrayList (elems : List Value)
  deriving Repr, DecidableEq, Inhabited

abbrev Heap := Array Object

namespace Value

/-- The number a value stands for where one is needed; anything but a number counts as 0. -/
def toInt32 : Value → Int32
  | .int v => v
  | _ => 0

def ofBool (b : Bool) : Value := .int (if b then 1 else 0)

def toBool (v : Value) : Bool := v.toInt32 != 0

@[simp] theorem toBool_ofBool (b : Bool) : (ofBool b).toBool = b := by cases b <;> rfl

def isNull (v : Value) : Bool := v = .null

def isReference : Value → Bool
  | .null => false
  | .int _ => false
  | _ => true

end Value

namespace Object

def className : Object → String
  | .integer _ => integerClass
  | .boolean _ => booleanClass
  | .inst c _ => c
  | .list _ => listClass
  | .fptr _ _ => fptrClass
  | .arrayList _ => arrayListClass

end Object

/-- What a machine looks up while it runs: the name of a string constant, the text of a named string, and
where a label stands. -/
structure Lookup where
  string : String → String := id
  text : String → String := id
  label : Code → String → Option Nat := Code.labelOffset?

namespace Heap

def get? (h : Heap) (v : Value) : Option Object :=
  match v with
  | .ref a => h[a]?
  | _ => none

def alloc (h : Heap) (o : Object) : Heap × Value :=
  let addr := h.size
  (h.push o, .ref addr)

def set (h : Heap) (v : Value) (o : Object) : Heap :=
  match v with
  | .ref a => h.setIfInBounds a o
  | _ => h

def className (h : Heap) (v : Value) : String :=
  match v with
  | .str _ => stringClass
  | .stream => printStreamClass
  | v => ((h.get? v).map Object.className).getD ""

/-- The text of a value, with lists followed `depth` deep; none if they go on. -/
def textTo (h : Heap) (k : Lookup) : (depth : Nat) → Value → Option String
  | _, .null => some "null"
  | _, .int v => some (toString v.toInt)
  | _, .str s => some (k.text s)
  | _, .stream => some "&\x7b\x7d"
  | 0, .ref _ => none
  | depth + 1, .ref a =>
    match h[a]? with
    | none => some ""
    | some (.integer v) => some (toString v.toInt)
    | some (.boolean b) => some (if b then "true" else "false")
    | some (.inst c _) => some (c ++ "\x7b\x7d")
    | some (.fptr _ m) => some ("fptr(" ++ m ++ ")")
    | some (.list es) => bracketed (es.map (textTo h k depth))
    | some (.arrayList es) => bracketed (es.map (textTo h k depth))
where
  bracketed (ts : List (Option String)) : Option String :=
    (ts.mapM id).map fun ts => "[" ++ ", ".intercalate ts ++ "]"

/-- The text of a value. Lists that are nested deeper than the heap is large come round again, and their
text has no end. -/
def text (h : Heap) (v : Value) (k : Lookup := {}) : Option String := h.textTo k (h.size + 1) v

end Heap

/-- The value stored under a name, null if there is none. -/
def fieldValue (fields : List (String × Value)) (name : String) : Value :=
  (fields.lookup name).getD .null

def setFieldValue : (fields : List (String × Value)) → (name : String) → Value → List (String × Value)
  | [], name, v => [(name, v)]
  | (n, w) :: fs, name, v => if n = name then (n, v) :: fs else (n, w) :: setFieldValue fs name v

/-- Why a run stops. -/
inductive Cause where
  | nullReference | classCast | noSuchMethod | noSuchClass | indexOutOfRange
  | stackUnderflow | stackOverflow | callDepth | unknownLabel | divisionByZero | invalidLocalSlot
  | canceled
  | unsupported (mnemonic : String)
  deriving Repr, DecidableEq, Inhabited

def Cause.text : Cause → String
  | .nullReference => "null reference"
  | .classCast => "class cast"
  | .noSuchMethod => "no such method"
  | .noSuchClass => "no such class"
  | .indexOutOfRange => "index out of range"
  | .stackUnderflow => "operand stack underflow"
  | .stackOverflow => "operand stack overflow"
  | .callDepth => "call depth exceeded"
  | .unknownLabel => "unknown label"
  | .divisionByZero => "division by zero"
  | .invalidLocalSlot => "invalid local slot"
  | .canceled => "context canceled"
  | .unsupported m => "unsupported opcode " ++ m

/-- A cause with notes on where it arose, the outermost first. A fault is `endless` if one of its notes
has no end. -/
structure Fault where
  cause : Cause
  notes : List String := []
  endless : Bool := false
  deriving Repr, DecidableEq, Inhabited

/-- Notes and the text of a cause on one line; empty notes are left out. -/
def joinNotes (notes : List String) (cause : String) : String :=
  ": ".intercalate (notes.filter (!·.isEmpty) ++ [cause])

def Fault.message (f : Fault) : String :=
  if f.endless then "endless text" else joinNotes f.notes f.cause.text

/-- An active call. `pushesResult` says whether the caller gets the result. -/
structure Frame where
  cls : String
  method : MethodCode
  locals : Array Value := #[]
  stack : List Value := []
  pc : Nat := 0
  steps : Nat := 0
  pushesResult : Bool := false
  deriving Repr, Inhabited

def fault {α : Type} (cause : Cause) (notes : List String := []) : Except Fault α :=
  .error { cause, notes }

/-- A failed cast, with a note that tells the value. -/
def castFault {α : Type} (h : Heap) (v : Value) (k : Lookup) (note : (text : String) → String) : Except Fault α :=
  let text := h.text v k
  .error { cause := .classCast, notes := (text.map note).toList, endless := text.isNone }

namespace Frame

def push (f : Frame) (v : Value) : Except Fault Frame :=
  -- A limit of zero, or below, is none.
  if 0 < f.method.stackLimit && f.method.stackLimit ≤ f.stack.length then fault .stackOverflow
  else .ok { f with stack := v :: f.stack }

def pop (f : Frame) : Except Fault (Value × Frame) :=
  match f.stack with
  | [] => fault .stackUnderflow
  | v :: vs => .ok (v, { f with stack := vs })

/-- Takes `n` values and lists them in the order in which they were pushed. -/
def popMany (f : Frame) (n : Nat) : Except Fault (List Value × Frame) :=
  if f.stack.length < n then fault .stackUnderflow
  else .ok ((f.stack.take n).reverse, { f with stack := f.stack.drop n })

def popTwo (f : Frame) : Except Fault (Value × Value × Frame) :=
  match f.stack with
  | b :: a :: vs => .ok (a, b, { f with stack := vs })
  | _ => fault .stackUnderflow

def slot (f : Frame) (i : Int) : Except Fault Nat :=
  if 0 ≤ i && i.toNat < f.locals.size then .ok i.toNat else fault .invalidLocalSlot [toString i]

def local? (f : Frame) (i : Nat) : Value := f.locals[i]?.getD .null

def setLocal (f : Frame) (i : Nat) (v : Value) : Frame := { f with locals := f.locals.setIfInBounds i v }

def jumpTo (f : Frame) (label : String) (k : Lookup := {}) : Except Fault Frame :=
  match k.label f.method.code label with
  | some i => .ok { f with pc := i }
  | none => fault .unknownLabel [label]

/-- A call of a method with its arguments in the first slots. -/
def enter (cls : String) (m : MethodCode) (args : List Value) (pushesResult : Bool) : Frame :=
  { cls, method := m, pushesResult
    -- More arguments than slots still get theirs.
    locals := args.toArray ++ Array.replicate (m.localsLimit.toNat - args.length) Value.null }

end Frame

end ClassCompiler
