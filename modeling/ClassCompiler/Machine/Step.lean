import ClassCompiler.Machine.Basic

namespace ClassCompiler

/-- The classes of a machine; of two of one name the first counts. -/
structure Machine where
  classes : List ClassFile
  deriving Repr, Inhabited

namespace Machine

/-- A machine over class files, where a later file replaces an earlier one of the same name. -/
def load (files : List ClassFile) : Machine := ⟨files.reverse⟩

def class? (m : Machine) (name : String) : Option ClassFile := m.classes.find? (·.name = name)

/-- The walk from a class up through its parents; every class met is taken out. -/
def chainIn : (steps : Nat) → (cs : List ClassFile) → (name : String) → List ClassFile
  | 0, _, _ => []
  | steps + 1, cs, name =>
    match cs.find? (·.name = name) with
    | none => []
    | some c => c :: chainIn steps (cs.filter (·.name ≠ name)) c.super

def chain (m : Machine) (name : String) : List ClassFile := chainIn m.classes.length m.classes name

def isInstance (m : Machine) (h : Heap) (v : Value) (cls : String) : Bool :=
  cls = rootClass ||
    match h.get? v with
    | some (.inst c _) => (m.chain c).any (·.name = cls)
    | _ => h.className v = cls

/-- A method of a class or of its nearest parent that has it. -/
def virtualMethod? (m : Machine) (cls name desc : String) : Option (ClassFile × MethodCode) :=
  (m.chain cls).findSome? fun c => (c.method? name desc).map (c, ·)

/-- A new object of a runtime class or of a loaded class. -/
def allocate (m : Machine) (cls : String) : Except Fault Object :=
  if cls = listClass then .ok (.list [])
  else if cls = fptrClass then .ok (.fptr .null "")
  else if cls = arrayListClass then .ok (.arrayList [])
  else if (m.class? cls).isSome then .ok (.inst cls [])
  else fault .noSuchClass [cls]

end Machine

/-- The class and the fields of the object a value refers to. -/
def asInstance (h : Heap) (v : Value) (k : Lookup := {}) : Except Fault (String × List (String × Value)) :=
  if v.isNull then fault .nullReference
  else match h.get? v with
    | some (.inst c fs) => .ok (c, fs)
    | _ => castFault h v k (· ++ " is not an object")

/-- What an operation leaves behind: the frame and the heap, with what it printed or the call that it
starts. -/
inductive Effect where
  | next (frame : Frame) (heap : Heap) (printed : String)
  | call (frame : Frame) (heap : Heap) (cls : String) (method : MethodCode) (args : List Value)
    (pushesResult : Bool)

/-- An operation that prints nothing and leaves the heap alone. -/
def Effect.quiet (h : Heap) (f : Frame) : Effect := .next f h ""

/-- What a runtime method does: it answers and may print, or it calls a method in its place. -/
inductive Reply where
  | value (v : Value) (heap : Heap) (printed : String)
  | call (heap : Heap) (cls : String) (method : MethodCode) (args : List Value)

def argument (args : List Value) (i : Nat) : Value := args[i]?.getD .null

/-- The elements of the list or array list that an argument refers to. -/
def elementsOf (h : Heap) (select : Object → Option (List Value)) (v : Value) (note : String) (k : Lookup := {}) :
    Except Fault (List Value) :=
  if v.isNull then fault .nullReference
  else match (h.get? v).bind select with
    | some es => .ok es
    | none => castFault h v k (· ++ note)

def Object.listElems? : Object → Option (List Value)
  | .list es => some es
  | _ => none

def Object.arrayListElems? : Object → Option (List Value)
  | .arrayList es => some es
  | _ => none

def NativeConstructor.run (h : Heap) (recv : Value) (args : List Value) (k : Lookup := {}) :
    NativeConstructor → Except Fault Heap
  | .listOfArrayList => fillList Object.arrayListElems?
  | .listCopy => fillList Object.listElems?
  | .fptrBind =>
    match h.get? recv with
    | some (.fptr _ _) =>
      match argument args 1 with
      | .str name => .ok (h.set recv (.fptr (argument args 0) (k.text name)))
      | v => castFault h v k ("method name " ++ ·)
    | _ => fault .classCast [h.className recv ++ " is not Fptr"]
where
  fillList (select : Object → Option (List Value)) : Except Fault Heap :=
    match h.get? recv with
    | some (.list _) => do
      let es ← elementsOf h select (argument args 0) "" k
      return h.set recv (.list es)
    | _ => fault .classCast [h.className recv ++ " is not List"]

/-- The call of a bound method: looked up by name in the table of the receiver's class. -/
def Machine.dispatch (m : Machine) (h : Heap) (receiver : Value) (name : String) (args : List Value)
    (k : Lookup := {}) : Except Fault Reply :=
  match asInstance h receiver k with
  | .error e => .error { e with notes := ("invoke " ++ name) :: e.notes }
  | .ok (cls, _) =>
    match (m.class? cls).bind (·.table.lookup name) with
    | none => fault .noSuchMethod [cls ++ "." ++ name]
    | some owner =>
      match m.class? owner with
      | none => fault .noSuchClass [owner]
      | some c =>
        -- By name alone: the descriptor is looked at only for the number of arguments.
        match c.methodNamed? name with
        | none => fault .noSuchMethod [owner ++ "." ++ name]
        | some code =>
          let n := argCount code.desc
          if n = args.length then .ok (.call h c.name code (receiver :: args))
          else fault .noSuchMethod [c.name ++ "." ++ name ++ " takes " ++ toString n ++ " args, got " ++
            toString args.length]

def castTo (h : Heap) (v : Value) (name : String) : Except Fault Reply :=
  fault .classCast [h.className v ++ " to " ++ name]

def NativeMethod.run (m : Machine) (h : Heap) (recv : Value) (args : List Value) (k : Lookup := {}) :
    NativeMethod → Except Fault Reply
  | .intValue =>
    match h.get? recv with
    | some (.integer v) => .ok (.value (.int v) h "")
    | _ => castTo h recv "Integer"
  | .booleanValue =>
    match h.get? recv with
    | some (.boolean b) => .ok (.value (.ofBool b) h "")
    | _ => castTo h recv "Boolean"
  | .arrayListAdd =>
    match h.get? recv with
    | some (.arrayList es) =>
      .ok (.value (.ofBool true) (h.set recv (.arrayList (es ++ [argument args 0]))) "")
    | _ => castTo h recv "ArrayList"
  | .getElement =>
    match h.get? recv with
    | some (.list es) =>
      match position es with
      | .ok i => .ok (.value (argument es i) h "")
      | .error e => .error e
    | _ => castTo h recv "List"
  | .setElement =>
    match h.get? recv with
    | some (.list es) =>
      match position es with
      | .ok i => .ok (.value .null (h.set recv (.list (es.set i (argument args 1)))) "")
      | .error e => .error e
    | _ => castTo h recv "List"
  | .invoke =>
    match h.get? recv with
    | some (.fptr receiver name) => do
      let es ← elementsOf h Object.arrayListElems? (argument args 0) " to ArrayList" k
      m.dispatch h receiver name es k
    | _ => castTo h recv "Fptr"
  | .printInt => .ok (.value .null h (toString (argument args 0).toInt32.toInt))
  | .printBool => .ok (.value .null h (if (argument args 0).toBool then "true" else "false"))
  | .printString =>
    match h.text (argument args 0) k with
    | some text => .ok (.value .null h text)
    | none => castFault h (argument args 0) k id
where
  position (es : List Value) : Except Fault Nat :=
    let i := (argument args 0).toInt32.toInt
    if 0 ≤ i && i < es.length then .ok i.toNat
    else fault .indexOutOfRange [toString i ++ " of " ++ toString es.length]

def NativeStatic.run (h : Heap) (args : List Value) : NativeStatic → Heap × Value
  | .integerValueOf => h.alloc (.integer (argument args 0).toInt32)
  | .booleanValueOf => h.alloc (.boolean (argument args 0).toBool)

def ArithOp.apply (a b : Int32) : ArithOp → Except Fault Int32
  | .add => .ok (a + b)
  | .sub => .ok (a - b)
  | .mul => .ok (a * b)
  | .div => if b = 0 then fault .divisionByZero else .ok (a / b)
  | .rem => if b = 0 then fault .divisionByZero else .ok (a % b)

def IntTest.holds (a b : Int32) : IntTest → Bool
  | .eq => a = b
  | .ne => a ≠ b
  | .lt => a < b
  | .gt => b < a
  | .ge => b ≤ a

/-- Takes the operands of a jump and decides whether it is taken. -/
def Jump.decide (f : Frame) : Jump → Except Fault (Bool × Frame)
  | .always => .ok (true, f)
  | .ifZero => do
    let (v, f) ← f.pop
    return (v.toInt32 == 0, f)
  | .ifNonzero => do
    let (v, f) ← f.pop
    return (v.toInt32 != 0, f)
  | .ifInts t => do
    let (a, b, f) ← f.popTwo
    return (t.holds a.toInt32 b.toInt32, f)
  | .ifSame => do
    let (a, b, f) ← f.popTwo
    return (a = b, f)
  | .ifDifferent => do
    let (a, b, f) ← f.popTwo
    return (a ≠ b, f)

namespace Machine

variable (m : Machine)

def invokeSpecial (f : Frame) (h : Heap) (r : MemberRef) (k : Lookup := {}) : Except Fault Effect :=
  if r.name ≠ initName then fault .noSuchMethod ["invokespecial " ++ r.owner ++ "/" ++ r.name]
  else do
    let (vals, f) ← f.popMany (argCount r.desc + 1)
    let recv := argument vals 0
    if recv.isNull then fault .nullReference
    else match NativeConstructor.ofRef? r with
      | some n =>
        let h ← n.run h recv vals.tail k
        return .next f h ""
      | none =>
        -- These have nothing to construct.
        if r.owner = rootClass || r.owner = arrayListClass then return .next f h ""
        else match m.class? r.owner with
          | none => fault .noSuchClass [r.owner]
          | some cls =>
            match cls.method? r.name r.desc with
            | none => fault .noSuchMethod [r.key]
            | some code => return .call f h cls.name code vals false

def invokeVirtual (f : Frame) (h : Heap) (r : MemberRef) (k : Lookup := {}) : Except Fault Effect := do
  let (vals, f) ← f.popMany (argCount r.desc + 1)
  let recv := argument vals 0
  let pushes := !returnsVoid r.desc
  if recv.isNull then fault .nullReference ["call " ++ r.name]
  else match NativeMethod.ofRef? r with
    | some n =>
      match ← n.run m h recv vals.tail k with
      | .value v h printed =>
        let f ← if pushes then f.push v else .ok f
        return .next f h printed
      | .call h cls code args => return .call f h cls code args pushes
    | none =>
      let (cls, _) ← asInstance h recv k
      match m.virtualMethod? cls r.name r.desc with
      | none => fault .noSuchMethod [cls ++ "/" ++ r.name ++ r.desc]
      | some (owner, code) => return .call f h owner.name code vals pushes

def invokeStatic (f : Frame) (h : Heap) (r : MemberRef) : Except Fault Effect := do
  let (args, f) ← f.popMany (argCount r.desc)
  match NativeStatic.ofRef? r with
  | none => fault .noSuchMethod ["static " ++ r.key]
  | some n =>
    let (h, v) := n.run h args
    let f ← f.push v
    return .next f h ""

def exec (f : Frame) (h : Heap) (op : Op) (k : Lookup := {}) : Except Fault Effect :=
  match op with
  | .pushInt v => Effect.quiet h <$> f.push (.int (Int32.ofInt v))
  | .pushString s => Effect.quiet h <$> f.push (.str (k.string s))
  | .pushNull => Effect.quiet h <$> f.push .null
  | .load _ i => do
    let i ← f.slot i
    Effect.quiet h <$> f.push (f.local? i)
  | .store _ i => do
    let i ← f.slot i
    let (v, f) ← f.pop
    return .quiet h (f.setLocal i v)
  | .increment i d => do
    let i ← f.slot i
    return .quiet h (f.setLocal i (.int ((f.local? i).toInt32 + Int32.ofInt d)))
  | .dup => do
    let (v, f) ← f.pop
    let f ← f.push v
    Effect.quiet h <$> f.push v
  | .pop => do
    let (_, f) ← f.pop
    return .quiet h f
  | .arith op => do
    let (a, b, f) ← f.popTwo
    let r ← op.apply a.toInt32 b.toInt32
    Effect.quiet h <$> f.push (.int r)
  | .neg => do
    let (v, f) ← f.pop
    Effect.quiet h <$> f.push (.int (-v.toInt32))
  | .jump test label => do
    let (taken, f) ← test.decide f
    if taken then Effect.quiet h <$> f.jumpTo label k else return .quiet h f
  | .label _ => return .quiet h f
  | .new cls => do
    let o ← m.allocate cls
    let (h, v) := h.alloc o
    let f ← f.push v
    return .next f h ""
  -- The value is looked at where it lies. `null` passes as any class, a raw number as none.
  | .cast cls =>
    match f.stack with
    | [] => fault .stackUnderflow
    | v :: _ =>
      if v.isNull || v.isReference && m.isInstance h v cls then return .quiet h f
      else castFault h v k (· ++ " to " ++ cls)
  | .getField r => do
    let (v, f) ← f.pop
    match asInstance h v k with
    | .error e => .error { e with notes := ("get " ++ r.name) :: e.notes }
    -- The name alone tells the field; the class that `r` names is not looked at.
    | .ok (_, fields) => Effect.quiet h <$> f.push (fieldValue fields r.name)
  | .putField r => do
    let (a, b, f) ← f.popTwo
    match asInstance h a k with
    | .error e => .error { e with notes := ("put " ++ r.name) :: e.notes }
    | .ok (cls, fields) => return .next f (h.set a (.inst cls (setFieldValue fields r.name b))) ""
  | .getStatic r =>
    if r.owner = outField.owner && r.name = outField.name then Effect.quiet h <$> f.push .stream
    else fault .noSuchMethod ["static field " ++ r.owner ++ "/" ++ r.name]
  | .invokeSpecial r => m.invokeSpecial f h r k
  | .invokeVirtual r => m.invokeVirtual f h r k
  | .invokeStatic r => invokeStatic f h r
  | op => fault (.unsupported op.mnemonic)

end Machine

end ClassCompiler
