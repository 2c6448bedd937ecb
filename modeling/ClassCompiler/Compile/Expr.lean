import ClassCompiler.Compile.Basic

namespace ClassCompiler

/-- The value to store: a list is copied, so that two variables never share one. -/
def storedValue (left right : Ty) (line : Int) (value : List Instr) : List Instr :=
  if left.isList && right.isList then
    onLine line [.new listClass, .dup] ++ value ++
      onLine line [.invokeSpecial NativeConstructor.listCopy.ref]
  else value

/-- Stores into a list whose reference and index are on the stack below the value, and reads the
element back through the reference below them. -/
def storeElement (left right : Ty) (line : Int) (index : Op) : List Instr :=
  onLine line (box right ++ [.invokeVirtual NativeMethod.setElement.ref, index,
    .invokeVirtual NativeMethod.getElement.ref] ++ narrow (if right.isNull then left else right))

/-- Changes the number on the stack by `delta` and keeps the result of the whole expression, the
old or the new number, in a slot. -/
def changeBy (delta : Int) (isPre : Bool) (slot : Nat) : List Op :=
  -- What is kept is what the expression yields: the new number if the operator stands in front.
  let keep : List Op := [.dup, .store .int slot]
  let add : List Op := [.pushInt delta, .arith .add]
  if isPre then add ++ keep else keep ++ add

/-- The right operand is left out once the left one decides. -/
def logicalCode (line : Int) (exit : Jump) (decided : Int) (short after : String)
    (left right : List Instr) : List Instr :=
  left ++ onLine line [.jump exit short] ++ right ++ onLine line
    [.jump exit short, .pushInt (1 - decided), .jump .always after, .label short, .pushInt decided,
      .label after]

def UnOp.delta : UnOp → Int
  | .preDec => -1
  | .postDec => -1
  | _ => 1

def BinOp.arith? : BinOp → Option ArithOp
  | .add => some .add
  | .sub => some .sub
  | .mul => some .mul
  | .div => some .div
  | .mod => some .rem
  | _ => none

/-- The jump that is taken if a comparison holds. Numbers are compared by value, objects by
identity. -/
def BinOp.comparison (primitive : Bool) : BinOp → Jump
  | .lt => .ifInts .lt
  | .gt => .ifInts .gt
  | .eq => if primitive then .ifInts .eq else .ifSame
  | _ => if primitive then .ifInts .ne else .ifDifferent

def MethodDecl.descriptor (m : MethodDecl) : String :=
  "(" ++ String.join (m.args.map (·.type.descriptor)) ++ ")" ++ m.result.descriptor

def MethodDecl.constructorDescriptor (m : MethodDecl) : String :=
  "(" ++ String.join (m.args.map (·.type.descriptor)) ++ ")" ++ Ty.void.descriptor

/-- The descriptor under which the constructor of a class is called. -/
def Program.constructorDescriptor (p : Program) (cls : String) : String :=
  match p.constructor? cls with
  | some m => m.constructorDescriptor
  | none => "()V"

namespace Context

variable (ctx : Context)

def slotOf (name : String) (line : Int) : Gen Symbol :=
  match ctx.method.symbol? name with
  | some s => return s
  | none => Gen.fail (.unresolved name line)

def elementOf (elems : List (String × Ty)) (name : String) (line : Int) : Gen Nat :=
  match Ty.position? elems name with
  | some i => return i
  | none => Gen.fail (.noElement name line)

def ownerOf (cls name : String) (line : Int) : Gen String :=
  match ctx.table.field? cls name with
  | some (owner, _) => return owner
  | none => Gen.fail (.noField name cls line)

/-- What follows a call: a result is narrowed to the declared type. -/
def callResultOps : Ty → List Op
  | .fptr _ r => if r.isVoid then [] else narrow r
  | _ => []

mutual

def compileExpr : Expr → Gen (List Instr)
  | .int t v => return onLine t.pos.line [.pushInt v]
  | .bool t b => return onLine t.pos.line [.pushInt (if b then 1 else 0)]
  | .string t s => return onLine t.pos.line [.pushString s]
  | .null t => return onLine t.pos.line [.pushNull]
  | .this t => return onLine t.pos.line [.load .ref 0]
  | .ident id => do
    let s ← ctx.slotOf id.name id.token.pos.line
    return onLine id.token.pos.line (.load .ref s.slot :: unbox s.type)
  | .member t x m =>
    let line := t.pos.line
    match ctx.typeOf x with
    | .cls c =>
      -- A field hides a method of the same name.
      match ctx.table.field? c m.name with
      | some (owner, f) => do
        let xc ← compileExpr x
        return xc ++ onLine line (.getField ⟨owner, m.name, f.type.descriptor⟩ :: unbox f.type)
      | none =>
        match ctx.table.method? c m.name with
        | some _ => do
          let xc ← compileExpr x
          return onLine line [.new fptrClass, .dup] ++ xc ++
            onLine line [.pushString m.name, .invokeSpecial NativeConstructor.fptrBind.ref]
        | none => Gen.fail (.noMember m.name c line)
    | .list elems => do
      let i ← elementOf elems m.name line
      let xc ← compileExpr x
      return xc ++ onLine line (.pushInt i :: .invokeVirtual NativeMethod.getElement.ref ::
        narrow (ctx.typeOf (.member t x m)))
    | ty => Gen.fail (.memberAccess ty line)
  | .index t x i => do
    let xc ← compileExpr x
    let ic ← compileExpr i
    return xc ++ ic ++ onLine t.pos.line (.invokeVirtual NativeMethod.getElement.ref ::
      narrow (ctx.typeOf (.index t x i)))
  | .list t es => do
    let ec ← compileElements t.pos.line es
    return onLine t.pos.line ([.new listClass, .dup] ++ newArrayList) ++ ec ++
      onLine t.pos.line [.invokeSpecial NativeConstructor.listOfArrayList.ref]
  | .new t c as => do
    let ac ← compileArgs as
    -- One reference for the constructor, one for whoever uses the object.
    return onLine t.pos.line [.new c.name, .dup] ++ ac ++
      onLine t.pos.line [.invokeSpecial ⟨c.name, initName, ctx.table.constructorDescriptor c.name⟩]
  | .call t f as => do
    let fc ← compileExpr f
    -- Whatever their number, the arguments travel in one array list.
    let ac ← compileElements t.pos.line as
    return fc ++ onLine t.pos.line newArrayList ++ ac ++
      onLine t.pos.line (.invokeVirtual NativeMethod.invoke.ref :: callResultOps (ctx.typeOf f))
  | .unary t op x =>
    let line := t.pos.line
    match op with
    | .neg => do
      let xc ← compileExpr x
      return xc ++ onLine line [.neg]
    | .not => do
      let xc ← compileExpr x
      let yes ← Gen.newLabel
      let after ← Gen.newLabel
      return xc ++ onLine line (branchMerge .ifNonzero 0 yes after)
    | op =>
      match x with
      | .ident id => do
        let s ← ctx.slotOf id.name line
        let add : List Op := [.pushInt op.delta, .arith .add]
        return onLine line (.load .ref s.slot :: unbox .int ++
          (if op.isPre then add ++ [.dup] else .dup :: add) ++ box .int ++ [.store .ref s.slot])
      -- The element is read and then stored, so the list and the index are kept in slots.
      | .index _ y i => do
        let list ← Gen.newSlot
        let idx ← Gen.newSlot
        let val ← Gen.newSlot
        let yc ← compileExpr y
        let ic ← compileExpr i
        let element : List Op := [.load .ref list, .load .int idx]
        return yc ++ onLine line [.store .ref list] ++ ic ++ onLine line (.store .int idx ::
          element ++ element ++ .invokeVirtual NativeMethod.getElement.ref :: narrow .int ++
          changeBy op.delta op.isPre val ++ box .int ++
          [.invokeVirtual NativeMethod.setElement.ref, .load .int val])
      | .member _ y m =>
        match ctx.typeOf y with
        | .list elems => do
          let i ← elementOf elems m.name line
          let list ← Gen.newSlot
          let val ← Gen.newSlot
          let yc ← compileExpr y
          let element : List Op := [.load .ref list, .pushInt i]
          return yc ++ onLine line (.store .ref list ::
            element ++ element ++ .invokeVirtual NativeMethod.getElement.ref :: narrow .int ++
            changeBy op.delta op.isPre val ++ box .int ++
            [.invokeVirtual NativeMethod.setElement.ref, .load .int val])
        | .cls c => do
          let owner ← ctx.ownerOf c m.name line
          let field : MemberRef := ⟨owner, m.name, Ty.int.descriptor⟩
          let obj ← Gen.newSlot
          let val ← Gen.newSlot
          let yc ← compileExpr y
          return yc ++ onLine line ([.store .ref obj, .load .ref obj, .load .ref obj, .getField field] ++
            unbox .int ++ changeBy op.delta op.isPre val ++ box .int ++ [.putField field, .load .int val])
        | _ => Gen.fail (.cannotIncrement x.formName line)
      | x => Gen.fail (.cannotIncrement x.formName line)
  | .binary t op l r =>
    let line := t.pos.line
    match op with
    | .assign =>
      let lt := ctx.typeOf l
      let rt := ctx.typeOf r
      match l with
      | .ident id => do
        let s ← ctx.slotOf id.name line
        let rc ← compileExpr r
        -- The copy that is not boxed is the value of the assignment.
        return storedValue lt rt r.line rc ++ onLine line (.dup :: box rt ++ [.store .ref s.slot])
      -- The element is read back as the value of the assignment, for which the index is kept.
      | .index _ x i => do
        let xc ← compileExpr x
        let ic ← compileExpr i
        let idx ← Gen.newSlot
        let rc ← compileExpr r
        return xc ++ onLine line [.dup] ++ ic ++ onLine line [.dup, .store .int idx] ++
          storedValue lt rt r.line rc ++ storeElement lt rt line (.load .int idx)
      | .member _ x m =>
        match ctx.typeOf x with
        | .list elems => do
          let i ← elementOf elems m.name line
          let xc ← compileExpr x
          let rc ← compileExpr r
          return xc ++ onLine line [.dup, .pushInt i] ++ storedValue lt rt r.line rc ++
            storeElement lt rt line (.pushInt i)
        | .cls c => do
          let owner ← ctx.ownerOf c m.name line
          let field : MemberRef := ⟨owner, m.name, lt.descriptor⟩
          let xc ← compileExpr x
          let rc ← compileExpr r
          -- The value is what the field then holds.
          return xc ++ onLine line [.dup] ++ storedValue lt rt r.line rc ++
            onLine line (box rt ++ [.putField field, .getField field] ++ unbox lt)
        | _ => Gen.fail (.cannotAssign l.formName line)
      | l => Gen.fail (.cannotAssign l.formName line)
    | .and => do
      let short ← Gen.newLabel
      let after ← Gen.newLabel
      let lc ← compileExpr l
      let rc ← compileExpr r
      return logicalCode line .ifZero 0 short after lc rc
    | .or => do
      let short ← Gen.newLabel
      let after ← Gen.newLabel
      let lc ← compileExpr l
      let rc ← compileExpr r
      return logicalCode line .ifNonzero 1 short after lc rc
    | op => do
      let lc ← compileExpr l
      let rc ← compileExpr r
      match op.arith? with
      | some a => return lc ++ rc ++ onLine line [.arith a]
      | none => do
        let yes ← Gen.newLabel
        let after ← Gen.newLabel
        -- The type of the left operand tells for both: they are both numbers or truth values, or neither is.
        return lc ++ rc ++ onLine line
          (branchMerge (op.comparison (ctx.typeOf l).isPrimitive) 1 yes after)

/-- Adds the values of expressions, boxed, to the array list on the stack. -/
def compileElements (line : Int) : List Expr → Gen (List Instr)
  | [] => return []
  | e :: es => do
    let ec ← compileExpr e
    let rest ← compileElements line es
    return onLine line [.dup] ++ ec ++ onLine e.line (box (ctx.typeOf e)) ++ onLine line addElement ++ rest

/-- Leaves the values of expressions, boxed, on the stack. -/
def compileArgs : List Expr → Gen (List Instr)
  | [] => return []
  | e :: es => do
    let ec ← compileExpr e
    let rest ← compileArgs es
    return ec ++ onLine e.line (box (ctx.typeOf e)) ++ rest

end

end Context

end ClassCompiler
