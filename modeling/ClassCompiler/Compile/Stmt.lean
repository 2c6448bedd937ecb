import ClassCompiler.Compile.Expr

namespace ClassCompiler

/-- Where `continue` and `break` go. -/
structure Loop where
  next : String
  done : String
  deriving Repr, DecidableEq, Inhabited

def Ty.printer? : Ty → Option NativeMethod
  | .int => some .printInt
  | .bool => some .printBool
  | .string => some .printString
  | _ => none

namespace Context

variable (ctx : Context)

def compileAssign (a : Assign) : Gen (List Instr) := do
  let c ← ctx.compileExpr (.binary a.token .assign a.left a.right)
  return c ++ onLine a.token.pos.line [.pop]

def compileOptionalAssign : Option Assign → Gen (List Instr)
  | none => return []
  | some a => ctx.compileAssign a

/-- The test of a loop, which leaves the loop where it fails. -/
def compileTest (line : Int) (done : String) : Option Expr → Gen (List Instr)
  | none => return []
  | some e => do
    let c ← ctx.compileExpr e
    return c ++ onLine line [.jump .ifZero done]

def compileReturn (line : Int) : Option Expr → Gen (List Instr)
  | none => return onLine line [.ret]
  | some e => do
    let c ← ctx.compileExpr e
    let t := ctx.typeOf e
    -- A call without a result leaves `null`, which is dropped before the return.
    return c ++ onLine line (if t.isVoid then [.pop, .ret] else box t ++ [.retRef])

mutual

def compileStmt (loop : Option Loop) : Stmt → Gen (List Instr)
  | .assign a => ctx.compileAssign a
  | .block _ ss => compileStmts loop ss
  | .cond t c y n => do
    let line := t.pos.line
    -- Labels are taken before the parts are compiled, which take theirs in between.
    let no ← Gen.newLabel
    let after ← Gen.newLabel
    let cc ← ctx.compileExpr c
    let yc ← compileStmt loop y
    let nc ← compileElse loop n
    return cc ++ onLine line [.jump .ifZero no] ++ yc ++ onLine line [.jump .always after, .label no] ++
      nc ++ onLine line [.label after]
  | .call t f as => do
    let c ← ctx.compileExpr (.call t f as)
    return c ++ onLine t.pos.line [.pop]
  | .print t x =>
    let line := t.pos.line
    let ty := ctx.typeOf x
    match ty.printer? with
    | none => Gen.fail (.cannotPrint ty line)
    | some p => do
      let c ← ctx.compileExpr x
      return onLine line [.getStatic outField] ++ c ++ onLine line [.invokeVirtual p.ref]
  | .ret t v => ctx.compileReturn t.pos.line v
  | .for t i c u b => do
    let line := t.pos.line
    let start ← Gen.newLabel
    let next ← Gen.newLabel
    let done ← Gen.newLabel
    let ic ← ctx.compileOptionalAssign i
    let cc ← ctx.compileTest line done c
    let bc ← compileStmt (some { next, done }) b
    let uc ← ctx.compileOptionalAssign u
    -- `continue` goes on with the update.
    return ic ++ onLine line [.label start] ++ cc ++ bc ++ onLine line [.label next] ++ uc ++
      onLine line [.jump .always start, .label done]
  | .foreach t v l b =>
    let line := t.pos.line
    match ctx.typeOf l with
    | .list elems => do
      let s ← ctx.slotOf v.name line
      let start ← Gen.newLabel
      let next ← Gen.newLabel
      let done ← Gen.newLabel
      let list ← Gen.newSlot
      let i ← Gen.newSlot
      let lc ← ctx.compileExpr l
      let bc ← compileStmt (some { next, done }) b
      -- The variable keeps the element as the list has it, boxed.
      let cast : List Op := if s.type.isNoType then [] else [.cast s.type.classRef]
      -- The bound is the length of the type, not that of the list.
      return lc ++ onLine line ([.store .ref list, .pushInt 0, .store .int i,
          .label start, .load .int i, .pushInt elems.length, .jump (.ifInts .ge) done,
          .load .ref list, .load .int i, .invokeVirtual NativeMethod.getElement.ref] ++ cast ++
          [.store .ref s.slot]) ++
        bc ++ onLine line [.label next, .increment i 1, .jump .always start, .label done]
    | ty => Gen.fail (.cannotIterate ty line)
  | .break t =>
    match loop with
    | some l => return onLine t.pos.line [.jump .always l.done]
    | none => Gen.fail (.breakOutside t.pos.line)
  | .continue t =>
    match loop with
    | some l => return onLine t.pos.line [.jump .always l.next]
    | none => Gen.fail (.continueOutside t.pos.line)

def compileStmts (loop : Option Loop) : List Stmt → Gen (List Instr)
  | [] => return []
  | s :: ss => do
    let c ← compileStmt loop s
    let rest ← compileStmts loop ss
    return c ++ rest

def compileElse (loop : Option Loop) : Option Stmt → Gen (List Instr)
  | none => return []
  | some s => compileStmt loop s

end

end Context

end ClassCompiler
