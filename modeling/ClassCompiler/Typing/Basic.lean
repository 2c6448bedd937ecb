import ClassCompiler.Diagnostic.Basic
import ClassCompiler.Tree.Hierarchy

namespace ClassCompiler

/-- Where an expression stands: the classes of the program, the class around it and its method. -/
structure Context where
  table : Program
  className : String
  method : MethodDecl
  deriving Repr, Inhabited

/-- The type of an expression, whether it names storage, and what is wrong with it. -/
structure Typed where
  type : Ty
  isPlace : Bool := false
  issues : List Diagnostic := []
  deriving Repr, Inhabited

/-- The types of expressions in order, and what is wrong with them. -/
structure TypedList where
  types : List Ty := []
  issues : List Diagnostic := []
  deriving Repr, Inhabited

def report (pos : Pos) (code : Diagnostic.Code) (args : List String := []) : Diagnostic :=
  { code, pos, args }

namespace Typed

def value (t : Ty) (issues : List Diagnostic := []) : Typed := { type := t, issues }

def place (t : Ty) (issues : List Diagnostic := []) : Typed := { type := t, isPlace := true, issues }

end Typed

namespace Ty

def firstKnown (elems : List (String × Ty)) : Ty :=
  ((elems.find? fun e => !e.2.isNoType).map Prod.snd).getD .noType

/-- Whether `null` may be compared with a value of the type. -/
def isNullable : Ty → Bool
  | .null => true
  | .cls _ => true
  | .fptr _ _ => true
  | _ => false

def isPrintable : Ty → Bool
  | .int => true
  | .bool => true
  | .string => true
  | .noType => true
  | _ => false

end Ty

/-- Whether all known types of a list type are equivalent to `first`. -/
def Program.sameElements (p : Program) (elems : List (String × Ty)) (first : Ty) : Bool :=
  elems.all fun e => e.2.isNoType || p.equivalent first e.2

namespace Context

variable (ctx : Context)

def identifier (id : Ident) : Typed :=
  match ctx.method.symbol? id.name with
  | some s => .place s.type
  | none => .place .noType [report id.token.pos .E001 [id.name]]

def memberAccess (pos : Pos) (receiver : Ty) (name : String) : Typed :=
  match receiver with
  | .noType => .place .noType
  | .cls c =>
    if ctx.table.hasClass c then
      match ctx.table.field? c name with
      | some (_, f) => .place f.type
      | none =>
        match ctx.table.method? c name with
        | some (_, m) => .value m.functionType
        | none => .place .noType [report pos .E002 [c, name]]
    else .place .noType [report pos .D001 [c]]
  | .list elems =>
    -- A position whose type is lost may be the one that is meant.
    match elems.find? fun e => e.1 = name || e.2.isNoType with
    | some (_, t) => .place t
    | none => .place .noType [report pos .E003 [name]]
  | _ => .value .noType [report pos .E004 [name]]

def literal? : Expr → Option Int
  | .int _ v => some v
  | _ => none

def indexIssues (index : Expr) (t : Ty) : List Diagnostic :=
  if t.isInt || t.isNoType then [] else [report index.pos .E005 [t.text]]

/-- Access to a position of a list. The index of a list of different types is a constant. -/
def elementAccess (index : Expr) (indexType : Ty) (elems : List (String × Ty)) : Typed :=
  let failed := !(indexType.isInt || indexType.isNoType)
  let first := Ty.firstKnown elems
  if ctx.table.sameElements elems first then
    -- An empty list has no type for its elements, and nothing is reported.
    .place (if failed || elems.isEmpty then .noType else first)
  else if indexType.isNoType then .place .noType
  else match literal? index with
    | some v =>
      if 0 ≤ v && v < elems.length then .place (if failed then .noType else Ty.elementAt elems v)
      else .place .noType [report index.pos .E007]
    | none => .place .noType [report index.pos .E007]

def indexAccess (pos : Pos) (index : Expr) (indexType receiver : Ty) : Typed :=
  match receiver with
  | .list elems => ctx.elementAccess index indexType elems
  | .noType => .place .noType
  | t => .place .noType [report pos .E006 [t.text]]

/-- Both operands have the wanted type, or one of them failed before. -/
def operands (pos : Pos) (op : BinOp) (wanted : Ty → Bool) (res left right : Ty) : Typed :=
  if (left.isNoType || wanted left) && (right.isNoType || wanted right) then
    .value (if left.isNoType || right.isNoType then .noType else res)
  else .value .noType [report pos .E008 [op.text]]

def equality (pos : Pos) (op : BinOp) (left right : Ty) : Typed :=
  -- Lists are compared with nothing, not even with a type that is lost.
  if left.isList || right.isList then .value .noType [report pos .E008 [op.text]]
  else if left.isNull && right.isNullable || right.isNull && left.isNullable then .value .bool
  else if ctx.table.equivalent left right then .value .bool
  else if left.isNoType || right.isNoType then .value .noType
  else .value .noType [report pos .E008 [op.text]]

def operation (pos : Pos) (op : BinOp) (left right : Ty) : Typed :=
  match op with
  | .and | .or => operands pos op Ty.isBool .bool left right
  | .add | .sub | .mul | .div | .mod => operands pos op Ty.isInt .int left right
  | .lt | .gt => operands pos op Ty.isInt .bool left right
  | .eq | .ne => ctx.equality pos op left right
  | .assign => .value .noType

def assignment (pos : Pos) (left : Typed) (right : Ty) : Typed :=
  if !left.isPlace then .value .noType
  else if left.type.isNoType || right.isNoType then .value .noType
  -- The type of the value, not that of the place.
  else if ctx.table.isSubtype right left.type then .value right
  else .value .noType [report pos .E008 [BinOp.assign.text]]

def placeIssues (pos : Pos) (left : Typed) : List Diagnostic :=
  if left.isPlace then [] else [report pos .E009]

def negation (pos : Pos) (op : UnOp) (t : Ty) : Typed :=
  let fits := match op with
    | .not => t.isBool
    | _ => t.isInt
  if t.isNoType then .value .noType
  else if fits then .value t
  else .value .noType [report pos .E008 [op.text]]

def increment (pos : Pos) (op : UnOp) (operand : Typed) : Typed :=
  let unassignable := if operand.isPlace then [] else [report pos .E010 [op.text]]
  if operand.type.isNoType then .value .noType unassignable
  else if operand.type.isInt then .value (if operand.isPlace then .int else .noType) unassignable
  else .value .noType (unassignable ++ [report pos .E008 [op.text]])

/-- Whether arguments fit parameters, one for one. -/
def fits (params args : List Ty) : Bool :=
  params.length = args.length && (args.zip params).all fun (a, p) => ctx.table.isSubtype a p

/-- What is wrong with a call before its arguments are looked at. The value of a void method is not
used, except that a statement may drop it. -/
def calleeIssues (pos : Pos) (dropped : Bool) (callee : Ty) : List Diagnostic :=
  match callee with
  | .fptr _ r => if r.isVoid && !dropped then [report pos .E012] else []
  | .noType => []
  | t => [report pos .E011 [t.text]]

def callResult (pos : Pos) (dropped : Bool) (callee : Ty) (args : List Ty) : Typed :=
  match callee with
  | .fptr params r =>
    if ctx.fits params args then .value (if r.isVoid && !dropped then .noType else r)
    else .value .noType [report pos .E013]
  | _ => .value .noType

def classIssues (pos : Pos) (name : String) : List Diagnostic :=
  if ctx.table.hasClass name then [] else [report pos .D001 [name]]

/-- A class without a constructor takes no arguments. -/
def creation (pos : Pos) (name : String) (args : List Ty) : Typed :=
  if ctx.table.hasClass name then
    let params := match ctx.table.constructor? name with
      | some m => m.args.map VarDecl.type
      | none => []
    if ctx.fits params args then .value (.cls name) else .value .noType [report pos .E014 [name]]
  else .value .noType

mutual

/-- The type of an expression whose value is used, or, with `dropped`, of a call that is a
statement. Issues stand in the order in which they are met. -/
def inferCall (dropped : Bool) : Expr → Typed
  | .ident id => ctx.identifier id
  | .member t x m =>
    let r := inferCall false x
    let own := ctx.memberAccess t.pos r.type m.name
    { own with issues := r.issues ++ own.issues }
  | .index t x i =>
    -- The index is looked at first, so its reports come first.
    let ir := inferCall false i
    let xr := inferCall false x
    let own := ctx.indexAccess t.pos i ir.type xr.type
    { own with issues := ir.issues ++ indexIssues i ir.type ++ xr.issues ++ own.issues }
  | .binary t op l r =>
    let lr := inferCall false l
    let rr := inferCall false r
    match op with
    | .assign =>
      let own := ctx.assignment t.pos lr rr.type
      { own with issues := lr.issues ++ placeIssues t.pos lr ++ rr.issues ++ own.issues }
    | _ =>
      let own := ctx.operation t.pos op lr.type rr.type
      { own with issues := lr.issues ++ rr.issues ++ own.issues }
  | .unary t op x =>
    let r := inferCall false x
    let own := if op.isIncDec then increment t.pos op r else negation t.pos op r.type
    { own with issues := r.issues ++ own.issues }
  | .call t f as =>
    let fr := inferCall false f
    let ar := inferAll as
    let own := ctx.callResult t.pos dropped fr.type ar.types
    { own with issues := fr.issues ++ calleeIssues t.pos dropped fr.type ++ ar.issues ++ own.issues }
  | .new t c as =>
    let ar := inferAll as
    let own := ctx.creation t.pos c.name ar.types
    { own with issues := ctx.classIssues t.pos c.name ++ ar.issues ++ own.issues }
  | .this _ => .value (.cls ctx.className)
  | .list _ es =>
    let r := inferAll es
    .value (.list (r.types.map ("", ·))) r.issues
  | .null _ => .value .null
  | .int _ _ => .value .int
  | .bool _ _ => .value .bool
  | .string _ _ => .value .string

def inferAll : List Expr → TypedList
  | [] => {}
  | e :: es =>
    let r := inferCall false e
    let rest := inferAll es
    { types := r.type :: rest.types, issues := r.issues ++ rest.issues }

end

/-- The type of an expression whose value is used. -/
def infer (e : Expr) : Typed := ctx.inferCall false e

def typeOf (e : Expr) : Ty := (ctx.infer e).type

end Context

end ClassCompiler
