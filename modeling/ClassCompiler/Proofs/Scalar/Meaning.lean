import ClassCompiler.Proofs.Typing.Known
import ClassCompiler.Compile.Expr

namespace ClassCompiler

inductive Scalar where
  | int (v : Int32)
  | bool (b : Bool)
  | str (s : String)
  deriving Repr, DecidableEq, Inhabited

/-- Why a program stops before its end. -/
inductive Stop where
  | divisionByZero
  | stuck
  deriving Repr, DecidableEq, Inhabited

abbrev Env := String → Scalar

def Env.set (env : Env) (name : String) (v : Scalar) : Env := fun n => if n = name then v else env n

namespace Scalar

def wrap (n : Int) : Scalar := .int (Int32.ofInt n)

def text : Scalar → String
  | .int v => toString v.toInt
  | .bool b => if b then "true" else "false"
  | .str s => s

def ofTy : Ty → Scalar
  | .int => .int 0
  | .bool => .bool false
  | _ => .str ""

end Scalar

/-- The operations that evaluate both operands. Division is truncated. -/
def BinOp.apply : BinOp → Scalar → Scalar → Except Stop Scalar
  | .add, .int a, .int b => .ok (.wrap (a.toInt + b.toInt))
  | .sub, .int a, .int b => .ok (.wrap (a.toInt - b.toInt))
  | .mul, .int a, .int b => .ok (.wrap (a.toInt * b.toInt))
  | .div, .int a, .int b =>
    if b.toInt = 0 then .error .divisionByZero else .ok (.wrap (a.toInt.tdiv b.toInt))
  | .mod, .int a, .int b =>
    if b.toInt = 0 then .error .divisionByZero else .ok (.wrap (a.toInt.tmod b.toInt))
  | .lt, .int a, .int b => .ok (.bool (a.toInt < b.toInt))
  | .gt, .int a, .int b => .ok (.bool (b.toInt < a.toInt))
  | .eq, a, b => .ok (.bool (a = b))
  | .ne, a, b => .ok (.bool (a ≠ b))
  | _, _, _ => .error .stuck

def UnOp.apply : UnOp → Scalar → Except Stop Scalar
  | .not, .bool b => .ok (.bool !b)
  | .neg, .int a => .ok (.wrap (-a.toInt))
  | _, _ => .error .stuck

/-- Changes a variable by one; the result is its new or its old value. -/
def UnOp.change (op : UnOp) (name : String) (env : Env) : Except Stop (Scalar × Env) :=
  match env name with
  | .int a =>
    let changed := Scalar.wrap (a.toInt + op.delta)
    .ok (if op.isPre then changed else .int a, env.set name changed)
  | _ => .error .stuck

def Scalar.test {α : Type} (v : Scalar) (yes no : Except Stop α) : Except Stop α :=
  match v with
  | .bool true => yes
  | .bool false => no
  | _ => .error .stuck

/-- The value of an expression and the environment after it. Operands are evaluated from left to
right; an assignment has the value it stores. -/
def Expr.eval : Expr → Env → Except Stop (Scalar × Env)
  | .int _ v, env => .ok (.wrap v, env)
  | .bool _ b, env => .ok (.bool b, env)
  | .string _ s, env => .ok (.str s, env)
  | .ident v, env => .ok (env v.name, env)
  | .binary _ op l r, env =>
    match op with
    | .assign =>
      match l with
      | .ident v => do
        let x ← r.eval env
        return (x.1, x.2.set v.name x.1)
      | _ => .error .stuck
    | .and => do
      let x ← l.eval env
      x.1.test (r.eval x.2) (.ok (.bool false, x.2))
    | .or => do
      let x ← l.eval env
      x.1.test (.ok (.bool true, x.2)) (r.eval x.2)
    | op => do
      let x ← l.eval env
      let y ← r.eval x.2
      let z ← op.apply x.1 y.1
      return (z, y.2)
  | .unary _ op x, env =>
    if op.isIncDec then
      match x with
      | .ident v => op.change v.name env
      | _ => .error .stuck
    else do
      let y ← x.eval env
      let z ← op.apply y.1
      return (z, y.2)
  | _, _ => .error .stuck

/-- Where control goes after a statement. -/
inductive Exit where
  | next | break | continue | return
  deriving Repr, DecidableEq, Inhabited

/-- What became of a statement, with all that was printed so far. -/
inductive Result where
  | done (exit : Exit) (env : Env) (out : String)
  | stopped (stop : Stop) (out : String)
  | outOfFuel (out : String)

namespace Result

def andThen (r : Result) (k : Env → String → Result) : Result :=
  match r with
  | .done .next env out => k env out
  | r => r

def ofValue (e : Expr) (env : Env) (out : String) (k : Scalar → Env → Result) : Result :=
  match e.eval env with
  | .ok x => k x.1 x.2
  | .error s => .stopped s out

def ofTest (e : Expr) (env : Env) (out : String) (yes no : Env → Result) : Result :=
  ofValue e env out fun v env =>
    match v with
    | .bool true => yes env
    | .bool false => no env
    | _ => .stopped .stuck out

def ofOptionalTest (e : Option Expr) (env : Env) (out : String) (yes no : Env → Result) : Result :=
  match e with
  | none => yes env
  | some e => ofTest e env out yes no

def afterBody (r : Result) (again : Env → String → Result) : Result :=
  match r with
  | .done .break env out => .done .next env out
  | .done .return env out => .done .return env out
  | .done _ env out => again env out
  | r => r

end Result

def Assign.meaning (a : Assign) (env : Env) (out : String) : Result :=
  Result.ofValue (.binary a.token .assign a.left a.right) env out fun _ env => .done .next env out

def Assign.meaningOfOption : Option Assign → Env → String → Result
  | none, env, out => .done .next env out
  | some a, env, out => a.meaning env out

def loopMeaning (test : Option Expr) (update : Option Assign) (body : Nat → Env → String → Result) :
    (fuel : Nat) → Env → String → Result
  | 0, _, out => .outOfFuel out
  | fuel + 1, env, out =>
    Result.ofOptionalTest test env out
      (fun env => (body fuel env out).afterBody fun env out =>
        (Assign.meaningOfOption update env out).andThen (loopMeaning test update body fuel))
      fun env => .done .next env out

mutual

def Stmt.meaning : Stmt → (fuel : Nat) → Env → String → Result
  | .assign a, _, env, out => a.meaning env out
  | .block _ ss, fuel, env, out => Stmt.meaningOfAll ss fuel env out
  | .cond _ c y n, fuel, env, out =>
    Result.ofTest c env out (y.meaning fuel · out) (Stmt.meaningOfElse n fuel · out)
  | .print _ x, _, env, out => Result.ofValue x env out fun v env => .done .next env (out ++ v.text)
  | .ret _ none, _, env, out => .done .return env out
  | .for _ i c u b, fuel, env, out =>
    (Assign.meaningOfOption i env out).andThen (loopMeaning c u b.meaning fuel)
  | .break _, _, env, out => .done .break env out
  | .continue _, _, env, out => .done .continue env out
  | _, _, _, out => .stopped .stuck out

def Stmt.meaningOfAll : List Stmt → (fuel : Nat) → Env → String → Result
  | [], _, env, out => .done .next env out
  | s :: ss, fuel, env, out => (s.meaning fuel env out).andThen (Stmt.meaningOfAll ss fuel)

def Stmt.meaningOfElse : Option Stmt → (fuel : Nat) → Env → String → Result
  | none, _, env, out => .done .next env out
  | some s, fuel, env, out => s.meaning fuel env out

end

def MethodDecl.startEnv (m : MethodDecl) : Env := fun n =>
  match m.locals.find? (·.name.name = n) with
  | some v => .ofTy v.type
  | none => .str ""

def MethodDecl.meaning (m : MethodDecl) (fuel : Nat) : Result :=
  Stmt.meaningOfAll m.body fuel m.startEnv ""

def Ty.isScalar : Ty → Bool
  | .int => true
  | .bool => true
  | .string => true
  | _ => false

def Expr.isIdent : Expr → Bool
  | .ident _ => true
  | _ => false

/-- Literals and variables of scalar types, and the operations on them. -/
def Expr.isScalar : Expr → Bool
  | .int _ _ => true
  | .bool _ _ => true
  | .string _ _ => true
  | .ident _ => true
  | .binary _ .assign l r => l.isIdent && r.isScalar
  | .binary _ _ l r => l.isScalar && r.isScalar
  | .unary _ op x => if op.isIncDec then x.isIdent else x.isScalar
  | _ => false

def Assign.isScalar (a : Assign) : Bool := a.left.isIdent && a.right.isScalar

mutual

def Stmt.isScalar : Stmt → Bool
  | .assign a => a.isScalar
  | .block _ ss => Stmt.allScalar ss
  | .cond _ c y n => c.isScalar && y.isScalar && Stmt.elseScalar n
  | .print _ x => x.isScalar
  | .ret _ v => v.isNone
  | .for _ i c u b => i.all Assign.isScalar && c.all Expr.isScalar && u.all Assign.isScalar && b.isScalar
  | .break _ => true
  | .continue _ => true
  | _ => false

def Stmt.allScalar : List Stmt → Bool
  | [] => true
  | s :: ss => s.isScalar && Stmt.allScalar ss

def Stmt.elseScalar : Option Stmt → Bool
  | none => true
  | some s => s.isScalar

end

end ClassCompiler
