import ClassCompiler.Tree.Basic

namespace ClassCompiler

def BinOp.strength : BinOp → Nat
  | .assign => 1
  | .or => 2
  | .and => 3
  | .eq | .ne => 4
  | .lt | .gt => 5
  | .add | .sub => 6
  | .mul | .div | .mod => 7

def prefixStrength : Nat := 8

def postfixStrength : Nat := 9

def BinOp.isRightAssoc (op : BinOp) : Bool := op = .assign

def UnOp.sign : UnOp → List Char
  | .not => "not ".toList
  | .neg => "-".toList
  | .preInc | .postInc => "++".toList
  | .preDec | .postDec => "--".toList

def UnOp.isPost : UnOp → Bool
  | .postInc | .postDec => true
  | _ => false

def inParens (needed : Bool) (cs : List Char) : List Char :=
  if needed then '(' :: cs ++ [')'] else cs

/-- Whether an operation stands in parentheses as an operand of an operator of strength `outer`. -/
def BinOp.needsParens (op : BinOp) (outer : Nat) (onRight : Bool) : Bool :=
  -- Of two operators of one strength the one on the wrong side of the other is enclosed.
  if op.strength = outer then onRight != op.isRightAssoc else op.strength < outer

namespace Expr

mutual

/-- An expression as an operand, on the left or the right, of an operator of strength `outer`. -/
def charsIn (outer : Nat) (onRight : Bool) : Expr → List Char
  | .binary _ op l r =>
    inParens (op.needsParens outer onRight)
      (l.charsIn op.strength false ++ ' ' :: op.text.toList ++ ' ' :: r.charsIn op.strength true)
  | .unary _ op x =>
    if op.isPost then x.charsIn postfixStrength false ++ op.sign
    else inParens (prefixStrength < outer) (op.sign ++ x.charsIn prefixStrength false)
  | .member _ x m => x.charsIn postfixStrength false ++ '.' :: m.name.toList
  | .index _ x i => x.charsIn postfixStrength false ++ '[' :: i.charsIn 0 false ++ [']']
  | .call _ f as => f.charsIn postfixStrength false ++ '(' :: charsOfAll as ++ [')']
  | .new _ c as => "new ".toList ++ c.name.toList ++ '(' :: charsOfAll as ++ [')']
  | .list _ es => '[' :: charsOfAll es ++ [']']
  | .ident id => id.name.toList
  | .this _ => "this".toList
  | .null _ => "null".toList
  | .int _ v => (toString v).toList
  | .bool _ v => if v then "true".toList else "false".toList
  | .string _ v => (Text.quote v).toList

def charsOfAll : List Expr → List Char
  | [] => []
  | [e] => e.charsIn 0 false
  | e :: es => e.charsIn 0 false ++ ',' :: ' ' :: charsOfAll es

end

def text (e : Expr) : String := String.ofList (e.charsIn 0 false)

end Expr

def Assign.text (a : Assign) : String :=
  a.left.text ++ " = " ++ String.ofList (a.right.charsIn BinOp.assign.strength true)

def indented (depth : Nat) (s : String) : String :=
  String.ofList (List.replicate (4 * depth) ' ') ++ s

namespace Stmt

mutual

/-- The lines of a statement. As the body of another one, a block shows no braces of its own. -/
def linesIn (asBody : Bool) (depth : Nat) : Stmt → List String
  | .assign a => [indented depth (a.text ++ ";")]
  | .block _ ss =>
    if asBody then linesOfAll depth ss
    else indented depth "\x7b" :: linesOfAll (depth + 1) ss ++ [indented depth "\x7d"]
  | .cond _ c y n =>
    indented depth ("if (" ++ c.text ++ ") \x7b") :: y.linesIn true (depth + 1) ++ elseLines depth n
  | .call t f as => [indented depth ((Expr.call t f as).text ++ ";")]
  | .print _ x => [indented depth ("print(" ++ x.text ++ ");")]
  | .ret _ none => [indented depth "return;"]
  | .ret _ (some v) => [indented depth ("return " ++ v.text ++ ";")]
  | .for _ i c u b =>
    let header := "for (" ++ (i.map Assign.text).getD "" ++ "; " ++ (c.map Expr.text).getD "" ++ "; " ++
      (u.map Assign.text).getD "" ++ ") \x7b"
    indented depth header :: b.linesIn true (depth + 1) ++ [indented depth "\x7d"]
  | .foreach _ v l b =>
    indented depth ("foreach (" ++ v.name ++ " in " ++ l.text ++ ") \x7b") ::
      b.linesIn true (depth + 1) ++ [indented depth "\x7d"]
  | .break _ => [indented depth "break;"]
  | .continue _ => [indented depth "continue;"]

def linesOfAll (depth : Nat) : List Stmt → List String
  | [] => []
  | s :: ss => s.linesIn false depth ++ linesOfAll depth ss

def elseLines (depth : Nat) : Option Stmt → List String
  | none => [indented depth "\x7d"]
  | some s => indented depth "\x7d else \x7b" :: s.linesIn true (depth + 1) ++ [indented depth "\x7d"]

end

end Stmt

def VarDecl.text (v : VarDecl) : String := v.name.name ++ ": " ++ v.type.text

def VarDecl.lines (depth : Nat) (v : VarDecl) : List String := [indented depth (v.text ++ ";")]

namespace MethodDecl

def signature (m : MethodDecl) : String :=
  m.name.name ++ "(" ++ ", ".intercalate (m.args.map VarDecl.text) ++ ")"

def bodyLines (depth : Nat) (m : MethodDecl) : List String :=
  m.locals.flatMap (VarDecl.lines depth) ++
    (if m.locals.isEmpty || m.body.isEmpty then [] else [""]) ++ Stmt.linesOfAll depth m.body

def lines (depth : Nat) (m : MethodDecl) : List String :=
  indented depth ("def " ++ m.result.text ++ " " ++ m.signature ++ " \x7b") ::
    m.bodyLines (depth + 1) ++ [indented depth "\x7d"]

def constructorLines (depth : Nat) (m : MethodDecl) : List String :=
  indented depth ("def " ++ m.signature ++ " \x7b") :: m.bodyLines (depth + 1) ++ [indented depth "\x7d"]

end MethodDecl

/-- Groups of lines with an empty line between them. -/
def spaced : List (List String) → List String
  | [] => []
  | [g] => g
  | g :: gs => g ++ "" :: spaced gs

def ClassDecl.lines (c : ClassDecl) : List String :=
  let header := "class " ++ c.name.name ++ (match c.parent with
    | some p => " extends " ++ p.name
    | none => "")
  let fields := if c.fields.isEmpty then [] else [c.fields.flatMap (VarDecl.lines 1)]
  (header ++ " \x7b") ::
    spaced (fields ++ (c.constructor.map (MethodDecl.constructorLines 1)).toList ++
      c.methods.map (MethodDecl.lines 1)) ++ ["\x7d"]

def Program.text (p : Program) : String :=
  String.join ((spaced (p.classes.map ClassDecl.lines)).map (· ++ "\n"))

end ClassCompiler
