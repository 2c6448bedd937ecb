import ClassCompiler.Text.Quoted
import ClassCompiler.Ty.Basic

namespace ClassCompiler

inductive BinOp where
  | assign | add | sub | mul | div | mod | lt | gt | eq | ne | and | or
  deriving Repr, DecidableEq, Inhabited

inductive UnOp where
  | not | neg | preInc | preDec | postInc | postDec
  deriving Repr, DecidableEq, Inhabited

def BinOp.text : BinOp → String
  | .assign => "="
  | .add => "+"
  | .sub => "-"
  | .mul => "*"
  | .div => "/"
  | .mod => "%"
  | .lt => "<"
  | .gt => ">"
  | .eq => "=="
  | .ne => "!="
  | .and => "and"
  | .or => "or"

def UnOp.text : UnOp → String
  | .not => "not"
  | .neg => "neg"
  | .preInc => "++x"
  | .preDec => "--x"
  | .postInc => "x++"
  | .postDec => "x--"

namespace BinOp

def isLogical : BinOp → Bool
  | .and | .or => true
  | _ => false

end BinOp

namespace UnOp

def isIncDec : UnOp → Bool
  | .preInc | .preDec | .postInc | .postDec => true
  | _ => false

def isPre : UnOp → Bool
  | .preInc | .preDec => true
  | _ => false

end UnOp

/-- A line and a column, both from one; zero where there is no source. -/
structure Pos where
  line : Int := 0
  column : Int := 0
  deriving Repr, DecidableEq, Inhabited

def Pos.before (p q : Pos) : Bool :=
  if p.line = q.line then p.column < q.column else p.line < q.line

def Pos.text (p : Pos) : String := toString p.line ++ ":" ++ toString p.column

inductive TokenKind where
  | missing
  | classDecl | field | var | method | constructor
  | identifier | intLit | stringLit | trueLit | falseLit | null | this | new
  | binary (op : BinOp)
  | unary (op : UnOp)
  | dot | paren | bracket
  | print | return | if | for | foreach | break | continue | block
  deriving Repr, DecidableEq, Inhabited

def TokenKind.text : TokenKind → String
  | .missing => ""
  | .classDecl => "class"
  | .field => "field"
  | .var => "var"
  | .method => "method"
  | .constructor => "constructor"
  | .identifier => "IDENT"
  | .intLit => "INT"
  | .stringLit => "STRING"
  | .trueLit => "true"
  | .falseLit => "false"
  | .null => "null"
  | .this => "this"
  | .new => "new"
  | .binary op => op.text
  | .unary op => op.text
  | .dot => "."
  | .paren => "("
  | .bracket => "["
  | .print => "print"
  | .return => "return"
  | .if => "if"
  | .for => "for"
  | .foreach => "foreach"
  | .break => "break"
  | .continue => "continue"
  | .block => "block"

structure Token where
  kind : TokenKind := .missing
  lexeme : String := ""
  pos : Pos := {}
  deriving Repr, DecidableEq, Inhabited

def Token.text (t : Token) : String :=
  t.pos.text ++ " " ++ t.kind.text ++ " " ++ Text.quote t.lexeme

structure Ident where
  token : Token
  name : String
  deriving Repr, DecidableEq, Inhabited

inductive Expr where
  | ident (id : Ident)
  | binary (token : Token) (op : BinOp) (left right : Expr)
  | unary (token : Token) (op : UnOp) (operand : Expr)
  | member (token : Token) (receiver : Expr) (name : Ident)
  | index (token : Token) (receiver index : Expr)
  | call (token : Token) (callee : Expr) (args : List Expr)
  | new (token : Token) (className : Ident) (args : List Expr)
  | this (token : Token)
  | list (token : Token) (elems : List Expr)
  | null (token : Token)
  | int (token : Token) (value : Int)
  | bool (token : Token) (value : Bool)
  | string (token : Token) (value : String)
  deriving Repr, Inhabited

namespace Expr

def token : Expr → Token
  | .ident id => id.token
  | .binary t _ _ _ => t
  | .unary t _ _ => t
  | .member t _ _ => t
  | .index t _ _ => t
  | .call t _ _ => t
  | .new t _ _ => t
  | .this t => t
  | .list t _ => t
  | .null t => t
  | .int t _ => t
  | .bool t _ => t
  | .string t _ => t

def pos (e : Expr) : Pos := e.token.pos

def line (e : Expr) : Int := e.pos.line

def formName : Expr → String
  | .ident _ => "Identifier"
  | .binary _ _ _ _ => "BinaryExpression"
  | .unary _ _ _ => "UnaryExpression"
  | .member _ _ _ => "MemberAccess"
  | .index _ _ _ => "IndexAccess"
  | .call _ _ _ => "MethodCall"
  | .new _ _ _ => "NewClassInstance"
  | .this _ => "ThisExpression"
  | .list _ _ => "ListLiteral"
  | .null _ => "NullLiteral"
  | .int _ _ => "IntegerLiteral"
  | .bool _ _ => "BooleanLiteral"
  | .string _ _ => "StringLiteral"

/-- The expressions directly inside an expression. -/
def children : Expr → List Expr
  | .binary _ _ l r => [l, r]
  | .unary _ _ x => [x]
  | .member _ x _ => [x]
  | .index _ x i => [x, i]
  | .call _ f as => f :: as
  | .new _ _ as => as
  | .list _ es => es
  | _ => []

end Expr

/-- An assignment in statement position. -/
structure Assign where
  token : Token
  left : Expr
  right : Expr
  deriving Repr, Inhabited

inductive Stmt where
  | assign (a : Assign)
  | block (token : Token) (body : List Stmt)
  | cond (token : Token) (test : Expr) (yes : Stmt) (no : Option Stmt)
  | call (token : Token) (callee : Expr) (args : List Expr)
  | print (token : Token) (arg : Expr)
  | ret (token : Token) (value : Option Expr)
  | for (token : Token) (init : Option Assign) (test : Option Expr) (update : Option Assign) (body : Stmt)
  | foreach (token : Token) (var : Ident) (list : Expr) (body : Stmt)
  | break (token : Token)
  | continue (token : Token)
  deriving Repr, Inhabited

def Stmt.token : Stmt → Token
  | .assign a => a.token
  | .block t _ => t
  | .cond t _ _ _ => t
  | .call t _ _ => t
  | .print t _ => t
  | .ret t _ => t
  | .for t _ _ _ _ => t
  | .foreach t _ _ _ => t
  | .break t => t
  | .continue t => t

def Stmt.isReturn : Stmt → Bool
  | .ret _ _ => true
  | _ => false

/-- A name with its declared type. -/
structure VarDecl where
  token : Token
  name : Ident
  type : Ty
  deriving Repr, Inhabited

/-- A method or a constructor; a constructor has no return type. -/
structure MethodDecl where
  token : Token
  name : Ident
  args : List VarDecl := []
  locals : List VarDecl := []
  returnType : Option Ty := none
  body : List Stmt := []
  deriving Repr, Inhabited

namespace MethodDecl

def result (m : MethodDecl) : Ty := Ty.resultOfOption m.returnType

def functionType (m : MethodDecl) : Ty := .fptr (m.args.map VarDecl.type) m.result

/-- Whether a return statement stands directly in the body. -/
def hasReturn (m : MethodDecl) : Bool := m.body.any Stmt.isReturn

def endsWithReturn (m : MethodDecl) : Bool := m.body.getLast?.any Stmt.isReturn

end MethodDecl

structure ClassDecl where
  token : Token
  name : Ident
  parent : Option Ident := none
  fields : List VarDecl := []
  constructor : Option MethodDecl := none
  methods : List MethodDecl := []
  deriving Repr, Inhabited

/-- The declared parent's name, empty for a root class. -/
def ClassDecl.parentName (c : ClassDecl) : String := (c.parent.map Ident.name).getD ""

structure Program where
  file : String
  classes : List ClassDecl := []
  deriving Repr, Inhabited

def Program.token (p : Program) : Token := (p.classes.head?.map ClassDecl.token).getD {}

end ClassCompiler
