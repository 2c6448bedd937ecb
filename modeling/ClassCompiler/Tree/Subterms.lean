import ClassCompiler.Tree.Basic

namespace ClassCompiler

namespace Expr

mutual

def subterms : Expr → List Expr
  | e@(.binary _ _ l r) => e :: l.subterms ++ r.subterms
  | e@(.unary _ _ x) => e :: x.subterms
  | e@(.member _ x _) => e :: x.subterms
  | e@(.index _ x i) => e :: x.subterms ++ i.subterms
  | e@(.call _ f as) => e :: f.subterms ++ subtermsOfAll as
  | e@(.new _ _ as) => e :: subtermsOfAll as
  | e@(.list _ es) => e :: subtermsOfAll es
  | e => [e]

def subtermsOfAll : List Expr → List Expr
  | [] => []
  | e :: es => e.subterms ++ subtermsOfAll es

end

end Expr

def Assign.subterms (a : Assign) : List Expr := a.left.subterms ++ a.right.subterms

namespace Stmt

mutual

/-- All expressions of a statement, the variable of a loop over a list included. -/
def subterms : Stmt → List Expr
  | .assign a => a.subterms
  | .block _ ss => subtermsOfAll ss
  | .cond _ c y n => c.subterms ++ y.subterms ++ subtermsOfElse n
  | .call t f as => (Expr.call t f as).subterms
  | .print _ x => x.subterms
  | .ret _ v => v.toList.flatMap Expr.subterms
  | .for _ i c u b =>
    i.toList.flatMap Assign.subterms ++ c.toList.flatMap Expr.subterms ++
      u.toList.flatMap Assign.subterms ++ b.subterms
  | .foreach _ v l b => .ident v :: l.subterms ++ b.subterms
  | .break _ => []
  | .continue _ => []

def subtermsOfAll : List Stmt → List Expr
  | [] => []
  | s :: ss => s.subterms ++ subtermsOfAll ss

def subtermsOfElse : Option Stmt → List Expr
  | none => []
  | some s => s.subterms

end

end Stmt

namespace MethodDecl

def subterms (m : MethodDecl) : List Expr := Stmt.subtermsOfAll m.body

end MethodDecl

/-- The constructor, if there is one, and the methods. -/
def ClassDecl.bodies (c : ClassDecl) : List MethodDecl := c.constructor.toList ++ c.methods

end ClassCompiler
