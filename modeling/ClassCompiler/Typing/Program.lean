import ClassCompiler.Typing.Declared
import ClassCompiler.Diagnostic.Sink

namespace ClassCompiler

namespace Context

variable (ctx : Context)

def conditionIssues (e : Expr) : List Diagnostic :=
  let r := ctx.infer e
  r.issues ++ (if r.type.isBool || r.type.isNoType then [] else [report e.pos .S001 [r.type.text]])

def assignIssues (a : Assign) : List Diagnostic :=
  (ctx.infer (.binary a.token .assign a.left a.right)).issues

def optionIssues {α : Type} (f : α → List Diagnostic) : Option α → List Diagnostic
  | none => []
  | some a => f a

/-- What is wrong with the head of a loop over a list. -/
def foreachIssues (var : Ident) (list : Expr) : List Diagnostic :=
  let v := ctx.identifier var
  let l := ctx.infer list
  v.issues ++ l.issues ++ match l.type with
    | .noType => []
    | .list elems =>
      let first := Ty.firstKnown elems
      (if ctx.table.sameElements elems first then [] else [report list.pos .S006]) ++
        (if first.isNoType || v.type.isNoType || ctx.table.equivalent v.type first then []
          else [report var.token.pos .S007 [v.type.text, first.text]])
    | t => [report list.pos .S005 [t.text]]

def returnIssues (pos : Pos) (value : Option Expr) : List Diagnostic :=
  let r := match value with
    | none => Typed.value .void
    | some e => ctx.infer e
  r.issues ++ (if ctx.table.isSubtype r.type ctx.method.result then []
    else [report pos .S003 [r.type.text, ctx.method.result.text]])

mutual

/-- What is wrong with a statement, inside a loop or not. -/
def stmtIssues (inLoop : Bool) : Stmt → List Diagnostic
  | .assign a => ctx.assignIssues a
  | .block _ ss => stmtsIssues inLoop ss
  | .cond _ c y n => ctx.conditionIssues c ++ stmtIssues inLoop y ++ elseIssues inLoop n
  | .call t f as => (ctx.inferCall true (.call t f as)).issues
  | .print t x =>
    let r := ctx.infer x
    r.issues ++ (if r.type.isPrintable then [] else [report t.pos .S002 [r.type.text]])
  | .ret t v => ctx.returnIssues t.pos v
  | .for _ i c u b =>
    -- The parts of the head come in the order they are written in, the body last.
    optionIssues ctx.assignIssues i ++ optionIssues ctx.conditionIssues c ++
      optionIssues ctx.assignIssues u ++ stmtIssues true b
  | .foreach _ v l b => ctx.foreachIssues v l ++ stmtIssues true b
  | .break t => if inLoop then [] else [report t.pos .S004 ["break"]]
  | .continue t => if inLoop then [] else [report t.pos .S004 ["continue"]]

def stmtsIssues (inLoop : Bool) : List Stmt → List Diagnostic
  | [] => []
  | s :: ss => stmtIssues inLoop s ++ stmtsIssues inLoop ss

def elseIssues (inLoop : Bool) : Option Stmt → List Diagnostic
  | none => []
  | some s => stmtIssues inLoop s

end

/-- What is wrong with the body of the method of the context. -/
def bodyIssues : List Diagnostic := ctx.stmtsIssues false ctx.method.body

end Context

/-- A constructor, where `table` gives the program with the constructor in its place. -/
def MethodDecl.checkConstructor (className : String) (table : MethodDecl → Program) (m : MethodDecl) :
    Checked MethodDecl :=
  let named := if m.name.name = className then [] else [report m.token.pos .D007 [m.name.name, className]]
  let vars := m.checkVars (table m).hasClass
  let ctx : Context := { table := table vars.decl, className, method := vars.decl }
  { decl := vars.decl, issues := named ++ vars.issues ++ ctx.bodyIssues }

/-- A method, where `table` gives the program with the method in its place. -/
def MethodDecl.checkMethod (className : String) (table : MethodDecl → Program) (m : MethodDecl) :
    Checked MethodDecl :=
  let result := m.checkResult (table m).hasClass
  let vars := result.decl.checkVars (table m).hasClass
  let ctx : Context := { table := table vars.decl, className, method := vars.decl }
  -- A return inside a branch or a loop does not count.
  let ending := if vars.decl.result.isVoid || vars.decl.hasReturn then []
    else [report m.token.pos .D010 [m.name.name]]
  { decl := vars.decl, issues := result.issues ++ vars.issues ++ ctx.bodyIssues ++ ending }

/-- Methods in order, `done` being those already checked. -/
def checkMethods (className : String) (table : List MethodDecl → Program) (done : List MethodDecl) :
    List MethodDecl → Checked (List MethodDecl)
  | [] => { decl := done }
  | m :: ms =>
    let r := m.checkMethod className fun m' => table (done ++ m' :: ms)
    let rest := checkMethods className table (done ++ [r.decl]) ms
    { rest with issues := r.issues ++ rest.issues }

/-- The members of a class, where `table` gives the program with the class in its place. -/
def ClassDecl.checkMembers (table : ClassDecl → Program) (c : ClassDecl) : Checked ClassDecl :=
  let fields := VarDecl.checkAll (table c).hasClass c.fields
  let c := { c with fields := fields.decl }
  let ctor : Checked (Option MethodDecl) := match c.constructor with
    | none => { decl := none }
    | some m =>
      let r := m.checkConstructor c.name.name fun m' => table { c with constructor := some m' }
      { decl := some r.decl, issues := r.issues }
  let c := { c with constructor := ctor.decl }
  let methods := checkMethods c.name.name (fun ms => table { c with methods := ms }) [] c.methods
  { decl := { c with methods := methods.decl }, issues := fields.issues ++ ctor.issues ++ methods.issues }

/-- An unknown parent is reported where it is named. -/
def ClassDecl.parentIssues (hasClass : String → Bool) (c : ClassDecl) : List Diagnostic :=
  match c.parent with
  | some p => if hasClass p.name then [] else [report p.token.pos .D001 [p.name]]
  | none => []

/-- The entry class has a constructor without parameters and no parent, and no class extends it. -/
def ClassDecl.headIssues (entry : String) (hasClass : String → Bool) (c : ClassDecl) : List Diagnostic :=
  let pos := c.token.pos
  let name := c.name.name
  if name = entry then
    (match c.constructor with
      | none => [report pos .D003 [name]]
      | some m => if m.args.isEmpty then [] else [report m.token.pos .D004 [name]]) ++
    -- The parent of the entry class is looked up all the same.
    (if c.parentName = "" then [] else report pos .D005 [name] :: c.parentIssues hasClass)
  else if c.parentName = "" then []
  else if c.parentName = entry then [report pos .D006 [name, entry]]
  else c.parentIssues hasClass

/-- Classes in order, `done` being those already checked. -/
def checkClasses (file entry : String) (done : List ClassDecl) : List ClassDecl → Checked (List ClassDecl)
  | [] => { decl := done }
  | c :: cs =>
    -- The classes before this one stand in the table as they were checked, those behind as they were read.
    let table (c' : ClassDecl) : Program := { file, classes := done ++ c' :: cs }
    let head := c.headIssues entry (table c).hasClass
    let r := c.checkMembers table
    let rest := checkClasses file entry (done ++ [r.decl]) cs
    { rest with issues := head ++ r.issues ++ rest.issues }

/-- Checks a program whose entry class is `entry`. -/
def Program.check (entry : String) (p : Program) : Checked Program :=
  let r := checkClasses p.file entry [] p.classes
  let missing := if p.classes.any (·.name.name = entry) then [] else [report p.token.pos .D002 [entry]]
  { decl := { p with classes := r.decl }, issues := r.issues ++ missing }

end ClassCompiler
