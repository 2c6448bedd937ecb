import ClassCompiler.Proofs.Typing.Recheck

namespace ClassCompiler

namespace Stmt

mutual

/-- A statement and the statements inside it that no loop inside it encloses. -/
def outsideLoops : Stmt → List Stmt
  | .block t ss => .block t ss :: outsideLoopsOfAll ss
  | .cond t c y n => .cond t c y n :: (y.outsideLoops ++ outsideLoopsOfElse n)
  | s => [s]

def outsideLoopsOfAll : List Stmt → List Stmt
  | [] => []
  | s :: ss => s.outsideLoops ++ outsideLoopsOfAll ss

def outsideLoopsOfElse : Option Stmt → List Stmt
  | none => []
  | some s => s.outsideLoops

end

def jump? : Stmt → Option (Pos × String)
  | .break t => some (t.pos, "break")
  | .continue t => some (t.pos, "continue")
  | _ => none

end Stmt

namespace MethodDecl

def names (m : MethodDecl) : List String := (m.args ++ m.locals).map (·.name.name)

/-- The name that an expression is, if it is none of the method's. -/
def undeclared? (m : MethodDecl) : Expr → Option Ident
  | .ident id => if id.name ∈ m.names then none else some id
  | _ => none

/-- The uses of names in a body that are names of neither a parameter nor a local. -/
def undeclared (m : MethodDecl) : List Ident := m.subterms.filterMap m.undeclared?

def strayJumps (m : MethodDecl) : List (Pos × String) := (Stmt.outsideLoopsOfAll m.body).filterMap Stmt.jump?

theorem symbol?_eq_none_iff (m : MethodDecl) (name : String) : m.symbol? name = none ↔ name ∉ m.names := by
  have hzip (vs : List VarDecl) (n : Nat) : (vs.zipIdx n).map (·.1.name.name) = vs.map (·.name.name) := by
    rw [← List.zipIdx_map_fst n vs, List.map_map, List.zipIdx_map_fst]
    rfl
  have hnames : m.symbols.map Symbol.name = m.names := by
    rw [symbols, names, List.map_append, List.map_append, ← hzip m.args 1, ← hzip m.locals (1 + m.args.length),
      List.map_map, List.map_map]
    rfl
  rw [← hnames]
  simp [symbol?, List.find?_eq_none]

end MethodDecl

def Ident.unknown (id : Ident) : Diagnostic := report id.token.pos .E001 [id.name]

def strayReport (jump : Pos × String) : Diagnostic := report jump.1 .S004 [jump.2]

def Apart (ds : List Diagnostic) : Prop := ∀ d ∈ ds, d.code ≠ .E001 ∧ d.code ≠ .S004

theorem Apart.nil : Apart [] := by simp [Apart]

theorem Apart.append {ds ds' : List Diagnostic} (h : Apart ds) (h' : Apart ds') : Apart (ds ++ ds') :=
  List.forall_mem_append.2 ⟨h, h'⟩

/-- Of the reports `ds`, those of undeclared names belong one for one to such uses among `es`, and those of stray jumps, in
order, to the jumps among `ss`. -/
structure Told (m : MethodDecl) (ds : List Diagnostic) (es : List Expr) (ss : List Stmt) : Prop where
  undeclared : (ds.filter (·.code = .E001)).Perm ((es.filterMap m.undeclared?).map Ident.unknown)
  stray : ds.filter (·.code = .S004) = (ss.filterMap Stmt.jump?).map strayReport

namespace Told

variable {m : MethodDecl} {ds ds' : List Diagnostic} {es es' : List Expr} {ss ss' : List Stmt}

theorem nil : Told m [] [] [] := ⟨.nil, rfl⟩

theorem append (h : Told m ds es ss) (h' : Told m ds' es' ss') : Told m (ds ++ ds') (es ++ es') (ss ++ ss') := by
  refine ⟨?_, ?_⟩
  · rw [List.filter_append, List.filterMap_append, List.map_append]
    exact h.undeclared.append h'.undeclared
  · rw [List.filter_append, List.filterMap_append, List.map_append, h.stray, h'.stray]

theorem apart (h : Apart ds) : Told m ds [] [] := by
  have he : ds.filter (·.code = .E001) = [] := List.filter_eq_nil_iff.2 fun d hd => by simp [(h d hd).1]
  have hs : ds.filter (·.code = .S004) = [] := List.filter_eq_nil_iff.2 fun d hd => by simp [(h d hd).2]
  exact ⟨he ▸ .nil, hs⟩

theorem andApart (h : Told m ds es ss) (h' : Apart ds') : Told m (ds ++ ds') es ss := by
  have happ := h.append (apart h')
  rwa [List.append_nil, List.append_nil] at happ

theorem perm (h : Told m ds es ss) (hp : es.Perm es') : Told m ds es' ss :=
  ⟨h.undeclared.trans ((hp.filterMap _).map _), h.stray⟩

/-- An expression that is no name, and statements that are no jumps, are told nothing of. -/
theorem form {e : Expr} (h : Told m ds es ss) (he : ∀ id, e ≠ .ident id) : Told m ds (e :: es) ss := by
  have hnone : m.undeclared? e = none := by
    cases e with
    | ident id => exact absurd rfl (he id)
    | _ => rfl
  refine ⟨?_, h.stray⟩
  rw [List.filterMap_cons_none hnone]
  exact h.undeclared

theorem stmt {s : Stmt} (h : Told m ds es ss) (hs : s.jump? = none) : Told m ds es (s :: ss) :=
  ⟨h.undeclared, by rw [List.filterMap_cons_none hs]; exact h.stray⟩

/-- The statements that stand in no loop, given whether there is a loop around them all. -/
def outside (inLoop : Bool) (ss : List Stmt) : List Stmt := if inLoop then [] else ss

theorem outside_nil {inLoop : Bool} : outside inLoop [] = [] := ite_self _

theorem outside_append {inLoop : Bool} : outside inLoop (ss ++ ss') = outside inLoop ss ++ outside inLoop ss' := by
  cases inLoop <;> rfl

theorem node {inLoop : Bool} {s : Stmt} (h : Told m ds es (outside inLoop ss)) (hs : s.jump? = none) :
    Told m ds es (outside inLoop (s :: ss)) := by
  cases inLoop with
  | true => exact h
  | false => exact h.stmt hs

theorem leaf {inLoop : Bool} {s : Stmt} (h : Told m ds es []) (hs : s.jump? = none) : Told m ds es (outside inLoop [s]) := by
  have hout : Told m ds es (outside inLoop []) := by
    rw [outside_nil]
    exact h
  exact hout.node hs

end Told

open Told (outside outside_nil outside_append)

namespace Context

variable {ctx : Context}

theorem told_identifier (id : Ident) : Told ctx.method (ctx.identifier id).issues [.ident id] [] := by
  unfold identifier
  cases h : ctx.method.symbol? id.name with
  | some s =>
    have hin : id.name ∈ ctx.method.names := by
      rw [← not_not (a := id.name ∈ _), ← MethodDecl.symbol?_eq_none_iff, h]
      simp
    exact ⟨by simp [MethodDecl.undeclared?, hin, Typed.place], rfl⟩
  | none =>
    have hout := (ctx.method.symbol?_eq_none_iff id.name).1 h
    exact ⟨by simp [MethodDecl.undeclared?, hout, Typed.place, Ident.unknown, report], by simp [Typed.place, report]⟩

/-- The rules for the other forms report other things. -/
theorem apart_memberAccess {pos : Pos} {t : Ty} {n : String} : Apart (ctx.memberAccess pos t n).issues := by
  unfold memberAccess
  (repeat' split) <;> simp [Apart, Typed.place, Typed.value, report]

theorem apart_indexIssues {index : Expr} {t : Ty} : Apart (indexIssues index t) := by
  unfold indexIssues
  split <;> simp [Apart, report]

theorem apart_elementAccess {index : Expr} {t : Ty} {es : List (String × Ty)} :
    Apart (ctx.elementAccess index t es).issues := by
  unfold elementAccess
  dsimp only
  (repeat' split) <;> simp [Apart, Typed.place, report]

theorem apart_indexAccess {pos : Pos} {index : Expr} {t u : Ty} : Apart (ctx.indexAccess pos index t u).issues := by
  unfold indexAccess
  split
  · exact apart_elementAccess
  · simp [Apart, Typed.place]
  · simp [Apart, Typed.place, report]

theorem apart_operation {pos : Pos} {op : BinOp} {t u : Ty} : Apart (ctx.operation pos op t u).issues := by
  unfold operation operands equality
  (repeat' split) <;> simp [Apart, Typed.value, report]

theorem apart_assignment {pos : Pos} {l : Typed} {t : Ty} : Apart (ctx.assignment pos l t).issues := by
  unfold assignment
  (repeat' split) <;> simp [Apart, Typed.value, report]

theorem apart_placeIssues {pos : Pos} {l : Typed} : Apart (placeIssues pos l) := by
  unfold placeIssues
  split <;> simp [Apart, report]

theorem apart_increment {pos : Pos} {op : UnOp} {x : Typed} : Apart (increment pos op x).issues := by
  unfold increment
  dsimp only
  (repeat' split) <;> simp [Apart, Typed.value, report]

theorem apart_negation {pos : Pos} {op : UnOp} {t : Ty} : Apart (negation pos op t).issues := by
  unfold negation
  dsimp only
  (repeat' split) <;> simp [Apart, Typed.value, report]

theorem apart_calleeIssues {pos : Pos} {dropped : Bool} {t : Ty} : Apart (calleeIssues pos dropped t) := by
  unfold calleeIssues
  (repeat' split) <;> simp [Apart, report]

theorem apart_callResult {pos : Pos} {dropped : Bool} {t : Ty} {ts : List Ty} :
    Apart (ctx.callResult pos dropped t ts).issues := by
  unfold callResult
  (repeat' split) <;> simp [Apart, Typed.value, report]

theorem apart_classIssues {pos : Pos} {n : String} : Apart (ctx.classIssues pos n) := by
  unfold classIssues
  split <;> simp [Apart, report]

theorem apart_creation {pos : Pos} {n : String} {ts : List Ty} : Apart (ctx.creation pos n ts).issues := by
  unfold creation
  dsimp only
  (repeat' split) <;> simp [Apart, Typed.value, report]

mutual

/-- Every part of an expression is looked at once. -/
theorem told_inferCall (dropped : Bool) (e : Expr) : Told ctx.method (ctx.inferCall dropped e).issues e.subterms [] := by
  match e with
  | .ident id => exact told_identifier id
  | .this _ | .null _ | .int _ _ | .bool _ _ | .string _ _ => exact Told.nil.form (by simp)
  | .member t x n => exact ((told_inferCall false x).andApart apart_memberAccess).form (by simp)
  | .index t x i =>
    -- the index is looked at before the list
    have hissues : Apart (indexIssues i (ctx.inferCall false i).type) := apart_indexIssues
    have hi := (told_inferCall false i).andApart hissues
    exact (((hi.append (told_inferCall false x)).andApart apart_indexAccess).perm List.perm_append_comm).form (by simp)
  | .unary t op x =>
    rw [inferCall, Expr.subterms]
    split
    · exact ((told_inferCall false x).andApart apart_increment).form (by simp)
    · exact ((told_inferCall false x).andApart apart_negation).form (by simp)
  | .binary t op l r =>
    have hl := told_inferCall false l
    have hr := told_inferCall false r
    cases op with
    | assign => exact (((hl.andApart apart_placeIssues).append hr).andApart apart_assignment).form (by simp)
    | _ => exact ((hl.append hr).andApart apart_operation).form (by simp)
  | .call t f as =>
    exact ((((told_inferCall false f).andApart apart_calleeIssues).append (told_inferAll as)).andApart apart_callResult).form
      (by simp)
  | .new t c as =>
    exact (((Told.apart apart_classIssues).append (told_inferAll as)).andApart apart_creation).form (by simp)
  | .list t es => exact (told_inferAll es).form (by simp)

theorem told_inferAll (es : List Expr) : Told ctx.method (ctx.inferAll es).issues (Expr.subtermsOfAll es) [] := by
  match es with
  | [] => exact .nil
  | e :: es => exact (told_inferCall false e).append (told_inferAll es)

end

theorem told_infer (e : Expr) : Told ctx.method (ctx.infer e).issues e.subterms [] := told_inferCall false e

theorem told_conditionIssues (ctx : Context) (e : Expr) : Told ctx.method (ctx.conditionIssues e) e.subterms [] := by
  refine (told_infer e).andApart ?_
  split <;> simp [Apart, report]

theorem told_assignIssues (ctx : Context) (a : Assign) : Told ctx.method (ctx.assignIssues a) a.subterms [] :=
  (((told_infer a.left).andApart apart_placeIssues).append (told_infer a.right)).andApart apart_assignment

theorem told_optionIssues {α : Type} {f : α → List Diagnostic} {terms : α → List Expr}
    (h : ∀ a, Told ctx.method (f a) (terms a) []) (o : Option α) :
    Told ctx.method (optionIssues f o) (o.toList.flatMap terms) [] := by
  cases o with
  | none => exact .nil
  | some a => simpa [optionIssues] using h a

theorem told_foreachIssues (v : Ident) (l : Expr) :
    Told ctx.method (ctx.foreachIssues v l) (.ident v :: l.subterms) [] := by
  refine ((told_identifier v).append (told_infer l)).andApart ?_
  split
  · exact .nil
  · dsimp only
    refine .append ?_ ?_
    · split <;> simp [Apart, report]
    · split <;> simp [Apart, report]
  · simp [Apart, report]

theorem told_returnIssues (pos : Pos) (v : Option Expr) :
    Told ctx.method (ctx.returnIssues pos v) (v.toList.flatMap Expr.subterms) [] := by
  refine Told.andApart ?_ ?_
  · cases v with
    | none => exact .nil
    | some e => simpa using told_infer e
  · split <;> simp [Apart, report]

mutual

/-- Every part of a statement is looked at once; of its jumps those count that stand in no loop. -/
theorem told_stmtIssues (inLoop : Bool) (s : Stmt) :
    Told ctx.method (ctx.stmtIssues inLoop s) s.subterms (outside inLoop s.outsideLoops) := by
  match s with
  | .assign a => exact (ctx.told_assignIssues a).leaf rfl
  | .block t ss => exact (told_stmtsIssues inLoop ss).node rfl
  | .cond t c y n =>
    have hc := (ctx.told_conditionIssues c).append (told_stmtIssues inLoop y)
    exact (outside_append ▸ hc.append (told_elseIssues inLoop n)).node rfl
  | .call t f as => exact (told_inferCall true (.call t f as)).leaf rfl
  | .print t x =>
    refine Told.leaf ((told_infer x).andApart ?_) rfl
    split <;> simp [Apart, report]
  | .ret t v => exact (told_returnIssues t.pos v).leaf rfl
  | .for t i c u b =>
    have hi := told_optionIssues ctx.told_assignIssues i
    have hc := told_optionIssues ctx.told_conditionIssues c
    have hu := told_optionIssues ctx.told_assignIssues u
    exact (((hi.append hc).append hu).append (told_stmtIssues true b)).leaf rfl
  | .foreach t v l b => exact ((told_foreachIssues v l).append (told_stmtIssues true b)).leaf rfl
  | .break t =>
    cases inLoop with
    | true => exact .nil
    | false => exact ⟨.nil, rfl⟩
  | .continue t =>
    cases inLoop with
    | true => exact .nil
    | false => exact ⟨.nil, rfl⟩

theorem told_stmtsIssues (inLoop : Bool) (ss : List Stmt) :
    Told ctx.method (ctx.stmtsIssues inLoop ss) (Stmt.subtermsOfAll ss) (outside inLoop (Stmt.outsideLoopsOfAll ss)) := by
  match ss with
  | [] =>
    rw [Stmt.outsideLoopsOfAll, outside_nil]
    exact .nil
  | s :: ss => exact outside_append ▸ (told_stmtIssues inLoop s).append (told_stmtsIssues inLoop ss)

theorem told_elseIssues (inLoop : Bool) (o : Option Stmt) :
    Told ctx.method (ctx.elseIssues inLoop o) (Stmt.subtermsOfElse o) (outside inLoop (Stmt.outsideLoopsOfElse o)) := by
  match o with
  | none =>
    rw [Stmt.outsideLoopsOfElse, outside_nil]
    exact .nil
  | some s => exact told_stmtIssues inLoop s

end

theorem told_bodyIssues (ctx : Context) : Told ctx.method ctx.bodyIssues ctx.method.subterms (Stmt.outsideLoopsOfAll ctx.method.body) :=
  ctx.told_stmtsIssues false ctx.method.body

end Context

/-- What is told of bodies in a row. -/
structure ToldAll (ds : List Diagnostic) (ms : List MethodDecl) : Prop where
  undeclared : (ds.filter (·.code = .E001)).Perm ((ms.flatMap MethodDecl.undeclared).map Ident.unknown)
  stray : ds.filter (·.code = .S004) = (ms.flatMap MethodDecl.strayJumps).map strayReport

namespace ToldAll

variable {ds ds' : List Diagnostic} {ms ms' : List MethodDecl}

theorem append (h : ToldAll ds ms) (h' : ToldAll ds' ms') : ToldAll (ds ++ ds') (ms ++ ms') := by
  refine ⟨?_, ?_⟩
  · rw [List.filter_append, List.flatMap_append, List.map_append]
    exact h.undeclared.append h'.undeclared
  · rw [List.filter_append, List.flatMap_append, List.map_append, h.stray, h'.stray]

theorem apart (h : Apart ds) : ToldAll ds [] := by
  have htold : Told default ds [] [] := .apart h
  exact ⟨htold.undeclared, htold.stray⟩

theorem nil : ToldAll [] [] := apart .nil

theorem body {ctx : Context} {m : MethodDecl} (hbody : ctx.method.body = m.body) (hnames : ctx.method.names = m.names) :
    ToldAll ctx.bodyIssues [m] := by
  have htold := ctx.told_bodyIssues
  have hone : ctx.method.undeclared? = m.undeclared? := by
    funext e
    cases e with
    | ident id => simp only [MethodDecl.undeclared?, hnames]
    | _ => rfl
  refine ⟨?_, ?_⟩
  · rw [List.flatMap_singleton, MethodDecl.undeclared, ← hone, MethodDecl.subterms, ← hbody]
    exact htold.undeclared
  · rw [List.flatMap_singleton, MethodDecl.strayJumps, ← hbody]
    exact htold.stray

end ToldAll

variable {hasClass : String → Bool}

theorem Ty.apart_issues {pos : Pos} {name : String} (t : Ty) : Apart (t.issues hasClass pos name) := by
  induction t using Ty.issues.induct hasClass (motive_2 := fun es => Apart (issuesOfElems hasClass pos name es))
    (motive_3 := fun ts => Apart (issuesOfAll hasClass pos name ts)) with
  | case1 c h => simp [Apart, issues, h]
  | case2 c h => simp [Apart, issues, h, report]
  | case3 ps r ihs ih => exact ihs.append ih
  | case4 => simp [Apart, issues, report]
  | case5 e es ih ihs =>
    refine .append (.append ?_ ih) ihs
    split <;> simp [Apart, report]
  | case6 t h => simp [Apart, issues]
  | case7 | case9 => exact .nil
  | case8 t ts ih ihs => exact ih.append ihs
  | case10 n t es ih ihs => exact ih.append ihs

theorem VarDecl.apart_checkAll (vs : List VarDecl) : Apart (VarDecl.checkAll hasClass vs).issues := by
  intro d hd
  obtain ⟨v, -, hv⟩ := List.mem_flatMap.1 hd
  exact v.type.apart_issues d hv

theorem MethodDecl.apart_checkVars (m : MethodDecl) : Apart (m.checkVars hasClass).issues :=
  (VarDecl.apart_checkAll m.args).append (VarDecl.apart_checkAll m.locals)

theorem MethodDecl.apart_checkResult (m : MethodDecl) : Apart (m.checkResult hasClass).issues := by
  unfold checkResult
  split
  · exact .nil
  · exact Ty.apart_issues _

theorem MethodDecl.names_checkVars (m : MethodDecl) : (m.checkVars hasClass).decl.names = m.names := by
  have hname (v : VarDecl) : (v.check hasClass).decl.name = v.name := by
    unfold VarDecl.check
    dsimp only
    split <;> rfl
  simp [names, checkVars, VarDecl.checkAll, hname, Function.comp_def]

theorem MethodDecl.told_checkConstructor {cls : String} {table : MethodDecl → Program} (m : MethodDecl) :
    ToldAll (m.checkConstructor cls table).issues [m] := by
  refine ((ToldAll.apart ?_).append (.apart m.apart_checkVars)).append (.body rfl m.names_checkVars)
  split <;> simp [Apart, report]

theorem MethodDecl.told_checkMethod {cls : String} {table : MethodDecl → Program} (m : MethodDecl) :
    ToldAll (m.checkMethod cls table).issues [m] := by
  have hdecl : ((m.checkResult (table m).hasClass).decl.body = m.body) ∧
      (m.checkResult (table m).hasClass).decl.names = m.names := by
    unfold checkResult
    cases m.returnType with
    | none => exact ⟨rfl, rfl⟩
    | some t => exact ⟨rfl, rfl⟩
  refine (((ToldAll.apart m.apart_checkResult).append (.apart (apart_checkVars _))).append
    (.body hdecl.1 ((names_checkVars _).trans hdecl.2))).append (.apart ?_)
  split <;> simp [Apart, report]

theorem told_checkMethods {cls : String} {table : List MethodDecl → Program} (done ms : List MethodDecl) :
    ToldAll (checkMethods cls table done ms).issues ms := by
  induction ms generalizing done with
  | nil => exact .nil
  | cons m ms ih =>
    simp only [checkMethods]
    rw [← List.singleton_append]
    exact m.told_checkMethod.append (ih _)

theorem ClassDecl.told_checkMembers {table : ClassDecl → Program} (c : ClassDecl) :
    ToldAll (c.checkMembers table).issues c.bodies := by
  have hfields : ToldAll (VarDecl.checkAll (table c).hasClass c.fields).issues [] := .apart (VarDecl.apart_checkAll c.fields)
  obtain ⟨token, name, parent, fields, ctor, methods⟩ := c
  cases ctor with
  | none =>
    simp only [ClassDecl.checkMembers, List.append_nil]
    exact hfields.append (told_checkMethods [] methods)
  | some m =>
    simp only [ClassDecl.checkMembers]
    exact (hfields.append m.told_checkConstructor).append (told_checkMethods [] methods)

theorem ClassDecl.apart_headIssues {entry : String} (c : ClassDecl) : Apart (c.headIssues entry hasClass) := by
  have hparent : Apart (c.parentIssues hasClass) := by
    unfold parentIssues
    (repeat' split) <;> simp [Apart, report]
  unfold headIssues
  dsimp only
  split
  · refine .append ?_ ?_
    · (repeat' split) <;> simp [Apart, report]
    · split
      · exact .nil
      · exact (show Apart [_] by simp [Apart, report]).append hparent
  · split
    · exact .nil
    · split
      · simp [Apart, report]
      · exact hparent

theorem told_checkClasses {file entry : String} (done cs : List ClassDecl) :
    ToldAll (checkClasses file entry done cs).issues (cs.flatMap ClassDecl.bodies) := by
  induction cs generalizing done with
  | nil => exact .nil
  | cons c cs ih =>
    simp only [checkClasses, List.flatMap_cons]
    exact ((ToldAll.apart c.apart_headIssues).append c.told_checkMembers).append (ih _)

/-- Checking skips nothing and repeats nothing, whatever else is wrong: the reports of undeclared names belong one for one to
the uses, in the bodies of all classes, of names that are names of neither a parameter nor a local of the body, the variables
of loops over lists included; and the reports of stray jumps are, in order, those of the jumps that no loop of their body
encloses. -/
theorem checks_visit_once (entry : String) (p : Program) :
    ((p.check entry).issues.filter (·.code = .E001)).Perm
      ((p.classes.flatMap fun c => c.bodies.flatMap MethodDecl.undeclared).map fun id => report id.token.pos .E001 [id.name]) ∧
    (p.check entry).issues.filter (·.code = .S004) =
      (p.classes.flatMap fun c => c.bodies.flatMap MethodDecl.strayJumps).map fun (pos, word) => report pos .S004 [word] := by
  have hmissing : Apart (if p.classes.any (·.name.name = entry) then [] else [report p.token.pos .D002 [entry]]) := by
    split <;> simp [Apart, report]
  have h : ToldAll (p.check entry).issues (p.classes.flatMap ClassDecl.bodies ++ []) :=
    (told_checkClasses [] p.classes).append (.apart hmissing)
  rw [List.append_nil] at h
  exact ⟨List.flatMap_assoc ▸ h.undeclared, List.flatMap_assoc ▸ h.stray⟩

end ClassCompiler
