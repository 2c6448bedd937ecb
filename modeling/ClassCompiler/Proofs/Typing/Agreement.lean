import ClassCompiler.Typing.Program
import ClassCompiler.Tree.Subterms
import Mathlib.Tactic.Common

namespace ClassCompiler.Context

/-- The same body, against programs with the same hierarchy. -/
structure Agrees (ctx ctx' : Context) : Prop where
  className : ctx'.className = ctx.className
  method : ctx'.method = ctx.method
  hasClass : ctx'.table.hasClass = ctx.table.hasClass
  hasAncestor : ctx'.table.hasAncestor = ctx.table.hasAncestor

/-- What the expression itself names, its parts aside, is the same in both programs. -/
def FindsAlike (ctx ctx' : Context) : Expr → Prop
  | .member t x n => ctx'.memberAccess t.pos (ctx.typeOf x) n.name = ctx.memberAccess t.pos (ctx.typeOf x) n.name
  | .new t c as => ctx'.creation t.pos c.name (ctx.inferAll as).types = ctx.creation t.pos c.name (ctx.inferAll as).types
  | _ => True

variable {ctx ctx' : Context}

section

variable (h : ctx'.table.hasAncestor = ctx.table.hasAncestor)

include h

theorem isSubtype_congr (a b : Ty) : ctx'.table.isSubtype a b = ctx.table.isSubtype a b := by
  rw [Program.isSubtype, Program.isSubtype, h]

theorem equivalent_congr (a b : Ty) : ctx'.table.equivalent a b = ctx.table.equivalent a b := by
  rw [Program.equivalent, Program.equivalent, h]

theorem sameElements_congr (elems : List (String × Ty)) (first : Ty) :
    ctx'.table.sameElements elems first = ctx.table.sameElements elems first := by
  simp only [Program.sameElements, equivalent_congr h]

theorem indexAccess_congr (pos : Pos) (index : Expr) (it t : Ty) :
    ctx'.indexAccess pos index it t = ctx.indexAccess pos index it t := by
  cases t <;> simp only [indexAccess, elementAccess, sameElements_congr h]

theorem operation_congr (pos : Pos) (op : BinOp) (l r : Ty) : ctx'.operation pos op l r = ctx.operation pos op l r := by
  cases op <;> simp only [operation, equality, equivalent_congr h]

theorem assignment_congr (pos : Pos) (l : Typed) (r : Ty) : ctx'.assignment pos l r = ctx.assignment pos l r := by
  simp only [assignment, isSubtype_congr h]

theorem fits_congr (ps as : List Ty) : ctx'.fits ps as = ctx.fits ps as := by
  simp only [fits, isSubtype_congr h]

theorem callResult_congr (pos : Pos) (dropped : Bool) (f : Ty) (as : List Ty) :
    ctx'.callResult pos dropped f as = ctx.callResult pos dropped f as := by
  cases f <;> simp only [callResult, fits_congr h]

end

theorem identifier_agrees (h : ctx.Agrees ctx') (id : Ident) : ctx'.identifier id = ctx.identifier id := by
  simp only [identifier, h.method]

mutual

theorem inferCall_agrees (h : ctx.Agrees ctx') (dropped : Bool) (e : Expr) (hf : ∀ x ∈ e.subterms, ctx.FindsAlike ctx' x) :
    ctx'.inferCall dropped e = ctx.inferCall dropped e := by
  match e with
  | .ident id => simp only [inferCall, identifier_agrees h]
  | .member t x n =>
    obtain ⟨hfe, hfx⟩ := List.forall_mem_cons.1 hf
    have hmember : ctx'.memberAccess t.pos (ctx.inferCall false x).type n.name =
        ctx.memberAccess t.pos (ctx.inferCall false x).type n.name := hfe
    simp only [inferCall, inferCall_agrees h false x hfx, hmember]
  | .index t x i =>
    obtain ⟨hfx, hfi⟩ := List.forall_mem_append.1 (List.forall_mem_cons.1 hf).2
    simp only [inferCall, inferCall_agrees h false x hfx, inferCall_agrees h false i hfi, indexAccess_congr h.hasAncestor]
  | .binary t op l r =>
    obtain ⟨hfl, hfr⟩ := List.forall_mem_append.1 (List.forall_mem_cons.1 hf).2
    cases op <;>
      simp only [inferCall, inferCall_agrees h false l hfl, inferCall_agrees h false r hfr,
        operation_congr h.hasAncestor, assignment_congr h.hasAncestor]
  | .unary t op x =>
    simp only [inferCall, inferCall_agrees h false x (List.forall_mem_cons.1 hf).2]
  | .call t f as =>
    obtain ⟨hff, hfa⟩ := List.forall_mem_append.1 (List.forall_mem_cons.1 hf).2
    simp only [inferCall, inferCall_agrees h false f hff, inferAll_agrees h as hfa, callResult_congr h.hasAncestor]
  | .new t c as =>
    obtain ⟨hfe, hfa⟩ := List.forall_mem_cons.1 hf
    have hcreation : ctx'.creation t.pos c.name (ctx.inferAll as).types =
        ctx.creation t.pos c.name (ctx.inferAll as).types := hfe
    simp only [inferCall, inferAll_agrees h as hfa, hcreation, classIssues, h.hasClass]
  | .list t es => simp only [inferCall, inferAll_agrees h es (List.forall_mem_cons.1 hf).2]
  | .this _ => simp only [inferCall, h.className]
  | .null _ | .int _ _ | .bool _ _ | .string _ _ => simp only [inferCall]

theorem inferAll_agrees (h : ctx.Agrees ctx') (es : List Expr)
    (hf : ∀ x ∈ Expr.subtermsOfAll es, ctx.FindsAlike ctx' x) : ctx'.inferAll es = ctx.inferAll es := by
  match es with
  | [] => rfl
  | e :: es =>
    obtain ⟨hfe, hfes⟩ := List.forall_mem_append.1 hf
    simp only [inferAll, inferCall_agrees h false e hfe, inferAll_agrees h es hfes]

end

theorem infer_agrees (h : ctx.Agrees ctx') {e : Expr} (hf : ∀ x ∈ e.subterms, ctx.FindsAlike ctx' x) :
    ctx'.infer e = ctx.infer e := inferCall_agrees h false e hf

theorem typeOf_agrees (h : ctx.Agrees ctx') {e : Expr} (hf : ∀ x ∈ e.subterms, ctx.FindsAlike ctx' x) :
    ctx'.typeOf e = ctx.typeOf e := by rw [typeOf, typeOf, infer_agrees h hf]

theorem assignIssues_agrees (h : ctx.Agrees ctx') {a : Assign} (hf : ∀ x ∈ a.subterms, ctx.FindsAlike ctx' x) :
    ctx'.assignIssues a = ctx.assignIssues a := by
  have hassign : ∀ x ∈ (Expr.binary a.token .assign a.left a.right).subterms, ctx.FindsAlike ctx' x :=
    List.forall_mem_cons.2 ⟨trivial, hf⟩
  rw [assignIssues, assignIssues, infer_agrees h hassign]

theorem conditionIssues_agrees (h : ctx.Agrees ctx') {e : Expr} (hf : ∀ x ∈ e.subterms, ctx.FindsAlike ctx' x) :
    ctx'.conditionIssues e = ctx.conditionIssues e := by
  simp only [conditionIssues]
  rw [infer_agrees h hf]

theorem optionIssues_agrees {α : Type} {issues issues' : α → List Diagnostic} {inside : α → List Expr}
    (hi : ∀ a, (∀ x ∈ inside a, ctx.FindsAlike ctx' x) → issues' a = issues a) {o : Option α}
    (hf : ∀ x ∈ o.toList.flatMap inside, ctx.FindsAlike ctx' x) : optionIssues issues' o = optionIssues issues o := by
  cases o with
  | none => rfl
  | some a => exact hi a (by simpa using hf)

theorem returnIssues_agrees (h : ctx.Agrees ctx') (pos : Pos) {v : Option Expr}
    (hf : ∀ x ∈ v.toList.flatMap Expr.subterms, ctx.FindsAlike ctx' x) :
    ctx'.returnIssues pos v = ctx.returnIssues pos v := by
  cases v with
  | none =>
    simp only [returnIssues]
    rw [isSubtype_congr h.hasAncestor, h.method]
  | some e =>
    simp only [returnIssues]
    rw [infer_agrees h (by simpa using hf), isSubtype_congr h.hasAncestor, h.method]

theorem foreachIssues_agrees (h : ctx.Agrees ctx') (v : Ident) {l : Expr} (hf : ∀ x ∈ l.subterms, ctx.FindsAlike ctx' x) :
    ctx'.foreachIssues v l = ctx.foreachIssues v l := by
  simp only [foreachIssues, infer_agrees h hf, identifier_agrees h v]
  cases (ctx.infer l).type with
  | list elems =>
    simp only
    rw [sameElements_congr h.hasAncestor, equivalent_congr h.hasAncestor]
  | _ => rfl

mutual

theorem stmtIssues_agrees (h : ctx.Agrees ctx') (inLoop : Bool) (s : Stmt)
    (hf : ∀ x ∈ s.subterms, ctx.FindsAlike ctx' x) : ctx'.stmtIssues inLoop s = ctx.stmtIssues inLoop s := by
  match s with
  | .assign a => simp only [stmtIssues, assignIssues_agrees h hf]
  | .block _ ss => simp only [stmtIssues, stmtsIssues_agrees h inLoop ss hf]
  | .cond _ c y n =>
    obtain ⟨hfy, hfn⟩ := List.forall_mem_append.1 hf
    obtain ⟨hfc, hfy⟩ := List.forall_mem_append.1 hfy
    simp only [stmtIssues, conditionIssues_agrees h hfc, stmtIssues_agrees h inLoop y hfy, elseIssues_agrees h inLoop n hfn]
  | .call t f as => simp only [stmtIssues, inferCall_agrees h true (.call t f as) hf]
  | .print t x =>
    simp only [stmtIssues]
    rw [infer_agrees h hf]
  | .ret t v => simp only [stmtIssues, returnIssues_agrees h t.pos hf]
  | .for _ i c u b =>
    obtain ⟨hfu, hfb⟩ := List.forall_mem_append.1 hf
    obtain ⟨hfc, hfu⟩ := List.forall_mem_append.1 hfu
    obtain ⟨hfi, hfc⟩ := List.forall_mem_append.1 hfc
    simp only [stmtIssues, optionIssues_agrees (fun _ => assignIssues_agrees h) hfi,
      optionIssues_agrees (fun _ => conditionIssues_agrees h) hfc,
      optionIssues_agrees (fun _ => assignIssues_agrees h) hfu, stmtIssues_agrees h true b hfb]
  | .foreach _ v l b =>
    obtain ⟨hfl, hfb⟩ := List.forall_mem_append.1 (List.forall_mem_cons.1 hf).2
    simp only [stmtIssues, foreachIssues_agrees h v hfl, stmtIssues_agrees h true b hfb]
  | .break _ | .continue _ => simp only [stmtIssues]

theorem stmtsIssues_agrees (h : ctx.Agrees ctx') (inLoop : Bool) (ss : List Stmt)
    (hf : ∀ x ∈ Stmt.subtermsOfAll ss, ctx.FindsAlike ctx' x) : ctx'.stmtsIssues inLoop ss = ctx.stmtsIssues inLoop ss := by
  match ss with
  | [] => rfl
  | s :: ss =>
    obtain ⟨hfs, hfss⟩ := List.forall_mem_append.1 hf
    simp only [stmtsIssues, stmtIssues_agrees h inLoop s hfs, stmtsIssues_agrees h inLoop ss hfss]

theorem elseIssues_agrees (h : ctx.Agrees ctx') (inLoop : Bool) (s : Option Stmt)
    (hf : ∀ x ∈ Stmt.subtermsOfElse s, ctx.FindsAlike ctx' x) : ctx'.elseIssues inLoop s = ctx.elseIssues inLoop s := by
  match s with
  | none => rfl
  | some s => simp only [elseIssues, stmtIssues_agrees h inLoop s hf]

end

theorem bodyIssues_agrees (h : ctx.Agrees ctx') (hf : ∀ x ∈ ctx.method.subterms, ctx.FindsAlike ctx' x) :
    ctx'.bodyIssues = ctx.bodyIssues := by
  rw [bodyIssues, bodyIssues, h.method]
  exact stmtsIssues_agrees h false ctx.method.body hf

end ClassCompiler.Context
