import ClassCompiler.Proofs.Compile.Layout
import ClassCompiler.Proofs.Typing.Known

namespace ClassCompiler

namespace Piece

/-- Nothing is wrong with a piece; a call may be one whose result is dropped. -/
def Clean (ctx : Context) : Piece → Prop
  | .expr e => ∃ dropped, (ctx.inferCall dropped e).issues = []
  | .elements _ es => (ctx.inferAll es).issues = []
  | .args es => (ctx.inferAll es).issues = []
  | .update a => Context.optionIssues ctx.assignIssues a = []
  | .test _ _ e => Context.optionIssues ctx.conditionIssues e = []
  | .stmt loop s => ctx.stmtIssues loop.isSome s = []
  | .stmts loop ss => ctx.stmtsIssues loop.isSome ss = []
  | .orElse loop s => ctx.elseIssues loop.isSome s = []

def subterms : Piece → List Expr
  | .expr e => e.subterms
  | .elements _ es => Expr.subtermsOfAll es
  | .args es => Expr.subtermsOfAll es
  | .update a => a.toList.flatMap Assign.subterms
  | .test _ _ e => e.toList.flatMap Expr.subterms
  | .stmt _ s => s.subterms
  | .stmts _ ss => Stmt.subtermsOfAll ss
  | .orElse _ s => Stmt.subtermsOfElse s

end Piece

theorem BinOp.ne_assign_of_shortcut? {op : BinOp} {r : Jump × Int} (h : op.shortcut? = some r) :
    op ≠ .assign := by
  rintro rfl
  simp [BinOp.shortcut?] at h

theorem BinOp.ne_assign_of_arith? {op : BinOp} {a : ArithOp} (h : op.arith? = some a) :
    op ≠ .assign := by
  rintro rfl
  simp [BinOp.arith?] at h

theorem BinOp.ne_assign_of_isComparison {op : BinOp} (h : op.isComparison = true) : op ≠ .assign := by
  rintro rfl
  simp [BinOp.isComparison] at h

namespace Rule

variable {ctx : Context} {p : Piece} {s s' : Supply} {items : List Item}

theorem clean (hr : Rule ctx p s items s') (h : p.Clean ctx) :
    Parts (fun q _ _ _ _ => q.Clean ctx) items := by
  cases hr
  case logical ho =>
    obtain ⟨d, h⟩ := h
    rw [Context.inferCall_operation (BinOp.ne_assign_of_shortcut? ho)] at h
    simp only [List.append_eq_nil_iff] at h
    exact .part ⟨false, h.1.1⟩ (.ops (.part ⟨false, h.1.2⟩ (.ops .nil)))
  case arith ho =>
    obtain ⟨d, h⟩ := h
    rw [Context.inferCall_operation (BinOp.ne_assign_of_arith? ho)] at h
    simp only [List.append_eq_nil_iff] at h
    exact .part ⟨false, h.1.1⟩ (.part ⟨false, h.1.2⟩ (.ops .nil))
  case compare ho =>
    obtain ⟨d, h⟩ := h
    rw [Context.inferCall_operation (BinOp.ne_assign_of_isComparison ho)] at h
    simp only [List.append_eq_nil_iff] at h
    exact .part ⟨false, h.1.1⟩ (.part ⟨false, h.1.2⟩ (.ops .nil))
  all_goals
    subst_vars
    simp only [Parts.part_iff, Parts.ops_iff, Parts.nil_iff, Piece.Clean, Context.inferCall, Context.inferAll,
      Context.stmtIssues, Context.stmtsIssues, Context.elseIssues, Context.assignIssues, Context.conditionIssues,
      Context.foreachIssues, Context.returnIssues, Context.optionIssues, Context.infer, List.append_eq_nil_iff,
      Typed.value, exists_and_left, and_true, exists_const] at h ⊢ <;>
    tauto

/-- What holds of the expressions of a piece holds of those of its parts, where an assignment that is
a statement counts too. -/
theorem forall_subterms {P : Expr → Prop} (hP : ∀ t l r, P (.binary t .assign l r))
    (hr : Rule ctx p s items s') (h : p.subterms.Forall P) :
    Parts (fun q _ _ _ _ => q.subterms.Forall P) items := by
  cases hr
  all_goals
    subst_vars
    simp only [Parts.part_iff, Parts.ops_iff, Parts.nil_iff, Piece.subterms, Expr.subterms, Expr.subtermsOfAll,
      Stmt.subterms, Stmt.subtermsOfAll, Stmt.subtermsOfElse, Assign.subterms, List.forall_append, List.forall_cons, hP,
      Option.toList_none, Option.toList_some, List.flatMap_cons, List.flatMap_nil, List.append_nil, true_and, and_true]
      at h ⊢ <;>
    tauto

end Rule

end ClassCompiler
