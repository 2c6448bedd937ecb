import ClassCompiler.Proofs.Typing.Known
import ClassCompiler.Tree.Subterms

namespace ClassCompiler

namespace Ty

mutual

def Settled : Ty → Prop
  | .noType => False
  | .fptr ps r => SettledAll ps ∧ r.Settled
  | .list es => SettledElems es
  | _ => True

def SettledAll : List Ty → Prop
  | [] => True
  | t :: ts => t.Settled ∧ SettledAll ts

def SettledElems : List (String × Ty) → Prop
  | [] => True
  | (_, t) :: es => t.Settled ∧ SettledElems es

end

theorem settledElems_iff {es : List (String × Ty)} : SettledElems es ↔ ∀ e ∈ es, e.2.Settled := by
  induction es with
  | nil => simp [SettledElems]
  | cons e es ih => simp [SettledElems, ih]

theorem Settled.isNoType {t : Ty} (h : t.Settled) : t.isNoType = false := by
  cases t <;> simp_all [Settled, Ty.isNoType]

mutual

theorem settled_of_known (t : Ty) (h : t.Known) : t.Settled := by
  match t with
  | .int | .bool | .string | .null | .void | .cls _ => trivial
  | .noType => exact h.elim
  | .fptr ps r => exact ⟨settledAll_of_known ps h.1, settled_of_known r h.2⟩
  | .list [] => exact h.elim
  | .list ((_, t) :: es) => exact ⟨settled_of_known t h.1, settledElems_of_known es h.2⟩

theorem settledAll_of_known (ts : List Ty) (h : KnownAll ts) : SettledAll ts := by
  match ts with
  | [] => trivial
  | t :: ts => exact ⟨settled_of_known t h.1, settledAll_of_known ts h.2⟩

theorem settledElems_of_known (es : List (String × Ty)) (h : KnownElems es) : SettledElems es := by
  match es with
  | [] => trivial
  | (_, t) :: es => exact ⟨settled_of_known t h.1, settledElems_of_known es h.2⟩

end

end Ty

namespace Expr

/-- With each expression the list has all that is inside it. -/
def Closed (es : List Expr) : Prop := ∀ x ∈ es, x.subterms ⊆ es

theorem Closed.append {es fs : List Expr} (he : Closed es) (hf : Closed fs) : Closed (es ++ fs) := by
  intro x hx
  rcases List.mem_append.1 hx with hx | hx
  · exact List.subset_append_of_subset_left _ (he x hx)
  · exact List.subset_append_of_subset_right _ (hf x hx)

theorem Closed.inside {e : Expr} {es : List Expr} (h : Closed es) (he : e.subterms = e :: es) :
    Closed e.subterms := by
  intro x hx
  rw [he] at hx
  rcases List.mem_cons.1 hx with rfl | hx
  · exact List.Subset.refl _
  · rw [he]
    exact List.subset_cons_of_subset _ (h x hx)

mutual

theorem closed_subterms (e : Expr) : Closed e.subterms := by
  match e with
  | .binary _ _ l r => exact ((closed_subterms l).append (closed_subterms r)).inside rfl
  | .index _ x i => exact ((closed_subterms x).append (closed_subterms i)).inside rfl
  | .call _ f as => exact ((closed_subterms f).append (closed_subtermsOfAll as)).inside rfl
  | .unary _ _ x | .member _ x _ => exact (closed_subterms x).inside rfl
  | .new _ _ es | .list _ es => exact (closed_subtermsOfAll es).inside rfl
  | .ident _ | .this _ | .null _ | .int _ _ | .bool _ _ | .string _ _ =>
    exact List.forall_mem_singleton.2 (List.Subset.refl _)

theorem closed_subtermsOfAll (es : List Expr) : Closed (subtermsOfAll es) := by
  match es with
  | [] => exact List.forall_mem_nil _
  | e :: es => exact (closed_subterms e).append (closed_subtermsOfAll es)

end

end Expr

namespace Stmt

mutual

/-- The expressions of a statement that have a value: all but the call that a statement is. -/
def values : Stmt → List Expr
  | .assign a => a.subterms
  | .block _ ss => valuesOfAll ss
  | .cond _ c y n => c.subterms ++ y.values ++ valuesOfElse n
  | .call _ f as => f.subterms ++ Expr.subtermsOfAll as
  | .print _ x => x.subterms
  | .ret _ v => v.toList.flatMap Expr.subterms
  | .for _ i c u b =>
    i.toList.flatMap Assign.subterms ++ c.toList.flatMap Expr.subterms ++
      u.toList.flatMap Assign.subterms ++ b.values
  | .foreach _ v l b => .ident v :: l.subterms ++ b.values
  | .break _ => []
  | .continue _ => []

def valuesOfAll : List Stmt → List Expr
  | [] => []
  | s :: ss => s.values ++ valuesOfAll ss

def valuesOfElse : Option Stmt → List Expr
  | none => []
  | some s => s.values

end

end Stmt

def MethodDecl.values (m : MethodDecl) : List Expr := Stmt.valuesOfAll m.body

namespace Context

variable {ctx : Context}

mutual

theorem clean_of_mem_subterms (e : Expr) (h : (ctx.infer e).issues = []) :
    ∀ x ∈ e.subterms, (ctx.infer x).issues = [] := by
  match e with
  | .binary t op l r =>
    refine List.forall_mem_cons.2 ⟨h, List.forall_mem_append.2 ?_⟩
    have hlr : (ctx.infer l).issues = [] ∧ (ctx.infer r).issues = [] := by
      by_cases hop : op = .assign
      · subst hop
        simp only [infer, inferCall, List.append_eq_nil_iff] at h
        exact ⟨h.1.1.1, h.1.2⟩
      · simp only [infer, inferCall_operation hop, List.append_eq_nil_iff] at h
        exact h.1
    exact ⟨clean_of_mem_subterms l hlr.1, clean_of_mem_subterms r hlr.2⟩
  | .unary t op x =>
    refine List.forall_mem_cons.2 ⟨h, clean_of_mem_subterms x ?_⟩
    simp only [infer, inferCall, List.append_eq_nil_iff] at h
    exact h.1
  | .member t x n =>
    refine List.forall_mem_cons.2 ⟨h, clean_of_mem_subterms x ?_⟩
    simp only [infer, inferCall, List.append_eq_nil_iff] at h
    exact h.1
  | .index t x i =>
    refine List.forall_mem_cons.2 ⟨h, List.forall_mem_append.2 ?_⟩
    simp only [infer, inferCall, List.append_eq_nil_iff] at h
    exact ⟨clean_of_mem_subterms x h.1.2, clean_of_mem_subterms i h.1.1.1⟩
  | .call t f as =>
    refine List.forall_mem_cons.2 ⟨h, List.forall_mem_append.2 ?_⟩
    simp only [infer, inferCall, List.append_eq_nil_iff] at h
    exact ⟨clean_of_mem_subterms f h.1.1.1, clean_of_mem_subtermsOfAll as h.1.2⟩
  | .new t c as =>
    refine List.forall_mem_cons.2 ⟨h, clean_of_mem_subtermsOfAll as ?_⟩
    simp only [infer, inferCall, List.append_eq_nil_iff] at h
    exact h.1.2
  | .list t es => exact List.forall_mem_cons.2 ⟨h, clean_of_mem_subtermsOfAll es h⟩
  | .ident _ | .this _ | .null _ | .int _ _ | .bool _ _ | .string _ _ => exact List.forall_mem_singleton.2 h

theorem clean_of_mem_subtermsOfAll (es : List Expr) (h : (ctx.inferAll es).issues = []) :
    ∀ x ∈ Expr.subtermsOfAll es, (ctx.infer x).issues = [] := by
  match es with
  | [] => simp [Expr.subtermsOfAll]
  | e :: es =>
    simp only [inferAll, List.append_eq_nil_iff] at h
    exact List.forall_mem_append.2 ⟨clean_of_mem_subterms e h.1, clean_of_mem_subtermsOfAll es h.2⟩

end

theorem clean_of_mem_assign {a : Assign} (h : ctx.assignIssues a = []) :
    ∀ x ∈ a.subterms, (ctx.infer x).issues = [] := by
  have hall : ∀ x ∈ (Expr.binary a.token .assign a.left a.right).subterms, (ctx.infer x).issues = [] :=
    clean_of_mem_subterms _ h
  exact fun x hx => hall x (List.mem_cons_of_mem _ hx)

theorem clean_of_mem_condition {e : Expr} (h : ctx.conditionIssues e = []) :
    ∀ x ∈ e.subterms, (ctx.infer x).issues = [] :=
  clean_of_mem_subterms e (List.append_eq_nil_iff.1 h).1

theorem clean_of_mem_option {α : Type} {issues : α → List Diagnostic} {inside : α → List Expr}
    (hi : ∀ a, issues a = [] → ∀ x ∈ inside a, (ctx.infer x).issues = []) {o : Option α}
    (h : optionIssues issues o = []) : ∀ x ∈ o.toList.flatMap inside, (ctx.infer x).issues = [] := by
  cases o with
  | none => simp
  | some a => simpa using hi a h

mutual

theorem clean_of_mem_values (inLoop : Bool) (s : Stmt) (h : ctx.stmtIssues inLoop s = []) :
    ∀ x ∈ s.values, (ctx.infer x).issues = [] := by
  match s with
  | .assign a => exact clean_of_mem_assign h
  | .block _ ss => exact clean_of_mem_valuesOfAll inLoop ss h
  | .cond _ c y n =>
    simp only [stmtIssues, List.append_eq_nil_iff] at h
    exact List.forall_mem_append.2 ⟨List.forall_mem_append.2 ⟨clean_of_mem_condition h.1.1,
      clean_of_mem_values inLoop y h.1.2⟩, clean_of_mem_valuesOfElse inLoop n h.2⟩
  | .call t f as =>
    simp only [stmtIssues, inferCall, List.append_eq_nil_iff] at h
    exact List.forall_mem_append.2
      ⟨clean_of_mem_subterms f h.1.1.1, clean_of_mem_subtermsOfAll as h.1.2⟩
  | .print _ x => exact clean_of_mem_subterms x (List.append_eq_nil_iff.1 h).1
  | .ret _ none => simp [Stmt.values]
  | .ret _ (some e) =>
    simpa [Stmt.values] using clean_of_mem_subterms e (List.append_eq_nil_iff.1 h).1
  | .for _ i c u b =>
    simp only [stmtIssues, List.append_eq_nil_iff] at h
    obtain ⟨⟨⟨hi, hc⟩, hu⟩, hb⟩ := h
    exact List.forall_mem_append.2 ⟨List.forall_mem_append.2 ⟨List.forall_mem_append.2
      ⟨clean_of_mem_option (fun _ => clean_of_mem_assign) hi,
        clean_of_mem_option (fun _ => clean_of_mem_condition) hc⟩,
      clean_of_mem_option (fun _ => clean_of_mem_assign) hu⟩, clean_of_mem_values true b hb⟩
  | .foreach _ v l b =>
    simp only [stmtIssues, foreachIssues, List.append_eq_nil_iff] at h
    exact List.forall_mem_cons.2 ⟨h.1.1.1, List.forall_mem_append.2
      ⟨clean_of_mem_subterms l h.1.1.2, clean_of_mem_values true b h.2⟩⟩
  | .break _ | .continue _ => simp [Stmt.values]

theorem clean_of_mem_valuesOfAll (inLoop : Bool) (ss : List Stmt) (h : ctx.stmtsIssues inLoop ss = []) :
    ∀ x ∈ Stmt.valuesOfAll ss, (ctx.infer x).issues = [] := by
  match ss with
  | [] => simp [Stmt.valuesOfAll]
  | s :: ss =>
    simp only [stmtsIssues, List.append_eq_nil_iff] at h
    exact List.forall_mem_append.2
      ⟨clean_of_mem_values inLoop s h.1, clean_of_mem_valuesOfAll inLoop ss h.2⟩

theorem clean_of_mem_valuesOfElse (inLoop : Bool) (s : Option Stmt) (h : ctx.elseIssues inLoop s = []) :
    ∀ x ∈ Stmt.valuesOfElse s, (ctx.infer x).issues = [] := by
  match s with
  | none => simp [Stmt.valuesOfElse]
  | some s => exact clean_of_mem_values inLoop s h

end

theorem memberAccess_settled (hk : ctx.Known) {pos : Pos} {t : Ty} {name : String} (ht : t.Settled)
    (h : (ctx.memberAccess pos t name).issues = []) : (ctx.memberAccess pos t name).type.Settled := by
  rcases memberAccess_cases ht.isNoType h with ⟨c, hc, v, hv, hty⟩ | ⟨c, hc, m, hm, hty⟩ | ⟨es, rfl, e, he, hty⟩
  · exact hty ▸ Ty.settled_of_known _ (hk.table.fields c hc v hv)
  · exact hty ▸ Ty.settled_of_known _
      (functionType_known (hk.table.bodies c hc m (by simp [ClassDecl.bodies, hm])))
  · exact hty ▸ Ty.settledElems_iff.1 ht e he

theorem indexAccess_settled {pos : Pos} {index : Expr} {it t : Ty} (hit : it.Settled) (ht : t.Settled)
    (hne : t ≠ .list []) (hi : indexIssues index it = []) (h : (ctx.indexAccess pos index it t).issues = []) :
    (ctx.indexAccess pos index it t).type.Settled := by
  obtain rfl := eq_int_of_indexIssues hit.isNoType hi
  cases t with
  | list es =>
    have hes := Ty.settledElems_iff.1 ht
    obtain ⟨e, he, hty⟩ := elementAccess_mem (by rintro rfl; exact hne rfl) (fun e he => (hes e he).isNoType) h
    exact hty ▸ hes e he
  | noType => exact ht.elim
  | _ => simp [indexAccess, Typed.place] at h

def IndexesFilled (ctx : Context) (es : List Expr) : Prop :=
  ∀ t x i, Expr.index t x i ∈ es → ctx.typeOf x ≠ .list []

theorem IndexesFilled.subset {es fs : List Expr} (h : ctx.IndexesFilled es) (hs : fs ⊆ es) :
    ctx.IndexesFilled fs := fun t x i hx => h t x i (hs hx)

mutual

theorem inferCall_settled (hk : ctx.Known) (dropped : Bool) (e : Expr) (hf : ctx.IndexesFilled e.subterms)
    (h : (ctx.inferCall dropped e).issues = []) : (ctx.inferCall dropped e).type.Settled := by
  match e with
  | .ident id => exact Ty.settled_of_known _ (identifier_known hk h)
  | .member t x m =>
    simp only [inferCall, List.append_eq_nil_iff] at h ⊢
    exact memberAccess_settled hk
      (inferCall_settled hk false x (hf.subset (List.subset_cons_self _ _)) h.1) h.2
  | .index t x i =>
    simp only [inferCall, List.append_eq_nil_iff] at h ⊢
    have hx := inferCall_settled hk false x (hf.subset (by simp [Expr.subterms])) h.1.2
    have hi := inferCall_settled hk false i (hf.subset (by simp [Expr.subterms])) h.1.1.1
    exact indexAccess_settled hi hx (hf t x i (by simp [Expr.subterms])) h.1.1.2 h.2
  | .binary t op l r =>
    have hl := inferCall_settled hk false l (hf.subset (by simp [Expr.subterms]))
    have hr := inferCall_settled hk false r (hf.subset (by simp [Expr.subterms]))
    by_cases hop : op = .assign
    · subst hop
      simp only [inferCall, List.append_eq_nil_iff] at h ⊢
      have hr := hr h.1.2
      rw [(assignment_known (hl h.1.1.1).isNoType hr.isNoType h.1.1.2 h.2).2.2]
      exact hr
    · rw [inferCall_operation hop] at h ⊢
      simp only [List.append_eq_nil_iff] at h
      exact Ty.settled_of_known _
        (operation_known hop (hl h.1.1).isNoType (hr h.1.2).isNoType h.2)
  | .unary t op x =>
    simp only [inferCall, List.append_eq_nil_iff] at h ⊢
    have hx := inferCall_settled hk false x (hf.subset (List.subset_cons_self _ _)) h.1
    split
    · next hop =>
      simp only [hop, if_true] at h
      rw [(increment_known hx.isNoType h.2).2.2]
      trivial
    · next hop =>
      simp only [hop] at h
      rw [(negation_known hx.isNoType h.2).1]
      exact hx
  | .call t f as =>
    simp only [inferCall, List.append_eq_nil_iff] at h ⊢
    have hft := inferCall_settled hk false f (hf.subset (by simp [Expr.subterms])) h.1.1.1
    obtain ⟨ps, r, he, _, _, ht⟩ := callResult_known hft.isNoType h.1.1.2 h.2
    rw [ht]
    rw [he] at hft
    exact hft.2
  | .new t c as =>
    simp only [inferCall, List.append_eq_nil_iff] at h ⊢
    rw [(creation_ok h.1.1 h.2).2.2]
    trivial
  | .list t es =>
    simp only [inferCall, Typed.value] at h ⊢
    refine Ty.settledElems_iff.2 fun x hx => ?_
    obtain ⟨u, hu, rfl⟩ := List.mem_map.1 hx
    exact inferAll_settled hk es (hf.subset (List.subset_cons_self _ _)) h u hu
  | .this _ | .null _ | .int _ _ | .bool _ _ | .string _ _ => trivial

theorem inferAll_settled (hk : ctx.Known) (es : List Expr) (hf : ctx.IndexesFilled (Expr.subtermsOfAll es))
    (h : (ctx.inferAll es).issues = []) : ∀ t ∈ (ctx.inferAll es).types, t.Settled := by
  match es with
  | [] => simp [inferAll]
  | e :: es =>
    simp only [inferAll, List.append_eq_nil_iff] at h ⊢
    exact List.forall_mem_cons.2
      ⟨inferCall_settled hk false e (hf.subset (by simp [Expr.subtermsOfAll])) h.1,
        inferAll_settled hk es (hf.subset (by simp [Expr.subtermsOfAll])) h.2⟩

end

end Context

/-- In an accepted program the types in an expression have no `noType` in them, at any depth, exactly if
nothing in the expression indexes a list without positions. -/
theorem accepted_types_settled_iff {entry : String} {p : Program}
    (hw : p.Written) (ha : (p.check entry).issues = []) {c : ClassDecl}
    (hc : c ∈ p.classes) {m : MethodDecl} (hm : m ∈ c.bodies) {e : Expr} (he : e ∈ m.values) :
    (∀ x ∈ e.subterms, (Context.typeOf ⟨p, c.name.name, m⟩ x).Settled) ↔
      Context.IndexesFilled ⟨p, c.name.name, m⟩ e.subterms := by
  obtain ⟨-, hclean⟩ := Program.check_clean ha
  have hk := hclean.context_known hw hc hm
  have hissues := Context.clean_of_mem_valuesOfAll false m.body (hclean.bodyClean hc hm).body e he
  constructor
  · intro h t x i hx hempty
    have hindex := h _ hx
    have hnone : (Context.typeOf ⟨p, c.name.name, m⟩ (.index t x i)).isNoType = true := by
      simp only [Context.typeOf, Context.infer] at hempty
      simp [Context.typeOf, Context.infer, Context.inferCall, hempty, Context.indexAccess,
        Context.elementAccess, Program.sameElements, Typed.place, Ty.isNoType]
    simp [hindex.isNoType] at hnone
  · intro h x hx
    exact Context.inferCall_settled hk false x (h.subset (Expr.closed_subterms e x hx))
      (Context.clean_of_mem_subterms e hissues x hx)

theorem accepted_types_settled_iff_sample :
    Context.IndexesFilled ⟨Tally.program, "Main", Tally.entry⟩ (Expr.unary {} .preInc Tally.lowest).subterms ∧
      ∀ x ∈ (Expr.unary {} .preInc Tally.lowest).subterms,
        (Context.typeOf ⟨Tally.program, "Main", Tally.entry⟩ x).Settled := by
  have hfilled : Context.IndexesFilled ⟨Tally.program, "Main", Tally.entry⟩
      (Expr.unary {} .preInc Tally.lowest).subterms := by
    simp only [Context.IndexesFilled, Tally.lowest, Sample.field, Sample.value, Expr.subterms]
    intro t x i hx
    simp only [List.mem_cons, List.mem_append, List.not_mem_nil, or_false, reduceCtorEq, false_or, Expr.index.injEq] at hx
    obtain ⟨-, rfl, -⟩ := hx
    have hrows : Context.typeOf ⟨Tally.program, "Main", Tally.entry⟩ (Sample.field (Sample.value "t") "rows") =
      .list [("low", .int), ("", .int)] := rfl
    exact fun hempty => by cases hrows.symm.trans hempty
  refine ⟨hfilled, (accepted_types_settled_iff (c := Tally.main) Tally.written Tally.accepted ?_ ?_ ?_).2 hfilled⟩
  · exact List.mem_cons_self
  · exact List.mem_singleton_self _
  · simp [Tally.entry, MethodDecl.values, Stmt.valuesOfAll, Stmt.values, Expr.subterms]

namespace EmptyIndex

open Sample Yaml

def source : String :=
  "classes: [{class: Main, constructor: {body: [{print: {idx: [{list: []}, 0]}}]}}]"

def root : Node :=
  entry 1 [word "classes" 1, row 10 [
    entry 11 [word "class" 12, word "Main" 19, word "constructor" 25, entry 38 [
      word "body" 39, row 45 [
        entry 46 [word "print" 47, entry 54 [word "idx" 55, row 60 [
          entry 61 [word "list" 62, row 68 []], ⟨.scalar, "!!int", .plain, "0", 1, 73, []⟩]]]]]]]]

def index : Expr :=
  .index (token .bracket 55) (.list (token .bracket 62) []) (.int ⟨.intLit, "0", 1, 73⟩ 0)

def constructor : MethodDecl where
  token := ⟨.constructor, "", 1, 38⟩
  name := ⟨⟨.constructor, "", 1, 38⟩, "Main"⟩
  body := [.print (token .print 47) index]

def program : Program where
  file := "sample"
  classes := [{
    token := ⟨.classDecl, "Main", 1, 11⟩
    name := name "Main" 19
    constructor := some constructor }]

theorem int?_zero : Numeral.int? 32 ['0'] = some 0 := by rfl

theorem ofNode_root : Program.ofNode "sample" root = .ok program := by
  simp [Program.ofNode, root, entry, row, word, Decoder.classLists, Decoder.classDecl, Decoder.entries,
    Decoder.classParts, Decoder.name, Decoder.constructor, Decoder.methodParts, Decoder.stmtList, Decoder.stmts,
    Decoder.stmt, Decoder.expr, Decoder.exprs, Decoder.scalar, Decoder.unOp?, Node.isNull, bind, Except.bind, pure,
    Except.pure, int?_zero]
  rfl

theorem decode_source : Program.decode "sample" source = .ok program :=
  Program.decode_of_read (by decide +kernel) ofNode_root

end EmptyIndex

/-- An index into an empty list literal is accepted without a word, and has `noType` for its type. -/
theorem accepted_noType :
    Program.decode "sample" EmptyIndex.source = .ok EmptyIndex.program ∧
      (EmptyIndex.program.check "Main").issues = [] ∧
      EmptyIndex.index ∈ EmptyIndex.constructor.values ∧
      Context.typeOf ⟨EmptyIndex.program, "Main", EmptyIndex.constructor⟩ EmptyIndex.index = .noType := by
  refine ⟨EmptyIndex.decode_source, by decide, ?_, rfl⟩
  simp [EmptyIndex.constructor, EmptyIndex.index, MethodDecl.values, Stmt.valuesOfAll, Stmt.values, Expr.subterms]

end ClassCompiler
