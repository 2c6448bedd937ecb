import ClassCompiler.Proofs.Typing.Fading

namespace ClassCompiler

namespace Stmt

mutual

def loops : Stmt → List Expr
  | .block _ ss => loopsOfAll ss
  | .cond _ _ y n => y.loops ++ loopsOfElse n
  | .for _ _ _ _ b => b.loops
  | .foreach _ _ l b => l :: b.loops
  | _ => []

def loopsOfAll : List Stmt → List Expr
  | [] => []
  | s :: ss => s.loops ++ loopsOfAll ss

def loopsOfElse : Option Stmt → List Expr
  | none => []
  | some s => s.loops

end

end Stmt

namespace Context

variable {ctx ctx' : Context}

theorem IndexesFilled.cons {e : Expr} {es : List Expr} (hne : ∀ t x i, e ≠ .index t x i) (h : ctx.IndexesFilled es) :
    ctx.IndexesFilled (e :: es) := by
  intro t x i hx
  obtain rfl | hx := List.mem_cons.1 hx
  · exact absurd rfl (hne t x i)
  · exact h t x i hx

theorem IndexesFilled.of_cons {e : Expr} {es : List Expr} (h : ctx.IndexesFilled (e :: es)) : ctx.IndexesFilled es :=
  h.subset (List.subset_cons_self e es)

theorem IndexesFilled.of_append {es fs : List Expr} (h : ctx.IndexesFilled (es ++ fs)) :
    ctx.IndexesFilled es ∧ ctx.IndexesFilled fs :=
  ⟨h.subset (List.subset_append_left es fs), h.subset (List.subset_append_right es fs)⟩

mutual

/-- The type of an expression fades with those of the declarations, and nothing is reported. -/
theorem inferCall_fades (h : ctx.Fades ctx') (hk : ctx.Known) (dropped : Bool) (e : Expr)
    (hf : ctx.IndexesFilled e.subterms) (ha : ∀ x ∈ e.subterms, ctx'.Absorbs x)
    (hc : (ctx.inferCall dropped e).issues = []) :
    (ctx.inferCall dropped e).Fades (ctx'.inferCall dropped e) := by
  -- By recursion on the expression: the parts fade, then the rule of the form keeps that; nothing new is reported on the way.
  match e with
  | .ident id => exact identifier_fades h hc
  | .member t x n =>
    simp only [inferCall, List.append_eq_nil_iff] at hc ⊢
    obtain ⟨hae, hax⟩ := List.forall_mem_cons.1 ha
    have hx := inferCall_fades h hk false x hf.of_cons hax hc.1
    have hm := memberAccess_fades h (hx.type.keptOrLost hae) hc.2
    exact hm.withIssues _ (by rw [hx.issues, hm.issues]; rfl)
  | .index t x i =>
    simp only [inferCall, List.append_eq_nil_iff] at hc ⊢
    obtain ⟨hae, hax⟩ := List.forall_mem_cons.1 ha
    obtain ⟨hax, hai⟩ := List.forall_mem_append.1 hax
    obtain ⟨hfx, hfi⟩ := hf.of_cons.of_append
    have hx := inferCall_fades h hk false x hfx hax hc.1.2
    have hi := inferCall_fades h hk false i hfi hai hc.1.1.1
    have hm := indexAccess_fades h hi.type (hx.type.keptOrLost hae) hc.1.1.2 hc.2
    exact hm.withIssues _ (by rw [hi.issues, indexIssues_fades hi.type hc.1.1.2, hx.issues, hm.issues]; rfl)
  | .binary t op l r =>
    obtain ⟨hae, hal⟩ := List.forall_mem_cons.1 ha
    obtain ⟨hal, har⟩ := List.forall_mem_append.1 hal
    obtain ⟨hfl, hfr⟩ := hf.of_cons.of_append
    by_cases hop : op = .assign
    · subst hop
      simp only [inferCall, List.append_eq_nil_iff] at hc ⊢
      have hl := inferCall_fades h hk false l hfl hal hc.1.1.1
      have hr := inferCall_fades h hk false r hfr har hc.1.2
      obtain ⟨hp, hm⟩ := assignment_fades h hl hr.type hc.1.1.2 hc.2
      exact hm.withIssues _ (by rw [hl.issues, hp, hr.issues, hm.issues]; rfl)
    · rw [inferCall_operation hop] at hc ⊢
      rw [inferCall_operation hop]
      simp only [List.append_eq_nil_iff] at hc
      have hl := inferCall_fades h hk false l hfl hal hc.1.1
      have hr := inferCall_fades h hk false r hfr har hc.1.2
      have hw : op = .eq ∨ op = .ne → (ctx'.inferCall false l).type.Whole ∧ (ctx'.inferCall false r).type.Whole := by
        rintro (rfl | rfl) <;> exact hae
      have hm := operation_fades h hl.type hr.type hw (inferCall_settled hk false l hfl hc.1.1).isNoType
        (inferCall_settled hk false r hfr hc.1.2).isNoType hc.2
      exact hm.withIssues _ (by rw [hl.issues, hr.issues, hm.issues]; rfl)
  | .unary t op x =>
    simp only [inferCall, List.append_eq_nil_iff] at hc ⊢
    obtain ⟨-, hax⟩ := List.forall_mem_cons.1 ha
    have hx := inferCall_fades h hk false x hf.of_cons hax hc.1
    have hm : Typed.Fades (if op.isIncDec = true then increment t.pos op (ctx.inferCall false x)
        else negation t.pos op (ctx.inferCall false x).type)
        (if op.isIncDec = true then increment t.pos op (ctx'.inferCall false x)
        else negation t.pos op (ctx'.inferCall false x).type) := by
      have hcx := hc.2
      split
      · next hop => exact increment_fades hx (by simpa [hop] using hcx)
      · next hop => exact negation_fades hx.type (by simpa [hop] using hcx)
    exact hm.withIssues _ (by rw [hx.issues, hm.issues]; rfl)
  | .call t f as =>
    simp only [inferCall, List.append_eq_nil_iff] at hc ⊢
    obtain ⟨hae, haf⟩ := List.forall_mem_cons.1 ha
    obtain ⟨haf, haa⟩ := List.forall_mem_append.1 haf
    obtain ⟨hff, hfa⟩ := hf.of_cons.of_append
    have hff := inferCall_fades h hk false f hff haf hc.1.1.1
    obtain ⟨hai, hat⟩ := inferAll_fades h hk as hfa haa hc.1.2
    have hm := callResult_fades h hff.type hat hae hc.2
    exact hm.withIssues _ (by rw [hff.issues, calleeIssues_fades hff.type hc.1.1.2, hai, hm.issues]; rfl)
  | .new t c as =>
    simp only [inferCall, List.append_eq_nil_iff] at hc ⊢
    obtain ⟨hae, haa⟩ := List.forall_mem_cons.1 ha
    obtain ⟨hai, hat⟩ := inferAll_fades h hk as hf.of_cons haa hc.1.2
    have hm := creation_fades h hat hae hc.1.1 hc.2
    have hcls : ctx'.classIssues t.pos c.name = [] := by
      rw [classIssues, h.table.hasClass]
      exact hc.1.1
    exact hm.withIssues _ (by rw [hcls, hai, hm.issues]; rfl)
  | .this _ =>
    simp only [inferCall, h.className]
    exact Typed.fades_self rfl
  | .list _ es =>
    obtain ⟨-, haes⟩ := List.forall_mem_cons.1 ha
    obtain ⟨hi, ht⟩ := inferAll_fades h hk es hf.of_cons haes hc
    exact Typed.fades_of_isPlace_eq_false rfl hi (.list (Ty.fadesElems_of_forall₂ ht))
  | .null _ | .int _ _ | .bool _ _ | .string _ _ => exact Typed.fades_self rfl

theorem inferAll_fades (h : ctx.Fades ctx') (hk : ctx.Known) (es : List Expr)
    (hf : ctx.IndexesFilled (Expr.subtermsOfAll es)) (ha : ∀ x ∈ Expr.subtermsOfAll es, ctx'.Absorbs x)
    (hc : (ctx.inferAll es).issues = []) :
    (ctx'.inferAll es).issues = [] ∧ List.Forall₂ Ty.Fades (ctx.inferAll es).types (ctx'.inferAll es).types := by
  match es with
  | [] => exact ⟨rfl, .nil⟩
  | e :: es =>
    simp only [inferAll, List.append_eq_nil_iff] at hc ⊢
    obtain ⟨hae, haes⟩ := List.forall_mem_append.1 ha
    obtain ⟨hfe, hfes⟩ := hf.of_append
    have he := inferCall_fades h hk false e hfe hae hc.1
    obtain ⟨hi, ht⟩ := inferAll_fades h hk es hfes haes hc.2
    exact ⟨⟨he.issues, hi⟩, .cons he.type ht⟩

end

theorem eq_true_of_not_reported {c : Bool} {d : Diagnostic} (h : (if c = true then [] else [d]) = []) : c = true := by
  by_contra hne
  rw [if_neg hne] at h
  exact List.cons_ne_nil d [] h

theorem isPlace_identifier (ctx : Context) (id : Ident) : (ctx.identifier id).isPlace = true := by
  unfold identifier
  split <;> rfl

section

variable (h : ctx.Fades ctx') (hk : ctx.Known)

include h hk

theorem assignIssues_fades {a : Assign} (hf : ctx.IndexesFilled a.subterms) (ha : ∀ x ∈ a.subterms, ctx'.Absorbs x)
    (hc : ctx.assignIssues a = []) : ctx'.assignIssues a = [] := by
  have hb : ∀ x ∈ (Expr.binary a.token .assign a.left a.right).subterms, ctx'.Absorbs x :=
    List.forall_mem_cons.2 ⟨trivial, ha⟩
  have hfb : ctx.IndexesFilled (Expr.binary a.token .assign a.left a.right).subterms := IndexesFilled.cons (by simp) hf
  exact (inferCall_fades h hk false _ hfb hb hc).issues

theorem conditionIssues_fades {e : Expr} (hf : ctx.IndexesFilled e.subterms) (ha : ∀ x ∈ e.subterms, ctx'.Absorbs x)
    (hc : ctx.conditionIssues e = []) : ctx'.conditionIssues e = [] := by
  simp only [conditionIssues, List.append_eq_nil_iff] at hc ⊢
  have he := inferCall_fades h hk false e hf ha hc.1
  refine ⟨he.issues, ?_⟩
  have hcond := eq_true_of_not_reported hc.2
  have hflat := (Bool.or_eq_true _ _ ▸ hcond).elim Ty.isPrintable_of_isBool Ty.isPrintable_of_isNoType
  obtain ht | ht := he.type.keptOrLost_of_isPrintable hflat
  · have htype : (ctx'.infer e).type = (ctx.infer e).type := ht
    simp [htype, hcond]
  · have htype : (ctx'.infer e).type = .noType := ht
    simp [htype, Ty.isNoType_noType]

theorem returnIssues_fades {pos : Pos} {v : Option Expr} (hf : ctx.IndexesFilled (v.toList.flatMap Expr.subterms))
    (ha : ∀ x ∈ v.toList.flatMap Expr.subterms, ctx'.Absorbs x) (hc : ctx.returnIssues pos v = []) :
    ctx'.returnIssues pos v = [] := by
  have hreturned : ∀ {t t' : Ty}, t.Fades t' → ctx.table.isSubtype t ctx.method.result = true →
      ctx'.table.isSubtype t' ctx'.method.result = true := by
    intro t t' ht hsub
    rw [h.method.result, h.table.isSubtype]
    exact ht.isSubtype hsub
  cases v with
  | none =>
    have hsub := eq_true_of_not_reported (List.append_eq_nil_iff.1 hc).2
    exact if_pos (hreturned (.kept .void) hsub)
  | some e =>
    simp only [returnIssues, List.append_eq_nil_iff] at hc ⊢
    have he := inferCall_fades h hk false e (by simpa using hf) (by simpa using ha) hc.1
    exact ⟨he.issues, if_pos (hreturned he.type (eq_true_of_not_reported hc.2))⟩

theorem foreachIssues_fades {v : Ident} {l : Expr} (hf : ctx.IndexesFilled l.subterms)
    (ha : ∀ x ∈ l.subterms, ctx'.Absorbs x) (hw : (ctx'.typeOf l).Whole) (hc : ctx.foreachIssues v l = []) :
    ctx'.foreachIssues v l = [] := by
  simp only [foreachIssues, List.append_eq_nil_iff] at hc ⊢
  obtain ⟨⟨hcv, hcl⟩, hc⟩ := hc
  have hv := identifier_fades h hcv
  have hl := inferCall_fades h hk false l hf ha hcl
  refine ⟨⟨hv.issues, hl.issues⟩, ?_⟩
  obtain ht | ht := hl.type.keptOrLost hw
  · have htype : (ctx'.infer l).type = (ctx.infer l).type := ht
    rw [htype]
    cases hlt : (ctx.infer l).type with
    | noType => rfl
    | list elems =>
      simp only [hlt, h.table.sameElements, h.table.equivalent, List.append_eq_nil_iff] at hc ⊢
      refine ⟨hc.1, ?_⟩
      obtain hvt | hvt := (hv.place (isPlace_identifier ctx v)).2
      · rw [hvt]
        exact hc.2
      · simp [hvt, Ty.isNoType_noType]
    | _ => simp [hlt] at hc
  · have htype : (ctx'.infer l).type = .noType := ht
    rw [htype]

end

theorem optionIssues_fades {α : Type} {issues issues' : α → List Diagnostic} {inside : α → List Expr}
    (hi : ∀ a, ctx.IndexesFilled (inside a) → (∀ x ∈ inside a, ctx'.Absorbs x) → issues a = [] → issues' a = [])
    {o : Option α} (hf : ctx.IndexesFilled (o.toList.flatMap inside))
    (ha : ∀ x ∈ o.toList.flatMap inside, ctx'.Absorbs x) (hc : optionIssues issues o = []) :
    optionIssues issues' o = [] := by
  cases o with
  | none => rfl
  | some a => exact hi a (by simpa using hf) (by simpa using ha) hc

mutual

theorem stmtIssues_fades (h : ctx.Fades ctx') (hk : ctx.Known) (inLoop : Bool) (s : Stmt)
    (hf : ctx.IndexesFilled s.values) (ha : ∀ x ∈ s.subterms, ctx'.Absorbs x)
    (hw : ∀ l ∈ s.loops, (ctx'.typeOf l).Whole) (hc : ctx.stmtIssues inLoop s = []) :
    ctx'.stmtIssues inLoop s = [] := by
  match s with
  | .assign a => exact assignIssues_fades h hk hf ha hc
  | .block _ ss => exact stmtsIssues_fades h hk inLoop ss hf ha hw hc
  | .cond _ c y n =>
    simp only [stmtIssues, List.append_eq_nil_iff] at hc ⊢
    obtain ⟨hac, han⟩ := List.forall_mem_append.1 ha
    obtain ⟨hac, hay⟩ := List.forall_mem_append.1 hac
    obtain ⟨hwy, hwn⟩ := List.forall_mem_append.1 hw
    obtain ⟨hfy, hfn⟩ := hf.of_append
    obtain ⟨hfc, hfy⟩ := hfy.of_append
    exact ⟨⟨conditionIssues_fades h hk hfc hac hc.1.1, stmtIssues_fades h hk inLoop y hfy hay hwy hc.1.2⟩,
      elseIssues_fades h hk inLoop n hfn han hwn hc.2⟩
  | .call t f as =>
    have hfc : ctx.IndexesFilled (Expr.call t f as).subterms := IndexesFilled.cons (by simp) hf
    exact (inferCall_fades h hk true _ hfc ha hc).issues
  | .print t x =>
    simp only [stmtIssues, List.append_eq_nil_iff] at hc ⊢
    have hx := inferCall_fades h hk false x hf ha hc.1
    have hprint := eq_true_of_not_reported hc.2
    refine ⟨hx.issues, if_pos ?_⟩
    obtain ht | ht := hx.type.keptOrLost_of_isPrintable hprint
    · exact ht ▸ hprint
    · have htype : (ctx'.infer x).type = .noType := ht
      rw [htype]
      rfl
  | .ret t v => exact returnIssues_fades h hk hf ha hc
  | .for _ i c u b =>
    simp only [stmtIssues, List.append_eq_nil_iff] at hc ⊢
    obtain ⟨hau, hab⟩ := List.forall_mem_append.1 ha
    obtain ⟨hac, hau⟩ := List.forall_mem_append.1 hau
    obtain ⟨hai, hac⟩ := List.forall_mem_append.1 hac
    obtain ⟨hfu, hfb⟩ := hf.of_append
    obtain ⟨hfc, hfu⟩ := hfu.of_append
    obtain ⟨hfi, hfc⟩ := hfc.of_append
    exact ⟨⟨⟨optionIssues_fades (fun _ => assignIssues_fades h hk) hfi hai hc.1.1.1,
      optionIssues_fades (fun _ => conditionIssues_fades h hk) hfc hac hc.1.1.2⟩,
      optionIssues_fades (fun _ => assignIssues_fades h hk) hfu hau hc.1.2⟩,
      stmtIssues_fades h hk true b hfb hab hw hc.2⟩
  | .foreach _ v l b =>
    simp only [stmtIssues, List.append_eq_nil_iff] at hc ⊢
    obtain ⟨-, hal⟩ := List.forall_mem_cons.1 ha
    obtain ⟨hal, hab⟩ := List.forall_mem_append.1 hal
    obtain ⟨hwl, hwb⟩ := List.forall_mem_cons.1 hw
    obtain ⟨hfl, hfb⟩ := hf.of_cons.of_append
    exact ⟨foreachIssues_fades h hk hfl hal hwl hc.1, stmtIssues_fades h hk true b hfb hab hwb hc.2⟩
  | .break _ | .continue _ => exact hc

theorem stmtsIssues_fades (h : ctx.Fades ctx') (hk : ctx.Known) (inLoop : Bool) (ss : List Stmt)
    (hf : ctx.IndexesFilled (Stmt.valuesOfAll ss)) (ha : ∀ x ∈ Stmt.subtermsOfAll ss, ctx'.Absorbs x)
    (hw : ∀ l ∈ Stmt.loopsOfAll ss, (ctx'.typeOf l).Whole) (hc : ctx.stmtsIssues inLoop ss = []) :
    ctx'.stmtsIssues inLoop ss = [] := by
  match ss with
  | [] => rfl
  | s :: ss =>
    simp only [stmtsIssues, List.append_eq_nil_iff] at hc ⊢
    obtain ⟨has, hass⟩ := List.forall_mem_append.1 ha
    obtain ⟨hws, hwss⟩ := List.forall_mem_append.1 hw
    obtain ⟨hfs, hfss⟩ := hf.of_append
    exact ⟨stmtIssues_fades h hk inLoop s hfs has hws hc.1, stmtsIssues_fades h hk inLoop ss hfss hass hwss hc.2⟩

theorem elseIssues_fades (h : ctx.Fades ctx') (hk : ctx.Known) (inLoop : Bool) (s : Option Stmt)
    (hf : ctx.IndexesFilled (Stmt.valuesOfElse s)) (ha : ∀ x ∈ Stmt.subtermsOfElse s, ctx'.Absorbs x)
    (hw : ∀ l ∈ Stmt.loopsOfElse s, (ctx'.typeOf l).Whole) (hc : ctx.elseIssues inLoop s = []) :
    ctx'.elseIssues inLoop s = [] := by
  match s with
  | none => rfl
  | some s => exact stmtIssues_fades h hk inLoop s hf ha hw hc

end

/-- All of a body absorbs `noType`. -/
structure AbsorbsAll (ctx : Context) : Prop where
  exprs : ∀ e ∈ ctx.method.subterms, ctx.Absorbs e
  loops : ∀ l ∈ Stmt.loopsOfAll ctx.method.body, (ctx.typeOf l).Whole

theorem bodyIssues_fades (h : ctx.Fades ctx') (hk : ctx.Known) (hf : ctx.IndexesFilled ctx.method.values)
    (ha : ctx'.AbsorbsAll) (hc : ctx.bodyIssues = []) : ctx'.bodyIssues = [] := by
  obtain ⟨hexprs, hloops⟩ := ha
  unfold bodyIssues MethodDecl.subterms at *
  rw [h.method.body] at *
  exact stmtsIssues_fades h hk false ctx.method.body hf hexprs hloops hc

end Context

theorem VarDecl.Clean.fades {hasClass : String → Bool} {v w : VarDecl} (h : v.Retyped Ty.KeptOrLost w)
    (hc : v.Clean hasClass) : w.Clean hasClass := by
  unfold VarDecl.Clean at hc ⊢
  obtain ht | ht := h.type
  · rw [ht, h.token, h.name]
    exact hc
  · simp [ht, Ty.issues]

theorem MethodDecl.BodyClean.fades {p q : Program} {cls : String} {m m' : MethodDecl}
    (h : Context.Fades ⟨p, cls, m⟩ ⟨q, cls, m'⟩) (hk : Context.Known ⟨p, cls, m⟩)
    (hf : Context.IndexesFilled ⟨p, cls, m⟩ m.values) (ha : Context.AbsorbsAll ⟨q, cls, m'⟩)
    (hc : m.BodyClean p cls) : m'.BodyClean q cls := by
  refine ⟨fun w hw => ?_, Context.bodyIssues_fades h hk hf ha hc.body⟩
  obtain ⟨v, hv, hvw⟩ := exists_mem_of_forall₂ (List.rel_append h.method.args h.method.locals) hw
  rw [h.table.hasClass]
  exact VarDecl.Clean.fades hvw (hc.vars v hv)

end ClassCompiler
