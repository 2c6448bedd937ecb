import ClassCompiler.Proofs.Typing.Settled

namespace ClassCompiler

namespace Ty

mutual

def HasNull : Ty → Prop
  | .null => True
  | .list es => HasNullElems es
  | _ => False

def HasNullElems : List (String × Ty) → Prop
  | [] => False
  | (_, t) :: es => t.HasNull ∨ HasNullElems es

end

mutual

/-- The types that expressions have: a list with `null` in it has no names for its positions, and a method
answers nothing with `null` in it. -/
def Inferred : Ty → Prop
  | .fptr _ r => ¬r.HasNull ∧ r.Inferred
  | .list es => (HasNullElems es → ∀ e ∈ es, e.1 = "") ∧ InferredElems es
  | _ => True

def InferredElems : List (String × Ty) → Prop
  | [] => True
  | (_, t) :: es => t.Inferred ∧ InferredElems es

end

theorem hasNullElems_iff {es : List (String × Ty)} : HasNullElems es ↔ ∃ e ∈ es, e.2.HasNull := by
  induction es with
  | nil => simp [HasNullElems]
  | cons e es ih => simp [HasNullElems, ih]

theorem inferredElems_iff {es : List (String × Ty)} : InferredElems es ↔ ∀ e ∈ es, e.2.Inferred := by
  induction es with
  | nil => simp [InferredElems]
  | cons e es ih => simp [InferredElems, ih]

mutual

theorem not_hasNull_of_written (t : Ty) (h : t.Written) : ¬t.HasNull := by
  match t with
  | .int | .bool | .string | .void | .cls _ | .fptr _ _ | .noType => exact id
  | .null => exact h.elim
  | .list es => exact not_hasNullElems_of_written es h

theorem not_hasNullElems_of_written (es : List (String × Ty)) (h : WrittenElems es) : ¬HasNullElems es := by
  match es with
  | [] => exact id
  | (_, t) :: es =>
    rintro (hn | hn)
    · exact not_hasNull_of_written t h.2.1 hn
    · exact not_hasNullElems_of_written es h.2.2 hn

end

mutual

theorem inferred_of_written (t : Ty) (h : t.Written) : t.Inferred := by
  match t with
  | .int | .bool | .string | .void | .cls _ | .noType => trivial
  | .null => trivial
  | .fptr ps r => exact ⟨not_hasNull_of_written r h.2, inferred_of_written r h.2⟩
  | .list es => exact ⟨fun hn => (not_hasNullElems_of_written es h hn).elim, inferredElems_of_written es h⟩

theorem inferredElems_of_written (es : List (String × Ty)) (h : WrittenElems es) : InferredElems es := by
  match es with
  | [] => trivial
  | (_, t) :: es => exact ⟨inferred_of_written t h.2.1, inferredElems_of_written es h.2.2⟩

end

variable {isA : String → String → Bool}

theorem eq_null_of_equivalent {t : Ty} (h : equivalent isA t .null = true) : t = .null := by
  cases t <;> simp [equivalent, isSubtype] at h ⊢

theorem eq_list_of_equivalent {t : Ty} {es : List (String × Ty)} (h : equivalent isA t (.list es) = true) :
    ∃ fs, t = .list fs ∧ allElemSubtypes isA fs es = true ∧ allElemSubtypes isA es fs = true := by
  cases t <;> simp_all [equivalent, isSubtype]

mutual

theorem hasNull_of_equivalent (t u : Ty) (h : equivalent isA u t = true) (ht : t.HasNull) : u.HasNull := by
  match t with
  | .null =>
    rw [eq_null_of_equivalent h]
    trivial
  | .list es =>
    obtain ⟨fs, rfl, hfs, hes⟩ := eq_list_of_equivalent h
    exact hasNullElems_of_equivalent es fs hfs hes ht

theorem hasNullElems_of_equivalent (es fs : List (String × Ty)) (hfs : allElemSubtypes isA fs es = true)
    (hes : allElemSubtypes isA es fs = true) (h : HasNullElems es) : HasNullElems fs := by
  match es, fs with
  | (_, t) :: es, (_, u) :: fs =>
    simp only [allElemSubtypes, Bool.and_eq_true] at hfs hes
    rcases h with h | h
    · exact .inl (hasNull_of_equivalent t u (by simp [equivalent, hfs.1, hes.1]) h)
    · exact .inr (hasNullElems_of_equivalent es fs hfs.2 hes.2 h)

end

end Ty

namespace Context

variable {ctx : Context}

/-- The declared types that a body can refer to are types that can be written. -/
structure Written (ctx : Context) : Prop where
  table : ctx.table.Written
  vars : ∀ v ∈ ctx.method.args ++ ctx.method.locals, v.type.Written

/-- A variable has the type that is written, or none. -/
theorem identifier_written (hw : ctx.Written) (id : Ident) :
    (ctx.identifier id).type = .noType ∨ (ctx.identifier id).type.Written := by
  unfold identifier
  split
  · next s hs =>
    obtain ⟨v, hv, ht⟩ := MethodDecl.symbol?_mem hs
    exact .inr (ht ▸ hw.vars v hv)
  · exact .inl rfl

theorem functionType_inferred {m : MethodDecl} (h : m.Written) : m.functionType.Inferred := by
  have hr : m.result.Written := by
    unfold MethodDecl.result Ty.resultOfOption
    cases hm : m.returnType with
    | none => trivial
    | some t => exact h.result t hm
  exact ⟨Ty.not_hasNull_of_written _ hr, Ty.inferred_of_written _ hr⟩

theorem memberAccess_inferred (hw : ctx.Written) {pos : Pos} {t : Ty} {name : String} (ht : t.Inferred)
    (h : (ctx.memberAccess pos t name).issues = []) : (ctx.memberAccess pos t name).type.Inferred := by
  cases hn : t.isNoType with
  | true =>
    obtain rfl : t = .noType := by cases t <;> simp_all [Ty.isNoType]
    trivial
  | false =>
    rcases memberAccess_cases hn h with ⟨c, hc, v, hv, hty⟩ | ⟨c, hc, m, hm, hty⟩ | ⟨es, rfl, e, he, hty⟩
    · exact hty ▸ Ty.inferred_of_written _ ((hw.table c hc).fields v hv)
    · exact hty ▸ functionType_inferred ((hw.table c hc).bodies m (by simp [ClassDecl.bodies, hm]))
    · exact hty ▸ Ty.inferredElems_iff.1 ht.2 e he

/-- What stands at a position of a list is of one of its types, or of none. -/
theorem elementAccess_type (ctx : Context) (index : Expr) (it : Ty) (es : List (String × Ty)) :
    (ctx.elementAccess index it es).type = .noType ∨ ∃ e ∈ es, (ctx.elementAccess index it es).type = e.2 := by
  have hfirst : Ty.firstKnown es = .noType ∨ ∃ e ∈ es, Ty.firstKnown es = e.2 := by
    unfold Ty.firstKnown
    cases hf : es.find? (fun e => !e.2.isNoType) with
    | none => exact .inl rfl
    | some e => exact .inr ⟨e, List.mem_of_find?_eq_some hf, rfl⟩
  unfold elementAccess
  simp only
  split
  · simp only [Typed.place]
    split
    · exact .inl rfl
    · exact hfirst
  · split
    · exact .inl rfl
    · split
      · split
        · next hv =>
          simp only [Typed.place]
          split
          · exact .inl rfl
          · simp only [Bool.and_eq_true, decide_eq_true_eq] at hv
            exact .inr (elementAt_mem hv.1 hv.2)
        · exact .inl rfl
      · exact .inl rfl

theorem indexAccess_inferred {pos : Pos} {index : Expr} {it t : Ty} (ht : t.Inferred) :
    (ctx.indexAccess pos index it t).type.Inferred := by
  cases t with
  | list es =>
    rcases ctx.elementAccess_type index it es with hn | ⟨e, he, hty⟩
    · exact hn ▸ trivial
    · exact hty ▸ Ty.inferredElems_iff.1 ht.2 e he
  | _ => trivial

theorem operation_type (ctx : Context) (pos : Pos) (op : BinOp) (l r : Ty) :
    (ctx.operation pos op l r).type ∈ [Ty.int, .bool, .noType] := by
  have hoperands : ∀ wanted res, res ∈ [Ty.int, .bool] →
      (operands pos op wanted res l r).type ∈ [Ty.int, .bool, .noType] := by
    intro wanted res hres
    unfold operands Typed.value
    split
    · simp only
      split
      · simp
      · rcases List.mem_cons.1 hres with rfl | hres
        · simp
        · simp_all
    · simp
  have hequality : (ctx.equality pos op l r).type ∈ [Ty.int, .bool, .noType] := by
    unfold equality Typed.value
    repeat' split
    all_goals simp
  cases op <;> simp only [operation] <;> first | exact hequality | exact hoperands _ _ (by simp) | simp [Typed.value]

theorem unary_type (pos : Pos) (op : UnOp) (x : Typed) :
    (if op.isIncDec then increment pos op x else negation pos op x.type).type ∈ [Ty.int, .bool, .noType] := by
  split
  · unfold increment Typed.value
    simp only
    repeat' split
    all_goals simp
  · unfold negation Typed.value
    cases x.type <;> cases op <;> simp [Ty.isNoType, Ty.isBool, Ty.isInt]

theorem callResult_type (ctx : Context) (pos : Pos) (dropped : Bool) (f : Ty) (as : List Ty) :
    (ctx.callResult pos dropped f as).type = .noType ∨
      ∃ ps r, f = .fptr ps r ∧ (ctx.callResult pos dropped f as).type = r := by
  unfold callResult Typed.value
  cases f with
  | fptr ps r =>
    simp only
    split
    · simp only
      split <;> simp
    · exact .inl rfl
  | _ => exact .inl rfl

theorem creation_type (ctx : Context) (pos : Pos) (name : String) (as : List Ty) :
    (ctx.creation pos name as).type = .noType ∨ (ctx.creation pos name as).type = .cls name := by
  unfold creation Typed.value
  split
  · simp only
    generalize ctx.fits _ as = b
    cases b <;> simp
  · simp

theorem assignment_type (ctx : Context) (pos : Pos) (l : Typed) (r : Ty) :
    (ctx.assignment pos l r).type = .noType ∨ (ctx.assignment pos l r).type = r := by
  unfold assignment Typed.value
  repeat' split
  all_goals simp

mutual

theorem inferCall_inferred (hw : ctx.Written) (dropped : Bool) (e : Expr) (h : (ctx.inferCall dropped e).issues = []) :
    (ctx.inferCall dropped e).type.Inferred := by
  match e with
  | .ident id =>
    rcases identifier_written hw id with hn | ht
    · exact hn ▸ trivial
    · exact Ty.inferred_of_written _ ht
  | .member t x m =>
    simp only [inferCall, List.append_eq_nil_iff] at h ⊢
    exact memberAccess_inferred hw (inferCall_inferred hw false x h.1) h.2
  | .index t x i =>
    simp only [inferCall, List.append_eq_nil_iff] at h ⊢
    exact indexAccess_inferred (inferCall_inferred hw false x h.1.2)
  | .binary t op l r =>
    by_cases hop : op = .assign
    · subst hop
      simp only [inferCall, List.append_eq_nil_iff] at h ⊢
      have hr := inferCall_inferred hw false r h.1.2
      rcases ctx.assignment_type t.pos (ctx.inferCall false l) (ctx.inferCall false r).type with hty | hty
      · exact hty ▸ trivial
      · rw [hty]
        exact hr
    · rw [inferCall_operation hop]
      have htype := ctx.operation_type t.pos op (ctx.inferCall false l).type (ctx.inferCall false r).type
      simp only [List.mem_cons, List.not_mem_nil, or_false] at htype
      rcases htype with hty | hty | hty <;> exact hty ▸ trivial
  | .unary t op x =>
    simp only [inferCall]
    have htype := unary_type t.pos op (ctx.inferCall false x)
    simp only [List.mem_cons, List.not_mem_nil, or_false] at htype
    rcases htype with hty | hty | hty <;> exact hty ▸ trivial
  | .call t f as =>
    simp only [inferCall, List.append_eq_nil_iff] at h ⊢
    have hf := inferCall_inferred hw false f h.1.1.1
    rcases ctx.callResult_type t.pos dropped (ctx.inferCall false f).type (ctx.inferAll as).types with hty | ⟨ps, r, he, hty⟩
    · exact hty ▸ trivial
    · rw [he] at hf
      exact hty ▸ hf.2
  | .new t c as =>
    simp only [inferCall]
    rcases ctx.creation_type t.pos c.name (ctx.inferAll as).types with hty | hty <;> exact hty ▸ trivial
  | .list t es =>
    simp only [inferCall, Typed.value] at h ⊢
    refine ⟨fun _ x hx => ?_, Ty.inferredElems_iff.2 fun x hx => ?_⟩
    · obtain ⟨u, hu, rfl⟩ := List.mem_map.1 hx
      rfl
    · obtain ⟨u, hu, rfl⟩ := List.mem_map.1 hx
      exact inferAll_inferred hw es h u hu
  | .this _ | .null _ | .int _ _ | .bool _ _ | .string _ _ => trivial

theorem inferAll_inferred (hw : ctx.Written) (es : List Expr) (h : (ctx.inferAll es).issues = []) :
    ∀ t ∈ (ctx.inferAll es).types, t.Inferred := by
  match es with
  | [] => simp [inferAll]
  | e :: es =>
    simp only [inferAll, List.append_eq_nil_iff] at h ⊢
    exact List.forall_mem_cons.2 ⟨inferCall_inferred hw false e h.1, inferAll_inferred hw es h.2⟩

end

theorem types_inferAll (ctx : Context) (es : List Expr) : (ctx.inferAll es).types = es.map ctx.typeOf := by
  induction es with
  | nil => rfl
  | cons e es ih => simp [inferAll, typeOf, infer, ih]

theorem typeOf_list (ctx : Context) (t : Token) (es : List Expr) :
    ctx.typeOf (.list t es) = .list ((es.map ctx.typeOf).map fun u => ("", u)) := by
  rw [← ctx.types_inferAll]
  rfl

/-- A member of a list has a name, and a list with `null` in it has none. -/
theorem memberAccess_not_hasNull (hw : ctx.Written) {pos : Pos} {t : Ty} {name : String} (ht : t.Inferred)
    (hname : name ≠ "") (h : (ctx.memberAccess pos t name).issues = []) : ¬(ctx.memberAccess pos t name).type.HasNull := by
  intro hn
  cases t with
  | list es =>
    simp only [memberAccess] at hn
    cases hf : es.find? (fun e => e.1 = name || e.2.isNoType) with
    | none => simp [hf, Typed.place, Ty.HasNull] at hn
    | some e =>
      simp only [hf, Typed.place] at hn
      have hmem := List.mem_of_find?_eq_some hf
      have hunnamed := ht.1 (Ty.hasNullElems_iff.2 ⟨e, hmem, hn⟩) e hmem
      have hfound := List.find?_some hf
      simp only [hunnamed, Bool.or_eq_true, decide_eq_true_eq] at hfound
      rcases hfound with he | he
      · exact hname he.symm
      · cases het : e.2 <;> simp_all [Ty.isNoType, Ty.HasNull]
  | cls c =>
    rcases memberAccess_cases rfl h with ⟨c, hc, v, hv, hty⟩ | ⟨c, hc, m, hm, hty⟩ | ⟨es, he, -⟩
    · exact Ty.not_hasNull_of_written _ ((hw.table c hc).fields v hv) (hty ▸ hn)
    · rw [hty] at hn
      exact hn
    · cases he
  | _ => exact hn

theorem not_hasNull_of_mem {t : Ty} (h : t ∈ [Ty.int, .bool, .noType]) : ¬t.HasNull := by
  simp only [List.mem_cons, List.not_mem_nil, or_false] at h
  rcases h with rfl | rfl | rfl <;> exact id

/-- Where an expression has `null` in its type from. -/
theorem hasNull_cases (hw : ctx.Written) {e : Expr} (he : e.Written) {dropped : Bool}
    (h : (ctx.inferCall dropped e).issues = []) (hn : (ctx.typeOf e).HasNull) : (∃ t, e = .null t) ∨ (∃ t es, e = .list t es) ∨
      (∃ t x i es, e = .index t x i ∧ ctx.typeOf x = .list es ∧ (Ty.list es).HasNull) ∨
      ∃ t l r, e = .binary t .assign l r ∧ ctx.typeOf e = ctx.typeOf r := by
  unfold typeOf infer at *
  -- Declared types are written ones, which have no `null` in them: that excludes places, members and calls.
  match e with
  | .null t => exact .inl ⟨t, rfl⟩
  | .list t es => exact .inr (.inl ⟨t, es, rfl⟩)
  | .index t x i =>
    simp only [inferCall] at hn
    cases hx : (ctx.inferCall false x).type with
    | list es =>
      simp only [hx, indexAccess] at hn
      rcases ctx.elementAccess_type i (ctx.inferCall false i).type es with hty | ⟨e, hmem, hty⟩
      · rw [hty] at hn
        exact hn.elim
      · exact .inr (.inr (.inl ⟨t, x, i, es, rfl, hx, Ty.hasNullElems_iff.2 ⟨e, hmem, hty ▸ hn⟩⟩))
    | _ => simp [hx, indexAccess, Typed.place, Ty.HasNull] at hn
  | .binary t op l r =>
    by_cases hop : op = .assign
    · subst hop
      simp only [inferCall] at hn ⊢
      rcases ctx.assignment_type t.pos (ctx.inferCall false l) (ctx.inferCall false r).type with hty | hty
      · rw [hty] at hn
        exact hn.elim
      · exact .inr (.inr (.inr ⟨t, l, r, rfl, hty⟩))
    · rw [inferCall_operation hop] at hn
      exact (not_hasNull_of_mem (ctx.operation_type _ _ _ _) hn).elim
  | .ident id =>
    rcases identifier_written hw id with hty | hty
    · simp [inferCall, hty, Ty.HasNull] at hn
    · exact (Ty.not_hasNull_of_written _ hty hn).elim
  | .member t x m =>
    simp only [inferCall, List.append_eq_nil_iff] at h hn
    exact (memberAccess_not_hasNull hw (inferCall_inferred hw false x h.1) he h.2 hn).elim
  | .unary t op x =>
    simp only [inferCall] at hn
    exact (not_hasNull_of_mem (unary_type _ _ _) hn).elim
  | .call t f as =>
    simp only [inferCall, List.append_eq_nil_iff] at h hn
    have hf := inferCall_inferred hw false f h.1.1.1
    rcases ctx.callResult_type t.pos false (ctx.inferCall false f).type (ctx.inferAll as).types with hty | ⟨ps, r, he, hty⟩
    · rw [hty] at hn
      exact hn.elim
    · rw [he] at hf
      rw [hty] at hn
      exact (hf.1 hn).elim
  | .new t c as =>
    simp only [inferCall] at hn
    rcases ctx.creation_type t.pos c.name (ctx.inferAll as).types with hty | hty
    all_goals
      rw [hty] at hn
      exact hn.elim
  | .this _ | .int _ _ | .bool _ _ | .string _ _ => exact hn.elim

/-- The type of an index is that of the position that it names, up to equivalence. -/
theorem elementAccess_at {index : Expr} {it : Ty} {es : List (String × Ty)} {e : String × Ty} {k : Nat}
    (hn : (ctx.elementAccess index it es).type ≠ .noType) (hk : ∀ v, literal? index = some v → v = k)
    (he : es[k]? = some e) (hknown : e.2.isNoType = false) :
    (ctx.elementAccess index it es).type = e.2 ∨
      ctx.table.equivalent (ctx.elementAccess index it es).type e.2 = true := by
  unfold elementAccess Typed.place at hn ⊢
  simp only at hn ⊢
  split at hn
  · next hs =>
    simp only [hs, if_true] at hn ⊢
    split at hn
    · exact absurd rfl hn
    · next hfirst =>
      rw [if_neg hfirst]
      have hall := List.all_eq_true.1 hs e (List.mem_of_getElem? he)
      rw [hknown, Bool.false_or] at hall
      exact .inr hall
  · next hs =>
    rw [if_neg hs]
    split at hn
    · exact absurd rfl hn
    · next hit =>
      rw [if_neg hit]
      split at hn
      · next v hl =>
        obtain rfl := hk v hl
        split at hn
        · next hv =>
          simp only [hv, if_true]
          split at hn
          · exact absurd rfl hn
          · next hint =>
            rw [if_neg hint]
            left
            simp [Ty.elementAt, he, show ¬(k : Int) < 0 by omega]
        · exact absurd rfl hn
      · exact absurd rfl hn

end Context

end ClassCompiler
