import ClassCompiler.Proofs.Compile.Accepted
import ClassCompiler.Proofs.Tree.Ancestors

namespace ClassCompiler

namespace Ty

/-- A value stands where another type is expected only if both are kept alike. -/
theorem isPrimitive_of_isSubtype {isA : String → String → Bool} {a b : Ty} (h : isSubtype isA a b = true)
    (ha : a.isNoType = false) : a.isPrimitive = b.isPrimitive := by
  cases a <;> cases b <;> simp_all [isSubtype, isPrimitive, isNoType]

end Ty

theorem Context.typeOf_member_field {ctx : Context} {t : Token} {x : Expr} {n : Ident} {c owner : String}
    {f : VarDecl} (ht : ctx.typeOf x = .cls c) (hf : ctx.table.field? c n.name = some (owner, f)) :
    ctx.typeOf (.member t x n) = f.type := by
  have hclass : ctx.table.hasClass c = true := by
    by_contra hne
    have hnone : ctx.table.class? c = none := by simpa [Program.hasClass] using hne
    simp [Program.field?, Program.ancestors_eq_nil hnone] at hf
  simp only [Context.typeOf, Context.infer] at ht
  simp [Context.typeOf, Context.infer, Context.inferCall, ht, Context.memberAccess, hclass, hf, Typed.place]

namespace Context

variable {ctx : Context}

/-- An expression that the checker admits; with `dropped`, a call whose value is not used. -/
structure Admits (ctx : Context) (dropped : Bool) (e : Expr) : Prop where
  filled : AllFilled e.subterms
  written : AllWritten e.subterms
  clean : (ctx.inferCall dropped e).issues = []

theorem Admits.known {e : Expr} {dropped : Bool} (h : ctx.Admits dropped e) (hk : ctx.Known) :
    (ctx.inferCall dropped e).type.Known := inferCall_known hk dropped e h.filled h.clean

theorem symbol?_of_identifier {v : Ident} (h : (ctx.identifier v).issues = []) :
    ∃ sym, ctx.method.symbol? v.name = some sym := by
  unfold identifier at h
  split at h
  · next sym hs => exact ⟨sym, hs⟩
  · simp [Typed.place] at h

/-- The member that a clean access finds: a field, a method, or a position of a list. -/
inductive FindsMember (ctx : Context) (t : Ty) (name : String) : Prop where
  | field {c owner : String} {f : VarDecl} (ht : t = .cls c) (hf : ctx.table.field? c name = some (owner, f))
  | method {c : String} {d : String × MethodDecl} (ht : t = .cls c) (hf : ctx.table.field? c name = none)
      (hm : ctx.table.method? c name = some d) (hp : ∀ pos, (ctx.memberAccess pos t name).isPlace = false)
  | element {es : List (String × Ty)} {i : Nat} (ht : t = .list es) (hi : Ty.position? es name = some i)

theorem findsMember {pos : Pos} {t : Ty} {name : String} (ht : t.Known) (hn : name ≠ "")
    (h : (ctx.memberAccess pos t name).issues = []) : ctx.FindsMember t name := by
  cases t with
  | noType => exact ht.elim
  | cls c =>
    cases hf : ctx.table.field? c name with
    | some r => exact .field rfl hf
    | none =>
      cases hc : ctx.table.hasClass c with
      | false => simp [memberAccess, hc, Typed.place] at h
      | true =>
        cases hm : ctx.table.method? c name with
        | some d => exact .method rfl hf hm fun pos => by simp [memberAccess, hc, hf, hm, Typed.value]
        | none => simp [memberAccess, hc, hf, hm, Typed.place] at h
  | list es =>
    cases hfind : es.find? (fun e => e.1 = name || e.2.isNoType) with
    | none => simp [memberAccess, hfind, Typed.place] at h
    | some e =>
      have hmem := List.mem_of_find?_eq_some hfind
      have hname : e.1 = name := by
        have := List.find?_some hfind
        simpa [((Ty.known_list_iff.1 ht).2 e hmem).isNoType] using this
      have hpos : (Ty.position? es name).isSome := by
        rw [Ty.position?, List.findIdx?_isSome, List.any_eq_true]
        exact ⟨e, hmem, by simp [hname, hn]⟩
      obtain ⟨i, hi⟩ := Option.isSome_iff_exists.1 hpos
      exact .element rfl hi
  | _ => simp [memberAccess, Typed.value] at h

/-- An expression that names storage is a variable, a position of a list or a member. -/
theorem place_cases {dropped : Bool} {e : Expr} (h : (ctx.inferCall dropped e).isPlace = true) :
    (∃ v, e = .ident v) ∨ (∃ t x i, e = .index t x i) ∨ ∃ t x m, e = .member t x m := by
  cases e with
  | ident v => exact .inl ⟨v, rfl⟩
  | index t x i => exact .inr (.inl ⟨t, x, i, rfl⟩)
  | member t x m => exact .inr (.inr ⟨t, x, m, rfl⟩)
  | binary t op l r =>
    cases op <;> simp only [inferCall, assignment, operation, operands, equality] at h <;>
      (repeat' split at h) <;> simp [Typed.value] at h
  | unary t op x =>
    simp only [inferCall, increment, negation] at h
    (repeat' split at h) <;> simp [Typed.value] at h
  | call t f as =>
    simp only [inferCall, callResult] at h
    (repeat' split at h) <;> simp [Typed.value] at h
  | new t c as =>
    simp only [inferCall, creation] at h
    (repeat' split at h) <;> simp [Typed.value] at h
  | _ => simp [inferCall, Typed.value] at h

section

variable {t u : Token} {x i : Expr} {m : Ident} {dropped : Bool}

theorem Admits.member (h : ctx.Admits dropped (.member t x m)) :
    ctx.Admits false x ∧ m.name ≠ "" ∧ (ctx.memberAccess t.pos (ctx.typeOf x) m.name).issues = [] := by
  obtain ⟨hf, hn, hc⟩ := h
  simp only [Expr.subterms, List.forall_cons] at hf hn
  simp only [inferCall, List.append_eq_nil_iff] at hc
  exact ⟨⟨hf.2, hn.2, hc.1⟩, hn.1, hc.2⟩

theorem Admits.index (h : ctx.Admits dropped (.index t x i)) : ctx.Admits false x ∧ ctx.Admits false i := by
  obtain ⟨hf, hn, hc⟩ := h
  simp only [Expr.subterms, List.cons_append, List.forall_cons, List.forall_append] at hf hn
  simp only [inferCall, List.append_eq_nil_iff] at hc
  exact ⟨⟨hf.2.1, hn.2.1, hc.1.2⟩, ⟨hf.2.2, hn.2.2, hc.1.1.1⟩⟩

theorem Admits.finds (h : ctx.Admits dropped (.member t x m)) (hk : ctx.Known) :
    ctx.FindsMember (ctx.typeOf x) m.name := by
  obtain ⟨hx, hn, hc⟩ := h.member
  exact findsMember (hx.known hk) hn hc

theorem Admits.operands {op : BinOp} {l r : Expr} (h : ctx.Admits dropped (.binary t op l r)) :
    ctx.Admits false l ∧ ctx.Admits false r := by
  obtain ⟨hf, hn, hc⟩ := h
  simp only [Expr.subterms, List.cons_append, List.forall_cons, List.forall_append] at hf hn
  have hc : (ctx.inferCall false l).issues = [] ∧ (ctx.inferCall false r).issues = [] := by
    cases op <;> simp only [inferCall, List.append_eq_nil_iff] at hc <;> simp [hc]
  exact ⟨⟨hf.2.1, hn.2.1, hc.1⟩, ⟨hf.2.2, hn.2.2, hc.2⟩⟩

theorem Admits.operand {op : UnOp} (h : ctx.Admits dropped (.unary t op x)) : ctx.Admits false x := by
  obtain ⟨hf, hn, hc⟩ := h
  simp only [Expr.subterms, List.forall_cons] at hf hn
  simp only [inferCall, List.append_eq_nil_iff] at hc
  exact ⟨hf.2, hn.2, hc.1⟩

theorem Admits.assigns {l r : Expr} (h : ctx.Admits dropped (.binary t .assign l r)) (hk : ctx.Known) :
    (ctx.inferCall false l).isPlace = true := by
  obtain ⟨hl, hr⟩ := h.operands
  have hc := h.clean
  simp only [inferCall, List.append_eq_nil_iff] at hc
  exact (assignment_known (hl.known hk).isNoType (hr.known hk).isNoType hc.1.1.2 hc.2).1

theorem Admits.increments {op : UnOp} (h : ctx.Admits dropped (.unary t op x)) (ho : op.isIncDec = true)
    (hk : ctx.Known) : (ctx.inferCall false x).isPlace = true := by
  have hc := h.clean
  simp only [inferCall, ho, if_true, List.append_eq_nil_iff] at hc
  exact (increment_known (h.operand.known hk).isNoType hc.2).1

end

theorem Admits.elements {es : List Expr} (hf : AllFilled (Expr.subtermsOfAll es))
    (hn : AllWritten (Expr.subtermsOfAll es)) (hc : (ctx.inferAll es).issues = []) :
    ∀ e ∈ es, ctx.Admits false e := by
  induction es with
  | nil => simp
  | cons e es ih =>
    simp only [Expr.subtermsOfAll, List.forall_append] at hf hn
    simp only [inferAll, List.append_eq_nil_iff] at hc
    exact List.forall_mem_cons.2 ⟨⟨hf.1, hn.1, hc.1⟩, ih hf.2 hn.2 hc.2⟩

section

variable {t u : Token} {l r x i : Expr} {dropped : Bool}

theorem typeOf_ident {v : Ident} {sym : Symbol} (hs : ctx.method.symbol? v.name = some sym) :
    ctx.typeOf (.ident v) = sym.type := by
  simp [typeOf, infer, inferCall, identifier, hs, Typed.place]

theorem typeOf_member_method {m : Ident} {c : String} {d : String × MethodDecl} (ht : ctx.typeOf x = .cls c)
    (hf : ctx.table.field? c m.name = none) (hm : ctx.table.method? c m.name = some d) :
    ctx.typeOf (.member t x m) = d.2.functionType := by
  have hclass : ctx.table.hasClass c = true := by
    by_contra hne
    have hnone : ctx.table.class? c = none := by simpa [Program.hasClass] using hne
    simp [Program.method?, Program.ancestors_eq_nil hnone] at hm
  simp only [typeOf, infer] at ht
  simp [typeOf, infer, inferCall, ht, memberAccess, hclass, hf, hm, Typed.value]

/-- The value assigned is the result, and it may stand for the place. -/
theorem Admits.assign_types (h : ctx.Admits dropped (.binary t .assign l r)) (hk : ctx.Known) :
    ctx.typeOf (.binary t .assign l r) = ctx.typeOf r ∧
      ctx.table.isSubtype (ctx.typeOf r) (ctx.typeOf l) = true := by
  obtain ⟨hl, hr⟩ := h.operands
  have hc := h.clean
  simp only [inferCall, List.append_eq_nil_iff] at hc
  obtain ⟨-, hsub, htype⟩ := assignment_known (hl.known hk).isNoType (hr.known hk).isNoType hc.1.1.2 hc.2
  exact ⟨htype, hsub⟩

theorem Admits.operation_clean {op : BinOp} (ho : op ≠ .assign) (h : ctx.Admits dropped (.binary t op l r)) :
    (ctx.operation t.pos op (ctx.typeOf l) (ctx.typeOf r)).issues = [] := by
  have hc := h.clean
  rw [inferCall_operation ho] at hc
  simp only [List.append_eq_nil_iff] at hc
  exact hc.2

theorem typeOf_operation {op : BinOp} (ho : op ≠ .assign) :
    ctx.typeOf (.binary t op l r) = (ctx.operation t.pos op (ctx.typeOf l) (ctx.typeOf r)).type := by
  rw [typeOf, infer, inferCall_operation ho]
  rfl

theorem operands_types {op : BinOp} {wanted : Ty → Bool} {res arg : Ty} (hw : ∀ t, wanted t = true → t = arg)
    (hl : (ctx.typeOf l).Known) (hr : (ctx.typeOf r).Known)
    (hc : (operands t.pos op wanted res (ctx.typeOf l) (ctx.typeOf r)).issues = []) :
    (operands t.pos op wanted res (ctx.typeOf l) (ctx.typeOf r)).type = res ∧ ctx.typeOf l = arg ∧
      ctx.typeOf r = arg := by
  obtain ⟨htype, hwl, hwr⟩ := operands_known hl.isNoType hr.isNoType hc
  exact ⟨htype, hw _ hwl, hw _ hwr⟩

theorem eq_int_of_isInt (t : Ty) (h : t.isInt = true) : t = .int := by cases t <;> simp_all [Ty.isInt]

theorem eq_bool_of_isBool (t : Ty) (h : t.isBool = true) : t = .bool := by cases t <;> simp_all [Ty.isBool]

theorem Admits.arith_types {op : BinOp} {a : ArithOp} (h : ctx.Admits dropped (.binary t op l r)) (hk : ctx.Known)
    (ho : op.arith? = some a) :
    ctx.typeOf (.binary t op l r) = .int ∧ ctx.typeOf l = .int ∧ ctx.typeOf r = .int := by
  obtain ⟨hl, hr⟩ := h.operands
  have hne := BinOp.ne_assign_of_arith? ho
  have hc := h.operation_clean hne
  rw [typeOf_operation hne]
  cases op <;> simp [BinOp.arith?] at ho <;>
    exact operands_types eq_int_of_isInt (hl.known hk) (hr.known hk) hc

theorem Admits.logical_types {op : BinOp} {exit : Jump × Int} (h : ctx.Admits dropped (.binary t op l r))
    (hk : ctx.Known) (ho : op.shortcut? = some exit) :
    ctx.typeOf (.binary t op l r) = .bool ∧ ctx.typeOf l = .bool ∧ ctx.typeOf r = .bool := by
  obtain ⟨hl, hr⟩ := h.operands
  have hne := BinOp.ne_assign_of_shortcut? ho
  have hc := h.operation_clean hne
  rw [typeOf_operation hne]
  cases op <;> simp [BinOp.shortcut?] at ho <;>
    exact operands_types eq_bool_of_isBool (hl.known hk) (hr.known hk) hc

theorem equality_isPrimitive {pos : Pos} {op : BinOp} {a b : Ty} (ha : a.isNoType = false) (hb : b.isNoType = false)
    (h : (ctx.equality pos op a b).issues = []) : a.isPrimitive = b.isPrimitive := by
  unfold equality at h
  split at h
  · simp [Typed.value] at h
  · split at h
    · next hn => cases a <;> cases b <;> simp_all [Ty.isNull, Ty.isNullable, Ty.isPrimitive]
    · split at h
      · next he =>
        simp only [Program.equivalent, Ty.equivalent, Bool.and_eq_true] at he
        exact Ty.isPrimitive_of_isSubtype he.1 ha
      · simp [ha, hb, Typed.value] at h

theorem Admits.compare_types {op : BinOp} (h : ctx.Admits dropped (.binary t op l r)) (hk : ctx.Known)
    (ho : op.isComparison = true) : ctx.typeOf (.binary t op l r) = .bool ∧
      (ctx.typeOf l).isPrimitive = (ctx.typeOf r).isPrimitive ∧
      (op = .lt ∨ op = .gt → (ctx.typeOf l).isPrimitive = true) := by
  obtain ⟨hl, hr⟩ := h.operands
  have hne := BinOp.ne_assign_of_isComparison ho
  have hc := h.operation_clean hne
  rw [typeOf_operation hne]
  have hlk := (hl.known hk).isNoType
  have hrk := (hr.known hk).isNoType
  cases op <;> simp [BinOp.isComparison] at ho
  case lt | gt =>
    obtain ⟨htype, hwl, hwr⟩ := operands_types eq_int_of_isInt (hl.known hk) (hr.known hk) hc
    exact ⟨htype, by rw [hwl, hwr], fun _ => by rw [hwl]; rfl⟩
  case eq | ne =>
    exact ⟨equality_known hlk hrk hc, equality_isPrimitive hlk hrk hc, by simp⟩

theorem Admits.negation_types {op : UnOp} (h : ctx.Admits dropped (.unary t op x)) (hk : ctx.Known)
    (ho : op.isIncDec = false) : ctx.typeOf (.unary t op x) = ctx.typeOf x ∧
      ctx.typeOf x = if op = .not then .bool else .int := by
  have hc := h.clean
  simp only [inferCall, ho, Bool.false_eq_true, if_false, List.append_eq_nil_iff] at hc
  obtain ⟨htype, hx⟩ := negation_known (h.operand.known hk).isNoType hc.2
  refine ⟨?_, hx⟩
  simp only [typeOf, infer, inferCall, ho, Bool.false_eq_true, if_false]
  exact htype

theorem Admits.change_types {op : UnOp} (h : ctx.Admits dropped (.unary t op x)) (hk : ctx.Known)
    (ho : op.isIncDec = true) : ctx.typeOf (.unary t op x) = .int ∧ ctx.typeOf x = .int := by
  have hc := h.clean
  simp only [inferCall, ho, if_true, List.append_eq_nil_iff] at hc
  obtain ⟨-, hx, htype⟩ := increment_known (h.operand.known hk).isNoType hc.2
  refine ⟨?_, hx⟩
  simp only [typeOf, infer, inferCall, ho, if_true]
  exact htype

theorem Admits.index_types (h : ctx.Admits dropped (.index t x i)) (hk : ctx.Known) :
    ctx.typeOf i = .int ∧ ∃ es, ctx.typeOf x = .list es ∧ (ctx.elementAccess i .int es).issues = [] ∧
      ctx.typeOf (.index t x i) = (ctx.elementAccess i .int es).type := by
  obtain ⟨hx, hi⟩ := h.index
  have hc := h.clean
  simp only [inferCall, List.append_eq_nil_iff] at hc
  have hint := eq_int_of_indexIssues (hi.known hk).isNoType hc.1.1.2
  rw [hint] at hc
  have hknown := hx.known hk
  refine ⟨hint, ?_⟩
  cases hxt : (ctx.inferCall false x).type with
  | list es =>
    rw [hxt] at hc
    refine ⟨es, hxt, hc.2, ?_⟩
    simp only [typeOf, infer, inferCall, hint, hxt]
    rfl
  | noType =>
    rw [hxt] at hknown
    exact hknown.elim
  | _ =>
    rw [hxt] at hc
    simp [indexAccess, Typed.place] at hc

theorem Admits.call_types {f : Expr} {as : List Expr} (h : ctx.Admits dropped (.call t f as)) (hk : ctx.Known) :
    ∃ ps res, ctx.typeOf f = .fptr ps res ∧ ctx.fits ps (ctx.inferAll as).types = true ∧
      ctx.typeOf (.call t f as) = if res.isVoid then .noType else res := by
  obtain ⟨hf, hn, hc⟩ := h
  simp only [Expr.subterms, List.cons_append, List.forall_cons, List.forall_append] at hf
  simp only [inferCall, List.append_eq_nil_iff] at hc
  have hfk := inferCall_known hk false f hf.2.1 hc.1.1.1
  obtain ⟨ps, res, hft, hfit, -, -⟩ := callResult_known hfk.isNoType hc.1.1.2 hc.2
  refine ⟨ps, res, hft, hfit, ?_⟩
  simp [typeOf, infer, inferCall, hft, callResult, hfit, Typed.value]

theorem Admits.new_types {c : Ident} {as : List Expr} (h : ctx.Admits dropped (.new t c as)) :
    ctx.table.hasClass c.name = true ∧
      ctx.fits (ctx.table.constructorParams c.name) (ctx.inferAll as).types = true ∧
      ctx.typeOf (.new t c as) = .cls c.name := by
  have hc := h.clean
  simp only [inferCall, List.append_eq_nil_iff] at hc
  exact creation_ok hc.1.1 hc.2

theorem conditionIssues_types {e : Expr} (hk : ctx.Known) (hf : AllFilled e.subterms)
    (hc : ctx.conditionIssues e = []) : ctx.typeOf e = .bool := by
  simp only [conditionIssues, List.append_eq_nil_iff] at hc
  have hknown := inferCall_known hk false e hf hc.1
  have htest := hc.2
  split at htest
  · next ht =>
    simp only [infer, hknown.isNoType, Bool.or_false] at ht
    exact eq_bool_of_isBool _ ht
  · cases htest

end

end Context

/-- A piece that the checker admits. -/
structure Piece.Admitted (ctx : Context) (p : Piece) : Prop where
  filled : AllFilled p.subterms
  written : AllWritten p.subterms
  clean : p.Clean ctx

theorem Piece.Admitted.admits {ctx : Context} {e : Expr} (h : (Piece.expr e).Admitted ctx) :
    ∃ dropped, ctx.Admits dropped e := by
  obtain ⟨dropped, hc⟩ := h.clean
  exact ⟨dropped, h.filled, h.written, hc⟩

theorem Rule.admitted {ctx : Context} {p : Piece} {s s' : Supply} {items : List Item}
    (hr : Rule ctx p s items s') (h : p.Admitted ctx) : Parts (fun q _ _ _ _ => q.Admitted ctx) items := by
  have hf := Parts.iff_forall_mem.1 (hr.forall_subterms (P := Expr.Filled) (fun _ _ _ => trivial) h.filled)
  have hn := Parts.iff_forall_mem.1 (hr.forall_subterms (P := Expr.Written) (fun _ _ _ => trivial) h.written)
  have hc := Parts.iff_forall_mem.1 (hr.clean h.clean)
  exact Parts.iff_forall_mem.2 fun q t c t' sp hm =>
    ⟨hf q t c t' sp hm, hn q t c t' sp hm, hc q t c t' sp hm⟩

/-- A body that the checker admits. -/
structure MethodDecl.Admitted (p : Program) (cls : String) (m : MethodDecl) : Prop where
  known : Context.Known ⟨p, cls, m⟩
  filled : AllFilled m.subterms
  written : AllWritten m.subterms
  clean : Context.bodyIssues ⟨p, cls, m⟩ = []

theorem Program.Clean.admitted {entry : String} {p : Program} (h : p.Clean entry) (hw : p.Written) {c : ClassDecl}
    (hc : c ∈ p.classes) {m : MethodDecl} (hm : m ∈ c.bodies) (hf : AllFilled m.subterms) : m.Admitted p c.name.name :=
  ⟨h.context_known hw hc hm, hf, ((hw c hc).bodies m hm).terms, (h.bodyClean hc hm).body⟩

theorem MethodDecl.Admitted.piece {p : Program} {cls : String} {m : MethodDecl} (h : m.Admitted p cls) :
    (Piece.stmts none m.body).Admitted ⟨p, cls, m⟩ := ⟨h.filled, h.written, h.clean⟩

end ClassCompiler
