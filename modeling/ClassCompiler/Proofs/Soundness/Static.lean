import ClassCompiler.Proofs.Compile.Admitted
import ClassCompiler.Proofs.Typing.Subtyping
import ClassCompiler.Proofs.Lists.Nulls

namespace ClassCompiler

namespace Ty

mutual

/-- The positions with names, in all lists of a type, are numbered with 32 bits. -/
def Addressed : Ty → Prop
  | .fptr ps r => AddressedAll ps ∧ r.Addressed
  | .list es => (∀ name i, position? es name = some i → i < 2 ^ 32) ∧ AddressedElems es
  | _ => True

def AddressedAll : List Ty → Prop
  | [] => True
  | t :: ts => t.Addressed ∧ AddressedAll ts

def AddressedElems : List (String × Ty) → Prop
  | [] => True
  | (_, t) :: es => t.Addressed ∧ AddressedElems es

end

mutual

/-- A type of declared classes, without `null` and `noType`, of which the positions with names have 32 bits. -/
def Solid (hasClass : String → Bool) : Ty → Prop
  | .null => False
  | .noType => False
  | .cls c => hasClass c = true
  | .fptr ps r => SolidAll hasClass ps ∧ r.Solid hasClass
  | .list es => (∀ name i, position? es name = some i → i < 2 ^ 32) ∧ SolidElems hasClass es
  | _ => True

def SolidAll (hasClass : String → Bool) : List Ty → Prop
  | [] => True
  | t :: ts => t.Solid hasClass ∧ SolidAll hasClass ts

def SolidElems (hasClass : String → Bool) : List (String × Ty) → Prop
  | [] => True
  | (_, t) :: es => t.Solid hasClass ∧ SolidElems hasClass es

end

theorem addressed_list {es : List (String × Ty)} (hlength : es.length ≤ 2 ^ 32) (h : AddressedElems es) :
    (Ty.list es).Addressed :=
  ⟨fun _ _ hi => Nat.lt_of_lt_of_le (List.findIdx?_eq_some_iff_findIdx_eq.1 hi).1 hlength, h⟩

variable {hasClass : String → Bool}

theorem solidAll_iff {ts : List Ty} : SolidAll hasClass ts ↔ ∀ t ∈ ts, t.Solid hasClass := by
  induction ts with
  | nil => simp [SolidAll]
  | cons t ts ih => simp [SolidAll, ih]

theorem solidElems_iff {es : List (String × Ty)} : SolidElems hasClass es ↔ ∀ e ∈ es, e.2.Solid hasClass := by
  induction es with
  | nil => simp [SolidElems]
  | cons e es ih => simp [SolidElems, ih]

mutual

theorem solid_of_written {pos : Pos} {name : String} (t : Ty) (hw : t.Written) (hc : t.issues hasClass pos name = [])
    (ha : t.Addressed) : t.Solid hasClass := by
  match t with
  | .int | .bool | .string | .void => trivial
  | .null | .noType => exact hw.elim
  | .cls c =>
    show hasClass c = true
    by_contra hne
    simp [Ty.issues, hne] at hc
  | .fptr ps r =>
    simp only [Ty.issues, List.append_eq_nil_iff] at hc
    exact ⟨solidAll_of_written ps hw.1 hc.1 ha.1, solid_of_written r hw.2 hc.2 ha.2⟩
  | .list [] => simp [Ty.issues] at hc
  | .list ((n, t) :: es) =>
    simp only [Ty.issues, List.append_eq_nil_iff] at hc
    exact ⟨ha.1, solid_of_written t hw.2.1 hc.1.2 ha.2.1, solidElems_of_written es hw.2.2 hc.2 ha.2.2⟩

theorem solidAll_of_written {pos : Pos} {name : String} (ts : List Ty) (hw : WrittenAll ts)
    (hc : issuesOfAll hasClass pos name ts = []) (ha : AddressedAll ts) : SolidAll hasClass ts := by
  match ts with
  | [] => trivial
  | t :: ts =>
    simp only [Ty.issuesOfAll, List.append_eq_nil_iff] at hc
    exact ⟨solid_of_written t hw.1 hc.1 ha.1, solidAll_of_written ts hw.2 hc.2 ha.2⟩

theorem solidElems_of_written {pos : Pos} {name : String} (es : List (String × Ty)) (hw : WrittenElems es)
    (hc : issuesOfElems hasClass pos name es = []) (ha : AddressedElems es) : SolidElems hasClass es := by
  match es with
  | [] => trivial
  | (n, t) :: es =>
    simp only [Ty.issuesOfElems, List.append_eq_nil_iff] at hc
    exact ⟨solid_of_written t hw.2.1 hc.1 ha.1, solidElems_of_written es hw.2.2 hc.2 ha.2⟩

end

/-- A value of the first type may stand where one of the second is expected, as classes are not related. -/
def Below (t u : Ty) : Prop := t.unnamed = u.unnamed ∨ t = .null ∧ u.isNullable = true

theorem Below.refl (t : Ty) : t.Below t := .inl rfl

section

variable {isA : String → String → Bool}

mutual

theorem unnamed_eq_of_solid (hA : ∀ a b, hasClass b = true → isA a b = true → a = b) (t u : Ty)
    (ht : t.Solid hasClass) (hu : u.Solid hasClass) (h : isSubtype isA t u = true) : t.unnamed = u.unnamed := by
  match t, u with
  | .null, _ | .noType, _ => exact ht.elim
  | .int, .int | .bool, .bool | .string, .string | .void, .void => rfl
  | .cls a, .cls b =>
    obtain rfl : a = b := (cls_isSubtype.1 h).elim id (hA a b hu)
    rfl
  | .fptr ps r, .fptr qs s =>
    simp only [isSubtype, Bool.and_eq_true] at h
    rw [unnamed, unnamed, unnamed_eq_of_solid hA r s ht.2 hu.2 h.1, unnamedAll_eq_of_solid hA ps qs ht.1 hu.1 h.2]
  | .list es, .list fs => rw [unnamed, unnamed, unnamedElems_eq_of_solid hA es fs ht.2 hu.2 h]

theorem unnamedAll_eq_of_solid (hA : ∀ a b, hasClass b = true → isA a b = true → a = b) (ts us : List Ty)
    (ht : SolidAll hasClass ts) (hu : SolidAll hasClass us) (h : allSubtypes isA ts us = true) :
    unnamedAll ts = unnamedAll us := by
  match ts, us with
  | [], [] => rfl
  | t :: ts, u :: us =>
    simp only [allSubtypes, Bool.and_eq_true] at h
    rw [unnamedAll, unnamedAll, unnamed_eq_of_solid hA t u ht.1 hu.1 h.1, unnamedAll_eq_of_solid hA ts us ht.2 hu.2 h.2]

theorem unnamedElems_eq_of_solid (hA : ∀ a b, hasClass b = true → isA a b = true → a = b) (es fs : List (String × Ty))
    (he : SolidElems hasClass es) (hf : SolidElems hasClass fs) (h : allElemSubtypes isA es fs = true) :
    unnamedElems es = unnamedElems fs := by
  match es, fs with
  | [], [] => rfl
  | (_, t) :: es, (_, u) :: fs =>
    simp only [allElemSubtypes, Bool.and_eq_true] at h
    rw [unnamedElems, unnamedElems, unnamed_eq_of_solid hA t u he.1 hf.1 h.1,
      unnamedElems_eq_of_solid hA es fs he.2 hf.2 h.2]

end

theorem below_of_isSubtype (hA : ∀ a b, hasClass b = true → isA a b = true → a = b) {t u : Ty}
    (ht : t = .null ∨ t.Solid hasClass) (hu : u.Solid hasClass) (h : isSubtype isA t u = true) : t.Below u := by
  obtain rfl | ht := ht
  · right
    cases u <;> simp_all [isSubtype, isNullable]
  · exact .inl (unnamed_eq_of_solid hA t u ht hu h)

end

mutual

@[simp] theorem unnamed_unnamed (t : Ty) : t.unnamed.unnamed = t.unnamed := by
  match t with
  | .int | .bool | .string | .null | .void | .noType | .cls _ => rfl
  | .fptr ps r => simp [unnamed, unnamedAll_unnamedAll ps, unnamed_unnamed r]
  | .list es => simp [unnamed, unnamedElems_unnamedElems es]

theorem unnamedAll_unnamedAll (ts : List Ty) : unnamedAll (unnamedAll ts) = unnamedAll ts := by
  match ts with
  | [] => rfl
  | t :: ts => simp [unnamedAll, unnamed_unnamed t, unnamedAll_unnamedAll ts]

theorem unnamedElems_unnamedElems (es : List (String × Ty)) : unnamedElems (unnamedElems es) = unnamedElems es := by
  match es with
  | [] => rfl
  | (_, t) :: es => simp [unnamedElems, unnamed_unnamed t, unnamedElems_unnamedElems es]

end

theorem unnamedElems_eq_map (es : List (String × Ty)) : unnamedElems es = es.map fun e => ("", e.2.unnamed) := by
  induction es with
  | nil => rfl
  | cons e es ih => simp [unnamedElems, ih]

theorem unnamedAll_eq_map (ts : List Ty) : unnamedAll ts = ts.map unnamed := by
  induction ts with
  | nil => rfl
  | cons t ts ih => simp [unnamedAll, ih]

theorem forall₂_below_of_unnamedAll_eq {ts us : List Ty} (h : unnamedAll ts = unnamedAll us) : List.Forall₂ Below ts us := by
  rw [unnamedAll_eq_map, unnamedAll_eq_map, ← List.forall₂_eq_eq_eq, List.forall₂_map_left_iff,
    List.forall₂_map_right_iff] at h
  exact h.imp fun _ _ => .inl

theorem Below.kind {t u : Ty} (h : t.Below u) : t.isPrimitive = u.isPrimitive := by
  obtain h | ⟨rfl, hu⟩ := h
  · cases t <;> cases u <;> simp_all [unnamed, isPrimitive]
  · cases u <;> simp_all [isNullable, isPrimitive]

end Ty

/-- A program without inheritance: no class has a parent, and every class has a name. -/
structure Program.Flat (p : Program) : Prop where
  roots : ∀ c ∈ p.classes, c.parentName = ""
  named : ∀ c ∈ p.classes, c.name.name ≠ ""

namespace Program.Flat

variable {p : Program} (h : p.Flat)

include h

theorem ancestors (name : String) : p.ancestors name = (p.class? name).toList := by
  cases hc : p.class? name with
  | none => rw [Program.ancestors_eq_nil hc]; rfl
  | some c =>
    have hmem := (findClass?_name hc).1
    have hlen : p.classes.length = p.classes.length - 1 + 1 := by
      have := List.length_pos_of_mem hmem
      omega
    have hfind : findClass? p.classes name = some c := hc
    have hend : ∀ (steps : Nat) (cs : List ClassDecl), (∀ d ∈ cs, d.name.name ≠ "") → ancestorsIn steps cs "" = [] := by
      intro steps cs hcs
      cases steps with
      | zero => rfl
      | succ steps =>
        have hnone : findClass? cs "" = none := List.find?_eq_none.2 fun d hd => by simpa using hcs d hd
        simp [ancestorsIn, hnone]
    rw [Program.ancestors, hlen, ancestorsIn]
    simp only [hfind, h.roots c hmem]
    rw [hend _ _ fun d hd => h.named d (List.mem_filter.1 hd).1]
    rfl

theorem eq_of_hasAncestor (a b : String) (hb : p.hasClass b = true) (hab : p.hasAncestor a b = true) : a = b := by
  obtain ⟨c, hc, rfl⟩ := (Program.hasAncestor_iff hb).1 hab
  rw [h.ancestors, Option.mem_toList] at hc
  exact (findClass?_name hc).2.symm

theorem field?_eq_some {cls name owner : String} {v : VarDecl} (hf : p.field? cls name = some (owner, v)) :
    ∃ c, p.class? cls = some c ∧ c.field? name = some v := by
  rw [Program.field?, h.ancestors] at hf
  cases hc : p.class? cls with
  | none => simp [hc] at hf
  | some c =>
    refine ⟨c, rfl, ?_⟩
    cases hv : c.field? name with
    | none => simp [hc, hv] at hf
    | some w => simp_all

theorem method?_eq_some {cls name : String} {r : String × MethodDecl} (hm : p.method? cls name = some r) :
    ∃ c, p.class? cls = some c ∧ r.1 = cls ∧ c.method? name = some r.2 := by
  rw [Program.method?, h.ancestors] at hm
  cases hc : p.class? cls with
  | none => simp [hc] at hm
  | some c =>
    simp only [hc, Option.toList_some, List.findSome?_cons, List.findSome?_nil] at hm
    cases hd : c.method? name with
    | none => simp [hd] at hm
    | some d =>
      obtain rfl : (c.name.name, d) = r := by simpa [hd] using hm
      exact ⟨c, rfl, (findClass?_name hc).2, hd⟩

end Program.Flat

/-- All declared types of a program are solid. -/
structure Program.Solid (p : Program) : Prop where
  fields : ∀ c ∈ p.classes, ∀ v ∈ c.fields, v.type.Solid p.hasClass
  vars : ∀ c ∈ p.classes, ∀ d ∈ c.bodies, ∀ v ∈ d.args ++ d.locals, v.type.Solid p.hasClass
  results : ∀ c ∈ p.classes, ∀ d ∈ c.bodies, d.result.Solid p.hasClass

/-- In all declared types of a program, the positions with names are numbered with 32 bits. -/
structure Program.Addressed (p : Program) : Prop where
  fields : ∀ c ∈ p.classes, ∀ v ∈ c.fields, v.type.Addressed
  vars : ∀ c ∈ p.classes, ∀ d ∈ c.bodies, ∀ v ∈ d.args ++ d.locals, v.type.Addressed
  results : ∀ c ∈ p.classes, ∀ d ∈ c.bodies, d.result.Addressed

theorem Program.Clean.solid {entry : String} {p : Program} (h : p.Clean entry) (hw : p.Written) (ha : p.Addressed) :
    p.Solid where
  fields c hc v hv := Ty.solid_of_written v.type ((hw c hc).fields v hv) ((h.classes c hc).fields v hv) (ha.fields c hc v hv)
  vars c hc d hd v hv := Ty.solid_of_written v.type (((hw c hc).bodies d hd).vars v hv) ((h.bodyClean hc hd).vars v hv)
    (ha.vars c hc d hd v hv)
  results c hc d hd := by
    have haddressed := ha.results c hc d hd
    have hclean : d.ResultClean p.hasClass := by
      rcases List.mem_append.1 hd with hk | hm
      · intro t ht
        simp [(hw c hc).constructor d (Option.mem_toList.1 hk)] at ht
      · exact ((h.classes c hc).methods d hm).result
    cases hr : d.returnType with
    | none =>
      simp only [MethodDecl.result, hr]
      trivial
    | some t =>
      simp only [MethodDecl.result, hr] at haddressed ⊢
      exact Ty.solid_of_written t (((hw c hc).bodies d hd).result t hr) (hclean t hr) haddressed

/-- The declared types that a body can refer to are solid. -/
structure Context.Solid (ctx : Context) : Prop where
  table : ctx.table.Solid
  vars : ∀ v ∈ ctx.method.args ++ ctx.method.locals, v.type.Solid ctx.table.hasClass
  result : ctx.method.result.Solid ctx.table.hasClass
  self : ctx.table.hasClass ctx.className = true

namespace Context

variable {ctx : Context}

def Plain (ctx : Context) : Expr → Prop
  | .list _ es => ∀ e ∈ es, ctx.typeOf e ≠ .null
  | _ => True

/-- No list literal among the expressions has an element of type `null`. -/
abbrev AllPlain (ctx : Context) (es : List Expr) : Prop := es.Forall ctx.Plain

theorem functionType_solid (hs : ctx.table.Solid) {c : ClassDecl} (hc : c ∈ ctx.table.classes) {d : MethodDecl}
    (hd : d ∈ c.methods) : d.functionType.Solid ctx.table.hasClass := by
  have hmem : d ∈ c.bodies := by simp [ClassDecl.bodies, hd]
  refine ⟨Ty.solidAll_iff.2 fun t ht => ?_, hs.results c hc d hmem⟩
  obtain ⟨v, hv, rfl⟩ := List.mem_map.1 ht
  exact hs.vars c hc d hmem v (by simp [hv])

theorem assignment_isPlace {pos : Pos} {l : Typed} {r : Ty} : (ctx.assignment pos l r).isPlace = false := by
  unfold assignment
  repeat' split
  all_goals rfl

mutual

/-- The type of an expression that nothing is wrong with is solid, or it is `null` and the expression no place. -/
theorem inferCall_solid (hk : ctx.Known) (hs : ctx.Solid) (dropped : Bool) (e : Expr) (hf : AllFilled e.subterms)
    (hp : ctx.AllPlain e.subterms) (h : (ctx.inferCall dropped e).issues = []) :
    (ctx.inferCall dropped e).type = .null ∧ (ctx.inferCall dropped e).isPlace = false ∨
      (ctx.inferCall dropped e).type.Solid ctx.table.hasClass := by
  -- By recursion on the expression. Only an assignment passes `null` on: it has the type of its right side.
  match e with
  | .ident id =>
    obtain ⟨sym, hsym⟩ := symbol?_of_identifier h
    obtain ⟨v, hv, ht⟩ := MethodDecl.symbol?_mem hsym
    right
    simp only [inferCall, identifier, hsym, Typed.place, ← ht]
    exact hs.vars v hv
  | .member t x m =>
    simp only [inferCall, List.append_eq_nil_iff] at h ⊢
    simp only [Expr.subterms, List.forall_cons] at hf hp
    have hx := inferCall_solid hk hs false x hf.2 hp.2 h.1
    right
    rcases memberAccess_cases (inferCall_known hk false x hf.2 h.1).isNoType h.2 with
      ⟨c, hc, v, hv, hty⟩ | ⟨c, hc, d, hd, hty⟩ | ⟨es, he, e, hmem, hty⟩
    · exact hty ▸ hs.table.fields c hc v hv
    · exact hty ▸ functionType_solid hs.table hc hd
    · rw [he] at hx
      exact hty ▸ Ty.solidElems_iff.1 (hx.resolve_left (by simp)).2 e hmem
  | .index t x i =>
    simp only [inferCall, List.append_eq_nil_iff] at h ⊢
    simp only [Expr.subterms, List.cons_append, List.forall_cons, List.forall_append] at hf hp
    have hx := inferCall_solid hk hs false x hf.2.1 hp.2.1 h.1.2
    have hknown := inferCall_known hk false x hf.2.1 h.1.2
    have hint := eq_int_of_indexIssues (inferCall_known hk false i hf.2.2 h.1.1.1).isNoType h.1.1.2
    cases hxt : (ctx.inferCall false x).type with
    | list es =>
      rw [hxt] at h hx hknown
      rw [hint] at h ⊢
      obtain ⟨hne, hes⟩ := Ty.known_list_iff.1 hknown
      obtain ⟨e, he, hty⟩ := elementAccess_mem hne (fun e he => (hes e he).isNoType) h.2
      exact .inr (hty ▸ Ty.solidElems_iff.1 (hx.resolve_left (by simp)).2 e he)
    | noType => exact absurd hknown (by simp [hxt, Ty.Known])
    | _ => simp [hxt, indexAccess, Typed.place] at h
  | .binary t op l r =>
    simp only [Expr.subterms, List.cons_append, List.forall_cons, List.forall_append] at hf hp
    by_cases hop : op = .assign
    · subst hop
      simp only [inferCall, List.append_eq_nil_iff] at h ⊢
      obtain ⟨-, -, hty⟩ := assignment_known (inferCall_known hk false l hf.2.1 h.1.1.1).isNoType
        (inferCall_known hk false r hf.2.2 h.1.2).isNoType h.1.1.2 h.2
      rw [hty, assignment_isPlace]
      exact (inferCall_solid hk hs false r hf.2.2 hp.2.2 h.1.2).imp_left fun hr => ⟨hr.1, rfl⟩
    · rw [inferCall_operation hop] at h ⊢
      simp only [List.append_eq_nil_iff] at h
      have hknown := operation_known hop (inferCall_known hk false l hf.2.1 h.1.1).isNoType
        (inferCall_known hk false r hf.2.2 h.1.2).isNoType h.2
      have htype := ctx.operation_type t.pos op (ctx.inferCall false l).type (ctx.inferCall false r).type
      simp only [List.mem_cons, List.not_mem_nil, or_false] at htype
      rcases htype with hty | hty | hty
      · exact .inr (hty ▸ trivial)
      · exact .inr (hty ▸ trivial)
      · rw [hty] at hknown
        exact hknown.elim
  | .unary t op x =>
    simp only [inferCall, List.append_eq_nil_iff] at h ⊢
    simp only [Expr.subterms, List.forall_cons] at hf
    have hx := inferCall_known hk false x hf.2 h.1
    right
    split
    · next hop =>
      simp only [hop, if_true] at h
      rw [(increment_known hx.isNoType h.2).2.2]
      trivial
    · next hop =>
      simp only [hop] at h
      obtain ⟨hty, hxt⟩ := negation_known hx.isNoType h.2
      rw [hty, hxt]
      split <;> trivial
  | .call t f as =>
    simp only [inferCall, List.append_eq_nil_iff] at h ⊢
    simp only [Expr.subterms, List.cons_append, List.forall_cons, List.forall_append] at hf hp
    have hft := inferCall_solid hk hs false f hf.2.1 hp.2.1 h.1.1.1
    obtain ⟨ps, r, he, -, -, ht⟩ := callResult_known (inferCall_known hk false f hf.2.1 h.1.1.1).isNoType h.1.1.2 h.2
    rw [he] at hft
    exact .inr (ht ▸ (hft.resolve_left (by simp)).2)
  | .new t c as =>
    simp only [inferCall, List.append_eq_nil_iff] at h ⊢
    obtain ⟨hc, -, hty⟩ := creation_ok h.1.1 h.2
    exact .inr (hty ▸ hc)
  | .list t es =>
    simp only [inferCall, Typed.value] at h ⊢
    simp only [Expr.subterms, List.forall_cons] at hf hp
    refine .inr ⟨fun name i hi => ?_, Ty.solidElems_iff.2 fun x hx => ?_⟩
    · obtain ⟨hlt, hfound, -⟩ := List.findIdx?_eq_some_iff_getElem.1 hi
      simp at hfound
    · obtain ⟨u, hu, rfl⟩ := List.mem_map.1 hx
      refine (inferAll_solid hk hs es hf.2 hp.2 h u hu).resolve_left ?_
      rw [types_inferAll] at hu
      obtain ⟨e, he, rfl⟩ := List.mem_map.1 hu
      exact hp.1 e he
  | .this _ => exact .inr hs.self
  | .null _ => exact .inl ⟨rfl, rfl⟩
  | .int _ _ | .bool _ _ | .string _ _ => exact .inr trivial

theorem inferAll_solid (hk : ctx.Known) (hs : ctx.Solid) (es : List Expr) (hf : AllFilled (Expr.subtermsOfAll es))
    (hp : ctx.AllPlain (Expr.subtermsOfAll es)) (h : (ctx.inferAll es).issues = []) :
    ∀ t ∈ (ctx.inferAll es).types, t = .null ∨ t.Solid ctx.table.hasClass := by
  match es with
  | [] => simp [inferAll]
  | e :: es =>
    simp only [inferAll, List.append_eq_nil_iff] at h ⊢
    simp only [Expr.subtermsOfAll, List.forall_append] at hf hp
    exact List.forall_mem_cons.2 ⟨(inferCall_solid hk hs false e hf.1 hp.1 h.1).imp_left And.left,
      inferAll_solid hk hs es hf.2 hp.2 h.2⟩

end

/-- A body of a program without inheritance, of which the declared types are known and solid. -/
structure Sound (ctx : Context) : Prop where
  flat : ctx.table.Flat
  known : ctx.Known
  solid : ctx.Solid

section

variable {t u : Token} {e l r x i : Expr} {m : Ident} {dropped : Bool} {es : List (String × Ty)}

theorem Admits.solid (ha : ctx.Admits false e) (hs : ctx.Sound) (hp : ctx.AllPlain e.subterms) :
    ctx.typeOf e = .null ∨ (ctx.typeOf e).Solid ctx.table.hasClass :=
  (inferCall_solid hs.known hs.solid false e ha.filled hp ha.clean).imp_left And.left

theorem Sound.below (hs : ctx.Sound) {a b : Ty} (ha : a = .null ∨ a.Solid ctx.table.hasClass)
    (hb : b.Solid ctx.table.hasClass) (h : ctx.table.isSubtype a b = true) : a.Below b :=
  Ty.below_of_isSubtype hs.flat.eq_of_hasAncestor ha hb h

theorem Sound.symbol (hs : ctx.Sound) {name : String} {sym : Symbol} (h : ctx.method.symbol? name = some sym) :
    sym.type.Solid ctx.table.hasClass := by
  obtain ⟨v, hv, ht⟩ := MethodDecl.symbol?_mem h
  exact ht ▸ hs.solid.vars v hv

theorem Admits.elements_solid (ha : ctx.Admits false x) (hs : ctx.Sound) (hp : ctx.AllPlain x.subterms)
    (hx : ctx.typeOf x = .list es) : ∀ e ∈ es, e.2.Solid ctx.table.hasClass := by
  have hsolid := ha.solid hs hp
  rw [hx] at hsolid
  exact Ty.solidElems_iff.1 (hsolid.resolve_left (by simp)).2

theorem Admits.place_solid (ha : ctx.Admits false e) (hs : ctx.Sound) (hp : ctx.AllPlain e.subterms)
    (hplace : (ctx.inferCall false e).isPlace = true) : (ctx.typeOf e).Solid ctx.table.hasClass :=
  (inferCall_solid hs.known hs.solid false e ha.filled hp ha.clean).resolve_left fun hnull => by simp [hnull.2] at hplace

theorem Admits.assign_below (ha : ctx.Admits dropped (.binary t .assign l r)) (hs : ctx.Sound)
    (hp : ctx.AllPlain (Expr.binary t .assign l r).subterms) :
    ctx.typeOf (.binary t .assign l r) = ctx.typeOf r ∧ (ctx.typeOf r).Below (ctx.typeOf l) := by
  obtain ⟨hl, hr⟩ := ha.operands
  simp only [Expr.subterms, List.cons_append, List.forall_cons, List.forall_append] at hp
  obtain ⟨htype, hsub⟩ := ha.assign_types hs.known
  exact ⟨htype, hs.below (hr.solid hs hp.2.2) (hl.place_solid hs hp.2.1 (ha.assigns hs.known)) hsub⟩

theorem Admits.element_position (ha : ctx.Admits dropped (.member t x m)) (hs : ctx.Sound)
    (hp : ctx.AllPlain (Expr.member t x m).subterms) (hx : ctx.typeOf x = .list es) {k : Nat}
    (hk : Ty.position? es m.name = some k) :
    k < 2 ^ 32 ∧ ∃ e, es[k]? = some e ∧ ctx.typeOf (.member t x m) = e.2 := by
  obtain ⟨hxa, hname, -⟩ := ha.member
  simp only [Expr.subterms, List.forall_cons] at hp
  have hsolid := hxa.solid hs hp.2
  rw [hx] at hsolid
  obtain ⟨haddressed, helems⟩ := hsolid.resolve_left (by simp)
  have helems := Ty.solidElems_iff.1 helems
  refine ⟨haddressed m.name k hk, ?_⟩
  obtain ⟨hlt, hfound, hbefore⟩ := List.findIdx?_eq_some_iff_getElem.1 hk
  have hnotype : ∀ e ∈ es, e.2.isNoType = false := by
    intro e he
    have := helems e he
    cases ht : e.2 <;> simp_all [Ty.Solid, Ty.isNoType]
  have hfind : es.find? (fun e => e.1 = m.name || e.2.isNoType) = some es[k] := by
    rw [List.find?_eq_some_iff_getElem]
    simp only [Bool.and_eq_true, decide_eq_true_eq] at hfound hbefore
    refine ⟨by simp [hfound.2], k, hlt, rfl, fun j hj => ?_⟩
    have hn := hnotype es[j] (List.getElem_mem _)
    have hother : es[j].1 ≠ m.name := fun he => hbefore j hj ⟨he ▸ hname, he⟩
    simp [hn, hother]
  refine ⟨es[k], by simp [hlt], ?_⟩
  unfold typeOf infer at hx
  simp [typeOf, infer, inferCall, hx, memberAccess, hfind, Typed.place]

/-- An index stands for any position if all are of the type that the access has, or else for one that it names. -/
theorem Admits.index_position (ha : ctx.Admits dropped (.index t x i)) (hs : ctx.Sound)
    (hp : ctx.AllPlain (Expr.index t x i).subterms) : ∃ es, ctx.typeOf x = .list es ∧
      (ctx.typeOf (.index t x i)).Solid ctx.table.hasClass ∧
      ((∀ e ∈ es, e.2.unnamed = (ctx.typeOf (.index t x i)).unnamed) ∨
        ∃ (u : Token) (k : Nat) (e : String × Ty), i = .int u k ∧ k < 2 ^ 32 ∧ es[k]? = some e ∧ ctx.typeOf (.index t x i) = e.2) := by
  obtain ⟨hx, hi⟩ := ha.index
  obtain ⟨-, es, hxt, hclean, htype⟩ := ha.index_types hs.known
  simp only [Expr.subterms, List.cons_append, List.forall_cons, List.forall_append] at hp
  have hsolid := hx.elements_solid hs hp.2.1 hxt
  have hknown := hx.known hs.known
  rw [show (ctx.inferCall false x).type = .list es from hxt] at hknown
  obtain ⟨hne, hes⟩ := Ty.known_list_iff.1 hknown
  obtain ⟨e, es, rfl⟩ := List.exists_cons_of_ne_nil hne
  refine ⟨_, hxt, ?_⟩
  rw [elementAccess_eq (hes e (by simp)).isNoType] at hclean htype
  by_cases hsame : ctx.table.sameElements (e :: es) e.2 = true
  · rw [htype, if_pos hsame]
    refine ⟨hsolid e (by simp), .inl fun x hx => ?_⟩
    have hequiv := List.all_eq_true.1 hsame x hx
    rw [(hes x hx).isNoType, Bool.false_or, Program.equivalent, Ty.equivalent, Bool.and_eq_true] at hequiv
    exact Ty.unnamed_eq_of_solid hs.flat.eq_of_hasAncestor _ _ (hsolid x hx) (hsolid e (by simp)) hequiv.2
  · rw [if_neg hsame] at hclean htype
    cases i <;> simp only [literal?] at hclean htype
    case int u v =>
      by_cases hv : 0 ≤ v ∧ v < (e :: es).length
      · rw [if_pos hv] at htype
        obtain ⟨k, rfl⟩ := Int.eq_ofNat_of_zero_le hv.1
        have hlt : k < (e :: es).length := by omega
        have hbound : (Expr.int u k).Written := by simpa [Expr.subterms] using hi.written
        rw [Typed.place, Ty.elementAt, if_neg (by omega), Int.toNat_natCast, List.getElem?_eq_getElem hlt] at htype
        have hsolidk : (ctx.typeOf (.index t x (.int u k))).Solid ctx.table.hasClass :=
          htype ▸ hsolid _ (List.getElem_mem hlt)
        exact ⟨hsolidk, .inr ⟨u, k, (e :: es)[k], rfl, by have := hbound.2; omega, List.getElem?_eq_getElem hlt, htype⟩⟩
      · rw [if_neg hv] at hclean
        simp [Typed.place] at hclean
    all_goals simp [Typed.place] at hclean

theorem Sound.fits_below (hs : ctx.Sound) {params args : List Ty} (hparams : ∀ t ∈ params, t.Solid ctx.table.hasClass)
    (hargs : ∀ t ∈ args, t = .null ∨ t.Solid ctx.table.hasClass) (h : ctx.fits params args = true) :
    List.Forall₂ Ty.Below args params := by
  simp only [fits, Bool.and_eq_true, decide_eq_true_eq, List.all_eq_true] at h
  obtain ⟨hlen, hall⟩ := h
  refine List.forall₂_iff_zip.2 ⟨hlen.symm, fun {a b} hab => ?_⟩
  obtain ⟨ha, hb⟩ := List.of_mem_zip hab
  exact hs.below (hargs a ha) (hparams b hb) (hall (a, b) hab)

theorem Sound.params_solid (hs : ctx.Sound) (cls : String) :
    ∀ t ∈ ctx.table.constructorParams cls, t.Solid ctx.table.hasClass := by
  intro t ht
  unfold Program.constructorParams at ht
  cases hd : ctx.table.constructor? cls with
  | none => simp [hd] at ht
  | some d =>
    obtain ⟨c, hc, -, hcd⟩ := Program.constructor?_mem hd
    rw [hd] at ht
    obtain ⟨v, hv, rfl⟩ := List.mem_map.1 ht
    exact hs.solid.table.vars c hc d (by simp [ClassDecl.bodies, hcd]) v (by simp [hv])

theorem Sound.args_below (hs : ctx.Sound) {as : List Expr} (ha : ∀ e ∈ as, ctx.Admits false e)
    (hp : ctx.AllPlain (Expr.subtermsOfAll as)) {params : List Ty} (hparams : ∀ t ∈ params, t.Solid ctx.table.hasClass)
    (h : ctx.fits params (ctx.inferAll as).types = true) : List.Forall₂ Ty.Below (as.map ctx.typeOf) params := by
  rw [ctx.types_inferAll] at h
  refine hs.fits_below hparams (fun t ht => ?_) h
  obtain ⟨e, he, rfl⟩ := List.mem_map.1 ht
  exact (ha e he).solid hs (List.forall_iff_forall_mem.2 fun x hx =>
    List.forall_iff_forall_mem.1 hp x (Expr.subterms_subset he hx))

/-- What is called takes the arguments and has a solid result. -/
theorem Admits.call_below {f : Expr} {as : List Expr} (ha : ctx.Admits dropped (.call t f as)) (hs : ctx.Sound)
    (hp : ctx.AllPlain (Expr.call t f as).subterms) : ∃ ps r, ctx.typeOf f = .fptr ps r ∧
      List.Forall₂ Ty.Below (as.map ctx.typeOf) ps ∧ r.Solid ctx.table.hasClass ∧
      ctx.typeOf (.call t f as) = if r.isVoid then .noType else r := by
  obtain ⟨ps, r, hf, hfits, htype⟩ := ha.call_types hs.known
  obtain ⟨hfilled, hwritten, hclean⟩ := ha
  simp only [Expr.subterms, List.cons_append, List.forall_cons, List.forall_append] at hp hfilled hwritten
  simp only [inferCall, List.append_eq_nil_iff] at hclean
  have hsolid := Admits.solid ⟨hfilled.2.1, hwritten.2.1, hclean.1.1.1⟩ hs hp.2.1
  rw [hf] at hsolid
  obtain ⟨hps, hr⟩ := hsolid.resolve_left (by simp)
  exact ⟨ps, r, hf, hs.args_below (Admits.elements hfilled.2.2 hwritten.2.2 hclean.1.2) hp.2.2
    (Ty.solidAll_iff.1 hps) hfits, hr, htype⟩

theorem Admits.new_below {c : Ident} {as : List Expr} (ha : ctx.Admits dropped (.new t c as)) (hs : ctx.Sound)
    (hp : ctx.AllPlain (Expr.new t c as).subterms) : ctx.table.hasClass c.name = true ∧
      List.Forall₂ Ty.Below (as.map ctx.typeOf) (ctx.table.constructorParams c.name) ∧
      ctx.typeOf (.new t c as) = .cls c.name := by
  obtain ⟨hclass, hfits, htype⟩ := ha.new_types
  obtain ⟨hfilled, hwritten, hclean⟩ := ha
  simp only [Expr.subterms, List.forall_cons] at hp hfilled hwritten
  simp only [inferCall, List.append_eq_nil_iff] at hclean
  exact ⟨hclass, hs.args_below (Admits.elements hfilled.2 hwritten.2 hclean.1.2) hp.2 (hs.params_solid _) hfits, htype⟩

/-- The variable of a loop over a list is of the type of all elements. -/
theorem Admits.foreach_elements {v : Ident} {sym : Symbol} (ha : ctx.Admits false l) (hs : ctx.Sound)
    (hp : ctx.AllPlain l.subterms) (hl : ctx.typeOf l = .list es) (hv : ctx.method.symbol? v.name = some sym)
    (h : ctx.foreachIssues v l = []) : ∀ e ∈ es, e.2.unnamed = sym.type.unnamed := by
  have hsolid := ha.elements_solid hs hp hl
  have hsym := hs.symbol hv
  have hunnamed : ∀ {a b : Ty}, a.Solid ctx.table.hasClass → b.Solid ctx.table.hasClass →
      ctx.table.equivalent a b = true → a.unnamed = b.unnamed := by
    intro a b ha hb hab
    rw [Program.equivalent, Ty.equivalent, Bool.and_eq_true] at hab
    exact Ty.unnamed_eq_of_solid hs.flat.eq_of_hasAncestor _ _ ha hb hab.1
  have hnotype : ∀ {a : Ty}, a.Solid ctx.table.hasClass → a.isNoType = false := by
    intro a ha
    cases a <;> first | rfl | exact ha.elim
  cases es with
  | nil => simp
  | cons e es =>
    have he := hsolid e (by simp)
    have hidentifier : (ctx.identifier v).type = sym.type := by simp [identifier, hv, Typed.place]
    simp only [foreachIssues, List.append_eq_nil_iff, show (ctx.infer l).type = .list (e :: es) from hl,
      Ty.firstKnown_cons (hnotype he), hidentifier, hnotype he, hnotype hsym, Bool.false_or] at h
    have hsame : ctx.table.sameElements (e :: es) e.2 = true := by
      by_contra hne
      simp [hne] at h
    have hfirst : ctx.table.equivalent sym.type e.2 = true := by
      by_contra hne
      simp [hne] at h
    intro x hx
    have hxe := List.all_eq_true.1 hsame x hx
    rw [hnotype (hsolid x hx), Bool.false_or] at hxe
    exact (hunnamed he (hsolid x hx) hxe).symm.trans (hunnamed hsym he hfirst).symm

theorem Admits.return_below {pos : Pos} (ha : ctx.Admits false e) (hs : ctx.Sound) (hp : ctx.AllPlain e.subterms)
    (h : ctx.returnIssues pos (some e) = []) : (ctx.typeOf e).Below ctx.method.result := by
  simp only [returnIssues, List.append_eq_nil_iff] at h
  refine hs.below (ha.solid hs hp) hs.solid.result ?_
  by_contra hne
  simp [show (ctx.infer e).type = ctx.typeOf e from rfl, hne] at h

end

end Context

end ClassCompiler
