import ClassCompiler.Proofs.Tree.Written
import ClassCompiler.Proofs.Typing.Clean
import Mathlib.Data.List.Nodup

namespace ClassCompiler

namespace Ty

mutual

def Known : Ty → Prop
  | .noType => False
  | .fptr ps r => KnownAll ps ∧ r.Known
  | .list [] => False
  | .list (e :: es) => e.2.Known ∧ KnownElems es
  | _ => True

def KnownAll : List Ty → Prop
  | [] => True
  | t :: ts => t.Known ∧ KnownAll ts

def KnownElems : List (String × Ty) → Prop
  | [] => True
  | (_, t) :: es => t.Known ∧ KnownElems es

end

theorem knownAll_iff {ts : List Ty} : KnownAll ts ↔ ∀ t ∈ ts, t.Known := by
  induction ts with
  | nil => simp [KnownAll]
  | cons t ts ih => simp [KnownAll, ih]

theorem knownElems_iff {es : List (String × Ty)} : KnownElems es ↔ ∀ e ∈ es, e.2.Known := by
  induction es with
  | nil => simp [KnownElems]
  | cons e es ih => simp [KnownElems, ih]

theorem known_list_iff {es : List (String × Ty)} :
    (Ty.list es).Known ↔ es ≠ [] ∧ ∀ e ∈ es, e.2.Known := by
  cases es with
  | nil => simp [Known]
  | cons e es => simp [Known, knownElems_iff]

theorem Known.isNoType {t : Ty} (h : t.Known) : t.isNoType = false := by
  cases t <;> simp_all [Known, Ty.isNoType]

mutual

theorem known_of_written {hasClass : String → Bool} {pos : Pos} {name : String} (t : Ty)
    (hw : t.Written) (h : t.issues hasClass pos name = []) : t.Known := by
  match t with
  | .int | .bool | .string | .null | .void | .cls _ => simp [Known]
  | .noType => exact hw.elim
  | .fptr ps r =>
    simp only [Ty.issues, List.append_eq_nil_iff] at h
    exact ⟨knownAll_of_written ps hw.1 h.1, known_of_written r hw.2 h.2⟩
  | .list [] => simp [Ty.issues] at h
  | .list ((n, t) :: es) =>
    simp only [Ty.issues, List.append_eq_nil_iff] at h
    exact ⟨known_of_written t hw.2.1 h.1.2, knownElems_of_written es hw.2.2 h.2⟩

theorem knownAll_of_written {hasClass : String → Bool} {pos : Pos} {name : String} (ts : List Ty)
    (hw : WrittenAll ts) (h : issuesOfAll hasClass pos name ts = []) : KnownAll ts := by
  match ts with
  | [] => trivial
  | t :: ts =>
    simp only [Ty.issuesOfAll, List.append_eq_nil_iff] at h
    exact ⟨known_of_written t hw.1 h.1, knownAll_of_written ts hw.2 h.2⟩

theorem knownElems_of_written {hasClass : String → Bool} {pos : Pos} {name : String}
    (es : List (String × Ty)) (hw : WrittenElems es)
    (h : issuesOfElems hasClass pos name es = []) : KnownElems es := by
  match es with
  | [] => trivial
  | (n, t) :: es =>
    simp only [Ty.issuesOfElems, List.append_eq_nil_iff] at h
    exact ⟨known_of_written t hw.2.1 h.1, knownElems_of_written es hw.2.2 h.2⟩

end

/-- Where all types are known the first known one is that of the first position. -/
theorem firstKnown_cons {e : String × Ty} {es : List (String × Ty)} (h : e.2.isNoType = false) :
    firstKnown (e :: es) = e.2 := by
  simp [firstKnown, h]

end Ty

theorem mem_of_mem_ancestorsIn {steps : Nat} {cs : List ClassDecl} {name : String} {c : ClassDecl}
    (h : c ∈ ancestorsIn steps cs name) : c ∈ cs := by
  induction steps generalizing cs name with
  | zero => simp [ancestorsIn] at h
  | succ steps ih =>
    unfold ancestorsIn at h
    split at h
    · simp at h
    · next d hd =>
      rcases List.mem_cons.1 h with rfl | h
      · exact List.mem_of_find?_eq_some hd
      · exact (List.mem_filter.1 (ih h)).1

namespace Program

theorem mem_of_mem_ancestors {p : Program} {name : String} {c : ClassDecl}
    (h : c ∈ p.ancestors name) : c ∈ p.classes := mem_of_mem_ancestorsIn h

theorem field?_mem {p : Program} {cls name owner : String} {v : VarDecl}
    (h : p.field? cls name = some (owner, v)) :
    ∃ c ∈ p.classes, c.name.name = owner ∧ v ∈ c.fields ∧ v.name.name = name := by
  obtain ⟨c, hc, hf⟩ := List.exists_of_findSome?_eq_some h
  simp only [Option.map_eq_some_iff, Prod.mk.injEq] at hf
  obtain ⟨w, hw, rfl, rfl⟩ := hf
  exact ⟨c, mem_of_mem_ancestors hc, rfl, List.mem_of_find?_eq_some hw,
    by simpa using List.find?_some hw⟩

theorem method?_mem {p : Program} {cls name owner : String} {m : MethodDecl}
    (h : p.method? cls name = some (owner, m)) :
    ∃ c ∈ p.classes, c.name.name = owner ∧ m ∈ c.methods ∧ m.name.name = name := by
  obtain ⟨c, hc, hf⟩ := List.exists_of_findSome?_eq_some h
  simp only [Option.map_eq_some_iff, Prod.mk.injEq] at hf
  obtain ⟨w, hw, rfl, rfl⟩ := hf
  exact ⟨c, mem_of_mem_ancestors hc, rfl, List.mem_of_find?_eq_some hw,
    by simpa using List.find?_some hw⟩

theorem constructor?_mem {p : Program} {cls : String} {m : MethodDecl}
    (h : p.constructor? cls = some m) :
    ∃ c ∈ p.classes, c.name.name = cls ∧ c.constructor = some m := by
  simp only [constructor?, Option.bind_eq_some_iff] at h
  obtain ⟨c, hc, hm⟩ := h
  exact ⟨c, List.mem_of_find?_eq_some hc, by simpa using List.find?_some hc, hm⟩

/-- The types of the arguments that an object of a class is created with. -/
def constructorParams (p : Program) (cls : String) : List Ty :=
  match p.constructor? cls with
  | some m => m.args.map VarDecl.type
  | none => []

end Program

theorem MethodDecl.symbol?_mem {m : MethodDecl} {name : String} {s : Symbol}
    (h : m.symbol? name = some s) : ∃ v ∈ m.args ++ m.locals, v.type = s.type := by
  have hs := List.mem_of_find?_eq_some h
  simp only [MethodDecl.symbols, List.mem_append, List.mem_map, Prod.exists] at hs
  rcases hs with ⟨v, i, hv, rfl⟩ | ⟨v, i, hv, rfl⟩
  · exact ⟨v, by simp [List.fst_mem_of_mem_zipIdx hv], rfl⟩
  · exact ⟨v, by simp [List.fst_mem_of_mem_zipIdx hv], rfl⟩

namespace MethodDecl

variable {m : MethodDecl}

theorem slots_symbols : m.symbols.map Symbol.slot = List.range' 1 (m.args.length + m.locals.length) := by
  have hslots : ∀ (ds : List VarDecl) (k : Nat) (f : VarDecl × Nat → Symbol), (∀ p, (f p).slot = p.2) →
      ((ds.zipIdx k).map f).map Symbol.slot = List.range' k ds.length := by
    intro ds k f hf
    rw [List.map_map, ← List.zipIdx_map_snd]
    exact List.map_congr_left fun p _ => hf p
  rw [symbols, List.map_append, hslots _ _ _ fun _ => rfl, hslots _ _ _ fun _ => rfl, List.range'_append_1]

/-- Variables of different names are kept in different slots. -/
theorem symbol?_slot_inj {a b : String} {sa sb : Symbol} (ha : m.symbol? a = some sa)
    (hb : m.symbol? b = some sb) (h : sa.slot = sb.slot) : a = b := by
  have hnodup : (m.symbols.map Symbol.slot).Nodup := by
    rw [slots_symbols]
    exact List.nodup_range'
  have hsame : sa = sb :=
    List.inj_on_of_nodup_map hnodup (List.mem_of_find?_eq_some ha) (List.mem_of_find?_eq_some hb) h
  have hna : sa.name = a := by simpa using List.find?_some ha
  have hnb : sb.name = b := by simpa using List.find?_some hb
  rw [← hna, ← hnb, hsame]

theorem symbol?_slot_lt {n : String} {sym : Symbol} (h : m.symbol? n = some sym) :
    0 < sym.slot ∧ sym.slot < m.slotCount := by
  have hmem : sym.slot ∈ m.symbols.map Symbol.slot := List.mem_map_of_mem (List.mem_of_find?_eq_some h)
  rw [slots_symbols, List.mem_range'_1] at hmem
  unfold slotCount
  omega

theorem symbol?_of_mem_locals {v : VarDecl} (hv : v ∈ m.locals) : ∃ sym, m.symbol? v.name.name = some sym := by
  refine Option.isSome_iff_exists.1 (List.find?_isSome.2 ?_)
  obtain ⟨i, hi, rfl⟩ := List.mem_iff_getElem.1 hv
  refine ⟨.localVar (1 + m.args.length + i) m.locals[i], ?_, by simp [Symbol.name]⟩
  simp only [symbols, List.mem_append, List.mem_map]
  exact .inr ⟨(m.locals[i], 1 + m.args.length + i), List.mk_add_mem_zipIdx_iff_getElem?.2 (by simp), rfl⟩

theorem slotCount_pos (m : MethodDecl) : 0 < m.slotCount := by
  unfold slotCount
  omega

end MethodDecl

/-- All declared types of a method are known. -/
structure MethodDecl.Known (m : MethodDecl) : Prop where
  vars : ∀ v ∈ m.args ++ m.locals, v.type.Known
  result : m.result.Known

/-- All declared types of a program are known. -/
structure Program.Known (p : Program) : Prop where
  fields : ∀ c ∈ p.classes, ∀ v ∈ c.fields, v.type.Known
  bodies : ∀ c ∈ p.classes, ∀ m ∈ c.bodies, m.Known

theorem MethodDecl.BodyClean.varsKnown {p : Program} {cls : String} {m : MethodDecl}
    (h : m.BodyClean p cls) (hw : m.Written) : ∀ v ∈ m.args ++ m.locals, v.type.Known :=
  fun v hv => Ty.known_of_written v.type (hw.vars v hv) (h.vars v hv)

theorem MethodDecl.ResultClean.known {hasClass : String → Bool} {m : MethodDecl}
    (h : m.ResultClean hasClass) (hw : m.Written) : m.result.Known := by
  unfold MethodDecl.result Ty.resultOfOption
  cases hr : m.returnType with
  | none => trivial
  | some t => exact Ty.known_of_written t (hw.result t hr) (h t hr)

theorem Program.Clean.known {entry : String} {p : Program} (h : p.Clean entry) (hw : p.Written) :
    p.Known := by
  refine ⟨fun c hc v hv => ?_, fun c hc m hm => ?_⟩
  · exact Ty.known_of_written v.type ((hw c hc).fields v hv) ((h.classes c hc).fields v hv)
  · have hm' := (hw c hc).bodies m hm
    simp only [ClassDecl.bodies, List.mem_append, Option.mem_toList] at hm
    rcases hm with hm | hm
    · refine ⟨((h.classes c hc).constructor m hm).2.varsKnown hm', ?_⟩
      simp [MethodDecl.result, (hw c hc).constructor m hm, Ty.resultOfOption, Ty.Known]
    · have hc := (h.classes c hc).methods m hm
      exact ⟨hc.varsKnown hm', hc.result.known hm'⟩

theorem Program.Clean.bodyClean {entry : String} {p : Program} (h : p.Clean entry) {c : ClassDecl}
    (hc : c ∈ p.classes) {m : MethodDecl} (hm : m ∈ c.bodies) : m.BodyClean p c.name.name := by
  simp only [ClassDecl.bodies, List.mem_append, Option.mem_toList] at hm
  rcases hm with hm | hm
  · exact ((h.classes c hc).constructor m hm).2
  · exact ((h.classes c hc).methods m hm).toBodyClean

def Expr.Filled : Expr → Prop
  | .list _ [] => False
  | _ => True

abbrev AllFilled (es : List Expr) : Prop := es.Forall Expr.Filled

/-- The declared types that a body can refer to are known. -/
structure Context.Known (ctx : Context) : Prop where
  table : ctx.table.Known
  vars : ∀ v ∈ ctx.method.args ++ ctx.method.locals, v.type.Known

theorem Program.Clean.context_known {entry : String} {p : Program} (h : p.Clean entry) (hw : p.Written)
    {c : ClassDecl} (hc : c ∈ p.classes) {m : MethodDecl} (hm : m ∈ c.bodies) :
    Context.Known ⟨p, c.name.name, m⟩ :=
  ⟨h.known hw, ((h.known hw).bodies c hc m hm).vars⟩

theorem allFilled_of_lists {es : List Expr} (h : ∀ t xs, Expr.list t xs ∈ es → xs ≠ []) : AllFilled es := by
  refine List.forall_iff_forall_mem.2 fun e he => ?_
  match e with
  | .list t [] => exact absurd rfl (h t [] he)
  | .list t (_ :: _) => trivial
  | .ident _ | .binary _ _ _ _ | .unary _ _ _ | .member _ _ _ | .index _ _ _ | .call _ _ _ | .new _ _ _
  | .this _ | .null _ | .int _ _ | .bool _ _ | .string _ _ => trivial

namespace Context

variable {ctx : Context}

theorem identifier_known (hk : ctx.Known) {id : Ident} (h : (ctx.identifier id).issues = []) :
    (ctx.identifier id).type.Known := by
  unfold identifier at h ⊢
  split at h
  · next s hs =>
    obtain ⟨v, hv, ht⟩ := MethodDecl.symbol?_mem hs
    simp only [Typed.place, ← ht]
    exact hk.vars v hv
  · simp [Typed.place] at h

theorem functionType_known {m : MethodDecl} (h : m.Known) : m.functionType.Known := by
  refine ⟨Ty.knownAll_iff.2 ?_, h.result⟩
  simp only [List.mem_map]
  rintro t ⟨v, hv, rfl⟩
  exact h.vars v (by simp [hv])

/-- What a member is: a field, a method, or a position of a list. -/
theorem memberAccess_cases {pos : Pos} {t : Ty} {name : String} (ht : t.isNoType = false)
    (h : (ctx.memberAccess pos t name).issues = []) :
    (∃ c ∈ ctx.table.classes, ∃ v ∈ c.fields, (ctx.memberAccess pos t name).type = v.type) ∨
      (∃ c ∈ ctx.table.classes, ∃ m ∈ c.methods, (ctx.memberAccess pos t name).type = m.functionType) ∨
      ∃ es, t = .list es ∧ ∃ e ∈ es, (ctx.memberAccess pos t name).type = e.2 := by
  unfold memberAccess at h ⊢
  split at h
  · simp [Ty.isNoType] at ht
  · next c =>
    split at h
    · next hc =>
      simp only [hc, if_true]
      cases hf : ctx.table.field? c name with
      | some r =>
        obtain ⟨d, hd, _, hv, _⟩ := Program.field?_mem hf
        exact .inl ⟨d, hd, _, hv, rfl⟩
      | none =>
        cases hm : ctx.table.method? c name with
        | some r =>
          obtain ⟨d, hd, _, hv, _⟩ := Program.method?_mem hm
          exact .inr (.inl ⟨d, hd, _, hv, rfl⟩)
        | none => simp [hf, hm, Typed.place] at h
    · simp [Typed.place] at h
  · next es =>
    cases hf : es.find? (fun e => e.1 = name || e.2.isNoType) with
    | some e => exact .inr (.inr ⟨es, rfl, e, List.mem_of_find?_eq_some hf, rfl⟩)
    | none => simp [hf, Typed.place] at h
  · simp [Typed.value] at h

theorem memberAccess_known (hk : ctx.Known) {pos : Pos} {t : Ty} {name : String} (ht : t.Known)
    (h : (ctx.memberAccess pos t name).issues = []) : (ctx.memberAccess pos t name).type.Known := by
  rcases memberAccess_cases ht.isNoType h with ⟨c, hc, v, hv, hty⟩ | ⟨c, hc, m, hm, hty⟩ | ⟨es, rfl, e, he, hty⟩
  · exact hty ▸ hk.table.fields c hc v hv
  · exact hty ▸ functionType_known (hk.table.bodies c hc m (by simp [ClassDecl.bodies, hm]))
  · exact hty ▸ (Ty.known_list_iff.1 ht).2 e he

/-- The type at a position of a list of known types: that of all positions where they agree, else
that of the position that the index names. -/
theorem elementAccess_eq {index : Expr} {e : String × Ty} {es : List (String × Ty)}
    (he : e.2.isNoType = false) : ctx.elementAccess index .int (e :: es) =
      if ctx.table.sameElements (e :: es) e.2 then .place e.2
      else match literal? index with
        | some v =>
          if 0 ≤ v ∧ v < (e :: es).length then .place (Ty.elementAt (e :: es) v)
          else .place .noType [report index.pos .E007]
        | none => .place .noType [report index.pos .E007] := by
  cases hl : literal? index <;>
    simp [elementAccess, Ty.firstKnown_cons he, Ty.isInt, Ty.isNoType, hl]

theorem elementAt_mem {es : List (String × Ty)} {v : Int} (h0 : 0 ≤ v) (hv : v < es.length) :
    ∃ e ∈ es, Ty.elementAt es v = e.2 := by
  have hlt : v.toNat < es.length := by omega
  refine ⟨_, List.getElem_mem hlt, ?_⟩
  simp only [Ty.elementAt, if_neg (show ¬ v < 0 by omega), List.getElem?_eq_getElem hlt]
  rfl

/-- What stands at a position of a list is of one of its types. -/
theorem elementAccess_mem {index : Expr} {es : List (String × Ty)} (hne : es ≠ [])
    (hes : ∀ e ∈ es, e.2.isNoType = false) (h : (ctx.elementAccess index .int es).issues = []) :
    ∃ e ∈ es, (ctx.elementAccess index .int es).type = e.2 := by
  obtain ⟨e, es', rfl⟩ := List.exists_cons_of_ne_nil hne
  rw [elementAccess_eq (hes e (by simp))] at h ⊢
  by_cases hs : ctx.table.sameElements (e :: es') e.2 = true
  · exact ⟨e, by simp, by simp [hs, Typed.place]⟩
  · simp only [hs, Bool.false_eq_true, if_false] at h ⊢
    cases hl : literal? index with
    | none => simp [hl, Typed.place] at h
    | some v =>
      simp only [hl] at h ⊢
      by_cases hv : 0 ≤ v ∧ v < (e :: es').length
      · simpa only [hv, and_self, if_true, Typed.place] using elementAt_mem hv.1 hv.2
      · simp only [hv, if_false] at h
        simp [Typed.place] at h

theorem eq_int_of_indexIssues {index : Expr} {it : Ty} (hit : it.isNoType = false)
    (hi : indexIssues index it = []) : it = .int := by
  cases it <;> simp_all [indexIssues, Ty.isInt, Ty.isNoType]

theorem indexAccess_known {pos : Pos} {index : Expr} {it t : Ty} (hit : it.Known) (ht : t.Known)
    (hi : indexIssues index it = []) (h : (ctx.indexAccess pos index it t).issues = []) :
    (ctx.indexAccess pos index it t).type.Known := by
  obtain rfl := eq_int_of_indexIssues hit.isNoType hi
  cases t with
  | list es =>
    obtain ⟨hne, hes⟩ := Ty.known_list_iff.1 ht
    obtain ⟨e, he, hty⟩ := elementAccess_mem hne (fun e he => (hes e he).isNoType) h
    exact hty ▸ hes e he
  | noType => exact ht.elim
  | _ => simp [indexAccess, Typed.place] at h

theorem operands_known {pos : Pos} {op : BinOp} {wanted : Ty → Bool} {res l r : Ty}
    (hl : l.isNoType = false) (hr : r.isNoType = false)
    (h : (operands pos op wanted res l r).issues = []) :
    (operands pos op wanted res l r).type = res ∧ wanted l = true ∧ wanted r = true := by
  simp only [operands, hl, hr, Bool.false_or, Bool.or_self, Bool.false_eq_true,
    if_false, Bool.and_eq_true] at h ⊢
  split at h
  · next hw => simp [Typed.value, hw]
  · simp [Typed.value] at h

theorem equality_known {pos : Pos} {op : BinOp} {l r : Ty} (hl : l.isNoType = false)
    (hr : r.isNoType = false) (h : (ctx.equality pos op l r).issues = []) : (ctx.equality pos op l r).type = .bool := by
  unfold equality at h ⊢
  simp only [hl, hr, Bool.or_self, Bool.false_eq_true, if_false] at h ⊢
  by_cases hlist : (l.isList || r.isList) = true
  · simp [hlist, Typed.value] at h
  · simp only [hlist, if_false, Bool.false_eq_true] at h ⊢
    by_cases hnull : (l.isNull && r.isNullable || r.isNull && l.isNullable) = true
    · simp [hnull, Typed.value]
    · simp only [hnull, if_false, Bool.false_eq_true] at h ⊢
      by_cases heq : ctx.table.equivalent l r = true
      · simp [heq, Typed.value]
      · simp [heq, Typed.value] at h

theorem operation_known {pos : Pos} {op : BinOp} {l r : Ty} (hop : op ≠ .assign)
    (hl : l.isNoType = false) (hr : r.isNoType = false) (h : (ctx.operation pos op l r).issues = []) :
    (ctx.operation pos op l r).type.Known := by
  cases op with
  | assign => exact absurd rfl hop
  | and | or | add | sub | mul | div | mod | lt | gt =>
    simp only [operation] at h ⊢
    rw [(operands_known hl hr h).1]
    trivial
  | eq | ne =>
    simp only [operation] at h ⊢
    rw [equality_known hl hr h]
    trivial

theorem assignment_known {pos : Pos} {l : Typed} {r : Ty} (hl : l.type.isNoType = false)
    (hr : r.isNoType = false) (hp : placeIssues pos l = []) (h : (ctx.assignment pos l r).issues = []) :
    l.isPlace = true ∧ ctx.table.isSubtype r l.type = true ∧ (ctx.assignment pos l r).type = r := by
  have hplace : l.isPlace = true := by
    by_contra hne
    simp [placeIssues, hne] at hp
  simp only [assignment, hplace, Bool.not_true, Bool.false_eq_true, if_false, hl,
    hr, Bool.or_self] at h ⊢
  split at h
  · next hsub => simp [hsub, Typed.value]
  · simp [Typed.value] at h

theorem negation_known {pos : Pos} {op : UnOp} {t : Ty} (ht : t.isNoType = false)
    (h : (negation pos op t).issues = []) :
    (negation pos op t).type = t ∧ t = if op = .not then .bool else .int := by
  cases t with
  | noType => simp [Ty.isNoType] at ht
  | _ => cases op <;> simp_all [negation, Typed.value, Ty.isNoType, Ty.isBool, Ty.isInt]

theorem increment_known {pos : Pos} {op : UnOp} {x : Typed} (hx : x.type.isNoType = false)
    (h : (increment pos op x).issues = []) :
    x.isPlace = true ∧ x.type = .int ∧ (increment pos op x).type = .int := by
  unfold increment at h ⊢
  simp only [hx, Bool.false_eq_true, if_false] at h ⊢
  by_cases hint : x.type.isInt = true
  · simp only [hint, if_true, Typed.value] at h ⊢
    have hplace : x.isPlace = true := by
      by_contra hne
      simp [hne] at h
    refine ⟨hplace, ?_, by simp [hplace]⟩
    cases hxt : x.type <;> simp_all [Ty.isInt]
  · simp [hint, Typed.value] at h

theorem callResult_known {pos : Pos} {dropped : Bool} {f : Ty} {as : List Ty}
    (hf : f.isNoType = false) (hc : calleeIssues pos dropped f = []) (h : (ctx.callResult pos dropped f as).issues = []) :
    ∃ ps r, f = .fptr ps r ∧ ctx.fits ps as = true ∧
      (dropped = true ∨ r.isVoid = false) ∧ (ctx.callResult pos dropped f as).type = r := by
  cases f with
  | fptr ps r =>
    have hr : dropped = true ∨ r.isVoid = false := by
      by_contra hne
      simp only [not_or, Bool.not_eq_true, Bool.not_eq_false] at hne
      simp [calleeIssues, hne] at hc
    have hv : (r.isVoid && !dropped) = false := by
      rcases hr with rfl | hr <;> simp [*]
    simp only [callResult, hv, Bool.false_eq_true, if_false] at h ⊢
    split at h
    · next hfit => exact ⟨ps, r, rfl, hfit, hr, by simp [hfit, Typed.value]⟩
    · simp [Typed.value] at h
  | noType => simp [Ty.isNoType] at hf
  | _ => simp [calleeIssues] at hc

theorem creation_ok {pos : Pos} {name : String} {as : List Ty}
    (hc : ctx.classIssues pos name = []) (h : (ctx.creation pos name as).issues = []) :
    ctx.table.hasClass name = true ∧ ctx.fits (ctx.table.constructorParams name) as = true ∧
      (ctx.creation pos name as).type = .cls name := by
  have hcls : ctx.table.hasClass name = true := by
    by_contra hne
    simp [classIssues, hne] at hc
  have he : ctx.creation pos name as =
      if ctx.fits (ctx.table.constructorParams name) as then .value (.cls name)
      else .value .noType [report pos .E014 [name]] := by
    simp only [creation, hcls, if_true]
    rfl
  rw [he] at h ⊢
  by_cases hf : ctx.fits (ctx.table.constructorParams name) as = true
  · exact ⟨hcls, hf, by simp [hf, Typed.value]⟩
  · simp [hf, Typed.value] at h

theorem length_eq_of_fits {params args : List Ty} (h : ctx.fits params args = true) :
    params.length = args.length := by
  simp only [fits, Bool.and_eq_true, decide_eq_true_eq] at h
  exact h.1

theorem length_inferAll (es : List Expr) : (ctx.inferAll es).types.length = es.length := by
  induction es with
  | nil => rfl
  | cons e es ih => simp [inferAll, ih]

theorem inferCall_operation {dropped : Bool} {t : Token} {op : BinOp} {l r : Expr} (hop : op ≠ .assign) :
    ctx.inferCall dropped (.binary t op l r) =
      { ctx.operation t.pos op (ctx.inferCall false l).type (ctx.inferCall false r).type with
        issues := (ctx.inferCall false l).issues ++ (ctx.inferCall false r).issues ++
          (ctx.operation t.pos op (ctx.inferCall false l).type (ctx.inferCall false r).type).issues } := by
  cases op with
  | assign => exact absurd rfl hop
  | _ => rfl

mutual

/-- The type of an expression that nothing is wrong with is known. -/
theorem inferCall_known (hk : ctx.Known) (dropped : Bool) (e : Expr) (hf : AllFilled e.subterms)
    (h : (ctx.inferCall dropped e).issues = []) : (ctx.inferCall dropped e).type.Known := by
  match e with
  | .ident id => exact identifier_known hk h
  | .member t x m =>
    simp only [inferCall, List.append_eq_nil_iff] at h ⊢
    simp only [Expr.subterms, List.forall_cons] at hf
    exact memberAccess_known hk (inferCall_known hk false x hf.2 h.1) h.2
  | .index t x i =>
    simp only [inferCall, List.append_eq_nil_iff] at h ⊢
    simp only [Expr.subterms, List.cons_append, List.forall_cons, List.forall_append] at hf
    exact indexAccess_known (inferCall_known hk false i hf.2.2 h.1.1.1)
      (inferCall_known hk false x hf.2.1 h.1.2) h.1.1.2 h.2
  | .binary t op l r =>
    simp only [Expr.subterms, List.cons_append, List.forall_cons, List.forall_append] at hf
    by_cases hop : op = .assign
    · subst hop
      simp only [inferCall, List.append_eq_nil_iff] at h ⊢
      have hr := inferCall_known hk false r hf.2.2 h.1.2
      rw [(assignment_known (inferCall_known hk false l hf.2.1 h.1.1.1).isNoType hr.isNoType h.1.1.2 h.2).2.2]
      exact hr
    · rw [inferCall_operation hop] at h ⊢
      simp only [List.append_eq_nil_iff] at h
      exact operation_known hop (inferCall_known hk false l hf.2.1 h.1.1).isNoType
        (inferCall_known hk false r hf.2.2 h.1.2).isNoType h.2
  | .unary t op x =>
    simp only [inferCall, List.append_eq_nil_iff] at h ⊢
    simp only [Expr.subterms, List.forall_cons] at hf
    have hx := inferCall_known hk false x hf.2 h.1
    split
    · next hop =>
      simp only [hop, if_true] at h
      rw [(increment_known hx.isNoType h.2).2.2]
      trivial
    · next hop =>
      simp only [hop] at h
      rw [(negation_known hx.isNoType h.2).1]
      exact hx
  | .call t f as =>
    simp only [inferCall, List.append_eq_nil_iff] at h ⊢
    simp only [Expr.subterms, List.cons_append, List.forall_cons, List.forall_append] at hf
    have hft := inferCall_known hk false f hf.2.1 h.1.1.1
    obtain ⟨ps, r, he, _, _, ht⟩ := callResult_known hft.isNoType h.1.1.2 h.2
    rw [ht]
    rw [he] at hft
    exact hft.2
  | .new t c as =>
    simp only [inferCall, List.append_eq_nil_iff] at h ⊢
    rw [(creation_ok h.1.1 h.2).2.2]
    trivial
  | .this _ => trivial
  | .list t [] => simp [Expr.subterms, Expr.subtermsOfAll, Expr.Filled] at hf
  | .list t (e :: es) =>
    simp only [inferCall, Typed.value] at h ⊢
    simp only [Expr.subterms, List.forall_cons] at hf
    refine Ty.known_list_iff.2 ⟨by simp [inferAll], fun x hx => ?_⟩
    obtain ⟨u, hu, rfl⟩ := List.mem_map.1 hx
    exact inferAll_known hk (e :: es) hf.2 h u hu
  | .null _ => trivial
  | .int _ _ => trivial
  | .bool _ _ => trivial
  | .string _ _ => trivial

theorem inferAll_known (hk : ctx.Known) (es : List Expr) (hf : AllFilled (Expr.subtermsOfAll es))
    (h : (ctx.inferAll es).issues = []) : ∀ t ∈ (ctx.inferAll es).types, t.Known := by
  match es with
  | [] => simp [inferAll]
  | e :: es =>
    simp only [inferAll, List.append_eq_nil_iff] at h ⊢
    simp only [Expr.subtermsOfAll, List.forall_append] at hf
    exact List.forall_mem_cons.2 ⟨inferCall_known hk false e hf.1 h.1, inferAll_known hk es hf.2 h.2⟩

end

end Context

end ClassCompiler
