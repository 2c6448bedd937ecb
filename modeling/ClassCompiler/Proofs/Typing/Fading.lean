import ClassCompiler.Proofs.Typing.Retyped
import ClassCompiler.Proofs.Typing.Settled

namespace ClassCompiler

namespace Ty

def KeptOrLost (t t' : Ty) : Prop := t' = t ∨ t' = .noType

mutual

/-- The type that an expression has after a declared type was lost. -/
inductive Fades : Ty → Ty → Prop
  | lost (t : Ty) : Fades t .noType
  | kept (t : Ty) : Fades t t
  | fptr {ps ps' : List Ty} (r : Ty) (h : List.Forall₂ KeptOrLost ps ps') : Fades (.fptr ps r) (.fptr ps' r)
  | list {es es' : List (String × Ty)} (h : FadesElems es es') : Fades (.list es) (.list es')

inductive FadesElems : List (String × Ty) → List (String × Ty) → Prop
  | nil : FadesElems [] []
  | cons (name : String) {t t' : Ty} {es es' : List (String × Ty)} (h : Fades t t') (hs : FadesElems es es') :
      FadesElems ((name, t) :: es) ((name, t') :: es')

end

/-- A type that is not known at all, or known in all its parts. -/
def Whole (t : Ty) : Prop := t = .noType ∨ t.Settled

theorem keptOrLost_self (t : Ty) : t.KeptOrLost t := .inl rfl

theorem keptOrLost_noType (t : Ty) : t.KeptOrLost .noType := .inr rfl

theorem KeptOrLost.fades {t t' : Ty} (h : t.KeptOrLost t') : t.Fades t' := by
  obtain rfl | rfl := h
  · exact .kept _
  · exact .lost t

theorem fadesElems_of_forall₂ {ts ts' : List Ty} (h : List.Forall₂ Fades ts ts') :
    FadesElems (ts.map ("", ·)) (ts'.map ("", ·)) := by
  induction h with
  | nil => exact .nil
  | cons ht _ ih => exact .cons "" ht ih

theorem eq_of_keptOrLost_of_settled {ps ps' : List Ty} (h : List.Forall₂ KeptOrLost ps ps') (hs : SettledAll ps') :
    ps' = ps := by
  induction h with
  | nil => rfl
  | cons hp _ ih =>
    obtain rfl | rfl := hp
    · rw [ih hs.2]
    · exact hs.1.elim

mutual

/-- A type in which nothing is lost is the one it was. -/
theorem Fades.eq_of_settled {t t' : Ty} (h : t.Fades t') (hs : t'.Settled) : t' = t := by
  match h with
  | .lost _ => exact hs.elim
  | .kept _ => rfl
  | .fptr r hp => rw [eq_of_keptOrLost_of_settled hp hs.1]
  | .list he => rw [he.eq_of_settled hs]

theorem FadesElems.eq_of_settled {es es' : List (String × Ty)} (h : FadesElems es es') (hs : SettledElems es') :
    es' = es := by
  match h with
  | .nil => rfl
  | .cons name ht hts => rw [ht.eq_of_settled hs.1, hts.eq_of_settled hs.2]

end

theorem Fades.keptOrLost {t t' : Ty} (h : t.Fades t') (hw : t'.Whole) : t.KeptOrLost t' := by
  obtain rfl | hs := hw
  · exact .inr rfl
  · exact .inl (h.eq_of_settled hs)

theorem Fades.isNoType_eq_false {t t' : Ty} (h : t.Fades t') (ht : t'.isNoType = false) : t.isNoType = false := by
  cases h with
  | lost => simp [isNoType] at ht
  | kept => exact ht
  | fptr | list => rfl

section

variable {isA : String → String → Bool}

theorem allSubtypes_of_keptOrLost {ps ps' qs : List Ty} (h : List.Forall₂ KeptOrLost ps ps')
    (hs : allSubtypes isA ps qs = true) : allSubtypes isA ps' qs = true := by
  induction h generalizing qs with
  | nil => exact hs
  | cons hp _ ih =>
    cases qs with
    | nil => simp [allSubtypes] at hs
    | cons q qs =>
      simp only [allSubtypes, Bool.and_eq_true] at hs ⊢
      refine ⟨?_, ih hs.2⟩
      obtain rfl | rfl := hp
      · exact hs.1
      · simp [isSubtype]

mutual

/-- What is left of a type stands wherever the type may stand. -/
theorem Fades.isSubtype {t t' u : Ty} (h : t.Fades t') (hs : isSubtype isA t u = true) : isSubtype isA t' u = true := by
  match h with
  | .lost _ => simp [Ty.isSubtype]
  | .kept _ => exact hs
  | .fptr r hp =>
    cases u with
    | fptr qs s =>
      simp only [Ty.isSubtype, Bool.and_eq_true] at hs ⊢
      exact ⟨hs.1, allSubtypes_of_keptOrLost hp hs.2⟩
    | _ => simp [Ty.isSubtype] at hs
  | .list he =>
    cases u with
    | list fs =>
      simp only [Ty.isSubtype] at hs ⊢
      exact he.allElemSubtypes hs
    | _ => simp [Ty.isSubtype] at hs

theorem FadesElems.allElemSubtypes {es es' fs : List (String × Ty)} (h : FadesElems es es')
    (hs : allElemSubtypes isA es fs = true) : allElemSubtypes isA es' fs = true := by
  match h with
  | .nil => exact hs
  | .cons name ht hts =>
    cases fs with
    | nil => simp [Ty.allElemSubtypes] at hs
    | cons f fs =>
      simp only [Ty.allElemSubtypes, Bool.and_eq_true] at hs ⊢
      exact ⟨ht.isSubtype hs.1, hts.allElemSubtypes hs.2⟩

end

end

/-- A type without parts is kept or lost as a whole. -/
theorem Fades.keptOrLost_of_isPrintable {t t' : Ty} (h : t.Fades t') (hp : t.isPrintable = true) : t.KeptOrLost t' := by
  cases h with
  | lost => exact .inr rfl
  | kept => exact .inl rfl
  | fptr | list => simp [isPrintable] at hp

theorem isNoType_noType : Ty.noType.isNoType = true := rfl

theorem isPrintable_of_isInt {t : Ty} (h : t.isInt = true) : t.isPrintable = true := by
  cases t <;> simp_all [isInt, isPrintable]

theorem isPrintable_of_isBool {t : Ty} (h : t.isBool = true) : t.isPrintable = true := by
  cases t <;> simp_all [isBool, isPrintable]

theorem isPrintable_of_isNoType {t : Ty} (h : t.isNoType = true) : t.isPrintable = true := by
  cases t <;> simp_all [isNoType, isPrintable]

end Ty

/-- What is found out about an expression after a declared type was lost: nothing new is wrong with it. -/
structure Typed.Fades (r r' : Typed) : Prop where
  issues : r'.issues = []
  type : r.type.Fades r'.type
  place : r.isPlace = true → r'.isPlace = true ∧ r.type.KeptOrLost r'.type

namespace Typed

theorem fades_self {r : Typed} (h : r.issues = []) : r.Fades r := ⟨h, .kept _, fun hp => ⟨hp, .inl rfl⟩⟩

theorem Fades.withIssues {r r' : Typed} (h : r.Fades r') (found : List Diagnostic) {found' : List Diagnostic}
    (hi : found' = []) : Fades { r with issues := found } { r' with issues := found' } := ⟨hi, h.type, h.place⟩

theorem fades_noType (r : Typed) : r.Fades (.place .noType) := ⟨rfl, .lost _, fun _ => ⟨rfl, .inr rfl⟩⟩

theorem fades_of_isPlace_eq_false {r r' : Typed} (hp : r.isPlace = false) (hi : r'.issues = [])
    (ht : r.type.Fades r'.type) : r.Fades r' :=
  ⟨hi, ht, fun h => by simp [hp] at h⟩

theorem fades_lost {r : Typed} (h : r.isPlace = false) : r.Fades (.value .noType) :=
  fades_of_isPlace_eq_false h rfl (.lost _)

theorem fades_place {t t' : Ty} (h : t.KeptOrLost t') : (place t).Fades (place t') := ⟨rfl, h.fades, fun _ => ⟨rfl, h⟩⟩

theorem fades_value {t t' : Ty} (h : t.Fades t') : (value t).Fades (value t') := fades_of_isPlace_eq_false rfl rfl h

end Typed

namespace Context

/-- The same body, where declared types are kept or lost. -/
structure Fades (ctx ctx' : Context) : Prop where
  table : ctx.table.Retyped Ty.KeptOrLost Ty.KeptOrLost ctx'.table
  className : ctx'.className = ctx.className
  method : ctx.method.Retyped Ty.KeptOrLost Ty.KeptOrLost ctx'.method

/-- What stands for a parameter without a type has no type either. -/
def Suits (params args : List Ty) : Prop := ∀ x ∈ args.zip params, x.2 = .noType → x.1 = .noType

/-- An expression whose rule does not look inside a type with `noType` in it, nor measures an argument by a
parameter without a type. -/
def Absorbs (ctx : Context) : Expr → Prop
  | .member _ x _ => (ctx.typeOf x).Whole
  | .index _ x _ => (ctx.typeOf x).Whole
  | .binary _ .eq l r => (ctx.typeOf l).Whole ∧ (ctx.typeOf r).Whole
  | .binary _ .ne l r => (ctx.typeOf l).Whole ∧ (ctx.typeOf r).Whole
  | .call _ f as => ∀ ps r, ctx.typeOf f = .fptr ps r → Suits ps (ctx.inferAll as).types
  | .new _ c as => Suits (ctx.table.constructorParams c.name) (ctx.inferAll as).types
  | _ => True

variable {ctx ctx' : Context}

theorem isPlace_operands (pos : Pos) (op : BinOp) (wanted : Ty → Bool) (res l r : Ty) :
    (operands pos op wanted res l r).isPlace = false := by
  unfold operands
  split <;> rfl

theorem isPlace_equality (pos : Pos) (op : BinOp) (l r : Ty) : (ctx.equality pos op l r).isPlace = false := by
  unfold equality
  repeat' split
  all_goals rfl

theorem isPlace_assignment (pos : Pos) (l : Typed) (r : Ty) : (ctx.assignment pos l r).isPlace = false := by
  unfold assignment
  repeat' split
  all_goals rfl

theorem isPlace_negation (pos : Pos) (op : UnOp) (t : Ty) : (negation pos op t).isPlace = false := by
  simp only [negation]
  repeat' split
  all_goals rfl

theorem isPlace_callResult (pos : Pos) (dropped : Bool) (f : Ty) (as : List Ty) :
    (ctx.callResult pos dropped f as).isPlace = false := by
  unfold callResult
  repeat' split
  all_goals rfl

theorem isPrintable_of_indexIssues {index : Expr} {it : Ty} (hi : indexIssues index it = []) : it.isPrintable = true := by
  cases it <;> simp_all [indexIssues, Ty.isInt, Ty.isNoType, Ty.isPrintable]

theorem indexIssues_fades {index : Expr} {it it' : Ty} (hit : it.Fades it') (hi : indexIssues index it = []) :
    indexIssues index it' = [] := by
  obtain rfl | rfl := hit.keptOrLost_of_isPrintable (isPrintable_of_indexIssues hi)
  · exact hi
  · rfl

/-- Where the index is lost the element of a list of one type is known as before. -/
theorem elementAccess_fades {index : Expr} {it : Ty} {es : List (String × Ty)} (hi : indexIssues index it = [])
    (hc : (ctx.elementAccess index it es).issues = []) :
    (ctx.elementAccess index it es).Fades (ctx.elementAccess index .noType es) := by
  have hit : (it.isInt || it.isNoType) = true := by
    by_contra hne
    simp [indexIssues, hne] at hi
  by_cases hs : ctx.table.sameElements es (Ty.firstKnown es) = true
  · have heq : ctx.elementAccess index it es = ctx.elementAccess index .noType es := by
      simp only [elementAccess, hs, hit, if_true]
      rfl
    rw [heq] at hc ⊢
    exact Typed.fades_self hc
  · have heq : ctx.elementAccess index .noType es = .place .noType := by
      simp [elementAccess, hs, Ty.isNoType]
    rw [heq]
    exact Typed.fades_noType _

theorem operands_fades {pos : Pos} {op : BinOp} {wanted : Ty → Bool} {res l l' r r' : Ty} (hl : l.Fades l')
    (hr : r.Fades r') (hw : ∀ t, wanted t = true → t.isPrintable = true)
    (hc : (operands pos op wanted res l r).issues = []) :
    (operands pos op wanted res l r).Fades (operands pos op wanted res l' r') := by
  have hfit : ((l.isNoType || wanted l) && (r.isNoType || wanted r)) = true := by
    by_contra hne
    simp [operands, hne, Typed.value] at hc
  have hflat : ∀ t, (t.isNoType || wanted t) = true → t.isPrintable = true := fun t ht =>
    (Bool.or_eq_true _ _ ▸ ht).elim Ty.isPrintable_of_isNoType (hw t)
  obtain ⟨hfl, hfr⟩ := Bool.and_eq_true_iff.1 hfit
  have hlost := isPlace_operands pos op wanted res l r
  obtain rfl | rfl := hl.keptOrLost_of_isPrintable (hflat l hfl) <;>
    obtain rfl | rfl := hr.keptOrLost_of_isPrintable (hflat r hfr)
  · exact Typed.fades_self hc
  · have he : operands pos op wanted res l' .noType = .value .noType := by simp [operands, hfl, Ty.isNoType_noType]
    exact he ▸ Typed.fades_lost hlost
  · have he : operands pos op wanted res .noType r' = .value .noType := by simp [operands, hfr, Ty.isNoType_noType]
    exact he ▸ Typed.fades_lost hlost
  · have he : operands pos op wanted res .noType .noType = .value .noType := by simp [operands, Ty.isNoType_noType]
    exact he ▸ Typed.fades_lost hlost

/-- A lost operand is equal to any other but a list, or is not compared. -/
theorem equality_noType_left (ctx : Context) (pos : Pos) (op : BinOp) {r : Ty} (hr : r.isList = false) :
    ctx.equality pos op .noType r = .value .bool ∨ ctx.equality pos op .noType r = .value .noType := by
  have hlist : Ty.noType.isList = false := rfl
  have hnull : Ty.noType.isNull = false ∧ Ty.noType.isNullable = false := ⟨rfl, rfl⟩
  by_cases he : ctx.table.equivalent .noType r = true
  · exact .inl (by simp [equality, hlist, hr, hnull, he])
  · exact .inr (by simp [equality, hlist, hr, hnull, he, Ty.isNoType_noType])

theorem equality_comm (ctx : Context) (pos : Pos) (op : BinOp) (l r : Ty) :
    ctx.equality pos op l r = ctx.equality pos op r l := by
  have heq : ctx.table.equivalent l r = ctx.table.equivalent r l := Bool.and_comm _ _
  simp only [equality, heq, Bool.or_comm]

theorem negation_fades {pos : Pos} {op : UnOp} {t t' : Ty} (ht : t.Fades t') (hc : (negation pos op t).issues = []) :
    (negation pos op t).Fades (negation pos op t') := by
  have hflat : t.isPrintable = true := by
    cases t with
    | noType | int | bool | string => rfl
    | _ => cases op <;> simp [negation, Typed.value, Ty.isNoType, Ty.isBool, Ty.isInt] at hc
  obtain rfl | rfl := ht.keptOrLost_of_isPrintable hflat
  · exact Typed.fades_self hc
  · exact Typed.fades_lost (isPlace_negation pos op t)

theorem increment_of_isPlace {pos : Pos} {op : UnOp} {x : Typed} (h : x.isPlace = true) : increment pos op x =
    if x.type.isNoType then .value .noType
    else if x.type.isInt then .value .int
    else .value .noType [report pos .E008 [op.text]] := by
  simp [increment, h]

theorem isPlace_of_increment {pos : Pos} {op : UnOp} {x : Typed} (hc : (increment pos op x).issues = []) :
    x.isPlace = true := by
  by_contra hne
  simp only [increment, hne] at hc
  split at hc
  · simp [Typed.value] at hc
  · split at hc <;> simp [Typed.value] at hc

theorem increment_fades {pos : Pos} {op : UnOp} {x x' : Typed} (hx : x.Fades x')
    (hc : (increment pos op x).issues = []) : (increment pos op x).Fades (increment pos op x') := by
  have hplace := isPlace_of_increment hc
  obtain ⟨hplace', ht⟩ := hx.place hplace
  rw [increment_of_isPlace hplace] at hc ⊢
  rw [increment_of_isPlace hplace']
  obtain ht | ht := ht
  · rw [ht]
    exact Typed.fades_self hc
  · rw [ht]
    refine Typed.fades_lost ?_
    repeat' split
    all_goals rfl

theorem calleeIssues_fades {pos : Pos} {dropped : Bool} {f f' : Ty} (hf : f.Fades f')
    (hc : calleeIssues pos dropped f = []) : calleeIssues pos dropped f' = [] := by
  cases hf with
  | lost => rfl
  | kept => exact hc
  | fptr r _ => exact hc
  | list _ => simp [calleeIssues] at hc

/-- What is left of fitting arguments fits what is left of the parameters. -/
theorem fits_fades {ps ps' as as' : List Ty} (hps : List.Forall₂ Ty.KeptOrLost ps ps')
    (has : List.Forall₂ Ty.Fades as as') (hs : Suits ps' as') (hc : ctx.fits ps as = true) :
    ctx.fits ps' as' = true := by
  simp only [fits, Bool.and_eq_true, decide_eq_true_eq] at hc ⊢
  obtain ⟨hlength, hall⟩ := hc
  refine ⟨by rw [← hps.length_eq, ← has.length_eq, hlength], ?_⟩
  clear hlength
  induction hps generalizing as as' with
  | nil => simp
  | @cons p p' ps ps' hp hps ih =>
    cases has with
    | nil => simp
    | @cons a a' as as' ha has =>
      simp only [List.zip_cons_cons, List.all_cons, Bool.and_eq_true] at hall ⊢
      refine ⟨?_, ih has (fun x hx => hs x (List.mem_cons_of_mem _ hx)) hall.2⟩
      obtain rfl | rfl := hp
      · exact ha.isSubtype hall.1
      · obtain rfl : a' = .noType := hs (a', .noType) List.mem_cons_self rfl
        rfl

section

variable (h : ctx.Fades ctx')

include h

theorem identifier_fades {id : Ident} (hc : (ctx.identifier id).issues = []) :
    (ctx.identifier id).Fades (ctx'.identifier id) := by
  unfold identifier at hc ⊢
  obtain ⟨hs, hs'⟩ | ⟨s, s', hs, hs', hss⟩ := optionRel_cases (MethodDecl.symbol?_retyped h.method id.name)
  · simp [hs, Typed.place] at hc
  · simp only [hs, hs']
    exact Typed.fades_place hss.2

theorem memberAccess_fades {pos : Pos} {t t' : Ty} {name : String} (ht : t.KeptOrLost t')
    (hc : (ctx.memberAccess pos t name).issues = []) :
    (ctx.memberAccess pos t name).Fades (ctx'.memberAccess pos t' name) := by
  obtain rfl | rfl := ht
  · cases t' with
    | cls c =>
      simp only [memberAccess, h.table.hasClass] at hc ⊢
      by_cases hcls : ctx.table.hasClass c = true
      · simp only [hcls, if_true] at hc ⊢
        obtain ⟨hf, hf'⟩ | ⟨f, f', hf, hf', hff⟩ := optionRel_cases (h.table.field? c name)
        · obtain ⟨hm, hm'⟩ | ⟨m, m', hm, hm', hmm⟩ := optionRel_cases (h.table.method? c name)
          · simp [hf, hm, Typed.place] at hc
          · simp only [hf, hf', hm, hm', MethodDecl.functionType, hmm.result]
            exact Typed.fades_value (.fptr _ hmm.paramTypes)
        · simp only [hf, hf']
          exact Typed.fades_place hff.type
      · simp [hcls, Typed.place] at hc
    | list es => exact Typed.fades_self hc
    | noType => exact Typed.fades_self hc
    | _ => simp [memberAccess, Typed.value] at hc
  · exact Typed.fades_noType _

theorem indexAccess_fades {pos : Pos} {index : Expr} {it it' t t' : Ty} (hit : it.Fades it') (ht : t.KeptOrLost t')
    (hi : indexIssues index it = []) (hc : (ctx.indexAccess pos index it t).issues = []) :
    (ctx.indexAccess pos index it t).Fades (ctx'.indexAccess pos index it' t') := by
  obtain rfl | rfl := ht
  · cases t' with
    | list es =>
      rw [indexAccess_congr h.table.hasAncestor]
      simp only [indexAccess] at hc ⊢
      obtain rfl | rfl := hit.keptOrLost_of_isPrintable (isPrintable_of_indexIssues hi)
      · exact Typed.fades_self hc
      · exact elementAccess_fades hi hc
    | noType => exact Typed.fades_self hc
    | _ => simp [indexAccess, Typed.place] at hc
  · exact Typed.fades_noType _

theorem equality_fades {pos : Pos} {op : BinOp} {l l' r r' : Ty} (hl : l.KeptOrLost l') (hr : r.KeptOrLost r')
    (hln : l.isNoType = false) (hrn : r.isNoType = false) (hc : (ctx.equality pos op l r).issues = []) :
    (ctx.equality pos op l r).Fades (ctx'.equality pos op l' r') := by
  have hlists : l.isList = false ∧ r.isList = false := by
    by_contra hne
    rw [not_and_or, Bool.not_eq_false, Bool.not_eq_false, ← Bool.or_eq_true] at hne
    simp [equality, hne, Typed.value] at hc
  have hbool := equality_known hln hrn hc
  have hplace : (ctx.equality pos op l r).isPlace = false := isPlace_equality pos op l r
  have hfade : ∀ e, e = .value .bool ∨ e = .value .noType → (ctx.equality pos op l r).Fades e := by
    rintro e (rfl | rfl)
    · exact Typed.fades_of_isPlace_eq_false hplace rfl (hbool ▸ .kept _)
    · exact Typed.fades_lost hplace
  obtain rfl | rfl := hl
  · obtain rfl | rfl := hr
    · simp only [equality, h.table.equivalent] at hc ⊢
      exact Typed.fades_self hc
    · exact hfade _ (equality_comm ctx' pos op _ _ ▸ equality_noType_left ctx' pos op hlists.1)
  · refine hfade _ (equality_noType_left ctx' pos op ?_)
    obtain rfl | rfl := hr
    · exact hlists.2
    · rfl

theorem operation_fades {pos : Pos} {op : BinOp} {l l' r r' : Ty} (hl : l.Fades l') (hr : r.Fades r')
    (hw : op = .eq ∨ op = .ne → l'.Whole ∧ r'.Whole) (hln : l.isNoType = false) (hrn : r.isNoType = false)
    (hc : (ctx.operation pos op l r).issues = []) : (ctx.operation pos op l r).Fades (ctx'.operation pos op l' r') := by
  cases op with
  | assign => exact Typed.fades_self hc
  | and | or => exact operands_fades hl hr (fun _ => Ty.isPrintable_of_isBool) hc
  | add | sub | mul | div | mod | lt | gt => exact operands_fades hl hr (fun _ => Ty.isPrintable_of_isInt) hc
  | eq =>
    obtain ⟨hlw, hrw⟩ := hw (.inl rfl)
    exact equality_fades h (hl.keptOrLost hlw) (hr.keptOrLost hrw) hln hrn hc
  | ne =>
    obtain ⟨hlw, hrw⟩ := hw (.inr rfl)
    exact equality_fades h (hl.keptOrLost hlw) (hr.keptOrLost hrw) hln hrn hc

theorem assignment_fades {pos : Pos} {l l' : Typed} {r r' : Ty} (hl : l.Fades l') (hr : r.Fades r')
    (hp : placeIssues pos l = []) (hc : (ctx.assignment pos l r).issues = []) :
    placeIssues pos l' = [] ∧ (ctx.assignment pos l r).Fades (ctx'.assignment pos l' r') := by
  have hplace : l.isPlace = true := by
    by_contra hne
    simp [placeIssues, hne] at hp
  obtain ⟨hplace', hlt⟩ := hl.place hplace
  refine ⟨by simp [placeIssues, hplace'], ?_⟩
  by_cases hlost : (l'.type.isNoType || r'.isNoType) = true
  · have he : ctx'.assignment pos l' r' = .value .noType := by simp [assignment, hplace', hlost]
    exact he ▸ Typed.fades_lost (isPlace_assignment pos l r)
  · simp only [Bool.or_eq_true, not_or, Bool.not_eq_true] at hlost
    obtain hlt | hlt := hlt
    · have hrn := hr.isNoType_eq_false hlost.2
      obtain ⟨-, hsub, ht⟩ := assignment_known (hlt ▸ hlost.1) hrn hp hc
      have hsub' : ctx'.table.isSubtype r' l'.type = true := by
        rw [h.table.isSubtype, hlt]
        exact hr.isSubtype hsub
      have he : ctx'.assignment pos l' r' = .value r' := by simp [assignment, hplace', hlost, hsub']
      rw [he]
      exact Typed.fades_of_isPlace_eq_false (isPlace_assignment pos l r) rfl (by rw [ht]; exact hr)
    · simp [hlt, Ty.isNoType_noType] at hlost

theorem callResult_fptr_fades {pos : Pos} {dropped : Bool} {ps ps' as as' : List Ty} {r : Ty}
    (hps : List.Forall₂ Ty.KeptOrLost ps ps') (has : List.Forall₂ Ty.Fades as as') (hs : Suits ps' as')
    (hc : (ctx.callResult pos dropped (.fptr ps r) as).issues = []) :
    (ctx.callResult pos dropped (.fptr ps r) as).Fades (ctx'.callResult pos dropped (.fptr ps' r) as') := by
  by_cases hfits : ctx.fits ps as = true
  · have hfits' : ctx'.fits ps' as' = true := fits_congr h.table.hasAncestor ps' as' ▸ fits_fades hps has hs hfits
    simp only [callResult, hfits, hfits', if_true]
    exact Typed.fades_self rfl
  · simp [callResult, hfits, Typed.value] at hc

theorem callResult_fades {pos : Pos} {dropped : Bool} {f f' : Ty} {as as' : List Ty} (hf : f.Fades f')
    (has : List.Forall₂ Ty.Fades as as') (hs : ∀ ps r, f' = .fptr ps r → Suits ps as')
    (hc : (ctx.callResult pos dropped f as).issues = []) :
    (ctx.callResult pos dropped f as).Fades (ctx'.callResult pos dropped f' as') := by
  have hlost : (ctx.callResult pos dropped f as).isPlace = false := isPlace_callResult pos dropped f as
  cases hf with
  | lost => exact Typed.fades_lost hlost
  | kept =>
    cases f with
    | fptr ps r =>
      exact callResult_fptr_fades h (List.forall₂_same.2 fun t _ => t.keptOrLost_self) has (hs ps r rfl) hc
    | _ => exact Typed.fades_lost hlost
  | @fptr ps ps' r hps => exact callResult_fptr_fades h hps has (hs ps' r rfl) hc
  | list _ => exact Typed.fades_lost hlost

theorem creation_fades {pos : Pos} {cls : String} {as as' : List Ty} (has : List.Forall₂ Ty.Fades as as')
    (hs : Suits (ctx'.table.constructorParams cls) as') (hcls : ctx.classIssues pos cls = [])
    (hc : (ctx.creation pos cls as).issues = []) :
    (ctx.creation pos cls as).Fades (ctx'.creation pos cls as') := by
  obtain ⟨hdeclared, hfits, -⟩ := creation_ok hcls hc
  have hfits' : ctx'.fits (ctx'.table.constructorParams cls) as' = true :=
    fits_congr h.table.hasAncestor _ as' ▸ fits_fades (h.table.constructorParams cls) has hs hfits
  rw [creation_of_hasClass hdeclared, if_pos hfits, creation_of_hasClass (h.table.hasClass ▸ hdeclared), if_pos hfits']
  exact Typed.fades_self rfl

end

end Context

end ClassCompiler
