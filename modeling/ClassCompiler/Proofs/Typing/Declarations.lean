import ClassCompiler.Proofs.Typing.Undeclared
import Mathlib.Data.List.Duplicate
import Mathlib.Data.List.NodupEquivFin

namespace ClassCompiler

variable {hasClass : String → Bool} {pos : Pos} {name : String}

namespace Ty

mutual

/-- The types that a type is made of, at every depth, itself included. -/
def parts : Ty → List Ty
  | .fptr ps r => .fptr ps r :: (partsOfAll ps ++ r.parts)
  | .list es => .list es :: partsOfElems es
  | t => [t]

def partsOfAll : List Ty → List Ty
  | [] => []
  | t :: ts => t.parts ++ partsOfAll ts

def partsOfElems : List (String × Ty) → List Ty
  | [] => []
  | (_, t) :: es => t.parts ++ partsOfElems es

end

/-- Position `i` of a list type has a name that another position has too. -/
def Repeats (es : List (String × Ty)) (i : Nat) : Prop :=
  ∃ n, n ≠ "" ∧ (es.map Prod.fst)[i]? = some n ∧ ∃ j, j ≠ i ∧ (es.map Prod.fst)[j]? = some n

/-- What may be wrong with a part of a declared type: it names a class that does not exist, is a list type without
positions or one with a repeated name. -/
def Wrong (hasClass : String → Bool) : Ty → Prop
  | .cls c => hasClass c = false
  | .list es => es = [] ∨ ∃ i, Repeats es i
  | _ => False

/-- The report that belongs to a part; `name` is what is declared. -/
inductive Reports (hasClass : String → Bool) (pos : Pos) (name : String) : Ty → Diagnostic → Prop
  | unknown {c : String} (h : hasClass c = false) : Reports hasClass pos name (.cls c) (report pos .D001 [c])
  | empty : Reports hasClass pos name (.list []) (report pos .D008 [name])
  | repeated {es : List (String × Ty)} {i : Nat} {n : String} (h : Repeats es i) (hn : (es.map Prod.fst)[i]? = some n) :
    Reports hasClass pos name (.list es) (report pos .D009 [n])

theorem isRepeated_iff {es : List (String × Ty)} {n : String} :
    isRepeated es n = true ↔ n ≠ "" ∧ (es.map Prod.fst).Duplicate n := by
  have hcount : es.countP (·.1 = n) = (es.map Prod.fst).count n := by
    rw [List.count, List.countP_map]
    exact List.countP_congr fun e _ => by simp
  rw [List.duplicate_iff_two_le_count, ← hcount]
  simp [isRepeated, Nat.succ_le_iff]

theorem duplicate_of_getElem? {ns : List String} {n : String} {i j : Nat} (hij : i ≠ j) (hi : ns[i]? = some n)
    (hj : ns[j]? = some n) : ns.Duplicate n := by
  obtain ⟨hi, hni⟩ := List.getElem?_eq_some_iff.1 hi
  obtain ⟨hj, hnj⟩ := List.getElem?_eq_some_iff.1 hj
  rw [List.duplicate_iff_exists_distinct_get]
  rcases Nat.lt_or_gt_of_ne hij with h | h
  · exact ⟨⟨i, hi⟩, ⟨j, hj⟩, h, hni.symm, hnj.symm⟩
  · exact ⟨⟨j, hj⟩, ⟨i, hi⟩, h, hnj.symm, hni.symm⟩

/-- A name stands twice in a list exactly if any position that has it finds it elsewhere too. -/
theorem repeats_iff {es : List (String × Ty)} {i : Nat} {n : String} (hi : (es.map Prod.fst)[i]? = some n) :
    Repeats es i ↔ isRepeated es n = true := by
  rw [isRepeated_iff]
  constructor
  · rintro ⟨m, hm, him, j, hj, hjm⟩
    obtain rfl := Option.some.inj (hi.symm.trans him)
    exact ⟨hm, duplicate_of_getElem? hj hjm hi⟩
  · rintro ⟨hn, hdup⟩
    obtain ⟨⟨k, hk⟩, ⟨l, hl⟩, hkl, hnk, hnl⟩ := List.duplicate_iff_exists_distinct_get.1 hdup
    have hk' : (es.map Prod.fst)[k]? = some n := List.getElem?_eq_some_iff.2 ⟨hk, hnk.symm⟩
    have hl' : (es.map Prod.fst)[l]? = some n := List.getElem?_eq_some_iff.2 ⟨hl, hnl.symm⟩
    have hkl : k < l := hkl
    by_cases h : k = i
    · exact ⟨n, hn, hi, l, by omega, hl'⟩
    · exact ⟨n, hn, hi, k, h, hk'⟩

theorem firstRepeated?_eq_none_iff {es : List (String × Ty)} : firstRepeated? es = none ↔ ∀ i, ¬ Repeats es i := by
  simp only [firstRepeated?, Option.map_eq_none_iff, List.find?_eq_none]
  constructor
  · intro h i hi
    obtain ⟨n, -, hin, -⟩ := id hi
    obtain ⟨e, he, rfl⟩ := List.mem_map.1 (List.mem_of_getElem? hin)
    exact h e he ((repeats_iff hin).1 hi)
  · intro h e he hr
    obtain ⟨i, hi⟩ := List.getElem?_of_mem (List.mem_map_of_mem (f := Prod.fst) he)
    exact h i ((repeats_iff hi).2 hr)

theorem repeats_of_firstRepeated? {es : List (String × Ty)} {n : String} (h : firstRepeated? es = some n) :
    ∃ i, Repeats es i ∧ (es.map Prod.fst)[i]? = some n := by
  obtain ⟨e, he, rfl⟩ := Option.map_eq_some_iff.1 h
  obtain ⟨i, hi⟩ := List.getElem?_of_mem (List.mem_map_of_mem (f := Prod.fst) (List.mem_of_find?_eq_some he))
  have hr : isRepeated es e.1 = true := by simpa using List.find?_some he
  exact ⟨i, (repeats_iff hi).2 hr, hi⟩

instance (es : List (String × Ty)) : Decidable (∃ i, Repeats es i) :=
  decidable_of_iff (firstRepeated? es ≠ none) (by rw [ne_eq, firstRepeated?_eq_none_iff]; simp)

instance : DecidablePred (Wrong hasClass) := fun t =>
  match t with
  | .cls c => inferInstanceAs (Decidable (hasClass c = false))
  | .list [] => .isTrue (.inl rfl)
  | .list (e :: es) => decidable_of_iff (∃ i, Repeats (e :: es) i) (by simp [Wrong])
  | .int | .bool | .string | .null | .void | .noType | .fptr _ _ => .isFalse id

/-- What is reported of a part apart from the parts inside it. -/
def ownIssues (hasClass : String → Bool) (pos : Pos) (name : String) : Ty → List Diagnostic
  | .cls c => if hasClass c then [] else [report pos .D001 [c]]
  | .list [] => [report pos .D008 [name]]
  | .list es => ((firstRepeated? es).map fun n => report pos .D009 [n]).toList
  | _ => []

theorem issues_eq_flatMap (t : Ty) : t.issues hasClass pos name = t.parts.flatMap (ownIssues hasClass pos name) := by
  induction t using issues.induct hasClass
    (motive_2 := fun es => issuesOfElems hasClass pos name es = (partsOfElems es).flatMap (ownIssues hasClass pos name))
    (motive_3 := fun ts => issuesOfAll hasClass pos name ts = (partsOfAll ts).flatMap (ownIssues hasClass pos name)) with
  | case1 c | case2 c => simp [issues, parts, ownIssues]
  | case3 ps r ihs ih => simp [issues, parts, ownIssues, ihs, ih]
  | case4 => simp [issues, parts, partsOfElems, ownIssues]
  | case5 e es ih ihs =>
    cases h : firstRepeated? (e :: es) with
    | none => simp [issues, parts, partsOfElems, ownIssues, ih, ihs, h]
    | some n => simp [issues, parts, partsOfElems, ownIssues, ih, ihs, h]
  | case6 t hcls hfptr hnil hcons =>
    cases t with
    | cls c => exact absurd rfl (hcls c)
    | fptr ps r => exact absurd rfl (hfptr ps r)
    | list es =>
      cases es with
      | nil => exact absurd rfl hnil
      | cons e es => exact absurd rfl (hcons e es)
    | _ => simp [issues, parts, ownIssues]
  | case7 | case9 => rfl
  | case8 t ts ih ihs => simp [issuesOfAll, partsOfAll, ih, ihs]
  | case10 n t es ih ihs => simp [issuesOfElems, partsOfElems, ih, ihs]

/-- A wrong part has one report of its own and any other part none. -/
theorem ownIssues_cases (hasClass : String → Bool) (pos : Pos) (name : String) (t : Ty) :
    (Wrong hasClass t ∧ ∃ d, ownIssues hasClass pos name t = [d] ∧ Reports hasClass pos name t d) ∨
      (¬ Wrong hasClass t ∧ ownIssues hasClass pos name t = []) := by
  cases t with
  | int | bool | string | null | void | noType | fptr _ _ => exact .inr ⟨id, rfl⟩
  | cls c =>
    cases h : hasClass c with
    | true => exact .inr ⟨by simp [Wrong, h], by simp [ownIssues, h]⟩
    | false => exact .inl ⟨h, _, by simp [ownIssues, h], .unknown h⟩
  | list es =>
    cases es with
    | nil => exact .inl ⟨.inl rfl, _, rfl, .empty⟩
    | cons e es =>
      cases h : firstRepeated? (e :: es) with
      | none => exact .inr ⟨by simp [Wrong, firstRepeated?_eq_none_iff.1 h], by simp [ownIssues, h]⟩
      | some n =>
        obtain ⟨i, hi, hn⟩ := repeats_of_firstRepeated? h
        exact .inl ⟨.inr ⟨i, hi⟩, _, by simp [ownIssues, h], .repeated hi hn⟩

theorem reports_parts (ts : List Ty) : List.Forall₂ (Reports hasClass pos name) (ts.filter (Wrong hasClass ·))
    (ts.flatMap (ownIssues hasClass pos name)) := by
  induction ts with
  | nil => exact .nil
  | cons t ts ih =>
    rcases ownIssues_cases hasClass pos name t with ⟨hw, d, hd, hr⟩ | ⟨hw, hd⟩
    · rw [List.filter_cons_of_pos (by simpa using hw), List.flatMap_cons, hd]
      exact .cons hr ih
    · rw [List.filter_cons_of_neg (by simpa using hw), List.flatMap_cons, hd]
      exact ih

theorem reports_issues (t : Ty) : List.Forall₂ (Reports hasClass pos name) (t.parts.filter (Wrong hasClass ·))
    (t.issues hasClass pos name) := by
  rw [issues_eq_flatMap]
  exact reports_parts t.parts

theorem issues_eq_nil_iff (t : Ty) : t.issues hasClass pos name = [] ↔ ∀ u ∈ t.parts, ¬ Wrong hasClass u := by
  have h : (t.parts.filter (Wrong hasClass ·)) = [] ↔ t.issues hasClass pos name = [] := by
    rw [← List.length_eq_zero_iff, ← List.length_eq_zero_iff, (reports_issues t).length_eq]
  rw [← h]
  simp

/-- The ways from a type to the types directly inside it. -/
inductive Step where
  | param (i : Nat)
  | result
  | elem (i : Nat)
  deriving DecidableEq

def child? : Ty → Step → Option Ty
  | .fptr ps _, .param i => ps[i]?
  | .fptr _ r, .result => some r
  | .list es, .elem i => (es[i]?).map Prod.snd
  | _, _ => none

def at? (t : Ty) : List Step → Option Ty
  | [] => some t
  | s :: path => (t.child? s).bind fun u => u.at? path

/-- The path ends at a position of a list type whose name is repeated there. -/
def RepeatedAt (t : Ty) (path : List Step) : Prop :=
  ∃ above es i, path = above ++ [.elem i] ∧ t.at? above = some (.list es) ∧ Repeats es i

/-- Two types that differ at most in the types inside them. -/
def SameForm : Ty → Ty → Prop
  | .fptr ps _, .fptr qs _ => ps.length = qs.length
  | .list es, .list fs => es.map Prod.fst = fs.map Prod.fst
  | t, u => t = u

theorem sameForm_withoutRepeated (t : Ty) : SameForm t t.withoutRepeated := by
  have hlength (ts : List Ty) : ts.length = (withoutRepeatedAll ts).length := by
    induction ts with
    | nil => rfl
    | cons t ts ih => simp [withoutRepeatedAll, ih]
  cases t with
  | fptr ps r => exact hlength ps
  | list es => exact (names_withoutRepeatedElems _ es).symm
  | _ => simp [withoutRepeated, SameForm]

theorem getElem?_withoutRepeatedAll (ts : List Ty) (i : Nat) :
    (withoutRepeatedAll ts)[i]? = (ts[i]?).map withoutRepeated := by
  induction ts generalizing i with
  | nil => rfl
  | cons t ts ih =>
    cases i with
    | zero => rfl
    | succ i => exact ih i

theorem getElem?_withoutRepeatedElems (repeated : String → Bool) (es : List (String × Ty)) (i : Nat) :
    (withoutRepeatedElems repeated es)[i]? =
      (es[i]?).map fun e => (e.1, if repeated e.1 then .noType else e.2.withoutRepeated) := by
  induction es generalizing i with
  | nil => rfl
  | cons e es ih =>
    cases i with
    | zero => rfl
    | succ i => exact ih i

theorem child?_of_repeats {es : List (String × Ty)} {i : Nat} (h : Repeats es i) :
    (list es).withoutRepeated.child? (.elem i) = some .noType := by
  obtain ⟨n, -, hi, -⟩ := id h
  obtain ⟨e, he, rfl⟩ := Option.map_eq_some_iff.1 (List.getElem?_map (f := Prod.fst) ▸ hi)
  simp [withoutRepeated, child?, getElem?_withoutRepeatedElems, he, (repeats_iff hi).1 h]

/-- Anything else that is directly inside a type stays, but for the positions inside it. -/
theorem child?_withoutRepeated {t : Ty} {s : Step} (h : ¬ t.RepeatedAt [s]) :
    t.withoutRepeated.child? s = (t.child? s).map withoutRepeated := by
  cases t with
  | fptr ps r =>
    cases s with
    | param i => exact getElem?_withoutRepeatedAll ps i
    | result | elem _ => rfl
  | list es =>
    cases s with
    | param _ | result => rfl
    | elem i =>
      simp only [withoutRepeated, child?, getElem?_withoutRepeatedElems, Option.map_map]
      cases hi : es[i]? with
      | none => rfl
      | some e =>
        have hn : (es.map Prod.fst)[i]? = some e.1 := by simp [hi]
        have hr : isRepeated es e.1 = false := by
          rw [← Bool.not_eq_true, ← repeats_iff hn]
          exact fun hr => h ⟨[], es, i, rfl, rfl, hr⟩
        simp [hr]
  | _ => rfl

theorem RepeatedAt.cons {t u : Ty} {s : Step} {path : List Step} (hu : t.child? s = some u) (h : u.RepeatedAt path) :
    t.RepeatedAt (s :: path) := by
  obtain ⟨above, es, i, rfl, ha, hi⟩ := h
  exact ⟨s :: above, es, i, rfl, by rw [at?, hu]; exact ha, hi⟩

/-- Off the repeated positions and what is inside them every type has its form still. -/
theorem at?_withoutRepeated (path : List Step) (t : Ty) (h : ∀ above, above <+: path → ¬ t.RepeatedAt above) :
    t.withoutRepeated.at? path = (t.at? path).map withoutRepeated := by
  induction path generalizing t with
  | nil => rfl
  | cons s path ih =>
    rw [at?, at?, child?_withoutRepeated (h [s] (by simp))]
    cases hu : t.child? s with
    | none => rfl
    | some u => exact ih u fun above ha hr => h (s :: above) (by simpa using ha) (hr.cons hu)

theorem at?_append (path : List Step) (s : Step) (t : Ty) : t.at? (path ++ [s]) = (t.at? path).bind (child? · s) := by
  induction path generalizing t with
  | nil =>
    simp only [List.nil_append, at?, Option.bind_some]
    cases t.child? s <;> rfl
  | cons s' path ih =>
    simp only [List.cons_append, at?]
    cases t.child? s' with
    | none => rfl
    | some u => exact ih u

/-- A repeated position that is not inside another one has no type afterwards. -/
theorem at?_of_repeatedAt {t : Ty} {path : List Step} (hr : t.RepeatedAt path)
    (h : ∀ above, above <+: path → above ≠ path → ¬ t.RepeatedAt above) : t.withoutRepeated.at? path = some .noType := by
  obtain ⟨above, es, i, rfl, ha, hi⟩ := hr
  have hin : ∀ a, a <+: above → ¬ t.RepeatedAt a := fun a hpre => by
    refine h a (hpre.trans (List.prefix_append above _)) ?_
    rintro rfl
    have hlen := hpre.length_le
    simp only [List.length_append, List.length_singleton] at hlen
    omega
  rw [at?_append, at?_withoutRepeated above t hin, ha]
  exact child?_of_repeats hi

theorem not_repeatedAt_nil (t : Ty) : ¬ t.RepeatedAt [] := by
  rintro ⟨above, es, i, h, -⟩
  simp at h

theorem repeatedAt_elem {es : List (String × Ty)} {i : Nat} : (list es).RepeatedAt [.elem i] ↔ Repeats es i := by
  constructor
  · rintro ⟨above, fs, j, h, ha, hj⟩
    obtain ⟨rfl, h⟩ := List.append_inj' (show [] ++ _ = _ from h) rfl
    cases h
    cases ha
    exact hj
  · exact fun h => ⟨[], es, i, rfl, rfl, h⟩

end Ty

theorem VarDecl.decl_check (v : VarDecl) :
    (v.check hasClass).decl = if ∃ u ∈ v.type.parts, u.Wrong hasClass then { v with type := .noType } else v := by
  rw [VarDecl.decl_check_eq]
  by_cases h : ∃ u ∈ v.type.parts, u.Wrong hasClass
  · have hissues : v.type.issues hasClass v.token.pos v.name.name ≠ [] := by
      rw [ne_eq, Ty.issues_eq_nil_iff]
      simpa using h
    simp [h, hissues]
  · have hissues : v.type.issues hasClass v.token.pos v.name.name = [] := by
      rw [Ty.issues_eq_nil_iff]
      simpa using h
    simp [h, hissues]

/-- A type of which no part is wrong, or no type at all. -/
theorem VarDecl.type_downgraded (v : VarDecl) : (v.downgraded hasClass).type = .noType ∨
    ∀ u ∈ (v.downgraded hasClass).type.parts, ¬ u.Wrong hasClass := by
  rw [VarDecl.downgraded, VarDecl.decl_check]
  split
  · exact .inl rfl
  · next h => exact .inr fun u hu hw => h ⟨u, hu, hw⟩

theorem exists_of_mem_downgraded {p : Program} {c : ClassDecl} (hc : c ∈ p.downgraded.classes) {v : VarDecl}
    (hv : v ∈ c.variables) : ∃ w : VarDecl, v = w.downgraded p.hasClass := by
  obtain ⟨c, -, rfl⟩ := List.mem_map.1 hc
  have hvars {m : MethodDecl} (h : v ∈ (m.downgradedVars p.hasClass).args ++ (m.downgradedVars p.hasClass).locals) :
      ∃ w : VarDecl, v = w.downgraded p.hasClass := by
    simp only [MethodDecl.downgradedVars, List.mem_append, List.mem_map] at h
    obtain ⟨w, -, rfl⟩ | ⟨w, -, rfl⟩ := h
    · exact ⟨w, rfl⟩
    · exact ⟨w, rfl⟩
  simp only [ClassDecl.variables, ClassDecl.bodies, ClassDecl.downgraded, List.mem_append, List.mem_flatMap, List.mem_map,
    Option.mem_toList, Option.map_eq_some_iff] at hv
  obtain ⟨w, -, rfl⟩ | ⟨m, ⟨m', -, rfl⟩ | ⟨m', -, rfl⟩, hm⟩ := hv
  · exact ⟨w, rfl⟩
  · exact hvars (List.mem_append.2 hm)
  · exact hvars (List.mem_append.2 hm)

/-- A declared type is checked part by part. There is one report for each wrong part, in order, and no other, and the check
passes exactly if there is none. A variable keeps its type exactly if the check of it passes. The type of a result changes
at the repeated positions of its lists only: they have no type afterwards, and every other part keeps its form. So every
variable of a checked program has no type, or one without any wrong part. -/
theorem declared_types_checked (hasClass : String → Bool) (pos : Pos) (name : String) (t : Ty) :
    List.Forall₂ (Ty.Reports hasClass pos name) (t.parts.filter (Ty.Wrong hasClass ·)) (t.issues hasClass pos name) ∧
    (t.passes hasClass = false ↔ t.issues hasClass pos name ≠ []) ∧
    (∀ m : MethodDecl, m.returnType = some t → (m.checkResult hasClass).issues = t.issues hasClass m.token.pos m.name.name ∧
      (m.checkResult hasClass).decl = { m with returnType := some t.withoutRepeated }) ∧
    (∀ v : VarDecl, v.type = t → (v.check hasClass).issues = t.issues hasClass v.token.pos v.name.name ∧
      (v.check hasClass).decl = (if t.passes hasClass then v else { v with type := .noType }) ∧
      (v.check hasClass).decl = if (v.check hasClass).issues = [] then v else { v with type := .noType }) ∧
    (∀ path, (∀ above, above <+: path → ¬ t.RepeatedAt above) →
      Option.Rel Ty.SameForm (t.at? path) (t.withoutRepeated.at? path)) ∧
    (∀ path, t.RepeatedAt path → (∀ above, above <+: path → above ≠ path → ¬ t.RepeatedAt above) →
      t.withoutRepeated.at? path = some .noType) ∧
    ∀ (entry : String) (p : Program), ∀ c ∈ (p.check entry).decl.classes, ∀ v ∈ c.variables,
      v.type = .noType ∨ ∀ u ∈ v.type.parts, ¬ u.Wrong (p.check entry).decl.hasClass := by
  refine ⟨Ty.reports_issues t, Ty.passes_eq_false_iff, fun m hm => ?_, ?_, fun path h => ?_,
    fun path hr h => Ty.at?_of_repeatedAt hr h, ?_⟩
  · simp [MethodDecl.checkResult, hm]
  · rintro v rfl
    exact ⟨rfl, rfl, v.decl_check_eq⟩
  · rw [Ty.at?_withoutRepeated path t h]
    cases t.at? path with
    | none => exact .none
    | some u => exact .some u.sameForm_withoutRepeated
  · intro entry p c hc v hv
    rw [Program.decl_check] at hc ⊢
    obtain ⟨w, rfl⟩ := exists_of_mem_downgraded hc hv
    rw [Program.hasClass_downgraded]
    exact w.type_downgraded

/-- A list with an unknown class under a name that stands twice, and an empty list beside it. -/
def Sample.repeating : Ty := .list [("a", .cls "Missing"), ("", .list []), ("a", .int)]

theorem declared_types_checked_repeating :
    Sample.repeating.issues (fun _ => false) {} "x" =
        [report {} .D009 ["a"], report {} .D001 ["Missing"], report {} .D008 ["x"]] ∧
      Sample.repeating.passes (fun _ => false) = false ∧
      Sample.repeating.withoutRepeated.at? [.elem 2] = some .noType ∧
      Option.Rel Ty.SameForm (Sample.repeating.at? [.elem 1]) (Sample.repeating.withoutRepeated.at? [.elem 1]) := by
  obtain ⟨-, hpasses, -, -, hkept, hlost, -⟩ := declared_types_checked (fun _ => false) {} "x" Sample.repeating
  have habove {i : Nat} {above : List Ty.Step} (h : above <+: [.elem i]) : above = [] ∨ above = [.elem i] := by
    simpa [List.prefix_cons_iff] using h
  refine ⟨by decide, hpasses.2 (by decide), hlost _ (Ty.repeatedAt_elem.2 ⟨"a", by decide, rfl, 0, by decide, rfl⟩) fun above h hne => ?_,
    hkept _ fun above h => ?_⟩
  · obtain rfl := (habove h).resolve_right hne
    exact Ty.not_repeatedAt_nil _
  · obtain rfl | rfl := habove h
    · exact Ty.not_repeatedAt_nil _
    · rintro hr
      obtain ⟨n, hn, hi, -⟩ := Ty.repeatedAt_elem.1 hr
      exact hn (Option.some.inj hi).symm

end ClassCompiler
