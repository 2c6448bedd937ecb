import ClassCompiler.Proofs.Soundness.Static
import ClassCompiler.Machine.Step

namespace ClassCompiler

/-- What an object is for good: a list or a bound method of a type without names, or the array list that the call at
some depth fills, of which the reference lies at some height of its operand stack. -/
inductive Mark where
  | typed (t : Ty)
  | filled (depth height : Nat)

/-- A heap with the marks of its objects. -/
structure TypedHeap where
  heap : Heap
  marks : Nat → Option Mark

abbrev FieldValues : Type := List (String × Value)

def Program.OwnField (p : Program) (cls name : String) (v : VarDecl) : Prop :=
  ∃ c : ClassDecl, p.class? cls = some c ∧ c.field? name = some v

def Program.Complete (p : Program) (cls : String) (fields : FieldValues) : Prop :=
  ∀ (name : String) (v : VarDecl), p.OwnField cls name v → (fields.lookup name).isSome

def Object.isBox : Object → Bool
  | .integer _ => true
  | .boolean _ => true
  | _ => false

def FieldsStay (fs fs' : FieldValues) : Prop := ∀ name : String, (fs.lookup name).isSome → (fs'.lookup name).isSome

def Object.Becomes : Object → Object → Prop
  | .inst c fs, .inst c' fs' => c' = c ∧ FieldsStay fs fs'
  | .list _, .list _ => True
  | .fptr _ _, .fptr _ _ => True
  | .arrayList _, .arrayList _ => True
  | _, _ => False

namespace TypedHeap

def mark? (w : TypedHeap) : Value → Option Mark
  | .ref a => w.marks a
  | _ => none

/-- A value, boxed, is of a type. Only objects of which all fields are set are of the type of their class. -/
def Fits (p : Program) (w : TypedHeap) : Ty → Value → Prop
  | .noType, _ => True
  | .int, v => ∃ n : Int32, w.heap.get? v = some (.integer n)
  | .bool, v => ∃ b : Bool, w.heap.get? v = some (.boolean b)
  | .string, v => ∃ s : String, v = .str s
  | .null, v => v = .null
  | .void, v => v = .null
  | .cls c, v => v = .null ∨ ∃ fs : FieldValues, w.heap.get? v = some (.inst c fs) ∧ p.Complete c fs
  | .fptr ps r, v => v = .null ∨ w.mark? v = some (.typed (Ty.fptr ps r).unnamed)
  | .list es, v => w.mark? v = some (.typed (Ty.list es).unnamed)

def Binds (p : Program) (w : TypedHeap) (ps : List Ty) (r : Ty) (receiver : Value) (name : String) : Prop :=
  receiver = .null ∨ ∃ (c : String) (d : String × MethodDecl), p.method? c name = some d ∧
    d.2.functionType.unnamed = .fptr ps r ∧ w.Fits p (.cls c) receiver

def Allows (p : Program) (w : TypedHeap) : Mark → Object → Prop
  | .typed (.list es), .list vs => ∀ (i : Nat) (v : Value), vs[i]? = some v → ∃ e, es[i]? = some e ∧ w.Fits p e.2 v
  | .typed (.fptr ps r), .fptr v name => w.Binds p ps r v name
  | .filled _ _, .arrayList _ => True
  | _, _ => False

def FieldsFit (p : Program) (w : TypedHeap) (cls : String) (fields : FieldValues) : Prop :=
  ∀ (name : String) (v : VarDecl), p.OwnField cls name v → ∀ x, fields.lookup name = some x → w.Fits p v.type x

/-- Every object holds what it may hold. -/
structure Valid (p : Program) (w : TypedHeap) : Prop where
  marked : ∀ (a : Nat) (m : Mark), w.marks a = some m → ∃ o, w.heap[a]? = some o ∧ w.Allows p m o
  fields : ∀ (a : Nat) (c : String) (fs : FieldValues), w.heap[a]? = some (.inst c fs) → w.FieldsFit p c fs

/-- A later heap, in which no array lists but those of some calls and heights were filled further. -/
structure Extends (sites : Nat → Nat → Prop) (w w' : TypedHeap) : Prop where
  marks : ∀ (a : Nat) (m : Mark), w.marks a = some m → w'.marks a = some m
  boxes : ∀ (a : Nat) (o : Object), o.isBox = true → w.heap[a]? = some o → w'.heap[a]? = some o
  objects : ∀ (a : Nat) (c : String) (fs : FieldValues), w.heap[a]? = some (.inst c fs) →
    ∃ fs', w'.heap[a]? = some (.inst c fs') ∧ FieldsStay fs fs'
  arrays : ∀ a d n : Nat, w.marks a = some (.filled d n) → ¬sites d n → w'.heap[a]? = w.heap[a]?

section

variable {p : Program} {w w' w'' : TypedHeap} {sites sites' : Nat → Nat → Prop} {a : Nat} {o o' : Object} {t u : Ty}
  {v : Value} {fs fs' : FieldValues}

theorem Extends.refl (w : TypedHeap) : w.Extends sites w :=
  ⟨fun _ _ h => h, fun _ _ _ h => h, fun _ _ fs h => ⟨fs, h, fun _ h => h⟩, fun _ _ _ _ _ => rfl⟩

theorem Extends.trans (h : w.Extends sites w') (h' : w'.Extends sites w'') : w.Extends sites w'' where
  marks a m hm := h'.marks a m (h.marks a m hm)
  boxes a o hb ho := h'.boxes a o hb (h.boxes a o hb ho)
  objects a c fs ho := by
    obtain ⟨fs', ho', hset⟩ := h.objects a c fs ho
    obtain ⟨fs'', ho'', hset'⟩ := h'.objects a c fs' ho'
    exact ⟨fs'', ho'', fun n hn => hset' n (hset n hn)⟩
  arrays a d n hm hs := (h'.arrays a d n (h.marks a _ hm) hs).trans (h.arrays a d n hm hs)

theorem Extends.widen (h : w.Extends sites w') (hs : ∀ d n, sites d n → sites' d n) : w.Extends sites' w' :=
  ⟨h.marks, h.boxes, h.objects, fun a d n hm hne => h.arrays a d n hm fun hd => hne (hs d n hd)⟩

theorem Extends.mark? (h : w.Extends sites w') {m : Mark} (hm : w.mark? v = some m) : w'.mark? v = some m := by
  cases v with
  | ref a => exact h.marks a m hm
  | _ => cases hm

theorem Extends.box (h : w.Extends sites w') (hb : o.isBox = true) (ho : w.heap.get? v = some o) :
    w'.heap.get? v = some o := by
  cases v with
  | ref a => exact h.boxes a o hb ho
  | _ => cases ho

theorem Extends.object (h : w.Extends sites w') {c : String} (ho : w.heap.get? v = some (.inst c fs)) :
    ∃ fs', w'.heap.get? v = some (.inst c fs') ∧ FieldsStay fs fs' := by
  cases v with
  | ref a => exact h.objects a c fs ho
  | _ => cases ho

theorem Fits.mono (h : w.Extends sites w') (hv : w.Fits p t v) : w'.Fits p t v := by
  cases t with
  | noType => trivial
  | int => exact hv.imp fun n hn => h.box rfl hn
  | bool => exact hv.imp fun b hb => h.box rfl hb
  | string | null | void => exact hv
  | cls c =>
    refine Or.imp_right (fun ⟨fs, ho, hc⟩ => ?_) hv
    obtain ⟨fs', ho', hset⟩ := h.object ho
    exact ⟨fs', ho', fun n x hx => hset n (hc n x hx)⟩
  | fptr ps r => exact Or.imp_right h.mark? hv
  | list es => exact h.mark? hv

theorem Allows.mono (h : w.Extends sites w') {m : Mark} (ho : w.Allows p m o) : w'.Allows p m o := by
  unfold Allows at ho ⊢
  split
  · exact fun i v hv => (ho i v hv).imp fun e he => ⟨he.1, he.2.mono h⟩
  · exact Or.imp_right (fun ⟨c, d, hm, hty, hv⟩ => ⟨c, d, hm, hty, hv.mono h⟩) ho
  · trivial
  · simp_all

theorem FieldsFit.mono (h : w.Extends sites w') {c : String} (hf : w.FieldsFit p c fs) : w'.FieldsFit p c fs :=
  fun n v hv x hx => (hf n v hv x hx).mono h

/-- Only the names of list positions may be different. -/
theorem Fits.of_unnamed_eq (hv : w.Fits p t v) (h : t.unnamed = u.unnamed) : w.Fits p u v := by
  cases t <;> cases u <;> simp_all [Fits, Ty.unnamed]

theorem Fits.below (hv : w.Fits p t v) (h : t.Below u) : w.Fits p u v := by
  obtain h | ⟨rfl, hu⟩ := h
  · exact hv.of_unnamed_eq h
  · obtain rfl : v = .null := hv
    cases u <;> simp_all [Ty.isNullable, Fits]

/-- The elements of a list are of the types of their positions. -/
theorem Valid.list (hw : w.Valid p) {es : List (String × Ty)} (hv : w.Fits p (.list es) v) :
    ∃ (a : Nat) (vs : List Value), v = .ref a ∧ w.marks a = some (.typed (Ty.list es).unnamed) ∧
      w.heap[a]? = some (.list vs) ∧
      ∀ (i : Nat) (x : Value), vs[i]? = some x → ∃ e, es[i]? = some e ∧ w.Fits p e.2 x := by
  cases v with
  | ref a =>
    obtain ⟨o, ho, hallows⟩ := hw.marked a _ hv
    cases o with
    | list vs =>
      refine ⟨a, vs, rfl, hv, ho, fun i x hx => ?_⟩
      obtain ⟨e, he, hfits⟩ := hallows i x hx
      rw [Ty.unnamedElems_eq_map, List.getElem?_map, Option.map_eq_some_iff] at he
      obtain ⟨e, he, rfl⟩ := he
      exact ⟨e, he, hfits.of_unnamed_eq (Ty.unnamed_unnamed _)⟩
    | _ => exact hallows.elim
  | _ => cases hv

/-- A method reference that is not null is bound to a method of its type. -/
theorem Valid.fptr (hw : w.Valid p) {ps : List Ty} {r : Ty} (hv : w.Fits p (.fptr ps r) v) (hne : v ≠ .null) :
    ∃ (a : Nat) (u : Value) (name : String), v = .ref a ∧ w.marks a = some (.typed (Ty.fptr ps r).unnamed) ∧
      w.heap[a]? = some (.fptr u name) ∧ w.Binds p (Ty.unnamedAll ps) r.unnamed u name := by
  have hm := Or.resolve_left hv hne
  cases v with
  | ref a =>
    obtain ⟨o, ho, hallows⟩ := hw.marked a _ hm
    cases o with
    | fptr u name => exact ⟨a, u, name, rfl, hm, ho, hallows⟩
    | _ => exact hallows.elim
  | _ => cases hm

/-- A heap in which an object is put in the place of another. -/
def put (w : TypedHeap) (v : Value) (o : Object) : TypedHeap := { w with heap := w.heap.set v o }

def add (w : TypedHeap) (o : Object) (m : Option Mark) : TypedHeap :=
  ⟨w.heap.push o, fun a => if a = w.heap.size then m else w.marks a⟩

theorem Valid.lt_size (hw : w.Valid p) {m : Mark} (hm : w.marks a = some m) : a < w.heap.size := by
  obtain ⟨o, ho, -⟩ := hw.marked a m hm
  exact (Array.getElem?_eq_some_iff.1 ho).1

theorem getElem?_put (ho : w.heap[a]? = some o) (b : Nat) :
    (w.put (.ref a) o').heap[b]? = if b = a then some o' else w.heap[b]? := by
  have hlt := (Array.getElem?_eq_some_iff.1 ho).1
  unfold put Heap.set
  by_cases hb : b = a
  · subst hb
    simp [hlt]
  · simp [hb, Ne.symm hb]

theorem getElem?_add (b : Nat) (m : Option Mark) :
    (w.add o m).heap[b]? = if b = w.heap.size then some o else w.heap[b]? := Array.getElem?_push

theorem Extends.put (ho : w.heap[a]? = some o) (h : o.Becomes o')
    (hs : ∀ d n, w.marks a = some (.filled d n) → sites d n) : w.Extends sites (w.put (.ref a) o') where
  marks _ _ hm := hm
  boxes b x hb hx := by
    rw [getElem?_put ho]
    split
    · next he =>
      subst he
      obtain rfl := Option.some.inj (hx.symm.trans ho)
      cases x <;> cases o' <;> simp_all [Object.isBox, Object.Becomes]
    · exact hx
  objects b c fs hx := by
    rw [getElem?_put ho]
    split
    · next he =>
      subst he
      obtain rfl := Option.some.inj (hx.symm.trans ho)
      cases o' with
      | inst c' fs' =>
        obtain ⟨rfl, hset⟩ := h
        exact ⟨fs', rfl, hset⟩
      | _ => exact h.elim
    · exact ⟨fs, hx, fun _ h => h⟩
  arrays b d n hm hne := by
    rw [getElem?_put ho, if_neg]
    rintro rfl
    exact hne (hs d n hm)

theorem Valid.put (hw : w.Valid p) (ho : w.heap[a]? = some o) (hx : w.Extends sites (w.put (.ref a) o'))
    (hm : ∀ m, w.marks a = some m → w.Allows p m o') (hf : ∀ c fs, o' = .inst c fs → w.FieldsFit p c fs) :
    (w.put (.ref a) o').Valid p := by
  refine ⟨fun b m hb => ?_, fun b c fs hb => ?_⟩
  · rw [getElem?_put ho]
    split
    · next he =>
      subst he
      exact ⟨o', rfl, (hm m hb).mono hx⟩
    · exact (hw.marked b m hb).imp fun x hb => ⟨hb.1, hb.2.mono hx⟩
  · rw [getElem?_put ho] at hb
    split at hb
    · exact (hf c fs (Option.some.inj hb)).mono hx
    · exact (hw.fields b c fs hb).mono hx

theorem Valid.extends_add (hw : w.Valid p) (o : Object) (m : Option Mark) : w.Extends sites (w.add o m) := by
  have hold : ∀ {b : Nat} {x : Object}, w.heap[b]? = some x → (w.add o m).heap[b]? = some x := by
    intro b x hx
    rw [getElem?_add, if_neg (Nat.ne_of_lt (Array.getElem?_eq_some_iff.1 hx).1), hx]
  refine ⟨fun b k hk => ?_, fun b x _ hx => hold hx, fun b c fs hx => ⟨fs, hold hx, fun _ h => h⟩, fun b d n hk _ => ?_⟩
  · exact (if_neg (Nat.ne_of_lt (hw.lt_size hk))).trans hk
  · rw [getElem?_add, if_neg (Nat.ne_of_lt (hw.lt_size hk))]

theorem Valid.add (hw : w.Valid p) {m : Option Mark} (hm : ∀ k, m = some k → w.Allows p k o)
    (hf : ∀ c fs, o = .inst c fs → w.FieldsFit p c fs) : (w.add o m).Valid p := by
  have hx : w.Extends (fun _ _ => False) (w.add o m) := hw.extends_add o m
  refine ⟨fun b k hk => ?_, fun b c fs hb => ?_⟩
  · rw [getElem?_add]
    by_cases he : b = w.heap.size
    · rw [if_pos he]
      exact ⟨o, rfl, (hm k ((if_pos he).symm.trans hk)).mono hx⟩
    · rw [if_neg he]
      exact (hw.marked b k ((if_neg he).symm.trans hk)).imp fun x hb => ⟨hb.1, hb.2.mono hx⟩
  · rw [getElem?_add] at hb
    split at hb
    · exact (hf c fs (Option.some.inj hb)).mono hx
    · exact (hw.fields b c fs hb).mono hx

end

end TypedHeap

end ClassCompiler
