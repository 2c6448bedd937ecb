import ClassCompiler.Proofs.Soundness.Objects

namespace ClassCompiler

/-- An index that is known so far stands for positions of a type only: all are, or it is the number of one that is. -/
def Fact.Picks (k : Fact) (es : List (String × Ty)) (t : Ty) : Prop :=
  (∀ e ∈ es, e.2.unnamed = t.unnamed) ∨ ∃ (i : Nat) (e : String × Ty), i < 2 ^ 32 ∧
    k = .is (.int (Int32.ofInt i)) ∧ es[i]? = some e ∧ e.2.unnamed = t.unnamed

def Index.fact (τ : Nat → Fact) : Index → Fact
  | .const i => .is (.int (Int32.ofInt i))
  | .slot n => τ n

def Index.cell : Index → Cell
  | .const i => .known (.is (.int (Int32.ofInt i)))
  | .slot n => .slot n

def Index.op : Index → Op
  | .const i => .pushInt i
  | .slot n => .load .int n

/-- A number of 32 bits that is not negative as an `Int32` is that number. -/
theorem toInt_ofInt_eq {i j : Nat} (hi : i < 2 ^ 32) (h : (Int32.ofInt i).toInt = j) : i = j := by
  rw [Int32.toInt_ofInt] at h
  simp only [Int.bmod, Int32.size] at h
  split at h <;> omega

section

variable {o : CompileOptions} {p : Program} {m : Machine} {w w' : TypedHeap} {d n : Nat} {f g : Frame}
  {a b : Facts} {op : Op} {k : Fact} {cell cell' : Cell} {cs : List Cell} {τ : Nat → Fact} {note : Option Note}
  {h : Heap} {stack vs : List Value} {u v : Value} {t : Ty} {ts : List Ty} {es es' : List (String × Ty)} {i : Index}

theorem Fact.Picks.type (hk : k.Picks es t) (hv : k.Holds p w v) {j : Nat} (hj : v.toInt32.toInt = j) {e : String × Ty}
    (he : es[j]? = some e) : e.2.unnamed = t.unnamed := by
  obtain hall | ⟨i, x, hi, rfl, hx, ht⟩ := hk
  · exact hall e (List.mem_of_getElem? he)
  · obtain rfl : v = .int (Int32.ofInt i) := hv
    obtain rfl := toInt_ofInt_eq hi hj
    obtain rfl := Option.some.inj (he.symm.trans hx)
    exact ht

theorem Index.holds_cell (τ : Nat → Fact) (hcell : i.cell.Holds p w d f.local? vs v) (hf : f.Has p w d ⟨cs, τ, note⟩) :
    v = i.value f.local? ∧ (i.fact τ).Holds p w v := by
  cases i with
  | const j => exact ⟨hcell, hcell⟩
  | slot n =>
    obtain rfl : v = f.local? n := hcell
    exact ⟨rfl, hf.slots n⟩

theorem position_within (op : Op) (h : Heap) (stack : List Value) (hs : op.FailsFor h stack .indexOutOfRange) (args vs : List Value) :
    Attempt (op.FailsFor h stack) (fun i : Nat => (argument args 0).toInt32.toInt = (i : Int) ∧ i < vs.length)
      (NativeMethod.run.position args vs) := by
  unfold NativeMethod.run.position
  simp only
  split
  · next hi =>
    simp only [Bool.and_eq_true, decide_eq_true_eq] at hi
    exact ⟨by omega, by omega⟩
  · exact hs

theorem argument_eq {i : Nat} (hi : i < vs.length) : vs[i]? = some (argument vs i) := by
  simp [argument, hi]

theorem leads_getElement (hk : k.Picks es t) : (Op.invokeVirtual NativeMethod.getElement.ref).Leads o p m
    ⟨.known k :: .known (.val (.list es)) :: cs, τ, note⟩ ⟨.known (.val t) :: cs, τ, none⟩ := by
  intro w d f hw hf
  obtain ⟨v, vs, hs, hv, hf'⟩ := hf.uncons
  obtain ⟨u, us, rfl, hu, hf''⟩ := hf'.uncons
  obtain ⟨a, xs, rfl, -, ho, hxs⟩ := hw.list hu
  refine leaves_method [v] hs rfl (by simp) ?_
  have hget : w.heap.get? (.ref a) = some (.list xs) := ho
  have hpos := position_within (.invokeVirtual NativeMethod.getElement.ref) w.heap f.stack trivial [v] xs
  simp only [NativeMethod.run, hget]
  cases hr : NativeMethod.run.position [v] xs with
  | error e =>
    rw [hr] at hpos
    exact hpos
  | ok j =>
    rw [hr] at hpos
    obtain ⟨hj, hlt⟩ := hpos
    obtain ⟨e, he, hfits⟩ := hxs j _ (argument_eq hlt)
    exact ⟨w, rfl, hw, .refl w,
      hf''.push (.known (.val t)) (hfits.of_unnamed_eq (hk.type hv hj he))⟩

/-- The elements of a list are replaced by others that fit their types. -/
theorem TypedHeap.Valid.fill (hw : w.Valid p) {a : Nat} {xs ys : List Value} (ho : w.heap[a]? = some (.list xs))
    (hm : w.marks a = some (.typed (Ty.list es).unnamed))
    (hy : ∀ (i : Nat) (x : Value), ys[i]? = some x → ∃ e, es[i]? = some e ∧ w.Fits p e.2 x) :
    (w.put (.ref a) (.list ys)).Valid p ∧
      ∀ {sites : Nat → Nat → Prop}, w.Extends sites (w.put (.ref a) (.list ys)) := by
  have hext : ∀ {sites : Nat → Nat → Prop}, w.Extends sites (w.put (.ref a) (.list ys)) :=
    TypedHeap.Extends.put ho trivial fun d n he => by cases hm.symm.trans he
  refine ⟨hw.put ho (hext : w.Extends (fun _ _ => False) _) (fun k hk => ?_) fun c fs he => (by cases he), hext⟩
  obtain rfl := Option.some.inj (hm.symm.trans hk)
  intro i x hx
  obtain ⟨e, he, hfits⟩ := hy i x hx
  refine ⟨("", e.2.unnamed), ?_, hfits.of_unnamed_eq (Ty.unnamed_unnamed _).symm⟩
  rw [Ty.unnamedElems_eq_map, List.getElem?_map, he]
  rfl

theorem TypedHeap.Valid.setElement (hw : w.Valid p) {a j : Nat} {xs : List Value} (ho : w.heap[a]? = some (.list xs))
    (hm : w.marks a = some (.typed (Ty.list es).unnamed)) (hv : ∀ e, es[j]? = some e → w.Fits p e.2 v) :
    (w.put (.ref a) (.list (xs.set j v))).Valid p ∧
      ∀ {sites : Nat → Nat → Prop}, w.Extends sites (w.put (.ref a) (.list (xs.set j v))) := by
  obtain ⟨b, ys, hb, -, hys, hfits⟩ := hw.list (v := .ref a) hm
  obtain rfl := Value.ref.inj hb
  obtain rfl := Object.list.inj (Option.some.inj (ho.symm.trans hys))
  refine hw.fill ho hm fun i x hx => ?_
  by_cases hi : j = i
  · subst hi
    have hlt : j < xs.length := by simpa using (List.getElem?_eq_some_iff.1 hx).1
    rw [List.getElem?_set_self hlt] at hx
    obtain rfl := Option.some.inj hx
    obtain ⟨e, he, -⟩ := hfits j _ (List.getElem?_eq_getElem hlt)
    exact ⟨e, he, hv e he⟩
  · rw [List.getElem?_set_ne hi] at hx
    exact hfits i x hx

/-- What an operation that sets an element leaves. -/
theorem leaves_setElement (hw : w.Valid p) (hs : f.stack = v :: u :: .ref n :: vs) {xs : List Value}
    (ho : w.heap[n]? = some (.list xs)) (hm : w.marks n = some (.typed (Ty.list es).unnamed)) (hk : k.Picks es t)
    (hu : k.Holds p w u) (hv : w.Fits p t v)
    (hb : ∀ j : Nat, u.toInt32.toInt = j → j < xs.length →
      (∀ {sites : Nat → Nat → Prop}, w.Extends sites (w.put (.ref n) (.list (xs.set j v)))) →
      Frame.Has p (w.put (.ref n) (.list (xs.set j v))) d { f with stack := vs } b) :
    Attempt ((Op.invokeVirtual NativeMethod.setElement.ref).FailsFor w.heap f.stack) (Effect.Leaves o p w d f b)
      (m.exec f w.heap (.invokeVirtual NativeMethod.setElement.ref)) := by
  refine leaves_method [u, v] hs rfl (by simp) ?_
  have hget : w.heap.get? (.ref n) = some (.list xs) := ho
  have hpos := position_within (.invokeVirtual NativeMethod.setElement.ref) w.heap f.stack trivial [u, v] xs
  simp only [NativeMethod.run, hget]
  cases hr : NativeMethod.run.position [u, v] xs with
  | error e =>
    rw [hr] at hpos
    exact hpos
  | ok j =>
    rw [hr] at hpos
    obtain ⟨hj, hlt⟩ := hpos
    have hfits : ∀ e, es[j]? = some e → w.Fits p e.2 v := fun e he => hv.of_unnamed_eq (hk.type hu hj he).symm
    obtain ⟨hvalid, hext⟩ := hw.setElement ho hm hfits
    exact ⟨_, rfl, hvalid, hext, hb j hj hlt hext⟩

theorem leads_setElement (hk : k.Picks es t) : (Op.invokeVirtual NativeMethod.setElement.ref).Leads o p m
    ⟨.known (.val t) :: .known k :: .known (.val (.list es)) :: cs, τ, note⟩ ⟨cs, τ, none⟩ := by
  intro w d f hw hf
  obtain ⟨v, vs, hs, hv, hf'⟩ := hf.uncons
  obtain ⟨u, us, rfl, hu, hf''⟩ := hf'.uncons
  obtain ⟨x, xs, rfl, hx, hrest⟩ := hf''.uncons
  obtain ⟨a, ys, rfl, hm, ho, -⟩ := hw.list hx
  exact leaves_setElement hw hs ho hm hk hu hv fun j _ _ hext =>
    hrest.later hext

/-- Null is stored into a list that is still on the stack. -/
theorem leads_setElement_null (hk : (i.fact τ).Picks es t) (ht : t.isNullable = true) :
    (Op.invokeVirtual NativeMethod.setElement.ref).Leads o p m
      ⟨.known (.val .null) :: i.cell :: .again :: .known (.val (.list es)) :: cs, τ, note⟩
      ⟨.known (.val (.list es)) :: cs, τ, some (.element i)⟩ := by
  intro w d f hw hf
  obtain ⟨v, vs, hs, hv, hf'⟩ := hf.uncons
  obtain ⟨u, us, rfl, hu, hf''⟩ := hf'.uncons
  obtain ⟨x, xs, rfl, hagain, hf3⟩ := hf''.uncons
  obtain ⟨x', xs, rfl, hx, hrest⟩ := hf3.uncons
  obtain rfl : x' = x := Option.some.inj hagain
  obtain ⟨a, ys, rfl, hm, ho, -⟩ := hw.list hx
  obtain ⟨hvalue, hu⟩ := Index.holds_cell (f := f) τ hu hf
  obtain rfl : v = .null := hv
  refine leaves_setElement hw hs ho hm hk hu (TypedHeap.Fits.below (t := .null) rfl (.inr ⟨rfl, ht⟩))
    fun j hj hlt hext => ?_
  have hmono := hf3.later hext
  refine ⟨hmono.stack, hmono.slots, fun note hnote => ?_⟩
  obtain rfl := Option.some.inj hnote
  refine ⟨ys.set j .null, (TypedHeap.getElem?_put ho a).trans (if_pos rfl), ?_⟩
  rw [NullAt, show i.value (Frame.local? { f with stack := Value.ref a :: xs }) = u from hvalue.symm, hj]
  simp [argument, hlt]

theorem leads_index_null : i.op.Leads o p m ⟨.known (.val (.list es)) :: cs, τ, some (.element i)⟩
    ⟨.known .any :: .known (.val (.list es)) :: cs, τ, some .indexed⟩ := by
  intro w d f hw hf
  obtain ⟨v, vs, hs, hv, hf'⟩ := hf.uncons
  have hnote := hf.note _ rfl
  rw [hs] at hnote
  obtain ⟨ys, hys, hnull⟩ := hnote
  have hhas : Frame.Has p w d { f with stack := i.value f.local? :: f.stack }
      ⟨.known .any :: .known (.val (.list es)) :: cs, τ, some .indexed⟩ := by
    refine ⟨⟨trivial, hf.stack⟩, hf.slots, fun note hnote => ?_⟩
    obtain rfl := Option.some.inj hnote
    show Note.Holds w f.local? .indexed (i.value f.local? :: f.stack)
    rw [hs]
    exact ⟨ys, hys, hnull⟩
  cases i with
  | const j => exact leaves_quiet_push (.refl f) hw hhas
  | slot n =>
    refine Attempt.bind (slot_within (show Op.FailsFor (.load .int n) w.heap f.stack .invalidLocalSlot from trivial) f n) fun j ⟨hj, _⟩ => ?_
    subst hj
    exact leaves_quiet_push (.refl f) hw hhas

theorem leads_getElement_null : (Op.invokeVirtual NativeMethod.getElement.ref).Leads o p m
    ⟨.known .any :: .known (.val (.list es)) :: cs, τ, some .indexed⟩ ⟨.known (.val .null) :: cs, τ, none⟩ := by
  intro w d f hw hf
  obtain ⟨v, vs, hs, -, hf'⟩ := hf.uncons
  obtain ⟨u, us, rfl, hu, hf''⟩ := hf'.uncons
  obtain ⟨a, xs, rfl, -, ho, -⟩ := hw.list hu
  have hnote := hf.note _ rfl
  rw [hs] at hnote
  obtain ⟨ys, hys, hnull⟩ := hnote
  have hget : w.heap.get? (.ref a) = some (.list xs) := ho
  obtain rfl := Object.list.inj (Option.some.inj (hget.symm.trans hys))
  refine leaves_method [v] hs rfl (by simp) ?_
  have hpos := position_within (.invokeVirtual NativeMethod.getElement.ref) w.heap f.stack trivial [v] xs
  simp only [NativeMethod.run, hget]
  cases hr : NativeMethod.run.position [v] xs with
  | error e =>
    rw [hr] at hpos
    exact hpos
  | ok j =>
    rw [hr] at hpos
    have hj : argument xs j = .null := by
      have hv : v.toInt32.toInt = j := hpos.1
      rw [NullAt, hv] at hnull
      exact hnull
    exact ⟨w, rfl, hw, .refl w, hf''.push (.known (.val .null)) hj⟩

end

end ClassCompiler
