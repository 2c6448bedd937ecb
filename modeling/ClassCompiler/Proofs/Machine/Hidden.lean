import Mathlib.Data.Set.Insert
import ClassCompiler.Proofs.Stack.Underflow

namespace ClassCompiler

/-- A value that is no reference, or one to an object below `n` that is not hidden. -/
def Value.Clear (D : Set Nat) (n : Nat) (v : Value) : Prop := ∀ a, v = .ref a → a < n ∧ a ∉ D

def Object.values : Object → List Value
  | .inst _ fields => fields.map Prod.snd
  | .list elems => elems
  | .fptr receiver _ => [receiver]
  | .arrayList elems => elems
  | _ => []

/-- The hidden objects are there, and no other object refers to one of them. -/
structure Heap.Hides (D : Set Nat) (h : Heap) : Prop where
  bound : ∀ a ∈ D, a < h.size
  clear : ∀ a o, h[a]? = some o → a ∉ D → ∀ v ∈ o.values, v.Clear D h.size

/-- Objects may have come, and what is hidden is so still, and unchanged. -/
structure Heap.Keeps (D : Set Nat) (h h' : Heap) : Prop where
  size : h.size ≤ h'.size
  same : ∀ a ∈ D, h'[a]? = h[a]?
  hides : h'.Hides D

section

variable {D : Set Nat} {n k : Nat} {v : Value} {h h' : Heap} {o : Object}

theorem Value.Clear.mono (hv : v.Clear D n) (hn : n ≤ k) : v.Clear D k := fun a ha =>
  ⟨Nat.lt_of_lt_of_le (hv a ha).1 hn, (hv a ha).2⟩

@[simp] theorem Value.clear_null : Value.null.Clear D n := fun _ h => by cases h

@[simp] theorem Value.clear_int (i : Int32) : (Value.int i).Clear D n := fun _ h => by cases h

@[simp] theorem Value.clear_str (s : String) : (Value.str s).Clear D n := fun _ h => by cases h

@[simp] theorem Value.clear_stream : Value.stream.Clear D n := fun _ h => by cases h

@[simp] theorem Value.clear_ofBool (b : Bool) : (Value.ofBool b).Clear D n := clear_int _

theorem argument_clear {vs : List Value} (hv : ∀ v ∈ vs, v.Clear D n) (i : Nat) : (argument vs i).Clear D n := by
  unfold argument
  cases hi : vs[i]? with
  | none => exact Value.clear_null
  | some v => exact hv v (List.mem_of_getElem? hi)

theorem fieldValue_clear {fields : List (String × Value)} (hf : ∀ v ∈ fields.map Prod.snd, v.Clear D n)
    (name : String) : (fieldValue fields name).Clear D n := by
  unfold fieldValue
  cases hl : fields.lookup name with
  | none => exact Value.clear_null
  | some v =>
    obtain ⟨before, after, rfl, -⟩ := List.lookup_eq_some_iff.1 hl
    exact hf v (by simp)

theorem setFieldValue_clear {fields : List (String × Value)} (hf : ∀ v ∈ fields.map Prod.snd, v.Clear D n)
    (name : String) (hv : v.Clear D n) : ∀ w ∈ (setFieldValue fields name v).map Prod.snd, w.Clear D n := by
  induction fields with
  | nil => simpa [setFieldValue] using hv
  | cons f fs ih =>
    obtain ⟨m, w⟩ := f
    obtain ⟨hw, hfs⟩ := List.forall_mem_cons.1 hf
    unfold setFieldValue
    split
    · exact List.forall_mem_cons.2 ⟨hv, hfs⟩
    · exact List.forall_mem_cons.2 ⟨hw, ih hfs⟩

theorem Heap.Hides.get? (hh : h.Hides D) (hv : v.Clear D n) (ho : h.get? v = some o) :
    ∀ w ∈ o.values, w.Clear D h.size := by
  cases v with
  | ref a => exact hh.clear a o ho (hv a rfl).2
  | _ => cases ho

theorem Heap.Hides.keeps (hh : h.Hides D) : h.Keeps D h := ⟨Nat.le_refl _, fun _ _ => rfl, hh⟩

theorem Heap.Keeps.trans {h'' : Heap} (h₁ : h.Keeps D h') (h₂ : h'.Keeps D h'') : h.Keeps D h'' :=
  ⟨Nat.le_trans h₁.size h₂.size, fun a ha => (h₂.same a ha).trans (h₁.same a ha), h₂.hides⟩

theorem Heap.Hides.push (hh : h.Hides D) (ho : ∀ v ∈ o.values, v.Clear D h.size) : h.Keeps D (h.push o) := by
  have hle : h.size ≤ Array.size (Array.push h o) := by simp
  refine ⟨hle, fun a ha => Array.getElem?_push_lt (hh.bound a ha) ▸ (Array.getElem?_eq_getElem (hh.bound a ha)).symm,
    fun a ha => Nat.lt_of_lt_of_le (hh.bound a ha) hle, fun a x hx ha v hv => ?_⟩
  rw [Array.getElem?_push] at hx
  split at hx
  · obtain rfl := Option.some.inj hx
    exact (ho v hv).mono hle
  · exact (hh.clear a x hx ha v hv).mono hle

theorem Heap.Hides.set (hh : h.Hides D) (hv : v.Clear D n) (ho : ∀ w ∈ o.values, w.Clear D h.size) :
    h.Keeps D (h.set v o) := by
  cases v with
  | ref b =>
    have hb := (hv b rfl).2
    have hsize : Array.size (Heap.set h (.ref b) o) = h.size := by simp [Heap.set]
    refine ⟨Nat.le_of_eq hsize.symm, fun a ha => ?_, fun a ha => hsize ▸ hh.bound a ha, fun a x hx ha w hw => ?_⟩
    · have hne : b ≠ a := fun he => hb (he ▸ ha)
      exact Array.getElem?_setIfInBounds_ne hne
    · rw [hsize]
      by_cases he : b = a
      · subst he
        simp only [Heap.set, Array.getElem?_setIfInBounds_self] at hx
        split at hx
        · obtain rfl := Option.some.inj hx
          exact ho w hw
        · cases hx
      · rw [Heap.set, Array.getElem?_setIfInBounds_ne he] at hx
        exact hh.clear a x hx ha w hw
  | _ => exact hh.keeps

theorem Value.Clear.insert_size (hv : v.Clear D n) : v.Clear (insert n D) (n + 1) := fun a ha =>
  ⟨Nat.lt_succ_of_lt (hv a ha).1, fun hD => by
    rcases Set.mem_insert_iff.1 hD with rfl | hD
    · exact Nat.lt_irrefl _ (hv a ha).1
    · exact (hv a ha).2 hD⟩

theorem Value.Clear.subset {E : Set Nat} (hv : v.Clear D n) (hD : E ⊆ D) : v.Clear E n := fun a ha =>
  ⟨(hv a ha).1, fun hE => (hv a ha).2 (hD hE)⟩

/-- An object need not be hidden when it refers to none that is. -/
theorem Heap.Hides.reveal {b : Nat} (hh : h.Hides (insert b D))
    (ho : ∀ o, h[b]? = some o → ∀ v ∈ o.values, v.Clear D h.size) : h.Hides D := by
  refine ⟨fun a ha => hh.bound a (Set.mem_insert_of_mem _ ha), fun a o hao ha v hv => ?_⟩
  by_cases hab : a = b
  · subst hab
    exact ho o hao v hv
  · have hnot : a ∉ insert b D := fun hD => (Set.mem_insert_iff.1 hD).elim hab ha
    exact (hh.clear a o hao hnot v hv).subset (Set.subset_insert _ _)

/-- A new object may be hidden, whatever it holds. -/
theorem Heap.Hides.push_hidden (hh : h.Hides D) (o : Object) : Heap.Hides (insert h.size D) (h.push o) := by
  refine ⟨fun a ha => ?_, fun a x hx ha v hv => ?_⟩
  · rw [Array.size_push]
    rcases Set.mem_insert_iff.1 ha with rfl | ha
    · exact Nat.lt_succ_self _
    · exact Nat.lt_succ_of_lt (hh.bound a ha)
  · have hne : a ≠ h.size := fun he => ha (he ▸ Set.mem_insert _ _)
    rw [Array.getElem?_push, if_neg hne] at hx
    rw [Array.size_push]
    exact (hh.clear a x hx (fun hD => ha (Set.mem_insert_of_mem _ hD)) v hv).insert_size

/-- A hidden object may be changed to hold anything. -/
theorem Heap.Hides.set_hidden {a : Nat} (hh : h.Hides D) (ha : a ∈ D) (o : Object) :
    Heap.Hides D (h.set (.ref a) o) := by
  have hsize : Array.size (h.set (.ref a) o) = h.size := by simp [Heap.set]
  refine ⟨fun b hb => hsize ▸ hh.bound b hb, fun b x hx hb v hv => ?_⟩
  have hne : a ≠ b := fun he => hb (he ▸ ha)
  rw [Heap.set, Array.getElem?_setIfInBounds_ne hne] at hx
  exact hsize ▸ hh.clear b x hx hb v hv

/-- A new object is hidden until it is changed to refer to nothing that is hidden. -/
theorem Heap.Keeps.fill {o' : Object} (hh : h.Hides D) (hk : Heap.Keeps (insert h.size D) (h.push o) h')
    (ho : ∀ v ∈ o'.values, v.Clear D h'.size) : h.Keeps D (h'.set (.ref h.size) o') := by
  have hsize : Array.size (h'.set (.ref h.size) o') = h'.size := by simp [Heap.set]
  have hgrows : h.size + 1 ≤ h'.size := by simpa using hk.size
  refine ⟨by omega, fun a ha => ?_, (hk.hides.set_hidden (Set.mem_insert _ _) o').reveal fun x hx => ?_⟩
  · have hlt := hh.bound a ha
    rw [Heap.set, Array.getElem?_setIfInBounds_ne hlt.ne', hk.same a (Set.mem_insert_of_mem _ ha),
      Array.getElem?_push_lt hlt, Array.getElem?_eq_getElem hlt]
  · rw [Heap.set, Array.getElem?_setIfInBounds_self, if_pos (Nat.lt_of_succ_le hgrows)] at hx
    obtain rfl := Option.some.inj hx
    exact hsize ▸ ho

end

/-- The frame with other values above `base`, all clear. -/
structure Frame.Above (D : Set Nat) (n : Nat) (base : List Value) (f g : Frame) : Prop where
  stack : ∃ ws, g.stack = ws ++ base ∧ ∀ v ∈ ws, v.Clear D n
  locals : g.locals = f.locals
  pushes : g.pushesResult = f.pushesResult

namespace Frame

variable {D : Set Nat} {n k : Nat} {base ws : List Value} {f g : Frame}

theorem Above.mono (hg : f.Above D n base g) (hn : n ≤ k) : f.Above D k base g := by
  obtain ⟨ws, hs, hw⟩ := hg.stack
  exact ⟨⟨ws, hs, fun v hv => (hw v hv).mono hn⟩, hg.locals, hg.pushes⟩

theorem Above.push (hg : f.Above D n base g) {v : Value} (hv : v.Clear D n) :
    Attempt AnyCause (f.Above D n base) (g.push v) := by
  obtain ⟨ws, hs, hw⟩ := hg.stack
  unfold Frame.push
  split
  · trivial
  · exact ⟨⟨v :: ws, by simp [hs], List.forall_mem_cons.2 ⟨hv, hw⟩⟩, hg.locals, hg.pushes⟩

/-- Only a frame with nothing below those values can be short of them. -/
theorem le_length_above (hs : f.stack = ws ++ base) (hn : base ≠ [] → k ≤ ws.length) (hk : k ≤ f.stack.length) :
    k ≤ ws.length := by
  by_cases hb : base = []
  · rwa [hs, hb, List.append_nil] at hk
  · exact hn hb

theorem pop_clear (hs : f.stack = ws ++ base) (hw : ∀ v ∈ ws, v.Clear D n) (hn : base ≠ [] → 1 ≤ ws.length) :
    Attempt AnyCause (fun r => r.1.Clear D n ∧ f.Above D n base r.2) f.pop := by
  unfold pop
  cases hv : f.stack with
  | nil => trivial
  | cons v vs =>
    have hlen := le_length_above hs hn (by simp [hv])
    match ws, hlen with
    | w :: ws, _ =>
      obtain ⟨rfl, rfl⟩ := List.cons.inj (hv.symm.trans hs)
      obtain ⟨hw, hws⟩ := List.forall_mem_cons.1 hw
      exact ⟨hw, ⟨ws, rfl, hws⟩, rfl, rfl⟩

theorem popTwo_clear (hs : f.stack = ws ++ base) (hw : ∀ v ∈ ws, v.Clear D n) (hn : base ≠ [] → 2 ≤ ws.length) :
    Attempt AnyCause (fun r => r.1.Clear D n ∧ r.2.1.Clear D n ∧ f.Above D n base r.2.2) f.popTwo := by
  unfold popTwo
  split
  · next b a vs hv =>
    have hlen := le_length_above hs hn (by simp [hv])
    match ws, hlen with
    | w :: w' :: ws, _ =>
      obtain ⟨rfl, hv⟩ := List.cons.inj (hv.symm.trans hs)
      obtain ⟨rfl, rfl⟩ := List.cons.inj hv
      simp only [List.forall_mem_cons] at hw
      exact ⟨hw.2.1, hw.1, ⟨ws, rfl, hw.2.2⟩, rfl, rfl⟩
  · trivial

theorem popMany_clear (hs : f.stack = ws ++ base) (hw : ∀ v ∈ ws, v.Clear D n) (hn : base ≠ [] → k ≤ ws.length) :
    Attempt AnyCause (fun r => (∀ v ∈ r.1, v.Clear D n) ∧ f.Above D n base r.2) (f.popMany k) := by
  unfold popMany
  split
  · trivial
  · next hk =>
    have hlen := le_length_above hs hn (Nat.not_lt.1 hk)
    refine ⟨fun v hv => hw v ?_, ⟨ws.drop k, ?_, fun v hv => hw v (List.mem_of_mem_drop hv)⟩, rfl, rfl⟩
    · rw [hs, List.take_append_of_le_length hlen, List.mem_reverse] at hv
      exact List.mem_of_mem_take hv
    · simp only [hs, List.drop_append_of_le_length hlen]

/-- What an operation leaves of a frame: clear values above `base` and in the slots, of which only the one that
it names may have changed. -/
structure After (D : Set Nat) (n : Nat) (base : List Value) (op : Op) (f g : Frame) : Prop where
  stack : ∃ ws, g.stack = ws ++ base ∧ ∀ v ∈ ws, v.Clear D n
  locals : ∀ v ∈ g.locals, v.Clear D n
  same : ∀ i : Nat, op.slot? ≠ some (i : Int) → g.locals[i]? = f.locals[i]?
  pushes : g.pushesResult = f.pushesResult

theorem Above.after {op : Op} (hg : f.Above D n base g) (hf : ∀ v ∈ f.locals, v.Clear D n) :
    f.After D n base op g := ⟨hg.stack, hg.locals ▸ hf, fun _ _ => by rw [hg.locals], hg.pushes⟩

theorem Above.after_setLocal {op : Op} (hg : f.Above D n base g) (hf : ∀ v ∈ f.locals, v.Clear D n) {i : Nat}
    (hi : op.slot? = some (i : Int)) {v : Value} (hv : v.Clear D n) : f.After D n base op (g.setLocal i v) := by
  refine ⟨hg.stack, fun w hw => ?_, fun j hj => ?_, hg.pushes⟩
  · rcases Array.mem_or_eq_of_mem_setIfInBounds hw with hw | rfl
    · exact hf w (hg.locals ▸ hw)
    · exact hv
  · have hne : i ≠ j := fun he => hj (he ▸ hi)
    rw [← hg.locals]
    exact Array.getElem?_setIfInBounds_ne hne

end Frame

def Reply.Clear (D : Set Nat) (h : Heap) : Reply → Prop
  | .value v h' _ => h.Keeps D h' ∧ v.Clear D h'.size
  | .call h' _ _ args => h.Keeps D h' ∧ ∀ v ∈ args, v.Clear D h'.size

/-- What an operation may do to a frame with values above `base`. -/
def Effect.Clear (D : Set Nat) (h : Heap) (base : List Value) (f : Frame) (op : Op) : Effect → Prop
  | .next g h' _ => h.Keeps D h' ∧ f.After D h'.size base op g
  | .call g h' _ _ args _ => h.Keeps D h' ∧ f.After D h'.size base op g ∧ ∀ v ∈ args, v.Clear D h'.size

section

variable {m : Machine} {D : Set Nat} {h : Heap} {v : Value} {args : List Value}

theorem asInstance_clear (hh : h.Hides D) (hv : v.Clear D h.size) :
    Attempt AnyCause (fun r => ∀ w ∈ r.2.map Prod.snd, w.Clear D h.size) (asInstance h v) := by
  unfold asInstance
  split
  · trivial
  · split
    · next c fs ho => exact hh.get? hv ho
    · trivial

theorem elementsOf_clear {select : Object → Option (List Value)} {note : String} (hh : h.Hides D)
    (hv : v.Clear D h.size) (hs : ∀ o es, select o = some es → es = o.values) :
    Attempt AnyCause (fun es => ∀ w ∈ es, w.Clear D h.size) (elementsOf h select v note) := by
  unfold elementsOf
  split
  · trivial
  · split
    · next es he =>
      obtain ⟨o, ho, hes⟩ := Option.bind_eq_some_iff.1 he
      exact hs o es hes ▸ hh.get? hv ho
    · trivial

theorem Object.values_of_listElems? (o : Object) (es : List Value) (he : o.listElems? = some es) : es = o.values := by
  cases o with
  | list vs => exact (Option.some.inj he).symm
  | _ => cases he

theorem Object.values_of_arrayListElems? (o : Object) (es : List Value) (he : o.arrayListElems? = some es) :
    es = o.values := by
  cases o with
  | arrayList vs => exact (Option.some.inj he).symm
  | _ => cases he

theorem constructor_clear (hh : h.Hides D) (n : NativeConstructor) (hv : v.Clear D h.size)
    (ha : ∀ w ∈ args, w.Clear D h.size) : Attempt AnyCause (h.Keeps D) (n.run h v args) := by
  have hfill : ∀ {select : Object → Option (List Value)}, (∀ o es, select o = some es → es = o.values) →
      Attempt AnyCause (h.Keeps D) (NativeConstructor.run.fillList h v args {} select) := by
    intro select hs
    unfold NativeConstructor.run.fillList
    split
    · exact (elementsOf_clear hh (argument_clear ha 0) hs).bind fun es hes => hh.set (o := .list es) hv hes
    · trivial
  cases n with
  | listOfArrayList => exact hfill Object.values_of_arrayListElems?
  | listCopy => exact hfill Object.values_of_listElems?
  | fptrBind =>
    simp only [NativeConstructor.run]
    split
    · split
      · next name _ =>
        exact hh.set (o := .fptr (argument args 0) name) hv (List.forall_mem_singleton.2 (argument_clear ha 0))
      · trivial
    · trivial

theorem dispatch_clear (hh : h.Hides D) (hv : v.Clear D h.size) (name : String) (ha : ∀ w ∈ args, w.Clear D h.size) :
    Attempt AnyCause (Reply.Clear D h) (m.dispatch h v name args) := by
  unfold Machine.dispatch
  split
  · trivial
  · split
    · trivial
    · split
      · trivial
      · split
        · trivial
        · simp only
          split
          · exact ⟨hh.keeps, List.forall_mem_cons.2 ⟨hv, ha⟩⟩
          · trivial

theorem method_clear (hh : h.Hides D) (n : NativeMethod) (hv : v.Clear D h.size) (ha : ∀ w ∈ args, w.Clear D h.size) :
    Attempt AnyCause (Reply.Clear D h) (n.run m h v args) := by
  cases n with
  | intValue | booleanValue =>
    simp only [NativeMethod.run]
    split
    · exact ⟨hh.keeps, by simp⟩
    · trivial
  | arrayListAdd =>
    simp only [NativeMethod.run]
    split
    · next es he =>
      refine ⟨hh.set (o := .arrayList _) hv fun w hw => ?_, by simp⟩
      rcases List.mem_append.1 hw with hw | hw
      · exact hh.get? hv he w hw
      · exact List.mem_singleton.1 hw ▸ argument_clear ha 0
    · trivial
  | getElement =>
    simp only [NativeMethod.run]
    split
    · next es he =>
      split
      · exact ⟨hh.keeps, argument_clear (hh.get? hv he) _⟩
      · trivial
    · trivial
  | setElement =>
    simp only [NativeMethod.run]
    split
    · next es he =>
      split
      · refine ⟨hh.set (o := .list _) hv fun w hw => ?_, by simp⟩
        rcases List.mem_or_eq_of_mem_set hw with hw | rfl
        · exact hh.get? hv he w hw
        · exact argument_clear ha 1
      · trivial
    · trivial
  | invoke =>
    simp only [NativeMethod.run]
    split
    · next receiver name he =>
      have hr : receiver.Clear D h.size := hh.get? hv he receiver (List.mem_singleton_self _)
      exact (elementsOf_clear hh (argument_clear ha 0) Object.values_of_arrayListElems?).bind fun es hes =>
        dispatch_clear hh hr name hes
    · trivial
  | printInt | printBool => exact ⟨hh.keeps, Value.clear_null⟩
  | printString =>
    simp only [NativeMethod.run]
    split
    · exact ⟨hh.keeps, Value.clear_null⟩
    · trivial

end

section

variable {m : Machine} {D : Set Nat} {h : Heap} {f : Frame} {base ws : List Value}

theorem invokeSpecial_clear (hh : h.Hides D) (hs : f.stack = ws ++ base) (hw : ∀ v ∈ ws, v.Clear D h.size)
    (hl : ∀ v ∈ f.locals, v.Clear D h.size) {r : MemberRef} (hn : base ≠ [] → argCount r.desc + 1 ≤ ws.length) :
    Attempt AnyCause (Effect.Clear D h base f (.invokeSpecial r)) (m.invokeSpecial f h r) := by
  unfold Machine.invokeSpecial
  split
  · trivial
  · refine (Frame.popMany_clear hs hw hn).bind fun ⟨vals, g⟩ ⟨hvals, hg⟩ => ?_
    simp only
    split
    · trivial
    · split
      · refine (constructor_clear hh _ (argument_clear hvals 0) fun v hv => hvals v (List.mem_of_mem_tail hv)).bind
          fun h' hkeeps => ⟨hkeeps, (hg.mono hkeeps.size).after fun v hv => (hl v hv).mono hkeeps.size⟩
      · split
        · exact ⟨hh.keeps, hg.after hl⟩
        · split
          · trivial
          · split
            · trivial
            · exact ⟨hh.keeps, hg.after hl, hvals⟩

theorem invokeVirtual_clear (hh : h.Hides D) (hs : f.stack = ws ++ base) (hw : ∀ v ∈ ws, v.Clear D h.size)
    (hl : ∀ v ∈ f.locals, v.Clear D h.size) {r : MemberRef} (hn : base ≠ [] → argCount r.desc + 1 ≤ ws.length) :
    Attempt AnyCause (Effect.Clear D h base f (.invokeVirtual r)) (m.invokeVirtual f h r) := by
  unfold Machine.invokeVirtual
  refine (Frame.popMany_clear hs hw hn).bind fun ⟨vals, g⟩ ⟨hvals, hg⟩ => ?_
  have hrecv := argument_clear hvals 0
  have hargs : ∀ v ∈ vals.tail, v.Clear D h.size := fun v hv => hvals v (List.mem_of_mem_tail hv)
  simp only
  split
  · trivial
  · split
    · refine (method_clear hh _ hrecv hargs).bind fun reply hreply => ?_
      cases reply with
      | call h' cls mc as =>
        obtain ⟨hkeeps, has⟩ := hreply
        exact ⟨hkeeps, (hg.mono hkeeps.size).after fun v hv => (hl v hv).mono hkeeps.size, has⟩
      | value v h' printed =>
        obtain ⟨hkeeps, hv⟩ := hreply
        have hl' : ∀ w ∈ f.locals, w.Clear D h'.size := fun w hw => (hl w hw).mono hkeeps.size
        simp only
        split
        · exact ((hg.mono hkeeps.size).push hv).bind fun k hk => ⟨hkeeps, hk.after hl'⟩
        · exact ⟨hkeeps, (hg.mono hkeeps.size).after hl'⟩
    · refine (asInstance_clear hh hrecv).bind fun ⟨cls, _⟩ _ => ?_
      simp only
      split
      · trivial
      · exact ⟨hh.keeps, hg.after hl, hvals⟩

theorem invokeStatic_clear (hh : h.Hides D) (hs : f.stack = ws ++ base) (hw : ∀ v ∈ ws, v.Clear D h.size)
    (hl : ∀ v ∈ f.locals, v.Clear D h.size) {r : MemberRef} (hn : base ≠ [] → argCount r.desc ≤ ws.length) :
    Attempt AnyCause (Effect.Clear D h base f (.invokeStatic r)) (Machine.invokeStatic f h r) := by
  unfold Machine.invokeStatic
  refine (Frame.popMany_clear hs hw hn).bind fun ⟨vals, g⟩ ⟨_, hg⟩ => ?_
  simp only
  split
  · trivial
  · next n _ =>
    have hrun : h.Keeps D (n.run h vals).1 ∧ (n.run h vals).2.Clear D (n.run h vals).1.size := by
      have hnew : ∀ o : Object, o.values = [] → h.Keeps D (h.push o) ∧
          (Value.ref h.size).Clear D (Array.size (h.push o)) := by
        intro o ho
        refine ⟨hh.push (by simp [ho]), fun a ha => ?_⟩
        obtain rfl := Value.ref.inj ha
        exact ⟨by simp, fun hD => Nat.lt_irrefl _ (hh.bound _ hD)⟩
      cases n <;> exact hnew _ rfl
    exact ((hg.mono hrun.1.size).push hrun.2).bind fun k hk =>
      ⟨hrun.1, hk.after fun v hv => (hl v hv).mono hrun.1.size⟩

theorem decide_clear (hs : f.stack = ws ++ base) (hw : ∀ v ∈ ws, v.Clear D h.size) {test : Jump}
    (hn : base ≠ [] → test.pops ≤ ws.length) :
    Attempt AnyCause (fun r => f.Above D h.size base r.2) (test.decide f) := by
  cases test with
  | always => exact ⟨⟨ws, hs, hw⟩, rfl, rfl⟩
  | ifZero | ifNonzero => exact (Frame.pop_clear hs hw hn).bind fun ⟨v, g⟩ hg => hg.2
  | ifInts _ | ifSame | ifDifferent => exact (Frame.popTwo_clear hs hw hn).bind fun ⟨v, w, g⟩ hg => hg.2.2

theorem new_clear (hh : h.Hides D) (hs : f.stack = ws ++ base) (hw : ∀ v ∈ ws, v.Clear D h.size)
    (hl : ∀ v ∈ f.locals, v.Clear D h.size) (cls : String) :
    Attempt AnyCause (Effect.Clear D h base f (.new cls)) (m.exec f h (.new cls)) := by
  have halloc : Attempt AnyCause (fun o => o.values = [] ∨ o.values = [.null]) (m.allocate cls) := by
    unfold Machine.allocate
    repeat' split
    all_goals simp [Attempt, fault, AnyCause, Object.values]
  refine halloc.bind fun o ho => ?_
  have hkeeps : h.Keeps D (h.push o) := by
    refine hh.push fun v hv => ?_
    rcases ho with ho | ho <;> simp_all
  have hnew : (Value.ref h.size).Clear D (Array.size (h.push o)) := by
    intro a ha
    obtain rfl := Value.ref.inj ha
    exact ⟨by simp, fun hD => Nat.lt_irrefl _ (hh.bound _ hD)⟩
  have hself : f.Above D h.size base f := ⟨⟨ws, hs, hw⟩, rfl, rfl⟩
  exact ((hself.mono hkeeps.size).push hnew).bind fun g hg =>
    ⟨hkeeps, hg.after fun v hv => (hl v hv).mono hkeeps.size⟩

/-- An operation that finds its operands above `base` works with them and with the slots only. Where nothing
is below them it may also find too few, and fail. -/
theorem exec_clear (hh : h.Hides D) (hs : f.stack = ws ++ base) (hw : ∀ v ∈ ws, v.Clear D h.size)
    (hl : ∀ v ∈ f.locals, v.Clear D h.size) {op : Op} (hn : base ≠ [] → op.pops ≤ ws.length) :
    Attempt AnyCause (Effect.Clear D h base f op) (m.exec f h op) := by
  have hself : f.Above D h.size base f := ⟨⟨ws, hs, hw⟩, rfl, rfl⟩
  have hnext : ∀ {g : Frame}, f.Above D h.size base g → Effect.Clear D h base f op (.quiet h g) := fun hg =>
    ⟨hh.keeps, hg.after hl⟩
  have hslot : ∀ i, Attempt AnyCause (fun k => i = ((k : Nat) : Int)) (f.slot i) := by
    intro i
    unfold Frame.slot
    split
    · next hi =>
      simp only [Bool.and_eq_true, decide_eq_true_eq] at hi
      exact (Int.toNat_of_nonneg hi.1).symm
    · trivial
  have hlocal : ∀ i, (f.local? i).Clear D h.size := by
    intro i
    unfold Frame.local?
    cases hi : f.locals[i]? with
    | none => exact Value.clear_null
    | some v => exact hl v (Array.mem_of_getElem? hi)
  -- Calls and allocation have lemmas of their own. The others pop what is above `base`, and push or store.
  cases op with
  | invokeSpecial r => exact invokeSpecial_clear hh hs hw hl hn
  | invokeVirtual r => exact invokeVirtual_clear hh hs hw hl hn
  | invokeStatic r => exact invokeStatic_clear hh hs hw hl hn
  | new cls => exact new_clear hh hs hw hl cls
  | jump test l =>
    refine (decide_clear hs hw hn).bind fun ⟨taken, g⟩ hg => ?_
    cases taken with
    | false => exact hnext hg
    | true =>
      show Attempt AnyCause _ (Effect.quiet h <$> g.jumpTo l)
      unfold Frame.jumpTo
      split
      · exact ⟨hh.keeps, hg.stack, hg.locals ▸ hl, fun _ _ => by rw [hg.locals], hg.pushes⟩
      · trivial
  | load k i => exact (hslot i).bind fun j _ => (hself.push (hlocal j)).map fun g hg => hnext hg
  | store k i =>
    refine (hslot i).bind fun j hj => (Frame.pop_clear hs hw hn).bind fun ⟨v, g⟩ ⟨hv, hg⟩ => ?_
    exact ⟨hh.keeps, hg.after_setLocal hl (by rw [← hj]; rfl) hv⟩
  | increment i d =>
    refine (hslot i).bind fun j hj => ?_
    exact ⟨hh.keeps, hself.after_setLocal hl (by rw [← hj]; rfl) (Value.clear_int _)⟩
  | dup =>
    exact (Frame.pop_clear hs hw hn).bind fun ⟨v, g⟩ ⟨hv, hg⟩ => (hg.push hv).bind fun k hk =>
      (hk.push hv).map fun k' hk' => hnext hk'
  | pop => exact (Frame.pop_clear hs hw hn).bind fun ⟨v, g⟩ hg => hnext hg.2
  | pushInt v => exact (hself.push (Value.clear_int _)).map fun g hg => hnext hg
  | pushString v => exact (hself.push (Value.clear_str _)).map fun g hg => hnext hg
  | pushNull => exact (hself.push Value.clear_null).map fun g hg => hnext hg
  | arith op =>
    refine (Frame.popTwo_clear hs hw hn).bind fun ⟨v, w, g⟩ hg => ?_
    refine Attempt.bind (P := fun _ => True) ?_ fun r _ => (hg.2.2.push (Value.clear_int _)).map fun k hk => hnext hk
    cases op.apply v.toInt32 w.toInt32 <;> trivial
  | neg =>
    exact (Frame.pop_clear hs hw hn).bind fun ⟨v, g⟩ hg => (hg.2.push (Value.clear_int _)).map fun k hk => hnext hk
  | label l => exact hnext hself
  | cast cls =>
    unfold Machine.exec
    simp only
    split
    · trivial
    · split
      · exact hnext hself
      · trivial
  | getField r =>
    refine (Frame.pop_clear hs hw hn).bind fun ⟨v, g⟩ ⟨hv, hg⟩ => ?_
    have hi := asInstance_clear hh hv
    simp only
    split
    · trivial
    · next c fields hv =>
      rw [hv] at hi
      exact (hg.push (fieldValue_clear hi r.name)).map fun k hk => hnext hk
  | putField r =>
    refine (Frame.popTwo_clear hs hw hn).bind fun ⟨v, w, g⟩ ⟨hv, hw, hg⟩ => ?_
    have hi := asInstance_clear hh hv
    simp only
    split
    · trivial
    · next c fields ho =>
      rw [ho] at hi
      have hkeeps := hh.set (o := .inst c _) hv (setFieldValue_clear hi r.name hw)
      exact ⟨hkeeps, (hg.mono hkeeps.size).after fun w hw => (hl w hw).mono hkeeps.size⟩
  | getStatic r =>
    unfold Machine.exec
    simp only
    split
    · exact (hself.push Value.clear_stream).map fun g hg => hnext hg
    · trivial
  | ret | retRef | unknown => trivial

end

end ClassCompiler
