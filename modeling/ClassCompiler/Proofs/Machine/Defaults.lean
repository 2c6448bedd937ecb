import ClassCompiler.Proofs.Code.Placed

namespace ClassCompiler

namespace Heap

def Grows (h h' : Heap) : Prop := ∀ v o, h.get? v = some o → h'.get? v = some o

theorem Grows.refl {h : Heap} : h.Grows h := fun _ _ => id

theorem Grows.trans {h h' h'' : Heap} (h₁ : h.Grows h') (h₂ : h'.Grows h'') : h.Grows h'' :=
  fun v o hv => h₂ v o (h₁ v o hv)

theorem ref_of_get? {h : Heap} {v : Value} {o : Object} (ho : h.get? v = some o) : ∃ a, v = .ref a := by
  cases v <;> simp [get?] at ho
  exact ⟨_, rfl⟩

theorem lt_size_of_get? {h : Heap} {a : Nat} {o : Object} (hv : h.get? (.ref a) = some o) : a < h.size :=
  (Array.getElem?_eq_some_iff.1 hv).1

theorem Grows.push (h : Heap) (o : Object) : h.Grows (h.push o) := by
  intro v o' hv
  cases v with
  | ref a =>
    have ha := lt_size_of_get? hv
    simp only [get?] at hv ⊢
    rw [Array.getElem?_push_lt ha, ← hv, Array.getElem?_eq_getElem ha]
  | _ => simp [get?] at hv

theorem get?_push (h : Heap) (o : Object) : get? (h.push o) (.ref h.size) = some o := by
  simp [get?]

theorem get?_set_self {h : Heap} {v : Value} {o o' : Object} (hv : h.get? v = some o) :
    (h.set v o').get? v = some o' := by
  cases v with
  | ref a => simp [get?, set, lt_size_of_get? hv]
  | _ => simp [get?] at hv

theorem get?_set_ne {h : Heap} {v w : Value} {o : Object} (hne : w ≠ v) : (h.set v o).get? w = h.get? w := by
  cases v with
  | ref a =>
    cases w with
    | ref b =>
      have hab : a ≠ b := fun hab => hne (hab ▸ rfl)
      simp [get?, set, Array.getElem?_setIfInBounds_ne hab]
    | _ => rfl
  | _ => rfl

/-- A change of an object that was not there before. -/
theorem Grows.set {h h' : Heap} (hg : h.Grows h') {a : Nat} (ha : h.size ≤ a) (o : Object) :
    h.Grows (h'.set (.ref a) o) := by
  intro v o' hv
  have hne : v ≠ .ref a := by
    rintro rfl
    have := lt_size_of_get? hv
    omega
  rw [get?_set_ne hne]
  exact hg v o' hv

end Heap

theorem Machine.allocate_list (m : Machine) : m.allocate listClass = .ok (.list []) := rfl

theorem Machine.allocate_arrayList (m : Machine) : m.allocate arrayListClass = .ok (.arrayList []) := rfl

variable {m : Machine} {mc : MethodCode} {callers : Outer} {line : Int}

/-- From a spot on, a run puts a value on the stack and leaves the objects alone. -/
def Adds (m : Machine) (mc : MethodCode) (callers : Outer) (c : Spot) (pc : Nat) : Prop :=
  ∃ v heap, c.heap.Grows heap ∧ Moves m mc callers 0 c { c with pc, stack := v :: c.stack, heap }

/-- The array list on top of the stack takes the value below it away. -/
theorem Moves.addElement {c : Spot} {a : Nat} {xs vs : List Value} {v : Value}
    (hat : CodeAt mc.code c.pc (onLine line addElement)) (hs : c.stack = v :: .ref a :: vs)
    (ho : c.heap.get? (.ref a) = some (.arrayList xs)) : Moves m mc callers 0 c
      { c with pc := c.pc + 2, stack := vs, heap := c.heap.set (.ref a) (.arrayList (xs ++ [v])) } := by
  have hrun : NativeMethod.arrayListAdd.run m c.heap (.ref a) [v] =
      .ok (.value (.ofBool true) (c.heap.set (.ref a) (.arrayList (xs ++ [v]))) "") := by
    simp only [NativeMethod.run, ho]
    rfl
  have hadd : Moves m mc callers 1 c _ := Moves.invokeVirtual [v] hat.opAt hs rfl rfl hrun
  have hpop := hadd.trans (Moves.pop hat.tail.opAt rfl)
  simpa [Spot.next] using hpop.weaken (Nat.zero_le _)

/-- A new list and the array list its elements are collected in. -/
def Spot.withList (c : Spot) : Spot :=
  ⟨c.pc + 5, .ref (c.heap.size + 1) :: .ref c.heap.size :: .ref c.heap.size :: c.stack, c.locals,
    (c.heap.push (.list [])).push (.arrayList []), c.out⟩

theorem Moves.newList {c : Spot} (hat : CodeAt mc.code c.pc (onLine line ([.new listClass, .dup] ++ newArrayList))) :
    Moves m mc callers 0 c c.withList := by
  have hnew : Moves m mc callers 1 c _ := Moves.new hat.opAt (m.allocate_list)
  have hdup := hnew.trans (Moves.dup hat.tail.opAt rfl)
  have harray := hdup.trans (Moves.new hat.tail.tail.opAt (m.allocate_arrayList))
  have hdup' := harray.trans (Moves.dup hat.tail.tail.tail.opAt rfl)
  have hinit := hdup'.trans (Moves.invokeSpecial_plain (.inr rfl) hat.tail.tail.tail.tail.opAt rfl rfl)
  exact hinit.arrive (by simp [Spot.next, Spot.withList])

mutual

theorem adds_defaultValue (m : Machine) (callers : Outer) (t : Ty) {c : Spot}
    (hat : CodeAt mc.code c.pc (onLine line (defaultValue t))) :
    Adds m mc callers c (c.pc + (defaultValue t).length) := by
  match t with
  | .int | .bool =>
    have hpush : Moves m mc callers 1 c _ := Moves.pushInt hat.opAt
    exact ⟨_, _, Heap.Grows.push _ _, (hpush.trans (Moves.invokeStatic hat.tail.opAt rfl)).weaken (Nat.zero_le _)⟩
  | .string => exact ⟨_, _, Heap.Grows.refl, (Moves.pushString hat.opAt).weaken (Nat.zero_le _)⟩
  | .null | .void | .noType | .cls _ | .fptr _ _ =>
    exact ⟨_, _, Heap.Grows.refl, (Moves.pushNull hat.opAt).weaken (Nat.zero_le _)⟩
  | .list es =>
    simp only [defaultValue, CodeAt.onLine_append_iff] at hat
    obtain ⟨⟨hnew, helements⟩, hfill⟩ := hat
    have hlist : Moves m mc callers 0 c c.withList := Moves.newList (CodeAt.onLine_append_iff.2 hnew)
    have harray : c.withList.heap.get? (.ref (c.heap.size + 1)) = some (.arrayList []) := by
      rw [← Array.size_push]
      exact Heap.get?_push _ _
    obtain ⟨xs, heap, hxs, hkeep, helems⟩ := moves_defaultElements m callers es helements rfl harray
    -- The list is older than the array list, so the elements did not touch it.
    have hempty : heap.get? (.ref c.heap.size) = some (.list []) :=
      hkeep _ _ (by simp) (Heap.Grows.push _ _ _ _ (Heap.get?_push _ _))
    have hrun : NativeConstructor.listOfArrayList.run heap (.ref c.heap.size) [.ref (c.heap.size + 1)] =
        .ok (heap.set (.ref c.heap.size) (.list xs)) := by
      simp [NativeConstructor.run, NativeConstructor.run.fillList, hempty, elementsOf, argument, Value.isNull, hxs,
        Object.arrayListElems?, bind, Except.bind, pure, Except.pure]
    have hgrows : c.heap.Grows heap := by
      intro v o hv
      refine hkeep v o ?_ (((Heap.Grows.push _ _).trans (Heap.Grows.push _ _)) v o hv)
      rintro rfl
      have := Heap.lt_size_of_get? hv
      omega
    rw [List.length_append, ← Nat.add_assoc] at hfill
    refine ⟨.ref c.heap.size, _, hgrows.set (Nat.le_refl _) (.list xs), ?_⟩
    refine ((hlist.trans helems).trans (Moves.invokeSpecial [.ref (c.heap.size + 1)] ?_ rfl rfl rfl hrun)).arrive ?_
    · exact hfill.opAt
    · simp [Spot.next, Spot.withList, defaultValue, newArrayList]
      omega

theorem moves_defaultElements (m : Machine) (callers : Outer) (es : List (String × Ty)) {c : Spot} {a : Nat}
    {xs vs : List Value} (hat : CodeAt mc.code c.pc (onLine line (defaultElements es)))
    (hs : c.stack = .ref a :: vs) (ho : c.heap.get? (.ref a) = some (.arrayList xs)) :
    ∃ xs' heap, heap.get? (.ref a) = some (.arrayList xs') ∧
      (∀ v o, v ≠ .ref a → c.heap.get? v = some o → heap.get? v = some o) ∧
      Moves m mc callers 0 c { c with pc := c.pc + (defaultElements es).length, heap } := by
  match es with
  | [] => exact ⟨xs, c.heap, ho, fun _ _ _ => id, .refl⟩
  | (_, t) :: es =>
    simp only [defaultElements, CodeAt.onLine_append_iff] at hat
    obtain ⟨⟨hvalue, hadd⟩, hrest⟩ := hat
    rw [List.length_append, List.length_cons, Nat.add_comm _ 1, ← Nat.add_assoc, ← Nat.add_assoc] at hrest
    rw [List.length_cons, Nat.add_comm _ 1, ← Nat.add_assoc] at hadd
    have hdup : Moves m mc callers 1 c _ := Moves.dup hvalue.opAt hs
    obtain ⟨v, heap, hg, hv⟩ := adds_defaultValue m callers t (c := c.next (.ref a :: .ref a :: vs)) hvalue.tail
    have hvalue' := hdup.trans hv
    have hset := hvalue'.trans (Moves.addElement hadd rfl (hg _ _ ho))
    obtain ⟨xs', heap', hxs', hkeep, helems⟩ := moves_defaultElements m callers es
      (c := ⟨_, _, c.locals, heap.set (.ref a) (.arrayList (xs ++ [v])), c.out⟩) hrest rfl
      (Heap.get?_set_self (hg _ _ ho))
    refine ⟨xs', heap', hxs', fun w o hw hget => hkeep w o hw ?_, ?_⟩
    · rw [Heap.get?_set_ne hw]
      exact hg w o hget
    · refine (hset.trans helems).arrive ?_
      simp [defaultElements, addElement, hs]
      omega

end

theorem Heap.isNull_of_get? {h : Heap} {v : Value} {o : Object} (hv : h.get? v = some o) : v.isNull = false := by
  cases v <;> simp_all [Heap.get?, Value.isNull]

/-- The fields of the receiver get their defaults. -/
theorem Moves.fieldDefaults (m : Machine) (callers : Outer) (d : ClassDecl) (fs : List VarDecl) {c : Spot} {this : Value} {cls : String}
    {fields : List (String × Value)} (hat : CodeAt mc.code c.pc (onLine line (fs.flatMap d.fieldDefault)))
    (hthis : c.locals[0]? = some this) (ho : c.heap.get? this = some (.inst cls fields)) :
    ∃ heap, Moves m mc callers 0 c { c with pc := c.pc + (fs.flatMap d.fieldDefault).length, heap } := by
  induction fs generalizing c fields with
  | nil => exact ⟨c.heap, .refl⟩
  | cons f fs ih =>
    simp only [List.flatMap_cons, ClassDecl.fieldDefault, CodeAt.onLine_append_iff] at hat
    obtain ⟨⟨hvalue, hput⟩, hrest⟩ := hat
    rw [List.length_append, List.length_cons, Nat.add_comm _ 1, ← Nat.add_assoc, ← Nat.add_assoc] at hrest
    rw [List.length_cons, Nat.add_comm _ 1, ← Nat.add_assoc] at hput
    have hload : Moves m mc callers 1 c _ := Moves.load hvalue.opAt hthis
    obtain ⟨v, heap, hg, hv⟩ := adds_defaultValue m callers f.type (c := c.next (this :: c.stack)) hvalue.tail
    have hset := (hload.trans hv).trans (Moves.putField hput.opAt rfl (Heap.isNull_of_get? ho) (hg _ _ ho))
    obtain ⟨heap', hfields⟩ := ih (c := ⟨_, c.stack, c.locals, heap.set this (.inst cls
      (setFieldValue fields f.name.name v)), c.out⟩) hrest hthis (Heap.get?_set_self (hg _ _ ho))
    refine ⟨heap', (hset.trans hfields).arrive ?_⟩
    simp [ClassDecl.fieldDefault]
    omega

/-- A class without a parent has the root class for one, whose constructor does nothing. -/
theorem Moves.prologue (m : Machine) (callers : Outer) {d : ClassDecl} {c : Spot} {this : Value} (hsuper : d.superName = rootClass)
    (hat : CodeAt mc.code c.pc (d.prologue line)) (hthis : c.locals[0]? = some this) (hnull : this.isNull = false)
    (ho : d.fields = [] ∨ ∃ cls fields, c.heap.get? this = some (.inst cls fields)) :
    ∃ heap, Moves m mc callers 0 c { c with pc := c.pc + (d.prologue line).length, heap } := by
  simp only [ClassDecl.prologue, CodeAt.onLine_append_iff, hsuper] at hat
  obtain ⟨hcall, hfields⟩ := hat
  have hload : Moves m mc callers 1 c _ := Moves.load hcall.opAt hthis
  have hinit := hload.trans (Moves.invokeSpecial_plain (.inl rfl) hcall.tail.opAt rfl hnull)
  rcases ho with hempty | ⟨cls, fields, ho⟩
  · refine ⟨c.heap, hinit.arrive ?_⟩
    simp [Spot.next, ClassDecl.prologue, hempty, length_onLine]
  · obtain ⟨heap, hmove⟩ := Moves.fieldDefaults m callers d d.fields (c := ⟨_, c.stack, c.locals, c.heap, c.out⟩) hfields
      hthis ho
    refine ⟨heap, (hinit.trans hmove).arrive ?_⟩
    simp [ClassDecl.prologue, length_onLine]
    omega

end ClassCompiler
