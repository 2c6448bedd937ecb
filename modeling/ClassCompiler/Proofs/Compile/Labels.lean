import ClassCompiler.Proofs.Code.Flow

namespace ClassCompiler

def labelCount (code : List Instr) (l : String) : Nat := code.countP (·.op = .label l)

@[simp] theorem labelCount_nil (l : String) : labelCount [] l = 0 := rfl

@[simp] theorem labelCount_append (c₁ c₂ : List Instr) (l : String) :
    labelCount (c₁ ++ c₂) l = labelCount c₁ l + labelCount c₂ l := List.countP_append

@[simp] theorem labelCount_codeOf_cons (i : Item) (is : List Item) (l : String) :
    labelCount (codeOf (i :: is)) l = labelCount i.code l + labelCount (codeOf is) l := by
  rw [codeOf_cons, labelCount_append]

def opLabelCount (os : List Op) (l : String) : Nat := os.countP (· = .label l)

@[simp] theorem labelCount_onLine (line : Int) (os : List Op) (l : String) :
    labelCount (onLine line os) l = opLabelCount os l := by
  simp only [labelCount, onLine, List.countP_map, opLabelCount]
  rfl

@[simp] theorem opLabelCount_nil (l : String) : opLabelCount [] l = 0 := rfl

@[simp] theorem opLabelCount_cons (op : Op) (os : List Op) (l : String) :
    opLabelCount (op :: os) l = opLabelCount os l + if op = .label l then 1 else 0 := by
  simp [opLabelCount, List.countP_cons]

@[simp] theorem opLabelCount_append (os₁ os₂ : List Op) (l : String) :
    opLabelCount (os₁ ++ os₂) l = opLabelCount os₁ l + opLabelCount os₂ l := List.countP_append

section

variable (t u : Ty) (l : String)

@[simp] theorem opLabelCount_box : opLabelCount (box t) l = 0 := by
  cases t <;> simp [box]

@[simp] theorem opLabelCount_unbox : opLabelCount (unbox t) l = 0 := by
  cases t <;> simp [unbox]

@[simp] theorem opLabelCount_narrow : opLabelCount (narrow t) l = 0 := by
  cases t <;> simp [narrow]

@[simp] theorem opLabelCount_newArrayList : opLabelCount newArrayList l = 0 := by simp [newArrayList]

@[simp] theorem opLabelCount_addElement : opLabelCount addElement l = 0 := by simp [addElement]

@[simp] theorem opLabelCount_copyBegin : opLabelCount (copyBegin t u) l = 0 := by
  unfold copyBegin
  split <;> simp

@[simp] theorem opLabelCount_copyEnd : opLabelCount (copyEnd t u) l = 0 := by
  unfold copyEnd
  split <;> simp

@[simp] theorem opLabelCount_callResultOps : opLabelCount (Context.callResultOps t) l = 0 := by
  cases t with
  | fptr ps r => cases hr : r.isVoid <;> simp [Context.callResultOps, hr]
  | _ => rfl

@[simp] theorem opLabelCount_changeBy (delta : Int) (isPre : Bool) (slot : Nat) :
    opLabelCount (changeBy delta isPre slot) l = 0 := by
  cases isPre <;> simp [changeBy]

@[simp] theorem opLabelCount_changeVariable (slot : Nat) (op : UnOp) :
    opLabelCount (changeVariable slot op) l = 0 := by
  cases hp : op.isPre <;> simp [changeVariable, hp]

@[simp] theorem opLabelCount_changeElement (list val : Nat) (index : Op) (op : UnOp) :
    opLabelCount (changeElement list val index op) l = 2 * opLabelCount [index] l := by
  by_cases h : index = .label l <;> simp [changeElement, h]

@[simp] theorem opLabelCount_changeField (obj val : Nat) (field : MemberRef) (op : UnOp) :
    opLabelCount (changeField obj val field op) l = 0 := by
  simp [changeField]

@[simp] theorem opLabelCount_storeElementOps (index : Op) :
    opLabelCount (storeElementOps t u index) l = opLabelCount [index] l := by
  simp [storeElementOps]

@[simp] theorem opLabelCount_storeField (field : MemberRef) :
    opLabelCount (storeField t u field) l = 0 := by
  simp [storeField]

@[simp] theorem opLabelCount_returnValue : opLabelCount (returnValue t) l = 0 := by
  unfold returnValue
  split <;> simp

@[simp] theorem opLabelCount_castElement : opLabelCount (castElement t) l = 0 := by
  unfold castElement
  split <;> simp

end

/-- The labels that code places, each once, are taken from the supply. -/
structure PlacesOnce (s : Supply) (code : List Instr) (s' : Supply) (n : Nat) : Prop where
  mono : s.labels ≤ s'.labels
  once : labelCount code (labelName n) ≤ 1
  free : labelCount code (labelName n) ≠ 0 → s.labels ≤ n ∧ n < s'.labels

theorem placesOnce_iff {s s' : Supply} {code : List Instr} {n : Nat} : PlacesOnce s code s' n ↔
    s.labels ≤ s'.labels ∧ labelCount code (labelName n) ≤ 1 ∧
      (labelCount code (labelName n) ≠ 0 → s.labels ≤ n ∧ n < s'.labels) :=
  ⟨fun h => ⟨h.1, h.2, h.3⟩, fun h => ⟨h.1, h.2.1, h.2.2⟩⟩

variable {ctx : Context} {p : Piece} {s s' : Supply} {code : List Instr} {sp : List Span}

theorem Emits.placesOnce (h : Emits ctx p s code s' sp) (n : Nat) : PlacesOnce s code s' n := by
  induction h with
  | intro hr hp hc hg ih =>
    subst hc
    replace ih := Parts.iff_forall_mem.2 ih
    clear hp hg
    rw [placesOnce_iff]
    cases hr <;>
    simp only [Parts.part_iff, Parts.ops_iff, Parts.nil_iff, placesOnce_iff, codeOf_nil, labelCount_nil,
      labelCount_codeOf_cons, Item.code, labelCount_onLine, opLabelCount_cons, opLabelCount_nil, opLabelCount_append,
      opLabelCount_box, opLabelCount_unbox, opLabelCount_narrow, opLabelCount_newArrayList, opLabelCount_addElement,
      opLabelCount_copyBegin, opLabelCount_copyEnd, opLabelCount_callResultOps, opLabelCount_changeVariable,
      opLabelCount_changeElement, opLabelCount_changeField, opLabelCount_storeElementOps, opLabelCount_storeField,
      opLabelCount_returnValue, opLabelCount_castElement, branchMerge, Supply.label, Supply.take_labels, labelName_inj,
      Op.label.injEq, reduceCtorEq, if_false] at ih ⊢ <;>
    (try split_ifs) <;> omega

theorem Emits.labelCount_eq_zero (h : Emits ctx p s code s' sp) {l : String}
    (hl : ∀ n, labelName n ≠ l) : labelCount code l = 0 := by
  induction h with
  | intro hr hp hc hg ih =>
    subst hc
    replace ih := Parts.iff_forall_mem.2 ih
    clear hp hg
    cases hr <;>
    simp only [Parts.part_iff, Parts.ops_iff, Parts.nil_iff, codeOf_nil, labelCount_nil, labelCount_codeOf_cons,
      Item.code, labelCount_onLine, opLabelCount_cons, opLabelCount_nil, opLabelCount_append, opLabelCount_box,
      opLabelCount_unbox, opLabelCount_narrow, opLabelCount_newArrayList, opLabelCount_addElement,
      opLabelCount_copyBegin, opLabelCount_copyEnd, opLabelCount_callResultOps, opLabelCount_changeVariable,
      opLabelCount_changeElement, opLabelCount_changeField, opLabelCount_storeElementOps, opLabelCount_storeField,
      opLabelCount_returnValue, opLabelCount_castElement, branchMerge, Supply.label, hl, Op.label.injEq, reduceCtorEq,
      if_false] at ih ⊢ <;>
    omega

theorem Emits.labelCount_le_one (h : Emits ctx p s code s' sp) (l : String) : labelCount code l ≤ 1 := by
  by_cases hl : ∃ n, labelName n = l
  · obtain ⟨n, rfl⟩ := hl
    exact (h.placesOnce n).once
  · have := h.labelCount_eq_zero (l := l) (by simpa using hl)
    omega

theorem labelCount_pos_of_labelAt {l : String} {j : Nat} (h : LabelAt code j l) :
    0 < labelCount code l := by
  obtain ⟨line, h⟩ := h
  exact List.countP_pos_iff.2 ⟨_, List.mem_of_getElem? h, by simp⟩

theorem not_labelAt_of_lt {l : String} {j k : Nat} (h : labelCount code l ≤ 1) (hjk : j < k)
    (hj : LabelAt code j l) : ¬ LabelAt code k l := by
  rintro ⟨line, hk⟩
  obtain ⟨line', hj⟩ := hj
  have hbefore : 0 < labelCount (code.take (j + 1)) l :=
    labelCount_pos_of_labelAt (j := j) ⟨line', by rw [List.getElem?_take_of_lt (by omega), hj]⟩
  have hafter : 0 < labelCount (code.drop (j + 1)) l :=
    labelCount_pos_of_labelAt (j := k - (j + 1))
      ⟨line, by rw [List.getElem?_drop, Nat.add_sub_cancel' (by omega), hk]⟩
  rw [← List.take_append_drop (j + 1) code, labelCount_append] at h
  omega

theorem labelAt_unique {l : String} {j k : Nat} (h : labelCount code l ≤ 1) (hj : LabelAt code j l)
    (hk : LabelAt code k l) : j = k := by
  rcases Nat.lt_trichotomy j k with hlt | heq | hgt
  · exact absurd hk (not_labelAt_of_lt h hlt hj)
  · exact heq
  · exact absurd hj (not_labelAt_of_lt h hgt hk)

theorem labelAt_of_labelOffset? {l : String} {j : Nat} (h : Code.labelOffset? code.toArray l = some j) :
    LabelAt code j l := by
  have key : ∀ n, Code.labelBelow? code.toArray l n = some j → LabelAt code j l := by
    intro n
    induction n with
    | zero => simp [Code.labelBelow?]
    | succ n ih =>
      intro hn
      unfold Code.labelBelow? at hn
      split at hn
      · next hl =>
        obtain rfl := Option.some.inj hn
        unfold Code.isLabel at hl
        split at hl
        · next l' line he =>
          obtain rfl := of_decide_eq_true hl
          exact ⟨line, by rwa [List.getElem?_toArray] at he⟩
        · simp at hl
      · exact ih hn
  exact key _ h

theorem labelOffset?_isSome_of_labelAt {code : List Instr} {j : Nat} {l : String} (h : LabelAt code j l) :
    (Code.labelOffset? code.toArray l).isSome := by
  obtain ⟨line, hj⟩ := h
  have hlabel : Code.isLabel code.toArray l j = true := by simp [Code.isLabel, hj]
  have key : ∀ n, j < n → (Code.labelBelow? code.toArray l n).isSome := by
    intro n hn
    induction n with
    | zero => omega
    | succ n ih =>
      unfold Code.labelBelow?
      split
      · rfl
      · next hne =>
        refine ih (Nat.lt_of_le_of_ne (Nat.le_of_lt_succ hn) fun he => hne ?_)
        rw [← he, hlabel]
  exact key _ (by simpa using (List.getElem?_eq_some_iff.1 hj).1)

/-- A label that is placed once is where a jump to it goes. -/
theorem labelOffset?_of_labelAt {code : List Instr} {j : Nat} {l : String} (hl : labelCount code l ≤ 1)
    (h : LabelAt code j l) : Code.labelOffset? code.toArray l = some j := by
  obtain ⟨k, hk⟩ := Option.isSome_iff_exists.1 (labelOffset?_isSome_of_labelAt h)
  rw [hk, labelAt_unique hl h (labelAt_of_labelOffset? hk)]

end ClassCompiler
