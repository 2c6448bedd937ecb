import ClassCompiler.Proofs.Compile.Methods
import ClassCompiler.Proofs.Typing.Known

namespace ClassCompiler

@[simp] def Op.slot? : Op → Option Int
  | .load _ i => some i
  | .store _ i => some i
  | .increment i _ => some i
  | _ => none

def slotsOf (os : List Op) : List Int := os.filterMap Op.slot?

section

variable {op : Op} {os os' : List Op}

@[simp] theorem slotsOf_nil : slotsOf [] = [] := rfl

@[simp] theorem slotsOf_cons : slotsOf (op :: os) = op.slot?.toList ++ slotsOf os := by
  rw [slotsOf, List.filterMap_cons]
  cases op.slot? <;> rfl

@[simp] theorem slotsOf_append : slotsOf (os ++ os') = slotsOf os ++ slotsOf os' := List.filterMap_append

@[simp] theorem slotsOf_box (t : Ty) : slotsOf (box t) = [] := by cases t <;> simp [box]

@[simp] theorem slotsOf_unbox (t : Ty) : slotsOf (unbox t) = [] := by cases t <;> simp [unbox]

@[simp] theorem slotsOf_narrow (t : Ty) : slotsOf (narrow t) = [] := by cases t <;> simp [narrow]

@[simp] theorem slotsOf_newArrayList : slotsOf newArrayList = [] := rfl

@[simp] theorem slotsOf_addElement : slotsOf addElement = [] := rfl

@[simp] theorem slotsOf_branchMerge (j : Jump) (taken : Int) (yes after : String) :
    slotsOf (branchMerge j taken yes after) = [] := rfl

@[simp] theorem slotsOf_changeBy (delta : Int) (isPre : Bool) (slot : Nat) :
    slotsOf (changeBy delta isPre slot) = [(slot : Int)] := by cases isPre <;> simp [changeBy]

@[simp] theorem slotsOf_copyBegin (left right : Ty) : slotsOf (copyBegin left right) = [] := by
  unfold copyBegin
  split <;> simp

@[simp] theorem slotsOf_copyEnd (left right : Ty) : slotsOf (copyEnd left right) = [] := by
  unfold copyEnd
  split <;> simp

@[simp] theorem slotsOf_callResultOps (t : Ty) : slotsOf (Context.callResultOps t) = [] := by
  cases t with
  | fptr ps r => cases h : r.isVoid <;> simp [Context.callResultOps, h]
  | _ => simp [Context.callResultOps]

@[simp] theorem slotsOf_returnValue (t : Ty) : slotsOf (returnValue t) = [] := by
  unfold returnValue
  split <;> simp

@[simp] theorem slotsOf_castElement (t : Ty) : slotsOf (castElement t) = [] := by
  unfold castElement
  split <;> simp

@[simp] theorem slotsOf_changeVariable (slot : Nat) (op : UnOp) :
    slotsOf (changeVariable slot op) = [(slot : Int), (slot : Int)] := by
  cases h : op.isPre <;> simp [changeVariable, h]

mutual

@[simp] theorem slotsOf_defaultValue (t : Ty) : slotsOf (defaultValue t) = [] := by
  match t with
  | .int | .bool | .string | .null | .void | .noType | .cls _ | .fptr _ _ => simp [defaultValue]
  | .list es => simp [defaultValue, slotsOf_defaultElements es]

@[simp] theorem slotsOf_defaultElements (es : List (String × Ty)) : slotsOf (defaultElements es) = [] := by
  match es with
  | [] => rfl
  | (_, t) :: es => simp [defaultElements, slotsOf_defaultValue t, slotsOf_defaultElements es]

end

end

theorem MethodDecl.localSlot_lt (m : MethodDecl) (v : VarDecl) : m.localSlot v < m.slotCount := by
  unfold localSlot
  cases hs : m.symbol? v.name.name with
  | none => exact m.slotCount_pos
  | some sym => exact (symbol?_slot_lt hs).2

theorem MethodDecl.localSlot_pos {m : MethodDecl} {v : VarDecl} (hv : v ∈ m.locals) : 0 < m.localSlot v := by
  obtain ⟨sym, hs⟩ := symbol?_of_mem_locals hv
  rw [localSlot, hs]
  exact (symbol?_slot_lt hs).1

/-- A slot of one of `n` variables, or one taken from the first of two supplies to the second. -/
def OwnSlot (n : Nat) (s s' : Supply) (i : Int) : Prop := 0 ≤ i ∧ (i < n ∨ s.slots ≤ i ∧ i < s'.slots)

theorem OwnSlot.mono {n : Nat} {s s' t t' : Supply} {i : Int} (h : OwnSlot n t t' i) (hs : s.slots ≤ t.slots)
    (hs' : t'.slots ≤ s'.slots) : OwnSlot n s s' i := by
  unfold OwnSlot at *
  omega

/-- The operations of an item name own slots; the supplies of its parts lie between those of the piece. -/
def Item.SlotsWithin (n : Nat) (s s' : Supply) : Item → Prop
  | .ops _ os => ∀ i ∈ slotsOf os, OwnSlot n s s' i
  | .part _ t _ t' _ => s.slots ≤ t.slots ∧ t'.slots ≤ s'.slots

variable {ctx : Context} {q : Piece} {s s' : Supply} {code : List Instr} {sp : List Span}

theorem Rule.slots {items : List Item} (hr : Rule ctx q s items s')
    (hp : Parts (fun _ t _ t' _ => t.slots ≤ t'.slots) items) :
    ∀ i ∈ items, i.SlotsWithin ctx.method.slotCount s s' := by
  have hpos := ctx.method.slotCount_pos
  have hsym := @MethodDecl.symbol?_slot_lt ctx.method
  cases hr
  case ident hs | changeIdent hs | assignIdent hs | foreach hs =>
    have hslot := (hsym hs).2
    simp [Item.SlotsWithin, OwnSlot] at hp ⊢
    omega
  all_goals
    simp [Item.SlotsWithin, OwnSlot, ClassCompiler.changeElement, ClassCompiler.changeField, storeElementOps,
      storeField] at hp ⊢
    try omega

/-- The code of a piece names slots of variables, and slots that were taken for it. -/
theorem Emits.slots (h : Emits ctx q s code s' sp) :
    ∀ i ∈ slotsOf (code.map Instr.op), OwnSlot ctx.method.slotCount s s' i := by
  induction h with
  | @intro q s s' items code hr hp hc _ ih =>
    subst hc
    have hmono := Parts.iff_forall_mem.2 fun q t c t' sp hm => (hp q t c t' sp hm).slots_mono
    have hitems := hr.slots hmono
    intro i hi
    simp only [slotsOf, codeOf, List.map_flatMap, List.filterMap_flatMap, List.mem_flatMap] at hi
    obtain ⟨item, hitem, hi⟩ := hi
    have hwithin := hitems item hitem
    cases item with
    | ops line os => exact hwithin i (by simpa [Item.code, onLine, slotsOf] using hi)
    | part q t c t' sp => exact (ih q t c t' sp hitem i hi).mono hwithin.1 hwithin.2

end ClassCompiler
