import ClassCompiler.Proofs.Compile.Labels
import ClassCompiler.Proofs.Machine.Moves

namespace ClassCompiler

theorem length_onLine (line : Int) (os : List Op) : (onLine line os).length = os.length := List.length_map _

/-- Instructions stand in some code from a position on. -/
def CodeAt (code : Code) (pc : Nat) (is : List Instr) : Prop :=
  ∀ j i, is[j]? = some i → code[pc + j]? = some i

namespace CodeAt

variable {code : Code} {pc : Nat} {is js : List Instr}

theorem append_iff : CodeAt code pc (is ++ js) ↔ CodeAt code pc is ∧ CodeAt code (pc + is.length) js := by
  refine ⟨fun h => ⟨fun j i hi => ?_, fun j i hi => ?_⟩, fun h j i hi => ?_⟩
  · have hj : j < is.length := (List.getElem?_eq_some_iff.1 hi).1
    exact h j i (by rw [List.getElem?_append_left hj, hi])
  · rw [Nat.add_assoc]
    exact h _ i (by rw [List.getElem?_append_right (by omega), Nat.add_sub_cancel_left, hi])
  · by_cases hj : j < is.length
    · rw [List.getElem?_append_left hj] at hi
      exact h.1 j i hi
    · rw [List.getElem?_append_right (by omega)] at hi
      have := h.2 _ i hi
      rwa [Nat.add_assoc, Nat.add_sub_cancel' (by omega)] at this

theorem onLine_cons_iff {line : Int} {op : Op} {ops : List Op} :
    CodeAt code pc (onLine line (op :: ops)) ↔
      code[pc]? = some ⟨op, line⟩ ∧ CodeAt code (pc + 1) (onLine line ops) := by
  have h : onLine line (op :: ops) = [⟨op, line⟩] ++ onLine line ops := rfl
  rw [h, append_iff]
  refine and_congr_left fun _ => ⟨fun h => h 0 _ rfl, fun h j i hi => ?_⟩
  cases j with
  | zero =>
    obtain rfl := Option.some.inj hi
    exact h
  | succ j => simp at hi

theorem onLine_append_iff {line : Int} {os os' : List Op} : CodeAt code pc (onLine line (os ++ os')) ↔
    CodeAt code pc (onLine line os) ∧ CodeAt code (pc + os.length) (onLine line os') := by
  rw [onLine, List.map_append, append_iff, List.length_map]
  rfl

theorem nil : CodeAt code pc [] := by
  intro j i hi
  simp at hi

theorem self (is : List Instr) : CodeAt is.toArray 0 is := by
  intro j i hi
  simpa using hi

theorem of_eq {before inner rest : List Instr} (h : code.toList = before ++ inner ++ rest) :
    CodeAt code before.length inner := by
  intro j i hi
  have hj : j < inner.length := (List.getElem?_eq_some_iff.1 hi).1
  rw [← Array.getElem?_toList, h, List.append_assoc, List.getElem?_append_right (Nat.le_add_right _ _),
    Nat.add_sub_cancel_left, List.getElem?_append_left hj, hi]

theorem opAt {line : Int} {op : Op} {ops : List Op} (h : CodeAt code pc (onLine line (op :: ops))) :
    OpAt code pc op := ⟨line, (onLine_cons_iff.1 h).1⟩

theorem tail {line : Int} {op : Op} {ops : List Op} (h : CodeAt code pc (onLine line (op :: ops))) :
    CodeAt code (pc + 1) (onLine line ops) := (onLine_cons_iff.1 h).2

end CodeAt

def LabelsOnce (code : Code) : Prop := ∀ l, labelCount code.toList l ≤ 1

theorem LabelsOnce.offset {code : Code} (h : LabelsOnce code) {k : Nat} {l : String}
    (hl : OpAt code k (.label l)) : code.labelOffset? l = some k := by
  obtain ⟨line, hl⟩ := hl
  have := labelOffset?_of_labelAt (h l) (j := k) ⟨line, by rw [Array.getElem?_toList, hl]⟩
  rwa [Array.toArray_toList] at this

end ClassCompiler
