import ClassCompiler.Proofs.Boxing.Methods
import ClassCompiler.Proofs.Stack.Depth

namespace ClassCompiler

/-- Where control may go from a position: to the next one, or to where the label of a jump stands. -/
inductive Code.Edge (code : Code) (j : Nat) : Nat → Prop
  | next {i : Instr} (hi : code[j]? = some i) (hf : i.op.isFinal = false) : Edge code j (j + 1)
  | jump {i : Instr} {test : Jump} {l : String} {k : Nat} (hi : code[j]? = some i) (hop : i.op = .jump test l)
      (hl : code.labelOffset? l = some k) : Edge code j k

/-- A way from the start of some code to a position, with the positions passed before, the last one first. -/
inductive Code.Path (code : Code) : List Nat → Nat → Prop
  | start : Path code [] 0
  | step {ps : List Nat} {j k : Nat} (h : Path code ps j) (he : code.Edge j k) : Path code (j :: ps) k

section

variable {σ : Type} {A : Flow σ} {code : Code} {st : Nat → σ} {j k : Nat}

/-- Along an edge the states change as the analysis allows. -/
theorem Flow.Solves.edge (h : A.Solves code st) (he : code.Edge j k) : ∃ i, code[j]? = some i ∧
    (i.op.isFinal = false ∧ A.falls i.op (st j) (st k) ∨ ∃ test l, i.op = .jump test l ∧ A.jumps test (st j) (st k)) := by
  cases he with
  | next hi hf => exact ⟨_, hi, .inl ⟨hf, h.falls hi⟩⟩
  | jump hi hop hl =>
    obtain ⟨k', hk', hjump⟩ := h.jumps hi hop
    obtain rfl := Option.some.inj (hk'.symm.trans hl)
    exact ⟨_, hi, .inr ⟨_, _, hop, hjump⟩⟩

end

end ClassCompiler
