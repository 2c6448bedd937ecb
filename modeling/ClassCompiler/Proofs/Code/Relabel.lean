import ClassCompiler.Code.Basic
import Mathlib.Data.Set.Function

namespace ClassCompiler

def Op.label? : Op → Option String
  | .jump _ l => some l
  | .label l => some l
  | _ => none

def MethodCode.labels (m : MethodCode) : Set String := {l | ∃ i ∈ m.code, i.op.label? = some l}

def ClassFile.labels (c : ClassFile) : Set String := {l | ∃ m ∈ c.methods, l ∈ m.labels}

section

variable (f : String → String)

def Op.relabel : Op → Op
  | .jump t l => .jump t (f l)
  | .label l => .label (f l)
  | op => op

def Instr.relabel (i : Instr) : Instr := { i with op := i.op.relabel f }

def MethodCode.relabel (m : MethodCode) : MethodCode := { m with code := m.code.map (Instr.relabel f) }

def ClassFile.relabel (c : ClassFile) : ClassFile := { c with methods := c.methods.map (MethodCode.relabel f) }

end

/-- The same file but for the names of labels, which are told apart as before. -/
def ClassFile.Renamed (c d : ClassFile) : Prop := ∃ f, Set.InjOn f c.labels ∧ d = c.relabel f

/-- The same method but for the names of labels, which are told apart as before. -/
def MethodCode.Renamed (m n : MethodCode) : Prop := ∃ f, Set.InjOn f m.labels ∧ n = m.relabel f

section

variable (f g : String → String)

theorem Op.relabel_relabel (op : Op) : (op.relabel f).relabel g = op.relabel (g ∘ f) := by
  cases op <;> rfl

theorem Op.label?_relabel (op : Op) : (op.relabel f).label? = op.label?.map f := by
  cases op <;> rfl

theorem MethodCode.relabel_relabel (m : MethodCode) : (m.relabel f).relabel g = m.relabel (g ∘ f) := by
  simp [MethodCode.relabel, Instr.relabel, Function.comp_def, Op.relabel_relabel]

theorem ClassFile.relabel_relabel (c : ClassFile) : (c.relabel f).relabel g = c.relabel (g ∘ f) := by
  simp [ClassFile.relabel, Function.comp_def, MethodCode.relabel_relabel]

theorem ClassFile.labels_relabel (c : ClassFile) : (c.relabel f).labels ⊆ Set.range f := by
  rintro l ⟨m, hm, i, hi, hl⟩
  obtain ⟨m, -, rfl⟩ := List.mem_map.1 hm
  obtain ⟨i, -, rfl⟩ := Array.mem_map.1 hi
  rw [Instr.relabel, Op.label?_relabel, Option.map_eq_some_iff] at hl
  obtain ⟨k, -, rfl⟩ := hl
  exact ⟨k, rfl⟩

end

/-- Two renamings of one file that keep all labels apart are renamings of each other. -/
theorem ClassFile.renamed_of_injective {f g : String → String} (hf : f.Injective) (hg : g.Injective) (c : ClassFile) :
    (c.relabel f).Renamed (c.relabel g) := by
  refine ⟨g ∘ Function.invFun f, ?_, ?_⟩
  · refine Set.InjOn.mono (c.labels_relabel f) ?_
    rintro _ ⟨k, rfl⟩ _ ⟨l, rfl⟩ he
    simp only [Function.comp_apply, Function.leftInverse_invFun hf k, Function.leftInverse_invFun hf l] at he
    rw [hg he]
  · rw [relabel_relabel, Function.comp_assoc, Function.invFun_comp hf, Function.comp_id]

theorem MethodCode.getElem?_relabel (f : String → String) (m : MethodCode) (i : Nat) :
    (m.relabel f).code[i]? = m.code[i]?.map (Instr.relabel f) := by
  simp [MethodCode.relabel]

theorem MethodCode.mem_labels {m : MethodCode} {n : Nat} {i : Instr} {l : String} (hi : m.code[n]? = some i)
    (hl : i.op.label? = some l) : l ∈ m.labels := ⟨i, Array.mem_of_getElem? hi, hl⟩

theorem MethodCode.isLabel_relabel {f : String → String} {m : MethodCode} (hf : Set.InjOn f m.labels) {l : String}
    (hl : l ∈ m.labels) (n : Nat) : (m.relabel f).code.isLabel (f l) n = m.code.isLabel l n := by
  rw [Code.isLabel, Code.isLabel, getElem?_relabel]
  cases hi : m.code[n]? with
  | none => rfl
  | some i =>
    obtain ⟨op, line⟩ := i
    cases op with
    | label k => simpa [Instr.relabel, Op.relabel] using hf.eq_iff (mem_labels hi rfl) hl
    | _ => rfl

theorem MethodCode.labelOffset?_relabel {f : String → String} {m : MethodCode} (hf : Set.InjOn f m.labels) {l : String}
    (hl : l ∈ m.labels) : (m.relabel f).code.labelOffset? (f l) = m.code.labelOffset? l := by
  have hbelow : ∀ n, (m.relabel f).code.labelBelow? (f l) n = m.code.labelBelow? l n := by
    intro n
    induction n with
    | zero => rfl
    | succ n ih => rw [Code.labelBelow?, Code.labelBelow?, isLabel_relabel hf hl, ih]
  rw [Code.labelOffset?, Code.labelOffset?, hbelow]
  exact congrArg _ (by simp [MethodCode.relabel])

theorem ClassFile.labels_subset {c : ClassFile} {m : MethodCode} (hm : m ∈ c.methods) : m.labels ⊆ c.labels :=
  fun _ hl => ⟨m, hm, hl⟩

namespace ClassFile.Renamed

variable {c d : ClassFile}

theorem find? (h : c.Renamed d) {P : MethodCode → Bool} (hP : ∀ f m, P (MethodCode.relabel f m) = P m) :
    Option.Rel MethodCode.Renamed (c.methods.find? P) (d.methods.find? P) := by
  obtain ⟨f, hf, rfl⟩ := h
  have hmap : (c.relabel f).methods.find? P = (c.methods.find? P).map (MethodCode.relabel f) := by
    rw [ClassFile.relabel, List.find?_map]
    exact congrArg (Option.map _) (congrArg (List.find? · _) (funext fun m => hP f m))
  rw [hmap]
  cases hm : c.methods.find? P with
  | none => exact .none
  | some m => exact .some ⟨f, hf.mono (labels_subset (List.mem_of_find?_eq_some hm)), rfl⟩

theorem method? (h : c.Renamed d) (name desc : String) :
    Option.Rel MethodCode.Renamed (c.method? name desc) (d.method? name desc) := h.find? fun _ _ => rfl

theorem methodNamed? (h : c.Renamed d) (name : String) :
    Option.Rel MethodCode.Renamed (c.methodNamed? name) (d.methodNamed? name) := h.find? fun _ _ => rfl

theorem name (h : c.Renamed d) : d.name = c.name := by
  obtain ⟨f, -, rfl⟩ := h
  rfl

theorem super (h : c.Renamed d) : d.super = c.super := by
  obtain ⟨f, -, rfl⟩ := h
  rfl

theorem table (h : c.Renamed d) : d.table = c.table := by
  obtain ⟨f, -, rfl⟩ := h
  rfl

end ClassFile.Renamed

end ClassCompiler
