import ClassCompiler.Proofs.Code.Flow
import ClassCompiler.Proofs.Compile.Labels
import ClassCompiler.Proofs.Compile.Accepted
import ClassCompiler.Proofs.Code.Native

namespace ClassCompiler

def Jump.pops : Jump → Nat
  | .always => 0
  | .ifZero => 1
  | .ifNonzero => 1
  | .ifInts _ => 2
  | .ifSame => 2
  | .ifDifferent => 2

namespace Op

def pops : Op → Nat
  | .store _ _ => 1
  | .dup => 1
  | .pop => 1
  | .arith _ => 2
  | .neg => 1
  | .jump test _ => test.pops
  | .cast _ => 1
  | .getField _ => 1
  | .putField _ => 2
  | .invokeSpecial r => argCount r.desc + 1
  | .invokeVirtual r => argCount r.desc + 1
  | .invokeStatic r => argCount r.desc
  | .retRef => 1
  | _ => 0

/-- How many values an operation leaves in place of those it takes. -/
def pushes : Op → Nat
  | .pushInt _ => 1
  | .pushString _ => 1
  | .pushNull => 1
  | .load _ _ => 1
  | .dup => 2
  | .arith _ => 1
  | .neg => 1
  | .new _ => 1
  | .cast _ => 1
  | .getField _ => 1
  | .getStatic _ => 1
  | .invokeVirtual r => if returnsVoid r.desc then 0 else 1
  | .invokeStatic _ => 1
  | _ => 0

/-- Whether control never goes on to the next operation. -/
def isFinal : Op → Bool
  | .jump .always _ => true
  | .ret => true
  | .retRef => true
  | _ => false

/-- Operations that go on to the next one, and nothing else does. -/
@[simp] def isStraight : Op → Bool
  | .jump _ _ => false
  | .label _ => false
  | .ret => false
  | .retRef => false
  | _ => true

end Op

/-- The depth of the operand stack: it is never too small for an operation. -/
def depthFlow : Flow Nat where
  falls op a b := op.pops ≤ a ∧ (op.isFinal = false → b = a - op.pops + op.pushes)
  jumps test a x := x = a - test.pops

/-- An expression adds one value, a statement none, and statements stand at depth zero. -/
def depthClaim (ctx : Context) : Claim Nat := fun T p _ a b => p.Clean ctx ∧
  match p with
  | .expr _ => b = a + 1
  | .elements _ _ => b = a ∧ 1 ≤ a
  | .args es => b = a + es.length
  | .update _ => b = 0 ∧ a = 0
  | .test _ done _ => b = 0 ∧ a = 0 ∧ T done 0
  | .stmt loop _ | .stmts loop _ | .orElse loop _ =>
    b = 0 ∧ a = 0 ∧ ∀ lp, loop = some lp → T lp.next 0 ∧ T lp.done 0

theorem depthFlow_falls {op : Op} {a b : Nat} : depthFlow.falls op a b ↔
    op.pops ≤ a ∧ (op.isFinal = false → b = a - op.pops + op.pushes) := Iff.rfl

theorem depthFlow_jumps {test : Jump} {a x : Nat} : depthFlow.jumps test a x ↔ x = a - test.pops := Iff.rfl

namespace Depth

variable {T : Targets Nat} {own : String → Option Nat} {a b : Nat} {t u : Ty}

attribute [local simp] Flow.Path Flow.Step depthFlow_falls Op.isFinal Op.pops Op.pushes NativeMethod.arity
  NativeMethod.answers NativeConstructor.arity

@[simp] theorem path_box : depthFlow.Path T own (box t) (a + 1) b ↔ b = a + 1 := by
  cases t <;> simp [box]

@[simp] theorem path_unbox : depthFlow.Path T own (unbox t) (a + 1) b ↔ b = a + 1 := by
  cases t <;> simp [unbox]

@[simp] theorem path_narrow : depthFlow.Path T own (narrow t) (a + 1) b ↔ b = a + 1 := by
  cases t <;> simp [narrow]

@[simp] theorem path_changeBy {delta : Int} {isPre : Bool} {slot : Nat} :
    depthFlow.Path T own (changeBy delta isPre slot) (a + 1) b ↔ b = a + 1 := by
  cases isPre <;> simp [changeBy]

@[simp] theorem path_callResultOps :
    depthFlow.Path T own (Context.callResultOps t) (a + 1) b ↔ b = a + 1 := by
  cases t with
  | fptr ps r => cases hr : r.isVoid <;> simp [Context.callResultOps, hr]
  | _ => simp [Context.callResultOps]

@[simp] theorem path_changeVariable {slot : Nat} {op : UnOp} :
    depthFlow.Path T own (changeVariable slot op) a b ↔ b = a + 1 := by
  cases hp : op.isPre <;> simp [changeVariable, hp, Flow.path_append]

def IsIndex (op : Op) : Prop := (∃ slot, op = .load .int slot) ∨ ∃ i, op = .pushInt i

@[simp] theorem isIndex_load (slot : Int) : IsIndex (.load .int slot) := .inl ⟨slot, rfl⟩

@[simp] theorem isIndex_pushInt (i : Int) : IsIndex (.pushInt i) := .inr ⟨i, rfl⟩

theorem path_changeElement {list val : Nat} {index : Op} {op : UnOp} (hi : IsIndex index) :
    depthFlow.Path T own (changeElement list val index op) a b ↔ b = a + 1 := by
  rcases hi with ⟨i, rfl⟩ | ⟨i, rfl⟩ <;>
  simp [changeElement, Flow.path_append]

@[simp] theorem path_changeField {obj val : Nat} {field : MemberRef} {op : UnOp} :
    depthFlow.Path T own (changeField obj val field op) a b ↔ b = a + 1 := by
  simp [changeField, Flow.path_append]

/-- How many values stand below a value that is copied. -/
def copyDepth (left right : Ty) : Nat := if left.isList && right.isList then 2 else 0

@[simp] theorem path_copyBegin : depthFlow.Path T own (copyBegin t u) a b ↔ b = a + copyDepth t u := by
  unfold copyBegin copyDepth
  split <;> simp

@[simp] theorem path_copyEnd :
    depthFlow.Path T own (copyEnd t u) (a + copyDepth t u + 1) b ↔ b = a + 1 := by
  unfold copyEnd copyDepth
  split <;> simp

theorem path_storeElementOps {index : Op} (hi : IsIndex index) :
    depthFlow.Path T own (storeElementOps t u index) (a + 4) b ↔ b = a + 1 := by
  rcases hi with ⟨i, rfl⟩ | ⟨i, rfl⟩ <;>
  simp [storeElementOps, Flow.path_append]

@[simp] theorem path_storeField {field : MemberRef} :
    depthFlow.Path T own (storeField t u field) (a + 3) b ↔ b = a + 1 := by
  simp [storeField, Flow.path_append]

@[simp] theorem path_castElement : depthFlow.Path T own (castElement t) (a + 1) b ↔ b = a + 1 := by
  unfold castElement
  split <;> simp

@[simp] theorem path_returnValue : depthFlow.Path T own (returnValue t) (a + 1) b ↔ True := by
  unfold returnValue
  split <;> simp [Flow.path_append]

theorem isFinal_jump {test : Jump} {l : String} (h : test ≠ .always) :
    (Op.jump test l).isFinal = false := by
  cases test <;> simp_all [Op.isFinal]

/-- A test that takes `n` values and leaves one of two numbers. -/
theorem path_branchMerge {test : Jump} {taken : Int} {yes after : String} {n : Nat}
    (ht : test ≠ .always ∧ test.pops = n) (hT : ∀ l x, own l = some x → T l x) (hy : own yes = some a)
    (ha : own after = some (a + 1)) :
    depthFlow.Path T own (branchMerge test taken yes after) (a + n) b ↔ b = a + 1 := by
  obtain ⟨ht, rfl⟩ := ht
  have h₁ := hT yes a hy
  have h₂ := hT after (a + 1) ha
  simp [branchMerge, depthFlow_jumps, Jump.pops, *]

end Depth

theorem BinOp.shortcut?_pops {op : BinOp} {exit : Jump} {decided : Int}
    (h : op.shortcut? = some (exit, decided)) : exit ≠ .always ∧ exit.pops = 1 := by
  cases op <;> simp [BinOp.shortcut?] at h <;> simp [← h.1, Jump.pops]

theorem BinOp.comparison_pops (op : BinOp) (primitive : Bool) :
    op.comparison primitive ≠ .always ∧ (op.comparison primitive).pops = 2 := by
  cases op <;> cases primitive <;> simp [BinOp.comparison, Jump.pops]

theorem depthFlow_sound {ctx : Context}
    (hn : ∀ cls, argCount (ctx.table.constructorDescriptor cls) = (ctx.table.constructorParams cls).length) :
    depthFlow.Sound ctx (depthClaim ctx) := by
  intro p s items s' hr hslots T a b hk
  clear hslots
  have hclean := hr.clean hk.1
  -- The depth at the labels of a form is known beforehand: that of its start, or one more where a value is left.
  cases hr
  case logical ho =>
    have hp := BinOp.shortcut?_pops ho
    refine ⟨Flow.ownStates s [a, a + 1], fun l x => Flow.owned_of_ownStates ?_, ?_⟩
    · simp [Flow.Owned, or_and_right, exists_or, branchMerge]
      omega
    · simp [depthClaim, Flow.Chain, Flow.Path, Flow.Step, depthFlow_falls, depthFlow_jumps, Op.pops,
        Op.pushes, Depth.isFinal_jump hp.1, hp.2] at hk hclean ⊢
      exact ⟨hclean.1, hclean.2,
        (Depth.path_branchMerge hp (fun l x h => .inr h) (by simp) (by simp)).2 hk.2⟩
  case not s₁ _ =>
    refine ⟨Flow.ownStates s₁ [a, a + 1], fun l x => Flow.owned_of_ownStates ?_, ?_⟩
    · simp [Flow.Owned, branchMerge]
      omega
    · simp [depthClaim, Flow.Chain] at hk hclean ⊢
      exact ⟨hclean, (Depth.path_branchMerge ⟨by simp, rfl⟩ (fun l x h => .inr h) (by simp) (by simp)).2 hk.2⟩
  case compare s₂ _ _ =>
    refine ⟨Flow.ownStates s₂ [a, a + 1], fun l x => Flow.owned_of_ownStates ?_, ?_⟩
    · simp [Flow.Owned, branchMerge]
      omega
    · simp [depthClaim, Flow.Chain] at hk hclean ⊢
      exact ⟨hclean.1, hclean.2, (Depth.path_branchMerge (BinOp.comparison_pops _ _)
        (fun l x h => .inr h) (by simp) (by simp)).2 hk.2⟩
  case cond =>
    refine ⟨Flow.ownStates s [0, 0], fun l x => Flow.owned_of_ownStates ?_, ?_⟩
    · simp [Flow.Owned, or_and_right, exists_or]
      omega
    · simp [depthClaim, Flow.Chain, Flow.Path, Flow.Step, depthFlow_falls, depthFlow_jumps, Op.pops,
        Op.pushes, Op.isFinal, Jump.pops] at hk hclean ⊢
      grind
  case «for» | foreach =>
    refine ⟨Flow.ownStates s [0, 0, 0], fun l x => Flow.owned_of_ownStates ?_, ?_⟩
    · simp [Flow.Owned, or_and_right, exists_or]
      omega
    · simp [depthClaim, Flow.Chain, Flow.Path, Flow.Step, depthFlow_falls, depthFlow_jumps, Op.pops,
        Op.pushes, Op.isFinal, Jump.pops, Flow.path_append, NativeMethod.arity, NativeMethod.answers] at hk hclean ⊢
      grind
  case new c as _ _ =>
    obtain ⟨d, hd⟩ := hk.1
    simp only [Context.inferCall, List.append_eq_nil_iff] at hd
    have hfit := (Context.creation_ok hd.1.1 hd.2).2.1
    have hlen : argCount (ctx.table.constructorDescriptor c.name) = as.length := by
      rw [hn, Context.length_eq_of_fits hfit, Context.length_inferAll]
    refine ⟨fun _ => none, by simp, ?_⟩
    simp [depthClaim, Flow.Chain, Flow.Path, Flow.Step, depthFlow_falls, Op.pops, Op.pushes, Op.isFinal,
      hlen] at hk hclean ⊢
    grind
  case print hp =>
    have hn := Ty.arity_printer? hp
    refine ⟨fun _ => none, by simp, ?_⟩
    simp [depthClaim, Flow.Chain, Flow.Path, Flow.Step, depthFlow_falls, Op.pops, Op.pushes, Op.isFinal,
      hn] at hk hclean ⊢
    grind
  all_goals
    refine ⟨fun _ => none, by simp, ?_⟩
    simp [depthClaim, Flow.Chain, Flow.Path, Flow.Step, depthFlow_falls, depthFlow_jumps, Op.pops, Op.pushes,
      Op.isFinal, Jump.pops, Flow.path_append, NativeMethod.arity, NativeMethod.answers, NativeConstructor.arity,
      newArrayList, addElement, Depth.path_changeElement, Depth.path_storeElementOps] at hk hclean ⊢
    try grind

end ClassCompiler
