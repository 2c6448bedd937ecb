import Mathlib.Data.Nat.Cast.Defs
import ClassCompiler.Proofs.Boxing.Kinds

namespace ClassCompiler

section

variable {ctx : Context} {T : Targets Kinds} {t : Supply} {ks : List Kind} {τ : Nat → Option Kind}

theorem kindClaim_expr {e : Expr} {k : Kind} (ha : (Piece.expr e).Admitted ctx) (hc : ctx.method.slotCount ≤ t.slots)
    (hw : (Kinds.mk ks τ).Within t.slots) (hk : (ctx.typeOf e).kind = k) :
    kindClaim ctx T (.expr e) t ⟨ks, τ⟩ ⟨k :: ks, τ⟩ :=
  ⟨ha, hc, hw, by subst hk; rfl⟩

end

/-- What is claimed of a piece follows from what is claimed of its parts. -/
def Keeps (ctx : Context) (p : Piece) (s : Supply) (items : List Item) : Prop :=
  ∀ ⦃T a b⦄, kindClaim ctx T p s a b →
    ∃ own : String → Option Kinds, (∀ l x, own l = some x → Flow.Owned items l) ∧
      (kindFlow ctx.method.slotCount).Chain (kindClaim ctx) (fun l x => T l x ∨ own l = some x) own items a b

section

variable {ctx : Context} {s : Supply} {items : List Item} {e : Expr}

/-- The code of an expression without jumps; of its own slots nothing is known in the end. -/
theorem keeps_of_through (h : ∀ T ks τ, (Kinds.mk ks τ).Within s.slots → ctx.method.slotCount ≤ s.slots →
      ∃ τ', (τ' = τ ∨ EndsInOps items = true ∧ ∀ n k, τ n = some k → τ' n = some k) ∧
        Through ctx T items ⟨ks, τ⟩ ⟨(ctx.typeOf e).kind :: ks, τ'⟩) : Keeps ctx (.expr e) s items := by
  rintro T ⟨ks, τ⟩ b ⟨-, hcount, hwithin, rfl⟩
  obtain ⟨τ', hτ, hthrough⟩ := h (fun l x => T l x ∨ none = some x) ks τ hwithin hcount
  refine ⟨fun _ => none, by simp, hthrough.chain ?_⟩
  rcases hτ with rfl | ⟨hend, hτ⟩
  · exact .inl rfl
  · exact .inr ⟨⟨rfl, hτ⟩, hend⟩

/-- The code of an expression without jumps that takes no slots. -/
theorem keeps_of_plain (h : ∀ T ks τ, (Kinds.mk ks τ).Within s.slots → ctx.method.slotCount ≤ s.slots →
      Through ctx T items ⟨ks, τ⟩ ⟨(ctx.typeOf e).kind :: ks, τ⟩) : Keeps ctx (.expr e) s items :=
  keeps_of_through fun T ks τ hw hc => ⟨τ, .inl rfl, h T ks τ hw hc⟩

end

theorem Kinds.Within.update {ks l : List Kind} {τ : Nat → Option Kind} {m n i : Nat} {k : Kind}
    (h : (Kinds.mk ks τ).Within m) (hm : m ≤ n) (hi : i < n) :
    (Kinds.mk l (Function.update τ i (some k))).Within n := by
  intro j hj
  have hne : j ≠ i := by omega
  simpa [Function.update_apply, hne] using h j (by omega)

theorem update_of_within {ks : List Kind} {τ : Nat → Option Kind} {m i : Nat} {k : Kind}
    (h : (Kinds.mk ks τ).Within m) (hi : m ≤ i) {n : Nat} {l : Kind} (hn : τ n = some l) :
    Function.update τ i (some k) n = some l := by
  have hne : n ≠ i := by
    rintro rfl
    have := h n hi
    simp_all
  simpa [Function.update_apply, hne] using hn

theorem Ty.kind_of_isNull {t : Ty} (h : t.isNull = true) : t.kind = .ref := by
  cases t <;> simp_all [Ty.isNull]

theorem Context.Admits.assign_kinds {ctx : Context} {dropped : Bool} {t : Token} {l r : Expr}
    (h : ctx.Admits dropped (.binary t .assign l r)) (hk : ctx.Known) :
    ctx.typeOf (.binary t .assign l r) = ctx.typeOf r ∧ (ctx.typeOf l).kind = (ctx.typeOf r).kind := by
  obtain ⟨htype, hsub⟩ := h.assign_types hk
  exact ⟨htype, (Ty.kind_congr (Ty.isPrimitive_of_isSubtype hsub (h.operands.2.known hk).isNoType)).symm⟩

theorem BinOp.shortcut?_operands {op : BinOp} {exit : Jump} {decided : Int}
    (h : op.shortcut? = some (exit, decided)) : exit.operands = [.raw] := by
  cases op <;> simp [BinOp.shortcut?] at h <;> simp [← h.1, Jump.operands]

theorem BinOp.comparison_operands {op : BinOp} {t : Ty} (ho : op.isComparison = true)
    (h : op = .lt ∨ op = .gt → t.isPrimitive = true) : (op.comparison t.isPrimitive).operands = [t.kind, t.kind] := by
  cases op <;> cases hp : t.isPrimitive <;>
    simp_all [BinOp.isComparison, BinOp.comparison, Jump.operands, Ty.kind]

theorem Ty.params_printer? {t : Ty} {n : NativeMethod} (h : t.printer? = some n) :
    n.params = [t.kind] ∧ n.result = [] := by
  cases t <;> simp [Ty.printer?] at h <;> subst h <;> exact ⟨rfl, rfl⟩

/-- What is known inside a loop over a list: the list and the index are kept in slots. -/
def loopKinds (s : Supply) (ks : List Kind) (τ : Nat → Option Kind) : Kinds :=
  ⟨ks, Function.update (Function.update τ s.slots (some .ref)) (s.slots + 1) (some .raw)⟩

section

variable {count : Nat} {s : Supply} {ks : List Kind} {τ : Nat → Option Kind}

theorem loopKinds_increment (hc : count ≤ s.slots) :
    (loopKinds s ks τ).after count (.increment ((s.slots + 1 : Nat) : Int) 1) = some (loopKinds s ks τ) := by
  have hslot : (loopKinds s ks τ).slot count (s.slots + 1) = _ := Kinds.slot_temp (Nat.le_succ_of_le hc)
  rw [loopKinds] at hslot ⊢
  simp [-Int.natCast_add, hslot]

/-- The head of a loop over a list puts the next element into a variable, or leaves the loop. -/
theorem path_foreachHead {T : Targets Kinds} {own : String → Option Kinds} {t : Ty} {n : Int} {slot : Nat}
    {start done : String} (hc : count ≤ s.slots) (hslot : slot < count)
    (hstart : own start = some (loopKinds s ks τ)) (hdone : Enters T done (loopKinds s ks τ)) :
    (kindFlow count).Path T own ([Op.store .ref s.slots, .pushInt 0, .store .int ((s.slots + 1 : Nat) : Int),
      .label start, .load .int ((s.slots + 1 : Nat) : Int), .pushInt n, .jump (.ifInts .ge) done,
      .load .ref s.slots, .load .int ((s.slots + 1 : Nat) : Int), .invokeVirtual NativeMethod.getElement.ref] ++
      castElement t ++ [Op.store .ref slot]) ⟨.ref :: ks, τ⟩ (loopKinds s ks τ) := by
  have hlist : ¬ s.slots < count := by omega
  have hindex : ¬ s.slots + 1 < count := by omega
  have hsplit : ([Op.store .ref s.slots, .pushInt 0, .store .int ((s.slots + 1 : Nat) : Int), .label start,
      .load .int ((s.slots + 1 : Nat) : Int), .pushInt n, .jump (.ifInts .ge) done, .load .ref s.slots,
      .load .int ((s.slots + 1 : Nat) : Int), .invokeVirtual NativeMethod.getElement.ref] ++
      castElement t ++ [Op.store .ref slot] : List Op) =
      [Op.store .ref s.slots, .pushInt 0, .store .int ((s.slots + 1 : Nat) : Int)] ++ ([Op.label start] ++
        ([Op.load .int ((s.slots + 1 : Nat) : Int), .pushInt n] ++ ([Op.jump (.ifInts .ge) done] ++
          ([Op.load .ref s.slots, .load .int ((s.slots + 1 : Nat) : Int),
            .invokeVirtual NativeMethod.getElement.ref] ++ castElement t ++ [Op.store .ref slot])))) := by simp
  rw [hsplit]
  refine Flow.path_append.2 ⟨loopKinds s ks τ, path_of_afterAll _ ?_ (Kinds.le_refl _) (by simp),
    Flow.path_append.2 ⟨loopKinds s ks τ, ⟨_, kindFlow_label hstart, rfl⟩,
      Flow.path_append.2 ⟨(loopKinds s ks τ).push .raw |>.push .raw, path_of_afterAll _ ?_ (Kinds.le_refl _) (by simp),
        Flow.path_append.2 ⟨loopKinds s ks τ, ⟨_, ⟨kindFlow_jump (.ifInts .ge) hdone fun _ => rfl, by simp⟩, rfl⟩,
          path_of_afterAll _ ?_ (Kinds.le_refl _) (by simp)⟩⟩⟩⟩
  · simp [-Int.natCast_add, loopKinds, hlist, hindex]
  · simp [-Int.natCast_add, loopKinds, Kinds.slot, hindex, Kinds.push]
  · simp [-Int.natCast_add, loopKinds, Kinds.slot, hlist, hindex, Kinds.afterAll_append, NativeMethod.params,
      NativeMethod.result, hslot]

end

namespace Rule

variable {ctx : Context} {p : Piece} {s s' : Supply} {items : List Item}

theorem keeps_kinds_unary {t : Token} {op : UnOp} {x : Expr} (hr : Rule ctx (.expr (.unary t op x)) s items s')
    (hk : ctx.Known) (hslots : Parts (fun _ t _ t' _ => t.slots ≤ t'.slots) items)
    (hadm : (Piece.expr (.unary t op x)).Admitted ctx) : Keeps ctx (.expr (.unary t op x)) s items := by
  have hparts := hr.admitted hadm
  obtain ⟨dropped, ha⟩ := hadm.admits
  cases hr with
  | neg =>
    obtain ⟨htype, hx⟩ := ha.negation_types hk rfl
    refine keeps_of_plain fun T ks τ hw hc => ?_
    simp [Through, kindClaim, Kinds.push, htype, hx] at hparts ⊢
    exact ⟨hparts, hc, hw⟩
  | @not _ _ _ _ s₁ _ =>
    obtain ⟨htype, hx⟩ := ha.negation_types hk rfl
    simp only [Parts.part_iff, Parts.ops_iff, Parts.nil_iff] at hparts hslots
    rintro T ⟨ks, τ⟩ b ⟨-, hc, hw, rfl⟩
    refine ⟨Flow.ownStates s₁ (testStates ks τ), fun l x => Flow.owned_of_ownStates ?_, ?_⟩
    · simp [testStates, Flow.Owned, branchMerge]
      omega
    · rw [htype, hx]
      exact ⟨_, kindClaim_expr hparts.1 hc hw (by rw [hx]; rfl), _,
        path_branchMerge _ _ _ _ _ .ifNonzero _, rfl⟩
  | changeIdent ho hs =>
    obtain ⟨htype, -⟩ := ha.change_types hk ho
    refine keeps_of_plain fun T ks τ _ _ => ?_
    simp [Through, htype, Kinds.afterAll_changeVariable (MethodDecl.symbol?_slot_lt hs).2]
  | @changeIndex _ _ _ x i _ xc s₁ xs ic _ is ho =>
    obtain ⟨htype, -⟩ := ha.change_types hk ho
    obtain ⟨hi, es, hx, -, -⟩ := ha.operand.index_types hk
    refine keeps_of_through fun T ks τ hw hc => ?_
    simp only [Parts.part_iff, Parts.ops_iff, Parts.nil_iff, Supply.take_slots] at hparts hslots
    have hlist := hw.update (l := ks) (i := s.slots) (k := .ref) (n := s.slots + 1) (by omega) (by omega)
    have hindex := hlist.update (l := ks) (i := s.slots + 1) (k := .raw) (n := s.slots + 2) (by omega) (by omega)
    refine ⟨_, .inr ⟨by simp [EndsInOps, ClassCompiler.changeElement], fun n k hn => update_of_within hindex
      (i := s.slots + 2) (k := .raw) (by omega) (update_of_within hlist (by omega) (update_of_within hw (by omega) hn))⟩, ?_⟩
    have hfree : ∀ n, s.slots ≤ n → ¬ n < ctx.method.slotCount := by omega
    have hload : Kinds.IsIndex ctx.method.slotCount (Function.update (Function.update τ s.slots (some .ref)) (s.slots + 1)
        (some .raw)) (.load .int ((s.slots + 1 : Nat) : Int)) := .inr ⟨_, rfl, by omega, by simp⟩
    have hval : ctx.method.slotCount ≤ s.slots + 2 := by omega
    have hkept : Function.update (Function.update τ s.slots (some .ref)) (s.slots + 1) (some .raw) s.slots =
        some .ref := by simp
    have hchange := fun op => Kinds.afterAll_changeElement ks op hc hkept hval hload
    simp [-Int.natCast_add, -Nat.cast_add, Through, kindClaim, Kinds.push, htype, hx, hi, hfree, hchange]
    exact ⟨⟨hparts.1, by omega, hw.mono (by omega)⟩, hparts.2.1, by omega, hw.update (by omega) (by omega)⟩
  | changeElement ho ht hi =>
    obtain ⟨htype, -⟩ := ha.change_types hk ho
    refine keeps_of_through fun T ks τ hw hc => ?_
    simp only [Parts.part_iff, Parts.ops_iff, Parts.nil_iff, Supply.take_slots] at hparts hslots
    have hlist := hw.update (l := ks) (i := s.slots) (k := .ref) (n := s.slots + 1) (by omega) (by omega)
    refine ⟨_, .inr ⟨by simp [EndsInOps, ClassCompiler.changeElement], fun n k hn => update_of_within hlist
      (i := s.slots + 1) (k := .raw) (by omega) (update_of_within hw (by omega) hn)⟩, ?_⟩
    have hfree : ¬ s.slots < ctx.method.slotCount := by omega
    have hval : ctx.method.slotCount ≤ s.slots + 1 := by omega
    have hkept : Function.update τ s.slots (some .ref) s.slots = some .ref := by simp
    have hchange := fun op (i : Int) => Kinds.afterAll_changeElement ks op hc hkept hval
      (Kinds.isIndex_pushInt _ _ i)
    simp [Through, kindClaim, Kinds.push, htype, ht, hfree, hchange]
    exact ⟨hparts.1, by omega, hw.mono (by omega)⟩
  | changeField ho ht hf =>
    obtain ⟨htype, -⟩ := ha.change_types hk ho
    refine keeps_of_through fun T ks τ hw hc => ?_
    simp only [Parts.part_iff, Parts.ops_iff, Parts.nil_iff, Supply.take_slots] at hparts hslots
    have hobj := hw.update (l := ks) (i := s.slots) (k := .ref) (n := s.slots + 1) (by omega) (by omega)
    refine ⟨_, .inr ⟨by simp [EndsInOps, ClassCompiler.changeField], fun n k hn => update_of_within hobj
      (i := s.slots + 1) (k := .raw) (by omega) (update_of_within hw (by omega) hn)⟩, ?_⟩
    have hfree : ¬ s.slots < ctx.method.slotCount := by omega
    have hkept : Function.update τ s.slots (some .ref) s.slots = some .ref := by simp
    have hval : ctx.method.slotCount ≤ s.slots + 1 := by omega
    have hchange := fun op field => Kinds.afterAll_changeField ks field op hc hkept hval
    simp [Through, kindClaim, Kinds.push, htype, ht, hfree, hchange]
    exact ⟨hparts.1, by omega, hw.mono (by omega)⟩

theorem keeps_kinds_binary {t : Token} {op : BinOp} {l r : Expr} (hr : Rule ctx (.expr (.binary t op l r)) s items s')
    (hk : ctx.Known) (hslots : Parts (fun _ t _ t' _ => t.slots ≤ t'.slots) items)
    (hadm : (Piece.expr (.binary t op l r)).Admitted ctx) : Keeps ctx (.expr (.binary t op l r)) s items := by
  have hparts := hr.admitted hadm
  obtain ⟨dropped, ha⟩ := hadm.admits
  cases hr with
  | arith ho =>
    obtain ⟨htype, hl, hr⟩ := ha.arith_types hk ho
    refine keeps_of_plain fun T ks τ hw hc => ?_
    simp [Through, kindClaim, Kinds.push, htype, hl, hr] at hparts hslots ⊢
    exact ⟨⟨hparts.1, hc, hw⟩, hparts.2, by omega, hw.mono hslots.1⟩
  | @logical exit decided _ _ _ _ _ lc s₁ ls rc _ rs ho =>
    obtain ⟨htype, hl, hr⟩ := ha.logical_types hk ho
    have hexit := BinOp.shortcut?_operands ho
    simp only [Parts.part_iff, Parts.ops_iff, Parts.nil_iff, Supply.take_slots] at hparts hslots
    rintro T ⟨ks, τ⟩ b ⟨-, hc, hw, rfl⟩
    refine ⟨Flow.ownStates s (testStates ks τ), fun l x => Flow.owned_of_ownStates ?_, ?_⟩
    · simp [testStates, Flow.Owned, or_and_right, exists_or, branchMerge]
      omega
    · have hjump : (kindFlow ctx.method.slotCount).Step _ (.jump exit _) _ _ := kindFlow_jump exit
        (enters_own (T := T) (Flow.ownStates_label s (testStates ks τ) 0) (Kinds.le_refl _)) fun _ => rfl
      have hmerge := path_branchMerge ctx.method.slotCount T ks τ s exit decided
      rw [hexit] at hjump hmerge
      rw [htype]
      exact ⟨_, kindClaim_expr hparts.1 hc hw (by rw [hl]; rfl), _, ⟨_, ⟨hjump, by simp⟩, rfl⟩,
        _, kindClaim_expr hparts.2.1 (by omega) (hw.mono (by omega)) (by rw [hr]; rfl), _, hmerge, rfl⟩
  | @compare _ _ _ _ _ lc s₁ ls rc s₂ rs ho =>
    obtain ⟨htype, hsame, hraw⟩ := ha.compare_types hk ho
    have htest := BinOp.comparison_operands ho hraw
    simp only [Parts.part_iff, Parts.ops_iff, Parts.nil_iff] at hparts hslots
    rintro T ⟨ks, τ⟩ b ⟨-, hc, hw, rfl⟩
    refine ⟨Flow.ownStates s₂ (testStates ks τ), fun l x => Flow.owned_of_ownStates ?_, ?_⟩
    · simp [testStates, Flow.Owned, branchMerge]
      omega
    · have hmerge := path_branchMerge ctx.method.slotCount T ks τ s₂ (op.comparison (ctx.typeOf l).isPrimitive) 1
      rw [htest] at hmerge
      rw [htype]
      exact ⟨_, kindClaim_expr hparts.1 hc hw rfl, _, kindClaim_expr hparts.2.1 (by omega) (hw.mono (by omega))
        (Ty.kind_congr hsame).symm, _, hmerge, rfl⟩
  | assignIdent hs =>
    obtain ⟨htype, -⟩ := ha.assign_types hk
    refine keeps_of_plain fun T ks τ hw hc => ?_
    simp [Through, kindClaim, Kinds.push, htype, Kinds.afterAll_append,
      (MethodDecl.symbol?_slot_lt hs).2] at hparts ⊢
    exact ⟨hparts, hc, hw⟩
  | assignField hl ht hf =>
    obtain ⟨htype, hkind⟩ := ha.assign_kinds hk
    refine keeps_of_plain fun T ks τ hw hc => ?_
    simp [Through, kindClaim, Kinds.push, htype, ht, hkind] at hparts hslots ⊢
    exact ⟨⟨hparts.1, hc, hw⟩, hparts.2, by omega, hw.mono hslots.1⟩
  | assignElement hl ht hi =>
    obtain ⟨htype, hkind⟩ := ha.assign_kinds hk
    refine keeps_of_plain fun T ks τ hw hc => ?_
    have hstore := fun i : Int => Kinds.afterAll_storeElementOps ks
      (Kinds.isIndex_pushInt ctx.method.slotCount τ i) fun hnull => hkind.trans (Ty.kind_of_isNull hnull)
    simp [Through, kindClaim, Kinds.push, htype, ht, hstore] at hparts hslots ⊢
    exact ⟨⟨hparts.1, hc, hw⟩, hparts.2, by omega, hw.mono hslots.1⟩
  | @assignIndex _ _ _ _ x xc s₁ xs i ic s₂ is rc _ rs u hl =>
    subst hl
    obtain ⟨htype, hkind⟩ := ha.assign_kinds hk
    obtain ⟨hi, es, hx, -, -⟩ := ha.operands.1.index_types hk
    refine keeps_of_through fun T ks τ hw hc => ?_
    simp only [Parts.part_iff, Parts.ops_iff, Parts.nil_iff, Supply.take_slots] at hparts hslots
    refine ⟨Function.update τ s₂.slots (some .raw), .inr ⟨by simp [EndsInOps, storeElementOps], fun n k =>
      update_of_within hw (by omega)⟩, ?_⟩
    have hindex : Kinds.IsIndex ctx.method.slotCount (Function.update τ s₂.slots (some .raw)) (.load .int s₂.slots) :=
      .inr ⟨s₂.slots, rfl, by omega, by simp⟩
    have hstore := Kinds.afterAll_storeElementOps ks hindex fun hnull => hkind.trans (Ty.kind_of_isNull hnull)
    have hfree : ¬ s₂.slots < ctx.method.slotCount := by omega
    simp [Through, kindClaim, Kinds.push, htype, hx, hi, hfree, hstore]
    exact ⟨⟨hparts.1, hc, hw⟩, ⟨hparts.2.1, by omega, hw.mono hslots.1⟩, hparts.2.2.1, by omega,
      hw.update (by omega) (by omega)⟩

theorem keeps_kinds_expr {e : Expr} (hr : Rule ctx (.expr e) s items s') (hk : ctx.Known)
    (hn : ∀ cls, argCount (ctx.table.constructorDescriptor cls) = (ctx.table.constructorParams cls).length)
    (hslots : Parts (fun _ t _ t' _ => t.slots ≤ t'.slots) items) (hadm : (Piece.expr e).Admitted ctx) :
    Keeps ctx (.expr e) s items := by
  have hparts := hr.admitted hadm
  have hpos : 0 < ctx.method.slotCount := by unfold MethodDecl.slotCount; omega
  cases e with
  | unary t op x => exact hr.keeps_kinds_unary hk hslots hadm
  | binary t op l r => exact hr.keeps_kinds_binary hk hslots hadm
  | int | bool | string | null | this =>
    cases hr
    refine keeps_of_plain fun T ks τ _ _ => ?_
    simp [Through, Context.typeOf, Context.infer, Context.inferCall, Typed.value, Kinds.slot_user hpos]
  | ident v =>
    cases hr with
    | ident hs =>
      refine keeps_of_plain fun T ks τ _ _ => ?_
      simp [Through, Kinds.slot_user (MethodDecl.symbol?_slot_lt hs).2, Context.typeOf_ident hs]
  | member t x m =>
    cases hr with
    | field ht hf =>
      refine keeps_of_plain fun T ks τ hw hc => ?_
      simp [Through, kindClaim, Kinds.push, ht, Context.typeOf_member_field ht hf] at hparts ⊢
      exact ⟨hparts, hc, hw⟩
    | method ht hf hm =>
      refine keeps_of_plain fun T ks τ hw hc => ?_
      simp [Through, kindClaim, Kinds.push, ht, Context.typeOf_member_method ht hf hm, NativeConstructor.arity,
        List.replicate, MethodDecl.functionType] at hparts ⊢
      exact ⟨hparts, hc, hw⟩
    | element ht hi =>
      refine keeps_of_plain fun T ks τ hw hc => ?_
      simp [Through, kindClaim, Kinds.push, ht, NativeMethod.params, NativeMethod.result] at hparts ⊢
      exact ⟨hparts, hc, hw⟩
  | index t x i =>
    cases hr with
    | index =>
      obtain ⟨dropped, ha⟩ := hadm.admits
      obtain ⟨hi, es, hx, -, -⟩ := ha.index_types hk
      refine keeps_of_plain fun T ks τ hw hc => ?_
      simp [Through, kindClaim, Kinds.push, hx, hi, NativeMethod.params, NativeMethod.result] at hparts hslots ⊢
      exact ⟨⟨hparts.1, hc, hw⟩, hparts.2, by omega, hw.mono hslots.1⟩
  | list t es =>
    cases hr with
    | list =>
      refine keeps_of_plain fun T ks τ hw hc => ?_
      simp [Through, kindClaim, NativeConstructor.arity, List.replicate, Context.typeOf, Context.infer,
        Context.inferCall, Typed.value] at hparts ⊢
      exact ⟨hparts, hc, hw⟩
  | new t c as =>
    cases hr with
    | new =>
      obtain ⟨dropped, ha⟩ := hadm.admits
      obtain ⟨-, hfit, htype⟩ := ha.new_types
      have hlen : argCount (ctx.table.constructorDescriptor c.name) = as.length := by
        rw [hn, Context.length_eq_of_fits hfit, Context.length_inferAll]
      refine keeps_of_plain fun T ks τ hw hc => ?_
      simp [Through, kindClaim, htype, hlen] at hparts ⊢
      exact ⟨hparts, hc, hw⟩
  | call t f as =>
    cases hr with
    | call =>
      obtain ⟨dropped, ha⟩ := hadm.admits
      obtain ⟨ps, res, hf, -, htype⟩ := ha.call_types hk
      refine keeps_of_plain fun T ks τ hw hc => ?_
      simp [Through, kindClaim, Kinds.push, hf, htype, NativeMethod.params, NativeMethod.result] at hparts hslots ⊢
      exact ⟨⟨hparts.1, hc, hw⟩, hparts.2, by omega, hw.mono hslots.1⟩

theorem keeps_kinds_stmt {loop : Option Loop} {st : Stmt} (hr : Rule ctx (.stmt loop st) s items s') (hk : ctx.Known)
    (hslots : Parts (fun _ t _ t' _ => t.slots ≤ t'.slots) items) (hadm : (Piece.stmt loop st).Admitted ctx) :
    Keeps ctx (.stmt loop st) s items := by
  have hparts := hr.admitted hadm
  cases hr
  case assign | callStmt =>
    simp only [Parts.part_iff, Parts.ops_iff, Parts.nil_iff] at hparts hslots
    rintro T ⟨ks, τ⟩ b ⟨-, hc, hw, hpost⟩
    refine ⟨fun _ => none, by simp, Through.chain (x := ⟨ks, τ⟩) ?_ (.inl ?_)⟩
    · simp [Through, kindClaim, Kinds.push]
      exact ⟨hparts.1, hc, hw⟩
    · exact hpost.1
  case block =>
    simp only [Parts.part_iff, Parts.nil_iff] at hparts
    rintro T a b ⟨-, hc, hw, rfl, hloop⟩
    refine ⟨fun _ => none, by simp, Through.chain ?_ (.inl rfl)⟩
    exact ⟨_, ⟨hparts.1, hc, hw, rfl, hloop.mono (fun l x h => .inl h) (Kinds.le_refl _)⟩, rfl⟩
  case print x p c xs hp =>
    simp only [Parts.part_iff, Parts.ops_iff, Parts.nil_iff] at hparts hslots
    rintro T ⟨ks, τ⟩ b ⟨-, hc, hw, rfl, hloop⟩
    refine ⟨fun _ => none, by simp, Through.chain (x := ⟨ks, τ⟩) ?_ (.inl rfl)⟩
    obtain ⟨hparams, hresult⟩ := Ty.params_printer? hp
    simp [Through, kindClaim, Kinds.push, hparams, hresult, hparts, hc]
    exact hw
  case ret =>
    rintro T a b ⟨-, hc, hw, rfl, hloop⟩
    exact ⟨fun _ => none, by simp, _, path_ret _, rfl⟩
  case retValue =>
    simp only [Parts.part_iff, Parts.ops_iff, Parts.nil_iff] at hparts
    rintro T ⟨ks, τ⟩ b ⟨-, hc, hw, rfl, hloop⟩
    exact ⟨fun _ => none, by simp, _, kindClaim_expr hparts.1 hc hw rfl, _, path_returnValue, rfl⟩
  case «break» lp t =>
    rintro T ⟨ks, τ⟩ b ⟨-, hc, hw, rfl, hloop⟩
    exact ⟨fun _ => none, by simp, _, ⟨_, ⟨kindFlow_jump .always
      ((hloop lp rfl).2.mono fun l x h => .inl h) (absurd rfl), by simp⟩, rfl⟩, rfl⟩
  case «continue» lp t =>
    rintro T ⟨ks, τ⟩ b ⟨-, hc, hw, rfl, hloop⟩
    exact ⟨fun _ => none, by simp, _, ⟨_, ⟨kindFlow_jump .always
      ((hloop lp rfl).1.mono fun l x h => .inl h) (absurd rfl), by simp⟩, rfl⟩, rfl⟩
  case cond t e y n ec s₁ es yc s₂ ys nc ns =>
    simp only [Parts.part_iff, Parts.ops_iff, Parts.nil_iff, Supply.take_slots] at hparts hslots
    -- The jump pops what the condition left, which has to be a plain value.
    have htype : ctx.typeOf e = .bool := by
      have hclean := hadm.clean
      simp only [Piece.Clean, Context.stmtIssues, List.append_eq_nil_iff] at hclean
      exact Context.conditionIssues_types hk hparts.1.filled hclean.1.1
    rintro T ⟨ks, τ⟩ b ⟨-, hc, hw, rfl, hloop⟩
    refine ⟨Flow.ownStates s (List.replicate 2 ⟨ks, τ⟩), fun l x => Flow.owned_of_ownStates ?_, ?_⟩
    · simp [Flow.Owned, or_and_right, exists_or]
      omega
    · have hno := Flow.ownStates_label s (List.replicate 2 (Kinds.mk ks τ)) 0
      have hafter := Flow.ownStates_label s (List.replicate 2 (Kinds.mk ks τ)) 1
      have hloop := hloop.mono (U := fun l x => T l x ∨ Flow.ownStates s (List.replicate 2 ⟨ks, τ⟩) l = some x)
        (fun l x h => .inl h) (Kinds.le_refl _)
      exact ⟨_, kindClaim_expr hparts.1 hc hw (by rw [htype]; rfl),
        _, ⟨_, ⟨kindFlow_jump .ifZero (enters_own hno (Kinds.le_refl _)) fun _ => rfl, by simp⟩, rfl⟩,
        _, ⟨hparts.2.1, by omega, hw.mono (by omega), rfl, hloop⟩,
        _, ⟨⟨ks, τ⟩, ⟨kindFlow_jump .always (enters_own hafter (Kinds.le_refl _)) (absurd rfl), by simp⟩,
          _, kindFlow_label hno, rfl⟩,
        _, ⟨hparts.2.2.1, by omega, hw.mono (by omega), rfl, hloop⟩,
        _, ⟨_, kindFlow_label hafter, rfl⟩, rfl⟩
  case «for» t i c u y ic s₁ is cc s₂ cs yc s₃ ys uc us =>
    simp only [Parts.part_iff, Parts.ops_iff, Parts.nil_iff, Supply.take_slots] at hparts hslots
    rintro T a b ⟨-, hc, hw, rfl, hloop⟩
    refine ⟨Flow.ownStates s (List.replicate 3 b), fun l x => Flow.owned_of_ownStates ?_, ?_⟩
    · simp [Flow.Owned, or_and_right, exists_or]
      omega
    · have hstart := Flow.ownStates_label s (List.replicate 3 b) 0
      have hnext := Flow.ownStates_label s (List.replicate 3 b) 1
      have hdone := Flow.ownStates_label s (List.replicate 3 b) 2
      have henters : LoopEnters (fun l x => T l x ∨ Flow.ownStates s (List.replicate 3 b) l = some x)
          (some ⟨s.label 1, s.label 2⟩) b := by
        rintro lp ⟨⟩
        exact ⟨enters_own hnext (Kinds.le_refl _), enters_own hdone (Kinds.le_refl _)⟩
      exact ⟨_, ⟨hparts.1, hc, hw, rfl⟩, _, ⟨_, kindFlow_label hstart, rfl⟩,
        _, ⟨hparts.2.1, by omega, hw.mono (by omega), rfl, enters_own hdone (Kinds.le_refl _)⟩,
        _, ⟨hparts.2.2.1, by omega, hw.mono (by omega), rfl, henters⟩, _, ⟨_, kindFlow_label hnext, rfl⟩,
        _, ⟨hparts.2.2.2.1, by omega, hw.mono (by omega), rfl⟩,
        _, ⟨b, ⟨kindFlow_jump .always (enters_own hstart (Kinds.le_refl _)) (absurd rfl), by simp⟩,
          _, kindFlow_label hdone, rfl⟩, rfl⟩
  case «foreach» l es sym t v y lc s₁ ls yc ys ht hs =>
    simp only [Parts.part_iff, Parts.ops_iff, Parts.nil_iff, Supply.take_slots] at hparts hslots
    rintro T ⟨ks, τ⟩ b ⟨-, hc, hw, rfl, hloop⟩
    have hlist := hw.update (l := ks) (i := s.slots) (k := .ref) (n := s.slots + 1) (by omega) (by omega)
    have hinside : Kinds.mk ks τ ≤ loopKinds s ks τ :=
      ⟨rfl, fun n k hn => update_of_within hlist (by omega) (update_of_within hw (by omega) hn)⟩
    let states : List Kinds := [loopKinds s ks τ, loopKinds s ks τ, ⟨ks, τ⟩]
    refine ⟨Flow.ownStates s states, fun l x => Flow.owned_of_ownStates ?_, ?_⟩
    · simp [states, Flow.Owned, or_and_right, exists_or]
      omega
    · have hstart := Flow.ownStates_label s states 0
      have hnext := Flow.ownStates_label s states 1
      have hdone := Flow.ownStates_label s states 2
      have henters : LoopEnters (fun l x => T l x ∨ Flow.ownStates s states l = some x)
          (some ⟨s.label 1, s.label 2⟩) (loopKinds s ks τ) := by
        rintro lp ⟨⟩
        exact ⟨enters_own hnext (Kinds.le_refl _), enters_own hdone hinside⟩
      exact ⟨_, kindClaim_expr hparts.1 (by simpa using by omega) (hw.mono (by simp)) (by rw [ht]; rfl),
        _, path_foreachHead hc (MethodDecl.symbol?_slot_lt hs).2 hstart (enters_own hdone hinside),
        _, ⟨hparts.2.1, by omega, hlist.update (by omega) (by omega), rfl, henters⟩,
        _, ⟨_, kindFlow_label hnext, _, kindFlow_step rfl (loopKinds_increment hc) (Kinds.le_refl _),
          ⟨ks, τ⟩, ⟨kindFlow_jump .always (enters_own hstart (Kinds.le_refl _)) (absurd rfl), by simp⟩,
          _, kindFlow_label hdone, rfl⟩, rfl⟩

theorem keeps_kinds (hr : Rule ctx p s items s') (hk : ctx.Known)
    (hn : ∀ cls, argCount (ctx.table.constructorDescriptor cls) = (ctx.table.constructorParams cls).length)
    (hslots : Parts (fun _ t _ t' _ => t.slots ≤ t'.slots) items) (hadm : p.Admitted ctx) :
    Keeps ctx p s items := by
  have hparts := hr.admitted hadm
  cases p with
  | expr e => exact hr.keeps_kinds_expr hk hn hslots hadm
  | stmt loop st => exact hr.keeps_kinds_stmt hk hslots hadm
  | elements line es =>
    cases hr with
    | noElements =>
      rintro T a b ⟨-, -, -, hpost⟩
      exact ⟨fun _ => none, by simp, hpost.1⟩
    | elements =>
      simp only [Parts.part_iff, Parts.ops_iff, Parts.nil_iff] at hparts hslots
      rintro T ⟨st, τ⟩ b ⟨-, hc, hw, rfl, ks, hst⟩
      simp only at hst
      subst hst
      refine ⟨fun _ => none, by simp, Through.chain ?_ (.inl rfl)⟩
      simp [Through, kindClaim, Kinds.push]
      exact ⟨⟨hparts.1, hc, hw⟩, hparts.2.1, by omega, hw.mono (by omega)⟩
  | args es =>
    cases hr with
    | noArgs =>
      rintro T a b ⟨-, -, -, rfl⟩
      exact ⟨fun _ => none, by simp, rfl⟩
    | args =>
      simp only [Parts.part_iff, Parts.ops_iff, Parts.nil_iff] at hparts hslots
      rintro T ⟨ks, τ⟩ b ⟨-, hc, hw, rfl⟩
      refine ⟨fun _ => none, by simp, Through.chain ?_ (.inl rfl)⟩
      simp [Through, kindClaim, Kinds.push, List.replicate_succ']
      exact ⟨⟨hparts.1, hc, hw⟩, hparts.2.1, by omega, hw.mono (by omega)⟩
  | update a =>
    cases hr with
    | noUpdate =>
      rintro T a b ⟨-, -, -, hpost⟩
      exact ⟨fun _ => none, by simp, hpost⟩
    | update =>
      simp only [Parts.part_iff, Parts.ops_iff, Parts.nil_iff] at hparts hslots
      rintro T ⟨ks, τ⟩ b ⟨-, hc, hw, hpost⟩
      refine ⟨fun _ => none, by simp, Through.chain (x := ⟨ks, τ⟩) ?_ (.inl ?_)⟩
      · simp [Through, kindClaim, Kinds.push]
        exact ⟨hparts.1, hc, hw⟩
      · exact hpost
  | test line done e =>
    cases hr with
    | noTest =>
      rintro T a b ⟨-, -, -, hpost⟩
      exact ⟨fun _ => none, by simp, hpost.1⟩
    | @test _ _ e _ c _ xs =>
      simp only [Parts.part_iff, Parts.ops_iff, Parts.nil_iff] at hparts hslots
      rintro T ⟨ks, τ⟩ b ⟨-, hc, hw, rfl, hd⟩
      have htype : ctx.typeOf e = .bool := Context.conditionIssues_types hk hparts.1.filled hadm.clean
      refine ⟨fun _ => none, by simp, ?_⟩
      exact ⟨_, kindClaim_expr hparts.1 hc hw (by rw [htype]; rfl), _, ⟨_, ⟨kindFlow_jump .ifZero
        (hd.mono fun l x h => .inl h) fun _ => rfl, by simp⟩, rfl⟩, rfl⟩
  | stmts loop ss =>
    cases hr with
    | noStmts =>
      rintro T a b ⟨-, -, -, hpost⟩
      exact ⟨fun _ => none, by simp, hpost.1⟩
    | stmts =>
      simp only [Parts.part_iff, Parts.nil_iff] at hparts hslots
      rintro T a b ⟨-, hc, hw, rfl, hloop⟩
      have hloop := hloop.mono (U := fun l x => T l x ∨ none = some x) (fun l x h => .inl h) (Kinds.le_refl _)
      exact ⟨fun _ => none, by simp, _, ⟨hparts.1, hc, hw, rfl, hloop⟩,
        _, ⟨hparts.2.1, by omega, hw.mono (by omega), rfl, hloop⟩, rfl⟩
  | orElse loop n =>
    cases hr with
    | noElse =>
      rintro T a b ⟨-, -, -, hpost⟩
      exact ⟨fun _ => none, by simp, hpost.1⟩
    | orElse =>
      simp only [Parts.part_iff, Parts.nil_iff] at hparts
      rintro T a b ⟨-, hc, hw, rfl, hloop⟩
      refine ⟨fun _ => none, by simp, Through.chain ?_ (.inl rfl)⟩
      exact ⟨_, ⟨hparts.1, hc, hw, rfl, hloop.mono (fun l x h => .inl h) (Kinds.le_refl _)⟩, rfl⟩

end Rule

/-- The kinds fit all code that is generated for an admitted body. -/
theorem kindFlow_sound {ctx : Context} (hk : ctx.Known)
    (hn : ∀ cls, argCount (ctx.table.constructorDescriptor cls) = (ctx.table.constructorParams cls).length) :
    (kindFlow ctx.method.slotCount).Sound ctx (kindClaim ctx) :=
  fun _ _ _ _ hr hslots _ _ _ hclaim => hr.keeps_kinds hk hn hslots hclaim.1 hclaim

end ClassCompiler
