import ClassCompiler.Proofs.Stack.Depth

namespace ClassCompiler

open Depth (copyDepth)

namespace Context

variable (ctx : Context)

/-- How many references to a new list stand below a value that is copied into it. -/
def copied (l r : Expr) : Nat := copyDepth (ctx.typeOf l) (ctx.typeOf r)

mutual

/-- How far the stack rises in the code of an expression. -/
def need : Expr → Nat
  | .member _ x m =>
    match ctx.typeOf x with
    | .cls c => if (ctx.table.field? c m.name).isSome then need x else 2 + max (need x) 2
    | _ => max (need x) 2
  | .index _ x i => max (need x) (1 + need i)
  | .list _ es => max 4 (3 + needOfElements es)
  | .new _ _ as => 2 + needOfArgs as
  | .call _ f as => max (need f) (max 3 (2 + needOfElements as))
  | .unary _ op x =>
    match op with
    | .neg => need x
    | .not => need x
    | op =>
      match x with
      | .ident _ => if op.isPre then 2 else 3
      | .index _ y i => max (need y) (max (need i) 4)
      | .member _ y _ =>
        match ctx.typeOf y with
        | .list _ => max (need y) 4
        | _ => max (need y) 3
      | _ => 1
  | .binary _ op l r =>
    match op with
    | .assign =>
      match l with
      | .ident _ => max (ctx.copied l r + need r) 2
      | .index _ x i => max (need x) (max (2 + need i) (3 + ctx.copied l r + need r))
      | .member _ x _ =>
        match ctx.typeOf x with
        | .list _ => max (need x) (3 + ctx.copied l r + need r)
        | _ => max (need x) (2 + ctx.copied l r + need r)
      | _ => 1
    | .and => max (need l) (need r)
    | .or => max (need l) (need r)
    | _ => max (need l) (1 + need r)
  | _ => 1

/-- How far it rises over the array list that elements are added to. -/
def needOfElements : List Expr → Nat
  | [] => 0
  | e :: es => max (1 + need e) (needOfElements es)

def needOfArgs : List Expr → Nat
  | [] => 0
  | e :: es => max (need e) (1 + needOfArgs es)

end

def needOfAssign : Option Assign → Nat
  | none => 0
  | some a => ctx.need (.binary a.token .assign a.left a.right)

def needOfTest : Option Expr → Nat
  | none => 0
  | some e => ctx.need e

mutual

/-- How far the stack rises in the code of a statement. -/
def needOfStmt : Stmt → Nat
  | .assign a => ctx.need (.binary a.token .assign a.left a.right)
  | .block _ ss => needOfStmts ss
  | .cond _ c y n => max (ctx.need c) (max (needOfStmt y) (needOfElse n))
  | .call t f as => ctx.need (.call t f as)
  | .print _ x => 1 + ctx.need x
  | .ret _ v => ctx.needOfTest v
  | .for _ i c u b => max (ctx.needOfAssign i) (max (ctx.needOfTest c) (max (needOfStmt b) (ctx.needOfAssign u)))
  | .foreach _ _ l b => max (ctx.need l) (max 2 (needOfStmt b))
  | .break _ => 0
  | .continue _ => 0

def needOfStmts : List Stmt → Nat
  | [] => 0
  | s :: ss => max (needOfStmt s) (needOfStmts ss)

def needOfElse : Option Stmt → Nat
  | none => 0
  | some s => needOfStmt s

end

def needOfPiece : Piece → Nat
  | .expr e => ctx.need e
  | .elements _ es => ctx.needOfElements es
  | .args es => ctx.needOfArgs es
  | .update a => ctx.needOfAssign a
  | .test _ _ e => ctx.needOfTest e
  | .stmt _ s => ctx.needOfStmt s
  | .stmts _ ss => ctx.needOfStmts ss
  | .orElse _ s => ctx.needOfElse s

variable {ctx}

attribute [local simp] need

theorem one_le_need (e : Expr) : 1 ≤ ctx.need e := by
  match e with
  | .ident _ | .this _ | .null _ | .int _ _ | .bool _ _ | .string _ _ => simp
  | .list _ _ | .new _ _ _ => simp only [need]; omega
  | .member _ x _ | .call _ x _ | .index _ x _ =>
    have hx := one_le_need x
    simp only [need]
    repeat' split
    all_goals omega
  | .unary _ op x =>
    have hx := one_le_need x
    unfold need
    repeat' split
    all_goals omega
  | .binary _ op l r =>
    have hl := one_le_need l
    have hr := one_le_need r
    unfold need
    repeat' split
    all_goals omega

/-- Each argument stands on the stack when the last one is there. -/
theorem length_le_needOfArgs (es : List Expr) : es.length ≤ ctx.needOfArgs es := by
  induction es with
  | nil => exact Nat.zero_le _
  | cons e es ih =>
    rw [needOfArgs, List.length_cons]
    omega

section

variable {t u : Token} {x i l r : Expr} {m : Ident}

theorem need_changeIdent {op : UnOp} {v : Ident} (ho : op.isIncDec = true) :
    ctx.need (.unary t op (.ident v)) = if op.isPre then 2 else 3 := by
  cases op <;> simp_all [UnOp.isIncDec]

theorem need_changeIndex {op : UnOp} (ho : op.isIncDec = true) :
    ctx.need (.unary t op (.index u x i)) = max (ctx.need x) (max (ctx.need i) 4) := by
  cases op <;> simp_all [UnOp.isIncDec]

theorem need_changeElement {op : UnOp} {es : List (String × Ty)} (ho : op.isIncDec = true)
    (ht : ctx.typeOf x = .list es) : ctx.need (.unary t op (.member u x m)) = max (ctx.need x) 4 := by
  cases op <;> simp_all [UnOp.isIncDec]

theorem need_changeField {op : UnOp} {c : String} (ho : op.isIncDec = true) (ht : ctx.typeOf x = .cls c) :
    ctx.need (.unary t op (.member u x m)) = max (ctx.need x) 3 := by
  cases op <;> simp_all [UnOp.isIncDec]

theorem need_logical {op : BinOp} {exit : Jump × Int} (ho : op.shortcut? = some exit) :
    ctx.need (.binary t op l r) = max (ctx.need l) (ctx.need r) := by
  cases op <;> simp_all [BinOp.shortcut?]

theorem need_arith {op : BinOp} {a : ArithOp} (ho : op.arith? = some a) :
    ctx.need (.binary t op l r) = max (ctx.need l) (1 + ctx.need r) := by
  cases op <;> simp_all [BinOp.arith?]

theorem need_compare {op : BinOp} (ho : op.isComparison = true) :
    ctx.need (.binary t op l r) = max (ctx.need l) (1 + ctx.need r) := by
  cases op <;> simp_all [BinOp.isComparison]

end

end Context

/-- The depth of the operand stack, and by how much it was greater before. -/
def peakFlow : Flow (Nat × Nat) where
  falls op a b := depthFlow.falls op a.1 b.1 ∧ b.2 = a.1 + a.2 - b.1
  jumps test a x := depthFlow.jumps test a.1 x.1

/-- A piece changes the depth as it does in any case, and the greatest depth so far becomes that of its code
if that is greater. -/
def peakClaim (ctx : Context) : Claim (Nat × Nat) := fun T p s a b =>
  depthClaim ctx (fun l d => ∃ k, T l (d, k)) p s a.1 b.1 ∧ b.2 = max a.2 (ctx.needOfPiece p) - (b.1 - a.1)

theorem peakFlow_falls {op : Op} {a b : Nat × Nat} : peakFlow.falls op a b ↔
    op.pops ≤ a.1 ∧ (op.isFinal = false → b.1 = a.1 - op.pops + op.pushes) ∧ b.2 = a.1 + a.2 - b.1 := and_assoc

theorem peakFlow_jumps {test : Jump} {a x : Nat × Nat} : peakFlow.jumps test a x ↔ x.1 = a.1 - test.pops := Iff.rfl

namespace Peak

variable {T : Targets (Nat × Nat)} {own : String → Option (Nat × Nat)} {d k : Nat} {b : Nat × Nat} {t u : Ty}
  {os : List Op} {l : String}

@[simp] theorem path_nil : peakFlow.Path T own [] (d, k) b ↔ b = (d, k) := Iff.rfl

/-- An operation that takes more than it leaves makes the stack lower than it was, and the other way round. -/
theorem path_cons {op : Op} : peakFlow.Path T own (op :: os) (d, k) b ↔
    op.pops ≤ d ∧ (∀ test l, op = .jump test l → ∃ j, T l (d - test.pops, j)) ∧ (∀ l, op = .label l → own l = some (d, k)) ∧
      if op.isFinal then ∃ c, peakFlow.Path T own os (c, d + k - c) b
      else peakFlow.Path T own os (d - op.pops + op.pushes, k + op.pops - op.pushes) b := by
  simp only [Flow.Path, Flow.Step, peakFlow_falls, peakFlow_jumps, Prod.exists]
  constructor
  · rintro ⟨c, j, ⟨⟨⟨hp, hc, rfl⟩, hj⟩, hl⟩, hpath⟩
    refine ⟨hp, fun test l hop => ?_, hl, ?_⟩
    · obtain ⟨x, y, rfl, hT⟩ := hj test l hop
      exact ⟨y, hT⟩
    · cases hf : op.isFinal with
      | true => exact ⟨c, hpath⟩
      | false =>
        obtain rfl := hc hf
        exact (by omega : d + k - (d - op.pops + op.pushes) = k + op.pops - op.pushes) ▸ hpath
  · rintro ⟨hp, hj, hl, hpath⟩
    have hjump : ∀ test l, op = .jump test l → ∃ x y, x = d - test.pops ∧ T l (x, y) := fun test l hop => by
      obtain ⟨y, hT⟩ := hj test l hop
      exact ⟨_, y, rfl, hT⟩
    cases hf : op.isFinal with
    | true =>
      rw [hf, if_pos rfl] at hpath
      obtain ⟨c, hpath⟩ := hpath
      exact ⟨c, _, ⟨⟨⟨hp, by simp, rfl⟩, hjump⟩, hl⟩, hpath⟩
    | false =>
      rw [hf] at hpath
      exact ⟨_, _, ⟨⟨⟨hp, fun _ => rfl, by omega⟩, hjump⟩, hl⟩, hpath⟩

theorem path_jump {test : Jump} (h : test ≠ .always) : peakFlow.Path T own (.jump test l :: os) (d, k) b ↔
    test.pops ≤ d ∧ (∃ j, T l (d - test.pops, j)) ∧ peakFlow.Path T own os (d - test.pops, k + test.pops) b := by
  simp [path_cons, Depth.isFinal_jump h, Op.pops, Op.pushes]

attribute [local simp] path_cons Op.isFinal Op.pops Op.pushes NativeMethod.arity NativeMethod.answers
  NativeConstructor.arity

@[simp] theorem path_box : peakFlow.Path T own (box t) (d + 1, k) b ↔ b = (d + 1, k) := by
  cases t <;> simp [box]

@[simp] theorem path_unbox : peakFlow.Path T own (unbox t) (d + 1, k) b ↔ b = (d + 1, k) := by
  cases t <;> simp [unbox]

@[simp] theorem path_narrow : peakFlow.Path T own (narrow t) (d + 1, k) b ↔ b = (d + 1, k) := by
  cases t <;> simp [narrow]

@[simp] theorem path_changeBy {delta : Int} {isPre : Bool} {slot : Nat} :
    peakFlow.Path T own (changeBy delta isPre slot) (d + 1, k) b ↔ b = (d + 1, max k 1) := by
  cases isPre <;> simp [changeBy] <;> grind

@[simp] theorem path_callResultOps :
    peakFlow.Path T own (Context.callResultOps t) (d + 1, k) b ↔ b = (d + 1, k) := by
  cases t with
  | fptr ps r => cases hr : r.isVoid <;> simp [Context.callResultOps, hr]
  | _ => simp [Context.callResultOps]

@[simp] theorem path_changeVariable {slot : Nat} {op : UnOp} :
    peakFlow.Path T own (changeVariable slot op) (d, k) b ↔ b = (d + 1, max k (if op.isPre then 2 else 3) - 1) := by
  cases hp : op.isPre <;> simp [changeVariable, hp, Flow.path_append] <;> grind

theorem path_changeElement {list val : Nat} {index : Op} {op : UnOp} (hi : Depth.IsIndex index) :
    peakFlow.Path T own (changeElement list val index op) (d, k) b ↔ b = (d + 1, max k 4 - 1) := by
  rcases hi with ⟨i, rfl⟩ | ⟨i, rfl⟩ <;>
  simp [changeElement, Flow.path_append] <;> grind

@[simp] theorem path_changeField {obj val : Nat} {field : MemberRef} {op : UnOp} :
    peakFlow.Path T own (changeField obj val field op) (d, k) b ↔ b = (d + 1, max k 3 - 1) := by
  simp [changeField, Flow.path_append]
  grind

@[simp] theorem path_copyBegin :
    peakFlow.Path T own (copyBegin t u) (d, k) b ↔ b = (d + copyDepth t u, k - copyDepth t u) := by
  unfold copyBegin copyDepth
  split
  · simp
    grind
  · simp

@[simp] theorem path_copyEnd : peakFlow.Path T own (copyEnd t u) (d + copyDepth t u + 1, k) b ↔
    b = (d + 1, k + copyDepth t u) := by
  unfold copyEnd copyDepth
  split <;> simp

theorem path_storeElementOps {index : Op} (hi : Depth.IsIndex index) :
    peakFlow.Path T own (storeElementOps t u index) (d + 4, k) b ↔ b = (d + 1, k + 3) := by
  rcases hi with ⟨i, rfl⟩ | ⟨i, rfl⟩ <;>
  simp [storeElementOps, Flow.path_append]

@[simp] theorem path_storeField {field : MemberRef} :
    peakFlow.Path T own (storeField t u field) (d + 3, k) b ↔ b = (d + 1, k + 2) := by
  simp [storeField, Flow.path_append]

@[simp] theorem path_castElement : peakFlow.Path T own (castElement t) (d + 1, k) b ↔ b = (d + 1, k) := by
  unfold castElement
  split <;> simp

/-- Nothing goes on after a return, so the depth may be any there. -/
theorem path_returnValue {c j : Nat} (hj : j = d + 1 + k - c) :
    peakFlow.Path T own (returnValue t) (d + 1, k) (c, j) := by
  subst hj
  unfold returnValue
  split
  · simp
    omega
  · simp [Flow.path_append]

/-- A test that takes `n` values and leaves one of two numbers. -/
theorem path_branchMerge {test : Jump} {taken : Int} {yes after : String} {n j : Nat}
    (ht : test ≠ .always ∧ test.pops = n) (hj : k + n = j + 1) (hT : ∀ l x, own l = some x → T l x)
    (hy : own yes = some (d, j + 1)) (ha : own after = some (d + 1, j)) :
    peakFlow.Path T own (branchMerge test taken yes after) (d + n, k) (d + 1, j) := by
  obtain ⟨ht, rfl⟩ := ht
  rw [branchMerge, path_jump ht, Nat.add_sub_cancel, hj]
  refine ⟨by omega, ⟨_, hT yes _ hy⟩, ?_⟩
  have halways : Jump.always.pops = 0 := rfl
  simp [halways, hy, ha]
  exact ⟨⟨_, hT after _ ha⟩, by omega⟩

@[simp] theorem path_newArrayList : peakFlow.Path T own newArrayList (d, k) b ↔ b = (d + 1, max k 2 - 1) := by
  simp [newArrayList]
  grind

@[simp] theorem path_addElement : peakFlow.Path T own addElement (d + 2, k) b ↔ b = (d, k + 2) := by
  simp [addElement]

end Peak

section

variable {ctx : Context} {T : Targets (Nat × Nat)} {own : String → Option (Nat × Nat)} {s s' : Supply}
  {items : List Item} {a b : Nat × Nat} {t : Token}

theorem Rule.peak_change {op : UnOp} {x : Expr} (ho : op.isIncDec = true)
    (hr : Rule ctx (.expr (.unary t op x)) s items s') (hk : peakClaim ctx T (.expr (.unary t op x)) s a b) :
    peakFlow.Chain (peakClaim ctx) T own items a b := by
  have hclean := hr.clean hk.1.1
  obtain ⟨d, k⟩ := a
  obtain ⟨e, j⟩ := b
  have hpos := @Context.one_le_need ctx
  cases hr
  case neg | not => cases ho
  all_goals
    simp (disch := assumption) only [peakClaim, depthClaim, Context.needOfPiece, Context.need_changeIdent,
      Context.need_changeIndex, Context.need_changeElement, Context.need_changeField] at hk
    obtain ⟨⟨-, rfl⟩, rfl⟩ := hk
    simp only [Parts.ops_iff, Parts.nil_iff, Flow.Chain, Peak.path_changeVariable, Nat.add_sub_cancel_left,
      exists_eq_left, Nat.cast_add, Nat.cast_one, Parts.part_iff, and_true, peakClaim, depthClaim,
      Context.needOfPiece, exists_eq_right', Prod.exists, Depth.isIndex_load, Peak.path_changeElement, Prod.mk.injEq,
      Nat.add_right_cancel_iff, ↓existsAndEq, true_and, Peak.path_cons, Op.pops, reduceCtorEq, IsEmpty.forall_iff,
      implies_true, Op.isFinal, Bool.false_eq_true, ↓reduceIte, Op.pushes, add_zero, Nat.sub_zero, Peak.path_nil,
      Nat.le_add_left, Nat.add_one_sub_one, le_sup_iff, true_or, Nat.sub_add_cancel,
      Nat.max_assoc, and_self, Depth.isIndex_pushInt, Peak.path_changeField] at hclean ⊢
  case changeIndex x i _ _ _ _ _ _ =>
    exact ⟨hclean.1, hclean.2, by have := hpos x; have := hpos i; omega⟩
  case changeElement x _ _ _ _ _ _ _ _ _ => exact ⟨hclean, by have := hpos x; omega⟩
  case changeField x _ _ _ _ _ _ _ _ _ _ => exact ⟨hclean, by have := hpos x; omega⟩

theorem Rule.peak_assign {l r : Expr} (hr : Rule ctx (.expr (.binary t .assign l r)) s items s')
    (hk : peakClaim ctx T (.expr (.binary t .assign l r)) s a b) :
    peakFlow.Chain (peakClaim ctx) T own items a b := by
  have hclean := hr.clean hk.1.1
  obtain ⟨d, k⟩ := a
  obtain ⟨e, j⟩ := b
  have hpos := @Context.one_le_need ctx
  cases hr
  case logical ho => cases ho
  case arith ho => cases ho
  case compare ho => cases ho
  all_goals
    subst_vars
    simp only [peakClaim, depthClaim, Context.needOfPiece, Context.need, Context.copied] at hk
    obtain ⟨⟨-, rfl⟩, rfl⟩ := hk
    simp only [List.cons_append, Parts.ops_iff, Parts.part_iff, Parts.nil_iff, and_true, Flow.Chain,
      Peak.path_copyBegin, peakClaim, depthClaim, Context.needOfPiece, Nat.add_sub_cancel_left, exists_eq_right',
      Prod.exists, Peak.path_cons, Op.pops, reduceCtorEq, IsEmpty.forall_iff, implies_true, Op.isFinal,
      Bool.false_eq_true, ↓reduceIte, Op.pushes, Nat.reduceSubDiff, Flow.path_append, Peak.path_box, exists_eq_left,
      Nat.le_add_left, Nat.add_one_sub_one, add_zero, Nat.sub_zero, Peak.path_nil, Prod.mk.injEq,
      Nat.add_right_cancel_iff, Nat.pred_eq_succ_iff, true_and, ↓existsAndEq,
      Peak.path_copyEnd, Depth.isIndex_load, Peak.path_storeElementOps, Depth.isIndex_pushInt, Peak.path_storeField]
      at hclean ⊢
  case assignIdent => exact ⟨hclean, by have := hpos r; omega⟩
  all_goals grind

theorem Rule.peak_operation {op : BinOp} {l r : Expr} (hop : op ≠ .assign) (hr : Rule ctx (.expr (.binary t op l r)) s items s')
    (hk : peakClaim ctx T (.expr (.binary t op l r)) s a b) :
    ∃ own : String → Option (Nat × Nat), (∀ l x, own l = some x → Flow.Owned items l) ∧
      peakFlow.Chain (peakClaim ctx) (fun l x => T l x ∨ own l = some x) own items a b := by
  have hclean := hr.clean hk.1.1
  have hpos := @Context.one_le_need ctx
  obtain ⟨d, k⟩ := a
  obtain ⟨e, j⟩ := b
  cases hr
  case assignIdent | assignIndex | assignElement | assignField => exact absurd rfl hop
  case logical ho =>
    have hp := BinOp.shortcut?_pops ho
    have hl := hpos l
    have hr := hpos r
    simp only [peakClaim, depthClaim, Context.needOfPiece, Context.need_logical ho] at hk
    obtain ⟨⟨-, rfl⟩, rfl⟩ := hk
    refine ⟨Flow.ownStates s [(d, max k (max (ctx.need l) (ctx.need r)) - 1 + 1),
      (d + 1, max k (max (ctx.need l) (ctx.need r)) - 1)],
      fun l x => Flow.owned_of_ownStates ?_, ?_⟩
    · simp [Flow.Owned, or_and_right, exists_or, branchMerge]
      omega
    · simp only [Parts.part_iff, Parts.ops_iff, Parts.nil_iff, and_true, Flow.Chain, peakClaim, depthClaim,
        Context.needOfPiece, Peak.path_jump hp.1, hp.2, Flow.ownStates_label, List.length_cons, List.length_nil,
        zero_add, Nat.reduceAdd, Nat.zero_lt_succ, getElem?_pos, List.getElem_cons_zero, Option.some.injEq,
        Prod.mk.injEq, Peak.path_nil, Nat.add_sub_cancel_left, exists_eq_right', Prod.exists, ↓existsAndEq,
        Nat.le_add_left, Nat.add_one_sub_one, true_and, exists_or_eq_right', and_self]
        at hclean ⊢
      exact ⟨hclean.1, hclean.2, Peak.path_branchMerge hp (by omega) (fun l x h => .inr h) (by simp) (by simp)⟩
  case arith ho =>
    refine ⟨fun _ => none, by simp, ?_⟩
    simp only [peakClaim, depthClaim, Context.needOfPiece, Context.need_arith ho, Parts.part_iff, Parts.ops_iff,
      Parts.nil_iff, and_true, Flow.Chain, reduceCtorEq, or_false, exists_eq_right', Prod.exists, Peak.path_cons,
      Op.pops, IsEmpty.forall_iff, implies_true, Op.isFinal, Bool.false_eq_true, ↓reduceIte, Op.pushes,
      Nat.add_one_sub_one, Peak.path_nil, Prod.mk.injEq, true_and, ↓existsAndEq,
      Nat.reduceLeDiff, Nat.reduceSubDiff, Nat.add_sub_cancel_left, Nat.le_add_left] at hk hclean ⊢
    grind
  case compare s₂ _ ho =>
    have hl := hpos l
    have hr := hpos r
    simp only [peakClaim, depthClaim, Context.needOfPiece, Context.need_compare ho] at hk
    obtain ⟨⟨-, rfl⟩, rfl⟩ := hk
    refine ⟨Flow.ownStates s₂ [(d, max k (max (ctx.need l) (1 + ctx.need r)) - 1 + 1),
      (d + 1, max k (max (ctx.need l) (1 + ctx.need r)) - 1)],
      fun l x => Flow.owned_of_ownStates ?_, ?_⟩
    · simp [Flow.Owned, branchMerge]
      omega
    · simp only [Parts.part_iff, Parts.ops_iff, Parts.nil_iff, and_true, Flow.Chain, peakClaim, depthClaim,
        Context.needOfPiece, le_sup_iff, Nat.le_add_right, or_true, Nat.sub_add_cancel, Nat.add_sub_cancel_left,
        exists_eq_right', Prod.exists, ↓existsAndEq] at hclean ⊢
      exact ⟨hclean.1, hclean.2, Peak.path_branchMerge (BinOp.comparison_pops _ _) (by omega) (fun l x h => .inr h)
        (by simp) (by simp)⟩

theorem Rule.peak_cond {loop : Option Loop} {c : Expr} {y : Stmt} {n : Option Stmt}
    (hr : Rule ctx (.stmt loop (.cond t c y n)) s items s') (hk : peakClaim ctx T (.stmt loop (.cond t c y n)) s a b) :
    ∃ own : String → Option (Nat × Nat), (∀ l x, own l = some x → Flow.Owned items l) ∧
      peakFlow.Chain (peakClaim ctx) (fun l x => T l x ∨ own l = some x) own items a b := by
  have hclean := hr.clean hk.1.1
  have hc := @Context.one_le_need ctx c
  obtain ⟨d, k⟩ := a
  obtain ⟨e, j⟩ := b
  cases hr
  simp only [peakClaim, depthClaim, Context.needOfPiece, Context.needOfStmt] at hk
  obtain ⟨⟨-, rfl, rfl, hloop⟩, rfl⟩ := hk
  refine ⟨Flow.ownStates s [(0, max (max k (ctx.need c)) (ctx.needOfStmt y)),
    (0, max k (max (ctx.need c) (max (ctx.needOfStmt y) (ctx.needOfElse n))))], fun l x => Flow.owned_of_ownStates ?_, ?_⟩
  · simp [Flow.Owned, or_and_right, exists_or]
    omega
  · simp only [Parts.part_iff, Parts.ops_iff, Parts.nil_iff, and_true, Flow.Chain, peakClaim, depthClaim, zero_add,
      Context.needOfPiece, Nat.sub_zero, Nat.max_assoc, Nat.sub_self, exists_eq_right', Prod.exists, Peak.path_cons,
      Op.pops, Nat.zero_le, reduceCtorEq, Jump.pops, IsEmpty.forall_iff, implies_true, Op.label.injEq, forall_eq',
      Flow.ownStates_label, List.length_cons, List.length_nil, Nat.reduceAdd, Nat.lt_add_one, getElem?_pos,
      List.getElem_cons_succ, List.getElem_cons_zero, Option.some.injEq, Prod.mk.injEq, Op.isFinal,
      Bool.false_eq_true, ↓reduceIte, Op.pushes, add_zero, Peak.path_nil, and_self, true_and, exists_eq_right_right',
      Nat.sub_eq_zero_of_le, ↓existsAndEq, Op.jump.injEq, and_imp, forall_apply_eq_imp_iff, Nat.zero_lt_succ,
      exists_or_eq_right', Std.le_refl] at hclean ⊢
    grind

theorem Rule.peak_for {loop : Option Loop} {i u : Option Assign} {c : Option Expr} {y : Stmt}
    (hr : Rule ctx (.stmt loop (.for t i c u y)) s items s') (hk : peakClaim ctx T (.stmt loop (.for t i c u y)) s a b) :
    ∃ own : String → Option (Nat × Nat), (∀ l x, own l = some x → Flow.Owned items l) ∧
      peakFlow.Chain (peakClaim ctx) (fun l x => T l x ∨ own l = some x) own items a b := by
  have hclean := hr.clean hk.1.1
  obtain ⟨d, k⟩ := a
  obtain ⟨e, j⟩ := b
  cases hr
  simp only [peakClaim, depthClaim, Context.needOfPiece, Context.needOfStmt] at hk
  obtain ⟨⟨-, rfl, rfl, hloop⟩, rfl⟩ := hk
  refine ⟨Flow.ownStates s [(0, max k (ctx.needOfAssign i)),
    (0, max k (max (ctx.needOfAssign i) (max (ctx.needOfTest c) (ctx.needOfStmt y)))),
    (0, max k (max (ctx.needOfAssign i) (max (ctx.needOfTest c) (max (ctx.needOfStmt y) (ctx.needOfAssign u)))))],
    fun l x => Flow.owned_of_ownStates ?_, ?_⟩
  · simp [Flow.Owned, or_and_right, exists_or]
    omega
  · simp only [Parts.part_iff, Parts.ops_iff, Parts.nil_iff, and_true, Flow.Chain, peakClaim, depthClaim,
      Context.needOfPiece, Nat.sub_zero, Flow.ownStates_label, List.length_cons, List.length_nil, zero_add,
      Nat.reduceAdd, Nat.lt_add_one, getElem?_pos, List.getElem_cons_succ, List.getElem_cons_zero, Option.some.injEq,
      Prod.mk.injEq, true_and, exists_or_eq_right', forall_eq', Nat.reduceLT, and_self, Nat.sub_self,
      exists_eq_right', Prod.exists, Peak.path_cons, Op.pops, Jump.pops, Nat.zero_le, Op.jump.injEq, and_imp,
      forall_apply_eq_imp_iff, Nat.zero_lt_succ, reduceCtorEq, IsEmpty.forall_iff, implies_true, Op.isFinal,
      ↓reduceIte, Op.label.injEq, Bool.false_eq_true, Op.pushes, add_zero, Peak.path_nil, exists_eq_left',
      ↓existsAndEq, Nat.sub_eq_zero_of_le, Nat.max_assoc] at hclean ⊢
    grind

theorem Rule.peak_foreach {loop : Option Loop} {v : Ident} {l : Expr} {y : Stmt}
    (hr : Rule ctx (.stmt loop (.foreach t v l y)) s items s') (hk : peakClaim ctx T (.stmt loop (.foreach t v l y)) s a b) :
    ∃ own : String → Option (Nat × Nat), (∀ l x, own l = some x → Flow.Owned items l) ∧
      peakFlow.Chain (peakClaim ctx) (fun l x => T l x ∨ own l = some x) own items a b := by
  have hclean := hr.clean hk.1.1
  have hl := @Context.one_le_need ctx l
  obtain ⟨d, k⟩ := a
  obtain ⟨e, j⟩ := b
  cases hr
  simp only [peakClaim, depthClaim, Context.needOfPiece, Context.needOfStmt] at hk
  obtain ⟨⟨-, rfl, rfl, hloop⟩, rfl⟩ := hk
  refine ⟨Flow.ownStates s [(0, max k (ctx.need l)), (0, max k (max (ctx.need l) (max 2 (ctx.needOfStmt y)))),
    (0, max k (max (ctx.need l) (max 2 (ctx.needOfStmt y))))], fun l x => Flow.owned_of_ownStates ?_, ?_⟩
  · simp [Flow.Owned, or_and_right, exists_or]
    omega
  · simp only [Nat.cast_add, Nat.cast_one, List.cons_append, List.nil_append, Parts.part_iff, Parts.ops_iff,
      Parts.nil_iff, and_true, Flow.Chain, peakClaim, depthClaim, zero_add, Context.needOfPiece, Nat.sub_zero,
      Option.some.injEq, forall_eq', Flow.ownStates_label, List.length_cons, List.length_nil, Nat.reduceAdd,
      Nat.reduceLT, getElem?_pos, List.getElem_cons_succ, List.getElem_cons_zero, Prod.mk.injEq, true_and,
      exists_or_eq_right', Nat.lt_add_one, and_self, Nat.sub_self, exists_eq_right', Prod.exists, Peak.path_cons,
      Op.pops, Nat.zero_le, reduceCtorEq, Jump.pops, IsEmpty.forall_iff, implies_true, Op.label.injEq, Op.isFinal,
      Bool.false_eq_true, ↓reduceIte, Op.pushes, add_zero, Op.jump.injEq, and_imp, forall_apply_eq_imp_iff,
      Nat.zero_lt_succ, Peak.path_nil, exists_eq_left', ↓existsAndEq, Nat.sub_eq_zero_of_le, Nat.add_one_sub_one,
      Nat.le_add_left, Nat.reduceSubDiff, argCount_method, NativeMethod.arity, returnsVoid_method,
      NativeMethod.answers, Bool.not_true, Flow.path_append, Peak.path_castElement, exists_eq_left,
      Std.le_refl] at hclean ⊢
    grind

theorem Rule.peak_expr (hn : ∀ cls, argCount (ctx.table.constructorDescriptor cls) = (ctx.table.constructorParams cls).length)
    {x : Expr} (hr : Rule ctx (.expr x) s items s') (hk : peakClaim ctx T (.expr x) s a b) :
    ∃ own : String → Option (Nat × Nat), (∀ l x, own l = some x → Flow.Owned items l) ∧
      peakFlow.Chain (peakClaim ctx) (fun l x => T l x ∨ own l = some x) own items a b := by
  have hclean := hr.clean hk.1.1
  have hpos := @Context.one_le_need ctx
  obtain ⟨d, k⟩ := a
  obtain ⟨e, j⟩ := b
  have hrule := hr
  cases hr
  case changeIdent ho _ | changeIndex ho | changeElement ho _ _ | changeField ho _ _ =>
    exact ⟨fun _ => none, by simp, hrule.peak_change ho hk⟩
  case assignIdent | assignIndex | assignElement | assignField =>
    exact ⟨fun _ => none, by simp, hrule.peak_assign hk⟩
  case logical ho => exact hrule.peak_operation (BinOp.ne_assign_of_shortcut? ho) hk
  case arith ho => exact hrule.peak_operation (BinOp.ne_assign_of_arith? ho) hk
  case compare ho => exact hrule.peak_operation (BinOp.ne_assign_of_isComparison ho) hk
  case not x _ s₁ _ =>
    have hx := hpos x
    simp only [peakClaim, depthClaim, Context.needOfPiece, Context.need] at hk
    obtain ⟨⟨-, rfl⟩, rfl⟩ := hk
    refine ⟨Flow.ownStates s₁ [(d, max k (ctx.need x) - 1 + 1), (d + 1, max k (ctx.need x) - 1)],
      fun l x => Flow.owned_of_ownStates ?_, ?_⟩
    · simp [Flow.Owned, branchMerge]
      omega
    · simp only [Parts.part_iff, Parts.ops_iff, Parts.nil_iff, and_true, Flow.Chain, peakClaim, depthClaim,
        Context.needOfPiece, Nat.add_sub_cancel_left, exists_eq_right', Prod.exists, ↓existsAndEq,
        ] at hclean ⊢
      exact ⟨hclean, Peak.path_branchMerge ⟨by simp, rfl⟩ (by omega) (fun l x h => .inr h) (by simp) (by simp)⟩
  case new c as _ _ =>
    obtain ⟨dropped, hd⟩ := hk.1.1
    simp only [Context.inferCall, List.append_eq_nil_iff] at hd
    have hfit := (Context.creation_ok hd.1.1 hd.2).2.1
    have hlen : argCount (ctx.table.constructorDescriptor c.name) = as.length := by
      rw [hn, Context.length_eq_of_fits hfit, Context.length_inferAll]
    refine ⟨fun _ => none, by simp, ?_⟩
    have hargs := @Context.length_le_needOfArgs ctx as
    simp only [peakClaim, depthClaim, Context.needOfPiece, Context.need, Parts.ops_iff, Parts.part_iff, Parts.nil_iff,
      and_true, Flow.Chain, reduceCtorEq, or_false, Peak.path_cons, Op.pops, Nat.zero_le, IsEmpty.forall_iff,
      implies_true, Op.isFinal, Bool.false_eq_true, ↓reduceIte, Nat.sub_zero, Op.pushes, add_zero,
      Nat.le_add_left, Nat.add_one_sub_one, Nat.reduceSubDiff, Peak.path_nil, true_and, exists_eq_right', Prod.exists,
      hlen, Prod.mk.injEq, ↓existsAndEq, Nat.add_sub_cancel_left, exists_eq_left]
      at hk hclean ⊢
    refine ⟨hclean, ?_, ?_⟩ <;> omega
  -- The forms without labels: the need is the largest among the items, by arithmetic.
  all_goals
    refine ⟨fun _ => none, by simp, ?_⟩
    simp only [peakClaim, depthClaim, Context.needOfPiece, Context.need, Parts.ops_iff, Parts.nil_iff, Flow.Chain,
      reduceCtorEq, or_false, Peak.path_cons, Op.pops, Nat.zero_le, IsEmpty.forall_iff, implies_true,
      Op.isFinal, Bool.false_eq_true, ↓reduceIte, Nat.sub_zero, Op.pushes, add_zero, Peak.path_nil, true_and,
      exists_eq_left, Prod.mk.injEq, Peak.path_unbox, Parts.part_iff, and_true, exists_eq_right', Prod.exists,
      Nat.add_one_sub_one, ↓existsAndEq, Nat.le_add_left, Nat.add_sub_cancel_left,
      Nat.reduceSubDiff, argCount_constructor, NativeConstructor.arity, Nat.reduceAdd, Nat.reduceLeDiff,
      argCount_method, NativeMethod.arity, returnsVoid_method, NativeMethod.answers, Bool.not_true, Peak.path_narrow,
      List.cons_append, List.nil_append, Peak.path_newArrayList, Nat.sub_self, Peak.path_callResultOps] at hk hclean ⊢
    try grind

end

theorem peakFlow_sound {ctx : Context}
    (hn : ∀ cls, argCount (ctx.table.constructorDescriptor cls) = (ctx.table.constructorParams cls).length) :
    peakFlow.Sound ctx (peakClaim ctx) := by
  intro p s items s' hr hslots T a b hk
  clear hslots
  by_cases hexpr : ∃ x, p = .expr x
  · obtain ⟨x, rfl⟩ := hexpr
    exact hr.peak_expr hn hk
  have hclean := hr.clean hk.1.1
  have hpos := @Context.one_le_need ctx
  obtain ⟨d, k⟩ := a
  obtain ⟨e, j⟩ := b
  have hrule := hr
  cases hr
  case cond => exact hrule.peak_cond hk
  case «for» => exact hrule.peak_for hk
  case foreach => exact hrule.peak_foreach hk
  case print hp =>
    have hn := Ty.arity_printer? hp
    refine ⟨fun _ => none, by simp, ?_⟩
    simp only [peakClaim, depthClaim, Context.needOfPiece, Context.needOfStmt, Parts.ops_iff, Parts.part_iff,
      Parts.nil_iff, and_true, Flow.Chain, reduceCtorEq, or_false, Peak.path_cons, Op.pops, Nat.zero_le,
      IsEmpty.forall_iff, implies_true, Op.isFinal, Bool.false_eq_true, ↓reduceIte, Nat.sub_zero, Op.pushes,
      add_zero, Peak.path_nil, true_and, exists_eq_right', Prod.exists, argCount_method, hn, Nat.reduceAdd,
      returnsVoid_method, Bool.not_false, Prod.mk.injEq, ↓existsAndEq, Nat.reduceLeDiff,
      Nat.reduceSubDiff, Nat.add_sub_cancel_left, exists_eq_left, Nat.le_add_left, Nat.add_one_sub_one] at hk hclean ⊢
    grind
  case retValue x _ _ =>
    refine ⟨fun _ => none, by simp, ?_⟩
    simp only [peakClaim, depthClaim, Context.needOfPiece, Context.needOfStmt, Context.needOfTest, Parts.part_iff,
      Parts.ops_iff, Parts.nil_iff, and_true, Flow.Chain, reduceCtorEq, or_false, exists_eq_right', Prod.exists,
      ↓existsAndEq, Nat.add_sub_cancel_left] at hk hclean ⊢
    obtain ⟨⟨-, rfl, rfl, -⟩, rfl⟩ := hk
    have hx := hpos x
    exact ⟨hclean, Peak.path_returnValue (by omega)⟩
  all_goals try exact absurd ⟨_, rfl⟩ hexpr
  all_goals
    refine ⟨fun _ => none, by simp, ?_⟩
    simp only [peakClaim, depthClaim, Context.needOfPiece, Context.needOfElements, Nat.zero_le, sup_of_le_left,
      Parts.nil_iff, Flow.Chain, Prod.mk.injEq, Parts.ops_iff, Parts.part_iff, and_true, reduceCtorEq, or_false,
      Peak.path_cons, Op.pops, Jump.pops, IsEmpty.forall_iff, implies_true, Op.isFinal, Bool.false_eq_true,
      ↓reduceIte, Op.pushes, Nat.reduceSubDiff, Peak.path_nil, true_and, exists_eq_right', Prod.exists, ↓existsAndEq,
      Nat.sub_self, Nat.sub_zero, Nat.add_sub_cancel_left, Peak.path_box, exists_eq_left,
      Peak.path_addElement, List.length_nil, add_zero, Context.needOfArgs, List.length_cons, Context.needOfAssign,
      Nat.le_add_left, Nat.add_one_sub_one, Context.needOfTest, Op.jump.injEq, and_imp, forall_apply_eq_imp_iff,
      forall_eq', Context.needOfStmt, Context.need, le_sup_iff, Nat.reduceLeDiff, true_or, or_true,
      Nat.sub_add_cancel, exists_eq_left', Option.some.injEq, Context.needOfStmts, Nat.sub_eq_zero_of_le,
      Nat.max_assoc, Context.needOfElse] at hk hclean ⊢
    try grind

end ClassCompiler
