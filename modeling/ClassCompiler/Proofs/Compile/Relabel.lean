import ClassCompiler.Proofs.Code.Relabel
import ClassCompiler.Proofs.Compile.Methods
import ClassCompiler.Proofs.Typing.Alike

namespace ClassCompiler

section

variable (f : String → String)

def Loop.relabel (l : Loop) : Loop := ⟨f l.next, f l.done⟩

def relabelCode (code : List Instr) : List Instr := code.map (Instr.relabel f)

@[simp] theorem relabelCode_nil : relabelCode f [] = [] := rfl

@[simp] theorem relabelCode_append (c₁ c₂ : List Instr) :
    relabelCode f (c₁ ++ c₂) = relabelCode f c₁ ++ relabelCode f c₂ := List.map_append

def relabelOps (os : List Op) : List Op := os.map (Op.relabel f)

@[simp] theorem relabelCode_onLine (line : Int) (os : List Op) :
    relabelCode f (onLine line os) = onLine line (relabelOps f os) := by
  simp [relabelCode, relabelOps, onLine, Instr.relabel, Function.comp_def]

@[simp] theorem relabelOps_nil : relabelOps f [] = [] := rfl

@[simp] theorem relabelOps_cons (op : Op) (os : List Op) :
    relabelOps f (op :: os) = op.relabel f :: relabelOps f os := rfl

@[simp] theorem relabelOps_append (os₁ os₂ : List Op) :
    relabelOps f (os₁ ++ os₂) = relabelOps f os₁ ++ relabelOps f os₂ := List.map_append

@[simp] theorem relabelOps_box (t : Ty) : relabelOps f (box t) = box t := by cases t <;> rfl

@[simp] theorem relabelOps_unbox (t : Ty) : relabelOps f (unbox t) = unbox t := by cases t <;> rfl

@[simp] theorem relabelOps_narrow (t : Ty) : relabelOps f (narrow t) = narrow t := by cases t <;> rfl

@[simp] theorem relabelOps_newArrayList : relabelOps f newArrayList = newArrayList := rfl

@[simp] theorem relabelOps_addElement : relabelOps f addElement = addElement := rfl

@[simp] theorem relabelOps_callResultOps (t : Ty) :
    relabelOps f (Context.callResultOps t) = Context.callResultOps t := by
  cases t with
  | fptr ps r => cases hr : r.isVoid <;> simp [Context.callResultOps, hr]
  | _ => rfl

@[simp] theorem relabelOps_changeBy (delta : Int) (isPre : Bool) (slot : Nat) :
    relabelOps f (changeBy delta isPre slot) = changeBy delta isPre slot := by cases isPre <;> rfl

@[simp] theorem relabelOps_changeVariable (slot : Nat) (op : UnOp) :
    relabelOps f (changeVariable slot op) = changeVariable slot op := by cases op <;> rfl

@[simp] theorem relabelOps_changeElement (list val : Nat) (index : Op) (op : UnOp) :
    relabelOps f (changeElement list val index op) = changeElement list val (index.relabel f) op := by
  simp [changeElement, Op.relabel]

@[simp] theorem relabelOps_changeField (obj val : Nat) (field : MemberRef) (op : UnOp) :
    relabelOps f (changeField obj val field op) = changeField obj val field op := by
  simp [changeField, Op.relabel]

@[simp] theorem relabelOps_branchMerge (jump : Jump) (taken : Int) (yes after : String) :
    relabelOps f (branchMerge jump taken yes after) = branchMerge jump taken (f yes) (f after) := rfl

@[simp] theorem relabelOps_returnValue (t : Ty) : relabelOps f (returnValue t) = returnValue t := by
  unfold returnValue
  split <;> simp [Op.relabel]

@[simp] theorem relabelCode_storedValue (l r : Ty) (line : Int) (value : List Instr) :
    relabelCode f (storedValue l r line value) = storedValue l r line (relabelCode f value) := by
  unfold storedValue
  split <;> simp [Op.relabel]

@[simp] theorem relabelCode_storeElement (l r : Ty) (line : Int) (index : Op) :
    relabelCode f (storeElement l r line index) = storeElement l r line (index.relabel f) := by
  simp [storeElement, Op.relabel]

@[simp] theorem relabelCode_logicalCode (line : Int) (exit : Jump) (decided : Int) (short after : String)
    (l r : List Instr) : relabelCode f (logicalCode line exit decided short after l r) =
      logicalCode line exit decided (f short) (f after) (relabelCode f l) (relabelCode f r) := by
  simp [logicalCode, Op.relabel]

mutual

@[simp] theorem relabelOps_defaultValue (t : Ty) : relabelOps f (defaultValue t) = defaultValue t := by
  match t with
  | .int | .bool | .string | .null | .void | .noType | .cls _ | .fptr _ _ => rfl
  | .list es => simp [defaultValue, relabelOps_defaultElements es, Op.relabel]

@[simp] theorem relabelOps_defaultElements (es : List (String × Ty)) :
    relabelOps f (defaultElements es) = defaultElements es := by
  match es with
  | [] => rfl
  | (_, t) :: es =>
    simp [defaultElements, relabelOps_defaultValue t, relabelOps_defaultElements es, Op.relabel]

end

end

def Supply.shift (d : Nat) (s : Supply) : Supply := ⟨s.labels + d, s.slots⟩

/-- The second generator, from `d` labels later on, gives what the first gives, renamed, or fails with it. -/
def Gen.Shifts {α β : Type} (d : Nat) (r : α → β) (g : Gen α) (g' : Gen β) : Prop :=
  ∀ s, g' (s.shift d) = (g s).map fun (a, s') => (r a, s'.shift d)

namespace Gen

variable {α β γ δ : Type} {d : Nat}

theorem Shifts.bind {r : α → β} {r' : γ → δ} {g : Gen α} {g' : Gen β} {k : α → Gen γ} {k' : β → Gen δ}
    (hg : Shifts d r g g') (hk : ∀ a, Shifts d r' (k a) (k' (r a))) : Shifts d r' (g >>= k) (g' >>= k') := by
  intro s
  have hs := hg s
  cases h : g s with
  | error e =>
    rw [h] at hs
    simp only [Except.map] at hs
    simp [Bind.bind, StateT.bind, Except.bind, hs, h, Except.map]
  | ok a =>
    rw [h] at hs
    simp only [Except.map] at hs
    simpa [Bind.bind, StateT.bind, Except.bind, hs, h] using hk a.1 a.2

theorem shifts_pure {r : α → β} {a : α} {b : β} (h : r a = b) : Shifts d r (pure a) (pure b) := by
  subst h
  exact fun _ => rfl

theorem shifts_fail (r : α → β) (p : CompileProblem) : Shifts d r (fail p) (fail p) := fun _ => rfl

theorem shifts_newSlot : Shifts d id newSlot newSlot := fun _ => rfl

theorem shifts_newLabel {f : String → String} (hf : ∀ n, f (labelName n) = labelName (n + d)) :
    Shifts d f newLabel newLabel := fun s => by
  have h : labelName (s.labels + d) = f (labelName s.labels) := (hf s.labels).symm
  simp only [newLabel, Supply.shift, Except.map]
  refine congrArg Except.ok (Prod.ext h ?_)
  simp [Nat.add_right_comm]

theorem shifts_freeSlotsFrom (n : Nat) : Shifts d id (freeSlotsFrom n) (freeSlotsFrom n) := fun _ => rfl

theorem Shifts.within {r : α → β} {g : Gen α} {g' : Gen β} (h : Shifts d r g g') (note : String) :
    Shifts d r (Gen.within note g) (Gen.within note g') := by
  intro s
  simp only [Gen.within, h s]
  cases g s <;> rfl

end Gen

namespace Context

variable {p q : Program} {cls : String} {m : MethodDecl} {f : String → String} {d : Nat}

theorem shifts_slotOf (name : String) (line : Int) :
    Gen.Shifts d id ((⟨p, cls, m⟩ : Context).slotOf name line) ((⟨q, cls, m⟩ : Context).slotOf name line) := by
  unfold slotOf
  cases m.symbol? name with
  | none => exact Gen.shifts_fail _ _
  | some s => exact Gen.shifts_pure rfl

theorem shifts_elementOf (es : List (String × Ty)) (name : String) (line : Int) :
    Gen.Shifts d id (elementOf es name line) (elementOf es name line) := by
  unfold elementOf
  cases Ty.position? es name with
  | none => exact Gen.shifts_fail _ _
  | some s => exact Gen.shifts_pure rfl

theorem shifts_ownerOf (h : p.Alike q) (c name : String) (line : Int) :
    Gen.Shifts d id ((⟨p, cls, m⟩ : Context).ownerOf c name line) ((⟨q, cls, m⟩ : Context).ownerOf c name line) := by
  unfold ownerOf
  simp only [h.field?]
  cases q.field? c name with
  | none => exact Gen.shifts_fail _ _
  | some s => exact Gen.shifts_pure rfl

/-- The code of an expression against programs alike, from later labels on. -/
def ExprShifts (p q : Program) (cls : String) (m : MethodDecl) (f : String → String) (d : Nat) (e : Expr) : Prop :=
  Gen.Shifts d (relabelCode f) ((⟨p, cls, m⟩ : Context).compileExpr e) ((⟨q, cls, m⟩ : Context).compileExpr e)

theorem compileChange_shifts (h : p.Alike q) {t : Token} {op : UnOp} {x : Expr} (ho : op.isIncDec = true)
    (ih : ∀ y ∈ x.children, ExprShifts p q cls m f d y) : ExprShifts p q cls m f d (.unary t op x) := by
  unfold ExprShifts
  rw [compileExpr_change ho, compileExpr_change ho]
  cases x with
  | ident v => exact (shifts_slotOf _ _).bind fun s => Gen.shifts_pure (by simp)
  | index u y i =>
    refine Gen.shifts_newSlot.bind fun list => Gen.shifts_newSlot.bind fun idx => Gen.shifts_newSlot.bind fun val =>
      (ih y (by simp [Expr.children])).bind fun yc => (ih i (by simp [Expr.children])).bind fun ic =>
        Gen.shifts_pure (by simp [Op.relabel])
  | member u y n =>
    have hy := ih y (by simp [Expr.children])
    simp only [typeOf_alike h]
    cases (⟨q, cls, m⟩ : Context).typeOf y with
    | list es =>
      exact (shifts_elementOf _ _ _).bind fun i => Gen.shifts_newSlot.bind fun list => Gen.shifts_newSlot.bind
        fun val => hy.bind fun yc => Gen.shifts_pure (by simp [Op.relabel])
    | cls c =>
      exact (shifts_ownerOf h _ _ _).bind fun owner => Gen.shifts_newSlot.bind fun obj => Gen.shifts_newSlot.bind
        fun val => hy.bind fun yc => Gen.shifts_pure (by simp [Op.relabel])
    | _ => exact Gen.shifts_fail _ _
  | _ => exact Gen.shifts_fail _ _

theorem compileAssign_shifts (h : p.Alike q) {t : Token} {l r : Expr}
    (ihl : ∀ y ∈ l.children, ExprShifts p q cls m f d y) (ihr : ExprShifts p q cls m f d r) :
    ExprShifts p q cls m f d (.binary t .assign l r) := by
  unfold ExprShifts
  cases l with
  | ident v =>
    simp only [compileExpr, typeOf_alike h]
    exact (shifts_slotOf _ _).bind fun s => ihr.bind fun rc => Gen.shifts_pure (by simp [Op.relabel])
  | index u x i =>
    simp only [compileExpr, typeOf_alike h]
    exact (ihl x (by simp [Expr.children])).bind fun xc => (ihl i (by simp [Expr.children])).bind fun ic =>
      Gen.shifts_newSlot.bind fun idx => ihr.bind fun rc => Gen.shifts_pure (by simp [Op.relabel])
  | member u x n =>
    have hx := ihl x (by simp [Expr.children])
    simp only [compileExpr, typeOf_alike h]
    cases (⟨q, cls, m⟩ : Context).typeOf x with
    | list es =>
      exact (shifts_elementOf _ _ _).bind fun i => hx.bind fun xc => ihr.bind fun rc =>
        Gen.shifts_pure (by simp [Op.relabel])
    | cls c =>
      exact (shifts_ownerOf h _ _ _).bind fun owner => hx.bind fun xc => ihr.bind fun rc =>
        Gen.shifts_pure (by simp [Op.relabel])
    | _ => exact Gen.shifts_fail _ _
  | _ =>
    simp only [compileExpr]
    exact Gen.shifts_fail _ _

theorem compileMember_shifts (h : p.Alike q) {t : Token} {x : Expr} {n : Ident} (ih : ExprShifts p q cls m f d x) :
    ExprShifts p q cls m f d (.member t x n) := by
  unfold ExprShifts
  simp only [compileExpr, typeOf_alike h, h.field?, h.method?]
  cases (⟨q, cls, m⟩ : Context).typeOf x with
  | cls c =>
    cases hf : q.field? c n.name with
    | some r =>
      simp only [hf]
      exact ih.bind fun xc => Gen.shifts_pure (by simp [Op.relabel])
    | none =>
      cases hm : q.method? c n.name with
      | some r =>
        simp only [hf, hm]
        exact ih.bind fun xc => Gen.shifts_pure (by simp [Op.relabel])
      | none =>
        simp only [hf, hm]
        exact Gen.shifts_fail _ _
  | list es => exact (shifts_elementOf _ _ _).bind fun i => ih.bind fun xc => Gen.shifts_pure (by simp [Op.relabel])
  | _ => exact Gen.shifts_fail _ _

theorem compileOperation_shifts (hf : ∀ n, f (labelName n) = labelName (n + d)) (h : p.Alike q) {t : Token}
    {op : BinOp} {l r : Expr} (ho : op ≠ .assign) (ihl : ExprShifts p q cls m f d l)
    (ihr : ExprShifts p q cls m f d r) : ExprShifts p q cls m f d (.binary t op l r) := by
  unfold ExprShifts
  cases op with
  | assign => exact absurd rfl ho
  | and | or =>
    simp only [compileExpr]
    exact (Gen.shifts_newLabel hf).bind fun short => (Gen.shifts_newLabel hf).bind fun after =>
      ihl.bind fun lc => ihr.bind fun rc => Gen.shifts_pure (by simp)
  | add | sub | mul | div | mod =>
    simp only [compileExpr]
    exact ihl.bind fun lc => ihr.bind fun rc => Gen.shifts_pure (by simp [Op.relabel])
  | lt | gt | eq | ne =>
    simp only [compileExpr, typeOf_alike h]
    exact ihl.bind fun lc => ihr.bind fun rc => (Gen.shifts_newLabel hf).bind fun yes =>
      (Gen.shifts_newLabel hf).bind fun after => Gen.shifts_pure (by simp)

theorem compileElements_shifts (h : p.Alike q) {line : Int} {es : List Expr}
    (ih : ∀ e ∈ es, ExprShifts p q cls m f d e) : Gen.Shifts d (relabelCode f)
      ((⟨p, cls, m⟩ : Context).compileElements line es) ((⟨q, cls, m⟩ : Context).compileElements line es) := by
  induction es with
  | nil => exact Gen.shifts_pure rfl
  | cons e es ihes =>
    simp only [compileElements, typeOf_alike h]
    exact (ih e (by simp)).bind fun ec => (ihes fun e he => ih e (by simp [he])).bind fun rest =>
      Gen.shifts_pure (by simp [Op.relabel])

theorem compileArgs_shifts (h : p.Alike q) {es : List Expr} (ih : ∀ e ∈ es, ExprShifts p q cls m f d e) :
    Gen.Shifts d (relabelCode f)
      ((⟨p, cls, m⟩ : Context).compileArgs es) ((⟨q, cls, m⟩ : Context).compileArgs es) := by
  induction es with
  | nil => exact Gen.shifts_pure rfl
  | cons e es ihes =>
    simp only [compileArgs, typeOf_alike h]
    exact (ih e (by simp)).bind fun ec => (ihes fun e he => ih e (by simp [he])).bind fun rest =>
      Gen.shifts_pure (by simp)

theorem compileExpr_shifts (hf : ∀ n, f (labelName n) = labelName (n + d)) (h : p.Alike q) (e : Expr) :
    ExprShifts p q cls m f d e := by
  match e with
  | .int t v | .bool t v | .string t v | .null t | .this t =>
    simp only [ExprShifts, compileExpr]
    exact Gen.shifts_pure (by simp [Op.relabel])
  | .ident v =>
    simp only [ExprShifts, compileExpr]
    exact (shifts_slotOf _ _).bind fun s => Gen.shifts_pure (by simp [Op.relabel])
  | .member t x n => exact compileMember_shifts h (compileExpr_shifts hf h x)
  | .index t x i =>
    simp only [ExprShifts, compileExpr, typeOf_alike h]
    exact (compileExpr_shifts hf h x).bind fun xc => (compileExpr_shifts hf h i).bind fun ic =>
      Gen.shifts_pure (by simp [Op.relabel])
  | .list t es =>
    simp only [ExprShifts, compileExpr]
    exact (compileElements_shifts h fun e _ => compileExpr_shifts hf h e).bind fun ec =>
      Gen.shifts_pure (by simp [Op.relabel])
  | .new t c as =>
    simp only [ExprShifts, compileExpr, h.constructorDescriptor]
    exact (compileArgs_shifts h fun e _ => compileExpr_shifts hf h e).bind fun ac =>
      Gen.shifts_pure (by simp [Op.relabel])
  | .call t g as =>
    simp only [ExprShifts, compileExpr, typeOf_alike h]
    exact (compileExpr_shifts hf h g).bind fun fc =>
      (compileElements_shifts h fun e _ => compileExpr_shifts hf h e).bind fun ac =>
        Gen.shifts_pure (by simp [Op.relabel])
  | .unary t op x =>
    by_cases ho : op.isIncDec = true
    · exact compileChange_shifts h ho fun y hy => compileExpr_shifts hf h y
    · cases op with
      | neg =>
        simp only [ExprShifts, compileExpr]
        exact (compileExpr_shifts hf h x).bind fun xc => Gen.shifts_pure (by simp [Op.relabel])
      | not =>
        simp only [ExprShifts, compileExpr]
        exact (compileExpr_shifts hf h x).bind fun xc => (Gen.shifts_newLabel hf).bind fun yes =>
          (Gen.shifts_newLabel hf).bind fun after => Gen.shifts_pure (by simp)
      | _ => exact absurd rfl ho
  | .binary t op l r =>
    by_cases ho : op = .assign
    · subst ho
      exact compileAssign_shifts h (fun y hy => compileExpr_shifts hf h y) (compileExpr_shifts hf h r)
    · exact compileOperation_shifts hf h ho (compileExpr_shifts hf h l) (compileExpr_shifts hf h r)
termination_by sizeOf e
decreasing_by
  all_goals first
    | (simp +arith; done)
    | (have h := List.sizeOf_lt_of_mem ‹_ ∈ _›; simp +arith; omega)
    | (have h := sizeOf_lt_of_mem_children ‹_ ∈ _›; simp +arith; omega)

theorem compileAssignment_shifts (hf : ∀ n, f (labelName n) = labelName (n + d)) (h : p.Alike q) (a : Assign) :
    Gen.Shifts d (relabelCode f)
      ((⟨p, cls, m⟩ : Context).compileAssign a) ((⟨q, cls, m⟩ : Context).compileAssign a) :=
  (compileExpr_shifts hf h _).bind fun c => Gen.shifts_pure (by simp [Op.relabel])

theorem compileOptionalAssign_shifts (hf : ∀ n, f (labelName n) = labelName (n + d)) (h : p.Alike q)
    (a : Option Assign) : Gen.Shifts d (relabelCode f)
      ((⟨p, cls, m⟩ : Context).compileOptionalAssign a) ((⟨q, cls, m⟩ : Context).compileOptionalAssign a) := by
  cases a with
  | none => exact Gen.shifts_pure rfl
  | some a => exact compileAssignment_shifts hf h a

theorem compileTest_shifts (hf : ∀ n, f (labelName n) = labelName (n + d)) (h : p.Alike q) (line : Int)
    (done : String) (e : Option Expr) : Gen.Shifts d (relabelCode f)
      ((⟨p, cls, m⟩ : Context).compileTest line done e) ((⟨q, cls, m⟩ : Context).compileTest line (f done) e) := by
  cases e with
  | none => exact Gen.shifts_pure rfl
  | some e => exact (compileExpr_shifts hf h e).bind fun c => Gen.shifts_pure (by simp [Op.relabel])

theorem compileReturn_shifts (hf : ∀ n, f (labelName n) = labelName (n + d)) (h : p.Alike q) (line : Int)
    (e : Option Expr) : Gen.Shifts d (relabelCode f)
      ((⟨p, cls, m⟩ : Context).compileReturn line e) ((⟨q, cls, m⟩ : Context).compileReturn line e) := by
  cases e with
  | none => exact Gen.shifts_pure rfl
  | some e =>
    refine (compileExpr_shifts hf h e).bind fun c => Gen.shifts_pure ?_
    rw [relabelCode_append, relabelCode_onLine, typeOf_alike h]
    exact congrArg (fun os => relabelCode f c ++ onLine line os) (relabelOps_returnValue f _)

mutual

theorem compileStmt_shifts (hf : ∀ n, f (labelName n) = labelName (n + d)) (h : p.Alike q) (loop : Option Loop)
    (s : Stmt) : Gen.Shifts d (relabelCode f) ((⟨p, cls, m⟩ : Context).compileStmt loop s)
      ((⟨q, cls, m⟩ : Context).compileStmt (loop.map (Loop.relabel f)) s) := by
  match s with
  | .assign a =>
    simp only [compileStmt]
    exact compileAssignment_shifts hf h a
  | .block _ ss =>
    simp only [compileStmt]
    exact compileStmts_shifts hf h loop ss
  | .cond t c y n =>
    simp only [compileStmt]
    exact (Gen.shifts_newLabel hf).bind fun no => (Gen.shifts_newLabel hf).bind fun after =>
      (compileExpr_shifts hf h c).bind fun cc => (compileStmt_shifts hf h loop y).bind fun yc =>
        (compileElse_shifts hf h loop n).bind fun nc => Gen.shifts_pure (by simp [Op.relabel])
  | .call t g as =>
    simp only [compileStmt]
    exact (compileExpr_shifts hf h _).bind fun c => Gen.shifts_pure (by simp [Op.relabel])
  | .print t x =>
    simp only [compileStmt, typeOf_alike h]
    cases ((⟨q, cls, m⟩ : Context).typeOf x).printer? with
    | none => exact Gen.shifts_fail _ _
    | some n => exact (compileExpr_shifts hf h x).bind fun c => Gen.shifts_pure (by simp [Op.relabel])
  | .ret t v =>
    simp only [compileStmt]
    exact compileReturn_shifts hf h _ v
  | .for t i c u b =>
    simp only [compileStmt]
    exact (Gen.shifts_newLabel hf).bind fun start => (Gen.shifts_newLabel hf).bind fun next =>
      (Gen.shifts_newLabel hf).bind fun done => (compileOptionalAssign_shifts hf h i).bind fun ic =>
        (compileTest_shifts hf h _ done c).bind fun cc =>
          (compileStmt_shifts hf h (some ⟨next, done⟩) b).bind fun bc =>
            (compileOptionalAssign_shifts hf h u).bind fun uc => Gen.shifts_pure (by simp [Op.relabel])
  | .foreach t v l b =>
    simp only [compileStmt, typeOf_alike h]
    cases (⟨q, cls, m⟩ : Context).typeOf l with
    | list elems =>
      refine (shifts_slotOf _ _).bind fun s => (Gen.shifts_newLabel hf).bind fun start =>
        (Gen.shifts_newLabel hf).bind fun next => (Gen.shifts_newLabel hf).bind fun done =>
          Gen.shifts_newSlot.bind fun list => Gen.shifts_newSlot.bind fun i =>
            (compileExpr_shifts hf h l).bind fun lc =>
              (compileStmt_shifts hf h (some ⟨next, done⟩) b).bind fun bc => Gen.shifts_pure ?_
      cases hs : s.type.isNoType <;> simp [hs, Op.relabel]
    | _ => exact Gen.shifts_fail _ _
  | .break t =>
    simp only [compileStmt]
    cases loop with
    | none => exact Gen.shifts_fail _ _
    | some l => exact Gen.shifts_pure (by simp [Op.relabel, Loop.relabel])
  | .continue t =>
    simp only [compileStmt]
    cases loop with
    | none => exact Gen.shifts_fail _ _
    | some l => exact Gen.shifts_pure (by simp [Op.relabel, Loop.relabel])

theorem compileStmts_shifts (hf : ∀ n, f (labelName n) = labelName (n + d)) (h : p.Alike q) (loop : Option Loop)
    (ss : List Stmt) : Gen.Shifts d (relabelCode f) ((⟨p, cls, m⟩ : Context).compileStmts loop ss)
      ((⟨q, cls, m⟩ : Context).compileStmts (loop.map (Loop.relabel f)) ss) := by
  match ss with
  | [] =>
    simp only [compileStmts]
    exact Gen.shifts_pure rfl
  | s :: ss =>
    simp only [compileStmts]
    exact (compileStmt_shifts hf h loop s).bind fun c => (compileStmts_shifts hf h loop ss).bind fun rest =>
      Gen.shifts_pure (by simp)

theorem compileElse_shifts (hf : ∀ n, f (labelName n) = labelName (n + d)) (h : p.Alike q) (loop : Option Loop)
    (s : Option Stmt) : Gen.Shifts d (relabelCode f) ((⟨p, cls, m⟩ : Context).compileElse loop s)
      ((⟨q, cls, m⟩ : Context).compileElse (loop.map (Loop.relabel f)) s) := by
  match s with
  | none =>
    simp only [compileElse]
    exact Gen.shifts_pure rfl
  | some s =>
    simp only [compileElse]
    exact compileStmt_shifts hf h loop s

end

end Context

section

variable {p q : Program} {f : String → String} {d : Nat} {o : CompileOptions} {c : ClassDecl} {m : MethodDecl}

@[simp] theorem ClassDecl.relabelCode_prologue (line : Int) :
    relabelCode f (c.prologue line) = c.prologue line := by
  have hfields : ∀ vs : List VarDecl, relabelOps f (vs.flatMap c.fieldDefault) = vs.flatMap c.fieldDefault := by
    intro vs
    induction vs with
    | nil => rfl
    | cons v vs ih => simp [ClassDecl.fieldDefault, ih, Op.relabel]
  simp [ClassDecl.prologue, hfields, Op.relabel]

@[simp] theorem ClassDecl.relabelCode_entryCode : relabelCode f c.entryCode = c.entryCode := rfl

@[simp] theorem MethodDecl.relabelCode_localDefaults : relabelCode f m.localDefaults = m.localDefaults := by
  unfold MethodDecl.localDefaults
  induction m.locals with
  | nil => rfl
  | cons v vs ih => simp [ih, Op.relabel]

theorem CompileOptions.relabel_method (name desc : String) (isStatic : Bool) (code : List Instr) :
    (o.method name desc isStatic code).relabel f = o.method name desc isStatic (relabelCode f code) := by
  simp [CompileOptions.method, MethodCode.relabel, relabelCode]

theorem CompileOptions.shifts_finish {name desc : String} {code code' : List Instr} (hc : relabelCode f code = code') :
    Gen.Shifts d (MethodCode.relabel f) (o.finish name desc code) (o.finish name desc code') := by
  subst hc
  intro s
  unfold CompileOptions.finish
  by_cases hs : (s.slots : Int) ≤ o.limits.locals
  · simp [hs, Supply.shift, Except.map, CompileOptions.relabel_method]
  · simp [hs, Supply.shift, Except.map]

theorem compileBody_shifts (hf : ∀ n, f (labelName n) = labelName (n + d)) (h : p.Alike q) :
    Gen.Shifts d (relabelCode f) (m.compileBody p c) (m.compileBody q c) := by
  refine (Gen.shifts_freeSlotsFrom _).bind fun _ =>
    (Context.compileStmts_shifts hf h none m.body).bind fun body => Gen.shifts_pure ?_
  cases hr : m.endsWithReturn <;> simp [Op.relabel]

theorem compileConstructor_shifts (hf : ∀ n, f (labelName n) = labelName (n + d)) (h : p.Alike q) :
    Gen.Shifts d (MethodCode.relabel f) (o.compileConstructor p c m) (o.compileConstructor q c m) :=
  (compileBody_shifts hf h).bind fun body => CompileOptions.shifts_finish (by simp)

theorem compileMethod_shifts (hf : ∀ n, f (labelName n) = labelName (n + d)) (h : p.Alike q) :
    Gen.Shifts d (MethodCode.relabel f) (o.compileMethod p c m) (o.compileMethod q c m) :=
  (compileBody_shifts hf h).bind fun _ => CompileOptions.shifts_finish rfl

theorem compileMethods_shifts (hf : ∀ n, f (labelName n) = labelName (n + d)) (h : p.Alike q) (ms : List MethodDecl) :
    Gen.Shifts d (List.map (MethodCode.relabel f)) (o.compileMethods p c ms) (o.compileMethods q c ms) := by
  induction ms with
  | nil => exact Gen.shifts_pure rfl
  | cons m ms ih =>
    exact ((compileMethod_shifts hf h).within _).bind fun r => ih.bind fun rest => Gen.shifts_pure rfl

theorem defaultConstructor_shifts :
    Gen.Shifts d (MethodCode.relabel f) (o.defaultConstructor c) (o.defaultConstructor c) :=
  (Gen.shifts_freeSlotsFrom 1).bind fun _ => CompileOptions.shifts_finish (by simp [Op.relabel])

theorem compileConstructors_shifts (hf : ∀ n, f (labelName n) = labelName (n + d)) (h : p.Alike q) :
    Gen.Shifts d (List.map (MethodCode.relabel f)) (o.compileConstructors p c) (o.compileConstructors q c) := by
  unfold CompileOptions.compileConstructors
  cases c.constructor with
  | none => exact defaultConstructor_shifts.bind fun k => Gen.shifts_pure rfl
  | some m =>
    cases hm : m.args.isEmpty with
    | true =>
      simp only [hm, if_true]
      exact ((compileConstructor_shifts hf h).within _).bind fun k => Gen.shifts_pure rfl
    | false =>
      simp only [hm]
      exact defaultConstructor_shifts.bind fun k =>
        ((compileConstructor_shifts hf h).within _).bind fun k' => Gen.shifts_pure rfl

/-- A class compiled against programs alike, from later labels on, is the same but for its labels. -/
theorem compileClass_shifts (hf : ∀ n, f (labelName n) = labelName (n + d)) (h : p.Alike q) :
    Gen.Shifts d (ClassFile.relabel f) (o.compileClass p c) (o.compileClass q c) :=
  (compileConstructors_shifts hf h).bind fun ks => (compileMethods_shifts hf h _).bind fun ms => Gen.shifts_pure (by
    split <;> simp [ClassFile.relabel, h.methodTable, CompileOptions.relabel_method])

/-- Labels of later numbers in place of the labels of a supply. -/
noncomputable def labelShift (d : Nat) : String → String := Function.extend labelName (fun n => labelName (n + d)) id

theorem labelShift_labelName (d n : Nat) : labelShift d (labelName n) = labelName (n + d) :=
  Function.Injective.extend_apply (fun _ _ => labelName_inj.1) _ _ n

theorem labelShift_injective (d : Nat) : (labelShift d).Injective := by
  have hother : ∀ l, (¬∃ n, labelName n = l) → labelShift d l = l := fun l hl => Function.extend_apply' _ _ _ hl
  intro k l he
  by_cases hk : ∃ n, labelName n = k <;> by_cases hl : ∃ n, labelName n = l
  · obtain ⟨n, rfl⟩ := hk
    obtain ⟨j, rfl⟩ := hl
    rw [labelShift_labelName, labelShift_labelName, labelName_inj] at he
    rw [Nat.add_right_cancel he]
  · obtain ⟨n, rfl⟩ := hk
    rw [labelShift_labelName, hother l hl] at he
    exact absurd ⟨_, he⟩ hl
  · obtain ⟨n, rfl⟩ := hl
    rw [labelShift_labelName, hother k hk] at he
    exact absurd ⟨_, he.symm⟩ hk
  · rwa [hother k hk, hother l hl] at he

/-- Every constructor and method starts over with its slots. -/
theorem compileClass_slots (s : Supply) (n : Nat) :
    o.compileClass p c ⟨s.labels, n⟩ = o.compileClass p c s := by
  have hstart : ∀ {α : Type} (k : Nat) (g : Unit → Gen α),
      (Gen.freeSlotsFrom k >>= g) ⟨s.labels, n⟩ = (Gen.freeSlotsFrom k >>= g) s := fun _ _ => rfl
  have hks : o.compileConstructors p c ⟨s.labels, n⟩ = o.compileConstructors p c s := by
    unfold CompileOptions.compileConstructors
    cases c.constructor with
    | none => rfl
    | some m =>
      cases hm : m.args.isEmpty with
      | true => simp only [hm, if_true]; rfl
      | false => simp only [hm]; rfl
  simp only [CompileOptions.compileClass, Bind.bind, StateT.bind, hks]

/-- A class gets the same code wherever it stands in a program, but for its labels. -/
theorem compileClass_anew (h : p.Alike q) (s : Supply) : o.compileClass q c s =
    (o.compileClass p c {}).map fun (u, s') => (u.relabel (labelShift s.labels), s'.shift s.labels) := by
  rw [← compileClass_shifts (labelShift_labelName s.labels) h, ← compileClass_slots s 1]
  exact congrArg (o.compileClass q c) (by simp [Supply.shift])

/-- The file of a class compiled by itself, with its labels renamed. -/
def CompiledAs (o : CompileOptions) (p : Program) (c : ClassDecl) (f : ClassFile) : Prop :=
  ∃ u s' d, o.compileClass p c {} = .ok (u, s') ∧ f = u.relabel (labelShift d)

theorem CompiledAs.name {f : ClassFile} (hf : CompiledAs o p c f) : f.name = c.name.name := by
  obtain ⟨u, s', d, hu, rfl⟩ := hf
  exact (compileClass_ok hu).name

theorem CompiledAs.renamed {f g : ClassFile} (hf : CompiledAs o p c f) (hg : CompiledAs o p c g) : f.Renamed g := by
  obtain ⟨u, s, d, hu, rfl⟩ := hf
  obtain ⟨v, s', d', hv, rfl⟩ := hg
  obtain ⟨rfl, rfl⟩ := Prod.mk.inj (Except.ok.inj (hu.symm.trans hv))
  exact u.renamed_of_injective (labelShift_injective d) (labelShift_injective d')

theorem compileClass_compiledAs (h : p.Alike q) {s s' : Supply} {f : ClassFile}
    (hc : o.compileClass q c s = .ok (f, s')) : CompiledAs o p c f := by
  rw [compileClass_anew h] at hc
  cases hu : o.compileClass p c {} with
  | error e => simp [hu, Except.map] at hc
  | ok r =>
    simp only [hu, Except.map, Except.ok.injEq, Prod.mk.injEq] at hc
    exact ⟨r.1, r.2, s.labels, hu, hc.1.symm⟩

theorem compileClasses_compiledAs (h : p.Alike q) {cs : List ClassDecl} {s s' : Supply} {files : List ClassFile}
    (hc : o.compileClasses q cs s = .ok (files, s')) : List.Forall₂ (CompiledAs o p) cs files := by
  induction cs generalizing s files with
  | nil =>
    simp only [CompileOptions.compileClasses, Gen.pure_eq_ok] at hc
    rw [← hc.1]
    exact .nil
  | cons c cs ih =>
    simp only [CompileOptions.compileClasses, Gen.bind_eq_ok, Gen.within_eq_ok, Gen.pure_eq_ok] at hc
    obtain ⟨r, s₁, hr, rest, s₂, hrest, rfl, rfl⟩ := hc
    exact .cons (compileClass_compiledAs h hr) (ih hrest)

/-- Classes compile together if each of them compiles by itself. -/
theorem compileClasses_of_each (h : p.Alike q) {cs : List ClassDecl} (hcs : ∀ c ∈ cs, ∃ r, o.compileClass p c {} = .ok r)
    (s : Supply) : ∃ r, o.compileClasses q cs s = .ok r := by
  induction cs generalizing s with
  | nil => exact ⟨_, rfl⟩
  | cons c cs ih =>
    obtain ⟨⟨u, s'⟩, hu⟩ := hcs c (by simp)
    obtain ⟨⟨rest, s₂⟩, hrest⟩ := ih (fun c hc => hcs c (by simp [hc])) (s'.shift s.labels)
    refine ⟨(u.relabel (labelShift s.labels) :: rest, s₂), ?_⟩
    simp only [CompileOptions.compileClasses, Gen.bind_eq_ok, Gen.within_eq_ok, Gen.pure_eq_ok]
    exact ⟨_, _, by rw [compileClass_anew h, hu]; rfl, rest, s₂, hrest, rfl, rfl⟩

end

section

variable {p q : Program} {o : CompileOptions}

theorem Program.compile_compiledAs (h : p.Alike q) {files : List ClassFile} (hc : Program.compile o q q = .ok files) :
    List.Forall₂ (CompiledAs o p) q.classes files := by
  unfold Program.compile at hc
  split at hc
  · next fs s' hs =>
    obtain rfl := Except.ok.inj hc
    exact compileClasses_compiledAs h hs
  · cases hc

/-- Of two programs with the same classes in different order both compile or none. -/
theorem Program.compile_of_perm (h : p.Alike q) (hperm : p.classes.Perm q.classes) {files : List ClassFile}
    (hc : Program.compile o p p = .ok files) : ∃ files', Program.compile o q q = .ok files' := by
  have hall := Program.compile_compiledAs (alike_of_classes rfl) hc
  have heach : ∀ c ∈ q.classes, ∃ r, o.compileClass p c {} = .ok r := by
    intro c hcq
    obtain ⟨f, -, u, s', d, hu, -⟩ := exists_mem_of_forall₂ hall.flip (hperm.mem_iff.2 hcq)
    exact ⟨_, hu⟩
  obtain ⟨⟨files', s'⟩, hq⟩ := compileClasses_of_each h heach {}
  exact ⟨files', by rw [Program.compile, hq]⟩

/-- Files of one name, compiled from programs with the same classes in different order, are renamings of each
other. -/
theorem Program.compile_renamed (h : p.Alike q) (hperm : p.classes.Perm q.classes)
    (hd : (p.classes.map (·.name.name)).Nodup) {files files' : List ClassFile}
    (hp : Program.compile o p p = .ok files) (hq : Program.compile o q q = .ok files') :
    ∀ f ∈ files, ∀ g ∈ files', f.name = g.name → f.Renamed g := by
  intro f hf g hg hn
  obtain ⟨c, hc, hcf⟩ := exists_mem_of_forall₂ (Program.compile_compiledAs (alike_of_classes rfl) hp) hf
  obtain ⟨e, he, heg⟩ := exists_mem_of_forall₂ (Program.compile_compiledAs h hq) hg
  have hce : c = e := by
    refine List.inj_on_of_nodup_map hd hc (hperm.mem_iff.2 he) ?_
    rw [← hcf.name, ← heg.name, hn]
  exact hcf.renamed (hce ▸ heg)

end

end ClassCompiler
