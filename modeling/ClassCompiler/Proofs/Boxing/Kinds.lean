import ClassCompiler.Proofs.Compile.Admitted
import ClassCompiler.Proofs.Stack.Depth

namespace ClassCompiler

/-- A raw number, or a reference or null. -/
inductive Kind where
  | raw | ref
  deriving DecidableEq

/-- The kind in which a value of a type stands on the operand stack. -/
def Ty.kind (t : Ty) : Kind := if t.isPrimitive then .raw else .ref

theorem Ty.kind_congr {t u : Ty} (h : t.isPrimitive = u.isPrimitive) : t.kind = u.kind := by simp [kind, h]

theorem Ty.kind_eq_raw_iff {t : Ty} : t.kind = .raw ↔ t.isPrimitive = true := by simp [kind]

@[simp] theorem Ty.kind_int : Ty.int.kind = .raw := rfl
@[simp] theorem Ty.kind_bool : Ty.bool.kind = .raw := rfl
@[simp] theorem Ty.kind_string : Ty.string.kind = .ref := rfl
@[simp] theorem Ty.kind_null : Ty.null.kind = .ref := rfl
@[simp] theorem Ty.kind_noType : Ty.noType.kind = .ref := rfl
@[simp] theorem Ty.kind_cls (c : String) : (Ty.cls c).kind = .ref := rfl
@[simp] theorem Ty.kind_fptr (ps : List Ty) (r : Ty) : (Ty.fptr ps r).kind = .ref := rfl
@[simp] theorem Ty.kind_list (es : List (String × Ty)) : (Ty.list es).kind = .ref := rfl

/-- The kinds of the operands of a jump, the top first. -/
def Jump.operands : Jump → List Kind
  | .always => []
  | .ifZero => [.raw]
  | .ifNonzero => [.raw]
  | .ifInts _ => [.raw, .raw]
  | .ifSame => [.ref, .ref]
  | .ifDifferent => [.ref, .ref]

namespace NativeMethod

def params : NativeMethod → List Kind
  | .intValue => []
  | .booleanValue => []
  | .arrayListAdd => [.ref]
  | .getElement => [.raw]
  | .setElement => [.raw, .ref]
  | .invoke => [.ref]
  | .printInt => [.raw]
  | .printBool => [.raw]
  | .printString => [.ref]

/-- The kind of what a native method leaves on the stack, if it answers. -/
def result : NativeMethod → List Kind
  | .intValue => [.raw]
  | .booleanValue => [.raw]
  | .arrayListAdd => [.raw]
  | .getElement => [.ref]
  | .invoke => [.ref]
  | _ => []

def named? (r : MemberRef) : Option NativeMethod := all.find? (·.ref = r)

@[simp] theorem named?_ref (n : NativeMethod) : named? n.ref = some n := by cases n <;> decide

theorem eq_ref_of_named? {r : MemberRef} {n : NativeMethod} (h : named? r = some n) : r = n.ref := by
  simpa [eq_comm] using List.find?_some h

end NativeMethod

namespace Op

/-- The kinds of the operands that an operation works on, the top first. An operation that only moves
values has none, and one that is never generated is not known. -/
def operands? : Op → Option (List Kind)
  | .arith _ => some [.raw, .raw]
  | .neg => some [.raw]
  | .jump test _ => some test.operands
  | .cast _ => some [.ref]
  | .getField _ => some [.ref]
  | .putField _ => some [.ref, .ref]
  | .invokeSpecial r => some (List.replicate (argCount r.desc + 1) .ref)
  | .invokeVirtual r => (NativeMethod.named? r).map fun n => n.params.reverse ++ [.ref]
  | .invokeStatic r => some (List.replicate (argCount r.desc) .raw)
  | .retRef => some [.ref]
  | .unknown => none
  | _ => some []

/-- The kinds of what an operation leaves in place of its operands. -/
def results : Op → List Kind
  | .pushInt _ => [.raw]
  | .pushString _ => [.ref]
  | .pushNull => [.ref]
  | .arith _ => [.raw]
  | .neg => [.raw]
  | .new _ => [.ref]
  | .cast _ => [.ref]
  | .getField _ => [.ref]
  | .getStatic _ => [.ref]
  | .invokeVirtual r => ((NativeMethod.named? r).map NativeMethod.result).getD []
  | .invokeStatic _ => [.ref]
  | _ => []

end Op

/-- What is left of a stack when operands are taken from it. -/
def takeKinds : List Kind → List Kind → Option (List Kind)
  | [], ks => some ks
  | _ :: _, [] => none
  | w :: ws, k :: ks => if w = k then takeKinds ws ks else none

@[simp] theorem takeKinds_nil (ks : List Kind) : takeKinds [] ks = some ks := by cases ks <;> rfl

@[simp] theorem takeKinds_cons (k : Kind) (ws ks : List Kind) : takeKinds (k :: ws) (k :: ks) = takeKinds ws ks := by
  simp [takeKinds]

theorem takeKinds_eq_some {ws ks rest : List Kind} : takeKinds ws ks = some rest ↔ ks = ws ++ rest := by
  induction ws generalizing ks with
  | nil => simp
  | cons w ws ih =>
    cases ks with
    | nil => simp [takeKinds]
    | cons k ks =>
      by_cases h : w = k
      · subst h
        simp [ih]
      · simp [takeKinds, h, Ne.symm h]

@[simp] theorem takeKinds_call (n : Nat) (k : Kind) (ks : List Kind) :
    takeKinds (List.replicate (n + 1) k) (List.replicate n k ++ k :: ks) = some ks := by
  rw [takeKinds_eq_some, List.replicate_succ', List.append_assoc]
  rfl

/-- The kinds on the operand stack, the top first, and those that are known of slots. -/
@[ext]
structure Kinds where
  stack : List Kind
  temps : Nat → Option Kind

namespace Kinds

def push (a : Kinds) (k : Kind) : Kinds := { a with stack := k :: a.stack }

@[simp] theorem push_stack (a : Kinds) (k : Kind) : (a.push k).stack = k :: a.stack := rfl

@[simp] theorem push_temps (a : Kinds) (k : Kind) : (a.push k).temps = a.temps := rfl

/-- What one state says of slots the other says too. -/
instance : LE Kinds := ⟨fun a b => a.stack = b.stack ∧ ∀ n k, a.temps n = some k → b.temps n = some k⟩

theorem le_refl (a : Kinds) : a ≤ a := ⟨rfl, fun _ _ h => h⟩

theorem le_trans {a b c : Kinds} (h : a ≤ b) (h' : b ≤ c) : a ≤ c :=
  ⟨h.1.trans h'.1, fun n k hk => h'.2 n k (h.2 n k hk)⟩

def Within (a : Kinds) (n : Nat) : Prop := ∀ i, n ≤ i → a.temps i = none

theorem Within.mono {a : Kinds} {m n : Nat} (h : a.Within m) (hmn : m ≤ n) : a.Within n :=
  fun i hi => h i (by omega)

def take (a : Kinds) (n : Nat) (k : Kind) : Kinds := { a with temps := Function.update a.temps n (some k) }

@[simp] theorem take_stack (a : Kinds) (n : Nat) (k : Kind) : (a.take n k).stack = a.stack := rfl

theorem Within.take {a : Kinds} {m n i : Nat} {k : Kind} (h : a.Within m) (hm : m ≤ n) (hi : i < n) :
    (a.take i k).Within n := by
  intro j hj
  simp only [Kinds.take, Function.update_apply]
  rw [if_neg (by omega), h j (by omega)]

variable (count : Nat)

/-- The kind of what a slot holds; the first `count` slots hold references. -/
def slot (a : Kinds) (n : Nat) : Option Kind := if n < count then some .ref else a.temps n

/-- The state after an operation that finds operands of the right kinds. -/
def after (a : Kinds) : Op → Option Kinds
  | .load _ i => (a.slot count i.toNat).map a.push
  | .store _ i =>
    match a.stack with
    | [] => none
    | k :: ks =>
      if i.toNat < count then (if k = .ref then some { a with stack := ks } else none)
      else some ({ a with stack := ks }.take i.toNat k)
  | .increment i _ => if a.slot count i.toNat = some .raw then some a else none
  | .dup =>
    match a.stack with
    | [] => none
    | k :: ks => some { a with stack := k :: k :: ks }
  | .pop =>
    match a.stack with
    | [] => none
    | _ :: ks => some { a with stack := ks }
  | op => (op.operands?.bind (takeKinds · a.stack)).map fun ks => { a with stack := op.results ++ ks }

/-- The state after operations in a row, none of which jumps or is jumped to. -/
def afterAll : Kinds → List Op → Option Kinds
  | a, [] => some a
  | a, op :: os => if op.isStraight then (a.after count op).bind (afterAll · os) else none

end Kinds

/-- The kinds of values: every operation finds operands as it needs them. -/
def kindFlow (count : Nat) : Flow Kinds where
  falls op a b :=
    if op.isFinal then ∃ ws ks, op.operands? = some ws ∧ takeKinds ws a.stack = some ks
    else ∃ x, a.after count op = some x ∧ b ≤ x
  jumps test a x := ∃ ks, takeKinds test.operands a.stack = some ks ∧ x ≤ { a with stack := ks }

def Enters (T : Targets Kinds) (l : String) (a : Kinds) : Prop := ∃ x, T l x ∧ x ≤ a

theorem Enters.mono {T T' : Targets Kinds} {l : String} {a : Kinds} (h : Enters T l a)
    (hT : ∀ l x, T l x → T' l x) : Enters T' l a := by
  obtain ⟨x, hx, hle⟩ := h
  exact ⟨x, hT l x hx, hle⟩

/-- Where a loop goes on and where it ends may be entered. -/
def LoopEnters (T : Targets Kinds) (loop : Option Loop) (a : Kinds) : Prop :=
  ∀ lp, loop = some lp → Enters T lp.next a ∧ Enters T lp.done a

theorem LoopEnters.mono {T U : Targets Kinds} {loop : Option Loop} {a a' : Kinds} (h : LoopEnters T loop a)
    (hT : ∀ l x, T l x → U l x) (ha : a ≤ a') : LoopEnters U loop a' := by
  have henter : ∀ l, Enters T l a → Enters U l a' := fun l ⟨x, hx, hle⟩ => ⟨x, hT l x hx, Kinds.le_trans hle ha⟩
  exact fun lp hlp => ⟨henter _ (h lp hlp).1, henter _ (h lp hlp).2⟩

/-- An expression leaves a value of the kind of its type and keeps what is known of slots. -/
def kindClaim (ctx : Context) : Claim Kinds := fun T p t a b =>
  p.Admitted ctx ∧ ctx.method.slotCount ≤ t.slots ∧ a.Within t.slots ∧ match p with
  | .expr e => b = a.push (ctx.typeOf e).kind
  | .elements _ _ => b = a ∧ ∃ ks, a.stack = .ref :: ks
  | .args es => b = { a with stack := List.replicate es.length .ref ++ a.stack }
  | .update _ => b = a
  | .test _ done _ => b = a ∧ Enters T done a
  | .stmt loop _ | .stmts loop _ | .orElse loop _ => b = a ∧ LoopEnters T loop a

section

variable {count : Nat} {T : Targets Kinds} {own : String → Option Kinds} {a b x : Kinds} {os os' : List Op}

theorem Kinds.afterAll_append :
    a.afterAll count (os ++ os') = (a.afterAll count os).bind (·.afterAll count os') := by
  induction os generalizing a with
  | nil => rfl
  | cons op os ih =>
    simp only [List.cons_append, afterAll]
    split
    · cases a.after count op with
      | none => rfl
      | some b => exact ih
    · rfl

theorem kindFlow_step {op : Op} (hs : op.isStraight = true) (h : a.after count op = some x) (hb : b ≤ x) :
    (kindFlow count).Step T op a b ∧ ∀ l, op = .label l → own l = some a := by
  have hfinal : op.isFinal = false := by cases op <;> simp_all [Op.isStraight, Op.isFinal]
  refine ⟨⟨?_, ?_⟩, ?_⟩
  · simpa [kindFlow, hfinal] using ⟨x, h, hb⟩
  · rintro test l rfl
    cases hs
  · rintro l rfl
    cases hs

/-- Operations in a row, after the last of which less may be known. -/
theorem path_of_afterAll (own : String → Option Kinds) (h : a.afterAll count os = some x) (hb : b ≤ x) (hne : os = [] → b = x) : (kindFlow count).Path T own os a b := by
  induction os generalizing a with
  | nil =>
    obtain rfl := Option.some.inj h
    exact hne rfl
  | cons op os ih =>
    simp only [Kinds.afterAll, Option.ite_none_right_eq_some, Option.bind_eq_some_iff] at h
    obtain ⟨hs, c, hc, hx⟩ := h
    cases os with
    | nil =>
      obtain rfl := Option.some.inj hx
      exact ⟨b, kindFlow_step hs hc hb, rfl⟩
    | cons op' os => exact ⟨c, kindFlow_step hs hc (Kinds.le_refl c), ih hx (by simp)⟩

end

/-- Items in a row without jumps, followed operation by operation. -/
def Through (ctx : Context) (T : Targets Kinds) : List Item → Kinds → Kinds → Prop
  | [], a, b => b = a
  | .ops _ os :: is, a, b => ∃ x, a.afterAll ctx.method.slotCount os = some x ∧ Through ctx T is x b
  | .part q t _ _ _ :: is, a, b => ∃ x, kindClaim ctx T q t a x ∧ Through ctx T is x b

def EndsInOps : List Item → Bool
  | [] => false
  | [.ops _ os] => !os.isEmpty
  | _ :: is => EndsInOps is

theorem Through.chain {ctx : Context} {T : Targets Kinds} {own : String → Option Kinds} {items : List Item}
    {a b x : Kinds} (h : Through ctx T items a x) (hb : b = x ∨ b ≤ x ∧ EndsInOps items = true) :
    (kindFlow ctx.method.slotCount).Chain (kindClaim ctx) T own items a b := by
  induction items generalizing a with
  | nil =>
    obtain rfl := h
    rcases hb with rfl | hb
    · rfl
    · simp [EndsInOps] at hb
  | cons i is ih =>
    cases i with
    | part q t c t' sp =>
      obtain ⟨y, hk, hx⟩ := h
      exact ⟨y, hk, ih hx (hb.imp_right fun h => ⟨h.1, by simpa [EndsInOps] using h.2⟩)⟩
    | ops line os =>
      obtain ⟨y, hy, hx⟩ := h
      cases is with
      | nil =>
        obtain rfl := hx
        refine ⟨b, path_of_afterAll _ hy ?_ fun hos => ?_, rfl⟩
        · rcases hb with rfl | hb
          · exact Kinds.le_refl _
          · exact hb.1
        · rcases hb with rfl | hb
          · rfl
          · simp [EndsInOps, hos] at hb
      | cons j js =>
        exact ⟨y, path_of_afterAll _ hy (Kinds.le_refl y) fun _ => rfl,
          ih hx (hb.imp_right fun h => ⟨h.1, by simpa [EndsInOps] using h.2⟩)⟩

namespace Kinds

section

variable {count n : Nat} {ks : List Kind} {τ : Nat → Option Kind} {k : Kind}

attribute [local simp] after Op.operands? Op.results

@[simp] theorem after_pushInt (v : Int) : after count ⟨ks, τ⟩ (.pushInt v) = some ⟨.raw :: ks, τ⟩ := by
  simp

@[simp] theorem after_pushString (v : String) : after count ⟨ks, τ⟩ (.pushString v) = some ⟨.ref :: ks, τ⟩ := by
  simp

@[simp] theorem after_pushNull : after count ⟨ks, τ⟩ .pushNull = some ⟨.ref :: ks, τ⟩ := by
  simp

@[simp] theorem after_new (c : String) : after count ⟨ks, τ⟩ (.new c) = some ⟨.ref :: ks, τ⟩ := by
  simp

@[simp] theorem after_getStatic (r : MemberRef) : after count ⟨ks, τ⟩ (.getStatic r) = some ⟨.ref :: ks, τ⟩ := by
  simp

@[simp] theorem after_load {kind : SlotKind} (i : Int) :
    after count ⟨ks, τ⟩ (.load kind i) = (slot count ⟨ks, τ⟩ i.toNat).map fun k => ⟨k :: ks, τ⟩ := rfl

@[simp] theorem after_store {kind : SlotKind} (i : Int) :
    after count ⟨k :: ks, τ⟩ (.store kind i) =
      if i.toNat < count then (if k = .ref then some ⟨ks, τ⟩ else none)
      else some ⟨ks, Function.update τ i.toNat (some k)⟩ := rfl

@[simp] theorem after_increment (i d : Int) : after count ⟨ks, τ⟩ (.increment i d) =
    if slot count ⟨ks, τ⟩ i.toNat = some .raw then some ⟨ks, τ⟩ else none := rfl

@[simp] theorem after_dup : after count ⟨k :: ks, τ⟩ .dup = some ⟨k :: k :: ks, τ⟩ := rfl

@[simp] theorem after_pop : after count ⟨k :: ks, τ⟩ .pop = some ⟨ks, τ⟩ := rfl

@[simp] theorem after_label (l : String) : after count ⟨ks, τ⟩ (.label l) = some ⟨ks, τ⟩ := by
  simp

@[simp] theorem after_arith (op : ArithOp) :
    after count ⟨.raw :: .raw :: ks, τ⟩ (.arith op) = some ⟨.raw :: ks, τ⟩ := rfl

@[simp] theorem after_neg : after count ⟨.raw :: ks, τ⟩ .neg = some ⟨.raw :: ks, τ⟩ := by
  simp

@[simp] theorem after_cast (c : String) : after count ⟨.ref :: ks, τ⟩ (.cast c) = some ⟨.ref :: ks, τ⟩ := by
  simp

@[simp] theorem after_getField (r : MemberRef) :
    after count ⟨.ref :: ks, τ⟩ (.getField r) = some ⟨.ref :: ks, τ⟩ := by
  simp

@[simp] theorem after_putField (r : MemberRef) :
    after count ⟨.ref :: .ref :: ks, τ⟩ (.putField r) = some ⟨ks, τ⟩ := by
  simp

@[simp] theorem after_static (m : NativeStatic) :
    after count ⟨.raw :: ks, τ⟩ (.invokeStatic m.ref) = some ⟨.ref :: ks, τ⟩ := by
  simp

@[simp] theorem after_method (m : NativeMethod) : after count ⟨ks, τ⟩ (.invokeVirtual m.ref) =
    (takeKinds (m.params.reverse ++ [.ref]) ks).map fun ks => ⟨m.result ++ ks, τ⟩ := by
  simp

@[simp] theorem after_invokeSpecial (r : MemberRef) : after count ⟨ks, τ⟩ (.invokeSpecial r) =
    (takeKinds (List.replicate (argCount r.desc + 1) .ref) ks).map fun ks => ⟨ks, τ⟩ := by
  simp

@[simp] theorem afterAll_nil {a : Kinds} : a.afterAll count [] = some a := rfl

@[simp] theorem afterAll_cons {a : Kinds} {op : Op} {os : List Op} : a.afterAll count (op :: os) =
    if op.isStraight then (a.after count op).bind (·.afterAll count os) else none := rfl

theorem slot_user (h : n < count) : slot count ⟨ks, τ⟩ n = some .ref := if_pos h

theorem slot_temp (h : count ≤ n) : slot count ⟨ks, τ⟩ n = τ n := if_neg (by simpa using h)

end

variable {count : Nat} {ks : List Kind} {τ : Nat → Option Kind} {t u : Ty}

@[simp] theorem afterAll_box : afterAll count ⟨t.kind :: ks, τ⟩ (box t) = some ⟨.ref :: ks, τ⟩ := by
  cases t <;> simp [box, Ty.kind, Ty.isPrimitive]

@[simp] theorem afterAll_boxInt : afterAll count ⟨.raw :: ks, τ⟩ (box .int) = some ⟨.ref :: ks, τ⟩ :=
  afterAll_box (t := .int)

@[simp] theorem afterAll_unbox : afterAll count ⟨.ref :: ks, τ⟩ (unbox t) = some ⟨t.kind :: ks, τ⟩ := by
  cases t <;> simp [unbox, Ty.kind, Ty.isPrimitive, NativeMethod.params, NativeMethod.result]

@[simp] theorem afterAll_narrow : afterAll count ⟨.ref :: ks, τ⟩ (narrow t) = some ⟨t.kind :: ks, τ⟩ := by
  cases t <;> simp [narrow, Ty.kind, Ty.isPrimitive]

@[simp] theorem afterAll_newArrayList : afterAll count ⟨ks, τ⟩ newArrayList = some ⟨.ref :: ks, τ⟩ := by
  simp [newArrayList]

@[simp] theorem afterAll_addElement : afterAll count ⟨.ref :: .ref :: ks, τ⟩ addElement = some ⟨ks, τ⟩ := by
  simp [addElement, NativeMethod.params, NativeMethod.result]

@[simp] theorem afterAll_castElement : afterAll count ⟨.ref :: ks, τ⟩ (castElement t) = some ⟨.ref :: ks, τ⟩ := by
  unfold castElement
  split <;> simp

@[simp] theorem afterAll_callResultOps {ps : List Ty} : afterAll count ⟨.ref :: ks, τ⟩
    (Context.callResultOps (.fptr ps t)) = some ⟨(if t.isVoid then Ty.noType else t).kind :: ks, τ⟩ := by
  cases hv : t.isVoid <;> simp [Context.callResultOps, hv]

theorem afterAll_changeVariable {n : Nat} {op : UnOp} (hn : n < count) :
    afterAll count ⟨ks, τ⟩ (changeVariable n op) = some ⟨.raw :: ks, τ⟩ := by
  cases hp : op.isPre <;> simp [changeVariable, hp, afterAll_append, hn, slot_user hn]

def IsIndex (count : Nat) (τ : Nat → Option Kind) (op : Op) : Prop :=
  (∃ i, op = .pushInt i) ∨ ∃ n : Nat, op = .load .int n ∧ count ≤ n ∧ τ n = some .raw

theorem afterAll_changeBy {n : Nat} {delta : Int} {isPre : Bool} (hn : count ≤ n) :
    afterAll count ⟨.raw :: ks, τ⟩ (changeBy delta isPre n) =
      some ⟨.raw :: ks, Function.update τ n (some .raw)⟩ := by
  cases isPre <;> simp [changeBy, Nat.not_lt.2 hn]

/-- The element of a list is changed by way of two slots. -/
theorem isIndex_pushInt (count : Nat) (τ : Nat → Option Kind) (i : Int) : IsIndex count τ (.pushInt i) := .inl ⟨i, rfl⟩

theorem afterAll_changeElement (ks : List Kind) {list val : Nat} {index : Op} (op : UnOp) (hl : count ≤ list)
    (hlist : τ list = some .ref) (hv : count ≤ val) (hi : IsIndex count τ index) :
    afterAll count ⟨ks, τ⟩ (changeElement list val index op) =
      some ⟨.raw :: ks, Function.update τ val (some .raw)⟩ := by
  rcases hi with ⟨i, rfl⟩ | ⟨n, rfl, hn, hτ⟩
  · simp [changeElement, afterAll_append, slot_temp hl, hlist, NativeMethod.params, NativeMethod.result,
      afterAll_changeBy hv, slot_temp hv]
  · simp [changeElement, afterAll_append, slot_temp hl, hlist, slot_temp hn, hτ, NativeMethod.params,
      NativeMethod.result, afterAll_changeBy hv, slot_temp hv]

theorem afterAll_changeField (ks : List Kind) {obj val : Nat} (field : MemberRef) (op : UnOp) (ho : count ≤ obj)
    (hobj : τ obj = some .ref) (hv : count ≤ val) :
    afterAll count ⟨ks, τ⟩ (changeField obj val field op) =
      some ⟨.raw :: ks, Function.update τ val (some .raw)⟩ := by
  simp [changeField, afterAll_append, slot_temp ho, hobj, afterAll_changeBy hv, slot_temp hv]

def copied (left right : Ty) : List Kind := if left.isList && right.isList then [.ref, .ref] else []

@[simp] theorem afterAll_copyBegin : afterAll count ⟨ks, τ⟩ (copyBegin t u) = some ⟨copied t u ++ ks, τ⟩ := by
  unfold copyBegin copied
  split <;> simp

@[simp] theorem afterAll_copyEnd :
    afterAll count ⟨u.kind :: (copied t u ++ ks), τ⟩ (copyEnd t u) = some ⟨u.kind :: ks, τ⟩ := by
  unfold copyEnd copied
  split
  · next h =>
    have hu : u.kind = .ref := by cases u <;> simp_all [Ty.isList]
    simp [hu, NativeConstructor.arity, List.replicate]
  · simp

/-- An element is stored and read back through the reference below it. -/
theorem afterAll_storeElementOps (ks : List Kind) {index : Op} (hi : IsIndex count τ index)
    (hn : u.isNull = true → t.kind = .ref) :
    afterAll count ⟨u.kind :: .raw :: .ref :: .ref :: ks, τ⟩ (storeElementOps t u index) =
      some ⟨u.kind :: ks, τ⟩ := by
  have hkind : (if u.isNull then t else u).kind = u.kind := by
    split
    · next h =>
      rw [hn h]
      cases u <;> simp_all [Ty.isNull]
    · rfl
  rcases hi with ⟨i, rfl⟩ | ⟨n, rfl, hcount, hτ⟩
  · simp [storeElementOps, afterAll_append, NativeMethod.params, NativeMethod.result, hkind]
  · simp [storeElementOps, afterAll_append, NativeMethod.params, NativeMethod.result, hkind, slot_temp hcount, hτ]

@[simp] theorem afterAll_storeField {field : MemberRef} :
    afterAll count ⟨u.kind :: .ref :: .ref :: ks, τ⟩ (storeField t u field) = some ⟨t.kind :: ks, τ⟩ := by
  simp [storeField, afterAll_append]

mutual

@[simp] theorem afterAll_defaultValue (t : Ty) {ks : List Kind} :
    afterAll count ⟨ks, τ⟩ (defaultValue t) = some ⟨.ref :: ks, τ⟩ := by
  match t with
  | .int | .string | .null | .void | .noType | .cls _ | .fptr _ _ => simp [defaultValue]
  | .bool => simpa [defaultValue] using afterAll_box (t := .bool)
  | .list es =>
    simp [defaultValue, afterAll_append, afterAll_defaultElements es, NativeConstructor.arity, List.replicate]

theorem afterAll_defaultElements (es : List (String × Ty)) {ks : List Kind} :
    afterAll count ⟨.ref :: ks, τ⟩ (defaultElements es) = some ⟨.ref :: ks, τ⟩ := by
  match es with
  | [] => rfl
  | (_, t) :: es =>
    simp [defaultElements, afterAll_append, afterAll_defaultValue t, afterAll_defaultElements es]

end

end Kinds

section

variable {count : Nat} {T : Targets Kinds} {own : String → Option Kinds} {ks : List Kind} {τ : Nat → Option Kind}

theorem kindFlow_falls {op : Op} {a b : Kinds} (hf : op.isFinal = false) :
    (kindFlow count).falls op a b ↔ ∃ x, a.after count op = some x ∧ b ≤ x := by
  simp [kindFlow, hf]

theorem after_jump (test : Jump) (l : String) : Kinds.after count ⟨test.operands ++ ks, τ⟩ (.jump test l) = some ⟨ks, τ⟩ := by
  simp [Kinds.after, Op.operands?, Op.results, takeKinds_eq_some.2 rfl]

theorem kindFlow_jump (test : Jump) {l : String} {b : Kinds} (hl : Enters T l ⟨ks, τ⟩)
    (hb : test ≠ .always → b = ⟨ks, τ⟩) :
    (kindFlow count).Step T (.jump test l) ⟨test.operands ++ ks, τ⟩ b := by
  refine ⟨?_, ?_⟩
  · by_cases ht : test = .always
    · subst ht
      simp [kindFlow, Op.isFinal, Op.operands?, Jump.operands]
    · rw [kindFlow_falls (Depth.isFinal_jump ht), hb ht]
      exact ⟨_, after_jump test l, Kinds.le_refl _⟩
  · rintro test' l' ⟨⟩
    obtain ⟨x, hx, hle⟩ := hl
    exact ⟨x, ⟨ks, takeKinds_eq_some.2 rfl, hle⟩, hx⟩

theorem kindFlow_label {l : String} {a : Kinds} (h : own l = some a) :
    (kindFlow count).Step T (.label l) a a ∧ ∀ l', Op.label l = .label l' → own l' = some a := by
  refine ⟨⟨?_, by simp⟩, by rintro l' ⟨⟩; exact h⟩
  rw [kindFlow_falls rfl]
  exact ⟨a, Kinds.after_label l, Kinds.le_refl a⟩

theorem enters_own {l : String} {a b : Kinds} (h : own l = some a) (hb : a ≤ b) :
    Enters (fun l x => T l x ∨ own l = some x) l b := ⟨a, .inr h, hb⟩

/-- The states at the labels of a test: before one of two numbers is there, and after. -/
def testStates (ks : List Kind) (τ : Nat → Option Kind) : List Kinds := [⟨ks, τ⟩, ⟨.raw :: ks, τ⟩]

theorem path_branchMerge (count : Nat) (T : Targets Kinds) (ks : List Kind) (τ : Nat → Option Kind) (s : Supply)
    (test : Jump) (taken : Int) :
    (kindFlow count).Path (fun l x => T l x ∨ Flow.ownStates s (testStates ks τ) l = some x)
      (Flow.ownStates s (testStates ks τ)) (branchMerge test taken (s.label 0) (s.label 1))
      ⟨test.operands ++ ks, τ⟩ ⟨.raw :: ks, τ⟩ := by
  have hy := Flow.ownStates_label s (testStates ks τ) 0
  have ha := Flow.ownStates_label s (testStates ks τ) 1
  exact ⟨⟨ks, τ⟩, ⟨kindFlow_jump test (enters_own hy (Kinds.le_refl _)) fun _ => rfl, by simp⟩,
    ⟨.raw :: ks, τ⟩, kindFlow_step rfl (Kinds.after_pushInt _) (Kinds.le_refl _),
    ⟨ks, τ⟩, ⟨kindFlow_jump .always (enters_own ha (Kinds.le_refl _)) (absurd rfl), by simp⟩,
    ⟨ks, τ⟩, kindFlow_label hy,
    ⟨.raw :: ks, τ⟩, kindFlow_step rfl (Kinds.after_pushInt _) (Kinds.le_refl _),
    ⟨.raw :: ks, τ⟩, kindFlow_label ha, rfl⟩

theorem path_ret (own : String → Option Kinds) {a b : Kinds} : (kindFlow count).Path T own [.ret] a b := by
  refine ⟨b, ⟨⟨?_, by simp⟩, by simp⟩, rfl⟩
  exact ⟨[], a.stack, rfl, by simp⟩

theorem path_retRef {b : Kinds} : (kindFlow count).Path T own [.retRef] ⟨.ref :: ks, τ⟩ b := by
  refine ⟨b, ⟨⟨?_, by simp⟩, by simp⟩, rfl⟩
  exact ⟨[.ref], ks, rfl, by simp⟩

theorem path_returnValue {t : Ty} {b : Kinds} :
    (kindFlow count).Path T own (returnValue t) ⟨t.kind :: ks, τ⟩ b := by
  unfold returnValue
  split
  · exact ⟨⟨ks, τ⟩, kindFlow_step rfl Kinds.after_pop (Kinds.le_refl _), path_ret _⟩
  · rw [Flow.path_append]
    exact ⟨⟨.ref :: ks, τ⟩, path_of_afterAll _ Kinds.afterAll_box (Kinds.le_refl _) fun _ => rfl, path_retRef⟩

end

end ClassCompiler
