import ClassCompiler.Compile.Program
import ClassCompiler.Proofs.Outcome
import Mathlib.Tactic.Common

namespace ClassCompiler

/-- A part of a body that has code of its own. -/
inductive Piece where
  | expr (e : Expr)
  | elements (line : Int) (es : List Expr)
  | args (es : List Expr)
  | update (a : Option Assign)
  | test (line : Int) (done : String) (e : Option Expr)
  | stmt (loop : Option Loop) (s : Stmt)
  | stmts (loop : Option Loop) (ss : List Stmt)
  | orElse (loop : Option Loop) (s : Option Stmt)

def Context.compilePiece (ctx : Context) : Piece → Gen (List Instr)
  | .expr e => ctx.compileExpr e
  | .elements line es => ctx.compileElements line es
  | .args es => ctx.compileArgs es
  | .update a => ctx.compileOptionalAssign a
  | .test line done e => ctx.compileTest line done e
  | .stmt loop s => ctx.compileStmt loop s
  | .stmts loop ss => ctx.compileStmts loop ss
  | .orElse loop s => ctx.compileElse loop s

/-- The code of a piece inside other code. -/
structure Span where
  piece : Piece
  before : Supply
  start : Nat
  length : Nat

/-- What the code of a piece is made of: operations of its own and the code of another piece. -/
inductive Item where
  | ops (line : Int) (os : List Op)
  | part (piece : Piece) (before : Supply) (code : List Instr) (after : Supply) (spans : List Span)

namespace Item

def code : Item → List Instr
  | .ops line os => onLine line os
  | .part _ _ c _ _ => c

def spans : Item → List Span
  | .ops _ _ => []
  | .part _ _ _ _ sp => sp

end Item

def Span.shift (n : Nat) (sp : Span) : Span := { sp with start := n + sp.start }

def codeOf (items : List Item) : List Instr := items.flatMap Item.code

/-- The spans of items in a row, the first of which starts at `n`. -/
def spansFrom : (n : Nat) → List Item → List Span
  | _, [] => []
  | n, i :: is => i.spans.map (Span.shift n) ++ spansFrom (n + i.code.length) is

@[simp] theorem codeOf_nil : codeOf [] = [] := rfl

@[simp] theorem codeOf_cons (i : Item) (is : List Item) : codeOf (i :: is) = i.code ++ codeOf is := by
  simp [codeOf]

def labelName (n : Nat) : String := "Label_" ++ toString n

namespace Supply

def label (s : Supply) (i : Nat) : String := labelName (s.labels + i)

def take (s : Supply) (labels slots : Nat) : Supply := ⟨s.labels + labels, s.slots + slots⟩

end Supply

theorem labelName_inj {m n : Nat} : labelName m = labelName n ↔ m = n := by
  refine ⟨fun h => ?_, fun h => h ▸ rfl⟩
  have hd : Nat.repr m = Nat.repr n := (String.append_right_inj _).1 h
  rw [Nat.repr_eq_ofList_toDigits, Nat.repr_eq_ofList_toDigits, String.ofList_inj] at hd
  rw [← @Nat.ofDigitChars_ten_toDigits m, hd, Nat.ofDigitChars_ten_toDigits]

@[simp] theorem Supply.label_inj {s : Supply} {i j : Nat} : s.label i = s.label j ↔ i = j := by
  simp [Supply.label, labelName_inj]

@[simp] theorem Supply.take_labels (s : Supply) (m n : Nat) : (s.take m n).labels = s.labels + m := rfl

@[simp] theorem Supply.take_slots (s : Supply) (m n : Nat) : (s.take m n).slots = s.slots + n := rfl

/-- What stands before the code of a value to be stored. -/
def copyBegin (left right : Ty) : List Op :=
  if left.isList && right.isList then [.new listClass, .dup] else []

/-- What stands after the code of a value to be stored. -/
def copyEnd (left right : Ty) : List Op :=
  if left.isList && right.isList then [.invokeSpecial NativeConstructor.listCopy.ref] else []

theorem storedValue_eq (left right : Ty) (line : Int) (value : List Instr) :
    storedValue left right line value =
      onLine line (copyBegin left right) ++ value ++ onLine line (copyEnd left right) := by
  unfold storedValue copyBegin copyEnd
  split <;> simp [onLine]

def BinOp.isComparison : BinOp → Bool
  | .lt | .gt | .eq | .ne => true
  | _ => false

/-- The jump that decides a logical operation, and the value it is decided to. -/
def BinOp.shortcut? : BinOp → Option (Jump × Int)
  | .and => some (.ifZero, 0)
  | .or => some (.ifNonzero, 1)
  | _ => none

/-- Reads a variable, changes it and keeps the result of the expression on the stack. -/
def changeVariable (slot : Nat) (op : UnOp) : List Op :=
  .load .ref slot :: unbox .int ++
    (if op.isPre then [Op.pushInt op.delta, .arith .add] ++ [Op.dup]
      else Op.dup :: [Op.pushInt op.delta, .arith .add]) ++ box .int ++ [Op.store .ref slot]

/-- Reads the element of a list that is kept in slots, changes it and stores it back. -/
def changeElement (list val : Nat) (index : Op) (op : UnOp) : List Op :=
  let element : List Op := [.load .ref list, index]
  element ++ element ++ .invokeVirtual NativeMethod.getElement.ref :: narrow .int ++
    changeBy op.delta op.isPre val ++ box .int ++ [Op.invokeVirtual NativeMethod.setElement.ref, .load .int val]

/-- Reads the field of an object that is kept in a slot, changes it and stores it back. -/
def changeField (obj val : Nat) (field : MemberRef) (op : UnOp) : List Op :=
  [Op.load .ref obj, .load .ref obj, .getField field] ++ unbox .int ++
    changeBy op.delta op.isPre val ++ box .int ++ [Op.putField field, .load .int val]

/-- Stores the value on the stack into a list and reads it back. -/
def storeElementOps (left right : Ty) (index : Op) : List Op :=
  box right ++ [Op.invokeVirtual NativeMethod.setElement.ref, index,
    .invokeVirtual NativeMethod.getElement.ref] ++ narrow (if right.isNull then left else right)

/-- Stores the value on the stack into a field and reads it back. -/
def storeField (left right : Ty) (field : MemberRef) : List Op :=
  box right ++ [Op.putField field, .getField field] ++ unbox left

def returnValue (t : Ty) : List Op := if t.isVoid then [Op.pop, .ret] else box t ++ [Op.retRef]

/-- Narrows an element to the type of the variable it is stored into. -/
def castElement (t : Ty) : List Op := if t.isNoType then [] else [.cast t.classRef]

/-- What the code of a piece is made of, from one supply to the next. -/
inductive Rule (ctx : Context) : Piece → Supply → List Item → Supply → Prop where
  | int {t v s} : Rule ctx (.expr (.int t v)) s [.ops t.pos.line [.pushInt v]] s
  | bool {t b s} :
    Rule ctx (.expr (.bool t b)) s [.ops t.pos.line [.pushInt (if b then 1 else 0)]] s
  | string {t v s} :
    Rule ctx (.expr (.string t v)) s [.ops t.pos.line [.pushString v]] s
  | null {t s} : Rule ctx (.expr (.null t)) s [.ops t.pos.line [.pushNull]] s
  | this {t s} : Rule ctx (.expr (.this t)) s [.ops t.pos.line [.load .ref 0]] s
  | ident {sym v s} (hs : ctx.method.symbol? v.name = some sym) :
    Rule ctx (.expr (.ident v)) s [.ops v.token.pos.line (.load .ref sym.slot :: unbox sym.type)] s
  | field {x c owner f t m s xc s' xs} (ht : ctx.typeOf x = .cls c) (hf : ctx.table.field? c m.name = some (owner, f)) :
    Rule ctx (.expr (.member t x m)) s
      [.part (.expr x) s xc s' xs,
        .ops t.pos.line (.getField ⟨owner, m.name, f.type.descriptor⟩ :: unbox f.type)] s'
  | method {x c d t m s xc s' xs} (ht : ctx.typeOf x = .cls c) (hf : ctx.table.field? c m.name = none)
      (hm : ctx.table.method? c m.name = some d) :
    Rule ctx (.expr (.member t x m)) s
      [.ops t.pos.line [.new fptrClass, .dup], .part (.expr x) s xc s' xs,
        .ops t.pos.line [.pushString m.name, .invokeSpecial NativeConstructor.fptrBind.ref]] s'
  | element {x es i t m s xc s' xs} (ht : ctx.typeOf x = .list es) (hi : Ty.position? es m.name = some i) :
    Rule ctx (.expr (.member t x m)) s
      [.part (.expr x) s xc s' xs,
        .ops t.pos.line (.pushInt i :: .invokeVirtual NativeMethod.getElement.ref ::
          narrow (ctx.typeOf (.member t x m)))] s'
  | index {t x i s xc s₁ xs ic s' is} :
    Rule ctx (.expr (.index t x i)) s
      [.part (.expr x) s xc s₁ xs, .part (.expr i) s₁ ic s' is,
        .ops t.pos.line (.invokeVirtual NativeMethod.getElement.ref ::
          narrow (ctx.typeOf (.index t x i)))] s'
  | list {t es s ec s' xs} :
    Rule ctx (.expr (.list t es)) s
      [.ops t.pos.line ([Op.new listClass, .dup] ++ newArrayList),
        .part (.elements t.pos.line es) s ec s' xs,
        .ops t.pos.line [.invokeSpecial NativeConstructor.listOfArrayList.ref]] s'
  | new {t c as s ac s' xs} :
    Rule ctx (.expr (.new t c as)) s
      [.ops t.pos.line [.new c.name, .dup], .part (.args as) s ac s' xs,
        .ops t.pos.line [.invokeSpecial ⟨c.name, initName, ctx.table.constructorDescriptor c.name⟩]] s'
  | call {t f as s fc s₁ xs ac s' ys} :
    Rule ctx (.expr (.call t f as)) s
      [.part (.expr f) s fc s₁ xs, .ops t.pos.line newArrayList,
        .part (.elements t.pos.line as) s₁ ac s' ys,
        .ops t.pos.line (.invokeVirtual NativeMethod.invoke.ref :: Context.callResultOps (ctx.typeOf f))] s'
  | neg {t x s xc s' xs} :
    Rule ctx (.expr (.unary t .neg x)) s [.part (.expr x) s xc s' xs, .ops t.pos.line [.neg]] s'
  | not {t x s xc s₁ xs} :
    Rule ctx (.expr (.unary t .not x)) s
      [.part (.expr x) s xc s₁ xs,
        .ops t.pos.line (branchMerge .ifNonzero 0 (s₁.label 0) (s₁.label 1))] (s₁.take 2 0)
  | changeIdent {sym t op v s} (ho : op.isIncDec = true) (hs : ctx.method.symbol? v.name = some sym) :
    Rule ctx (.expr (.unary t op (.ident v))) s
      [.ops t.pos.line (changeVariable sym.slot op)] s
  | changeIndex {t op u x i s xc s₁ xs ic s' is} (ho : op.isIncDec = true) :
    Rule ctx (.expr (.unary t op (.index u x i))) s
      [.part (.expr x) (s.take 0 3) xc s₁ xs, .ops t.pos.line [.store .ref s.slots],
        .part (.expr i) s₁ ic s' is, .ops t.pos.line [.store .int ((s.slots + 1 : Nat) : Int)],
        .ops t.pos.line (changeElement s.slots (s.slots + 2) (.load .int ((s.slots + 1 : Nat) : Int)) op)] s'
  | changeElement {x es i t op u m s xc s' xs} (ho : op.isIncDec = true) (ht : ctx.typeOf x = .list es)
      (hi : Ty.position? es m.name = some i) :
    Rule ctx (.expr (.unary t op (.member u x m))) s
      [.part (.expr x) (s.take 0 2) xc s' xs, .ops t.pos.line [.store .ref s.slots],
        .ops t.pos.line (changeElement s.slots (s.slots + 1) (.pushInt i) op)] s'
  | changeField {x c owner f t op u m s xc s' xs} (ho : op.isIncDec = true) (ht : ctx.typeOf x = .cls c)
      (hf : ctx.table.field? c m.name = some (owner, f)) :
    Rule ctx (.expr (.unary t op (.member u x m))) s
      [.part (.expr x) (s.take 0 2) xc s' xs, .ops t.pos.line [.store .ref s.slots],
        .ops t.pos.line (changeField s.slots (s.slots + 1) ⟨owner, m.name, Ty.int.descriptor⟩ op)] s'
  | assignIdent {sym t v r s rc s' rs} (hs : ctx.method.symbol? v.name = some sym) :
    Rule ctx (.expr (.binary t .assign (.ident v) r)) s
      [.ops r.line (copyBegin (ctx.typeOf (.ident v)) (ctx.typeOf r)), .part (.expr r) s rc s' rs,
        .ops r.line (copyEnd (ctx.typeOf (.ident v)) (ctx.typeOf r)),
        .ops t.pos.line (Op.dup :: box (ctx.typeOf r) ++ [Op.store .ref sym.slot])] s'
  | assignIndex {l t r s x xc s₁ xs i ic s₂ is rc s' rs u} (hl : l = .index u x i) :
    Rule ctx (.expr (.binary t .assign l r)) s
      [.part (.expr x) s xc s₁ xs, .ops t.pos.line [.dup], .part (.expr i) s₁ ic s₂ is,
        .ops t.pos.line [.dup, .store .int s₂.slots],
        .ops r.line (copyBegin (ctx.typeOf l) (ctx.typeOf r)), .part (.expr r) (s₂.take 0 1) rc s' rs,
        .ops r.line (copyEnd (ctx.typeOf l) (ctx.typeOf r)),
        .ops t.pos.line (storeElementOps (ctx.typeOf l) (ctx.typeOf r) (.load .int s₂.slots))] s'
  | assignElement {l x es i t r s xc s₁ xs rc s' rs u m} (hl : l = .member u x m) (ht : ctx.typeOf x = .list es)
      (hi : Ty.position? es m.name = some i) :
    Rule ctx (.expr (.binary t .assign l r)) s
      [.part (.expr x) s xc s₁ xs, .ops t.pos.line [.dup, .pushInt i],
        .ops r.line (copyBegin (ctx.typeOf l) (ctx.typeOf r)), .part (.expr r) s₁ rc s' rs,
        .ops r.line (copyEnd (ctx.typeOf l) (ctx.typeOf r)),
        .ops t.pos.line (storeElementOps (ctx.typeOf l) (ctx.typeOf r) (.pushInt i))] s'
  | assignField {l x c owner f t r s xc s₁ xs rc s' rs u m} (hl : l = .member u x m) (ht : ctx.typeOf x = .cls c)
      (hf : ctx.table.field? c m.name = some (owner, f)) :
    Rule ctx (.expr (.binary t .assign l r)) s
      [.part (.expr x) s xc s₁ xs, .ops t.pos.line [.dup],
        .ops r.line (copyBegin (ctx.typeOf l) (ctx.typeOf r)), .part (.expr r) s₁ rc s' rs,
        .ops r.line (copyEnd (ctx.typeOf l) (ctx.typeOf r)),
        .ops t.pos.line (storeField (ctx.typeOf l) (ctx.typeOf r) ⟨owner, m.name, (ctx.typeOf l).descriptor⟩)] s'
  | logical {exit decided t op l r s lc s₁ ls rc s' rs} (ho : op.shortcut? = some (exit, decided)) :
    Rule ctx (.expr (.binary t op l r)) s
      [.part (.expr l) (s.take 2 0) lc s₁ ls, .ops t.pos.line [.jump exit (s.label 0)],
        .part (.expr r) s₁ rc s' rs,
        .ops t.pos.line (branchMerge exit decided (s.label 0) (s.label 1))] s'
  | arith {a t op l r s lc s₁ ls rc s' rs} (ho : op.arith? = some a) :
    Rule ctx (.expr (.binary t op l r)) s
      [.part (.expr l) s lc s₁ ls, .part (.expr r) s₁ rc s' rs, .ops t.pos.line [.arith a]] s'
  | compare {t op l r s lc s₁ ls rc s₂ rs} (ho : op.isComparison = true) :
    Rule ctx (.expr (.binary t op l r)) s
      [.part (.expr l) s lc s₁ ls, .part (.expr r) s₁ rc s₂ rs,
        .ops t.pos.line (branchMerge (op.comparison (ctx.typeOf l).isPrimitive) 1 (s₂.label 0) (s₂.label 1))]
      (s₂.take 2 0)
  | noElements {line s} : Rule ctx (.elements line []) s [] s
  | elements {line e es s ec s₁ xs rest s' ys} :
    Rule ctx (.elements line (e :: es)) s
      [.ops line [.dup], .part (.expr e) s ec s₁ xs, .ops e.line (box (ctx.typeOf e)),
        .ops line addElement, .part (.elements line es) s₁ rest s' ys] s'
  | noArgs {s} : Rule ctx (.args []) s [] s
  | args {e es s ec s₁ xs rest s' ys} :
    Rule ctx (.args (e :: es)) s
      [.part (.expr e) s ec s₁ xs, .ops e.line (box (ctx.typeOf e)), .part (.args es) s₁ rest s' ys] s'
  | noUpdate {s} : Rule ctx (.update none) s [] s
  | update {a s c s' xs} :
    Rule ctx (.update (some a)) s
      [.part (.expr (.binary a.token .assign a.left a.right)) s c s' xs, .ops a.token.pos.line [.pop]] s'
  | noTest {line done s} : Rule ctx (.test line done none) s [] s
  | test {line done e s c s' xs} :
    Rule ctx (.test line done (some e)) s
      [.part (.expr e) s c s' xs, .ops line [.jump .ifZero done]] s'
  | assign {loop a s c s' xs} :
    Rule ctx (.stmt loop (.assign a)) s
      [.part (.expr (.binary a.token .assign a.left a.right)) s c s' xs, .ops a.token.pos.line [.pop]] s'
  | block {loop t ss s c s' xs} : Rule ctx (.stmt loop (.block t ss)) s [.part (.stmts loop ss) s c s' xs] s'
  | cond {loop t c y n s cc s₁ cs yc s₂ ys nc s' ns} :
    Rule ctx (.stmt loop (.cond t c y n)) s
      [.part (.expr c) (s.take 2 0) cc s₁ cs, .ops t.pos.line [.jump .ifZero (s.label 0)],
        .part (.stmt loop y) s₁ yc s₂ ys,
        .ops t.pos.line [.jump .always (s.label 1), .label (s.label 0)],
        .part (.orElse loop n) s₂ nc s' ns, .ops t.pos.line [.label (s.label 1)]] s'
  | callStmt {loop t f as s c s' xs} :
    Rule ctx (.stmt loop (.call t f as)) s
      [.part (.expr (.call t f as)) s c s' xs, .ops t.pos.line [.pop]] s'
  | print {x p loop t s c s' xs} (hp : (ctx.typeOf x).printer? = some p) :
    Rule ctx (.stmt loop (.print t x)) s
      [.ops t.pos.line [.getStatic outField], .part (.expr x) s c s' xs,
        .ops t.pos.line [.invokeVirtual p.ref]] s'
  | ret {loop t s} :
    Rule ctx (.stmt loop (.ret t none)) s [.ops t.pos.line [.ret]] s
  | retValue {loop t e s c s' xs}
      :
    Rule ctx (.stmt loop (.ret t (some e))) s
      [.part (.expr e) s c s' xs,
        .ops t.pos.line (returnValue (ctx.typeOf e))] s'
  | for {loop t i c u b s ic s₁ is cc s₂ cs bc s₃ bs uc s' us} :
    Rule ctx (.stmt loop (.for t i c u b)) s
      [.part (.update i) (s.take 3 0) ic s₁ is, .ops t.pos.line [.label (s.label 0)],
        .part (.test t.pos.line (s.label 2) c) s₁ cc s₂ cs,
        .part (.stmt (some ⟨s.label 1, s.label 2⟩) b) s₂ bc s₃ bs,
        .ops t.pos.line [.label (s.label 1)], .part (.update u) s₃ uc s' us,
        .ops t.pos.line [.jump .always (s.label 0), .label (s.label 2)]] s'
  | foreach {l es sym loop t v b s lc s₁ ls bc s' bs} (ht : ctx.typeOf l = .list es) (hs : ctx.method.symbol? v.name = some sym) :
    Rule ctx (.stmt loop (.foreach t v l b)) s
      [.part (.expr l) (s.take 3 2) lc s₁ ls,
        .ops t.pos.line ([Op.store .ref s.slots, .pushInt 0, .store .int ((s.slots + 1 : Nat) : Int),
          .label (s.label 0), .load .int ((s.slots + 1 : Nat) : Int), .pushInt es.length,
          .jump (.ifInts .ge) (s.label 2), .load .ref s.slots, .load .int ((s.slots + 1 : Nat) : Int),
          .invokeVirtual NativeMethod.getElement.ref] ++
          castElement sym.type ++ [Op.store .ref sym.slot]),
        .part (.stmt (some ⟨s.label 1, s.label 2⟩) b) s₁ bc s' bs,
        .ops t.pos.line [.label (s.label 1), .increment ((s.slots + 1 : Nat) : Int) 1,
          .jump .always (s.label 0), .label (s.label 2)]] s'
  | break {loop t s} :
    Rule ctx (.stmt (some loop) (.break t)) s [.ops t.pos.line [.jump .always loop.done]] s
  | continue {loop t s} :
    Rule ctx (.stmt (some loop) (.continue t)) s [.ops t.pos.line [.jump .always loop.next]] s
  | noStmts {loop s} : Rule ctx (.stmts loop []) s [] s
  | stmts {loop x xs s c s₁ sp rest s' sps} :
    Rule ctx (.stmts loop (x :: xs)) s
      [.part (.stmt loop x) s c s₁ sp, .part (.stmts loop xs) s₁ rest s' sps] s'
  | noElse {loop s} : Rule ctx (.orElse loop none) s [] s
  | orElse {loop x s c s' sp} : Rule ctx (.orElse loop (some x)) s [.part (.stmt loop x) s c s' sp] s'

/-- The code of a piece, laid out by the rules, and where the pieces inside it stand. -/
inductive Emits (ctx : Context) : Piece → Supply → List Instr → Supply → List Span → Prop where
  | intro {p : Piece} {s s' : Supply} {items : List Item} {code : List Instr} (hr : Rule ctx p s items s')
      (hp : ∀ q t c t' sp, Item.part q t c t' sp ∈ items → Emits ctx q t c t' sp)
      (hc : code = codeOf items) (hg : ctx.compilePiece p s = .ok (code, s')) :
    Emits ctx p s code s' (⟨p, s, 0, code.length⟩ :: spansFrom 0 items)

namespace Gen

variable {α β : Type} {s s' : Supply}

theorem bind_eq_ok {g : Gen α} {f : α → Gen β} {r : β × Supply} :
    (g >>= f) s = .ok r ↔ ∃ a s₁, g s = .ok (a, s₁) ∧ f a s₁ = .ok r := by
  cases h : g s with
  | error e => simp [bind, StateT.bind, Except.bind, h]
  | ok a => simp [bind, StateT.bind, Except.bind, h, Prod.ext_iff]

theorem pure_eq_ok {a b : α} : (pure a : Gen α) s = .ok (b, s') ↔ a = b ∧ s = s' := by
  have hpure : (pure a : Gen α) s = .ok (a, s) := rfl
  simp [hpure]

theorem newLabel_eq_ok {l : String} :
    newLabel s = .ok (l, s') ↔ s.label 0 = l ∧ s.take 1 0 = s' := by
  simp only [newLabel, Except.ok.injEq, Prod.mk.injEq]
  exact Iff.rfl

theorem newSlot_eq_ok {n : Nat} : newSlot s = .ok (n, s') ↔ s.slots = n ∧ s.take 0 1 = s' := by
  simp only [newSlot, Except.ok.injEq, Prod.mk.injEq]
  exact Iff.rfl

theorem fail_ne_ok {p : CompileProblem} {r : α × Supply} : (fail p : Gen α) s ≠ .ok r := by
  simp [fail]

end Gen

namespace Context

variable {ctx : Context} {s s' : Supply}

theorem slotOf_eq_ok {name : String} {line : Int} {sym : Symbol} :
    ctx.slotOf name line s = .ok (sym, s') ↔ ctx.method.symbol? name = some sym ∧ s = s' := by
  unfold slotOf
  cases ctx.method.symbol? name with
  | none => simp [Gen.fail]
  | some t => simp [Gen.pure_eq_ok]

theorem elementOf_eq_ok {es : List (String × Ty)} {name : String} {line : Int} {i : Nat} :
    elementOf es name line s = .ok (i, s') ↔ Ty.position? es name = some i ∧ s = s' := by
  unfold elementOf
  cases Ty.position? es name with
  | none => simp [Gen.fail]
  | some j => simp [Gen.pure_eq_ok]

theorem ownerOf_eq_ok {cls name : String} {line : Int} {owner : String} :
    ctx.ownerOf cls name line s = .ok (owner, s') ↔
      (∃ f, ctx.table.field? cls name = some (owner, f)) ∧ s = s' := by
  unfold ownerOf
  cases ctx.table.field? cls name with
  | none => simp [Gen.fail]
  | some r => simp [Gen.pure_eq_ok, Prod.ext_iff]

end Context

def Laid (ctx : Context) (p : Piece) (s : Supply) (code : List Instr) (s' : Supply) : Prop :=
  ∃ sp, Emits ctx p s code s' sp

section

variable {P : List Op → Prop} {items : List Item}

theorem forall_ops_nil : (∀ i ∈ ([] : List Item), ∀ line os, i = .ops line os → P os) ↔ True := by simp

theorem forall_ops_cons {line : Int} {os : List Op} :
    (∀ i ∈ Item.ops line os :: items, ∀ line os, i = .ops line os → P os) ↔
      P os ∧ ∀ i ∈ items, ∀ line os, i = .ops line os → P os := by
  simp

theorem forall_ops_cons_part {q : Piece} {t t' : Supply} {c : List Instr} {sp : List Span} :
    (∀ i ∈ Item.part q t c t' sp :: items, ∀ line os, i = .ops line os → P os) ↔
      ∀ i ∈ items, ∀ line os, i = .ops line os → P os := by
  simp

end

/-- A property of all parts among items. -/
inductive Parts (P : Piece → Supply → List Instr → Supply → List Span → Prop) : List Item → Prop where
  | nil : Parts P []
  | ops {line : Int} {os : List Op} {is : List Item} (hs : Parts P is) : Parts P (.ops line os :: is)
  | part {q : Piece} {t t' : Supply} {c : List Instr} {sp : List Span} {is : List Item}
      (h : P q t c t' sp) (hs : Parts P is) : Parts P (.part q t c t' sp :: is)

namespace Parts

variable {P : Piece → Supply → List Instr → Supply → List Span → Prop} {items : List Item}

@[simp] theorem nil_iff : Parts P [] ↔ True := ⟨fun _ => trivial, fun _ => .nil⟩

@[simp] theorem ops_iff {line : Int} {os : List Op} : Parts P (.ops line os :: items) ↔ Parts P items :=
  ⟨fun h => by cases h; assumption, .ops⟩

@[simp] theorem part_iff {q : Piece} {t t' : Supply} {c : List Instr} {sp : List Span} :
    Parts P (.part q t c t' sp :: items) ↔ P q t c t' sp ∧ Parts P items :=
  ⟨fun h => by cases h; exact ⟨by assumption, by assumption⟩, fun h => .part h.1 h.2⟩

theorem iff_forall_mem : Parts P items ↔ ∀ q t c t' sp, Item.part q t c t' sp ∈ items → P q t c t' sp := by
  induction items with
  | nil => simp
  | cons i is ih =>
    cases i with
    | ops line os => simp [ih]
    | part q t c t' sp =>
      rw [part_iff, ih]
      constructor
      · rintro ⟨h, hs⟩ q' t₁ c' t₂ sp' hm
        rcases List.mem_cons.1 hm with hm | hm
        · cases hm
          exact h
        · exact hs _ _ _ _ _ hm
      · intro h
        exact ⟨h _ _ _ _ _ (by simp), fun _ _ _ _ _ hm => h _ _ _ _ _ (by simp [hm])⟩

end Parts

theorem Rule.laid {ctx : Context} {p : Piece} {s s' : Supply} {items : List Item} {code : List Instr}
    (hr : Rule ctx p s items s') (hp : Parts (Emits ctx) items) (hc : code = codeOf items)
    (hg : ctx.compilePiece p s = .ok (code, s')) : Laid ctx p s code s' :=
  ⟨_, .intro hr (Parts.iff_forall_mem.1 hp) hc hg⟩

theorem Context.compileExpr_change {ctx : Context} {t : Token} {op : UnOp} {x : Expr}
    (ho : op.isIncDec = true) : ctx.compileExpr (.unary t op x) =
      match x with
      | .ident v => do
        let sym ← ctx.slotOf v.name t.pos.line
        return onLine t.pos.line (changeVariable sym.slot op)
      | .index _ y i => do
        let list ← Gen.newSlot
        let idx ← Gen.newSlot
        let val ← Gen.newSlot
        let yc ← ctx.compileExpr y
        let ic ← ctx.compileExpr i
        return yc ++ onLine t.pos.line [.store .ref list] ++ ic ++
          onLine t.pos.line (.store .int idx :: changeElement list val (.load .int idx) op)
      | .member _ y m =>
        match ctx.typeOf y with
        | .list elems => do
          let i ← elementOf elems m.name t.pos.line
          let list ← Gen.newSlot
          let val ← Gen.newSlot
          let yc ← ctx.compileExpr y
          return yc ++ onLine t.pos.line (.store .ref list :: changeElement list val (.pushInt i) op)
        | .cls c => do
          let owner ← ctx.ownerOf c m.name t.pos.line
          let obj ← Gen.newSlot
          let val ← Gen.newSlot
          let yc ← ctx.compileExpr y
          return yc ++ onLine t.pos.line (.store .ref obj ::
            changeField obj val ⟨owner, m.name, Ty.int.descriptor⟩ op)
        | _ => Gen.fail (.cannotIncrement x.formName t.pos.line)
      | x => Gen.fail (.cannotIncrement x.formName t.pos.line) := by
  cases op with
  | not | neg => simp [UnOp.isIncDec] at ho
  | preInc | preDec | postInc | postDec => cases x <;> rfl

namespace Context

variable {ctx : Context}

attribute [local simp] compileExpr

/-- Whatever code the generator makes of an expression is laid out by the rules. -/
def ExprLaid (ctx : Context) (e : Expr) : Prop :=
  ∀ ⦃s s' : Supply⦄ ⦃c : List Instr⦄, ctx.compileExpr e s = .ok (c, s') → Laid ctx (.expr e) s c s'

theorem compileChange_laid {t : Token} {op : UnOp} {x : Expr} (ho : op.isIncDec = true)
    (ih : ∀ y ∈ x.children, ctx.ExprLaid y) : ctx.ExprLaid (.unary t op x) := by
  intro s s' c h
  have hg := h
  rw [compileExpr_change ho] at h
  split at h
  · next v =>
    simp only [Gen.bind_eq_ok, slotOf_eq_ok, Gen.pure_eq_ok] at h
    obtain ⟨sym, _, ⟨hs, rfl⟩, rfl, rfl⟩ := h
    exact (Rule.changeIdent ho hs).laid (.ops .nil) (by simp [Item.code]) hg
  · next y i =>
    simp only [Gen.bind_eq_ok, Gen.newSlot_eq_ok, Gen.pure_eq_ok] at h
    obtain ⟨_, _, ⟨rfl, rfl⟩, _, _, ⟨rfl, rfl⟩, _, _, ⟨rfl, rfl⟩, yc, s₁, hy, ic, s₂, hi, rfl, rfl⟩ := h
    obtain ⟨ys, hy⟩ := ih y (by simp [Expr.children]) hy
    obtain ⟨is, hi⟩ := ih i (by simp [Expr.children]) hi
    exact (Rule.changeIndex ho).laid (.part hy (.ops (.part hi (.ops (.ops .nil)))))
      (by simp [Item.code, onLine, Supply.take]) hg
  · next y m =>
    cases ht : ctx.typeOf y with
    | list es =>
      simp only [ht, Gen.bind_eq_ok, elementOf_eq_ok, Gen.newSlot_eq_ok, Gen.pure_eq_ok] at h
      obtain ⟨i, _, ⟨hi, rfl⟩, _, _, ⟨rfl, rfl⟩, _, _, ⟨rfl, rfl⟩, yc, s₁, hy, rfl, rfl⟩ := h
      obtain ⟨ys, hy⟩ := ih y (by simp [Expr.children]) hy
      exact (Rule.changeElement ho ht hi).laid (.part hy (.ops (.ops .nil)))
        (by simp [Item.code, onLine, Supply.take]) hg
    | cls cls =>
      simp only [ht, Gen.bind_eq_ok, ownerOf_eq_ok, Gen.newSlot_eq_ok, Gen.pure_eq_ok] at h
      obtain ⟨owner, _, ⟨⟨f, hf⟩, rfl⟩, _, _, ⟨rfl, rfl⟩, _, _, ⟨rfl, rfl⟩, yc, s₁, hy, rfl, rfl⟩ := h
      obtain ⟨ys, hy⟩ := ih y (by simp [Expr.children]) hy
      exact (Rule.changeField ho ht hf).laid (.part hy (.ops (.ops .nil)))
        (by simp [Item.code, onLine, Supply.take]) hg
    | _ =>
      simp only [ht] at h
      exact absurd h Gen.fail_ne_ok
  · exact absurd h Gen.fail_ne_ok

theorem compileAssign_laid {t : Token} {l r : Expr} (ihl : ∀ y ∈ l.children, ctx.ExprLaid y)
    (ihr : ctx.ExprLaid r) : ctx.ExprLaid (.binary t .assign l r) := by
  intro s s' c h
  have hg := h
  cases l with
  | ident v =>
    simp only [compileExpr, Gen.bind_eq_ok, slotOf_eq_ok, Gen.pure_eq_ok] at h
    obtain ⟨sym, _, ⟨hs, rfl⟩, rc, s₁, hr, rfl, rfl⟩ := h
    obtain ⟨rs, hr⟩ := ihr hr
    exact (Rule.assignIdent hs).laid (.ops (.part hr (.ops (.ops .nil))))
      (by simp [Item.code, storedValue_eq]) hg
  | index u x i =>
    simp only [compileExpr, Gen.bind_eq_ok, Gen.newSlot_eq_ok, Gen.pure_eq_ok] at h
    obtain ⟨xc, s₁, hx, ic, s₂, hi, _, _, ⟨rfl, rfl⟩, rc, s₃, hr, rfl, rfl⟩ := h
    obtain ⟨xs, hx⟩ := ihl x (by simp [Expr.children]) hx
    obtain ⟨is, hi⟩ := ihl i (by simp [Expr.children]) hi
    obtain ⟨rs, hr⟩ := ihr hr
    exact (Rule.assignIndex rfl).laid (.part hx (.ops (.part hi (.ops (.ops (.part hr (.ops (.ops .nil))))))))
      (by simp [Item.code, storedValue_eq, storeElement, storeElementOps]) hg
  | member u x m =>
    cases ht : ctx.typeOf x with
    | list es =>
      simp only [compileExpr, ht, Gen.bind_eq_ok, elementOf_eq_ok, Gen.pure_eq_ok] at h
      obtain ⟨i, _, ⟨hi, rfl⟩, xc, s₁, hx, rc, s₂, hr, rfl, rfl⟩ := h
      obtain ⟨xs, hx⟩ := ihl x (by simp [Expr.children]) hx
      obtain ⟨rs, hr⟩ := ihr hr
      exact (Rule.assignElement rfl ht hi).laid (.part hx (.ops (.ops (.part hr (.ops (.ops .nil))))))
        (by simp [Item.code, storedValue_eq, storeElement, storeElementOps]) hg
    | cls cls =>
      simp only [compileExpr, ht, Gen.bind_eq_ok, ownerOf_eq_ok, Gen.pure_eq_ok] at h
      obtain ⟨owner, _, ⟨⟨f, hf⟩, rfl⟩, xc, s₁, hx, rc, s₂, hr, rfl, rfl⟩ := h
      obtain ⟨xs, hx⟩ := ihl x (by simp [Expr.children]) hx
      obtain ⟨rs, hr⟩ := ihr hr
      exact (Rule.assignField rfl ht hf).laid (.part hx (.ops (.ops (.part hr (.ops (.ops .nil))))))
        (by simp [Item.code, storedValue_eq, storeField]) hg
    | _ =>
      simp only [compileExpr, ht] at h
      exact absurd h Gen.fail_ne_ok
  | _ =>
    simp only [compileExpr] at h
    exact absurd h Gen.fail_ne_ok

theorem compileLogical_laid {t : Token} {op : BinOp} {l r : Expr} {exit : Jump} {decided : Int}
    (ho : op.shortcut? = some (exit, decided)) (ihl : ctx.ExprLaid l) (ihr : ctx.ExprLaid r) :
    ctx.ExprLaid (.binary t op l r) := by
  have he : ctx.compileExpr (.binary t op l r) = do
      let short ← Gen.newLabel
      let after ← Gen.newLabel
      let lc ← ctx.compileExpr l
      let rc ← ctx.compileExpr r
      return logicalCode t.pos.line exit decided short after lc rc := by
    cases op <;> simp_all [BinOp.shortcut?]
  intro s s' c h
  have hg := h
  simp only [he, Gen.bind_eq_ok, Gen.newLabel_eq_ok, Gen.pure_eq_ok] at h
  obtain ⟨_, _, ⟨rfl, rfl⟩, _, _, ⟨rfl, rfl⟩, lc, s₁, hl, rc, s₂, hr, rfl, rfl⟩ := h
  obtain ⟨ls, hl⟩ := ihl hl
  obtain ⟨rs, hr⟩ := ihr hr
  exact (Rule.logical ho).laid (.part hl (.ops (.part hr (.ops .nil))))
    (by simp [Item.code, logicalCode, branchMerge]; rfl) hg

theorem compileArith_laid {t : Token} {op : BinOp} {l r : Expr} {a : ArithOp}
    (ho : op.arith? = some a) (ihl : ctx.ExprLaid l) (ihr : ctx.ExprLaid r) :
    ctx.ExprLaid (.binary t op l r) := by
  have he : ctx.compileExpr (.binary t op l r) = do
      let lc ← ctx.compileExpr l
      let rc ← ctx.compileExpr r
      return lc ++ rc ++ onLine t.pos.line [.arith a] := by
    cases op <;> simp_all [BinOp.arith?]
  intro s s' c h
  have hg := h
  simp only [he, Gen.bind_eq_ok, Gen.pure_eq_ok] at h
  obtain ⟨lc, s₁, hl, rc, s₂, hr, rfl, rfl⟩ := h
  obtain ⟨ls, hl⟩ := ihl hl
  obtain ⟨rs, hr⟩ := ihr hr
  exact (Rule.arith ho).laid (.part hl (.part hr (.ops .nil))) (by simp [Item.code]) hg

theorem compileCompare_laid {t : Token} {op : BinOp} {l r : Expr}
    (ho : op.isComparison = true) (ihl : ctx.ExprLaid l) (ihr : ctx.ExprLaid r) :
    ctx.ExprLaid (.binary t op l r) := by
  have he : ctx.compileExpr (.binary t op l r) = do
      let lc ← ctx.compileExpr l
      let rc ← ctx.compileExpr r
      let yes ← Gen.newLabel
      let after ← Gen.newLabel
      return lc ++ rc ++ onLine t.pos.line
        (branchMerge (op.comparison (ctx.typeOf l).isPrimitive) 1 yes after) := by
    cases op <;> simp_all [BinOp.isComparison, BinOp.arith?]
  intro s s' c h
  have hg := h
  simp only [he, Gen.bind_eq_ok, Gen.newLabel_eq_ok, Gen.pure_eq_ok] at h
  obtain ⟨lc, s₁, hl, rc, s₂, hr, _, _, ⟨rfl, rfl⟩, _, _, ⟨rfl, rfl⟩, rfl, rfl⟩ := h
  obtain ⟨ls, hl⟩ := ihl hl
  obtain ⟨rs, hr⟩ := ihr hr
  exact (Rule.compare ho).laid (.part hl (.part hr (.ops .nil))) (by simp [Item.code]; rfl) hg

theorem compileElements_laid {line : Int} {es : List Expr} (ih : ∀ e ∈ es, ctx.ExprLaid e)
    {s s' : Supply} {c : List Instr} (h : ctx.compileElements line es s = .ok (c, s')) :
    Laid ctx (.elements line es) s c s' := by
  induction es generalizing s c with
  | nil =>
    have hg := h
    simp only [compileElements, Gen.pure_eq_ok] at h
    obtain ⟨rfl, rfl⟩ := h
    exact Rule.noElements.laid .nil rfl hg
  | cons e es ihes =>
    have hg := h
    simp only [compileElements, Gen.bind_eq_ok, Gen.pure_eq_ok] at h
    obtain ⟨ec, s₁, he, rest, s₂, hes, rfl, rfl⟩ := h
    obtain ⟨xs, he⟩ := ih e (by simp) he
    obtain ⟨ys, hes⟩ := ihes (fun e he => ih e (by simp [he])) hes
    exact Rule.elements.laid (.ops (.part he (.ops (.ops (.part hes .nil))))) (by simp [Item.code]) hg

theorem compileArgs_laid {es : List Expr} (ih : ∀ e ∈ es, ctx.ExprLaid e)
    {s s' : Supply} {c : List Instr} (h : ctx.compileArgs es s = .ok (c, s')) :
    Laid ctx (.args es) s c s' := by
  induction es generalizing s c with
  | nil =>
    have hg := h
    simp only [compileArgs, Gen.pure_eq_ok] at h
    obtain ⟨rfl, rfl⟩ := h
    exact Rule.noArgs.laid .nil rfl hg
  | cons e es ihes =>
    have hg := h
    simp only [compileArgs, Gen.bind_eq_ok, Gen.pure_eq_ok] at h
    obtain ⟨ec, s₁, he, rest, s₂, hes, rfl, rfl⟩ := h
    obtain ⟨xs, he⟩ := ih e (by simp) he
    obtain ⟨ys, hes⟩ := ihes (fun e he => ih e (by simp [he])) hes
    exact Rule.args.laid (.part he (.ops (.part hes .nil))) (by simp [Item.code]) hg

theorem compileMember_laid {t : Token} {x : Expr} {m : Ident} (ih : ctx.ExprLaid x) :
    ctx.ExprLaid (.member t x m) := by
  intro s s' c h
  have hg := h
  unfold compileExpr at h
  split at h
  · next c ht =>
    split at h
    · next owner f hf =>
      simp only [Gen.bind_eq_ok, Gen.pure_eq_ok] at h
      obtain ⟨xc, s₁, hx, rfl, rfl⟩ := h
      obtain ⟨xs, hx⟩ := ih hx
      exact (Rule.field ht hf).laid (.part hx (.ops .nil)) (by simp [Item.code]) hg
    · next hf =>
      split at h
      · next hm =>
        simp only [Gen.bind_eq_ok, Gen.pure_eq_ok] at h
        obtain ⟨xc, s₁, hx, rfl, rfl⟩ := h
        obtain ⟨xs, hx⟩ := ih hx
        exact (Rule.method ht hf hm).laid (.ops (.part hx (.ops .nil))) (by simp [Item.code]) hg
      · exact absurd h Gen.fail_ne_ok
  · next es ht =>
    simp only [Gen.bind_eq_ok, elementOf_eq_ok, Gen.pure_eq_ok] at h
    obtain ⟨i, _, ⟨hi, rfl⟩, xc, s₁, hx, rfl, rfl⟩ := h
    obtain ⟨xs, hx⟩ := ih hx
    exact (Rule.element ht hi).laid (.part hx (.ops .nil)) (by simp [Item.code]) hg
  · exact absurd h Gen.fail_ne_ok

theorem sizeOf_lt_of_mem_children {x y : Expr} (h : y ∈ x.children) : sizeOf y < sizeOf x := by
  cases x with
  | call t f as =>
    rcases List.mem_cons.1 h with rfl | h
    · simp +arith
    · have := List.sizeOf_lt_of_mem h
      simp +arith
      omega
  | new t c as | list t as =>
    simp only [Expr.children] at h
    have := List.sizeOf_lt_of_mem h
    simp +arith
    omega
  | binary t op l r | index t l r =>
    simp only [Expr.children, List.mem_cons, List.not_mem_nil, or_false] at h
    rcases h with rfl | rfl <;> simp +arith
  | unary t op x | member t x m =>
    simp only [Expr.children, List.mem_cons, List.not_mem_nil, or_false] at h
    subst h
    simp +arith
  | _ => simp [Expr.children] at h

theorem compileExpr_laid (e : Expr) : ctx.ExprLaid e := by
  -- One shape for all forms: take the run of the generator apart, lay out the parts, apply the rule of the form.
  match e with
  | .int t v | .bool t v | .string t v =>
    intro s s' c h
    have hg := h
    simp only [compileExpr, Gen.pure_eq_ok] at h
    obtain ⟨rfl, rfl⟩ := h
    exact Rule.laid (by constructor) (.ops .nil) (by simp [Item.code]) hg
  | .null t | .this t =>
    intro s s' c h
    have hg := h
    simp only [compileExpr, Gen.pure_eq_ok] at h
    obtain ⟨rfl, rfl⟩ := h
    exact Rule.laid (by constructor) (.ops .nil) (by simp [Item.code]) hg
  | .ident v =>
    intro s s' c h
    have hg := h
    simp only [compileExpr, Gen.bind_eq_ok, slotOf_eq_ok, Gen.pure_eq_ok] at h
    obtain ⟨sym, _, ⟨hs, rfl⟩, rfl, rfl⟩ := h
    exact (Rule.ident hs).laid (.ops .nil) (by simp [Item.code]) hg
  | .member t x m => exact compileMember_laid (compileExpr_laid x)
  | .index t x i =>
    intro s s' c h
    have hg := h
    simp only [compileExpr, Gen.bind_eq_ok, Gen.pure_eq_ok] at h
    obtain ⟨xc, s₁, hx, ic, s₂, hi, rfl, rfl⟩ := h
    obtain ⟨xs, hx⟩ := compileExpr_laid x hx
    obtain ⟨is, hi⟩ := compileExpr_laid i hi
    exact Rule.index.laid (.part hx (.part hi (.ops .nil))) (by simp [Item.code]) hg
  | .list t es =>
    intro s s' c h
    have hg := h
    simp only [compileExpr, Gen.bind_eq_ok, Gen.pure_eq_ok] at h
    obtain ⟨ec, s₁, he, rfl, rfl⟩ := h
    obtain ⟨xs, he⟩ := compileElements_laid (fun e _ => compileExpr_laid e) he
    exact Rule.list.laid (.ops (.part he (.ops .nil))) (by simp [Item.code]) hg
  | .new t c as =>
    intro s s' c h
    have hg := h
    simp only [compileExpr, Gen.bind_eq_ok, Gen.pure_eq_ok] at h
    obtain ⟨ac, s₁, ha, rfl, rfl⟩ := h
    obtain ⟨xs, ha⟩ := compileArgs_laid (fun e _ => compileExpr_laid e) ha
    exact Rule.new.laid (.ops (.part ha (.ops .nil))) (by simp [Item.code]) hg
  | .call t f as =>
    intro s s' c h
    have hg := h
    simp only [compileExpr, Gen.bind_eq_ok, Gen.pure_eq_ok] at h
    obtain ⟨fc, s₁, hf, ac, s₂, ha, rfl, rfl⟩ := h
    obtain ⟨xs, hf⟩ := compileExpr_laid f hf
    obtain ⟨ys, ha⟩ := compileElements_laid (fun e _ => compileExpr_laid e) ha
    exact Rule.call.laid (.part hf (.ops (.part ha (.ops .nil)))) (by simp [Item.code]) hg
  | .unary t .neg x =>
    intro s s' c h
    have hg := h
    simp only [compileExpr, Gen.bind_eq_ok, Gen.pure_eq_ok] at h
    obtain ⟨xc, s₁, hx, rfl, rfl⟩ := h
    obtain ⟨xs, hx⟩ := compileExpr_laid x hx
    exact Rule.neg.laid (.part hx (.ops .nil)) (by simp [Item.code]) hg
  | .unary t .not x =>
    intro s s' c h
    have hg := h
    simp only [compileExpr, Gen.bind_eq_ok, Gen.newLabel_eq_ok, Gen.pure_eq_ok] at h
    obtain ⟨xc, s₁, hx, _, _, ⟨rfl, rfl⟩, _, _, ⟨rfl, rfl⟩, rfl, rfl⟩ := h
    obtain ⟨xs, hx⟩ := compileExpr_laid x hx
    exact Rule.not.laid (.part hx (.ops .nil)) (by simp [Item.code]; rfl) hg
  | .unary t .preInc x | .unary t .preDec x | .unary t .postInc x | .unary t .postDec x =>
    exact compileChange_laid rfl fun y _ => compileExpr_laid y
  | .binary t .assign l r =>
    exact compileAssign_laid (fun y _ => compileExpr_laid y) (compileExpr_laid r)
  | .binary t .and l r | .binary t .or l r =>
    exact compileLogical_laid rfl (compileExpr_laid l) (compileExpr_laid r)
  | .binary t .add l r | .binary t .sub l r | .binary t .mul l r | .binary t .div l r
  | .binary t .mod l r => exact compileArith_laid rfl (compileExpr_laid l) (compileExpr_laid r)
  | .binary t .lt l r | .binary t .gt l r | .binary t .eq l r | .binary t .ne l r =>
    exact compileCompare_laid rfl (compileExpr_laid l) (compileExpr_laid r)
termination_by sizeOf e
decreasing_by
  all_goals first
    | (simp +arith; done)
    | (have h := List.sizeOf_lt_of_mem ‹_ ∈ _›; simp +arith; omega)
    | (have h := sizeOf_lt_of_mem_children ‹_ ∈ _›; simp +arith; omega)

theorem compileOptionalAssign_laid {a : Option Assign} {s s' : Supply} {c : List Instr}
    (h : ctx.compileOptionalAssign a s = .ok (c, s')) : Laid ctx (.update a) s c s' := by
  have hg := h
  cases a with
  | none =>
    simp only [compileOptionalAssign, Gen.pure_eq_ok] at h
    obtain ⟨rfl, rfl⟩ := h
    exact Rule.noUpdate.laid .nil rfl hg
  | some a =>
    simp only [compileOptionalAssign, compileAssign, Gen.bind_eq_ok, Gen.pure_eq_ok] at h
    obtain ⟨xc, s₁, hx, rfl, rfl⟩ := h
    obtain ⟨xs, hx⟩ := compileExpr_laid _ hx
    exact Rule.update.laid (.part hx (.ops .nil)) (by simp [Item.code]) hg

theorem compileTest_laid {line : Int} {done : String} {e : Option Expr} {s s' : Supply} {c : List Instr}
    (h : ctx.compileTest line done e s = .ok (c, s')) : Laid ctx (.test line done e) s c s' := by
  have hg := h
  cases e with
  | none =>
    simp only [compileTest, Gen.pure_eq_ok] at h
    obtain ⟨rfl, rfl⟩ := h
    exact Rule.noTest.laid .nil rfl hg
  | some e =>
    simp only [compileTest, Gen.bind_eq_ok, Gen.pure_eq_ok] at h
    obtain ⟨xc, s₁, hx, rfl, rfl⟩ := h
    obtain ⟨xs, hx⟩ := compileExpr_laid _ hx
    exact Rule.test.laid (.part hx (.ops .nil)) (by simp [Item.code]) hg

theorem compileReturn_laid {loop : Option Loop} {t : Token} {e : Option Expr} {s s' : Supply}
    {c : List Instr} (h : ctx.compileReturn t.pos.line e s = .ok (c, s')) :
    Laid ctx (.stmt loop (.ret t e)) s c s' := by
  have hg := h
  cases e with
  | none =>
    simp only [compileReturn, Gen.pure_eq_ok] at h
    obtain ⟨rfl, rfl⟩ := h
    exact Rule.ret.laid (.ops .nil) (by simp [Item.code]) hg
  | some e =>
    simp only [compileReturn, Gen.bind_eq_ok, Gen.pure_eq_ok] at h
    obtain ⟨xc, s₁, hx, rfl, rfl⟩ := h
    obtain ⟨xs, hx⟩ := compileExpr_laid _ hx
    exact Rule.retValue.laid (.part hx (.ops .nil)) (by simp [Item.code, returnValue]) hg

mutual

theorem compileStmt_laid (x : Stmt) {loop : Option Loop} {s s' : Supply} {c : List Instr}
    (h : ctx.compileStmt loop x s = .ok (c, s')) : Laid ctx (.stmt loop x) s c s' := by
  have hg := h
  match x with
  | .assign a =>
    simp only [compileStmt, compileAssign, Gen.bind_eq_ok, Gen.pure_eq_ok] at h
    obtain ⟨xc, s₁, hx, rfl, rfl⟩ := h
    obtain ⟨xs, hx⟩ := compileExpr_laid _ hx
    exact Rule.assign.laid (.part hx (.ops .nil)) (by simp [Item.code]) hg
  | .block t ss =>
    simp only [compileStmt] at h
    obtain ⟨xs, hx⟩ := compileStmts_laid ss h
    exact Rule.block.laid (.part hx .nil) (by simp [Item.code]) hg
  | .cond t e y n =>
    simp only [compileStmt, Gen.bind_eq_ok, Gen.newLabel_eq_ok, Gen.pure_eq_ok] at h
    obtain ⟨_, _, ⟨rfl, rfl⟩, _, _, ⟨rfl, rfl⟩, ec, s₁, he, yc, s₂, hy, nc, s₃, hn, rfl, rfl⟩ := h
    obtain ⟨es, he⟩ := compileExpr_laid _ he
    obtain ⟨ys, hy⟩ := compileStmt_laid y hy
    obtain ⟨ns, hn⟩ := compileElse_laid n hn
    exact Rule.cond.laid (.part he (.ops (.part hy (.ops (.part hn (.ops .nil))))))
      (by simp [Item.code]; rfl) hg
  | .call t f as =>
    simp only [compileStmt, Gen.bind_eq_ok, Gen.pure_eq_ok] at h
    obtain ⟨xc, s₁, hx, rfl, rfl⟩ := h
    obtain ⟨xs, hx⟩ := compileExpr_laid _ hx
    exact Rule.callStmt.laid (.part hx (.ops .nil)) (by simp [Item.code]) hg
  | .print t e =>
    cases hp : (ctx.typeOf e).printer? with
    | none =>
      simp only [compileStmt, hp] at h
      exact absurd h Gen.fail_ne_ok
    | some p =>
      simp only [compileStmt, hp, Gen.bind_eq_ok, Gen.pure_eq_ok] at h
      obtain ⟨xc, s₁, hx, rfl, rfl⟩ := h
      obtain ⟨xs, hx⟩ := compileExpr_laid _ hx
      exact (Rule.print hp).laid (.ops (.part hx (.ops .nil))) (by simp [Item.code]) hg
  | .ret t v =>
    simp only [compileStmt] at h
    exact compileReturn_laid h
  | .for t i e u b =>
    simp only [compileStmt, Gen.bind_eq_ok, Gen.newLabel_eq_ok, Gen.pure_eq_ok] at h
    obtain ⟨_, _, ⟨rfl, rfl⟩, _, _, ⟨rfl, rfl⟩, _, _, ⟨rfl, rfl⟩, ic, s₁, hi, ec, s₂, he, bc, s₃, hb,
      uc, s₄, hu, rfl, rfl⟩ := h
    obtain ⟨is, hi⟩ := compileOptionalAssign_laid hi
    obtain ⟨es, he⟩ := compileTest_laid he
    obtain ⟨bs, hb⟩ := compileStmt_laid b hb
    obtain ⟨us, hu⟩ := compileOptionalAssign_laid hu
    exact Rule.for.laid (.part hi (.ops (.part he (.part hb (.ops (.part hu (.ops .nil)))))))
      (by simp [Item.code]; rfl) hg
  | .foreach t v l b =>
    cases ht : ctx.typeOf l with
    | list es =>
      simp only [compileStmt, ht, Gen.bind_eq_ok, slotOf_eq_ok, Gen.newLabel_eq_ok, Gen.newSlot_eq_ok,
        Gen.pure_eq_ok] at h
      obtain ⟨sym, _, ⟨hs, rfl⟩, _, _, ⟨rfl, rfl⟩, _, _, ⟨rfl, rfl⟩, _, _, ⟨rfl, rfl⟩, _, _, ⟨rfl, rfl⟩,
        _, _, ⟨rfl, rfl⟩, lc, s₁, hl, bc, s₂, hb, rfl, rfl⟩ := h
      obtain ⟨ls, hl⟩ := compileExpr_laid _ hl
      obtain ⟨bs, hb⟩ := compileStmt_laid b hb
      exact (Rule.foreach ht hs).laid (.part hl (.ops (.part hb (.ops .nil))))
        (by simp [Item.code, castElement, Supply.take]; rfl) hg
    | _ =>
      simp only [compileStmt, ht] at h
      exact absurd h Gen.fail_ne_ok
  | .break t =>
    simp only [compileStmt] at h
    split at h
    · simp only [Gen.pure_eq_ok] at h
      obtain ⟨rfl, rfl⟩ := h
      exact Rule.break.laid (.ops .nil) (by simp [Item.code]) hg
    · exact absurd h Gen.fail_ne_ok
  | .continue t =>
    simp only [compileStmt] at h
    split at h
    · simp only [Gen.pure_eq_ok] at h
      obtain ⟨rfl, rfl⟩ := h
      exact Rule.continue.laid (.ops .nil) (by simp [Item.code]) hg
    · exact absurd h Gen.fail_ne_ok

theorem compileStmts_laid (xs : List Stmt) {loop : Option Loop} {s s' : Supply} {c : List Instr}
    (h : ctx.compileStmts loop xs s = .ok (c, s')) : Laid ctx (.stmts loop xs) s c s' := by
  have hg := h
  match xs with
  | [] =>
    simp only [compileStmts, Gen.pure_eq_ok] at h
    obtain ⟨rfl, rfl⟩ := h
    exact Rule.noStmts.laid .nil rfl hg
  | x :: xs =>
    simp only [compileStmts, Gen.bind_eq_ok, Gen.pure_eq_ok] at h
    obtain ⟨xc, s₁, hx, rest, s₂, hxs, rfl, rfl⟩ := h
    obtain ⟨sp, hx⟩ := compileStmt_laid x hx
    obtain ⟨sps, hxs⟩ := compileStmts_laid xs hxs
    exact Rule.stmts.laid (.part hx (.part hxs .nil)) (by simp [Item.code]) hg

theorem compileElse_laid (x : Option Stmt) {loop : Option Loop} {s s' : Supply} {c : List Instr}
    (h : ctx.compileElse loop x s = .ok (c, s')) : Laid ctx (.orElse loop x) s c s' := by
  have hg := h
  match x with
  | none =>
    simp only [compileElse, Gen.pure_eq_ok] at h
    obtain ⟨rfl, rfl⟩ := h
    exact Rule.noElse.laid .nil rfl hg
  | some x =>
    simp only [compileElse] at h
    obtain ⟨sp, hx⟩ := compileStmt_laid x h
    exact Rule.orElse.laid (.part hx .nil) (by simp [Item.code]) hg

end

end Context

theorem Emits.slots_mono {ctx : Context} {q : Piece} {s s' : Supply} {code : List Instr} {sp : List Span}
    (h : Emits ctx q s code s' sp) : s.slots ≤ s'.slots := by
  induction h with
  | intro hr hp hc hg ih =>
    replace ih := Parts.iff_forall_mem.2 ih
    clear hp hg hc
    cases hr
    all_goals simp at ih ⊢ <;> omega

end ClassCompiler
