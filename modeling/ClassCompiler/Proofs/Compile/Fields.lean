import ClassCompiler.Proofs.Boxing.Methods
import ClassCompiler.Proofs.Compile.Spans

namespace ClassCompiler

@[simp] def Op.field? : Op → Option MemberRef
  | .getField r => some r
  | .putField r => some r
  | _ => none

def fieldsOf (os : List Op) : List MemberRef := os.filterMap Op.field?

section

variable {op : Op} {os os' : List Op}

@[simp] theorem fieldsOf_nil : fieldsOf [] = [] := rfl

@[simp] theorem fieldsOf_cons : fieldsOf (op :: os) = op.field?.toList ++ fieldsOf os := by
  rw [fieldsOf, List.filterMap_cons]
  cases op.field? <;> rfl

@[simp] theorem fieldsOf_append : fieldsOf (os ++ os') = fieldsOf os ++ fieldsOf os' := List.filterMap_append

@[simp] theorem fieldsOf_box (t : Ty) : fieldsOf (box t) = [] := by cases t <;> rfl

@[simp] theorem fieldsOf_unbox (t : Ty) : fieldsOf (unbox t) = [] := by cases t <;> rfl

@[simp] theorem fieldsOf_narrow (t : Ty) : fieldsOf (narrow t) = [] := by cases t <;> rfl

@[simp] theorem fieldsOf_newArrayList : fieldsOf newArrayList = [] := rfl

@[simp] theorem fieldsOf_addElement : fieldsOf addElement = [] := rfl

@[simp] theorem fieldsOf_branchMerge (j : Jump) (taken : Int) (yes after : String) :
    fieldsOf (branchMerge j taken yes after) = [] := rfl

@[simp] theorem fieldsOf_changeBy (delta : Int) (isPre : Bool) (slot : Nat) : fieldsOf (changeBy delta isPre slot) = [] := by
  cases isPre <;> rfl

@[simp] theorem fieldsOf_copyBegin (left right : Ty) : fieldsOf (copyBegin left right) = [] := by
  unfold copyBegin
  split <;> rfl

@[simp] theorem fieldsOf_copyEnd (left right : Ty) : fieldsOf (copyEnd left right) = [] := by
  unfold copyEnd
  split <;> rfl

@[simp] theorem fieldsOf_callResultOps (t : Ty) : fieldsOf (Context.callResultOps t) = [] := by
  cases t with
  | fptr ps r => cases h : r.isVoid <;> simp [Context.callResultOps, h]
  | _ => rfl

@[simp] theorem fieldsOf_returnValue (t : Ty) : fieldsOf (returnValue t) = [] := by
  unfold returnValue
  split <;> simp

@[simp] theorem fieldsOf_castElement (t : Ty) : fieldsOf (castElement t) = [] := by
  unfold castElement
  split <;> rfl

@[simp] theorem fieldsOf_changeVariable (slot : Nat) (op : UnOp) : fieldsOf (changeVariable slot op) = [] := by
  cases h : op.isPre <;> simp [changeVariable, h]

/-- A field is read and then stored, both through one access. -/
@[simp] theorem fieldsOf_changeField (obj val : Nat) (field : MemberRef) (op : UnOp) :
    fieldsOf (changeField obj val field op) = [field, field] := by
  simp [changeField]

@[simp] theorem fieldsOf_storeField (left right : Ty) (field : MemberRef) :
    fieldsOf (storeField left right field) = [field, field] := by
  simp [storeField]

mutual

@[simp] theorem fieldsOf_defaultValue (t : Ty) : fieldsOf (defaultValue t) = [] := by
  match t with
  | .int | .bool | .string | .null | .void | .noType | .cls _ | .fptr _ _ => simp [defaultValue]
  | .list es => simp [defaultValue, fieldsOf_defaultElements es]

@[simp] theorem fieldsOf_defaultElements (es : List (String × Ty)) : fieldsOf (defaultElements es) = [] := by
  match es with
  | [] => rfl
  | (_, t) :: es => simp [defaultElements, fieldsOf_defaultValue t, fieldsOf_defaultElements es]

end

end

/-- The defaults that a constructor stores go to the fields of its class. -/
theorem ClassDecl.fieldsOf_prologue (c : ClassDecl) (line : Int) : fieldsOf ((c.prologue line).map Instr.op) =
    c.fields.map fun v => ⟨c.name.name, v.name.name, v.type.descriptor⟩ := by
  have hdefaults : ∀ vs : List VarDecl, fieldsOf (vs.flatMap c.fieldDefault) =
      vs.map fun v => ⟨c.name.name, v.name.name, v.type.descriptor⟩ := fun vs => by
    induction vs with
    | nil => rfl
    | cons v vs ih => simp [ClassDecl.fieldDefault, ih]
  simp [ClassDecl.prologue, onLine, Function.comp_def, hdefaults]

theorem MethodDecl.fieldsOf_localDefaults (m : MethodDecl) : fieldsOf (m.localDefaults.map Instr.op) = [] := by
  unfold MethodDecl.localDefaults
  induction m.locals with
  | nil => rfl
  | cons v vs ih =>
    rw [List.flatMap_cons, List.map_append, fieldsOf_append, ih]
    simp [onLine, Function.comp_def]

def Expr.member? : Expr → Option (Expr × Ident)
  | .member _ x n => some (x, n)
  | _ => none

/-- The object and the name of the member that an expression reads, changes by one or assigns to. -/
def Expr.access? : Expr → Option (Expr × Ident)
  | .unary _ op x => if op.isIncDec then x.member? else none
  | .binary _ .assign l _ => l.member?
  | e => e.member?

theorem Expr.access?_operation {op : BinOp} (ho : op ≠ .assign) (t : Token) (l r : Expr) :
    (Expr.binary t op l r).access? = none := by
  cases op <;> first | exact absurd rfl ho | rfl

/-- An expression accesses a field: the class that its object has in the tree has or inherits one of that name, and the
owner is the class that declares it. -/
def Context.Resolves (ctx : Context) (e : Expr) (r : MemberRef) : Prop :=
  ∃ x n cls v, e.access? = some (x, n) ∧ ctx.typeOf x = .cls cls ∧ ctx.table.field? cls n.name = some (r.owner, v) ∧
    r.name = n.name

section

variable {ctx : Context} {p : Piece} {s s' : Supply} {code : List Instr} {sp : List Span}

/-- The accesses that an item adds itself are those of the expression. -/
def Item.Resolves (ctx : Context) (p : Piece) : Item → Prop
  | .ops _ os => ∀ r ∈ fieldsOf os, ∃ e, p = .expr e ∧ ctx.Resolves e r
  | .part _ _ _ _ _ => True

theorem Rule.resolves {items : List Item} (hr : Rule ctx p s items s') : ∀ i ∈ items, i.Resolves ctx p := by
  cases hr
  case field ht hf => simpa [Item.Resolves] using ⟨_, _, _, _, rfl, ht, hf, rfl⟩
  case changeField ho ht hf => simpa [Item.Resolves] using ⟨_, _, _, _, if_pos ho, ht, hf, rfl⟩
  case assignField hl ht hf =>
    subst hl
    simpa [Item.Resolves] using ⟨_, _, _, _, rfl, ht, hf, rfl⟩
  all_goals simp [Item.Resolves, ClassCompiler.changeElement, storeElementOps]

/-- Where code accesses a field, it stands in the code of an expression that accesses it. -/
theorem Emits.resolves (h : Emits ctx p s code s' sp) {j : Nat} {i : Instr} {r : MemberRef} (hj : code[j]? = some i)
    (hi : i.op.field? = some r) : ∃ x ∈ sp, x.Contains j ∧ ∃ e, x.expr? = some e ∧ ctx.Resolves e r := by
  induction h generalizing j with
  | @intro p s s' items code hr hp hc hg ih =>
    have hlt : j < code.length := (List.getElem?_eq_some_iff.1 hj).1
    rw [hc] at hj
    rcases getElem?_codeOf (n := 0) hj with ⟨line, os, hm, hop⟩ | ⟨q, t, c, t', xs, k, hm, hk, hcode, hsp⟩
    · obtain ⟨e, rfl, he⟩ := hr.resolves _ hm r (List.mem_filterMap.2 ⟨_, hop, hi⟩)
      exact ⟨_, List.mem_cons_self, ⟨Nat.zero_le _, by simpa using hlt⟩, e, rfl, he⟩
    · obtain ⟨x, hx, hcontains, e, he, hres⟩ := ih q t c t' xs hm hcode
      rw [Nat.zero_add] at hsp
      exact ⟨x.shift k, List.mem_cons_of_mem _ (hsp x hx), hcontains.shift hk, e, he, hres⟩

/-- The code of an expression that accesses a field does so. -/
theorem Emits.accesses {e : Expr} (h : Emits ctx (.expr e) s code s' sp) {r : MemberRef} (hr : ctx.Resolves e r) :
    ∃ q ∈ fieldsOf (code.map Instr.op), q.owner = r.owner ∧ q.name = r.name := by
  obtain ⟨x, n, cls, v, hacc, ht, hf, hn⟩ := hr
  cases h with
  | intro hr hparts hc hg =>
    clear hparts hg
    subst hc
    cases hr
    case logical ho => simp [Expr.access?_operation (BinOp.ne_assign_of_shortcut? ho)] at hacc
    case arith ho => simp [Expr.access?_operation (BinOp.ne_assign_of_arith? ho)] at hacc
    case compare ho => simp [Expr.access?_operation (BinOp.ne_assign_of_isComparison ho)] at hacc
    case field | changeField =>
      simp_all [Expr.access?, Expr.member?, Item.code, onLine, Function.comp_def]
    case assignField =>
      simp_all [Expr.access?, Expr.member?, Item.code, onLine, Function.comp_def]
      exact ⟨_, .inr (.inr rfl), rfl, rfl⟩
    all_goals simp_all [Expr.access?, Expr.member?, UnOp.isIncDec]

end

/-- The accesses in the code of a body: those of an expression stand at its span, and there are no others but the
defaults that the fields of the class get. -/
structure FieldsPlaced (ctx : Context) (c : ClassDecl) (code : Code) (spans : List Span) : Prop where
  exprs : spans.filterMap Span.expr? = Stmt.evaluatedAll ctx.method.body
  covers : ∀ x ∈ spans, x.Covers ctx code.toList
  resolved {j : Nat} {i : Instr} {r : MemberRef} (hi : code[j]? = some i) (hr : i.op.field? = some r) :
    (∃ v ∈ c.fields, r = ⟨c.name.name, v.name.name, v.type.descriptor⟩) ∨
      ∃ x ∈ spans, x.Contains j ∧ ∃ e, x.expr? = some e ∧ ctx.Resolves e r
  accesses {x : Span} {e : Expr} {r : MemberRef} (hx : x ∈ spans) (he : x.expr? = some e) (hr : ctx.Resolves e r) :
    ∃ j i q, x.Contains j ∧ code[j]? = some i ∧ i.op.field? = some q ∧ q.owner = r.owner ∧ q.name = r.name

theorem Span.Covers.accesses {ctx : Context} {code : List Instr} {x : Span} {e : Expr} {r : MemberRef}
    (h : x.Covers ctx code) (he : x.expr? = some e) (hr : ctx.Resolves e r) :
    ∃ j i q, x.Contains j ∧ code[j]? = some i ∧ i.op.field? = some q ∧ q.owner = r.owner ∧ q.name = r.name := by
  obtain ⟨before, inner, rest, after, rfl, hstart, hlen, hg⟩ := h
  have hpiece : x.piece = .expr e := by
    cases hp : x.piece <;> simp_all [Span.expr?, Piece.expr?]
  rw [hpiece] at hg
  obtain ⟨sp, hemits⟩ := Context.compileExpr_laid e hg
  obtain ⟨q, hq, howner, hname⟩ := hemits.accesses hr
  obtain ⟨op, hop, hfield⟩ := List.mem_filterMap.1 hq
  obtain ⟨i, hi, rfl⟩ := List.mem_map.1 hop
  obtain ⟨k, hk⟩ := List.mem_iff_getElem?.1 hi
  have hlt : k < inner.length := (List.getElem?_eq_some_iff.1 hk).1
  refine ⟨before.length + k, i, q, ⟨by omega, by omega⟩, ?_, hfield, howner, hname⟩
  rw [List.append_assoc, List.getElem?_append_right (Nat.le_add_right _ _), Nat.add_sub_cancel_left,
    List.getElem?_append_left hlt, hk]

section

variable {o : CompileOptions} {p : Program} {c : ClassDecl} {m : MethodDecl} {code : List Instr}

theorem BodyCode.fieldsPlaced (b : BodyCode p c m code) (start : List Instr)
    (hs : ∀ r ∈ fieldsOf (start.map Instr.op), ∃ v ∈ c.fields, r = ⟨c.name.name, v.name.name, v.type.descriptor⟩) :
    FieldsPlaced ⟨p, c.name.name, m⟩ c (start ++ code).toArray (b.spansAfter start) := by
  have hcovers : ∀ x ∈ b.spansAfter start, x.Covers ⟨p, c.name.name, m⟩ (start ++ code) := b.covers_spansAfter start
  refine ⟨?_, by simpa using hcovers, fun {j i r} hi hr => ?_, fun {x e r} hx he hr => ?_⟩
  · rw [b.filterMap_spansAfter start Span.shift_expr?]
    exact b.emits.evaluated
  · have hmem : ∀ {is : List Instr} {k : Nat}, is[k]? = some i → r ∈ fieldsOf (is.map Instr.op) := fun hk =>
      List.mem_filterMap.2 ⟨i.op, List.mem_map_of_mem (List.mem_of_getElem? hk), hr⟩
    rw [List.getElem?_toArray, b.code_eq, List.getElem?_append, List.append_assoc, List.getElem?_append,
      List.getElem?_append] at hi
    split at hi
    · exact .inl (hs r (hmem hi))
    split at hi
    · have hnone := hmem hi
      rw [m.fieldsOf_localDefaults] at hnone
      cases hnone
    split at hi
    · obtain ⟨x, hx, hcontains, hres⟩ := b.emits.resolves hi hr
      exact .inr ⟨_, List.mem_map_of_mem hx, (hcontains.shift (by omega)).shift (by omega), hres⟩
    · have hret : fieldsOf ((if m.endsWithReturn then [] else onLine m.token.pos.line [.ret]).map Instr.op) = [] := by
        split <;> rfl
      have hnone := hmem hi
      rw [hret] at hnone
      cases hnone
  · simpa using (hcovers x hx).accesses he hr

theorem CodeFor.fieldsPlaced {mc : MethodCode} (h : CodeFor o p c m mc) :
    ∃ spans, FieldsPlaced ⟨p, c.name.name, m⟩ c mc.code spans := by
  rcases h with ⟨code, ⟨b, -⟩, rfl⟩ | ⟨code, ⟨b, -⟩, rfl⟩
  · exact ⟨_, b.fieldsPlaced [] (by simp)⟩
  · refine ⟨_, b.fieldsPlaced _ fun r hr => ?_⟩
    rw [c.fieldsOf_prologue] at hr
    obtain ⟨v, hv, rfl⟩ := List.mem_map.1 hr
    exact ⟨v, hv, rfl⟩

/-- A method without a body accesses fields to give them their defaults only. -/
theorem Made.fields {mc : MethodCode} (h : Made o c mc) : ∀ r ∈ fieldsOf (mc.code.toList.map Instr.op),
    ∃ v ∈ c.fields, r = ⟨c.name.name, v.name.name, v.type.descriptor⟩ := by
  rcases h with rfl | h
  · intro r hr
    have hcode : fieldsOf ((c.defaultConstructor o).code.toList.map Instr.op) =
        c.fields.map fun v => ⟨c.name.name, v.name.name, v.type.descriptor⟩ := by
      rw [ClassDecl.defaultConstructor, CompileOptions.method, List.map_append, fieldsOf_append, c.fieldsOf_prologue]
      exact List.append_nil _
    rw [hcode] at hr
    obtain ⟨v, hv, rfl⟩ := List.mem_map.1 hr
    exact ⟨v, hv, rfl⟩
  · unfold ClassDecl.entryPoint at h
    split at h
    · obtain rfl := List.mem_singleton.1 h
      simp [CompileOptions.method, ClassDecl.entryCode, onLine]
    · cases h

/-- A class of the program declares a field of that name. -/
def Program.Declares (p : Program) (owner name : String) : Prop :=
  ∃ c ∈ p.classes, c.name.name = owner ∧ ∃ v ∈ c.fields, v.name.name = name

theorem Context.Resolves.declares {ctx : Context} {e : Expr} {r : MemberRef} (h : ctx.Resolves e r) :
    ctx.table.Declares r.owner r.name := by
  obtain ⟨x, n, cls, v, -, -, hf, hn⟩ := h
  obtain ⟨c, hc, howner, hv, hname⟩ := Program.field?_mem hf
  exact ⟨c, hc, howner, v, hv, hname.trans hn.symm⟩

end

end ClassCompiler
