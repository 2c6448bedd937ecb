import ClassCompiler.Proofs.Compile.Fields
import ClassCompiler.Proofs.Machine.Evaluations

namespace ClassCompiler

def Op.isCall : Op → Bool
  | .invokeVirtual r => r = NativeMethod.invoke.ref
  | _ => false

/-- Whether an operation needs an object with fields or a method reference. -/
def Op.dereferences (op : Op) : Bool := op.field?.isSome || op.isCall

/-- An expression needs an object of a class, of which it accesses a member, or a method reference, which it calls. -/
inductive Context.Dereferences (ctx : Context) : Expr → Prop where
  | member {e x : Expr} {n : Ident} {cls : String} (he : e.access? = some (x, n)) (ht : ctx.typeOf x = .cls cls) :
    ctx.Dereferences e
  | call {t : Token} {f : Expr} {as : List Expr} {ps : List Ty} {r : Ty} (ht : ctx.typeOf f = .fptr ps r) :
    ctx.Dereferences (.call t f as)

/-- Whether there is a call of a bound method among operations. -/
def hasCall (os : List Op) : Bool := os.any Op.isCall

attribute [local simp] Op.isCall

section

variable {op : Op} {os os' : List Op}

@[simp] theorem NativeMethod.ref_eq_invoke_iff {n : NativeMethod} : n.ref = NativeMethod.invoke.ref ↔ n = .invoke := by
  cases n <;> decide

@[simp] theorem hasCall_nil : hasCall [] = false := rfl

@[simp] theorem hasCall_cons : hasCall (op :: os) = (op.isCall || hasCall os) := rfl

@[simp] theorem hasCall_append : hasCall (os ++ os') = (hasCall os || hasCall os') := List.any_append

@[simp] theorem hasCall_box (t : Ty) : hasCall (box t) = false := by cases t <;> simp [box]

@[simp] theorem hasCall_unbox (t : Ty) : hasCall (unbox t) = false := by cases t <;> simp [unbox]

@[simp] theorem hasCall_narrow (t : Ty) : hasCall (narrow t) = false := by cases t <;> simp [narrow]

@[simp] theorem hasCall_newArrayList : hasCall newArrayList = false := by simp [newArrayList]

@[simp] theorem hasCall_addElement : hasCall addElement = false := by simp [addElement]

@[simp] theorem hasCall_branchMerge (j : Jump) (taken : Int) (yes after : String) :
    hasCall (branchMerge j taken yes after) = false := by simp [branchMerge]

@[simp] theorem hasCall_changeBy (delta : Int) (isPre : Bool) (slot : Nat) : hasCall (changeBy delta isPre slot) = false := by
  cases isPre <;> simp [changeBy]

@[simp] theorem hasCall_changeVariable (slot : Nat) (op : UnOp) : hasCall (changeVariable slot op) = false := by
  unfold changeVariable
  split <;> simp

@[simp] theorem hasCall_copyBegin (left right : Ty) : hasCall (copyBegin left right) = false := by
  unfold copyBegin
  split <;> simp

@[simp] theorem hasCall_copyEnd (left right : Ty) : hasCall (copyEnd left right) = false := by
  unfold copyEnd
  split <;> simp

@[simp] theorem hasCall_returnValue (t : Ty) : hasCall (returnValue t) = false := by
  unfold returnValue
  split <;> simp

@[simp] theorem hasCall_castElement (t : Ty) : hasCall (castElement t) = false := by
  unfold castElement
  split <;> simp

mutual

@[simp] theorem hasCall_defaultValue (t : Ty) : hasCall (defaultValue t) = false := by
  match t with
  | .int | .bool | .string | .null | .void | .noType | .cls _ | .fptr _ _ => simp [defaultValue]
  | .list es => simp [defaultValue, hasCall_defaultElements es]

@[simp] theorem hasCall_defaultElements (es : List (String × Ty)) : hasCall (defaultElements es) = false := by
  match es with
  | [] => simp [defaultElements]
  | (_, t) :: es => simp [defaultElements, hasCall_defaultValue t, hasCall_defaultElements es]

end

theorem dereferences_eq_false (hf : fieldsOf os = []) (hc : hasCall os = false) : ∀ op ∈ os, op.dereferences = false := by
  intro op hop
  have hfield : op.field?.isSome = false := by
    cases h : op.field? with
    | none => rfl
    | some r =>
      have hr : r ∈ fieldsOf os := List.mem_filterMap.2 ⟨op, hop, h⟩
      rw [hf] at hr
      cases hr
  rw [Op.dereferences, hfield, Bool.false_or]
  simpa using List.any_eq_false.1 hc op hop

theorem MethodDecl.hasCall_localDefaults (d : MethodDecl) : hasCall (d.localDefaults.map Instr.op) = false := by
  unfold localDefaults
  induction d.locals with
  | nil => rfl
  | cons v vs ih =>
    rw [List.flatMap_cons, List.map_append, hasCall_append, ih]
    simp [onLine, Function.comp_def]

end

section

variable {ctx : Context} {q : Piece} {s s' : Supply} {code : List Instr} {sp : List Span} {j : Nat} {i : Instr}

/-- The operations of an item call a bound method only for a call. -/
def Item.CallsFor (q : Piece) : Item → Prop
  | .ops _ os => hasCall os = true → ∃ t f as, q = .expr (.call t f as)
  | .part _ _ _ _ _ => True

theorem Ty.printer?_ne_invoke {t : Ty} {n : NativeMethod} (h : t.printer? = some n) : n ≠ .invoke := by
  cases t <;> simp [Ty.printer?] at h <;> subst h <;> decide

theorem Rule.callsFor {items : List Item} (hr : Rule ctx q s items s') : ∀ i ∈ items, i.CallsFor q := by
  cases hr
  case call => simp [Item.CallsFor]
  case print hp => simp [Item.CallsFor, Ty.printer?_ne_invoke hp]
  all_goals simp [Item.CallsFor, ClassCompiler.changeElement, ClassCompiler.changeField, storeElementOps, storeField]

/-- Where code calls a bound method, it stands in the code of a call. -/
theorem Emits.callsFor (h : Emits ctx q s code s' sp) (hj : code[j]? = some i) (hi : i.op.isCall = true) :
    ∃ x ∈ sp, x.Contains j ∧ ∃ t f as, x.piece = .expr (.call t f as) := by
  induction h generalizing j with
  | @intro p s s' items code hr hp hc hg ih =>
    have hlt : j < code.length := (List.getElem?_eq_some_iff.1 hj).1
    rw [hc] at hj
    rcases getElem?_codeOf (n := 0) hj with ⟨line, os, hm, hop⟩ | ⟨q, t, c, t', xs, k, hm, hk, hcode, hsp⟩
    · obtain ⟨t, f, as, rfl⟩ := hr.callsFor _ hm (List.any_eq_true.2 ⟨_, hop, hi⟩)
      exact ⟨_, List.mem_cons_self, ⟨Nat.zero_le _, by simpa using hlt⟩, t, f, as, rfl⟩
    · obtain ⟨x, hx, hcontains, hcall⟩ := ih q t c t' xs hm hcode
      rw [Nat.zero_add] at hsp
      exact ⟨x.shift k, List.mem_cons_of_mem _ (hsp x hx), hcontains.shift hk, hcall⟩

/-- Where the code of an admitted piece needs an object or a method reference, it stands in that of an expression that
does. -/
theorem Emits.dereferences (h : Emits ctx q s code s' sp) (ha : q.Admitted ctx) (hk : ctx.Known)
    (hj : code[j]? = some i) (hi : i.op.dereferences = true) :
    ∃ x ∈ sp, x.Contains j ∧ ∃ e, x.expr? = some e ∧ ctx.Dereferences e := by
  rw [Op.dereferences, Bool.or_eq_true] at hi
  rcases hi with hfield | hcall
  · obtain ⟨r, hr⟩ := Option.isSome_iff_exists.1 hfield
    obtain ⟨x, hx, hcontains, e, he, y, n, cls, v, hacc, ht, -⟩ := h.resolves hj hr
    exact ⟨x, hx, hcontains, e, he, .member hacc ht⟩
  · obtain ⟨x, hx, hcontains, t, f, as, hpiece⟩ := h.callsFor hj hcall
    have hadmitted := h.forall_of_mem (P := fun q _ => q.Admitted ctx) ha (fun hr _ hq => hr.admitted hq) x hx
    rw [hpiece] at hadmitted
    obtain ⟨dropped, hadmits⟩ := hadmitted.admits
    obtain ⟨ps, r, hf, -⟩ := hadmits.call_types hk
    exact ⟨x, hx, hcontains, _, by rw [Span.expr?, hpiece, Piece.expr?], .call hf⟩

end

/-- A place in the code of a method stands in that of an expression of its body that needs an object of a class or a
method reference. -/
def MethodCode.DereferencesAt (o : CompileOptions) (p : Program) (mc : MethodCode) (j : Nat) : Prop :=
  ∃ c ∈ p.classes, ∃ d ∈ c.bodies, CodeFor o p c d mc ∧ ∃ (x : Span) (e : Expr),
    x.Covers ⟨p, c.name.name, d⟩ mc.code.toList ∧ x.Contains j ∧ x.expr? = some e ∧ e ∈ Stmt.evaluatedAll d.body ∧
      Context.Dereferences ⟨p, c.name.name, d⟩ e

theorem BodyCode.dereferencesAt {o : CompileOptions} {p : Program} {c : ClassDecl} {d : MethodDecl} {mc : MethodCode}
    {code start : List Instr} {j : Nat} {i : Instr} (b : BodyCode p c d code) (hc : c ∈ p.classes) (hd : d ∈ c.bodies)
    (hcode : CodeFor o p c d mc) (hmc : mc.code = (start ++ code).toArray) (ha : d.Admitted p c.name.name)
    (hj : (start ++ code)[j]? = some i) (hi : i.op.dereferences = true) :
    j < start.length ∨ mc.DereferencesAt o p j := by
  have hinside : ∀ x ∈ b.spansAfter start, x.Contains j →
      (∃ e, x.expr? = some e ∧ Context.Dereferences ⟨p, c.name.name, d⟩ e) → mc.DereferencesAt o p j := by
    rintro x hx hcontains ⟨e, he, hneeds⟩
    have hexprs : (b.spansAfter start).filterMap Span.expr? = Stmt.evaluatedAll d.body :=
      (b.filterMap_spansAfter start Span.shift_expr?).trans b.emits.evaluated
    exact ⟨c, hc, d, hd, hcode, x, e, by simpa [hmc] using b.covers_spansAfter start x hx, hcontains, he,
      hexprs ▸ List.mem_filterMap.2 ⟨x, hx, he⟩, hneeds⟩
  rw [b.code_eq, List.getElem?_append, List.append_assoc, List.getElem?_append, List.getElem?_append] at hj
  split at hj
  · exact .inl ‹_›
  split at hj
  · exact absurd hi (by simp [dereferences_eq_false d.fieldsOf_localDefaults d.hasCall_localDefaults i.op
      (List.mem_map_of_mem (List.mem_of_getElem? hj))])
  split at hj
  · obtain ⟨x, hx, hcontains, hneeds⟩ := b.emits.dereferences ha.piece ha.known hj hi
    exact .inr (hinside _ (List.mem_map_of_mem hx) ((hcontains.shift (by omega)).shift (by omega)) hneeds)
  · split at hj
    · simp at hj
    · simp only [onLine, List.map_cons, List.map_nil, List.getElem?_singleton, Option.ite_none_right_eq_some] at hj
      rw [← Option.some.inj hj.2] at hi
      cases hi

end ClassCompiler
