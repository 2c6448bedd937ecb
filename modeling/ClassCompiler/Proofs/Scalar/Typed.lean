import ClassCompiler.Proofs.Scalar.Meaning

namespace ClassCompiler

/-- Scalar expressions, by the way they are evaluated. -/
inductive ScalarExpr : Expr → Prop where
  | int (t : Token) (v : Int) : ScalarExpr (.int t v)
  | bool (t : Token) (b : Bool) : ScalarExpr (.bool t b)
  | string (t : Token) (s : String) : ScalarExpr (.string t s)
  | ident (v : Ident) : ScalarExpr (.ident v)
  | assign (t : Token) (v : Ident) {r : Expr} (hr : ScalarExpr r) :
    ScalarExpr (.binary t .assign (.ident v) r)
  | logical (t : Token) {op : BinOp} {l r : Expr} (ho : op.isLogical = true) (hl : ScalarExpr l)
    (hr : ScalarExpr r) : ScalarExpr (.binary t op l r)
  | operation (t : Token) {op : BinOp} {l r : Expr} (ha : op ≠ .assign) (ho : op.isLogical = false)
    (hl : ScalarExpr l) (hr : ScalarExpr r) : ScalarExpr (.binary t op l r)
  | negation (t : Token) {op : UnOp} {x : Expr} (ho : op.isIncDec = false) (hx : ScalarExpr x) :
    ScalarExpr (.unary t op x)
  | change (t : Token) {op : UnOp} (v : Ident) (ho : op.isIncDec = true) :
    ScalarExpr (.unary t op (.ident v))

theorem Expr.scalarExpr (e : Expr) (h : e.isScalar = true) : ScalarExpr e := by
  match e with
  | .int t v => exact .int t v
  | .bool t b => exact .bool t b
  | .string t s => exact .string t s
  | .ident v => exact .ident v
  | .binary t op l r =>
    have hl : l.isScalar = true → ScalarExpr l := fun h => scalarExpr l h
    have hr : r.isScalar = true → ScalarExpr r := fun h => scalarExpr r h
    by_cases ha : op = .assign
    · subst ha
      simp only [isScalar, Bool.and_eq_true] at h
      cases l with
      | ident v => exact .assign t v (hr h.2)
      | _ => simp [isIdent] at h
    · have hs : l.isScalar = true ∧ r.isScalar = true := by
        cases op <;> simp_all [isScalar]
      cases ho : op.isLogical with
      | true => exact .logical t ho (hl hs.1) (hr hs.2)
      | false => exact .operation t ha ho (hl hs.1) (hr hs.2)
  | .unary t op x =>
    have hx : x.isScalar = true → ScalarExpr x := fun h => scalarExpr x h
    cases ho : op.isIncDec with
    | true =>
      simp only [isScalar, ho, if_true] at h
      cases x with
      | ident v => exact .change t v ho
      | _ => simp [isIdent] at h
    | false =>
      simp only [isScalar, ho, Bool.false_eq_true, if_false] at h
      exact .negation t ho (hx h)
  | .member _ _ _ | .index _ _ _ | .call _ _ _ | .new _ _ _ | .this _ | .list _ _ | .null _ =>
    simp [isScalar] at h

namespace Expr

variable {t : Token} {l r x : Expr} {env : Env}

theorem eval_operation {op : BinOp} (ha : op ≠ .assign) (hl : op.isLogical = false) :
    (Expr.binary t op l r).eval env = do
      let x ← l.eval env
      let y ← r.eval x.2
      let z ← op.apply x.1 y.1
      return (z, y.2) := by
  cases op <;> simp_all [BinOp.isLogical, eval]

theorem eval_change {op : UnOp} {v : Ident} (ho : op.isIncDec = true) :
    (Expr.unary t op (.ident v)).eval env = op.change v.name env := by
  simp [eval, ho]

theorem eval_negation {op : UnOp} (ho : op.isIncDec = false) :
    (Expr.unary t op x).eval env = do
      let y ← x.eval env
      let z ← op.apply y.1
      return (z, y.2) := by
  simp [eval, ho]

end Expr

def Scalar.HasTy : Scalar → Ty → Prop
  | .int _, .int => True
  | .bool _, .bool => True
  | .str _, .string => True
  | _, _ => False

theorem Scalar.hasTy_ofTy {t : Ty} (h : t.isScalar = true) : (ofTy t).HasTy t := by
  cases t <;> simp_all [Ty.isScalar, ofTy, HasTy]

theorem Scalar.HasTy.cases {v : Scalar} {t : Ty} (h : v.HasTy t) :
    (∃ a, v = .int a ∧ t = .int) ∨ (∃ b, v = .bool b ∧ t = .bool) ∨ ∃ s, v = .str s ∧ t = .string := by
  cases v <;> cases t <;> simp_all [HasTy]

theorem Ty.known_of_isScalar {t : Ty} (h : t.isScalar = true) : t.Known := by
  cases t <;> simp_all [Ty.isScalar, Ty.Known]

theorem Scalar.HasTy.isScalar {v : Scalar} {t : Ty} (h : v.HasTy t) : t.isScalar = true := by
  obtain ⟨a, -, rfl⟩ | ⟨b, -, rfl⟩ | ⟨s, -, rfl⟩ := h.cases <;> rfl

theorem Scalar.HasTy.known {v : Scalar} {t : Ty} (h : v.HasTy t) : t.Known :=
  Ty.known_of_isScalar h.isScalar

theorem Scalar.HasTy.int {v : Scalar} (h : v.HasTy .int) : ∃ a, v = .int a := by
  cases v <;> simp_all [HasTy]

theorem Scalar.HasTy.bool {v : Scalar} (h : v.HasTy .bool) : ∃ b, v = .bool b := by
  cases v <;> simp_all [HasTy]

theorem Scalar.HasTy.string {v : Scalar} (h : v.HasTy .string) : ∃ s, v = .str s := by
  cases v <;> simp_all [HasTy]

/-- Every variable of a method holds a value of its type. -/
def EnvTyped (m : MethodDecl) (env : Env) : Prop :=
  ∀ n sym, m.symbol? n = some sym → (env n).HasTy sym.type

theorem EnvTyped.vars {m : MethodDecl} {env : Env} (h : EnvTyped m env) :
    ∀ n sym, m.symbol? n = some sym → sym.type.isScalar = true := fun n sym hs => (h n sym hs).isScalar

theorem EnvTyped.set {m : MethodDecl} {env : Env} (h : EnvTyped m env) {n : String} {v : Scalar}
    (hv : ∀ sym, m.symbol? n = some sym → v.HasTy sym.type) : EnvTyped m (env.set n v) := by
  intro k sym hk
  unfold Env.set
  split
  · next hkn => exact hv sym (hkn ▸ hk)
  · exact h k sym hk

/-- An evaluation that gives a value of a type and keeps the environment typed, or divides by zero. -/
def Evaluates (m : MethodDecl) (t : Ty) (r : Except Stop (Scalar × Env)) : Prop :=
  (∃ v env, r = .ok (v, env) ∧ v.HasTy t ∧ EnvTyped m env) ∨ r = .error .divisionByZero

theorem Evaluates.ok {m : MethodDecl} {t : Ty} {r : Except Stop (Scalar × Env)} {x : Scalar × Env}
    (h : Evaluates m t r) (hr : r = .ok x) : x.1.HasTy t ∧ EnvTyped m x.2 := by
  rcases h with ⟨v, env, hv, ht, henv⟩ | hv
  · obtain rfl := Except.ok.inj (hr.symm.trans hv)
    exact ⟨ht, henv⟩
  · cases hr.symm.trans hv

theorem BinOp.ne_assign_of_isLogical {op : BinOp} (ho : op.isLogical = true) : op ≠ .assign := by
  rintro rfl
  simp [BinOp.isLogical] at ho

theorem BinOp.apply_typed {ctx : Context} {op : BinOp} {pos : Pos} {x y : Scalar} {t u : Ty}
    (ha : op ≠ .assign) (hl : op.isLogical = false) (hx : x.HasTy t) (hy : y.HasTy u)
    (hc : (ctx.operation pos op t u).issues = []) :
    (∃ v, op.apply x y = .ok v ∧ v.HasTy (ctx.operation pos op t u).type) ∨
      op.apply x y = .error .divisionByZero := by
  cases op with
  | assign => exact absurd rfl ha
  | and | or => simp [isLogical] at hl
  | eq | ne =>
    simp only [Context.operation] at hc ⊢
    rw [Context.equality_known hx.known.isNoType hy.known.isNoType hc]
    exact .inl ⟨_, rfl, trivial⟩
  | add | sub | mul | div | mod | lt | gt =>
    simp only [Context.operation] at hc ⊢
    obtain ⟨ht, hwx, hwy⟩ := Context.operands_known hx.known.isNoType hy.known.isNoType hc
    obtain ⟨a, rfl, rfl⟩ | ⟨b, rfl, rfl⟩ | ⟨s, rfl, rfl⟩ := hx.cases <;> simp [Ty.isInt] at hwx
    obtain ⟨b, rfl, rfl⟩ | ⟨b, rfl, rfl⟩ | ⟨s, rfl, rfl⟩ := hy.cases <;> simp [Ty.isInt] at hwy
    rw [ht]
    simp only [apply]
    try split
    all_goals simp [Scalar.HasTy, Scalar.wrap]

namespace Context

variable {ctx : Context} {env : Env}

theorem hasTy_of_isSubtype {v : Scalar} {t u : Ty} (h : v.HasTy t) (hs : ctx.table.isSubtype t u = true) :
    v.HasTy u := by
  obtain ⟨a, rfl, rfl⟩ | ⟨b, rfl, rfl⟩ | ⟨s, rfl, rfl⟩ := h.cases <;> cases u <;>
    simp_all [Program.isSubtype, Ty.isSubtype, Scalar.HasTy]

theorem inferCall_ident {v : Ident} {dropped : Bool} (h : (ctx.inferCall dropped (.ident v)).issues = []) :
    ∃ sym, ctx.method.symbol? v.name = some sym ∧ (ctx.inferCall dropped (.ident v)).type = sym.type := by
  simp only [inferCall, identifier] at h ⊢
  split at h
  · next sym hs => exact ⟨sym, hs, by simp [Typed.place]⟩
  · simp [Typed.place] at h

theorem operation_logical {op : BinOp} (ho : op.isLogical = true) (pos : Pos) (a b : Ty) :
    ctx.operation pos op a b = operands pos op Ty.isBool .bool a b := by
  cases op <;> simp_all [BinOp.isLogical, operation]

theorem operation_scalar {op : BinOp} {pos : Pos} {a b : Ty} (ha : op ≠ .assign) (hk : a.Known)
    (hk' : b.Known) (hc : (ctx.operation pos op a b).issues = []) :
    (ctx.operation pos op a b).type.isScalar = true := by
  cases op with
  | assign => exact absurd rfl ha
  | eq | ne =>
    simp only [operation] at hc ⊢
    rw [equality_known hk.isNoType hk'.isNoType hc]
    rfl
  | _ =>
    simp only [operation] at hc ⊢
    rw [(operands_known hk.isNoType hk'.isNoType hc).1]
    rfl

theorem operands_bool {op : BinOp} {pos : Pos} {a b : Ty} (ha : a.isScalar = true) (hb : b.isScalar = true)
    (hc : (operands pos op Ty.isBool .bool a b).issues = []) : a = .bool ∧ b = .bool := by
  obtain ⟨-, hwa, hwb⟩ := operands_known (Ty.known_of_isScalar ha).isNoType (Ty.known_of_isScalar hb).isNoType hc
  refine ⟨?_, ?_⟩
  · cases a <;> simp_all [Ty.isBool]
  · cases b <;> simp_all [Ty.isBool]

/-- The static type of an accepted scalar expression is scalar. -/
theorem inferCall_scalar {e : Expr} (hs : ScalarExpr e) {dropped : Bool}
    (hv : ∀ n sym, ctx.method.symbol? n = some sym → sym.type.isScalar = true)
    (hc : (ctx.inferCall dropped e).issues = []) : (ctx.inferCall dropped e).type.isScalar = true := by
  induction hs generalizing dropped with
  | int | bool | string => rfl
  | ident v =>
    obtain ⟨sym, hsym, ht⟩ := inferCall_ident hc
    rw [ht]
    exact hv _ sym hsym
  | assign t v hr ih =>
    simp only [inferCall, List.append_eq_nil_iff] at hc ⊢
    have hvar : (ctx.inferCall false (.ident v)).issues = [] := hc.1.1.1
    obtain ⟨sym, hsym, ht⟩ := inferCall_ident hvar
    have hknown : (ctx.identifier v).type.Known := by
      have := Ty.known_of_isScalar (hv _ sym hsym)
      rwa [← ht] at this
    have hr := ih hc.1.2
    rw [(assignment_known hknown.isNoType (Ty.known_of_isScalar hr).isNoType hc.1.1.2 hc.2).2.2]
    exact hr
  | logical t ho hl hr ihl ihr =>
    rw [inferCall_operation (BinOp.ne_assign_of_isLogical ho)] at hc ⊢
    simp only [List.append_eq_nil_iff] at hc
    exact operation_scalar (BinOp.ne_assign_of_isLogical ho) (Ty.known_of_isScalar (ihl hc.1.1))
      (Ty.known_of_isScalar (ihr hc.1.2)) hc.2
  | operation t ha ho hl hr ihl ihr =>
    rw [inferCall_operation ha] at hc ⊢
    simp only [List.append_eq_nil_iff] at hc
    exact operation_scalar ha (Ty.known_of_isScalar (ihl hc.1.1)) (Ty.known_of_isScalar (ihr hc.1.2)) hc.2
  | negation t ho hx ih =>
    simp only [inferCall, ho, Bool.false_eq_true, if_false, List.append_eq_nil_iff] at hc ⊢
    have hx := ih hc.1
    rw [(negation_known (Ty.known_of_isScalar hx).isNoType hc.2).1]
    exact hx
  | change t v ho =>
    simp only [inferCall, ho, if_true, List.append_eq_nil_iff] at hc ⊢
    have hvar : (ctx.inferCall false (.ident v)).issues = [] := hc.1
    obtain ⟨sym, hsym, ht⟩ := inferCall_ident hvar
    have hknown : (ctx.identifier v).type.Known := by
      have := Ty.known_of_isScalar (hv _ sym hsym)
      rwa [← ht] at this
    rw [(increment_known hknown.isNoType hc.2).2.2]
    rfl

theorem eval_typed {e : Expr} (hs : ScalarExpr e) {dropped : Bool}
    (hc : (ctx.inferCall dropped e).issues = []) (henv : EnvTyped ctx.method env) :
    Evaluates ctx.method (ctx.inferCall dropped e).type (e.eval env) := by
  -- By induction on the expression, for every environment: an operand leaves the next one a typed environment.
  induction hs generalizing env dropped with
  | int t v => exact .inl ⟨_, _, rfl, trivial, henv⟩
  | bool t b => exact .inl ⟨_, _, rfl, trivial, henv⟩
  | string t s => exact .inl ⟨_, _, rfl, trivial, henv⟩
  | ident v =>
    obtain ⟨sym, hsym, ht⟩ := inferCall_ident hc
    exact .inl ⟨_, _, rfl, ht ▸ henv _ sym hsym, henv⟩
  | assign t v hr ih =>
    simp only [inferCall, List.append_eq_nil_iff] at hc
    have hvar : (ctx.inferCall false (.ident v)).issues = [] := hc.1.1.1
    obtain ⟨sym, hsym, ht⟩ := inferCall_ident hvar
    rcases ih hc.1.2 henv with ⟨x, env', hr, hx, henv'⟩ | hr
    · have hknown : (ctx.identifier v).type.Known := by
        have := (henv _ sym hsym).known
        rwa [← ht] at this
      obtain ⟨-, hsub, hty⟩ := assignment_known hknown.isNoType hx.known.isNoType hc.1.1.2 hc.2
      refine .inl ⟨x, env'.set v.name x, by simp [Expr.eval, hr, bind, Except.bind, pure, Except.pure], ?_,
        henv'.set fun sym' hsym' => ?_⟩
      · simp only [inferCall]
        rwa [hty]
      · obtain rfl : sym = sym' := Option.some.inj (hsym.symm.trans hsym')
        rw [← ht]
        exact hasTy_of_isSubtype hx hsub
    · exact .inr (by simp [Expr.eval, hr, bind, Except.bind])
  | @logical t op l r ho hl hr ihl ihr =>
    have hv := henv.vars
    rw [inferCall_operation (BinOp.ne_assign_of_isLogical ho), operation_logical ho] at hc ⊢
    simp only [List.append_eq_nil_iff] at hc
    obtain ⟨hlt, hrt⟩ := operands_bool (inferCall_scalar hl hv hc.1.1) (inferCall_scalar hr hv hc.1.2) hc.2
    simp only [hlt, hrt, operands_known (l := .bool) (r := .bool) rfl rfl (hlt ▸ hrt ▸ hc.2)]
    have ihl := ihl hc.1.1 henv
    rw [hlt] at ihl
    rcases ihl with ⟨x, env', hx, htx, henv'⟩ | hx
    · obtain ⟨b, rfl⟩ := htx.bool
      have ihr := ihr hc.1.2 henv'
      rw [hrt] at ihr
      have hshort : ∀ c : Bool, Evaluates ctx.method .bool (.ok (.bool c, env')) :=
        fun c => .inl ⟨_, _, rfl, trivial, henv'⟩
      cases op <;> simp [BinOp.isLogical] at ho <;> cases b <;>
        simpa [Expr.eval, hx, bind, Except.bind, Scalar.test] using by first | exact hshort _ | exact ihr
    · refine .inr ?_
      cases op <;> simp [BinOp.isLogical] at ho <;> simp [Expr.eval, hx, bind, Except.bind]
  | @operation t op l r ha ho hl hr ihl ihr =>
    rw [inferCall_operation ha] at hc ⊢
    simp only [List.append_eq_nil_iff] at hc
    rw [Expr.eval_operation ha ho]
    rcases ihl hc.1.1 henv with ⟨x, env', hx, htx, henv'⟩ | hx
    · rcases ihr hc.1.2 henv' with ⟨y, env'', hy, hty, henv''⟩ | hy
      · rcases BinOp.apply_typed ha ho htx hty hc.2 with ⟨v, hv, htv⟩ | hv
        · exact .inl ⟨v, env'', by simp [hx, hy, hv, bind, Except.bind, pure, Except.pure], htv, henv''⟩
        · exact .inr (by simp [hx, hy, hv, bind, Except.bind])
      · exact .inr (by simp [hx, hy, bind, Except.bind])
    · exact .inr (by simp [hx, bind, Except.bind])
  | @negation t op x ho hx ih =>
    simp only [inferCall, ho, Bool.false_eq_true, if_false, List.append_eq_nil_iff] at hc ⊢
    rw [Expr.eval_negation ho]
    rcases ih hc.1 henv with ⟨y, env', hy, hty, henv'⟩ | hy
    · obtain ⟨ht, hop⟩ := negation_known hty.known.isNoType hc.2
      rw [ht]
      rw [hop] at hty ⊢
      refine .inl ?_
      cases op <;> simp [UnOp.isIncDec] at ho
      · obtain ⟨b, rfl⟩ := hty.bool
        exact ⟨.bool !b, env', by simp [hy, UnOp.apply, bind, Except.bind, pure, Except.pure],
          by simp [Scalar.HasTy], henv'⟩
      · obtain ⟨a, rfl⟩ := hty.int
        exact ⟨.wrap (-a.toInt), env', by simp [hy, UnOp.apply, bind, Except.bind, pure, Except.pure],
          by simp [Scalar.wrap, Scalar.HasTy], henv'⟩
    · exact .inr (by simp [hy, bind, Except.bind])
  | @change t op v ho =>
    simp only [inferCall, ho, if_true, List.append_eq_nil_iff] at hc ⊢
    have hvar : (ctx.inferCall false (.ident v)).issues = [] := hc.1
    obtain ⟨sym, hsym, ht⟩ := inferCall_ident hvar
    have hval := henv _ sym hsym
    have hknown : (ctx.identifier v).type.Known := by
      have := hval.known
      rwa [← ht] at this
    obtain ⟨-, hint, hty⟩ := increment_known hknown.isNoType hc.2
    rw [hty]
    have hsymint : sym.type = .int := ht.symm.trans hint
    rw [hsymint] at hval
    obtain ⟨a, ha⟩ := hval.int
    rw [Expr.eval_change ho]
    refine .inl ⟨_, _, by simp only [UnOp.change, ha]; rfl, ?_, henv.set fun sym' hsym' => ?_⟩
    · split <;> trivial
    · obtain rfl : sym = sym' := Option.some.inj (hsym.symm.trans hsym')
      rw [hsymint]
      trivial

end Context

end ClassCompiler
