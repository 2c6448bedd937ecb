import ClassCompiler.Proofs.Compile.Methods
import ClassCompiler.Proofs.Compile.Admitted

namespace ClassCompiler

/-- A generator that succeeds whatever labels and slots are free. -/
def Gen.Total {α : Type} (g : Gen α) : Prop := ∀ s, ∃ r, g s = .ok r

namespace Gen

variable {α β : Type}

theorem total_pure (a : α) : Total (pure a) := fun s => ⟨(a, s), rfl⟩

theorem Total.bind {g : Gen α} {f : α → Gen β} (hg : g.Total) (hf : ∀ a, (f a).Total) : (g >>= f).Total := by
  intro s
  obtain ⟨⟨a, s₁⟩, ha⟩ := hg s
  obtain ⟨r, hr⟩ := hf a s₁
  exact ⟨r, bind_eq_ok.2 ⟨a, s₁, ha, hr⟩⟩

theorem total_newLabel : newLabel.Total := fun _ => ⟨_, rfl⟩

theorem total_newSlot : newSlot.Total := fun _ => ⟨_, rfl⟩

end Gen

namespace Context

variable {ctx : Context}

theorem total_slotOf {name : String} {line : Int} {sym : Symbol} (h : ctx.method.symbol? name = some sym) :
    (ctx.slotOf name line).Total := fun s => ⟨(sym, s), slotOf_eq_ok.2 ⟨h, rfl⟩⟩

theorem total_elementOf {es : List (String × Ty)} {name : String} {line : Int} {i : Nat}
    (h : Ty.position? es name = some i) : (elementOf es name line).Total :=
  fun s => ⟨(i, s), elementOf_eq_ok.2 ⟨h, rfl⟩⟩

theorem total_ownerOf {cls name owner : String} {line : Int} {f : VarDecl}
    (h : ctx.table.field? cls name = some (owner, f)) : (ctx.ownerOf cls name line).Total :=
  fun s => ⟨(owner, s), ownerOf_eq_ok.2 ⟨⟨f, h⟩, rfl⟩⟩

/-- Code is generated for an expression wherever the checker admits it. -/
def ExprTotal (ctx : Context) (e : Expr) : Prop :=
  ∀ dropped, ctx.Admits dropped e → (ctx.compileExpr e).Total

section

variable {t : Token} {dropped : Bool}

theorem compileMember_total {x : Expr} {m : Ident} (hk : ctx.Known) (ih : ctx.ExprTotal x) :
    ctx.ExprTotal (.member t x m) := by
  intro dropped h
  have hx := ih false h.member.1
  cases h.finds hk with
  | field ht hf =>
    simp only [compileExpr, ht, hf]
    exact hx.bind fun _ => Gen.total_pure _
  | method ht hf hm =>
    simp only [compileExpr, ht, hf, hm]
    exact hx.bind fun _ => Gen.total_pure _
  | element ht hi =>
    simp only [compileExpr, ht]
    exact (total_elementOf hi).bind fun _ => hx.bind fun _ => Gen.total_pure _

theorem compileChange_total {op : UnOp} {x : Expr} (hk : ctx.Known) (ho : op.isIncDec = true)
    (ih : ∀ y ∈ x.children, ctx.ExprTotal y) : ctx.ExprTotal (.unary t op x) := by
  intro dropped h
  have hp := h.increments ho hk
  have hx := h.operand
  rw [compileExpr_change ho]
  rcases place_cases hp with ⟨v, rfl⟩ | ⟨u, y, i, rfl⟩ | ⟨u, y, m, rfl⟩
  · obtain ⟨sym, hs⟩ := symbol?_of_identifier hx.clean
    exact (total_slotOf hs).bind fun _ => Gen.total_pure _
  · have hy := ih y (by simp [Expr.children]) false hx.index.1
    have hi := ih i (by simp [Expr.children]) false hx.index.2
    exact Gen.total_newSlot.bind fun _ => Gen.total_newSlot.bind fun _ => Gen.total_newSlot.bind fun _ =>
      hy.bind fun _ => hi.bind fun _ => Gen.total_pure _
  · have hy := ih y (by simp [Expr.children]) false hx.member.1
    cases hx.finds hk with
    | field ht hf =>
      simp only [ht]
      exact (total_ownerOf hf).bind fun _ => Gen.total_newSlot.bind fun _ => Gen.total_newSlot.bind fun _ =>
        hy.bind fun _ => Gen.total_pure _
    | method ht hf hm hn => exact absurd (hp.symm.trans (hn u.pos)) (by simp)
    | element ht hi =>
      simp only [ht]
      exact (total_elementOf hi).bind fun _ => Gen.total_newSlot.bind fun _ => Gen.total_newSlot.bind fun _ =>
        hy.bind fun _ => Gen.total_pure _

theorem compileAssign_total {l r : Expr} (hk : ctx.Known) (ih : ∀ y ∈ l.children, ctx.ExprTotal y)
    (ihr : ctx.ExprTotal r) : ctx.ExprTotal (.binary t .assign l r) := by
  intro dropped h
  have hp := h.assigns hk
  obtain ⟨hl, hr⟩ := h.operands
  have hrc := ihr false hr
  rcases place_cases hp with ⟨v, rfl⟩ | ⟨u, x, i, rfl⟩ | ⟨u, x, m, rfl⟩
  · obtain ⟨sym, hs⟩ := symbol?_of_identifier hl.clean
    simp only [compileExpr]
    exact (total_slotOf hs).bind fun _ => hrc.bind fun _ => Gen.total_pure _
  · have hx := ih x (by simp [Expr.children]) false hl.index.1
    have hi := ih i (by simp [Expr.children]) false hl.index.2
    simp only [compileExpr]
    exact hx.bind fun _ => hi.bind fun _ => Gen.total_newSlot.bind fun _ => hrc.bind fun _ => Gen.total_pure _
  · have hx := ih x (by simp [Expr.children]) false hl.member.1
    cases hl.finds hk with
    | field ht hf =>
      simp only [compileExpr, ht]
      exact (total_ownerOf hf).bind fun _ => hx.bind fun _ => hrc.bind fun _ => Gen.total_pure _
    | method ht hf hm hn => exact absurd (hp.symm.trans (hn u.pos)) (by simp)
    | element ht hi =>
      simp only [compileExpr, ht]
      exact (total_elementOf hi).bind fun _ => hx.bind fun _ => hrc.bind fun _ => Gen.total_pure _

theorem compileElements_total {line : Int} {es : List Expr} (h : ∀ e ∈ es, (ctx.compileExpr e).Total) :
    (ctx.compileElements line es).Total := by
  induction es with
  | nil => exact Gen.total_pure _
  | cons e es ih =>
    obtain ⟨he, hes⟩ := List.forall_mem_cons.1 h
    simp only [compileElements]
    exact he.bind fun _ => (ih hes).bind fun _ => Gen.total_pure _

theorem compileArgs_total {es : List Expr} (h : ∀ e ∈ es, (ctx.compileExpr e).Total) :
    (ctx.compileArgs es).Total := by
  induction es with
  | nil => exact Gen.total_pure _
  | cons e es ih =>
    obtain ⟨he, hes⟩ := List.forall_mem_cons.1 h
    simp only [compileArgs]
    exact he.bind fun _ => (ih hes).bind fun _ => Gen.total_pure _

theorem compileOperation_total {op : BinOp} {l r : Expr} (ho : op ≠ .assign) (ihl : ctx.ExprTotal l)
    (ihr : ctx.ExprTotal r) : ctx.ExprTotal (.binary t op l r) := by
  intro dropped h
  have hl := ihl false h.operands.1
  have hr := ihr false h.operands.2
  cases op with
  | assign => exact absurd rfl ho
  | and | or =>
    simp only [compileExpr]
    exact Gen.total_newLabel.bind fun _ => Gen.total_newLabel.bind fun _ => hl.bind fun _ => hr.bind fun _ =>
      Gen.total_pure _
  | add | sub | mul | div | mod =>
    simp only [compileExpr, BinOp.arith?]
    exact hl.bind fun _ => hr.bind fun _ => Gen.total_pure _
  | lt | gt | eq | ne =>
    simp only [compileExpr, BinOp.arith?]
    exact hl.bind fun _ => hr.bind fun _ => Gen.total_newLabel.bind fun _ => Gen.total_newLabel.bind fun _ =>
      Gen.total_pure _

end

theorem compileExpr_total (hk : ctx.Known) (e : Expr) : ctx.ExprTotal e := by
  match e with
  | .int _ _ | .bool _ _ | .string _ _ | .null _ | .this _ =>
    intro _ _
    simp only [compileExpr]
    exact Gen.total_pure _
  | .ident v =>
    intro dropped h
    obtain ⟨sym, hs⟩ := symbol?_of_identifier h.clean
    simp only [compileExpr]
    exact (total_slotOf hs).bind fun _ => Gen.total_pure _
  | .member t x m => exact compileMember_total hk (compileExpr_total hk x)
  | .index t x i =>
    intro dropped h
    simp only [compileExpr]
    exact (compileExpr_total hk x false h.index.1).bind fun _ =>
      (compileExpr_total hk i false h.index.2).bind fun _ => Gen.total_pure _
  | .list t es =>
    rintro dropped ⟨hf, hn, hc⟩
    simp only [Expr.subterms, List.forall_cons] at hf hn
    simp only [compileExpr]
    have hes : ∀ e ∈ es, (ctx.compileExpr e).Total := fun e he =>
      compileExpr_total hk e false (Admits.elements hf.2 hn.2 hc e he)
    exact (compileElements_total hes).bind fun _ => Gen.total_pure _
  | .new t c as =>
    rintro dropped ⟨hf, hn, hc⟩
    simp only [Expr.subterms, List.forall_cons] at hf hn
    simp only [inferCall, List.append_eq_nil_iff] at hc
    simp only [compileExpr]
    have has : ∀ e ∈ as, (ctx.compileExpr e).Total := fun e he =>
      compileExpr_total hk e false (Admits.elements hf.2 hn.2 hc.1.2 e he)
    exact (compileArgs_total has).bind fun _ => Gen.total_pure _
  | .call t f as =>
    rintro dropped ⟨hf, hn, hc⟩
    simp only [Expr.subterms, List.cons_append, List.forall_cons, List.forall_append] at hf hn
    simp only [inferCall, List.append_eq_nil_iff] at hc
    simp only [compileExpr]
    have has : ∀ e ∈ as, (ctx.compileExpr e).Total := fun e he =>
      compileExpr_total hk e false (Admits.elements hf.2.2 hn.2.2 hc.1.2 e he)
    exact (compileExpr_total hk f false ⟨hf.2.1, hn.2.1, hc.1.1.1⟩).bind fun _ =>
      (compileElements_total has).bind fun _ => Gen.total_pure _
  | .unary t .neg x =>
    intro dropped h
    simp only [compileExpr]
    exact (compileExpr_total hk x false h.operand).bind fun _ => Gen.total_pure _
  | .unary t .not x =>
    intro dropped h
    simp only [compileExpr]
    exact (compileExpr_total hk x false h.operand).bind fun _ => Gen.total_newLabel.bind fun _ =>
      Gen.total_newLabel.bind fun _ => Gen.total_pure _
  | .unary t .preInc x | .unary t .preDec x | .unary t .postInc x | .unary t .postDec x =>
    exact compileChange_total hk rfl fun y _ => compileExpr_total hk y
  | .binary t .assign l r =>
    exact compileAssign_total hk (fun y _ => compileExpr_total hk y) (compileExpr_total hk r)
  | .binary t .and l r | .binary t .or l r | .binary t .add l r | .binary t .sub l r | .binary t .mul l r
  | .binary t .div l r | .binary t .mod l r | .binary t .lt l r | .binary t .gt l r | .binary t .eq l r
  | .binary t .ne l r =>
    exact compileOperation_total (by simp) (compileExpr_total hk l) (compileExpr_total hk r)
termination_by sizeOf e
decreasing_by
  all_goals first
    | (simp +arith; done)
    | (have h := List.sizeOf_lt_of_mem ‹_ ∈ _›; simp +arith; omega)
    | (have h := sizeOf_lt_of_mem_children ‹_ ∈ _›; simp +arith; omega)

theorem compileAssignStmt_total {a : Assign} (hk : ctx.Known) (hf : AllFilled a.subterms)
    (hn : AllWritten a.subterms) (hc : ctx.assignIssues a = []) : (ctx.compileAssign a).Total := by
  simp only [Assign.subterms, List.forall_append] at hf hn
  have ha : ctx.Admits false (.binary a.token .assign a.left a.right) := by
    refine ⟨?_, ?_, hc⟩
    · simp [Expr.subterms, List.forall_append, Expr.Filled, hf]
    · simp [Expr.subterms, List.forall_append, Expr.Written, hn]
  exact (compileExpr_total hk _ false ha).bind fun _ => Gen.total_pure _

theorem compileOptionalAssign_total {a : Option Assign} (hk : ctx.Known)
    (hf : AllFilled (a.toList.flatMap Assign.subterms)) (hn : AllWritten (a.toList.flatMap Assign.subterms))
    (hc : optionIssues ctx.assignIssues a = []) : (ctx.compileOptionalAssign a).Total := by
  cases a with
  | none => exact Gen.total_pure _
  | some a => exact compileAssignStmt_total hk (by simpa using hf) (by simpa using hn) hc

theorem compileCondition_total {e : Expr} (hk : ctx.Known) (hf : AllFilled e.subterms)
    (hn : AllWritten e.subterms) (hc : ctx.conditionIssues e = []) : (ctx.compileExpr e).Total := by
  simp only [conditionIssues, List.append_eq_nil_iff] at hc
  exact compileExpr_total hk e false ⟨hf, hn, hc.1⟩

theorem compileTest_total {line : Int} {done : String} {e : Option Expr} (hk : ctx.Known)
    (hf : AllFilled (e.toList.flatMap Expr.subterms)) (hn : AllWritten (e.toList.flatMap Expr.subterms))
    (hc : optionIssues ctx.conditionIssues e = []) : (ctx.compileTest line done e).Total := by
  cases e with
  | none => exact Gen.total_pure _
  | some e =>
    exact (compileCondition_total hk (by simpa using hf) (by simpa using hn) hc).bind fun _ => Gen.total_pure _

theorem compileReturn_total {line : Int} {pos : Pos} {e : Option Expr} (hk : ctx.Known)
    (hf : AllFilled (e.toList.flatMap Expr.subterms)) (hn : AllWritten (e.toList.flatMap Expr.subterms))
    (hc : ctx.returnIssues pos e = []) : (ctx.compileReturn line e).Total := by
  cases e with
  | none => exact Gen.total_pure _
  | some e =>
    simp only [returnIssues, List.append_eq_nil_iff] at hc
    exact (compileExpr_total hk e false ⟨by simpa using hf, by simpa using hn, hc.1⟩).bind fun _ =>
      Gen.total_pure _

theorem printer?_isSome {t : Ty} (ht : t.Known) (hp : t.isPrintable = true) : ∃ n, t.printer? = some n := by
  cases t with
  | noType => exact ht.elim
  | int | bool | string => exact ⟨_, rfl⟩
  | _ => simp [Ty.isPrintable] at hp

mutual

theorem compileStmt_total (hk : ctx.Known) (x : Stmt) (loop : Option Loop) (hf : AllFilled x.subterms)
    (hn : AllWritten x.subterms) (hc : ctx.stmtIssues loop.isSome x = []) : (ctx.compileStmt loop x).Total := by
  match x with
  | .assign a =>
    simp only [compileStmt]
    exact compileAssignStmt_total hk hf hn hc
  | .block t ss =>
    simp only [compileStmt]
    exact compileStmts_total hk ss loop hf hn hc
  | .cond t e y n =>
    simp only [Stmt.subterms, List.forall_append] at hf hn
    simp only [stmtIssues, List.append_eq_nil_iff] at hc
    simp only [compileStmt]
    exact Gen.total_newLabel.bind fun _ => Gen.total_newLabel.bind fun _ =>
      (compileCondition_total hk hf.1.1 hn.1.1 hc.1.1).bind fun _ =>
      (compileStmt_total hk y loop hf.1.2 hn.1.2 hc.1.2).bind fun _ =>
      (compileElse_total hk n loop hf.2 hn.2 hc.2).bind fun _ => Gen.total_pure _
  | .call t f as =>
    simp only [compileStmt]
    exact (compileExpr_total hk _ true ⟨hf, hn, hc⟩).bind fun _ => Gen.total_pure _
  | .print t e =>
    simp only [stmtIssues, List.append_eq_nil_iff] at hc
    have he : ctx.Admits false e := ⟨hf, hn, hc.1⟩
    -- The check has reported what cannot be printed, so there is a method that prints it.
    have hp : (ctx.typeOf e).isPrintable = true := by
      by_contra hne
      simp [show (ctx.infer e).type = ctx.typeOf e from rfl, hne] at hc
    obtain ⟨n, hprinter⟩ := printer?_isSome (he.known hk) hp
    simp only [compileStmt, show (ctx.typeOf e).printer? = some n from hprinter]
    exact (compileExpr_total hk e false he).bind fun _ => Gen.total_pure _
  | .ret t v =>
    simp only [compileStmt]
    exact compileReturn_total hk hf hn hc
  | .for t i e u b =>
    simp only [Stmt.subterms, List.forall_append] at hf hn
    simp only [stmtIssues, List.append_eq_nil_iff] at hc
    simp only [compileStmt]
    exact Gen.total_newLabel.bind fun _ => Gen.total_newLabel.bind fun _ => Gen.total_newLabel.bind fun _ =>
      (compileOptionalAssign_total hk hf.1.1.1 hn.1.1.1 hc.1.1.1).bind fun _ =>
      (compileTest_total hk hf.1.1.2 hn.1.1.2 hc.1.1.2).bind fun _ =>
      (compileStmt_total hk b (some _) hf.2 hn.2 hc.2).bind fun _ =>
      (compileOptionalAssign_total hk hf.1.2 hn.1.2 hc.1.2).bind fun _ => Gen.total_pure _
  | .foreach t v l b =>
    simp only [Stmt.subterms, List.cons_append, List.forall_cons, List.forall_append] at hf hn
    simp only [stmtIssues, foreachIssues, List.append_eq_nil_iff] at hc
    obtain ⟨⟨⟨hv, hl⟩, ht⟩, hb⟩ := hc
    have hadmits : ctx.Admits false l := ⟨hf.2.1, hn.2.1, hl⟩
    have hknown : (ctx.typeOf l).Known := hadmits.known hk
    obtain ⟨sym, hs⟩ := symbol?_of_identifier hv
    replace ht : (ctx.typeOf l).isList = true := by
      unfold typeOf at hknown ⊢
      cases hty : (ctx.infer l).type with
      | list es => rfl
      | noType =>
        rw [hty] at hknown
        exact hknown.elim
      | _ => simp [hty] at ht
    cases hty : ctx.typeOf l with
    | list es =>
      simp only [compileStmt, hty]
      exact (total_slotOf hs).bind fun _ => Gen.total_newLabel.bind fun _ => Gen.total_newLabel.bind fun _ =>
        Gen.total_newLabel.bind fun _ => Gen.total_newSlot.bind fun _ => Gen.total_newSlot.bind fun _ =>
        (compileExpr_total hk l false hadmits).bind fun _ =>
        (compileStmt_total hk b (some _) hf.2.2 hn.2.2 hb).bind fun _ => Gen.total_pure _
    | _ => simp [hty, Ty.isList] at ht
  | .break t | .continue t =>
    cases loop with
    | none => simp [stmtIssues] at hc
    | some lp =>
      simp only [compileStmt]
      exact Gen.total_pure _

theorem compileStmts_total (hk : ctx.Known) (xs : List Stmt) (loop : Option Loop)
    (hf : AllFilled (Stmt.subtermsOfAll xs)) (hn : AllWritten (Stmt.subtermsOfAll xs))
    (hc : ctx.stmtsIssues loop.isSome xs = []) : (ctx.compileStmts loop xs).Total := by
  match xs with
  | [] =>
    simp only [compileStmts]
    exact Gen.total_pure _
  | x :: xs =>
    simp only [Stmt.subtermsOfAll, List.forall_append] at hf hn
    simp only [stmtsIssues, List.append_eq_nil_iff] at hc
    simp only [compileStmts]
    exact (compileStmt_total hk x loop hf.1 hn.1 hc.1).bind fun _ =>
      (compileStmts_total hk xs loop hf.2 hn.2 hc.2).bind fun _ => Gen.total_pure _

theorem compileElse_total (hk : ctx.Known) (x : Option Stmt) (loop : Option Loop)
    (hf : AllFilled (Stmt.subtermsOfElse x)) (hn : AllWritten (Stmt.subtermsOfElse x))
    (hc : ctx.elseIssues loop.isSome x = []) : (ctx.compileElse loop x).Total := by
  match x with
  | none =>
    simp only [compileElse]
    exact Gen.total_pure _
  | some x =>
    simp only [compileElse]
    exact compileStmt_total hk x loop hf hn hc

end

end Context

def CompileError.IsLocalsLimit (e : CompileError) : Prop :=
  ∃ method needed limit, e.problem = .localsLimit method needed limit

def Gen.Limited {α : Type} (g : Gen α) : Prop :=
  ∀ s, (∃ r, g s = .ok r) ∨ ∃ e, g s = .error e ∧ e.IsLocalsLimit

namespace Gen

variable {α β : Type}

theorem Total.limited {g : Gen α} (h : g.Total) : g.Limited := fun s => .inl (h s)

theorem Limited.bind {g : Gen α} {f : α → Gen β} (hg : g.Limited) (hf : ∀ a, (f a).Limited) :
    (g >>= f).Limited := by
  intro s
  rcases hg s with ⟨⟨a, s₁⟩, ha⟩ | ⟨e, he, hl⟩
  · rcases hf a s₁ with ⟨r, hr⟩ | ⟨e, he, hl⟩
    · exact .inl ⟨r, bind_eq_ok.2 ⟨a, s₁, ha, hr⟩⟩
    · exact .inr ⟨e, by simp [Bind.bind, StateT.bind, Except.bind, ha, he], hl⟩
  · exact .inr ⟨e, by simp [Bind.bind, StateT.bind, Except.bind, he], hl⟩

theorem Limited.within {g : Gen α} (hg : g.Limited) (note : String) : (Gen.within note g).Limited := by
  intro s
  rcases hg s with ⟨r, hr⟩ | ⟨e, he, m, n, l, hl⟩
  · exact .inl ⟨r, within_eq_ok.2 hr⟩
  · exact .inr ⟨e.within note, by simp [Gen.within, he], m, n, l, hl⟩

theorem limited_freeSlotsFrom (n : Nat) : (freeSlotsFrom n).Limited := fun _ => .inl ⟨_, rfl⟩

end Gen

section

variable {o : CompileOptions} {p : Program} {c : ClassDecl} {m : MethodDecl}

theorem CompileOptions.limited_finish (name desc : String) (code : List Instr) :
    (o.finish name desc code).Limited := by
  intro s
  by_cases hs : (s.slots : Int) ≤ o.limits.locals
  · exact .inl ⟨_, finish_eq_ok.2 ⟨hs, rfl, rfl⟩⟩
  · exact .inr ⟨{ problem := .localsLimit name s.slots o.limits.locals }, by simp [finish, hs], _, _, _, rfl⟩

theorem MethodDecl.Admitted.limited_compileBody (h : m.Admitted p c.name.name) :
    (m.compileBody p c).Limited := by
  have hbody := Context.compileStmts_total h.known m.body none h.filled h.written h.clean
  exact (Gen.limited_freeSlotsFrom _).bind fun _ => hbody.limited.bind fun _ => (Gen.total_pure _).limited

theorem limited_compileMethods {ms : List MethodDecl} (h : ∀ m ∈ ms, m.Admitted p c.name.name) :
    (o.compileMethods p c ms).Limited := by
  induction ms with
  | nil => exact (Gen.total_pure _).limited
  | cons m ms ih =>
    obtain ⟨hm, hms⟩ := List.forall_mem_cons.1 h
    have hmethod : (o.compileMethod p c m).Limited :=
      hm.limited_compileBody.bind fun _ => o.limited_finish _ _ _
    exact (hmethod.within _).bind fun _ => (ih hms).bind fun _ => (Gen.total_pure _).limited

theorem limited_compileConstructors (h : ∀ m, c.constructor = some m → m.Admitted p c.name.name) :
    (o.compileConstructors p c).Limited := by
  have hdefault : (o.defaultConstructor c).Limited :=
    (Gen.limited_freeSlotsFrom 1).bind fun _ => o.limited_finish _ _ _
  unfold CompileOptions.compileConstructors
  split
  · exact hdefault.bind fun _ => (Gen.total_pure _).limited
  · next m hm =>
    have hk : (Gen.within "constructor" (o.compileConstructor p c m)).Limited :=
      Gen.Limited.within ((h m hm).limited_compileBody.bind fun _ => o.limited_finish _ _ _) _
    split
    · exact hk.bind fun _ => (Gen.total_pure _).limited
    · exact hdefault.bind fun _ => hk.bind fun _ => (Gen.total_pure _).limited

theorem limited_compileClasses {cs : List ClassDecl}
    (h : ∀ c ∈ cs, ∀ m ∈ c.bodies, m.Admitted p c.name.name) : (o.compileClasses p cs).Limited := by
  induction cs with
  | nil => exact (Gen.total_pure _).limited
  | cons c cs ih =>
    obtain ⟨hc, hcs⟩ := List.forall_mem_cons.1 h
    have hclass : (o.compileClass p c).Limited :=
      (limited_compileConstructors fun m hm => hc m (by simp [ClassDecl.bodies, hm])).bind fun _ =>
        (limited_compileMethods fun m hm => hc m (by simp [ClassDecl.bodies, hm])).bind fun _ =>
        (Gen.total_pure _).limited
    exact (hclass.within _).bind fun _ => (ih hcs).bind fun _ => (Gen.total_pure _).limited

/-- An accepted program without an empty list literal compiles to one file for each class, unless a
method needs more slots than a frame may have. -/
theorem accepted_compiles (hw : p.Written)
    (ha : (p.check o.entry).issues = [])
    (hl : ∀ c ∈ p.classes, ∀ m ∈ c.bodies, ∀ t es, Expr.list t es ∈ m.subterms → es ≠ []) :
    (∃ files, Program.compile o (p.check o.entry).decl (p.check o.entry).decl = .ok files ∧
      files.map ClassFile.name = p.classes.map fun c => c.name.name) ∨
    ∃ e, Program.compile o (p.check o.entry).decl (p.check o.entry).decl = .error e ∧ e.IsLocalsLimit := by
  obtain ⟨hd, hclean⟩ := Program.check_clean ha
  rw [hd]
  have hlim : (o.compileClasses p p.classes).Limited := limited_compileClasses fun c hc m hm =>
    hclean.admitted hw hc hm (allFilled_of_lists (hl c hc m hm))
  rcases hlim {} with ⟨⟨files, s'⟩, hr⟩ | ⟨e, he, hlimit⟩
  · have hc : Program.compile o p p = .ok files := by simp [Program.compile, hr]
    exact .inl ⟨files, hc, names_of_fileOf (Program.compile_ok hc)⟩
  · exact .inr ⟨e, by simp [Program.compile, he], hlimit⟩

theorem accepted_compiles_sample :
    (∃ files, Program.compile {} (Tally.program.check "Main").decl (Tally.program.check "Main").decl =
      .ok files ∧ files.map ClassFile.name = ["Main", "Tally"]) ∨
    ∃ e, Program.compile {} (Tally.program.check "Main").decl (Tally.program.check "Main").decl =
      .error e ∧ e.IsLocalsLimit :=
  accepted_compiles (o := {}) Tally.written Tally.accepted Tally.lists_filled

end

end ClassCompiler
