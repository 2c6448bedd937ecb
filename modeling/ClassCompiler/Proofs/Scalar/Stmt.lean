import ClassCompiler.Proofs.Scalar.Expr

namespace ClassCompiler

/-- Where control arrives after code that ends at `after`. -/
def Arrives (code : Code) (loop : Option Loop) (after : Nat) : Exit → Nat → Prop
  | .next, pc => pc = after
  | .break, pc => ∃ l, loop = some l ∧ code.labelOffset? l.done = some pc
  | .continue, pc => ∃ l, loop = some l ∧ code.labelOffset? l.next = some pc
  | .return, pc => OpAt code pc .ret

def Follows (m : Machine) (mc : MethodCode) (callers : Outer) (method : MethodDecl) (loop : Option Loop)
    (stack : List Value) (after fuel : Nat) (c : Spot) : Result → Prop
  | .done exit env out => ∃ d pc, Moves m mc callers 0 c d ∧ Arrives mc.code loop after exit pc ∧
      Lands method env pc stack out d
  | .stopped .divisionByZero out => Divides m mc callers c out
  | .stopped .stuck _ => False
  | .outOfFuel out => ∃ d, Moves m mc callers fuel c d ∧ d.out = out

namespace Follows

variable {m : Machine} {mc : MethodCode} {callers : Outer} {method : MethodDecl} {loop : Option Loop}
  {stack stack' : List Value} {after mid fuel fuel' : Nat} {c d : Spot} {r : Result} {env : Env} {out : String}

theorem of_steps {i : Nat} (h : Moves m mc callers i c d) (hle : fuel' ≤ i + fuel)
    (hf : Follows m mc callers method loop stack after fuel d r) :
    Follows m mc callers method loop stack after fuel' c r := by
  match r, hf with
  | .done _ _ _, ⟨d', pc, hm, ha, hl⟩ => exact ⟨d', pc, (h.trans hm).weaken (Nat.zero_le _), ha, hl⟩
  | .stopped .divisionByZero _, hf => exact h.divides hf
  | .outOfFuel _, ⟨d', hm, ho⟩ => exact ⟨d', (h.trans hm).weaken hle, ho⟩

theorem of_moves {i : Nat} (h : Moves m mc callers i c d)
    (hf : Follows m mc callers method loop stack after fuel d r) :
    Follows m mc callers method loop stack after fuel c r := hf.of_steps h (Nat.le_add_left _ _)

theorem done {exit : Exit} {pc i : Nat} (h : Moves m mc callers i c d) (ha : Arrives mc.code loop after exit pc)
    (hl : Lands method env pc stack out d) :
    Follows m mc callers method loop stack after fuel c (.done exit env out) :=
  ⟨d, pc, h.weaken (Nat.zero_le _), ha, hl⟩

theorem next {i : Nat} (h : Moves m mc callers i c d) (hl : Lands method env after stack out d) :
    Follows m mc callers method loop stack after fuel c (.done .next env out) := done h rfl hl

theorem andThen {k : Env → String → Result} (hf : Follows m mc callers method loop stack mid fuel c r)
    (hk : ∀ env out d, Lands method env mid stack out d →
      Follows m mc callers method loop stack after fuel d (k env out)) :
    Follows m mc callers method loop stack after fuel c (r.andThen k) := by
  match r, hf with
  | .done .next env out, ⟨d, pc, hm, ha, hl⟩ =>
    obtain rfl : pc = mid := ha
    exact of_moves hm (hk env out d hl)
  | .done .break _ _, hf => exact hf
  | .done .continue _ _, hf => exact hf
  | .done .return _ _, hf => exact hf
  | .stopped .divisionByZero _, hf => exact hf
  | .outOfFuel _, hf => exact hf

theorem ofValue {e : Expr} {pc : Nat} {k : Scalar → Env → Result}
    (hy : Yields m mc callers method c pc stack' (e.eval env))
    (hk : ∀ x d, e.eval env = .ok x → Lands method x.2 pc (x.1.value :: stack') c.out d →
      Follows m mc callers method loop stack after fuel d (k x.1 x.2)) :
    Follows m mc callers method loop stack after fuel c (Result.ofValue e env c.out k) := by
  unfold Result.ofValue
  cases he : e.eval env with
  | ok x =>
    rw [he] at hy
    obtain ⟨d, hm, hl⟩ := hy
    exact of_moves hm (hk x d he hl)
  | error s =>
    rw [he] at hy
    cases s with
    | divisionByZero => exact hy
    | stuck => exact hy.elim

theorem ofTest {e : Expr} {pc k : Nat} {l : String} {yes no : Env → Result}
    (hy : Yields m mc callers method c pc stack (e.eval env)) (ht : Evaluates method .bool (e.eval env))
    (hj : OpAt mc.code pc (.jump .ifZero l)) (hl : mc.code.labelOffset? l = some k)
    (hyes : ∀ env d, Lands method env (pc + 1) stack c.out d →
      Follows m mc callers method loop stack after fuel d (yes env))
    (hno : ∀ env d, Lands method env k stack c.out d →
      Follows m mc callers method loop stack after fuel d (no env)) :
    Follows m mc callers method loop stack after fuel c (Result.ofTest e env c.out yes no) := by
  refine ofValue hy fun x d hx hd => ?_
  obtain ⟨v, env'⟩ := x
  obtain ⟨b, rfl⟩ := (ht.ok hx).1.bool
  rw [← hd.pc] at hj
  have hjump : Moves m mc callers 1 d _ := Moves.jump hj hl fun f hf =>
    Jump.decide_ifZero (hf.trans hd.stack)
  cases b with
  | true => exact of_moves hjump (hyes env' _ ⟨by rw [← hd.pc]; rfl, rfl, hd.out, hd.agrees⟩)
  | false => exact of_moves hjump (hno env' _ ⟨rfl, rfl, hd.out, hd.agrees⟩)

theorem followedBy (hf : Follows m mc callers method loop stack mid fuel c r)
    (hk : ∀ env out d, Lands method env mid stack out d →
      Follows m mc callers method loop stack after fuel d (.done .next env out)) :
    Follows m mc callers method loop stack after fuel c r := by
  have hr : r.andThen (.done .next) = r := by
    cases r with
    | done exit env out => cases exit <;> rfl
    | _ => rfl
  exact hr ▸ hf.andThen hk

theorem label {l : String} (hl : Lands method env mid stack out c) (ho : OpAt mc.code mid (.label l)) :
    Follows m mc callers method loop stack (mid + 1) fuel c (.done .next env out) := by
  rw [← hl.pc] at ho
  exact next (Moves.label ho) ⟨by rw [← hl.pc]; rfl, hl.stack, hl.out, hl.agrees⟩

theorem at_end (hf : Follows m mc callers method loop stack mid fuel c r) (h : mid = after) :
    Follows m mc callers method loop stack after fuel c r := h ▸ hf

end Follows

/-- The labels of the loop that a statement stands in are placed. -/
def LoopPlaced (code : Code) (loop : Option Loop) : Prop :=
  ∀ l, loop = some l → (∃ k, code.labelOffset? l.done = some k) ∧ ∃ k, code.labelOffset? l.next = some k

/-- The code of a piece, wherever it stands in a method, does what is meant. -/
def Performs (m : Machine) (mc : MethodCode) (callers : Outer) (ctx : Context) (loop : Option Loop) (p : Piece)
    (meaning : (fuel : Nat) → Env → String → Result) : Prop :=
  ∀ ⦃s code s' sp⦄, Emits ctx p s code s' sp → ∀ ⦃fuel : Nat⦄ ⦃c : Spot⦄ ⦃env : Env⦄ ⦃pc stack out⦄,
    CodeAt mc.code pc code → Lands ctx.method env pc stack out c →
    Follows m mc callers ctx.method loop stack (pc + code.length) fuel c (meaning fuel env out)

section

variable {m : Machine} {mc : MethodCode} {callers : Outer} {ctx : Context} {loop : Option Loop}

attribute [local simp] Stmt.meaning

theorem Computes.yields {e : Expr} {s s' : Supply} {code : List Instr} {sp : List Span} {c : Spot} {env : Env}
    {pc : Nat} {stack : List Value} {out : String} (h : Computes m mc callers ctx e)
    (he : Emits ctx (.expr e) s code s' sp) (hat : CodeAt mc.code pc code) (hc : Lands ctx.method env pc stack out c) :
    Yields m mc callers ctx.method c (pc + code.length) stack (e.eval env) := by
  obtain ⟨rfl, rfl, -, hagrees⟩ := hc
  exact h he hat hagrees

/-- One operation after a spot, where the stack is the only thing that changes. -/
theorem Lands.next {env : Env} {pc : Nat} {stack : List Value} {out : String} {c : Spot}
    (h : Lands ctx.method env pc stack out c) (stack' : List Value) :
    Lands ctx.method env (pc + 1) stack' out (c.next stack') := ⟨by rw [← h.pc]; rfl, rfl, h.out, h.agrees⟩

theorem Lands.opAt {env : Env} {pc : Nat} {stack : List Value} {out : String} {c : Spot} {op : Op}
    (h : Lands ctx.method env pc stack out c) (ho : OpAt mc.code pc op) : OpAt mc.code c.pc op := by rwa [h.pc]

/-- The value of an assignment that is a statement is dropped. -/
theorem Follows.assignment {a : Assign} {s s' : Supply} {code : List Instr} {sp : List Span} {c : Spot} {env : Env}
    {fuel pc : Nat} {stack : List Value} {out : String} (hlabels : LabelsOnce mc.code) (hs : a.isScalar = true)
    (hc : ctx.assignIssues a = []) (he : Emits ctx (.expr (.binary a.token .assign a.left a.right)) s code s' sp)
    (hat : CodeAt mc.code pc (code ++ (onLine a.token.pos.line [.pop] ++ []))) (hl : Lands ctx.method env pc stack out c) :
    Follows m mc callers ctx.method loop stack (pc + (code ++ (onLine a.token.pos.line [.pop] ++ [])).length) fuel c
      (a.meaning env out) := by
  have hexpr : (Expr.binary a.token .assign a.left a.right).isScalar = true := hs
  rw [List.append_nil, CodeAt.append_iff] at hat
  have hy : Yields m mc callers ctx.method c _ stack _ :=
    ((Expr.scalarExpr _ hexpr).computes hlabels hc).yields he hat.1 hl
  obtain rfl := hl.out
  refine .ofValue hy fun x d hx hd => .next (Moves.pop (hd.opAt hat.2.opAt) hd.stack) ?_
  simpa [length_onLine, Nat.add_assoc] using hd.next stack

theorem Performs.update {a : Option Assign} (hlabels : LabelsOnce mc.code) (hs : a.all Assign.isScalar = true)
    (hc : Context.optionIssues ctx.assignIssues a = []) :
    Performs m mc callers ctx loop (.update a) fun _ => Assign.meaningOfOption a := by
  rintro s code s' sp ⟨hr, hp, rfl, -⟩ fuel c env pc stack out hat hl
  replace hp := Parts.iff_forall_mem.2 hp
  cases hr with
  | noUpdate => exact .next .refl hl
  | update =>
    simp only [Parts.ops_iff, Parts.part_iff, Parts.nil_iff] at hp
    exact .assignment hlabels hs hc hp.1 hat hl

theorem Context.conditionIssues_bool {e : Expr} (hs : ScalarExpr e)
    (hv : ∀ n sym, ctx.method.symbol? n = some sym → sym.type.isScalar = true) (hc : ctx.conditionIssues e = []) :
    (ctx.infer e).issues = [] ∧ (ctx.infer e).type = .bool := by
  simp only [conditionIssues, List.append_eq_nil_iff] at hc
  have hscalar := inferCall_scalar hs hv hc.1
  refine ⟨hc.1, ?_⟩
  have hbool := hc.2
  unfold infer at hbool ⊢
  cases hty : (ctx.inferCall false e).type <;> simp_all [Ty.isScalar, Ty.isBool, Ty.isNoType]

theorem Context.evaluates_condition {e : Expr} {env : Env} (hs : ScalarExpr e) (henv : EnvTyped ctx.method env)
    (hc : ctx.conditionIssues e = []) : Evaluates ctx.method .bool (e.eval env) := by
  obtain ⟨hissues, hty⟩ := conditionIssues_bool hs henv.vars hc
  exact hty ▸ eval_typed hs hissues henv

theorem Follows.test {line : Int} {l : String} {e : Option Expr} {s s' : Supply} {code : List Instr}
    {sp : List Span} {c : Spot} {env : Env} {stack : List Value} {out : String} {pc k after fuel : Nat}
    {yes no : Env → Result} (hlabels : LabelsOnce mc.code) (hs : e.all Expr.isScalar = true)
    (hc : Context.optionIssues ctx.conditionIssues e = []) (he : Emits ctx (.test line l e) s code s' sp)
    (hk : mc.code.labelOffset? l = some k) (hat : CodeAt mc.code pc code) (hl : Lands ctx.method env pc stack out c)
    (hyes : ∀ env d, Lands ctx.method env (pc + code.length) stack out d →
      Follows m mc callers ctx.method loop stack after fuel d (yes env))
    (hno : ∀ env d, Lands ctx.method env k stack out d →
      Follows m mc callers ctx.method loop stack after fuel d (no env)) :
    Follows m mc callers ctx.method loop stack after fuel c (Result.ofOptionalTest e env out yes no) := by
  obtain ⟨hr, hp, rfl, -⟩ := he
  replace hp := Parts.iff_forall_mem.2 hp
  cases hr with
  | noTest => exact hyes env c hl
  | test =>
    have hexpr := Expr.scalarExpr _ hs
    have hissues := (Context.conditionIssues_bool hexpr hl.agrees.typed.vars hc).1
    simp only [Parts.ops_iff, Parts.part_iff, Parts.nil_iff] at hp
    simp only [codeOf_cons, codeOf_nil, Item.code, List.append_nil, CodeAt.append_iff, List.length_append,
      length_onLine, List.length_singleton, ← Nat.add_assoc] at hat hyes
    have hy : Yields m mc callers ctx.method c _ stack _ :=
      (hexpr.computes hlabels hissues).yields hp.1 hat.1 hl
    obtain rfl := hl.out
    exact .ofTest hy (Context.evaluates_condition hexpr hl.agrees.typed hc) hat.2.opAt hk hyes hno

/-- What follows the body of a loop, by the way control leaves the body. -/
theorem Follows.afterBody {method : MethodDecl} {lp : Loop} {stack : List Value} {done next after fuel : Nat}
    {c : Spot} {r : Result} {again : Env → String → Result} (hdone : mc.code.labelOffset? lp.done = some done)
    (hnext : mc.code.labelOffset? lp.next = some next)
    (hf : Follows m mc callers method (some lp) stack next fuel c r)
    (hbreak : ∀ env out d, Lands method env done stack out d →
      Follows m mc callers method loop stack after fuel d (.done .next env out))
    (hagain : ∀ env out d, Lands method env next stack out d →
      Follows m mc callers method loop stack after fuel d (again env out)) :
    Follows m mc callers method loop stack after fuel c (r.afterBody again) := by
  match r, hf with
  | .done .next env out, ⟨d, pc, hm, ha, hl⟩ =>
    obtain rfl : pc = next := ha
    exact of_moves hm (hagain env out d hl)
  | .done .continue env out, ⟨d, pc, hm, ⟨l, hloop, ha⟩, hl⟩ =>
    obtain rfl := Option.some.inj hloop
    obtain rfl := Option.some.inj (hnext.symm.trans ha)
    exact of_moves hm (hagain env out d hl)
  | .done .break env out, ⟨d, pc, hm, ⟨l, hloop, ha⟩, hl⟩ =>
    obtain rfl := Option.some.inj hloop
    obtain rfl := Option.some.inj (hdone.symm.trans ha)
    exact of_moves hm (hbreak env out d hl)
  | .done .return _ _, hf => exact hf
  | .stopped .divisionByZero _, hf => exact hf
  | .outOfFuel _, hf => exact hf

theorem Follows.turns {line : Int} {e : Option Expr} {u : Option Assign} {b : Stmt} {lp : Loop} {lstart : String}
    {s₁ s₂ s₃ s₄ : Supply} {cc bc uc : List Instr} {cs bs us : List Span} {stack : List Value} {start : Nat}
    (hlabels : LabelsOnce mc.code) (he : e.all Expr.isScalar = true) (hu : u.all Assign.isScalar = true)
    (hce : Context.optionIssues ctx.conditionIssues e = []) (hcu : Context.optionIssues ctx.assignIssues u = [])
    (hb : Performs m mc callers ctx (some lp) (.stmt (some lp) b) b.meaning)
    (htest : Emits ctx (.test line lp.done e) s₁ cc s₂ cs) (hbody : Emits ctx (.stmt (some lp) b) s₂ bc s₃ bs)
    (hupdate : Emits ctx (.update u) s₃ uc s₄ us) (hatStart : CodeAt mc.code start (onLine line [.label lstart]))
    (hatTest : CodeAt mc.code (start + 1) cc) (hatBody : CodeAt mc.code (start + 1 + cc.length) bc)
    (hatNext : CodeAt mc.code (start + 1 + cc.length + bc.length) (onLine line [.label lp.next]))
    (hatUpdate : CodeAt mc.code (start + 1 + cc.length + bc.length + 1) uc)
    (hatEnd : CodeAt mc.code (start + 1 + cc.length + bc.length + 1 + uc.length)
      (onLine line [.jump .always lstart, .label lp.done])) {fuel : Nat} {env : Env} {out : String} {d : Spot}
    (hd : Lands ctx.method env start stack out d) :
    Follows m mc callers ctx.method loop stack (start + 1 + cc.length + bc.length + 1 + uc.length + 2) fuel d
      (loopMeaning e u b.meaning fuel env out) := by
  have hstart := hlabels.offset hatStart.opAt
  have hnext := hlabels.offset hatNext.opAt
  have hdone := hlabels.offset hatEnd.tail.opAt
  have hleave : ∀ {n env out d}, Lands ctx.method env (start + 1 + cc.length + bc.length + 1 + uc.length + 1) stack
      out d → Follows m mc callers ctx.method loop stack (start + 1 + cc.length + bc.length + 1 + uc.length + 2) n d
        (.done .next env out) := fun hd => .label hd hatEnd.tail.opAt
  induction fuel generalizing env out d with
  | zero => exact ⟨d, .refl, hd.out⟩
  | succ fuel ih =>
    -- The first label is a step of its own, so each turn takes one at least.
    refine Follows.of_steps (Moves.label (hd.opAt hatStart.opAt)) (Nat.le_of_eq (Nat.add_comm fuel 1)) ?_
    rw [loopMeaning, hd.stack]
    refine .test hlabels he hce htest hdone hatTest (hd.next stack) (fun env d hd => ?_) fun env d hd => hleave hd
    refine .afterBody hdone hnext (hb hbody hatBody hd) (fun env out d hd => hleave hd) fun env out d hd => ?_
    refine .of_moves (Moves.label (hd.opAt hatNext.opAt)) ?_
    rw [hd.stack]
    refine (Performs.update hlabels hu hcu hupdate hatUpdate (hd.next stack)).andThen fun env out d hd => ?_
    refine .of_moves (Moves.jump_always (hd.opAt hatEnd.opAt) hstart) (ih ⟨rfl, hd.stack, hd.out, hd.agrees⟩)

theorem Performs.forLoop {t : Token} {i u : Option Assign} {e : Option Expr} {b : Stmt}
    (hlabels : LabelsOnce mc.code) (hi : i.all Assign.isScalar = true) (he : e.all Expr.isScalar = true)
    (hu : u.all Assign.isScalar = true) (hci : Context.optionIssues ctx.assignIssues i = [])
    (hce : Context.optionIssues ctx.conditionIssues e = []) (hcu : Context.optionIssues ctx.assignIssues u = [])
    (hb : ∀ lp, LoopPlaced mc.code (some lp) →
      Performs m mc callers ctx (some lp) (.stmt (some lp) b) b.meaning) :
    Performs m mc callers ctx loop (.stmt loop (.for t i e u b)) (Stmt.for t i e u b).meaning := by
  rintro s code s' sp ⟨hr, hp, rfl, -⟩ fuel c env pc stack out hat hl
  replace hp := Parts.iff_forall_mem.2 hp
  cases hr with
  | «for» =>
    simp only [Parts.ops_iff, Parts.part_iff, Parts.nil_iff] at hp
    obtain ⟨hinit, htest, hbody, hupdate, -⟩ := hp
    simp only [codeOf_cons, codeOf_nil, Item.code, List.append_nil, CodeAt.append_iff] at hat
    obtain ⟨hatInit, hatStart, hatTest, hatBody, hatNext, hatUpdate, hatEnd⟩ := hat
    simp only [Stmt.meaning]
    refine (Performs.update hlabels hi hci hinit hatInit hl).andThen fun env out d hd => ?_
    have hplaced : LoopPlaced mc.code (some ⟨s.label 1, s.label 2⟩) := by
      rintro l ⟨⟩
      exact ⟨⟨_, hlabels.offset hatEnd.tail.opAt⟩, _, hlabels.offset hatNext.opAt⟩
    have hturns : Follows m mc callers ctx.method loop stack _ fuel d _ := .turns hlabels he hu hce hcu
      (hb _ hplaced) htest hbody hupdate hatStart hatTest hatBody hatNext hatUpdate hatEnd hd
    simpa [Item.code, length_onLine, Nat.add_assoc] using hturns

theorem Performs.cond {t : Token} {e : Expr} {y : Stmt} {n : Option Stmt} (hlabels : LabelsOnce mc.code)
    (he : e.isScalar = true) (hc : ctx.conditionIssues e = [])
    (hy : Performs m mc callers ctx loop (.stmt loop y) y.meaning)
    (hn : Performs m mc callers ctx loop (.orElse loop n) (Stmt.meaningOfElse n)) :
    Performs m mc callers ctx loop (.stmt loop (.cond t e y n)) (Stmt.cond t e y n).meaning := by
  rintro s code s' sp ⟨hr, hp, rfl, -⟩ fuel c env pc stack out hat hl
  replace hp := Parts.iff_forall_mem.2 hp
  have hexpr := Expr.scalarExpr _ he
  have hissues := (Context.conditionIssues_bool hexpr hl.agrees.typed.vars hc).1
  cases hr with
  | cond =>
    simp only [Parts.ops_iff, Parts.part_iff, Parts.nil_iff] at hp
    obtain ⟨hcond, hyes, hno, -⟩ := hp
    simp only [codeOf_cons, codeOf_nil, Item.code, List.append_nil, CodeAt.append_iff] at hat
    obtain ⟨hatCond, hatJump, hatYes, hatMid, hatNo, hatEnd⟩ := hat
    have hcode : Yields m mc callers ctx.method c _ stack _ :=
      (hexpr.computes hlabels hissues).yields hcond hatCond hl
    obtain rfl := hl.out
    simp only [Stmt.meaning]
    refine .ofTest hcode (Context.evaluates_condition hexpr hl.agrees.typed hc) hatJump.opAt
      (hlabels.offset hatMid.tail.opAt) (fun env d hd => ?_) fun env d hd => ?_
    · refine (hy hyes hatYes hd).followedBy fun env out d hd => ?_
      have hjump : Moves m mc callers 1 d _ :=
        Moves.jump_always (hd.opAt hatMid.opAt) (hlabels.offset hatEnd.opAt)
      refine .of_moves hjump (Follows.at_end (.label ⟨rfl, hd.stack, hd.out, hd.agrees⟩ hatEnd.opAt) ?_)
      simp [Spot.goto, Item.code, length_onLine, Nat.add_assoc]
    · refine .of_moves (Moves.label (hd.opAt hatMid.tail.opAt)) ?_
      rw [hd.stack]
      refine (hn hno hatNo (hd.next stack)).followedBy fun env out d hd => ?_
      refine Follows.at_end (.label hd hatEnd.opAt) ?_
      simp [Item.code, length_onLine, Nat.add_assoc]

theorem Scalar.run_printer (m : Machine) (h : Heap) {x : Scalar} {t : Ty} (ht : x.HasTy t) {p : NativeMethod}
    (hp : t.printer? = some p) :
    p.arity = 1 ∧ p.answers = false ∧ p.run m h .stream [x.value] = .ok (.value .null h x.text) := by
  obtain ⟨a, rfl, rfl⟩ | ⟨b, rfl, rfl⟩ | ⟨s, rfl, rfl⟩ := ht.cases <;> cases hp
  · exact ⟨rfl, rfl, rfl⟩
  · refine ⟨rfl, rfl, ?_⟩
    simp [NativeMethod.run, argument, Scalar.value, Scalar.text]
  · exact ⟨rfl, rfl, rfl⟩

theorem Performs.print {t : Token} {x : Expr} (hlabels : LabelsOnce mc.code) (hs : x.isScalar = true)
    (hc : (ctx.infer x).issues = []) :
    Performs m mc callers ctx loop (.stmt loop (.print t x)) (Stmt.print t x).meaning := by
  rintro s code s' sp ⟨hr, hp, rfl, -⟩ fuel c env pc stack out hat hl
  replace hp := Parts.iff_forall_mem.2 hp
  have hexpr := Expr.scalarExpr _ hs
  cases hr with
  | print hprinter =>
    simp only [Parts.ops_iff, Parts.part_iff, Parts.nil_iff] at hp
    simp only [codeOf_cons, codeOf_nil, Item.code, List.append_nil, CodeAt.append_iff] at hat
    obtain ⟨hatStream, hatExpr, hatCall⟩ := hat
    refine .of_moves (Moves.getStatic (hl.opAt hatStream.opAt)) ?_
    rw [hl.stack]
    have hl := hl.next (.stream :: stack)
    have hy : Yields m mc callers ctx.method _ _ (.stream :: stack) _ :=
      (hexpr.computes hlabels hc).yields hp.1 hatExpr hl
    obtain rfl := hl.out
    simp only [Stmt.meaning]
    refine .ofValue hy fun y d hy hd => ?_
    have hty := ((Context.eval_typed hexpr hc hl.agrees.typed).ok hy).1
    obtain ⟨harity, hanswers, hrun⟩ := Scalar.run_printer m d.heap hty hprinter
    have hcall : Moves m mc callers 1 d _ := Moves.invokeVirtual [y.1.value] (hd.opAt hatCall.opAt) hd.stack
      harity.symm rfl hrun
    refine .next hcall ⟨?_, by simp [Spot.next, hanswers], by simp [hd.out], hd.agrees⟩
    simp [Spot.next, Item.code, length_onLine, hd.pc, Nat.add_assoc]

theorem Follows.jump {exit : Exit} {pc k after fuel : Nat} {c : Spot} {env : Env} {stack : List Value} {out : String}
    {l : String} (hjump : OpAt mc.code pc (.jump .always l)) (hk : mc.code.labelOffset? l = some k)
    (ha : Arrives mc.code loop after exit k) (hl : Lands ctx.method env pc stack out c) :
    Follows m mc callers ctx.method loop stack after fuel c (.done exit env out) :=
  .done (Moves.jump_always (hl.opAt hjump) hk) ha ⟨rfl, hl.stack, hl.out, hl.agrees⟩

end

variable {m : Machine} {mc : MethodCode} {callers : Outer} {ctx : Context}

mutual

/-- The code of an accepted scalar statement does what the statement means. -/
theorem Stmt.performs (x : Stmt) {loop : Option Loop} (hlabels : LabelsOnce mc.code) (hs : x.isScalar = true)
    (hc : ctx.stmtIssues loop.isSome x = []) (hloop : LoopPlaced mc.code loop) :
    Performs m mc callers ctx loop (.stmt loop x) x.meaning := by
  match x with
  | .assign a =>
    rintro s code s' sp ⟨hr, hp, rfl, -⟩ fuel c env pc stack out hat hl
    replace hp := Parts.iff_forall_mem.2 hp
    cases hr with
    | assign =>
      simp only [Parts.ops_iff, Parts.part_iff, Parts.nil_iff] at hp
      simp only [Stmt.meaning]
      exact .assignment hlabels (by simpa [Stmt.isScalar] using hs) (by simpa [Context.stmtIssues] using hc) hp.1 hat hl
  | .block _ xs =>
    rintro s code s' sp ⟨hr, hp, rfl, -⟩ fuel c env pc stack out hat hl
    replace hp := Parts.iff_forall_mem.2 hp
    simp only [Stmt.isScalar] at hs
    simp only [Context.stmtIssues] at hc
    cases hr with
    | block =>
      simp only [Parts.part_iff, Parts.nil_iff] at hp
      simp only [codeOf_cons, codeOf_nil, Item.code, List.append_nil] at hat ⊢
      simp only [Stmt.meaning]
      exact Stmt.performsAll xs hlabels hs hc hloop hp.1 hat hl
  | .cond t e y n =>
    simp only [Stmt.isScalar, Bool.and_eq_true] at hs
    simp only [Context.stmtIssues, List.append_eq_nil_iff] at hc
    exact .cond hlabels hs.1.1 hc.1.1 (Stmt.performs y hlabels hs.1.2 hc.1.2 hloop)
      (Stmt.performsElse n hlabels hs.2 hc.2 hloop)
  | .print t e =>
    simp only [Stmt.isScalar] at hs
    simp only [Context.stmtIssues, List.append_eq_nil_iff] at hc
    exact .print hlabels hs hc.1
  | .ret t none =>
    rintro s code s' sp ⟨hr, -, rfl, -⟩ fuel c env pc stack out hat hl
    cases hr with
    | ret =>
      simp only [codeOf_cons, codeOf_nil, Item.code, List.append_nil] at hat
      exact .done .refl hat.opAt hl
  | .for t i e u b =>
    simp only [Stmt.isScalar, Bool.and_eq_true] at hs
    simp only [Context.stmtIssues, List.append_eq_nil_iff] at hc
    exact .forLoop hlabels hs.1.1.1 hs.1.1.2 hs.1.2 hc.1.1.1 hc.1.1.2 hc.1.2 fun lp hlp =>
      Stmt.performs b hlabels hs.2 hc.2 hlp
  | .break t =>
    rintro s code s' sp ⟨hr, -, rfl, -⟩ fuel c env pc stack out hat hl
    cases hr with
    | «break» =>
      simp only [codeOf_cons, codeOf_nil, Item.code, List.append_nil] at hat
      obtain ⟨k, hk⟩ := (hloop _ rfl).1
      exact .jump hat.opAt hk ⟨_, rfl, hk⟩ hl
  | .continue t =>
    rintro s code s' sp ⟨hr, -, rfl, -⟩ fuel c env pc stack out hat hl
    cases hr with
    | «continue» =>
      simp only [codeOf_cons, codeOf_nil, Item.code, List.append_nil] at hat
      obtain ⟨k, hk⟩ := (hloop _ rfl).2
      exact .jump hat.opAt hk ⟨_, rfl, hk⟩ hl
  | .ret t (some e) => simp [Stmt.isScalar] at hs
  | .call _ _ _ | .foreach _ _ _ _ => simp [Stmt.isScalar] at hs

theorem Stmt.performsAll (xs : List Stmt) {loop : Option Loop} (hlabels : LabelsOnce mc.code)
    (hs : Stmt.allScalar xs = true) (hc : ctx.stmtsIssues loop.isSome xs = []) (hloop : LoopPlaced mc.code loop) :
    Performs m mc callers ctx loop (.stmts loop xs) (Stmt.meaningOfAll xs) := by
  match xs with
  | [] =>
    rintro s code s' sp ⟨hr, -, rfl, -⟩ fuel c env pc stack out hat hl
    cases hr with
    | noStmts => exact .next .refl hl
  | x :: xs =>
    simp only [Stmt.allScalar, Bool.and_eq_true] at hs
    simp only [Context.stmtsIssues, List.append_eq_nil_iff] at hc
    rintro s code s' sp ⟨hr, hp, rfl, -⟩ fuel c env pc stack out hat hl
    replace hp := Parts.iff_forall_mem.2 hp
    cases hr with
    | stmts =>
      simp only [Parts.part_iff, Parts.nil_iff] at hp
      simp only [codeOf_cons, codeOf_nil, Item.code, List.append_nil, CodeAt.append_iff, List.length_append,
        ← Nat.add_assoc] at hat ⊢
      refine (Stmt.performs x hlabels hs.1 hc.1 hloop hp.1 hat.1 hl).andThen fun env out d hd => ?_
      exact Stmt.performsAll xs hlabels hs.2 hc.2 hloop hp.2.1 hat.2 hd

theorem Stmt.performsElse (x : Option Stmt) {loop : Option Loop} (hlabels : LabelsOnce mc.code)
    (hs : Stmt.elseScalar x = true) (hc : ctx.elseIssues loop.isSome x = []) (hloop : LoopPlaced mc.code loop) :
    Performs m mc callers ctx loop (.orElse loop x) (Stmt.meaningOfElse x) := by
  match x with
  | none =>
    rintro s code s' sp ⟨hr, -, rfl, -⟩ fuel c env pc stack out hat hl
    cases hr with
    | noElse => exact .next .refl hl
  | some x =>
    rintro s code s' sp ⟨hr, hp, rfl, -⟩ fuel c env pc stack out hat hl
    replace hp := Parts.iff_forall_mem.2 hp
    cases hr with
    | orElse =>
      simp only [Parts.part_iff, Parts.nil_iff] at hp
      simp only [codeOf_cons, codeOf_nil, Item.code, List.append_nil] at hat ⊢
      exact Stmt.performs x hlabels hs hc hloop hp.1 hat hl

end

end ClassCompiler
