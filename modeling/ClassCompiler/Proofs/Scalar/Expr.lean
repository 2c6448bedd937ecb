import ClassCompiler.Proofs.Compile.Layout
import ClassCompiler.Proofs.Scalar.Held

namespace ClassCompiler

/-- A spot at a position, with a stack, where the slots agree with an environment. -/
structure Lands (method : MethodDecl) (env : Env) (pc : Nat) (stack : List Value) (out : String) (d : Spot) :
    Prop where
  pc : d.pc = pc
  stack : d.stack = stack
  out : d.out = out
  agrees : Agrees method env d.locals d.heap

/-- From a spot on, a run puts the value of an evaluation on a stack and comes to a position, or it
divides by zero as the evaluation does. -/
def Yields (m : Machine) (mc : MethodCode) (callers : Outer) (method : MethodDecl) (c : Spot) (pc : Nat)
    (stack : List Value) : Except Stop (Scalar × Env) → Prop
  | .ok x => ∃ d, Moves m mc callers 0 c d ∧ Lands method x.2 pc (x.1.value :: stack) c.out d
  | .error .divisionByZero => Divides m mc callers c c.out
  | .error .stuck => False

namespace Yields

variable {m : Machine} {mc : MethodCode} {callers : Outer} {method : MethodDecl} {c d : Spot}
  {pc pc' : Nat} {stack stack' : List Value} {r : Except Stop (Scalar × Env)}

theorem of_moves {i : Nat} (h : Moves m mc callers i c d) (ho : d.out = c.out)
    (hy : Yields m mc callers method d pc stack r) : Yields m mc callers method c pc stack r := by
  match r, hy with
  | .ok x, ⟨d', hm, hl⟩ => exact ⟨d', (h.trans hm).weaken (Nat.zero_le _), ho ▸ hl⟩
  | .error .divisionByZero, hy => exact h.divides (ho ▸ hy)

theorem value {x : Scalar × Env} {i : Nat} (h : Moves m mc callers i c d)
    (hl : Lands method x.2 pc (x.1.value :: stack) c.out d) :
    Yields m mc callers method c pc stack (.ok x) := ⟨d, h.weaken (Nat.zero_le _), hl⟩

theorem bind {k : Scalar × Env → Except Stop (Scalar × Env)} (h : Yields m mc callers method c pc stack r)
    (hk : ∀ x d, r = .ok x → Lands method x.2 pc (x.1.value :: stack) c.out d →
      Yields m mc callers method d pc' stack' (k x)) : Yields m mc callers method c pc' stack' (r >>= k) := by
  match r, h with
  | .ok x, ⟨d, hm, hl⟩ => exact of_moves hm hl.out (hk x d rfl hl)
  | .error .divisionByZero, h => exact h

theorem andThen (h : Yields m mc callers method c pc stack r)
    (hk : ∀ x d, r = .ok x → Lands method x.2 pc (x.1.value :: stack) c.out d →
      Yields m mc callers method d pc' stack' (.ok x)) : Yields m mc callers method c pc' stack' r := by
  have hbind := bind (k := .ok) h hk
  cases r <;> exact hbind

theorem at_pc (h : Yields m mc callers method c pc stack r) (hpc : pc = pc') :
    Yields m mc callers method c pc' stack r := hpc ▸ h

end Yields

namespace Scalar

theorem wrap_add (a b : Int32) : wrap (a.toInt + b.toInt) = .int (a + b) := by simp [wrap]

theorem wrap_sub (a b : Int32) : wrap (a.toInt - b.toInt) = .int (a - b) := by simp [wrap]

theorem wrap_mul (a b : Int32) : wrap (a.toInt * b.toInt) = .int (a * b) := by simp [wrap]

theorem wrap_neg (a : Int32) : wrap (-a.toInt) = .int (-a) := by simp [wrap]

theorem wrap_tdiv (a b : Int32) : wrap (a.toInt.tdiv b.toInt) = .int (a / b) := by
  rw [wrap, (Int32.ofInt_eq_iff_bmod_eq_toInt _ _).2 (Int32.toInt_div a b).symm]

theorem wrap_tmod (a b : Int32) : wrap (a.toInt.tmod b.toInt) = .int (a % b) := by
  rw [wrap, ← Int32.toInt_mod, Int32.ofInt_toInt]

end Scalar

theorem toInt_eq_zero_iff {a : Int32} : a.toInt = 0 ↔ a = 0 := by
  rw [← Int32.toInt_inj]
  rfl

/-- The machine calculates what the operations mean. -/
theorem BinOp.apply_arith {op : BinOp} {a : ArithOp} (ho : op.arith? = some a) (x y : Int32) :
    (∃ z, a.apply x y = .ok z ∧ op.apply (.int x) (.int y) = .ok (.int z)) ∨
      a.apply x y = fault .divisionByZero ∧ op.apply (.int x) (.int y) = .error .divisionByZero := by
  cases op <;> cases ho
  case add => exact .inl ⟨_, rfl, by rw [BinOp.apply, Scalar.wrap_add]⟩
  case sub => exact .inl ⟨_, rfl, by rw [BinOp.apply, Scalar.wrap_sub]⟩
  case mul => exact .inl ⟨_, rfl, by rw [BinOp.apply, Scalar.wrap_mul]⟩
  case div | mod =>
    by_cases hy : y = 0
    · exact .inr (by simp [ArithOp.apply, BinOp.apply, hy])
    · simp [ArithOp.apply, BinOp.apply, hy, toInt_eq_zero_iff, Scalar.wrap_tdiv, Scalar.wrap_tmod]

@[simp] theorem Value.toInt32_ofBool (b : Bool) : (Value.ofBool b).toInt32 = if b then 1 else 0 := rfl

theorem Jump.decide_ifZero {f : Frame} {b : Bool} {vs : List Value} (hf : f.stack = .ofBool b :: vs) :
    Jump.ifZero.decide f = .ok (!b, { f with stack := vs }) := by
  cases b <;> simp [Jump.decide, Frame.pop, hf, bind, Except.bind, pure, Except.pure]

theorem Jump.decide_ifNonzero {f : Frame} {b : Bool} {vs : List Value} (hf : f.stack = .ofBool b :: vs) :
    Jump.ifNonzero.decide f = .ok (b, { f with stack := vs }) := by
  cases b <;> simp [Jump.decide, Frame.pop, hf, bind, Except.bind, pure, Except.pure]

theorem Context.equality_scalar {ctx : Context} {op : BinOp} {pos : Pos} {t u : Ty} (ht : t.isScalar = true)
    (hu : u.isScalar = true) (hc : (ctx.equality pos op t u).issues = []) : t = u := by
  cases t <;> simp [Ty.isScalar] at ht <;> cases u <;> simp [Ty.isScalar] at hu <;>
    simp_all [equality, Ty.isList, Ty.isNull, Ty.isNoType, Program.equivalent, Ty.equivalent, Ty.isSubtype,
      Typed.value]

/-- The jump of a comparison is taken if the comparison holds. -/
theorem BinOp.comparison_decide {ctx : Context} {op : BinOp} {pos : Pos} {x y : Scalar} {t u : Ty}
    (ho : op.isComparison = true) (hx : x.HasTy t) (hy : y.HasTy u)
    (hc : (ctx.operation pos op t u).issues = []) (vs : List Value) :
    ∃ b, op.apply x y = .ok (.bool b) ∧ ∀ f : Frame, f.stack = y.value :: x.value :: vs →
      (op.comparison t.isPrimitive).decide f = .ok (b, { f with stack := vs }) := by
  cases op <;> simp only [BinOp.isComparison, Bool.false_eq_true] at ho
  case lt | gt =>
    simp only [Context.operation] at hc
    obtain ⟨-, hwx, hwy⟩ := Context.operands_known hx.known.isNoType hy.known.isNoType hc
    obtain ⟨a, rfl, rfl⟩ | ⟨b, rfl, rfl⟩ | ⟨s, rfl, rfl⟩ := hx.cases <;> simp [Ty.isInt] at hwx
    obtain ⟨b, rfl, rfl⟩ | ⟨b, rfl, rfl⟩ | ⟨s, rfl, rfl⟩ := hy.cases <;> simp [Ty.isInt] at hwy
    refine ⟨_, rfl, fun f hf => ?_⟩
    simp only [BinOp.comparison, Jump.decide_ints hf, Scalar.value, Value.toInt32, IntTest.holds,
      Int32.lt_iff_toInt_lt]
  case eq | ne =>
    have htu := Context.equality_scalar hx.isScalar hy.isScalar hc
    subst htu
    refine ⟨_, rfl, fun f hf => ?_⟩
    obtain ⟨a, rfl, rfl⟩ | ⟨a, rfl, rfl⟩ | ⟨a, rfl, rfl⟩ := hx.cases
    · obtain ⟨b, rfl⟩ := hy.int
      by_cases hab : a = b <;>
        simp [BinOp.comparison, Ty.isPrimitive, Jump.decide_ints hf, Scalar.value, Value.toInt32, IntTest.holds, hab]
    · obtain ⟨b, rfl⟩ := hy.bool
      simp only [BinOp.comparison, Ty.isPrimitive, if_true, Jump.decide_ints hf]
      cases a <;> cases b <;> simp [Scalar.value, IntTest.holds]
    · obtain ⟨b, rfl⟩ := hy.string
      simp [BinOp.comparison, Ty.isPrimitive, Jump.decide, Frame.popTwo, hf, bind, Except.bind, pure,
        Except.pure, Scalar.value]

section

variable {m : Machine} {mc : MethodCode} {callers : Outer} {c : Spot} {line : Int} {vs : List Value}
  {x : Scalar} {t : Ty}

theorem Moves.unbox {v : Value} (hat : CodeAt mc.code c.pc (onLine line (unbox t))) (hs : c.stack = v :: vs)
    (hk : x.KeptAs c.heap v) (ht : x.HasTy t) :
    Moves m mc callers 0 c { c with pc := c.pc + (ClassCompiler.unbox t).length, stack := x.value :: vs } := by
  obtain ⟨a, rfl, rfl⟩ | ⟨b, rfl, rfl⟩ | ⟨s, rfl, rfl⟩ := ht.cases
  · have hv : v.isNull = false := by cases v <;> simp_all [Scalar.KeptAs, Heap.get?, Value.isNull]
    have hrun : NativeMethod.intValue.run m c.heap v [] = .ok (.value (.int a) c.heap "") := by
      have hget : c.heap.get? v = some (.integer a) := hk
      simp only [NativeMethod.run, hget]
    have hmove : Moves m mc callers 1 c _ := Moves.invokeVirtual [] hat.opAt hs rfl hv hrun
    simpa [NativeMethod.answers, Spot.next, ClassCompiler.unbox, Scalar.value] using hmove.weaken (Nat.zero_le _)
  · have hv : v.isNull = false := by cases v <;> simp_all [Scalar.KeptAs, Heap.get?, Value.isNull]
    have hrun : NativeMethod.booleanValue.run m c.heap v [] = .ok (.value (.ofBool b) c.heap "") := by
      have hget : c.heap.get? v = some (.boolean b) := hk
      simp only [NativeMethod.run, hget]
    have hmove : Moves m mc callers 1 c _ := Moves.invokeVirtual [] hat.opAt hs rfl hv hrun
    simpa [NativeMethod.answers, Spot.next, ClassCompiler.unbox, Scalar.value] using hmove.weaken (Nat.zero_le _)
  · obtain rfl : v = .str s := hk
    have hsame : c = { c with pc := c.pc + (ClassCompiler.unbox .string).length, stack := .str s :: vs } := by
      rw [← hs]
      rfl
    exact hsame ▸ Moves.refl

theorem Moves.box (m : Machine) (callers : Outer) (hat : CodeAt mc.code c.pc (onLine line (box t))) (hs : c.stack = x.value :: vs)
    (ht : x.HasTy t) : ∃ v heap, c.heap.Grows heap ∧ x.KeptAs heap v ∧ Moves m mc callers 0 c
      { c with pc := c.pc + (ClassCompiler.box t).length, stack := v :: vs, heap } := by
  obtain ⟨a, rfl, rfl⟩ | ⟨b, rfl, rfl⟩ | ⟨s, rfl, rfl⟩ := ht.cases
  · refine ⟨_, _, Heap.Grows.push c.heap (.integer a), Heap.get?_push _ _, ?_⟩
    exact (Moves.invokeStatic hat.opAt hs).weaken (Nat.zero_le _)
  · refine ⟨_, _, Heap.Grows.push c.heap (.boolean b), Heap.get?_push _ _, ?_⟩
    have hmove : Moves m mc callers 1 c _ := Moves.invokeStatic hat.opAt hs
    simp only [NativeStatic.run, argument, Scalar.value, List.getElem?_cons_zero, Option.getD_some,
      Value.toBool_ofBool] at hmove
    exact hmove.weaken (Nat.zero_le _)
  · refine ⟨_, _, Heap.Grows.refl, rfl, ?_⟩
    have hsame : c = { c with pc := c.pc + (ClassCompiler.box .string).length, stack := .str s :: vs } := by
      rw [show Value.str s = Scalar.value (.str s) from rfl, ← hs]
      rfl
    exact hsame ▸ Moves.refl

theorem Moves.branchTaken {jump : Jump} {taken : Int} {yes after : String} {k : Nat}
    (hat : CodeAt mc.code k (onLine line (branchMerge jump taken yes after))) (hpc : c.pc = k + 3) :
    Moves m mc callers 0 c { c with pc := k + 6, stack := .int (Int32.ofInt taken) :: c.stack } := by
  have h₃ := hat.tail.tail.tail
  have hlabel : Moves m mc callers 1 c (c.next c.stack) := Moves.label (by rw [hpc]; exact h₃.opAt)
  have hpush := hlabel.trans (Moves.pushInt (c := c.next c.stack) (n := taken)
    (by simp only [Spot.next, hpc]; exact h₃.tail.opAt))
  have hend := hpush.trans (Moves.label (l := after) (by simp only [Spot.next, hpc]; exact h₃.tail.tail.opAt))
  simpa [Spot.next, hpc] using hend.weaken (Nat.zero_le _)

theorem Moves.branchMerge {jump : Jump} {taken : Int} {yes after : String} {b : Bool}
    (hat : CodeAt mc.code c.pc (onLine line (branchMerge jump taken yes after))) (hlabels : LabelsOnce mc.code)
    (hd : ∀ f : Frame, f.stack = c.stack → jump.decide f = .ok (b, { f with stack := vs })) :
    Moves m mc callers 0 c
      { c with pc := c.pc + 6, stack := .int (Int32.ofInt (if b then taken else 1 - taken)) :: vs } := by
  have hyes := hlabels.offset hat.tail.tail.tail.opAt
  have hafter := hlabels.offset hat.tail.tail.tail.tail.tail.opAt
  have hjump : Moves m mc callers 1 c _ := Moves.jump hat.opAt hyes hd
  cases b with
  | true => exact (hjump.trans (Moves.branchTaken (c := c.goto (c.pc + 3) vs) hat rfl)).weaken (Nat.zero_le _)
  | false =>
    have hpush := hjump.trans (Moves.pushInt (c := c.next vs) hat.tail.opAt)
    have hskip := hpush.trans (Moves.jump_always hat.tail.tail.opAt hafter)
    have hend := hskip.trans (Moves.label (l := after) hat.tail.tail.tail.tail.tail.opAt)
    exact hend.weaken (Nat.zero_le _)

end

section

variable {m : Machine} {mc : MethodCode} {callers : Outer} {ctx : Context} {c : Spot} {line : Int}
  {vs : List Value} {env : Env} {pos : Pos}

/-- Two operands on the stack are replaced by the result of an operation. -/
theorem Yields.arith {op : BinOp} {a : ArithOp} {x y : Scalar} {t u : Ty} (ho : op.arith? = some a)
    (hat : CodeAt mc.code c.pc (onLine line [.arith a])) (hs : c.stack = y.value :: x.value :: vs)
    (hx : x.HasTy t) (hy : y.HasTy u) (hc : (ctx.operation pos op t u).issues = [])
    (hagrees : Agrees ctx.method env c.locals c.heap) :
    Yields m mc callers ctx.method c (c.pc + 1) vs (do return (← op.apply x y, env)) := by
  have hints : (∃ i, x = .int i) ∧ ∃ j, y = .int j := by
    have hwanted : (Context.operands pos op Ty.isInt .int t u).issues = [] := by
      cases op <;> simp_all [BinOp.arith?, Context.operation]
    obtain ⟨-, hwx, hwy⟩ := Context.operands_known hx.known.isNoType hy.known.isNoType hwanted
    obtain ⟨a, rfl, rfl⟩ | ⟨b, rfl, rfl⟩ | ⟨s, rfl, rfl⟩ := hx.cases <;> simp [Ty.isInt] at hwx
    obtain ⟨b, rfl, rfl⟩ | ⟨b, rfl, rfl⟩ | ⟨s, rfl, rfl⟩ := hy.cases <;> simp [Ty.isInt] at hwy
    exact ⟨⟨_, rfl⟩, _, rfl⟩
  obtain ⟨⟨i, rfl⟩, j, rfl⟩ := hints
  rcases BinOp.apply_arith ho i j with ⟨z, hz, hop⟩ | ⟨hz, hop⟩
  · rw [hop]
    exact .value (Moves.arith hat.opAt hs hz) ⟨rfl, rfl, rfl, hagrees⟩
  · rw [hop]
    exact Divides.arith hat.opAt hs hz

theorem Yields.compare {op : BinOp} {x y : Scalar} {t u : Ty} {yes after : String} (ho : op.isComparison = true)
    (hat : CodeAt mc.code c.pc (onLine line (branchMerge (op.comparison t.isPrimitive) 1 yes after)))
    (hlabels : LabelsOnce mc.code) (hs : c.stack = y.value :: x.value :: vs) (hx : x.HasTy t) (hy : y.HasTy u)
    (hc : (ctx.operation pos op t u).issues = []) (hagrees : Agrees ctx.method env c.locals c.heap) :
    Yields m mc callers ctx.method c (c.pc + 6) vs (do return (← op.apply x y, env)) := by
  obtain ⟨b, hop, hd⟩ := BinOp.comparison_decide ho hx hy hc vs
  rw [hop]
  refine .value (Moves.branchMerge hat hlabels fun f hf => hd f (hf.trans hs)) ⟨rfl, ?_, rfl, hagrees⟩
  cases b <;> rfl

/-- Keeps the value on the stack in a variable, too. -/
theorem Yields.store {v : Ident} {sym : Symbol} {x : Scalar} {t : Ty} (hsym : ctx.method.symbol? v.name = some sym)
    (hat : CodeAt mc.code c.pc (onLine line (.dup :: box t ++ [.store .ref sym.slot])))
    (hs : c.stack = x.value :: vs) (hx : x.HasTy t) (hsub : x.HasTy sym.type)
    (hagrees : Agrees ctx.method env c.locals c.heap) :
    Yields m mc callers ctx.method c (c.pc + (box t).length + 2) vs (.ok (x, env.set v.name x)) := by
  have hdup : Moves m mc callers 1 c _ := Moves.dup hat.opAt hs
  obtain ⟨hbox, hstore⟩ := CodeAt.onLine_append_iff.1 hat.tail
  obtain ⟨w, heap, hg, hk, hmove⟩ := Moves.box m callers
    (c := c.next (x.value :: x.value :: vs)) hbox rfl hx
  have hagrees := hagrees.grows hg
  have hput := (hdup.trans hmove).trans (Moves.store hstore.opAt rfl (hagrees.slot_lt hsym))
  refine .value hput ⟨?_, rfl, rfl, hagrees.set hsym hk hsub⟩
  simp only [Spot.next]
  omega

/-- The new value of a variable on top of the result of changing it. -/
theorem Moves.change {op : UnOp} {a : Int32} (hs : c.stack = .int a :: vs)
    (hat : CodeAt mc.code c.pc (onLine line (if op.isPre then [.pushInt op.delta, .arith .add] ++ [.dup]
      else .dup :: [.pushInt op.delta, .arith .add]))) :
    Moves m mc callers 0 c (c.goto (c.pc + 3) (.int (a + Int32.ofInt op.delta) ::
      .int (if op.isPre then a + Int32.ofInt op.delta else a) :: vs)) := by
  cases hp : op.isPre with
  | true =>
    simp only [hp, if_true] at hat ⊢
    have hpush : Moves m mc callers 1 c _ := Moves.pushInt hat.opAt
    have hadd := hpush.trans (Moves.arith (r := a + Int32.ofInt op.delta) hat.tail.opAt
      (by simp only [Spot.next, hs]; rfl) rfl)
    exact (hadd.trans (Moves.dup hat.tail.tail.opAt rfl)).weaken (Nat.zero_le _)
  | false =>
    simp only [hp, Bool.false_eq_true, if_false] at hat ⊢
    have hdup : Moves m mc callers 1 c _ := Moves.dup hat.opAt hs
    have hpush := hdup.trans (Moves.pushInt hat.tail.opAt)
    exact (hpush.trans (Moves.arith hat.tail.tail.opAt rfl rfl)).weaken (Nat.zero_le _)

theorem Yields.change {op : UnOp} {v : Ident} {sym : Symbol} (hsym : ctx.method.symbol? v.name = some sym)
    (hint : sym.type = .int) (hat : CodeAt mc.code c.pc (onLine line (changeVariable sym.slot op)))
    (hagrees : Agrees ctx.method env c.locals c.heap) :
    Yields m mc callers ctx.method c (c.pc + (changeVariable sym.slot op).length) c.stack
      (op.change v.name env) := by
  obtain ⟨w, hw, hk⟩ := hagrees.kept v.name sym hsym
  have ht := hagrees.typed v.name sym hsym
  obtain ⟨a, ha⟩ := (hint ▸ ht).int
  rw [ha] at hk
  have hlen : (if op.isPre then [.pushInt op.delta, .arith .add] ++ [.dup]
    else Op.dup :: [.pushInt op.delta, .arith .add]).length = 3 := by split <;> rfl
  simp only [changeVariable, CodeAt.onLine_append_iff, List.length_append, hlen] at hat
  obtain ⟨⟨⟨hread, hchange⟩, hbox⟩, hstore⟩ := hat
  have hload : Moves m mc callers 1 c _ := Moves.load hread.opAt hw
  have hunbox := hload.trans (Moves.unbox (x := .int a) hread.tail rfl hk trivial)
  have hnew := hunbox.trans (Moves.change rfl hchange)
  obtain ⟨w', heap, hg, hk', hmove⟩ := Moves.box m callers
    (c := ⟨c.pc + 5, _, c.locals, c.heap, c.out⟩) (x := .int (a + Int32.ofInt op.delta)) hbox rfl trivial
  have hagrees := hagrees.grows hg
  have hput := (hnew.trans hmove).trans (Moves.store hstore.opAt rfl (hagrees.slot_lt hsym))
  have hset := hagrees.set hsym hk' (hint ▸ trivial)
  have hchanged : op.change v.name env =
      .ok (.int (if op.isPre then a + Int32.ofInt op.delta else a),
        env.set v.name (.int (a + Int32.ofInt op.delta))) := by
    simp only [UnOp.change, ha, Scalar.wrap, Int32.ofInt_add, Int32.ofInt_toInt]
    split <;> rfl
  rw [hchanged]
  refine .value hput ⟨?_, rfl, rfl, hset⟩
  simp only [changeVariable, List.length_append, hlen, Spot.next]
  rfl

/-- A logical operation is decided by one truth value of the left operand. -/
theorem BinOp.shortcut?_some {op : BinOp} {exit : Jump} {decided : Int} (ho : op.shortcut? = some (exit, decided)) :
    ∃ k : Bool, decided = (if k then 1 else 0) ∧
      (∀ (b : Bool) (vs : List Value) (f : Frame), f.stack = .ofBool b :: vs →
        exit.decide f = .ok (b == k, { f with stack := vs })) ∧
      ∀ t l r env, (Expr.binary t op l r).eval env = (do
        let x ← l.eval env
        x.1.test (if k then .ok (.bool k, x.2) else r.eval x.2) (if k then r.eval x.2 else .ok (.bool k, x.2))) := by
  cases op <;> cases ho
  case and =>
    refine ⟨false, rfl, fun b vs f hf => ?_, fun t l r env => by simp [Expr.eval]⟩
    rw [Jump.decide_ifZero hf]
    cases b <;> rfl
  case or =>
    refine ⟨true, rfl, fun b vs f hf => ?_, fun t l r env => by simp [Expr.eval]⟩
    rw [Jump.decide_ifNonzero hf]
    cases b <;> rfl

theorem Yields.branchMerge {r : Except Stop (Scalar × Env)} {exit : Jump} {k : Bool} {yes after : String} {pc : Nat}
    (hd : ∀ (b : Bool) (vs : List Value) (f : Frame), f.stack = .ofBool b :: vs →
      exit.decide f = .ok (b == k, { f with stack := vs }))
    (hat : CodeAt mc.code pc (onLine line (branchMerge exit (if k then 1 else 0) yes after)))
    (hlabels : LabelsOnce mc.code) (hr : Evaluates ctx.method .bool r)
    (hy : Yields m mc callers ctx.method c pc vs r) : Yields m mc callers ctx.method c (pc + 6) vs r := by
  refine hy.andThen fun x d hx hd' => ?_
  obtain ⟨v, env'⟩ := x
  obtain ⟨b, rfl⟩ := (hr.ok hx).1.bool
  obtain rfl := hd'.pc
  refine .value (Moves.branchMerge hat hlabels fun f hf => hd b vs f (hf.trans hd'.stack))
    ⟨rfl, ?_, rfl, hd'.agrees⟩
  cases b <;> cases k <;> rfl

end

/-- The code of an expression, wherever it stands in a method, computes what the expression means. -/
def Computes (m : Machine) (mc : MethodCode) (callers : Outer) (ctx : Context) (e : Expr) : Prop :=
  ∀ ⦃s code s' sp⦄, Emits ctx (.expr e) s code s' sp → ∀ ⦃c : Spot⦄ ⦃env : Env⦄, CodeAt mc.code c.pc code →
    Agrees ctx.method env c.locals c.heap →
    Yields m mc callers ctx.method c (c.pc + code.length) c.stack (e.eval env)

namespace Computes

variable {m : Machine} {mc : MethodCode} {callers : Outer} {ctx : Context} {t : Token} {l r : Expr}

attribute [local simp] Item.code Expr.eval Context.infer

theorem int (v : Int) : Computes m mc callers ctx (.int t v) := by
  rintro s code s' sp ⟨hr, -, rfl, -⟩ c env hat hagrees
  cases hr
  simp only [codeOf_cons, Item.code, codeOf_nil, List.append_nil] at hat ⊢
  exact .value (Moves.pushInt hat.opAt) ⟨rfl, rfl, rfl, hagrees⟩

theorem bool (b : Bool) : Computes m mc callers ctx (.bool t b) := by
  rintro s code s' sp ⟨hr, -, rfl, -⟩ c env hat hagrees
  cases hr
  simp only [codeOf_cons, Item.code, codeOf_nil, List.append_nil] at hat ⊢
  exact .value (Moves.pushInt hat.opAt) ⟨rfl, by cases b <;> rfl, rfl, hagrees⟩

theorem string (v : String) : Computes m mc callers ctx (.string t v) := by
  rintro s code s' sp ⟨hr, -, rfl, -⟩ c env hat hagrees
  cases hr
  simp only [codeOf_cons, Item.code, codeOf_nil, List.append_nil] at hat ⊢
  exact .value (Moves.pushString hat.opAt) ⟨rfl, rfl, rfl, hagrees⟩

theorem ident (v : Ident) : Computes m mc callers ctx (.ident v) := by
  rintro s code s' sp ⟨hr, -, rfl, -⟩ c env hat hagrees
  cases hr with | ident hs =>
  simp only [codeOf_cons, Item.code, codeOf_nil, List.append_nil] at hat ⊢
  obtain ⟨w, hw, hk⟩ := hagrees.kept v.name _ hs
  have hload : Moves m mc callers 1 c _ := Moves.load hat.opAt hw
  refine .value (hload.trans (Moves.unbox hat.tail rfl hk (hagrees.typed _ _ hs))) ⟨?_, rfl, rfl, hagrees⟩
  simp only [Spot.next, onLine, List.length_map, List.length_cons]
  omega

theorem assign {v : Ident} (hc : (ctx.infer (.binary t .assign (.ident v) r)).issues = [])
    (hs : ScalarExpr r) (ih : Computes m mc callers ctx r) :
    Computes m mc callers ctx (.binary t .assign (.ident v) r) := by
  rintro s code s' sp ⟨hr, hp, rfl, -⟩ c env hat hagrees
  replace hp := Parts.iff_forall_mem.2 hp
  simp only [Context.infer, Context.inferCall, List.append_eq_nil_iff] at hc
  have hvar : (ctx.inferCall false (.ident v)).issues = [] := hc.1.1.1
  obtain ⟨sym', hsym', ht⟩ := Context.inferCall_ident hvar
  cases hr with
  | assignIndex h => cases h
  | assignElement h => cases h
  | assignField h => cases h
  | logical h => cases h
  | arith h => cases h
  | compare h => cases h
  | assignIdent hsym =>
    obtain rfl := Option.some.inj (hsym.symm.trans hsym')
    have hscalar := Context.inferCall_scalar hs hagrees.typed.vars hc.1.2
    have hcopy : ((ctx.typeOf (.ident v)).isList && (ctx.typeOf r).isList) = false := by
      cases hty : ctx.typeOf r <;> simp_all [Context.typeOf, Context.infer, Ty.isScalar, Ty.isList]
    simp only [Parts.ops_iff, Parts.part_iff, Parts.nil_iff] at hp
    simp only [codeOf_cons, codeOf_nil, Item.code, copyBegin, copyEnd, hcopy, Bool.false_eq_true, if_false, onLine,
      List.map_nil, List.nil_append, List.append_nil, CodeAt.append_iff] at hat ⊢
    rw [Expr.eval]
    refine (ih hp.1 hat.1 hagrees).bind fun x d hx hd => ?_
    have htx := ((Context.eval_typed hs hc.1.2 hagrees.typed).ok hx).1
    have hknown : (ctx.identifier v).type.Known := ht ▸ (hagrees.typed _ _ hsym).known
    have hsub := (Context.assignment_known hknown.isNoType htx.known.isNoType hc.1.1.2 hc.2).2.1
    rw [← hd.pc] at hat
    refine (Yields.store hsym hat.2 hd.stack htx (ht ▸ Context.hasTy_of_isSubtype htx hsub) hd.agrees).at_pc ?_
    simp [hd.pc]
    omega

theorem change {op : UnOp} {v : Ident} (ho : op.isIncDec = true)
    (hc : (ctx.infer (.unary t op (.ident v))).issues = []) :
    Computes m mc callers ctx (.unary t op (.ident v)) := by
  rintro s code s' sp ⟨hr, -, rfl, -⟩ c env hat hagrees
  simp only [Context.infer, Context.inferCall, ho, if_true, List.append_eq_nil_iff] at hc
  have hvar : (ctx.inferCall false (.ident v)).issues = [] := hc.1
  obtain ⟨sym', hsym', ht⟩ := Context.inferCall_ident hvar
  cases hr with
  | neg => cases ho
  | not => cases ho
  | changeIdent _ hsym =>
    obtain rfl := Option.some.inj (hsym.symm.trans hsym')
    have hknown : (ctx.identifier v).type.Known := ht ▸ (hagrees.typed _ _ hsym).known
    have hint := (Context.increment_known hknown.isNoType hc.2).2.1
    simp only [codeOf_cons, Item.code, codeOf_nil, List.append_nil] at hat ⊢
    rw [Expr.eval_change ho]
    refine (Yields.change hsym (ht.symm.trans hint) hat hagrees).at_pc ?_
    simp [onLine]

theorem negation {op : UnOp} {x : Expr} (ho : op.isIncDec = false) (hs : ScalarExpr x)
    (hc : (ctx.infer (.unary t op x)).issues = []) (ih : Computes m mc callers ctx x) (hlabels : LabelsOnce mc.code) :
    Computes m mc callers ctx (.unary t op x) := by
  rintro s code s' sp ⟨hr, hp, rfl, -⟩ c env hat hagrees
  replace hp := Parts.iff_forall_mem.2 hp
  simp only [Context.infer, Context.inferCall, ho, Bool.false_eq_true, if_false, List.append_eq_nil_iff] at hc
  have htyped := Context.eval_typed hs hc.1 hagrees.typed
  have hknown := Ty.known_of_isScalar (Context.inferCall_scalar hs hagrees.typed.vars hc.1)
  have hop := (Context.negation_known hknown.isNoType hc.2).2
  rw [hop] at htyped
  rw [Expr.eval_negation ho]
  cases hr with
  | changeIdent h => simp [h] at ho
  | changeIndex h => simp [h] at ho
  | changeElement h => simp [h] at ho
  | changeField h => simp [h] at ho
  | neg =>
    simp only [Parts.ops_iff, Parts.part_iff, Parts.nil_iff] at hp
    simp only [codeOf_cons, codeOf_nil, Item.code, List.append_nil, CodeAt.append_iff] at hat ⊢
    refine (ih hp.1 hat.1 hagrees).bind fun y d hy hd => ?_
    obtain ⟨y, env'⟩ := y
    obtain ⟨a, rfl⟩ := (htyped.ok hy).1.int
    rw [← hd.pc] at hat
    refine Yields.value (Moves.neg hat.2.opAt hd.stack) ⟨?_, ?_, rfl, hd.agrees⟩
    · simp [Spot.next, hd.pc, onLine, Nat.add_assoc]
    · simp [Spot.next, Scalar.wrap_neg, Scalar.value, Value.toInt32]
  | not =>
    simp only [Parts.ops_iff, Parts.part_iff, Parts.nil_iff] at hp
    simp only [codeOf_cons, codeOf_nil, Item.code, List.append_nil, CodeAt.append_iff] at hat ⊢
    refine (ih hp.1 hat.1 hagrees).bind fun y d hy hd => ?_
    obtain ⟨y, env'⟩ := y
    obtain ⟨b, rfl⟩ := (htyped.ok hy).1.bool
    rw [← hd.pc] at hat
    refine Yields.value (Moves.branchMerge hat.2 hlabels fun f hf => Jump.decide_ifNonzero (hf.trans hd.stack))
      ⟨?_, ?_, rfl, hd.agrees⟩
    · simp [hd.pc, onLine, ClassCompiler.branchMerge, Nat.add_assoc]
    · cases b <;> rfl

theorem operation {op : BinOp} (ha : op ≠ .assign) (ho : op.isLogical = false) (hl : ScalarExpr l)
    (hr : ScalarExpr r) (hc : (ctx.infer (.binary t op l r)).issues = []) (ihl : Computes m mc callers ctx l)
    (ihr : Computes m mc callers ctx r) (hlabels : LabelsOnce mc.code) :
    Computes m mc callers ctx (.binary t op l r) := by
  rintro s code s' sp ⟨hrule, hp, rfl, -⟩ c env hat hagrees
  replace hp := Parts.iff_forall_mem.2 hp
  rw [Context.infer, Context.inferCall_operation ha] at hc
  simp only [List.append_eq_nil_iff] at hc
  rw [Expr.eval_operation ha ho]
  cases hrule with
  | assignIdent => exact absurd rfl ha
  | assignIndex => exact absurd rfl ha
  | assignElement => exact absurd rfl ha
  | assignField => exact absurd rfl ha
  | logical h => cases op <;> simp_all [BinOp.isLogical, BinOp.shortcut?]
  | arith harith =>
    simp only [Parts.ops_iff, Parts.part_iff, Parts.nil_iff] at hp
    simp only [codeOf_cons, codeOf_nil, Item.code, List.append_nil, CodeAt.append_iff] at hat ⊢
    refine (ihl hp.1 hat.1 hagrees).bind fun x d hx hd => ?_
    have htx := ((Context.eval_typed hl hc.1.1 hagrees.typed).ok hx).1
    rw [← hd.pc] at hat
    refine (ihr hp.2.1 hat.2.1 hd.agrees).bind fun y d' hy hd' => ?_
    have hty := ((Context.eval_typed hr hc.1.2 hd.agrees.typed).ok hy).1
    rw [← hd'.pc] at hat
    refine (Yields.arith harith hat.2.2 (hd'.stack.trans (by rw [hd.stack])) htx hty hc.2 hd'.agrees).at_pc ?_
    simp [hd'.pc, hd.pc, onLine, Nat.add_assoc]
  | compare hcompare =>
    simp only [Parts.ops_iff, Parts.part_iff, Parts.nil_iff] at hp
    simp only [codeOf_cons, codeOf_nil, Item.code, List.append_nil, CodeAt.append_iff] at hat ⊢
    refine (ihl hp.1 hat.1 hagrees).bind fun x d hx hd => ?_
    have htx := ((Context.eval_typed hl hc.1.1 hagrees.typed).ok hx).1
    rw [← hd.pc] at hat
    refine (ihr hp.2.1 hat.2.1 hd.agrees).bind fun y d' hy hd' => ?_
    have hty := ((Context.eval_typed hr hc.1.2 hd.agrees.typed).ok hy).1
    rw [← hd'.pc] at hat
    refine (Yields.compare hcompare hat.2.2 hlabels (hd'.stack.trans (by rw [hd.stack])) htx hty hc.2
      hd'.agrees).at_pc ?_
    simp [hd'.pc, hd.pc, onLine, branchMerge, Nat.add_assoc]

theorem logical {op : BinOp} (ho : op.isLogical = true) (hl : ScalarExpr l) (hr : ScalarExpr r)
    (hc : (ctx.infer (.binary t op l r)).issues = []) (ihl : Computes m mc callers ctx l)
    (ihr : Computes m mc callers ctx r) (hlabels : LabelsOnce mc.code) :
    Computes m mc callers ctx (.binary t op l r) := by
  rintro s code s' sp ⟨hrule, hp, rfl, -⟩ c env hat hagrees
  replace hp := Parts.iff_forall_mem.2 hp
  have ha := BinOp.ne_assign_of_isLogical ho
  rw [Context.infer, Context.inferCall_operation ha, Context.operation_logical ho] at hc
  simp only [List.append_eq_nil_iff] at hc
  obtain ⟨hlt, hrt⟩ := Context.operands_bool (Context.inferCall_scalar hl hagrees.typed.vars hc.1.1)
    (Context.inferCall_scalar hr hagrees.typed.vars hc.1.2) hc.2
  cases hrule with
  | assignIdent => exact absurd rfl ha
  | assignIndex => exact absurd rfl ha
  | assignElement => exact absurd rfl ha
  | assignField => exact absurd rfl ha
  | arith h => cases op <;> simp_all [BinOp.isLogical, BinOp.arith?]
  | compare h => cases op <;> simp_all [BinOp.isLogical, BinOp.isComparison]
  | logical h =>
    obtain ⟨k, rfl, hdecide, heval⟩ := BinOp.shortcut?_some h
    simp only [Parts.ops_iff, Parts.part_iff, Parts.nil_iff] at hp
    simp only [codeOf_cons, codeOf_nil, Item.code, List.append_nil, CodeAt.append_iff] at hat ⊢
    obtain ⟨hleft, hexit, hright, hmerge⟩ := hat
    rw [heval]
    refine (ihl hp.1 hleft hagrees).bind fun x d hx hd => ?_
    have htx := (Context.eval_typed hl hc.1.1 hagrees.typed).ok hx
    obtain ⟨x, env'⟩ := x
    rw [hlt] at htx
    obtain ⟨b, rfl⟩ := htx.1.bool
    rw [← hd.pc] at hexit hright hmerge
    have hshort := hlabels.offset hmerge.tail.tail.tail.opAt
    have hjump : Moves m mc callers 1 d _ := Moves.jump hexit.opAt hshort fun f hf =>
      hdecide b c.stack f (hf.trans hd.stack)
    by_cases hb : b = k
    · -- The left operand decides.
      subst hb
      simp only [BEq.rfl, if_true] at hjump
      have htest : Scalar.test (.bool b) (if b then .ok (.bool b, env') else r.eval env')
          (if b then r.eval env' else .ok (.bool b, env')) = .ok (.bool b, env') := by cases b <;> rfl
      rw [htest]
      refine .value (hjump.trans (Moves.branchTaken hmerge rfl)) ⟨?_, ?_, rfl, hd.agrees⟩
      · simp [hd.pc, onLine, branchMerge]
        omega
      · cases b <;> rfl
    · have hne : (b == k) = false := by simp [hb]
      simp only [hne, Bool.false_eq_true, if_false] at hjump
      have htest : Scalar.test (.bool b) (if k then .ok (.bool k, env') else r.eval env')
          (if k then r.eval env' else .ok (.bool k, env')) = r.eval env' := by
        cases b <;> cases k <;> first | rfl | exact absurd rfl hb
      rw [htest]
      have htr := Context.eval_typed hr hc.1.2 hd.agrees.typed
      rw [hrt] at htr
      have hagrees' : Agrees ctx.method env' (d.next c.stack).locals (d.next c.stack).heap := hd.agrees
      have hy := ihr hp.2.1 (c := d.next c.stack) hright hagrees'
      refine (Yields.of_moves hjump rfl (hy.branchMerge hdecide hmerge hlabels htr)).at_pc ?_
      simp [hd.pc, onLine, branchMerge]
      omega

end Computes

/-- The code of an accepted scalar expression computes what the expression means. -/
theorem ScalarExpr.computes {m : Machine} {mc : MethodCode} {callers : Outer} {ctx : Context} {e : Expr}
    (hlabels : LabelsOnce mc.code) (hs : ScalarExpr e) (hc : (ctx.infer e).issues = []) :
    Computes m mc callers ctx e := by
  induction hs with
  | int t v => exact .int v
  | bool t b => exact .bool b
  | string t v => exact .string v
  | ident v => exact .ident v
  | assign t v hr ih =>
    have hparts := hc
    simp only [Context.infer, Context.inferCall, List.append_eq_nil_iff] at hparts
    exact .assign hc hr (ih hparts.1.2)
  | logical t ho hl hr ihl ihr =>
    have hparts := hc
    rw [Context.infer, Context.inferCall_operation (BinOp.ne_assign_of_isLogical ho)] at hparts
    simp only [List.append_eq_nil_iff] at hparts
    exact .logical ho hl hr hc (ihl hparts.1.1) (ihr hparts.1.2) hlabels
  | operation t ha ho hl hr ihl ihr =>
    have hparts := hc
    rw [Context.infer, Context.inferCall_operation ha] at hparts
    simp only [List.append_eq_nil_iff] at hparts
    exact .operation ha ho hl hr hc (ihl hparts.1.1) (ihr hparts.1.2) hlabels
  | negation t ho hx ih =>
    have hparts := hc
    simp only [Context.infer, Context.inferCall, ho, Bool.false_eq_true, if_false,
      List.append_eq_nil_iff] at hparts
    exact .negation ho hx hc (ih hparts.1) hlabels
  | change t v ho => exact .change ho hc

end ClassCompiler
