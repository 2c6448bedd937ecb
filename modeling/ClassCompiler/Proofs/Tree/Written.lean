import ClassCompiler.Compile.Program
import ClassCompiler.Proofs.Outcome
import ClassCompiler.Tree.Decoder
import ClassCompiler.Tree.Subterms
import ClassCompiler.Typing.Program
import Mathlib.Algebra.Order.Ring.Int
import Mathlib.Data.List.Basic
import Mathlib.Tactic.Common

namespace ClassCompiler

namespace Ty

def NameChars (s : String) : Prop := ∀ c ∈ s.toList, isNameChar c = true

instance : DecidablePred NameChars := fun s => List.decidableBAll (fun c : Char => isNameChar c = true) s.toList

mutual

def Written : Ty → Prop
  | .int => True
  | .bool => True
  | .string => True
  | .void => True
  | .null => False
  | .noType => False
  | .cls n => n ≠ "" ∧ n ∉ ["int", "bool", "string", "void"] ∧ NameChars n
  | .fptr ps r => WrittenAll ps ∧ r.Written
  | .list es => WrittenElems es

def WrittenAll : List Ty → Prop
  | [] => True
  | t :: ts => t.Written ∧ WrittenAll ts

def WrittenElems : List (String × Ty) → Prop
  | [] => True
  | (n, t) :: es => NameChars n ∧ t.Written ∧ WrittenElems es

end

mutual

def decideWritten : (t : Ty) → Decidable t.Written
  | .int | .bool | .string | .void => .isTrue trivial
  | .null | .noType => .isFalse id
  | .cls _ => inferInstanceAs (Decidable (_ ∧ _))
  | .fptr ps r =>
    have := decideWrittenAll ps
    have := decideWritten r
    inferInstanceAs (Decidable (_ ∧ _))
  | .list es => decideWrittenElems es

def decideWrittenAll : (ts : List Ty) → Decidable (WrittenAll ts)
  | [] => .isTrue trivial
  | t :: ts =>
    have := decideWritten t
    have := decideWrittenAll ts
    inferInstanceAs (Decidable (_ ∧ _))

def decideWrittenElems : (es : List (String × Ty)) → Decidable (WrittenElems es)
  | [] => .isTrue trivial
  | (_, t) :: es =>
    have := decideWritten t
    have := decideWrittenElems es
    inferInstanceAs (Decidable (_ ∧ _ ∧ _))

end

instance : DecidablePred Written := decideWritten

theorem Input.name_nameChars (i : Input) : NameChars (String.ofList i.name.1) := by
  intro c hc
  simp only [Input.name, String.toList_ofList] at hc
  exact List.all_eq_true.1 List.all_takeWhile c hc

theorem nameChars_empty : NameChars "" := by simp [NameChars]

theorem elemHead_nameChars (i : Input) : NameChars (elemHead i).1 := by
  have h := i.name_nameChars
  unfold elemHead
  split
  · exact nameChars_empty
  · next cs j _ heq =>
    rw [heq] at h
    split
    · exact h
    · exact nameChars_empty

/-- Each of the three readers yields written types. -/
theorem parse_step_written (fuel : Nat) :
    (∀ i t j, parseTy fuel i = .ok (t, j) → t.Written) ∧
    (∀ i es j, parseElems fuel i = .ok (es, j) → WrittenElems es) ∧
    (∀ i ts j, parseParams fuel i = .ok (ts, j) → WrittenAll ts) := by
  -- By induction on the fuel, the three readers together, as they call each other.
  induction fuel with
  | zero => simp [parseTy, parseElems, parseParams]
  | succ fuel ih =>
    obtain ⟨ihT, ihE, ihP⟩ := ih
    refine ⟨?_, ?_, ?_⟩
    · intro i t j h
      have hn := i.name_nameChars
      unfold parseTy at h
      split at h
      next cs k heq =>
      rw [heq] at hn
      split at h
      · cases h
      · cases h; trivial
      · cases h; trivial
      · cases h; trivial
      · cases h; trivial
      · split at h
        · cases h
          exact ⟨by decide, by decide, by decide⟩
        · split at h
          · cases h; trivial
          · split at h
            · next es _ he => cases h; exact ihE _ _ _ he
            · cases h
      · split at h
        · cases h
          exact ⟨by decide, by decide, by decide⟩
        · split at h
          · cases h
          · next ps _ hps =>
            split at h
            · cases h
            · next r _ hr =>
              split at h
              · cases h
              · cases h; exact ⟨ihP _ _ _ hps, ihT _ _ _ hr⟩
      · next h0 h1 h2 h3 h4 _ _ =>
        cases h
        exact ⟨h0, by simp only [List.mem_cons]; tauto, hn⟩
    · intro i es j h
      have hn := elemHead_nameChars i
      unfold parseElems at h
      split at h
      next name k heq =>
      rw [heq] at hn
      split at h
      · cases h
      · next t k ht =>
        split at h
        · split at h
          · cases h
          · next es _ hes => cases h; exact ⟨hn, ihT _ _ _ ht, ihE _ _ _ hes⟩
        · split at h
          · cases h
          · cases h; exact ⟨hn, ihT _ _ _ ht, trivial⟩
    · intro i ts j h
      unfold parseParams at h
      split at h
      · cases h; trivial
      · split at h
        · cases h
        · next t _ ht =>
          split at h
          · cases h
          · next ts _ hts => cases h; exact ⟨ihT _ _ _ ht, ihP _ _ _ hts⟩

theorem parse_written {s : String} {t : Ty} (h : parse s = .ok t) : t.Written := by
  simp only [parse] at h
  split at h
  · cases h
  · next ht =>
    have hw := (parse_step_written _).1 _ _ _ ht
    split at h
    · cases h; exact hw
    · cases h

end Ty

/-- A member access names a member, and a number has 32 bits. -/
def Expr.Written : Expr → Prop
  | .member _ _ m => m.name ≠ ""
  | .int _ v => -2 ^ 31 ≤ v ∧ v < 2 ^ 31
  | _ => True

instance : DecidablePred Expr.Written := fun e =>
  match e with
  | .member _ _ m => inferInstanceAs (Decidable (m.name ≠ ""))
  | .int _ v => inferInstanceAs (Decidable (-2 ^ 31 ≤ v ∧ v < 2 ^ 31))
  | .ident _ | .binary .. | .unary .. | .index .. | .call .. | .new .. | .this _ | .list .. | .null _ | .bool .. | .string .. =>
    .isTrue trivial

/-- Every member access of the expressions names a member, and every number has 32 bits. -/
abbrev AllWritten (es : List Expr) : Prop := es.Forall Expr.Written

namespace Decoder

theorem name_ne_empty {n : Yaml.Node} {what : String} {id : Ident} (h : name n what = .ok id) :
    id.name ≠ "" := by
  unfold name at h
  split at h
  · next hn =>
    cases h
    simp only [Bool.and_eq_true, decide_eq_true_eq] at hn
    exact hn.2
  · cases h

theorem int?_bounds {bits : Nat} {cs : List Char} {v : Int} (h : Numeral.int? bits cs = some v) :
    -2 ^ (bits - 1) ≤ v ∧ v < 2 ^ (bits - 1) := by
  have hcast : ((Nat.pow 2 (bits - 1) : Nat) : Int) = 2 ^ (bits - 1) := by simp
  have hpos : 0 < Nat.pow 2 (bits - 1) := Nat.two_pow_pos _
  unfold Numeral.int? Numeral.signed? at h
  simp only at h
  (repeat' split at h) <;> cases h <;> omega

theorem scalar_written {n : Yaml.Node} {e : Expr} (h : scalar n = .ok e) :
    AllWritten e.subterms := by
  unfold scalar malformed at h
  (repeat' split at h) <;> cases h <;> simp [Expr.subterms, Expr.Written]
  next hv => simpa using int?_bounds hv

/-- What reading expressions gives for nodes of less than a certain size. -/
structure ExprsWritten (k : Nat) : Prop where
  expr : ∀ n e, sizeOf n < k → expr n = .ok e → AllWritten e.subterms
  call : ∀ v r, sizeOf v < k → callParts v = .ok r →
    AllWritten r.1.subterms ∧ AllWritten (Expr.subtermsOfAll r.2)
  exprs : ∀ ns es, sizeOf ns < k → exprs ns = .ok es → AllWritten (Expr.subtermsOfAll es)

/-- The value of a mapping with one key is an expression of the form that the key names. -/
theorem expr_step {k : Nat} (ih : ExprsWritten k) {n : Yaml.Node} {e : Expr} (hk : sizeOf n < k + 1)
    (h : expr n = .ok e) : AllWritten e.subterms := by
  rw [expr] at h
  split at h
  · exact scalar_written h
  split at h
  case h_2 => cases h
  next key v _ hn =>
  -- The parts are nodes inside the value of the one key, so `ih` speaks of them.
  have hv : sizeOf v < sizeOf n := Yaml.Node.sizeOf_lt_of_mem hn (by simp)
  have child {w : Yaml.Node} {ws : List Yaml.Node} (hc : v.children = ws) (hw : w ∈ ws) :
      sizeOf w < k := by
    have := Yaml.Node.sizeOf_lt_of_mem hc hw
    omega
  have tail {w : Yaml.Node} {ws : List Yaml.Node} (hc : v.children = w :: ws) : sizeOf ws < k := by
    have := Yaml.Node.sizeOf_children_lt hc
    simp only [List.cons.sizeOf_spec] at this
    omega
  simp only at h
  split at h
  · simp only [bind_eq_ok, pure_eq_ok] at h
    obtain ⟨x, hx, rfl⟩ := h
    simp [Expr.subterms, Expr.Written, ih.expr v x (by omega) hx]
  split at h
  · cases h; simp [Expr.subterms, Expr.Written]
  · cases h; simp [Expr.subterms, Expr.Written]
  · split at h
    · next o l r _ hc =>
      split at h
      · cases h
      · simp only [bind_eq_ok, pure_eq_ok] at h
        obtain ⟨l', hl, r', hr, rfl⟩ := h
        simp [Expr.subterms, Expr.Written, ih.expr l l' (child hc (by simp)) hl,
          ih.expr r r' (child hc (by simp)) hr]
    · cases h
  · split at h
    · next l r _ hc =>
      simp only [bind_eq_ok, pure_eq_ok] at h
      obtain ⟨l', hl, r', hr, rfl⟩ := h
      simp [Expr.subterms, Expr.Written, ih.expr l l' (child hc (by simp)) hl,
        ih.expr r r' (child hc (by simp)) hr]
    · cases h
  · split at h
    · next x m _ hc =>
      simp only [bind_eq_ok, pure_eq_ok] at h
      obtain ⟨m', hm, x', hx, rfl⟩ := h
      simp [Expr.subterms, Expr.Written, name_ne_empty hm, ih.expr x x' (child hc (by simp)) hx]
    · cases h
  · split at h
    · next x i _ hc =>
      simp only [bind_eq_ok, pure_eq_ok] at h
      obtain ⟨x', hx, i', hi, rfl⟩ := h
      simp [Expr.subterms, Expr.Written, ih.expr x x' (child hc (by simp)) hx,
        ih.expr i i' (child hc (by simp)) hi]
    · cases h
  · simp only [bind_eq_ok, pure_eq_ok] at h
    obtain ⟨⟨f, as⟩, hr, rfl⟩ := h
    simp [Expr.subterms, Expr.Written, ih.call v _ (by omega) hr]
  · split at h
    · next c as _ hc =>
      simp only [bind_eq_ok, pure_eq_ok] at h
      obtain ⟨c', _, as', has, rfl⟩ := h
      simp [Expr.subterms, Expr.Written, ih.exprs as as' (tail hc) has]
    · cases h
  · split at h
    · simp only [bind_eq_ok, pure_eq_ok] at h
      obtain ⟨es, hes, rfl⟩ := h
      have hs : sizeOf v.children < sizeOf v := Yaml.Node.sizeOf_children_lt rfl
      simp [Expr.subterms, Expr.Written, ih.exprs _ es (by omega) hes]
    · cases h
  · cases h

theorem callParts_step {k : Nat} (ih : ExprsWritten k) {v : Yaml.Node} {r : Expr × List Expr}
    (hk : sizeOf v < k + 1) (h : callParts v = .ok r) :
    AllWritten r.1.subterms ∧ AllWritten (Expr.subtermsOfAll r.2) := by
  rw [callParts] at h
  split at h
  · next f as _ hc =>
    have hf : sizeOf f < sizeOf v := Yaml.Node.sizeOf_lt_of_mem hc (by simp)
    have hs := Yaml.Node.sizeOf_children_lt hc
    simp only [List.cons.sizeOf_spec] at hs
    simp only [bind_eq_ok, pure_eq_ok] at h
    obtain ⟨f', hf', as', has, rfl⟩ := h
    exact ⟨ih.expr f f' (by omega) hf', ih.exprs as as' (by omega) has⟩
  · cases h

theorem exprs_step {k : Nat} (ih : ExprsWritten k) {ns : List Yaml.Node} {es : List Expr}
    (hk : sizeOf ns < k + 1) (h : exprs ns = .ok es) : AllWritten (Expr.subtermsOfAll es) := by
  cases ns with
  | nil =>
    rw [exprs] at h
    cases h
    simp [Expr.subtermsOfAll]
  | cons n ns =>
    rw [exprs] at h
    simp only [List.cons.sizeOf_spec] at hk
    simp only [bind_eq_ok, pure_eq_ok] at h
    obtain ⟨e, he, es', hes, rfl⟩ := h
    simp [Expr.subtermsOfAll, ih.expr n e (by omega) he, ih.exprs ns es' (by omega) hes]

theorem exprsWritten (k : Nat) : ExprsWritten k := by
  induction k with
  | zero => exact ⟨by simp, by simp, by simp⟩
  | succ k ih =>
    exact ⟨fun _ _ hk h => expr_step ih hk h, fun _ _ hk h => callParts_step ih hk h,
      fun _ _ hk h => exprs_step ih hk h⟩

theorem expr_written {n : Yaml.Node} {e : Expr} (h : expr n = .ok e) : AllWritten e.subterms :=
  (exprsWritten _).expr n e (Nat.lt_succ_self _) h

theorem callParts_written {v : Yaml.Node} {r : Expr × List Expr} (h : callParts v = .ok r) :
    AllWritten r.1.subterms ∧ AllWritten (Expr.subtermsOfAll r.2) :=
  (exprsWritten _).call v r (Nat.lt_succ_self _) h

theorem assignment_written {k v : Yaml.Node} {a : Assign} (h : assignment k v = .ok a) :
    AllWritten a.subterms := by
  unfold assignment at h
  split at h
  · simp only [bind_eq_ok, pure_eq_ok] at h
    obtain ⟨l, hl, r, hr, rfl⟩ := h
    simp [Assign.subterms, expr_written hl, expr_written hr]
  · cases h

def CondParts.terms (p : CondParts) : List Expr :=
  p.test.toList.flatMap Expr.subterms ++ p.yes.toList.flatMap Stmt.subterms ++
    p.no.toList.flatMap Stmt.subterms

def ForParts.terms (p : ForParts) : List Expr :=
  p.init.toList.flatMap Assign.subterms ++ p.test.toList.flatMap Expr.subterms ++
    p.update.toList.flatMap Assign.subterms ++ p.body.toList.flatMap Stmt.subterms

def ForeachParts.terms (p : ForeachParts) : List Expr :=
  p.list.toList.flatMap Expr.subterms ++ p.body.toList.flatMap Stmt.subterms

/-- What reading statements gives for nodes of less than a certain size. -/
structure StmtsWritten (k : Nat) : Prop where
  stmts : ∀ ns ss, sizeOf ns < k → stmts ns = .ok ss → AllWritten (Stmt.subtermsOfAll ss)
  body : ∀ n s, sizeOf n < k → body n = .ok s → AllWritten s.subterms
  stmt : ∀ n s, sizeOf n < k → stmt n = .ok s → AllWritten s.subterms
  cond : ∀ ns p q, sizeOf ns < k → condParts ns p = .ok q → AllWritten p.terms → AllWritten q.terms
  loop : ∀ ns p q, sizeOf ns < k → forParts ns p = .ok q → AllWritten p.terms → AllWritten q.terms
  each : ∀ ns p q, sizeOf ns < k → foreachParts ns p = .ok q → AllWritten p.terms → AllWritten q.terms

theorem stmts_step {k : Nat} (ih : StmtsWritten k) {ns : List Yaml.Node} {ss : List Stmt}
    (hk : sizeOf ns < k + 1) (h : stmts ns = .ok ss) : AllWritten (Stmt.subtermsOfAll ss) := by
  cases ns with
  | nil =>
    rw [stmts] at h
    cases h
    simp [Stmt.subtermsOfAll]
  | cons n ns =>
    rw [stmts] at h
    simp only [List.cons.sizeOf_spec] at hk
    simp only [bind_eq_ok, pure_eq_ok] at h
    obtain ⟨s, hs, ss', hss, rfl⟩ := h
    simp [Stmt.subtermsOfAll, ih.stmt n s (by omega) hs, ih.stmts ns ss' (by omega) hss]

theorem stmtList_step {k : Nat} (ih : StmtsWritten k) {n : Yaml.Node} {ss : List Stmt}
    (hk : sizeOf n < k + 1) (h : stmtList n = .ok ss) : AllWritten (Stmt.subtermsOfAll ss) := by
  rw [stmtList] at h
  split at h
  · cases h
    simp [Stmt.subtermsOfAll]
  · split at h
    · have hs : sizeOf n.children < sizeOf n := Yaml.Node.sizeOf_children_lt rfl
      exact ih.stmts _ ss (by omega) h
    · cases h

theorem condParts_step {k : Nat} (ih : StmtsWritten k) {ns : List Yaml.Node} {p q : CondParts}
    (hk : sizeOf ns < k + 1) (h : condParts ns p = .ok q) (hp : AllWritten p.terms) :
    AllWritten q.terms := by
  rw [condParts.eq_def] at h
  split at h
  · next key v rest =>
    simp only [List.cons.sizeOf_spec] at hk
    simp only [CondParts.terms, List.forall_append] at hp
    split at h
    · simp only [bind_eq_ok] at h
      obtain ⟨x, hx, h⟩ := h
      refine ih.cond rest _ q (by omega) h ?_
      simp [CondParts.terms, hp, expr_written hx]
    · simp only [bind_eq_ok] at h
      obtain ⟨s, hs, h⟩ := h
      refine ih.cond rest _ q (by omega) h ?_
      simp [CondParts.terms, hp, ih.body v s (by omega) hs]
    · simp only [bind_eq_ok] at h
      obtain ⟨s, hs, h⟩ := h
      refine ih.cond rest _ q (by omega) h ?_
      simp [CondParts.terms, hp, ih.body v s (by omega) hs]
    · cases h
  · cases h
    exact hp

theorem forParts_step {k : Nat} (ih : StmtsWritten k) {ns : List Yaml.Node} {p q : ForParts}
    (hk : sizeOf ns < k + 1) (h : forParts ns p = .ok q) (hp : AllWritten p.terms) :
    AllWritten q.terms := by
  rw [forParts.eq_def] at h
  split at h
  · next key v rest =>
    simp only [List.cons.sizeOf_spec] at hk
    simp only [ForParts.terms, List.forall_append] at hp
    split at h
    · simp only [bind_eq_ok] at h
      obtain ⟨a, ha, h⟩ := h
      refine ih.loop rest _ q (by omega) h ?_
      simp [ForParts.terms, hp, assignment_written ha]
    · simp only [bind_eq_ok] at h
      obtain ⟨x, hx, h⟩ := h
      refine ih.loop rest _ q (by omega) h ?_
      simp [ForParts.terms, hp, expr_written hx]
    · simp only [bind_eq_ok] at h
      obtain ⟨a, ha, h⟩ := h
      refine ih.loop rest _ q (by omega) h ?_
      simp [ForParts.terms, hp, assignment_written ha]
    · simp only [bind_eq_ok] at h
      obtain ⟨s, hs, h⟩ := h
      refine ih.loop rest _ q (by omega) h ?_
      simp [ForParts.terms, hp, ih.body v s (by omega) hs]
    · cases h
  · cases h
    exact hp

theorem foreachParts_step {k : Nat} (ih : StmtsWritten k) {ns : List Yaml.Node} {p q : ForeachParts}
    (hk : sizeOf ns < k + 1) (h : foreachParts ns p = .ok q) (hp : AllWritten p.terms) :
    AllWritten q.terms := by
  rw [foreachParts.eq_def] at h
  split at h
  · next key v rest =>
    simp only [List.cons.sizeOf_spec] at hk
    simp only [ForeachParts.terms, List.forall_append] at hp
    split at h
    · simp only [bind_eq_ok] at h
      obtain ⟨x, hx, h⟩ := h
      refine ih.each rest _ q (by omega) h ?_
      simp [ForeachParts.terms, hp]
    · simp only [bind_eq_ok] at h
      obtain ⟨x, hx, h⟩ := h
      refine ih.each rest _ q (by omega) h ?_
      simp [ForeachParts.terms, hp, expr_written hx]
    · simp only [bind_eq_ok] at h
      obtain ⟨s, hs, h⟩ := h
      refine ih.each rest _ q (by omega) h ?_
      simp [ForeachParts.terms, hp, ih.body v s (by omega) hs]
    · cases h
  · cases h
    exact hp

theorem body_step {k : Nat} (ih : StmtsWritten k) {n : Yaml.Node} {s : Stmt} (hk : sizeOf n < k + 1)
    (hstmt : stmt n = .ok s → AllWritten s.subterms) (h : body n = .ok s) : AllWritten s.subterms := by
  rw [body] at h
  split at h
  · simp only [bind_eq_ok, pure_eq_ok] at h
    obtain ⟨ss, hss, rfl⟩ := h
    simpa [Stmt.subterms] using stmtList_step ih hk hss
  · exact hstmt h

theorem stmt_step {k : Nat} (ih : StmtsWritten k) {n : Yaml.Node} {s : Stmt} (hk : sizeOf n < k + 1)
    (h : stmt n = .ok s) : AllWritten s.subterms := by
  rw [stmt] at h
  split at h
  case h_2 => cases h
  next key v _ hn =>
  have hv : sizeOf v < sizeOf n := Yaml.Node.sizeOf_lt_of_mem hn (by simp)
  have hs : sizeOf v.children < sizeOf v := Yaml.Node.sizeOf_children_lt rfl
  simp only at h
  split at h
  · simp only [bind_eq_ok, pure_eq_ok] at h
    obtain ⟨x, hx, rfl⟩ := h
    exact expr_written hx
  · simp only [bind_eq_ok, pure_eq_ok] at h
    obtain ⟨a, ha, rfl⟩ := h
    exact assignment_written ha
  · simp only [bind_eq_ok, pure_eq_ok] at h
    obtain ⟨⟨f, as⟩, hr, rfl⟩ := h
    simp [Stmt.subterms, Expr.subterms, Expr.Written, callParts_written hr]
  · split at h
    · cases h
      simp [Stmt.subterms]
    · simp only [bind_eq_ok, pure_eq_ok] at h
      obtain ⟨x, hx, rfl⟩ := h
      simpa [Stmt.subterms] using expr_written hx
  · simp only [bind_eq_ok, pure_eq_ok] at h
    obtain ⟨ss, hss, rfl⟩ := h
    exact stmtList_step ih (by omega) hss
  · cases h
    simp [Stmt.subterms]
  · cases h
    simp [Stmt.subterms]
  · split at h
    · simp only [bind_eq_ok] at h
      obtain ⟨p, hp, h⟩ := h
      have hq := ih.cond _ _ p (by omega) hp (by simp [CondParts.terms])
      split at h
      · next test yes ht hy =>
        cases h
        simp only [CondParts.terms, ht, hy, Option.toList_some, List.flatMap_singleton,
          List.forall_append] at hq
        cases hno : p.no <;> simp_all [Stmt.subterms, Stmt.subtermsOfElse]
      · cases h
    · cases h
  · split at h
    · simp only [bind_eq_ok, pure_eq_ok] at h
      obtain ⟨p, hp, rfl⟩ := h
      have hq := ih.loop _ _ p (by omega) hp (by simp [ForParts.terms])
      simp only [ForParts.terms, List.forall_append] at hq
      cases hb : p.body <;> simp_all [Stmt.subterms, Stmt.subtermsOfAll]
    · cases h
  · split at h
    · simp only [bind_eq_ok] at h
      obtain ⟨p, hp, h⟩ := h
      have hq := ih.each _ _ p (by omega) hp (by simp [ForeachParts.terms])
      split at h
      · next var list _ hl =>
        cases h
        simp only [ForeachParts.terms, hl, List.forall_append] at hq
        cases hb : p.body <;> simp_all [Stmt.subterms, Stmt.subtermsOfAll, Expr.Written]
      · cases h
    · cases h
  · cases h

theorem stmtsWritten (k : Nat) : StmtsWritten k := by
  induction k with
  | zero => exact ⟨by simp, by simp, by simp, by simp, by simp, by simp⟩
  | succ k ih =>
    exact ⟨fun _ _ hk h => stmts_step ih hk h,
      fun _ _ hk h => body_step ih hk (stmt_step ih hk) h, fun _ _ hk h => stmt_step ih hk h,
      fun _ _ _ hk h => condParts_step ih hk h, fun _ _ _ hk h => forParts_step ih hk h,
      fun _ _ _ hk h => foreachParts_step ih hk h⟩

theorem stmtList_written {n : Yaml.Node} {ss : List Stmt} (h : stmtList n = .ok ss) :
    AllWritten (Stmt.subtermsOfAll ss) :=
  stmtList_step (stmtsWritten _) (Nat.lt_succ_self _) h

theorem type_written {n : Yaml.Node} {t : Ty} (h : type n = .ok t) : t.Written := by
  unfold type at h
  split at h
  · cases h
  · split at h
    · next ht =>
      cases h
      exact Ty.parse_written ht
    · cases h

theorem vars_written {kind : TokenKind} {n : Yaml.Node} {vs : List VarDecl}
    (h : vars kind n = .ok vs) : ∀ v ∈ vs, v.type.Written := by
  unfold vars at h
  split at h
  · intro v hv
    obtain ⟨w, _, hw⟩ := mapM_eq_ok h v hv
    unfold var at hw
    split at hw
    · simp only [bind_eq_ok, pure_eq_ok] at hw
      obtain ⟨t, ht, rfl⟩ := hw
      exact type_written ht
    · cases hw
  · cases h

end Decoder

/-- A method as it is read from a document. -/
structure MethodDecl.Written (m : MethodDecl) : Prop where
  vars : ∀ v ∈ m.args ++ m.locals, v.type.Written
  result : ∀ t, m.returnType = some t → t.Written
  terms : AllWritten m.subterms

/-- A class as it is read from a document. -/
structure ClassDecl.Written (c : ClassDecl) : Prop where
  name : c.name.name ≠ ""
  fields : ∀ v ∈ c.fields, v.type.Written
  bodies : ∀ m ∈ c.bodies, m.Written
  constructor : ∀ m, c.constructor = some m → m.returnType = none

def Program.Written (p : Program) : Prop := ∀ c ∈ p.classes, c.Written

instance : DecidablePred MethodDecl.Written := fun m =>
  decidable_of_iff ((∀ v ∈ m.args ++ m.locals, v.type.Written) ∧ (∀ t ∈ m.returnType, t.Written) ∧ AllWritten m.subterms)
    ⟨fun h => ⟨h.1, h.2.1, h.2.2⟩, fun h => ⟨h.vars, h.result, h.terms⟩⟩

instance : DecidablePred ClassDecl.Written := fun c =>
  decidable_of_iff (c.name.name ≠ "" ∧ (∀ v ∈ c.fields, v.type.Written) ∧ (∀ m ∈ c.bodies, m.Written) ∧
      ∀ m ∈ c.constructor, m.returnType.isNone)
    ⟨fun h => ⟨h.1, h.2.1, h.2.2.1, fun m hm => Option.isNone_iff_eq_none.1 (h.2.2.2 m hm)⟩,
      fun h => ⟨h.name, h.fields, h.bodies, fun m hm => by rw [h.constructor m hm]; rfl⟩⟩

instance : DecidablePred Program.Written := fun p => inferInstanceAs (Decidable (∀ c ∈ p.classes, c.Written))

namespace Decoder

/-- The same of the parts of a method that were read so far. -/
structure MethodParts.Written (p : MethodParts) : Prop where
  args : ∀ v ∈ p.args, v.type.Written
  locals : ∀ v ∈ p.locals, v.type.Written
  result : ∀ t, p.returnType = some t → t.Written
  terms : AllWritten (Stmt.subtermsOfAll p.body)

theorem methodParts_written {isConstructor : Bool} : ∀ {ns : List Yaml.Node} {p q : MethodParts},
    methodParts isConstructor ns p = .ok q → p.Written → q.Written
  | [], p, q, h, hp => by
    cases h
    exact hp
  | [_], p, q, h, hp => by
    cases h
    exact hp
  | key :: v :: rest, p, q, h, hp => by
    rw [methodParts] at h
    split at h
    · simp only [bind_eq_ok] at h
      obtain ⟨x, _, h⟩ := h
      exact methodParts_written h ⟨hp.args, hp.locals, hp.result, hp.terms⟩
    · split at h
      · cases h
      · simp only [bind_eq_ok] at h
        obtain ⟨t, ht, h⟩ := h
        refine methodParts_written h ⟨hp.args, hp.locals, ?_, hp.terms⟩
        rintro u ⟨⟩
        exact type_written ht
    · simp only [bind_eq_ok] at h
      obtain ⟨vs, hvs, h⟩ := h
      exact methodParts_written h ⟨vars_written hvs, hp.locals, hp.result, hp.terms⟩
    · simp only [bind_eq_ok] at h
      obtain ⟨vs, hvs, h⟩ := h
      exact methodParts_written h ⟨hp.args, vars_written hvs, hp.result, hp.terms⟩
    · simp only [bind_eq_ok] at h
      obtain ⟨ss, hss, h⟩ := h
      exact methodParts_written h ⟨hp.args, hp.locals, hp.result, stmtList_written hss⟩
    · cases h

theorem method_written {n : Yaml.Node} {m : MethodDecl} (h : method n = .ok m) : m.Written := by
  simp only [method, bind_eq_ok] at h
  obtain ⟨ns, _, p, hp, h⟩ := h
  have hw := methodParts_written hp
    ⟨by simp, by simp, by simp [Ty.Written], by simp [Stmt.subtermsOfAll]⟩
  split at h
  · cases h
  · cases h
    exact ⟨List.forall_mem_append.2 ⟨hw.args, hw.locals⟩, hw.result, hw.terms⟩

theorem constructor_written {n : Yaml.Node} {r : Option Ident × MethodDecl}
    (h : constructor n = .ok r) : r.2.Written ∧ r.2.returnType = none := by
  simp only [constructor, bind_eq_ok, pure_eq_ok] at h
  obtain ⟨ns, _, p, hp, rfl⟩ := h
  have hw := methodParts_written hp
    ⟨by simp, by simp, by simp, by simp [Stmt.subtermsOfAll]⟩
  exact ⟨⟨List.forall_mem_append.2 ⟨hw.args, hw.locals⟩, by simp, hw.terms⟩, rfl⟩

structure ClassParts.Written (p : ClassParts) : Prop where
  name : ∀ id, p.name = some id → id.name ≠ ""
  fields : ∀ v ∈ p.fields, v.type.Written
  constructor : ∀ r, p.constructor = some r → r.2.Written ∧ r.2.returnType = none
  methods : ∀ m ∈ p.methods, m.Written

theorem classParts_written : ∀ {ns : List Yaml.Node} {p q : ClassParts},
    classParts ns p = .ok q → p.Written → q.Written
  | [], p, q, h, hp => by
    cases h
    exact hp
  | [_], p, q, h, hp => by
    cases h
    exact hp
  | key :: v :: rest, p, q, h, hp => by
    rw [classParts] at h
    split at h
    · simp only [bind_eq_ok] at h
      obtain ⟨x, hx, h⟩ := h
      refine classParts_written h ⟨?_, hp.fields, hp.constructor, hp.methods⟩
      rintro y ⟨⟩
      exact name_ne_empty hx
    · simp only [bind_eq_ok] at h
      obtain ⟨x, _, h⟩ := h
      exact classParts_written h ⟨hp.name, hp.fields, hp.constructor, hp.methods⟩
    · simp only [bind_eq_ok] at h
      obtain ⟨vs, hvs, h⟩ := h
      exact classParts_written h ⟨hp.name, List.forall_mem_append.2 ⟨hp.fields, vars_written hvs⟩,
        hp.constructor, hp.methods⟩
    · simp only [bind_eq_ok] at h
      obtain ⟨c, hc, h⟩ := h
      refine classParts_written h ⟨hp.name, hp.fields, ?_, hp.methods⟩
      rintro r ⟨⟩
      exact constructor_written hc
    · split at h
      · simp only [bind_eq_ok] at h
        obtain ⟨ms, hms, h⟩ := h
        refine classParts_written h ⟨hp.name, hp.fields, hp.constructor,
          List.forall_mem_append.2 ⟨hp.methods, fun m hm => ?_⟩⟩
        obtain ⟨w, _, hw⟩ := mapM_eq_ok hms m hm
        exact method_written hw
      · cases h
    · cases h

theorem classDecl_written {n : Yaml.Node} {c : ClassDecl} (h : classDecl n = .ok c) : c.Written := by
  simp only [classDecl, bind_eq_ok] at h
  obtain ⟨ns, _, p, hp, h⟩ := h
  have hw := classParts_written hp ⟨by simp, by simp, by simp, by simp⟩
  split at h
  · cases h
  · next name hname =>
    have hk : ∀ m, c.constructor = some m → m.Written ∧ m.returnType = none := by
      cases h
      simp only [Option.map_eq_some_iff]
      rintro m ⟨⟨own, k⟩, hk, rfl⟩
      obtain ⟨hc, hr⟩ := hw.constructor _ hk
      split
      · exact ⟨hc, hr⟩
      · exact ⟨⟨hc.vars, hc.result, hc.terms⟩, hr⟩
    cases h
    refine ⟨hw.name name hname, hw.fields, fun m hm => ?_, fun m hm => (hk m hm).2⟩
    simp only [ClassDecl.bodies, List.mem_append, Option.mem_toList] at hm
    rcases hm with hm | hm
    · exact (hk m hm).1
    · exact hw.methods m hm

theorem classLists_written : ∀ {ns : List Yaml.Node} {cs : List ClassDecl},
    classLists ns = .ok cs → ∀ c ∈ cs, c.Written
  | [], cs, h => by
    cases h
    simp
  | [_], cs, h => by
    cases h
    simp
  | key :: v :: rest, cs, h => by
    rw [classLists] at h
    split at h
    · cases h
    split at h
    · cases h
    simp only [bind_eq_ok, pure_eq_ok] at h
    obtain ⟨ds, hds, es, hes, rfl⟩ := h
    refine List.forall_mem_append.2 ⟨fun c hc => ?_, classLists_written hes⟩
    obtain ⟨w, _, hw⟩ := mapM_eq_ok hds c hc
    exact classDecl_written hw

end Decoder

/-- Every program read from a document is written. -/
theorem Program.decode_written {file text : String} {p : Program}
    (h : Program.decode file text = .ok p) : p.Written := by
  unfold Program.decode at h
  split at h
  · cases h
  · cases h
    simp [Program.Written]
  · unfold Program.ofNode at h
    split at h
    · simp only [bind_eq_ok, pure_eq_ok] at h
      obtain ⟨cs, hcs, rfl⟩ := h
      exact Decoder.classLists_written hcs
    · cases h

section

open Yaml

theorem Program.decode_of_read {file : String} {text : List Char} {root : Node} {p : Program}
    (hr : (readDocument text).toOption = some (some root)) (hp : Program.ofNode file root = .ok p) :
    Program.decode file (String.ofList text) = .ok p := by
  unfold Program.decode
  rw [String.toList_ofList]
  cases h : readDocument text with
  | error e => simp [h, Except.toOption] at hr
  | ok r =>
    simp only [h, Except.toOption, Option.some.injEq] at hr
    simp only [hr, hp]

mutual

def nodeDecEq (m n : Node) : Decidable (m = n) :=
  match m, n with
  | ⟨k, t, s, x, l, c, ms⟩, ⟨k', t', s', x', l', c', ns⟩ =>
    match nodesDecEq ms ns with
    | .isTrue h => decidable_of_iff (k = k' ∧ t = t' ∧ s = s' ∧ x = x' ∧ l = l' ∧ c = c') (by simp [h])
    | .isFalse h => .isFalse (by simp [h])

def nodesDecEq (ms ns : List Node) : Decidable (ms = ns) :=
  match ms, ns with
  | [], [] => .isTrue rfl
  | [], _ :: _ => .isFalse (by simp)
  | _ :: _, [] => .isFalse (by simp)
  | m :: ms, n :: ns =>
    match nodeDecEq m n, nodesDecEq ms ns with
    | .isTrue h, .isTrue h' => .isTrue (by simp [h, h'])
    | .isFalse h, _ => .isFalse (by simp [h])
    | _, .isFalse h => .isFalse (by simp [h])

end

instance : DecidableEq Node := nodeDecEq

namespace Sample

/-- A class that keeps a reference to itself and prints a number. -/
def source : String :=
  "classes: [{class: Main, constructor: {locals: [{m: Main}], body: [{assign: [m, this]}, {print: 1}]}}]"

def word (text : String) (column : Nat) : Node := ⟨.scalar, "!!str", .plain, text, 1, column, []⟩

def entry (column : Nat) (children : List Node) : Node := ⟨.mapping, "!!map", .plain, "", 1, column, children⟩

def row (column : Nat) (children : List Node) : Node := ⟨.sequence, "!!seq", .plain, "", 1, column, children⟩

def root : Node :=
  entry 1 [word "classes" 1, row 10 [
    entry 11 [word "class" 12, word "Main" 19, word "constructor" 25, entry 38 [
      word "locals" 39, row 47 [entry 48 [word "m" 49, word "Main" 52]],
      word "body" 60, row 66 [
        entry 67 [word "assign" 68, row 76 [word "m" 77, word "this" 80]],
        entry 88 [word "print" 89, ⟨.scalar, "!!int", .plain, "1", 1, 96, []⟩]]]]]]

def token (kind : TokenKind) (column : Int) : Token := ⟨kind, kind.text, 1, column⟩

def name (text : String) (column : Int) : Ident := ⟨⟨.identifier, text, 1, column⟩, text⟩

def program : Program where
  file := "sample"
  classes := [{
    token := ⟨.classDecl, "Main", 1, 11⟩
    name := name "Main" 19
    constructor := some {
      token := ⟨.constructor, "", 1, 38⟩
      name := ⟨⟨.constructor, "", 1, 38⟩, "Main"⟩
      locals := [⟨⟨.var, "m", 1, 49⟩, name "m" 49, .cls "Main"⟩]
      body := [
        .assign ⟨token (.binary .assign) 68, .ident (name "m" 77), .this (token .this 80)⟩,
        .print (token .print 89) (.int ⟨.intLit, "1", 1, 96⟩ 1)] } }]

theorem parse_main : Ty.parse "Main" = .ok (.cls "Main") := by rfl

theorem int?_one : Numeral.int? 32 ['1'] = some 1 := by rfl

theorem ofNode_root : Program.ofNode "sample" root = .ok program := by
  simp [Program.ofNode, root, entry, row, word, Decoder.classLists, Decoder.classDecl, Decoder.entries,
    Decoder.classParts, Decoder.name, Decoder.constructor, Decoder.methodParts, Decoder.stmtList, Decoder.stmts,
    Decoder.stmt, Decoder.expr, Decoder.scalar, Decoder.vars, Decoder.var, Decoder.type, Decoder.assignment,
    Node.isNull, bind, Except.bind, pure, Except.pure, int?_one, parse_main]
  rfl

theorem decode_source : Program.decode "sample" source = .ok program :=
  Program.decode_of_read (by decide +kernel) ofNode_root

def ident (text : String) : Ident := ⟨{}, text⟩

def var (name : String) (type : Ty) : VarDecl := ⟨{}, ident name, type⟩

def value (name : String) : Expr := .ident (ident name)

def field (receiver : Expr) (name : String) : Expr := .member {} receiver (ident name)

end Sample

namespace Tally

open Sample

def rows : Expr := field (.this {}) "rows"

def total : Expr := field (.this {}) "total"

def fill : MethodDecl where
  token := {}
  name := ident "Tally"
  args := [var "n" .int]
  body := [.assign ⟨{}, rows, .list {} [value "n", .int {} 5]⟩]

def above : MethodDecl where
  token := {}
  name := ident "above"
  args := [var "n" .int]
  locals := [var "r" .int]
  returnType := some .int
  body := [
    .foreach {} (ident "r") rows
      (.cond {} (.binary {} .gt (value "r") (value "n")) (.ret {} (some (value "r"))) none),
    .assign ⟨{}, total, .binary {} .add total (value "n")⟩,
    .ret {} (some total)]

/-- A sum and a list. The method answers the first number of the list that is greater than another, or else adds
that to the sum. -/
def tally : ClassDecl where
  token := {}
  name := ident "Tally"
  fields := [var "rows" (.list [("low", .int), ("", .int)]), var "total" .int]
  constructor := some fill
  methods := [above]

def lowest : Expr := .index {} (field (value "t") "rows") (.int {} 0)

def entry : MethodDecl where
  token := {}
  name := ident "Main"
  locals := [var "t" (.cls "Tally")]
  body := [
    .assign ⟨{}, value "t", .new {} (ident "Tally") [.int {} 3]⟩,
    .print {} (.unary {} .preInc lowest),
    .print {} (.call {} (field (value "t") "above") [.int {} 4]),
    .print {} (.call {} (field (value "t") "above") [.int {} 9])]

/-- A tally is made and changed, its method called with a result from inside the loop and with one from behind it. -/
def main : ClassDecl where
  token := {}
  name := ident "Main"
  constructor := some entry

def program : Program := { file := "sample", classes := [main, tally] }

theorem written : program.Written := by decide +kernel

theorem accepted : (program.check "Main").issues = [] := by decide +kernel

theorem compiled : ∃ files, Program.compile {} (program.check "Main").decl (program.check "Main").decl = .ok files :=
  exists_ok_of_isSome (by decide +kernel)

theorem only_list {c : ClassDecl} (hc : c ∈ program.classes) {m : MethodDecl} (hm : m ∈ c.bodies) {t : Token}
    {es : List Expr} (h : Expr.list t es ∈ m.subterms) : c = tally ∧ m = fill ∧ es = [value "n", .int {} 5] := by
  have hbody : c = main ∧ m = entry ∨ c = tally ∧ (m = fill ∨ m = above) := by
    rcases List.mem_pair.1 hc with rfl | rfl
    · exact .inl ⟨rfl, List.mem_singleton.1 hm⟩
    · exact .inr ⟨rfl, List.mem_pair.1 hm⟩
  rcases hbody with ⟨-, rfl⟩ | ⟨rfl, rfl | rfl⟩
  · simp [entry, lowest, field, value, MethodDecl.subterms, Stmt.subtermsOfAll, Stmt.subterms, Assign.subterms,
      Expr.subterms, Expr.subtermsOfAll] at h
  · simp [fill, rows, field, value, MethodDecl.subterms, Stmt.subtermsOfAll, Stmt.subterms, Assign.subterms,
      Expr.subterms, Expr.subtermsOfAll] at h
    exact ⟨rfl, rfl, h.2⟩
  · simp [above, rows, total, field, value, MethodDecl.subterms, Stmt.subtermsOfAll, Stmt.subterms,
      Stmt.subtermsOfElse, Assign.subterms, Expr.subterms] at h

theorem lists_filled : ∀ c ∈ program.classes, ∀ m ∈ c.bodies, ∀ t es, Expr.list t es ∈ m.subterms → es ≠ [] := by
  intro c hc m hm t es h
  obtain ⟨-, -, rfl⟩ := only_list hc hm h
  exact List.cons_ne_nil _ _

end Tally

end
end ClassCompiler
