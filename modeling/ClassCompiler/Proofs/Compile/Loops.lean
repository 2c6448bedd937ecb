import ClassCompiler.Proofs.Code.Placed
import ClassCompiler.Proofs.Compile.Jumps
import ClassCompiler.Proofs.Compile.Spans

namespace ClassCompiler

namespace Stmt

def isLoop : Stmt → Bool
  | .for _ _ _ _ _ => true
  | .foreach _ _ _ _ => true
  | _ => false

mutual

/-- For each statement in a statement the number of the innermost loop around it, where `k` is that of the loop
around the whole. Statements are numbered in the order of `substatements`, from `n` on. -/
def innermost (k : Option Nat) (n : Nat) : Stmt → List (Option Nat)
  | .block _ ss => k :: innermostOfAll k (n + 1) ss
  | .cond _ _ y e => k :: y.innermost k (n + 1) ++ innermostOfElse k (n + 1 + y.substatements.length) e
  | .for _ _ _ _ b => k :: b.innermost (some n) (n + 1)
  | .foreach _ _ _ b => k :: b.innermost (some n) (n + 1)
  | _ => [k]

def innermostOfAll (k : Option Nat) (n : Nat) : List Stmt → List (Option Nat)
  | [] => []
  | s :: ss => s.innermost k n ++ innermostOfAll k (n + s.substatements.length) ss

def innermostOfElse (k : Option Nat) (n : Nat) : Option Stmt → List (Option Nat)
  | none => []
  | some s => s.innermost k n

end

end Stmt

namespace Piece

def innermost (k : Option Nat) (n : Nat) : Piece → List (Option Nat)
  | .stmt _ s => s.innermost k n
  | .stmts _ ss => Stmt.innermostOfAll k n ss
  | .orElse _ s => Stmt.innermostOfElse k n s
  | _ => []

/-- The labels of the loop that a piece is compiled in. -/
def loop? : Piece → Option Loop
  | .stmt l _ => l
  | .stmts l _ => l
  | .orElse l _ => l
  | _ => none

end Piece

namespace Span

/-- The labels that a loop takes for `continue` and `break`. -/
def ownLoop (x : Span) : Loop := ⟨x.before.label 1, x.before.label 2⟩

/-- The labels that a statement takes for `continue` and `break`, if it is a loop. -/
def ownLoop? (x : Span) : Option (Option Loop) := x.stmt?.map fun s => if s.isLoop then some x.ownLoop else none

/-- The labels of the loop that a statement is compiled in. -/
def outerLoop? (x : Span) : Option (Option Loop) := x.stmt?.map fun _ => x.piece.loop?

theorem shift_ownLoop? (n : Nat) (x : Span) : (x.shift n).ownLoop? = x.ownLoop? := rfl

theorem shift_outerLoop? (n : Nat) (x : Span) : (x.shift n).outerLoop? = x.outerLoop? := rfl

end Span

/-- The statements numbered from `n` on are loops with these labels, or no loops. -/
def Numbered (L : Nat → Option Loop) (n : Nat) (own : List (Option Loop)) : Prop :=
  ∀ i l, own[i]? = some l → L (n + i) = l

namespace Numbered

variable {L : Nat → Option Loop} {n : Nat} {x : Option Loop} {xs ys : List (Option Loop)}

theorem append (h : Numbered L n (xs ++ ys)) : Numbered L n xs ∧ Numbered L (n + xs.length) ys := by
  refine ⟨fun i l hi => ?_, fun i l hi => ?_⟩
  · exact h i l (by rw [List.getElem?_append_left (List.getElem?_eq_some_iff.1 hi).1, hi])
  · rw [Nat.add_assoc]
    exact h _ l (by rw [List.getElem?_append_right (by omega), Nat.add_sub_cancel_left, hi])

theorem cons (h : Numbered L n (x :: xs)) : L n = x ∧ Numbered L (n + 1) xs := by
  have happend : Numbered L n ([x] ++ xs) := h
  exact ⟨h 0 x rfl, happend.append.2⟩

end Numbered

variable {ctx : Context} {p : Piece} {s s' : Supply} {code : List Instr} {sp : List Span}

def stmtSpans (sp : List Span) : List Span := sp.filter (·.stmt?.isSome)

theorem map_some_filterMap {α : Type} {f : Span → Option α} (hf : ∀ x, (f x).isSome = x.stmt?.isSome) (sp : List Span) :
    (sp.filterMap f).map some = (stmtSpans sp).map f := by
  induction sp with
  | nil => rfl
  | cons x sp ih =>
    have hx := hf x
    cases h : f x <;> simp_all [stmtSpans]

theorem isSome_ownLoop? (x : Span) : x.ownLoop?.isSome = x.stmt?.isSome := Option.isSome_map

theorem isSome_outerLoop? (x : Span) : x.outerLoop?.isSome = x.stmt?.isSome := Option.isSome_map

theorem Emits.length_filterMap (h : Emits ctx p s code s' sp) {α : Type} {f : Span → Option α}
    (hf : ∀ x, (f x).isSome = x.stmt?.isSome) : (sp.filterMap f).length = p.substatements.length := by
  have hlen := congrArg List.length (map_some_filterMap hf sp)
  have hstmts := congrArg List.length (map_some_filterMap (fun _ => rfl) sp : (sp.filterMap Span.stmt?).map some = _)
  simp only [List.length_map] at hlen hstmts
  rw [hlen, ← hstmts, h.substatements]

/-- No loop is found in a piece without statements. -/
theorem Emits.no_loops (h : Emits ctx p s code s' sp) (hp : p.substatements = []) :
    sp.filterMap Span.ownLoop? = [] ∧ sp.filterMap Span.outerLoop? = [] :=
  ⟨List.eq_nil_of_length_eq_zero (by rw [h.length_filterMap isSome_ownLoop?, hp]; rfl),
    List.eq_nil_of_length_eq_zero (by rw [h.length_filterMap isSome_outerLoop?, hp]; rfl)⟩

/-- Every statement is compiled in the innermost loop around it. -/
theorem Emits.innermost (h : Emits ctx p s code s' sp) {L : Nat → Option Loop} {n : Nat} {k : Option Nat}
    (hk : p.loop? = k.bind L) (hL : Numbered L n (sp.filterMap Span.ownLoop?)) :
    sp.filterMap Span.outerLoop? = (p.innermost k n).map (·.bind L) := by
  induction h generalizing n k with
  | @intro p s s' items code hr hp hc hg ih =>
    have hlen := (Emits.intro hr hp hc hg).length_filterMap isSome_outerLoop?
    replace ih := Parts.iff_forall_mem.2 fun q t c t' sp hm => And.intro (@ih q t c t' sp hm)
      (And.intro ((hp q t c t' sp hm).length_filterMap isSome_ownLoop?) (hp q t c t' sp hm).no_loops)
    rw [List.filterMap_cons, filterMap_spansFrom Span.shift_ownLoop?] at hL
    rw [List.filterMap_cons, filterMap_spansFrom Span.shift_outerLoop?] at hlen ⊢
    clear hp hg hc
    cases hr
    case assign | callStmt | print | ret | retValue | «break» | «continue» =>
      exact congrArg₂ List.cons hk (List.eq_nil_of_length_eq_zero (Nat.succ.inj hlen))
    all_goals simp only [Parts.part_iff, Parts.ops_iff, Parts.nil_iff, and_true, List.flatMap_cons, List.flatMap_nil,
      List.append_nil, List.nil_append, List.filterMap_nil, Item.spans] at ih hL hlen ⊢
    case block => exact congrArg₂ List.cons hk (ih.1 hk hL.cons.2)
    case orElse => exact ih.1 hk hL
    case stmts =>
      obtain ⟨⟨hx, hlen, -⟩, hxs, -, -⟩ := ih
      obtain ⟨hfirst, hrest⟩ := Numbered.append hL
      refine Eq.trans ?_ List.map_append.symm
      exact congrArg₂ (· ++ ·) (hx hk hfirst) (hxs hk (hlen ▸ hrest))
    case cond =>
      obtain ⟨⟨-, -, hc⟩, ⟨hy, hlen, -⟩, hn, -, -⟩ := ih
      rw [(hc rfl).1, List.nil_append] at hL
      rw [(hc rfl).2, List.nil_append]
      obtain ⟨hyes, hno⟩ := hL.cons.2.append
      refine congrArg₂ List.cons hk (Eq.trans ?_ List.map_append.symm)
      exact congrArg₂ (· ++ ·) (hy hk hyes) (hn hk (hlen ▸ hno))
    case «for» =>
      obtain ⟨⟨-, -, hi⟩, ⟨-, -, hc⟩, ⟨hb, -, -⟩, -, -, hu⟩ := ih
      rw [(hi rfl).1, (hc rfl).1, (hu rfl).1, List.nil_append, List.nil_append, List.append_nil] at hL
      rw [(hi rfl).2, (hc rfl).2, (hu rfl).2, List.nil_append, List.nil_append, List.append_nil]
      exact congrArg₂ List.cons hk (hb (k := some n) hL.cons.1.symm hL.cons.2)
    case foreach =>
      obtain ⟨⟨-, -, hl⟩, hb, -, -⟩ := ih
      rw [(hl rfl).1, List.nil_append] at hL
      rw [(hl rfl).2, List.nil_append]
      exact congrArg₂ List.cons hk (hb (k := some n) hL.cons.1.symm hL.cons.2)
    all_goals exact List.eq_nil_of_length_eq_zero hlen

/-- The statement at the `i`-th span is compiled in the loop whose number it has, which is a loop indeed. -/
theorem Emits.loop_of_stmtSpans {body : List Stmt} (h : Emits ctx (.stmts none body) s code s' sp) {i : Nat} {x : Span}
    (hx : (stmtSpans sp)[i]? = some x) {l : Loop} (hl : x.piece.loop? = some l) :
    ∃ j y t, (Stmt.innermostOfAll none 0 body)[i]? = some (some j) ∧ (stmtSpans sp)[j]? = some y ∧ y.stmt? = some t ∧
      t.isLoop = true ∧ l = y.ownLoop := by
  have hstmt : x.stmt?.isSome := (List.mem_filter.1 (List.mem_of_getElem? hx)).2
  obtain ⟨t, ht⟩ := Option.isSome_iff_exists.1 hstmt
  have houter := congrArg (·[i]?) (map_some_filterMap isSome_outerLoop? sp)
  simp only [List.getElem?_map, hx, Option.map_some, Span.outerLoop?, ht, hl] at houter
  obtain ⟨_, houter, hw⟩ := Option.map_eq_some_iff.1 houter
  rw [Option.some.inj hw] at houter
  change (sp.filterMap Span.outerLoop?)[i]? = _ at houter
  rw [h.innermost (L := fun j => (sp.filterMap Span.ownLoop?)[j]?.join) (n := 0) (k := none) rfl
    fun i l hi => by simp [hi], List.getElem?_map, Option.map_eq_some_iff] at houter
  obtain ⟨k, hk, hkl⟩ := houter
  obtain ⟨j, rfl, hj⟩ := Option.bind_eq_some_iff.1 hkl
  have hown := congrArg (·[j]?) (map_some_filterMap isSome_ownLoop? sp)
  simp only [List.getElem?_map, Option.join_eq_some_iff.1 hj, Option.map_some] at hown
  obtain ⟨y, hy, hyl⟩ := Option.map_eq_some_iff.1 hown.symm
  obtain ⟨u, hu, hul⟩ := Option.map_eq_some_iff.1 hyl
  split at hul
  · next hloop => exact ⟨j, y, u, hk, hy, hu, hloop, (Option.some.inj hul).symm⟩
  · cases hul

/-- The code that a loop runs between two turns. -/
inductive LoopStep (ctx : Context) : Stmt → List Instr → Prop
  | for {t : Token} {i u : Option Assign} {c : Option Expr} {b : Stmt} {s s' : Supply} {step : List Instr}
      (h : ctx.compileOptionalAssign u s = .ok (step, s')) : LoopStep ctx (.for t i c u b) step
  | foreach {t : Token} {v : Ident} {l : Expr} {b : Stmt} (slot : Int) :
      LoopStep ctx (.foreach t v l b) (onLine t.pos.line [.increment slot 1])

/-- The last instructions of a loop: the label that `continue` goes to, the step, the jump back to the start, and the
label that `break` goes to. -/
def loopEnd (line : Int) (start : String) (labels : Loop) (step : List Instr) : List Instr :=
  onLine line [.label labels.next] ++ step ++ onLine line [.jump .always start, .label labels.done]

theorem compileStmt_loopEnd {t : Stmt} (ht : t.isLoop = true) {l : Option Loop} (h : ctx.compileStmt l t s = .ok (code, s')) :
    ∃ first line start step, LoopStep ctx t step ∧ code = first ++ loopEnd line start ⟨s.label 1, s.label 2⟩ step := by
  obtain ⟨sp, he⟩ := Context.compileStmt_laid t h
  cases he with
  | intro hr hp hc hg =>
    cases t with
    | «for» t i c u b =>
      cases hr
      next ic s₁ is cc s₂ cs bc s₃ bs uc us =>
        obtain ⟨-, -, -, hu⟩ := hp (.update u) s₃ uc s' us (by simp)
        refine ⟨ic ++ onLine t.pos.line [.label (s.label 0)] ++ cc ++ bc, t.pos.line, s.label 0, uc, .for hu, ?_⟩
        simp [hc, Item.code, loopEnd]
    | foreach t v x b =>
      cases hr
      simp only [codeOf_cons, codeOf_nil, List.append_nil, Item.code, ← List.append_assoc] at hc
      exact ⟨_, t.pos.line, s.label 0, _, .foreach _, hc⟩
    | _ => cases ht

/-- The end of the loop at a span: its labels stand around the step, from `k` on. -/
structure Span.EndsLoop (ctx : Context) (code : Code) (y : Span) (k : Nat) (step : List Instr) : Prop where
  stmt : ∃ t, y.stmt? = some t ∧ LoopStep ctx t step
  stands : ∃ line start, CodeAt code k (loopEnd line start y.ownLoop step)
  stop : y.start + y.length = k + (step.length + 3)

/-- The code at a span is one jump to a label, which stands at `k`. -/
structure Span.JumpsTo (code : Code) (x : Span) (label : String) (k : Nat) : Prop where
  length : x.length = 1
  jump : OpAt code x.start (.jump .always label)
  place : code.labelOffset? label = some k

/-- The statements of a body stand at spans of its code, and every `break` and `continue` among them goes to the end or
to the step of the innermost loop around it. -/
structure ExitsLead (ctx : Context) (body : List Stmt) (code : Code) (xs : List Span) : Prop where
  stmts : xs.map Span.stmt? = (Stmt.substatementsOfAll body).map some
  covers : ∀ x ∈ xs, x.Covers ctx code.toList
  breaks : ∀ (i : Nat) (x : Span) t, xs[i]? = some x → x.stmt? = some (.break t) → ∃ j, ∃ y : Span, ∃ k step,
    (Stmt.innermostOfAll none 0 body)[i]? = some (some j) ∧ xs[j]? = some y ∧ y.EndsLoop ctx code k step ∧
      x.JumpsTo code y.ownLoop.done (k + step.length + 2)
  continues : ∀ (i : Nat) (x : Span) t, xs[i]? = some x → x.stmt? = some (.continue t) → ∃ j, ∃ y : Span, ∃ k step,
    (Stmt.innermostOfAll none 0 body)[i]? = some (some j) ∧ xs[j]? = some y ∧ y.EndsLoop ctx code k step ∧
      x.JumpsTo code y.ownLoop.next k

theorem Span.Covers.codeAt {code : List Instr} {x : Span} (h : x.Covers ctx code) {l : Option Loop} {t : Stmt}
    (hx : x.piece = .stmt l t) : ∃ inner after, ctx.compileStmt l t x.before = .ok (inner, after) ∧
      CodeAt code.toArray x.start inner ∧ x.length = inner.length := by
  obtain ⟨before, inner, rest, after, rfl, hstart, hlen, hg⟩ := h
  rw [hx] at hg
  exact ⟨inner, after, hg, hstart ▸ CodeAt.of_eq rfl, hlen⟩

theorem Span.piece_of_stmt? {x : Span} {t : Stmt} (h : x.stmt? = some t) : x.piece = .stmt x.piece.loop? t := by
  cases hp : x.piece <;> simp_all [Span.stmt?, Piece.stmt?, Piece.loop?]

theorem Span.Covers.endsLoop {code : List Instr} {y : Span} (h : y.Covers ctx code) {t : Stmt} (ht : y.stmt? = some t)
    (hloop : t.isLoop = true) : ∃ k step, y.EndsLoop ctx code.toArray k step := by
  obtain ⟨inner, after, hg, hat, hlen⟩ := h.codeAt (Span.piece_of_stmt? ht)
  obtain ⟨first, line, start, step, hstep, rfl⟩ := compileStmt_loopEnd hloop hg
  refine ⟨y.start + first.length, step, ⟨t, ht, hstep⟩, ⟨line, start, (CodeAt.append_iff.1 hat).2⟩, ?_⟩
  simp [hlen, loopEnd, onLine]
  omega

theorem Span.EndsLoop.places {code : Code} {y : Span} {k : Nat} {step : List Instr} (h : y.EndsLoop ctx code k step)
    (hl : LabelsOnce code) : code.labelOffset? y.ownLoop.next = some k ∧
      code.labelOffset? y.ownLoop.done = some (k + step.length + 2) := by
  obtain ⟨line, start, hat⟩ := h.stands
  obtain ⟨hnext, hrest⟩ := CodeAt.append_iff.1 hat
  obtain ⟨hfirst, -⟩ := CodeAt.append_iff.1 hnext
  refine ⟨hl.offset hfirst.opAt, ?_⟩
  have hdone := hl.offset hrest.tail.opAt
  simp [onLine] at hdone
  rw [hdone]
  congr 1

theorem compileStmt_break {t : Token} {l : Option Loop} (h : ctx.compileStmt l (.break t) s = .ok (code, s')) :
    ∃ labels, l = some labels ∧ code = onLine t.pos.line [.jump .always labels.done] := by
  cases l with
  | none => exact absurd (show Gen.fail _ s = _ from h) Gen.fail_ne_ok
  | some labels =>
    rw [Context.compileStmt, Gen.pure_eq_ok] at h
    exact ⟨labels, rfl, h.1.symm⟩

theorem compileStmt_continue {t : Token} {l : Option Loop} (h : ctx.compileStmt l (.continue t) s = .ok (code, s')) :
    ∃ labels, l = some labels ∧ code = onLine t.pos.line [.jump .always labels.next] := by
  cases l with
  | none => exact absurd (show Gen.fail _ s = _ from h) Gen.fail_ne_ok
  | some labels =>
    rw [Context.compileStmt, Gen.pure_eq_ok] at h
    exact ⟨labels, rfl, h.1.symm⟩

/-- The statement that goes to a label of the loop around it. -/
inductive Piece.LeavesTo : Piece → String → Prop
  | break (loop : Loop) (t : Token) : LeavesTo (.stmt (some loop) (.break t)) loop.done
  | continue (loop : Loop) (t : Token) : LeavesTo (.stmt (some loop) (.continue t)) loop.next

theorem Rule.jump_of_ops {items : List Item} (hr : Rule ctx p s items s') :
    ∀ i ∈ items, ∀ line os, i = .ops line os → ∀ l ∈ opJumps os, labelCount (codeOf items) l = 0 →
      (∃ line e, p = .test line l e) ∨ p.LeavesTo l := by
  cases hr
  case «break» loop t => simpa [Op.jump?] using fun _ => .break loop t
  case «continue» loop t => simpa [Op.jump?] using fun _ => .continue loop t
  all_goals simp only [forall_ops_nil, forall_ops_cons, forall_ops_cons_part]
  case test => exact ⟨by simp [Op.jump?], trivial⟩
  all_goals
    try simp only [opJumps_nil, opJumps_cons, opJumps_append, opJumps_box, opJumps_unbox, opJumps_narrow,
      opJumps_newArrayList, opJumps_addElement, opJumps_copyBegin, opJumps_copyEnd, opJumps_callResultOps,
      opJumps_changeVariable, opJumps_changeElement, opJumps_changeField, opJumps_storeElementOps, opJumps_storeField,
      opJumps_returnValue, opJumps_castElement, branchMerge, Op.jump?, Option.toList_none, Option.toList_some,
      List.nil_append, List.append_nil, List.cons_append, List.forall_mem_cons, List.not_mem_nil, false_implies,
      implies_true, and_self, and_true, labelCount_codeOf_cons, codeOf_nil, labelCount_nil, Item.code,
      labelCount_onLine, opLabelCount_cons, opLabelCount_nil, opLabelCount_append, reduceCtorEq, if_true, if_false,
      Nat.add_eq_zero_iff, Nat.one_ne_zero, and_false, false_and]

/-- The label that a test jumps to stands in the loop around it. -/
theorem Rule.label_of_test {items : List Item} (hr : Rule ctx p s items s') :
    Parts (fun q _ _ _ _ => ∀ line l e, q = .test line l e → labelCount (codeOf items) l ≠ 0) items := by
  cases hr
  case «for» => simp +contextual [Item.code]
  all_goals
    simp only [Parts.part_iff, Parts.ops_iff, Parts.nil_iff, reduceCtorEq, false_implies, implies_true, and_self]

/-- A part is compiled in the loop around, or in one whose labels stand in the code. -/
theorem Rule.loop_of_part {items : List Item} (hr : Rule ctx p s items s') :
    Parts (fun q _ _ _ _ => q.loop? = none ∨ q.loop? = p.loop? ∨
      ∃ lp, q.loop? = some lp ∧ labelCount (codeOf items) lp.next ≠ 0 ∧ labelCount (codeOf items) lp.done ≠ 0) items := by
  cases hr
  case «for» | foreach => simp [Piece.loop?, Item.code]
  all_goals simp only [Parts.part_iff, Parts.ops_iff, Parts.nil_iff, Piece.loop?, true_or, or_true, and_self]

theorem Piece.LeavesTo.labels {q : Piece} {l : String} (h : q.LeavesTo l) :
    ∃ lp, q.loop? = some lp ∧ (l = lp.next ∨ l = lp.done) := by
  cases h with
  | «break» lp t => exact ⟨lp, rfl, .inr rfl⟩
  | «continue» lp t => exact ⟨lp, rfl, .inl rfl⟩

theorem Rule.length_of_leavesTo {items : List Item} (hr : Rule ctx p s items s') {l : String} (hp : p.LeavesTo l) :
    (codeOf items).length = 1 := by
  cases hp <;> cases hr <;> rfl

theorem labelCount_part {items : List Item} {q : Piece} {t t' : Supply} {c : List Instr} {xs : List Span} {l : String}
    (hm : Item.part q t c t' xs ∈ items) (hl : labelCount (codeOf items) l = 0) : labelCount c l = 0 := by
  obtain ⟨before, rest, rfl⟩ := List.append_of_mem hm
  simp only [codeOf, List.flatMap_append, List.flatMap_cons, labelCount_append, Item.code] at hl
  omega

/-- A jump out of the code of a statement is that of a `break` or a `continue` in the loop around. -/
theorem Emits.jumpSite (h : Emits ctx p s code s' sp) {j : Nat} {i : Instr} (hj : code[j]? = some i) {test : Jump}
    {l : String} (hi : i.op = .jump test l) (hl : labelCount code l = 0) : (∃ line e, p = .test line l e) ∨
      ∃ x ∈ sp, x.start = j ∧ x.length = 1 ∧ x.piece.LeavesTo l ∧ x.piece.loop? = p.loop? := by
  induction h generalizing j with
  | @intro p s s' items code hr hp hc hg ih =>
    have hlt : j < code.length := (List.getElem?_eq_some_iff.1 hj).1
    have hcode := hj
    rw [hc] at hcode hl
    rcases getElem?_codeOf (n := 0) hcode with ⟨line, os, hm, hop⟩ | ⟨q, t, c, t', xs, k, hm, hk, hcode, hsp⟩
    · have hmem : l ∈ opJumps os := List.mem_filterMap.2 ⟨i.op, hop, by rw [hi]; rfl⟩
      refine (hr.jump_of_ops _ hm line os rfl l hmem hl).imp id fun hleaves => ?_
      have hone := hr.length_of_leavesTo hleaves
      rw [← hc] at hone
      exact ⟨_, List.mem_cons_self, by simp only; omega, hone, hleaves, rfl⟩
    · rcases ih q t c t' xs hm hcode (labelCount_part hm hl) with
        ⟨line, e, rfl⟩ | ⟨x, hx, hstart, hlen, hleaves, hloop⟩
      · exact absurd hl (Parts.iff_forall_mem.1 hr.label_of_test _ t c t' xs hm line l e rfl)
      · refine .inr ⟨x.shift (0 + k), List.mem_cons_of_mem _ (hsp x hx), ?_, hlen, hleaves, ?_⟩
        · simp only [Span.shift]
          omega
        · obtain ⟨lp, hlp, hlabel⟩ := hleaves.labels
          rcases Parts.iff_forall_mem.1 hr.loop_of_part q t c t' xs hm with hnone | hsame | ⟨lp', hlp', hnext, hdone⟩
          · rw [hloop, hnone] at hlp
            cases hlp
          · exact hloop.trans hsame
          · obtain rfl : lp' = lp := Option.some.inj (hlp'.symm.trans (hloop.symm.trans hlp))
            rcases hlabel with rfl | rfl
            · exact absurd hl hnext
            · exact absurd hl hdone

section

variable {q : Program} {c : ClassDecl} {d : MethodDecl} {start : List Instr} (b : BodyCode q c d code)

theorem BodyCode.stmtSpans_spansAfter (start : List Instr) : stmtSpans (b.spansAfter start) =
    (stmtSpans b.spans).map (Span.shift start.length ∘ Span.shift d.localDefaults.length) := by
  rw [stmtSpans, stmtSpans, BodyCode.spansAfter, List.filter_map]
  rfl

/-- A statement that is compiled in a loop is in that one in the tree. -/
theorem BodyCode.endsLoop {i : Nat} {x : Span} (hx : (stmtSpans (b.spansAfter start))[i]? = some x) {l : Loop}
    (hloop : x.piece.loop? = some l) : ∃ j, ∃ y : Span, ∃ k step, (Stmt.innermostOfAll none 0 d.body)[i]? = some (some j) ∧
      (stmtSpans (b.spansAfter start))[j]? = some y ∧
      y.EndsLoop ⟨q, c.name.name, d⟩ (start ++ code).toArray k step ∧ l = y.ownLoop := by
  have hcovers := b.covers_spansAfter start
  have hmap := b.stmtSpans_spansAfter start
  rw [hmap, List.getElem?_map, Option.map_eq_some_iff] at hx
  obtain ⟨x, hx, rfl⟩ := hx
  obtain ⟨j, y, t, hj, hy, ht, hyloop, rfl⟩ := b.emits.loop_of_stmtSpans hx hloop
  have hyj : (stmtSpans (b.spansAfter start))[j]? = some (Span.shift start.length (Span.shift d.localDefaults.length y)) := by
    rw [hmap, List.getElem?_map, hy]
    rfl
  have hmem := (List.mem_filter.1 (List.mem_of_getElem? hyj)).1
  obtain ⟨k, step, hend⟩ := (hcovers _ hmem).endsLoop (t := t) ht hyloop
  exact ⟨j, _, k, step, hj, hyj, hend, rfl⟩

/-- In the code of a body every `break` and `continue` goes where the tree says. -/
theorem BodyCode.exitsLead (hl : ∀ l, labelCount start l = 0) :
    ExitsLead ⟨q, c.name.name, d⟩ d.body (start ++ code).toArray (stmtSpans (b.spansAfter start)) := by
  have hcovers : ∀ x ∈ stmtSpans (b.spansAfter start), x.Covers ⟨q, c.name.name, d⟩ (start ++ code) := fun x hx =>
    b.covers_spansAfter start x (List.mem_filter.1 hx).1
  have hlabels : LabelsOnce (start ++ code).toArray := fun l => by simpa using b.labelCount_le_one hl l
  refine ⟨?_, fun x hx => by simpa using hcovers x hx, fun i x t hx ht => ?_, fun i x t hx ht => ?_⟩
  · rw [← map_some_filterMap fun _ => rfl, b.filterMap_spansAfter start Span.shift_stmt?, b.emits.substatements]
    rfl
  · obtain ⟨inner, after, hg, hat, hlen⟩ := (hcovers x (List.mem_of_getElem? hx)).codeAt (Span.piece_of_stmt? ht)
    obtain ⟨labels, hloop, rfl⟩ := compileStmt_break hg
    obtain ⟨j, y, k, step, hj, hy, hend, rfl⟩ := b.endsLoop hx hloop
    exact ⟨j, y, k, step, hj, hy, hend, hlen, hat.opAt, (hend.places hlabels).2⟩
  · obtain ⟨inner, after, hg, hat, hlen⟩ := (hcovers x (List.mem_of_getElem? hx)).codeAt (Span.piece_of_stmt? ht)
    obtain ⟨labels, hloop, rfl⟩ := compileStmt_continue hg
    obtain ⟨j, y, k, step, hj, hy, hend, rfl⟩ := b.endsLoop hx hloop
    exact ⟨j, y, k, step, hj, hy, hend, hlen, hat.opAt, (hend.places hlabels).1⟩

end

end ClassCompiler
