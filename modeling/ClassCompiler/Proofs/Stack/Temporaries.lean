import Mathlib.Algebra.Order.Ring.Int
import ClassCompiler.Proofs.Compile.Spans
import ClassCompiler.Proofs.Stack.Slots

namespace ClassCompiler

/-- What changing the value at a place by one takes: the list, the index and the result, or the object or list
and the result. -/
def Expr.changeTemps : Expr → Nat
  | .index _ _ _ => 3
  | .member _ _ _ => 2
  | _ => 0

/-- The temporaries of an expression itself; an assignment to an element takes one for the index. -/
def Expr.ownTemps : Expr → Nat
  | .binary _ .assign (.index _ _ _) _ => 1
  | .unary _ op x => if op.isIncDec then x.changeTemps else 0
  | _ => 0

/-- The temporaries of a statement itself: the list and the counter of a loop over a list. -/
def Stmt.ownTemps : Stmt → Nat
  | .foreach _ _ _ _ => 2
  | _ => 0

def tempsOf (es : List Expr) (ss : List Stmt) : Nat := (es.map Expr.ownTemps).sum + (ss.map Stmt.ownTemps).sum

namespace MethodDecl

def temporaries (m : MethodDecl) : Nat := tempsOf (Stmt.evaluatedAll m.body) (Stmt.substatementsOfAll m.body)

def slotNeed (m : MethodDecl) : Nat := 1 + m.args.length + m.locals.length + m.temporaries

end MethodDecl

namespace Piece

/-- The temporaries of a piece and all that is inside it. -/
def temps (p : Piece) : Nat := tempsOf p.evaluated p.substatements

end Piece

/-- What an assignment to an element takes before its own temporary. -/
def Expr.tempsBefore : Expr → Nat
  | .binary _ .assign l@(.index _ _ _) _ => tempsOf l.evaluatedInside []
  | _ => 0

/-- The temporaries that the piece of a span takes itself. -/
def Span.temps (x : Span) : List Nat :=
  match x.piece with
  | .expr e => List.range' (x.before.slots + e.tempsBefore) e.ownTemps
  | .stmt _ s => List.range' x.before.slots s.ownTemps
  | _ => []

@[simp] theorem Span.shift_temps (n : Nat) (x : Span) : (x.shift n).temps = x.temps := rfl

section

variable {es es' : List Expr} {ss ss' : List Stmt} {e : Expr} {s : Stmt}

@[simp] theorem tempsOf_nil : tempsOf [] [] = 0 := rfl

@[simp] theorem tempsOf_cons_expr : tempsOf (e :: es) ss = e.ownTemps + tempsOf es ss := by
  simp only [tempsOf, List.map_cons, List.sum_cons]
  omega

@[simp] theorem tempsOf_cons_stmt : tempsOf es (s :: ss) = s.ownTemps + tempsOf es ss := by
  simp only [tempsOf, List.map_cons, List.sum_cons]
  omega

theorem tempsOf_append : tempsOf (es ++ es') (ss ++ ss') = tempsOf es ss + tempsOf es' ss' := by
  simp only [tempsOf, List.map_append, List.sum_append]
  omega

end

theorem Expr.ownTemps_operation {op : BinOp} (ho : op ≠ .assign) (t : Token) (l r : Expr) :
    (Expr.binary t op l r).ownTemps = 0 ∧ (Expr.binary t op l r).tempsBefore = 0 := by
  cases op <;> simp_all [Expr.ownTemps, Expr.tempsBefore]

variable {ctx : Context} {p : Piece} {s s' : Supply} {code : List Instr} {sp : List Span}

theorem count_temps_spansFrom (n : Nat) (items : List Item) (i : Nat) :
    ((spansFrom n items).flatMap Span.temps).count i =
      (items.map fun it => (it.spans.flatMap Span.temps).count i).sum := by
  induction items generalizing n with
  | nil => rfl
  | cons it its ih =>
    have hshift : (it.spans.map (Span.shift n)).flatMap Span.temps = it.spans.flatMap Span.temps := by
      rw [List.flatMap_map]
      rfl
    rw [spansFrom, List.flatMap_append, List.count_append, hshift, ih, List.map_cons, List.sum_cons]

section

variable {items : List Item} {n i : Nat}
  (ih : Parts (fun q t _ t' sp => t'.slots = t.slots + q.temps ∧
    (sp.flatMap Span.temps).count i = if t.slots ≤ i ∧ i < t'.slots then 1 else 0) items)

include ih

theorem Rule.temps_expr {e : Expr} (hr : Rule ctx (.expr e) s items s') : s'.slots = s.slots + (Piece.expr e).temps ∧
    (Span.temps ⟨.expr e, s, 0, n⟩).count i + (items.map fun it => (it.spans.flatMap Span.temps).count i).sum =
      if s.slots ≤ i ∧ i < s'.slots then 1 else 0 := by
  have hoperation : ∀ {op : BinOp} {l r : Expr} {t : Token}, op ≠ .assign →
      (Piece.expr (.binary t op l r)).temps = (Piece.expr l).temps + (Piece.expr r).temps ∧
        ∀ n s, Span.temps ⟨.expr (.binary t op l r), s, 0, n⟩ = [] := fun ho => by
    simp [Piece.temps, Piece.evaluated, Piece.substatements, Expr.evaluated_operation ho, Span.temps,
      Expr.ownTemps_operation ho, ← tempsOf_append]
  cases hr
  case logical ho =>
    simp [hoperation (BinOp.ne_assign_of_shortcut? ho), Item.spans] at ih ⊢
    grind
  case arith ho =>
    simp [hoperation (BinOp.ne_assign_of_arith? ho), Item.spans] at ih ⊢
    grind
  case compare ho =>
    simp [hoperation (BinOp.ne_assign_of_isComparison ho), Item.spans] at ih ⊢
    grind
  all_goals
    subst_vars
    simp_all [Piece.temps, tempsOf, Piece.evaluated, Piece.substatements, Span.temps, Item.spans,
      List.count_range_1', -List.count_range', Expr.evaluated, Expr.evaluatedInside, UnOp.isIncDec, Expr.ownTemps,
      Expr.changeTemps, Expr.tempsBefore] <;> try grind

theorem Rule.temps (hr : Rule ctx p s items s') : s'.slots = s.slots + p.temps ∧
    (Span.temps ⟨p, s, 0, n⟩).count i + (items.map fun it => (it.spans.flatMap Span.temps).count i).sum =
      if s.slots ≤ i ∧ i < s'.slots then 1 else 0 := by
  by_cases hexpr : ∃ e, p = .expr e
  · obtain ⟨e, rfl⟩ := hexpr
    exact hr.temps_expr ih
  cases hr
  all_goals try exact absurd ⟨_, rfl⟩ hexpr
  all_goals
    clear hexpr
    simp_all [Piece.temps, tempsOf, Piece.evaluated, Piece.substatements, Span.temps, Item.spans, List.count_range_1',
      -List.count_range', Expr.evaluated, Expr.evaluatedAll, Stmt.evaluated, Stmt.evaluatedAll, Stmt.evaluatedElse,
      Assign.evaluated, Stmt.substatements, Stmt.substatementsOfAll, Stmt.substatementsOfElse, Expr.ownTemps,
      Stmt.ownTemps] <;> try grind

end

/-- A piece takes as many slots as are counted for it, and each of them once. -/
theorem Emits.temps (h : Emits ctx p s code s' sp) (i : Nat) : s'.slots = s.slots + p.temps ∧
    (sp.flatMap Span.temps).count i = if s.slots ≤ i ∧ i < s'.slots then 1 else 0 := by
  induction h with
  | intro hr hp hc hg ih =>
    rw [List.flatMap_cons, List.count_append, count_temps_spansFrom]
    exact hr.temps (Parts.iff_forall_mem.2 ih)

/-- The operations of an item name variables, or the given temporaries. -/
def Item.NamesOnly (n : Nat) (temps : List Nat) : Item → Prop
  | .ops _ os => ∀ i ∈ slotsOf os, i < n ∨ i.toNat ∈ temps
  | .part _ _ _ _ _ => True

/-- What a rule adds itself names variables, and the temporaries of the piece itself. -/
theorem Rule.namesOnly {items : List Item} (hr : Rule ctx p s items s')
    (hp : Parts (fun q t _ t' _ => t'.slots = t.slots + q.temps) items) (n : Nat) :
    ∀ i ∈ items, i.NamesOnly ctx.method.slotCount (Span.temps ⟨p, s, 0, n⟩) := by
  have hpos := ctx.method.slotCount_pos
  have hsym := @MethodDecl.symbol?_slot_lt ctx.method
  cases hr
  case ident hs | changeIdent hs | assignIdent hs | foreach hs =>
    have hslot := (hsym hs).2
    simp [Item.NamesOnly, Span.temps, Stmt.ownTemps]
    omega
  case changeIndex ho | changeElement ho _ _ | changeField ho _ _ =>
    simp [Item.NamesOnly, Span.temps, Expr.ownTemps, Expr.changeTemps, Expr.tempsBefore, ho,
      ClassCompiler.changeElement, ClassCompiler.changeField]
    try omega
  case assignIndex hl =>
    simp [Item.NamesOnly, Span.temps, Expr.ownTemps, hl, Expr.tempsBefore, storeElementOps, Expr.evaluatedInside,
      Piece.temps, Piece.evaluated, Piece.substatements, tempsOf] at hp ⊢
    omega
  all_goals
    simp [Item.NamesOnly, storeElementOps, storeField]
    try omega

/-- Where code names a slot past those of the variables, it stands in the code of the piece that took it. -/
theorem Emits.namedBy (h : Emits ctx p s code s' sp) {j : Nat} {i : Instr} {slot : Int} (hj : code[j]? = some i)
    (hi : i.op.slot? = some slot) (hslot : ctx.method.slotCount ≤ slot) :
    ∃ x ∈ sp, x.Contains j ∧ slot.toNat ∈ x.temps := by
  induction h generalizing j with
  | @intro p s s' items code hr hp hc hg ih =>
    have htemps := Parts.iff_forall_mem.2 fun q t c t' sp hm => ((hp q t c t' sp hm).temps 0).1
    have hlt : j < code.length := (List.getElem?_eq_some_iff.1 hj).1
    rw [hc] at hj
    rcases getElem?_codeOf (n := 0) hj with ⟨line, os, hm, hop⟩ | ⟨q, t, c, t', xs, k, hm, hk, hcode, hsp⟩
    · rcases hr.namesOnly htemps code.length _ hm slot (List.mem_filterMap.2 ⟨_, hop, hi⟩) with hvar | hown
      · omega
      · exact ⟨_, List.mem_cons_self, ⟨Nat.zero_le _, by simpa using hlt⟩, hown⟩
    · obtain ⟨x, hx, hcontains, hown⟩ := ih q t c t' xs hm hcode
      rw [Nat.zero_add] at hsp
      exact ⟨x.shift k, List.mem_cons_of_mem _ (hsp x hx), hcontains.shift hk, hown⟩

section

variable {o : CompileOptions} {q : Program} {c : ClassDecl} {m : MethodDecl}

theorem BodyCode.after_slots (b : BodyCode q c m code) : b.after.slots = m.slotNeed := (b.emits.temps 0).1

/-- The temporaries of a body are numbered on from its variables. -/
theorem BodyCode.temps_perm (b : BodyCode q c m code) :
    (b.spans.flatMap Span.temps).Perm (List.range' m.slotCount m.temporaries) := by
  refine List.perm_iff_count.2 fun i => ?_
  rw [(b.emits.temps i).2, List.count_range_1', b.after_slots]
  rfl

end

end ClassCompiler
