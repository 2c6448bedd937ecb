import ClassCompiler.Proofs.Compile.Accepted
import ClassCompiler.Proofs.Compile.Methods

namespace ClassCompiler

namespace Expr

mutual

/-- An expression and the expressions evaluated inside it, each before those inside it. The target of
an assignment is not evaluated, but what it is made of is. -/
def evaluated : Expr → List Expr
  | e@(.binary _ .assign l r) => e :: l.evaluatedInside ++ r.evaluated
  | e@(.binary _ _ l r) => e :: l.evaluated ++ r.evaluated
  | e@(.unary _ op x) => e :: (if op.isIncDec then x.evaluatedInside else x.evaluated)
  | e@(.member _ x _) => e :: x.evaluated
  | e@(.index _ x i) => e :: x.evaluated ++ i.evaluated
  | e@(.call _ f as) => e :: f.evaluated ++ evaluatedAll as
  | e@(.new _ _ as) => e :: evaluatedAll as
  | e@(.list _ es) => e :: evaluatedAll es
  | e => [e]

def evaluatedInside : Expr → List Expr
  | .member _ x _ => x.evaluated
  | .index _ x i => x.evaluated ++ i.evaluated
  | _ => []

def evaluatedAll : List Expr → List Expr
  | [] => []
  | e :: es => e.evaluated ++ evaluatedAll es

end

end Expr

def Assign.evaluated (a : Assign) : List Expr := (Expr.binary a.token .assign a.left a.right).evaluated

namespace Stmt

mutual

def evaluated : Stmt → List Expr
  | .assign a => a.evaluated
  | .block _ ss => evaluatedAll ss
  | .cond _ c y n => c.evaluated ++ y.evaluated ++ evaluatedElse n
  | .call t f as => (Expr.call t f as).evaluated
  | .print _ x => x.evaluated
  | .ret _ v => v.toList.flatMap Expr.evaluated
  | .for _ i c u b =>
    i.toList.flatMap Assign.evaluated ++ c.toList.flatMap Expr.evaluated ++ b.evaluated ++
      u.toList.flatMap Assign.evaluated
  | .foreach _ _ l b => l.evaluated ++ b.evaluated
  | .break _ => []
  | .continue _ => []

def evaluatedAll : List Stmt → List Expr
  | [] => []
  | s :: ss => s.evaluated ++ evaluatedAll ss

def evaluatedElse : Option Stmt → List Expr
  | none => []
  | some s => s.evaluated

end

mutual

def substatements : Stmt → List Stmt
  | s@(.block _ ss) => s :: substatementsOfAll ss
  | s@(.cond _ _ y n) => s :: y.substatements ++ substatementsOfElse n
  | s@(.for _ _ _ _ b) => s :: b.substatements
  | s@(.foreach _ _ _ b) => s :: b.substatements
  | s => [s]

def substatementsOfAll : List Stmt → List Stmt
  | [] => []
  | s :: ss => s.substatements ++ substatementsOfAll ss

def substatementsOfElse : Option Stmt → List Stmt
  | none => []
  | some s => s.substatements

end

end Stmt

namespace Piece

def evaluated : Piece → List Expr
  | .expr e => e.evaluated
  | .elements _ es => Expr.evaluatedAll es
  | .args es => Expr.evaluatedAll es
  | .update a => a.toList.flatMap Assign.evaluated
  | .test _ _ e => e.toList.flatMap Expr.evaluated
  | .stmt _ s => s.evaluated
  | .stmts _ ss => Stmt.evaluatedAll ss
  | .orElse _ s => Stmt.evaluatedElse s

def substatements : Piece → List Stmt
  | .stmt _ s => s.substatements
  | .stmts _ ss => Stmt.substatementsOfAll ss
  | .orElse _ s => Stmt.substatementsOfElse s
  | _ => []

def expr? : Piece → Option Expr
  | .expr e => some e
  | _ => none

def stmt? : Piece → Option Stmt
  | .stmt _ s => some s
  | _ => none

end Piece

namespace Span

def expr? (x : Span) : Option Expr := x.piece.expr?

def stmt? (x : Span) : Option Stmt := x.piece.stmt?

@[simp] theorem shift_expr? (n : Nat) (x : Span) : (x.shift n).expr? = x.expr? := rfl

@[simp] theorem shift_stmt? (n : Nat) (x : Span) : (x.shift n).stmt? = x.stmt? := rfl

end Span

def Span.Covers (ctx : Context) (code : List Instr) (x : Span) : Prop :=
  ∃ before inner rest after, code = before ++ inner ++ rest ∧ x.start = before.length ∧
    x.length = inner.length ∧ ctx.compilePiece x.piece x.before = .ok (inner, after)

theorem Span.Covers.append {ctx : Context} {code : List Instr} {x : Span} (h : x.Covers ctx code)
    (c₁ c₂ : List Instr) : (x.shift c₁.length).Covers ctx (c₁ ++ code ++ c₂) := by
  obtain ⟨before, inner, rest, after, rfl, hs, hl, hg⟩ := h
  refine ⟨c₁ ++ before, inner, rest ++ c₂, after, by simp, ?_, hl, hg⟩
  rw [List.length_append, ← hs]
  rfl

theorem filterMap_spansFrom {α : Type} {f : Span → Option α} (hf : ∀ n x, f (Span.shift n x) = f x)
    (n : Nat) (items : List Item) :
    (spansFrom n items).filterMap f = items.flatMap fun i => i.spans.filterMap f := by
  induction items generalizing n with
  | nil => rfl
  | cons i is ih =>
    have hm : ((i.spans.map (Span.shift n)).filterMap f) = i.spans.filterMap f := by
      rw [List.filterMap_map, show f ∘ Span.shift n = f from funext (hf n)]
    rw [spansFrom, List.filterMap_append, hm, ih, List.flatMap_cons]

theorem Expr.evaluated_operation {op : BinOp} (ho : op ≠ .assign) (t : Token) (l r : Expr) :
    (Expr.binary t op l r).evaluated = .binary t op l r :: (l.evaluated ++ r.evaluated) := by
  cases op <;> simp_all [Expr.evaluated]

variable {ctx : Context} {p : Piece} {s s' : Supply} {code : List Instr} {sp : List Span}

theorem Emits.evaluated (h : Emits ctx p s code s' sp) : sp.filterMap Span.expr? = p.evaluated := by
  induction h with
  | @intro p s s' items code hr hp hc hg ih =>
    replace ih := Parts.iff_forall_mem.2 ih
    rw [List.filterMap_cons, filterMap_spansFrom Span.shift_expr?]
    clear hp hg hc
    cases hr
    case logical ho =>
      have ho := BinOp.ne_assign_of_shortcut? ho
      simp_all only [Parts.part_iff, Parts.ops_iff, Parts.nil_iff, Span.expr?, Piece.expr?, Piece.evaluated, Item.spans,
        List.flatMap_cons, List.flatMap_nil, List.filterMap_nil, List.nil_append, List.append_nil,
        Expr.evaluated_operation ho]
    case arith ho =>
      have ho := BinOp.ne_assign_of_arith? ho
      simp_all only [Parts.part_iff, Parts.ops_iff, Parts.nil_iff, Span.expr?, Piece.expr?, Piece.evaluated, Item.spans,
        List.flatMap_cons, List.flatMap_nil, List.filterMap_nil, List.append_nil, Expr.evaluated_operation ho]
    case compare ho =>
      have ho := BinOp.ne_assign_of_isComparison ho
      simp_all only [Parts.part_iff, Parts.ops_iff, Parts.nil_iff, Span.expr?, Piece.expr?, Piece.evaluated, Item.spans,
        List.flatMap_cons, List.flatMap_nil, List.filterMap_nil, List.append_nil, Expr.evaluated_operation ho]
    all_goals
      simp_all only [Parts.part_iff, Parts.ops_iff, Parts.nil_iff, Span.expr?, Piece.expr?, Piece.evaluated, Item.spans,
        List.flatMap_cons, List.flatMap_nil, List.filterMap_nil, List.nil_append, List.append_nil, List.cons_append,
        List.append_assoc, Option.toList_none, Option.toList_some, Bool.false_eq_true, if_true, if_false,
        Expr.evaluated, Expr.evaluatedAll, Expr.evaluatedInside, Stmt.evaluated, Stmt.evaluatedAll,
        Stmt.evaluatedElse, Assign.evaluated, UnOp.isIncDec]

theorem Emits.substatements (h : Emits ctx p s code s' sp) :
    sp.filterMap Span.stmt? = p.substatements := by
  induction h with
  | @intro p s s' items code hr hp hc hg ih =>
    replace ih := Parts.iff_forall_mem.2 ih
    rw [List.filterMap_cons, filterMap_spansFrom Span.shift_stmt?]
    clear hp hg hc
    cases hr <;>
    simp_all only [Parts.part_iff, Parts.ops_iff, Parts.nil_iff, Span.stmt?, Piece.stmt?, Piece.substatements,
      Item.spans, List.flatMap_cons, List.flatMap_nil, List.filterMap_nil, List.nil_append, List.append_nil,
      List.cons_append, Stmt.substatements, Stmt.substatementsOfAll, Stmt.substatementsOfElse]

/-- The spans of items in a row are those of the items, each moved behind the code of the items before it. -/
theorem mem_spansFrom_iff {n : Nat} {items : List Item} {x : Span} : x ∈ spansFrom n items ↔
    ∃ first i rest y, items = first ++ i :: rest ∧ y ∈ i.spans ∧ x = y.shift (n + (codeOf first).length) := by
  induction items generalizing n with
  | nil => simp [spansFrom]
  | cons i is ih =>
    rw [spansFrom, List.mem_append, ih, List.mem_map]
    constructor
    · rintro (⟨y, hy, rfl⟩ | ⟨first, j, rest, y, rfl, hy, rfl⟩)
      · exact ⟨[], i, is, y, rfl, hy, rfl⟩
      · exact ⟨i :: first, j, rest, y, rfl, hy, by simp [Nat.add_assoc]⟩
    · rintro ⟨first, j, rest, y, he, hy, rfl⟩
      cases first with
      | nil =>
        obtain ⟨rfl, rfl⟩ := List.cons.inj he
        exact .inl ⟨y, hy, rfl⟩
      | cons k first =>
        obtain ⟨rfl, rfl⟩ := List.cons.inj he
        exact .inr ⟨first, j, rest, y, rfl, hy, by simp [Nat.add_assoc]⟩

/-- The code at a span is laid out by the rules, and the spans in it are among those of the whole code. -/
def Span.Built (ctx : Context) (code : List Instr) (sp : List Span) (x : Span) : Prop :=
  ∃ before inner rest after xs, code = before ++ inner ++ rest ∧ x.start = before.length ∧ x.length = inner.length ∧
    Emits ctx x.piece x.before inner after xs ∧ ∀ y ∈ xs, y.shift x.start ∈ sp

theorem Emits.built (h : Emits ctx p s code s' sp) : ∀ x ∈ sp, x.Built ctx code sp := by
  induction h with
  | @intro p s s' items code hr hp hc hg ih =>
    intro x hx
    rcases List.mem_cons.1 hx with rfl | hm
    · have hzero : ∀ y : Span, y.shift 0 = y := fun y => by simp [Span.shift]
      exact ⟨[], code, [], s', _, by simp, rfl, rfl, .intro hr hp hc hg, fun y hy => by rwa [hzero]⟩
    · obtain ⟨first, i, last, y, rfl, hy, rfl⟩ := mem_spansFrom_iff.1 hm
      cases i with
      | ops line os => simp [Item.spans] at hy
      | part q t c t' ys =>
        have hmem : Item.part q t c t' ys ∈ first ++ Item.part q t c t' ys :: last := by simp
        obtain ⟨before, inner, rest, after, xs, rfl, hstart, hlen, hinner, hin⟩ := ih q t c t' ys hmem y hy
        refine ⟨codeOf first ++ before, inner, rest ++ codeOf last, after, xs, ?_, ?_, hlen, hinner, fun z hz => ?_⟩
        · simp [hc, codeOf, Item.code]
        · simp [Span.shift, hstart]
        · refine List.mem_cons_of_mem _ (mem_spansFrom_iff.2 ⟨first, _, last, _, rfl, hin z hz, ?_⟩)
          simp [Span.shift, Nat.add_assoc]

/-- Every span holds the code generated for its piece. -/
theorem Emits.covers (h : Emits ctx p s code s' sp) : ∀ x ∈ sp, x.Covers ctx code := by
  intro x hx
  obtain ⟨before, inner, rest, after, xs, rfl, hstart, hlen, ⟨-, -, -, hg⟩, -⟩ := h.built x hx
  exact ⟨before, inner, rest, after, rfl, hstart, hlen, hg⟩

/-- An instruction of items in a row is an operation of one of them, or lies in the code of a part. -/
theorem getElem?_codeOf {items : List Item} {j n : Nat} {i : Instr} (hj : (codeOf items)[j]? = some i) :
    (∃ line os, Item.ops line os ∈ items ∧ i.op ∈ os) ∨
      ∃ q t body t' sp k, Item.part q t body t' sp ∈ items ∧ k ≤ j ∧ body[j - k]? = some i ∧
        ∀ x ∈ sp, x.shift (n + k) ∈ spansFrom n items := by
  induction items generalizing j n with
  | nil => simp at hj
  | cons it its ih =>
    rw [codeOf_cons] at hj
    rcases Nat.lt_or_ge j it.code.length with hlt | hge
    · rw [List.getElem?_append_left hlt] at hj
      cases it with
      | ops line os =>
        refine .inl ⟨line, os, List.mem_cons_self, ?_⟩
        obtain ⟨op, hop, rfl⟩ := List.mem_map.1 (List.mem_of_getElem? hj)
        exact hop
      | part q t c t' sp =>
        refine .inr ⟨q, t, c, t', sp, 0, List.mem_cons_self, Nat.zero_le _, by simpa [Item.code] using hj, fun x hx => ?_⟩
        exact List.mem_append_left _ (List.mem_map_of_mem hx)
    · rw [List.getElem?_append_right hge] at hj
      rcases ih (n := n + it.code.length) hj with ⟨line, os, hm, hop⟩ | ⟨q, t, c, t', sp, k, hm, hk, hc, hsp⟩
      · exact .inl ⟨line, os, List.mem_cons_of_mem _ hm, hop⟩
      · refine .inr ⟨q, t, c, t', sp, it.code.length + k, List.mem_cons_of_mem _ hm, by omega, ?_, fun x hx => ?_⟩
        · rwa [show j - (it.code.length + k) = j - it.code.length - k by omega]
        · rw [← Nat.add_assoc]
          exact List.mem_append_right _ (hsp x hx)

def Span.Contains (x : Span) (j : Nat) : Prop := x.start ≤ j ∧ j < x.start + x.length

theorem Span.Contains.shift {x : Span} {j k : Nat} (h : x.Contains (j - k)) (hk : k ≤ j) : (x.shift k).Contains j := by
  simp only [Contains, Span.shift] at h ⊢
  omega

/-- The spans of a body in the code of its method, which starts with other code. -/
def BodyCode.spansAfter {p : Program} {c : ClassDecl} {m : MethodDecl} {code : List Instr}
    (b : BodyCode p c m code) (start : List Instr) : List Span :=
  b.spans.map (Span.shift start.length ∘ Span.shift m.localDefaults.length)

theorem BodyCode.covers_spansAfter {p : Program} {c : ClassDecl} {m : MethodDecl} {code : List Instr}
    (b : BodyCode p c m code) (start : List Instr) :
    ∀ x ∈ b.spansAfter start, x.Covers ⟨p, c.name.name, m⟩ (start ++ code) := by
  intro x hx
  obtain ⟨y, hy, rfl⟩ := List.mem_map.1 hx
  have hc := ((b.emits.covers y hy).append m.localDefaults
    (if m.endsWithReturn then [] else onLine m.token.pos.line [.ret])).append start []
  rw [← b.code_eq, List.append_nil] at hc
  exact hc

theorem BodyCode.filterMap_spansAfter {α : Type} {p : Program} {c : ClassDecl} {m : MethodDecl}
    {code : List Instr} (b : BodyCode p c m code) (start : List Instr) {f : Span → Option α}
    (hf : ∀ n x, f (Span.shift n x) = f x) : (b.spansAfter start).filterMap f = b.spans.filterMap f := by
  rw [spansAfter, List.filterMap_map]
  exact List.filterMap_congr fun x _ => by simp [hf]

end ClassCompiler
