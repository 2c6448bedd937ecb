import ClassCompiler.Proofs.Tree.TypeText
import Mathlib.Tactic.IntervalCases

namespace ClassCompiler

namespace Numeral

theorem digits?_append (base n : Nat) (cs ds : List Char) :
    digits? base n (cs ++ ds) = (digits? base n cs).bind fun m => digits? base m ds := by
  induction cs generalizing n with
  | nil => rfl
  | cons c cs ih =>
    by_cases hc : c = '_'
    · subst hc
      exact ih n
    · rw [List.cons_append, digits?.eq_3 _ _ _ _ hc, digits?.eq_3 _ _ _ _ hc]
      cases digitValue? c with
      | none => rfl
      | some d =>
        dsimp only
        split
        · exact ih _
        · rfl

theorem digits?_digitChar (n : Nat) {d : Nat} (hd : d < 10) : digits? 10 n [d.digitChar] = some (n * 10 + d) := by
  interval_cases d <;> rfl

theorem toDigits_step {n : Nat} (h : 10 ≤ n) :
    Nat.toDigits 10 n = Nat.toDigits 10 (n / 10) ++ [(n % 10).digitChar] := by
  have hlast := Nat.mod_lt n (show 0 < 10 by decide)
  rw [← Nat.toDigits_of_lt_base hlast, Nat.toDigits_append_toDigits (by decide) (by omega) hlast, Nat.div_add_mod]

theorem digits?_toDigits (n : Nat) : digits? 10 0 (Nat.toDigits 10 n) = some n := by
  induction n using Nat.strongRecOn with
  | _ n ih =>
    by_cases hn : n < 10
    · rw [Nat.toDigits_of_lt_base hn, digits?_digitChar 0 hn, Nat.zero_mul, Nat.zero_add]
    · rw [toDigits_step (by omega), digits?_append, ih _ (by omega), Option.bind_some,
        digits?_digitChar _ (Nat.mod_lt n (by decide)), Nat.mul_comm, Nat.div_add_mod]

theorem head?_toDigits {n : Nat} (hn : 0 < n) : ∃ c ∈ (Nat.toDigits 10 n).head?, c ≠ '0' ∧ c.isDigit = true := by
  induction n using Nat.strongRecOn with
  | _ n ih =>
    by_cases hlt : n < 10
    · rw [Nat.toDigits_of_lt_base hlt]
      refine ⟨_, rfl, ?_⟩
      interval_cases n <;> decide
    · obtain ⟨c, hc, hcs⟩ := ih (n / 10) (by omega) (by omega)
      exact ⟨c, by rw [toDigits_step (by omega), List.head?_append, Option.mem_def.1 hc]; rfl, hcs⟩

theorem nat?_toDigits (n : Nat) : nat? (Nat.toDigits 10 n) = some n := by
  obtain rfl | hn := Nat.eq_zero_or_pos n
  · rfl
  obtain ⟨c, hc, hzero, -⟩ := head?_toDigits hn
  obtain ⟨cs, hcs⟩ := List.head?_eq_some_iff.1 (Option.mem_def.1 hc)
  have hsplit : splitBase (c :: cs) = (10, c :: cs) := splitBase.eq_3 _ (by simp [hzero]) (by simp [hzero])
  have hplain : (c :: cs).contains '_' = false := by
    rw [← hcs, ← Bool.not_eq_true, List.contains_iff_mem]
    intro hmem
    exact absurd (Nat.isDigit_of_mem_toDigits (by decide) (by decide) hmem) (by decide)
  have hread := digits?_toDigits n
  rw [hcs] at hread ⊢
  simp only [nat?, List.isEmpty_cons, hsplit, hread, hplain]
  rfl

theorem sign_toDigits (n : Nat) : (Nat.toDigits 10 n).head? ≠ some '-' ∧ dropSign (Nat.toDigits 10 n) = Nat.toDigits 10 n := by
  cases hcs : Nat.toDigits 10 n with
  | nil => exact ⟨by simp, rfl⟩
  | cons c cs =>
    have hdigit : c.isDigit = true := Nat.isDigit_of_mem_toDigits (b := 10) (n := n) (by decide) (by decide) (by simp [hcs])
    have hplus : c ≠ '+' := fun hc => absurd (hc ▸ hdigit) (by decide)
    have hminus : c ≠ '-' := fun hc => absurd (hc ▸ hdigit) (by decide)
    exact ⟨by simpa using hminus, dropSign.eq_3 _ (by simp [hplus]) (by simp [hminus])⟩

/-- A number of 32 bits is read from its decimal text. -/
theorem int?_toString {v : Int} (h : -2 ^ 31 ≤ v ∧ v < 2 ^ 31) : int? 32 (toString v).toList = some v := by
  change signed? 32 nat? v.repr.toList = some v
  have hbound : Nat.pow 2 (32 - 1) = 2 ^ 31 := rfl
  rw [Int.repr_eq_if]
  split
  · next hpos =>
    obtain ⟨n, rfl⟩ := Int.eq_ofNat_of_zero_le hpos
    have hlt : n < 2 ^ 31 := by omega
    obtain ⟨hsign, hdrop⟩ := sign_toDigits n
    rw [Int.toNat_natCast, Nat.toList_repr, signed?, hdrop, nat?_toDigits]
    simp only [hsign, hbound, hlt, if_false, if_true]
  · next hneg =>
    obtain ⟨n, hn⟩ := Int.eq_ofNat_of_zero_le (show 0 ≤ -v by omega)
    have hle : n ≤ 2147483648 := by omega
    rw [hn, Int.toNat_natCast, String.toList_append, Nat.toList_repr, signed?]
    have hdrop : dropSign ("-".toList ++ Nat.toDigits 10 n) = Nat.toDigits 10 n := rfl
    rw [hdrop, nat?_toDigits]
    simp [hle, ← hn]

end Numeral

def Ident.bare (id : Ident) : Ident := ⟨{}, id.name⟩

namespace Expr

mutual

def bare : Expr → Expr
  | .ident id => .ident id.bare
  | .binary _ op l r => .binary {} op l.bare r.bare
  | .unary _ op x => .unary {} op x.bare
  | .member _ x m => .member {} x.bare m.bare
  | .index _ x i => .index {} x.bare i.bare
  | .call _ f as => .call {} f.bare (bareAll as)
  | .new _ c as => .new {} c.bare (bareAll as)
  | .this _ => .this {}
  | .list _ es => .list {} (bareAll es)
  | .null _ => .null {}
  | .int _ v => .int {} v
  | .bool _ b => .bool {} b
  | .string _ s => .string {} s

def bareAll : List Expr → List Expr
  | [] => []
  | e :: es => e.bare :: bareAll es

end

end Expr

def Assign.bare (a : Assign) : Assign := ⟨{}, a.left.bare, a.right.bare⟩

namespace Stmt

mutual

def bare : Stmt → Stmt
  | .assign a => .assign a.bare
  | .block _ ss => .block {} (bareAll ss)
  | .cond _ c y n => .cond {} c.bare y.bare (bareElse n)
  | .call _ f as => .call {} f.bare (Expr.bareAll as)
  | .print _ x => .print {} x.bare
  | .ret _ v => .ret {} (v.map Expr.bare)
  | .for _ i c u b => .for {} (i.map Assign.bare) (c.map Expr.bare) (u.map Assign.bare) b.bare
  | .foreach _ v l b => .foreach {} v.bare l.bare b.bare
  | .break _ => .break {}
  | .continue _ => .continue {}

def bareAll : List Stmt → List Stmt
  | [] => []
  | s :: ss => s.bare :: bareAll ss

def bareElse : Option Stmt → Option Stmt
  | none => none
  | some s => some s.bare

end

end Stmt

def VarDecl.bare (v : VarDecl) : VarDecl := ⟨{}, v.name.bare, v.type⟩

def MethodDecl.bare (m : MethodDecl) : MethodDecl where
  token := {}
  name := m.name.bare
  args := m.args.map VarDecl.bare
  locals := m.locals.map VarDecl.bare
  returnType := m.returnType
  body := Stmt.bareAll m.body

def ClassDecl.bare (c : ClassDecl) : ClassDecl where
  token := {}
  name := c.name.bare
  parent := c.parent.map Ident.bare
  fields := c.fields.map VarDecl.bare
  constructor := c.constructor.map MethodDecl.bare
  methods := c.methods.map MethodDecl.bare

/-- A program with nothing left of where its parts stand. -/
def Program.bare (p : Program) : Program := { p with classes := p.classes.map ClassDecl.bare }

namespace Encoder

open Yaml (Node)

def scalar (tag text : String) : Node := { kind := .scalar, tag, text, line := 0, column := 0 }

def word (s : String) : Node := scalar "!!str" s

def quoted (s : String) : Node := { word s with style := .doubleQuoted }

def null : Node := scalar "!!null" "~"

def items (ns : List Node) : Node := { kind := .sequence, tag := "!!seq", line := 0, column := 0, children := ns }

def mapping (ns : List Node) : Node := { kind := .mapping, tag := "!!map", line := 0, column := 0, children := ns }

def entry (key : String) : Option Node → List Node
  | none => []
  | some v => [word key, v]

def form (key : String) (v : Node) : Node := mapping [word key, v]

end Encoder

open Encoder

def UnOp.key : UnOp → String
  | .not => "not"
  | .neg => "neg"
  | .preInc => "preinc"
  | .preDec => "predec"
  | .postInc => "postinc"
  | .postDec => "postdec"

namespace Expr

mutual

/-- Nulls are never scalars, which could be taken for a missing value. -/
def node : Expr → Yaml.Node
  | .ident id => word id.name
  | .binary _ op l r => form "bin" (items [word op.text, l.node, r.node])
  | .unary _ op x => form op.key x.node
  | .member _ x m => form "dot" (items [x.node, word m.name])
  | .index _ x i => form "idx" (items [x.node, i.node])
  | .call _ f as => form "call" (items (f.node :: nodes as))
  | .new _ c as => form "new" (items (word c.name :: nodes as))
  | .this _ => word "this"
  | .list _ es => form "list" (items (nodes es))
  | .null _ => form "null" Encoder.null
  | .int _ v => scalar "!!int" (toString v)
  | .bool _ b => scalar "!!bool" (toString b)
  | .string _ s => quoted s

def nodes : List Expr → List Yaml.Node
  | [] => []
  | e :: es => e.node :: nodes es

end

end Expr

def Assign.node (a : Assign) : Yaml.Node := items [a.left.node, a.right.node]

namespace Stmt

mutual

def node : Stmt → Yaml.Node
  | .assign a => form "assign" a.node
  | .block _ ss => form "block" (items (nodes ss))
  | .cond _ c y n => form "if" (mapping (word "cond" :: c.node :: word "then" :: y.node :: elseNodes n))
  | .call _ f as => form "call" (items (f.node :: Expr.nodes as))
  | .print _ x => form "print" x.node
  | .ret _ v => form "return" ((v.map Expr.node).getD Encoder.null)
  | .for _ i c u b => form "for" (mapping (entry "init" (i.map Assign.node) ++ (entry "cond" (c.map Expr.node) ++
      (entry "update" (u.map Assign.node) ++ [word "body", b.node]))))
  | .foreach _ v l b => form "foreach" (mapping [word "var", word v.name, word "in", l.node, word "body", b.node])
  | .break _ => form "break" Encoder.null
  | .continue _ => form "continue" Encoder.null

def nodes : List Stmt → List Yaml.Node
  | [] => []
  | s :: ss => s.node :: nodes ss

def elseNodes : Option Stmt → List Yaml.Node
  | none => []
  | some s => [word "else", s.node]

end

end Stmt

def VarDecl.node (v : VarDecl) : Yaml.Node := form v.name.name (word v.type.text)

def VarDecl.nodes (vs : List VarDecl) : Yaml.Node := items (vs.map VarDecl.node)

def MethodDecl.node (m : MethodDecl) : Yaml.Node :=
  mapping (word "name" :: word m.name.name :: (entry "returns" (m.returnType.map fun t => word t.text) ++
    [word "args", VarDecl.nodes m.args, word "locals", VarDecl.nodes m.locals, word "body", items (Stmt.nodes m.body)]))

def ClassDecl.node (c : ClassDecl) : Yaml.Node :=
  mapping (word "class" :: word c.name.name :: (entry "extends" (c.parent.map fun p => word p.name) ++
    (word "fields" :: VarDecl.nodes c.fields :: (entry "constructor" (c.constructor.map MethodDecl.node) ++
      [word "methods", items (c.methods.map MethodDecl.node)]))))

def Program.node (p : Program) : Yaml.Node := form "classes" (items (p.classes.map ClassDecl.node))

namespace Expr

mutual

/-- The names are not empty, no identifier is called like the object itself, and numbers have 32 bits. -/
def Encodable : Expr → Prop
  | .ident id => id.name ≠ "" ∧ id.name ≠ "this"
  | .binary _ _ l r => l.Encodable ∧ r.Encodable
  | .unary _ _ x => x.Encodable
  | .member _ x m => x.Encodable ∧ m.name ≠ ""
  | .index _ x i => x.Encodable ∧ i.Encodable
  | .call _ f as => f.Encodable ∧ EncodableAll as
  | .new _ c as => c.name ≠ "" ∧ EncodableAll as
  | .list _ es => EncodableAll es
  | .int _ v => -2 ^ 31 ≤ v ∧ v < 2 ^ 31
  | .this _ | .null _ | .bool _ _ | .string _ _ => True

def EncodableAll : List Expr → Prop
  | [] => True
  | e :: es => e.Encodable ∧ EncodableAll es

end

end Expr

def Assign.Encodable (a : Assign) : Prop := a.left.Encodable ∧ a.right.Encodable

namespace Stmt

mutual

def Encodable : Stmt → Prop
  | .assign a => a.Encodable
  | .block _ ss => EncodableAll ss
  | .cond _ c y n => c.Encodable ∧ y.Encodable ∧ EncodableElse n
  | .call _ f as => f.Encodable ∧ Expr.EncodableAll as
  | .print _ x => x.Encodable
  | .ret _ v => ∀ x ∈ v, x.Encodable
  | .for _ i c u b => (∀ a ∈ i, a.Encodable) ∧ (∀ x ∈ c, x.Encodable) ∧ (∀ a ∈ u, a.Encodable) ∧ b.Encodable
  | .foreach _ v l b => v.name ≠ "" ∧ l.Encodable ∧ b.Encodable
  | .break _ | .continue _ => True

def EncodableAll : List Stmt → Prop
  | [] => True
  | s :: ss => s.Encodable ∧ EncodableAll ss

def EncodableElse : Option Stmt → Prop
  | none => True
  | some s => s.Encodable

end

end Stmt

def VarDecl.Encodable (v : VarDecl) : Prop := ∃ s, Ty.parse s = .ok v.type

/-- What is asked of methods and constructors alike. -/
structure MethodDecl.Encodable (m : MethodDecl) : Prop where
  name : m.name.name ≠ ""
  args : ∀ v ∈ m.args, v.Encodable
  locals : ∀ v ∈ m.locals, v.Encodable
  body : Stmt.EncodableAll m.body

structure ClassDecl.Encodable (c : ClassDecl) : Prop where
  name : c.name.name ≠ ""
  parent : ∀ p ∈ c.parent, p.name ≠ ""
  fields : ∀ v ∈ c.fields, v.Encodable
  constructor : ∀ m ∈ c.constructor, m.Encodable ∧ m.returnType = none
  methods : ∀ m ∈ c.methods, m.Encodable ∧ ∃ t s, m.returnType = some t ∧ Ty.parse s = .ok t

def Program.Encodable (p : Program) : Prop := ∀ c ∈ p.classes, c.Encodable

namespace Decoder

theorem expr_scalar {tag text : String} : expr (Encoder.scalar tag text) = scalar (Encoder.scalar tag text) := by
  rw [expr]
  rfl

theorem expr_unary {v : Yaml.Node} {x : Expr} (op : UnOp) (h : expr v = .ok x) :
    ∃ t, expr (form op.key v) = .ok (.unary t op x) := by
  rw [expr]
  cases op <;> exact ⟨_, by simp only [form, mapping, h]; rfl⟩

theorem expr_binary {l r : Yaml.Node} {x y : Expr} (op : BinOp) (hl : expr l = .ok x) (hr : expr r = .ok y) :
    ∃ t, expr (form "bin" (items [word op.text, l, r])) = .ok (.binary t op x y) := by
  rw [expr]
  cases op <;> exact ⟨_, by simp only [form, mapping, items, hl, hr]; rfl⟩

theorem name_word {s : String} (h : s ≠ "") (what : String) : name (word s) what = .ok (identAt (word s) s) := by
  simp [name, word, Encoder.scalar, h]

theorem expr_member {n : Yaml.Node} {x : Expr} {m : String} (hm : m ≠ "") (h : expr n = .ok x) :
    ∃ t, expr (form "dot" (items [n, word m])) = .ok (.member t x (identAt (word m) m)) := by
  have hname := name_word hm "member"
  rw [expr]
  exact ⟨_, by simp only [form, mapping, items, h, hname]; rfl⟩

theorem expr_index {n k : Yaml.Node} {x i : Expr} (hn : expr n = .ok x) (hk : expr k = .ok i) :
    ∃ t, expr (form "idx" (items [n, k])) = .ok (.index t x i) := by
  rw [expr]
  exact ⟨_, by simp only [form, mapping, items, hn, hk]; rfl⟩

theorem callParts_items {n : Yaml.Node} {ns : List Yaml.Node} {f : Expr} {as : List Expr} (hn : expr n = .ok f)
    (hns : exprs ns = .ok as) : callParts (items (n :: ns)) = .ok (f, as) := by
  rw [callParts]
  simp only [items, hn, hns]
  rfl

theorem expr_call {v : Yaml.Node} {f : Expr} {as : List Expr} (h : callParts v = .ok (f, as)) :
    ∃ t, expr (form "call" v) = .ok (.call t f as) := by
  rw [expr]
  exact ⟨_, by simp only [form, mapping, h]; rfl⟩

theorem expr_new {ns : List Yaml.Node} {c : String} {as : List Expr} (hc : c ≠ "") (h : exprs ns = .ok as) :
    ∃ t, expr (form "new" (items (word c :: ns))) = .ok (.new t (identAt (word c) c) as) := by
  have hname := name_word hc "class"
  rw [expr]
  exact ⟨_, by simp only [form, mapping, items, h, hname]; rfl⟩

theorem expr_list {ns : List Yaml.Node} {es : List Expr} (h : exprs ns = .ok es) :
    ∃ t, expr (form "list" (items ns)) = .ok (.list t es) := by
  rw [expr]
  exact ⟨_, by simp only [form, mapping, items, h]; rfl⟩

theorem expr_null : ∃ t, expr (form "null" Encoder.null) = .ok (.null t) := by
  rw [expr]
  exact ⟨_, rfl⟩

theorem expr_int {v : Int} (h : -2 ^ 31 ≤ v ∧ v < 2 ^ 31) :
    ∃ t, expr (Encoder.scalar "!!int" (toString v)) = .ok (.int t v) := by
  rw [expr_scalar, scalar]
  exact ⟨_, by simp only [Encoder.scalar, Numeral.int?_toString h]; rfl⟩

theorem expr_ident {n : String} (h : n ≠ "" ∧ n ≠ "this") : expr (word n) = .ok (.ident (identAt (word n) n)) := by
  rw [word, expr_scalar, scalar]
  simp [Encoder.scalar, h.1, h.2]

mutual

theorem expr_node (e : Expr) (h : e.Encodable) : ∃ x, expr e.node = .ok x ∧ x.bare = e.bare := by
  match e with
  | .ident id => exact ⟨_, expr_ident h, rfl⟩
  | .binary _ op l r =>
    obtain ⟨l', hl, hlb⟩ := expr_node l h.1
    obtain ⟨r', hr, hrb⟩ := expr_node r h.2
    obtain ⟨t, ht⟩ := expr_binary op hl hr
    exact ⟨_, ht, by simp only [Expr.bare, hlb, hrb]⟩
  | .unary _ op x =>
    obtain ⟨x', hx, hxb⟩ := expr_node x h
    obtain ⟨t, ht⟩ := expr_unary op hx
    exact ⟨_, ht, by simp only [Expr.bare, hxb]⟩
  | .member _ x m =>
    obtain ⟨x', hx, hxb⟩ := expr_node x h.1
    obtain ⟨t, ht⟩ := expr_member h.2 hx
    exact ⟨_, ht, by simp only [Expr.bare, hxb, identAt, Ident.bare]⟩
  | .index _ x i =>
    obtain ⟨x', hx, hxb⟩ := expr_node x h.1
    obtain ⟨i', hi, hib⟩ := expr_node i h.2
    obtain ⟨t, ht⟩ := expr_index hx hi
    exact ⟨_, ht, by simp only [Expr.bare, hxb, hib]⟩
  | .call _ f as =>
    obtain ⟨f', hf, hfb⟩ := expr_node f h.1
    obtain ⟨as', has, hasb⟩ := exprs_nodes as h.2
    obtain ⟨t, ht⟩ := expr_call (callParts_items hf has)
    exact ⟨_, ht, by simp only [Expr.bare, hfb, hasb]⟩
  | .new _ c as =>
    obtain ⟨as', has, hasb⟩ := exprs_nodes as h.2
    obtain ⟨t, ht⟩ := expr_new h.1 has
    exact ⟨_, ht, by simp only [Expr.bare, hasb, identAt, Ident.bare]⟩
  | .this _ => exact ⟨.this (wordAt (word "this") .this), by rw [Expr.node, word, expr_scalar]; rfl, rfl⟩
  | .list _ es =>
    obtain ⟨es', hes, hesb⟩ := exprs_nodes es h
    obtain ⟨t, ht⟩ := expr_list hes
    exact ⟨_, ht, by simp only [Expr.bare, hesb]⟩
  | .null _ =>
    obtain ⟨t, ht⟩ := expr_null
    exact ⟨_, ht, rfl⟩
  | .int _ v =>
    obtain ⟨t, ht⟩ := expr_int h
    exact ⟨_, ht, rfl⟩
  | .bool _ b =>
    rw [Expr.node, expr_scalar]
    cases b <;> exact ⟨_, rfl, rfl⟩
  | .string _ s =>
    rw [Expr.node, expr]
    exact ⟨_, rfl, rfl⟩

theorem exprs_nodes (es : List Expr) (h : Expr.EncodableAll es) :
    ∃ xs, exprs (Expr.nodes es) = .ok xs ∧ Expr.bareAll xs = Expr.bareAll es := by
  match es with
  | [] => exact ⟨[], by rw [Expr.nodes, exprs], rfl⟩
  | e :: es =>
    obtain ⟨x, hx, hxb⟩ := expr_node e h.1
    obtain ⟨xs, hxs, hxsb⟩ := exprs_nodes es h.2
    refine ⟨x :: xs, ?_, by simp only [Expr.bareAll, hxb, hxsb]⟩
    rw [Expr.nodes, exprs, hx, hxs]
    rfl

end

theorem assignment_node {a : Assign} (h : a.Encodable) (k : Yaml.Node) :
    ∃ b, assignment k a.node = .ok b ∧ b.bare = a.bare := by
  obtain ⟨l, hl, hlb⟩ := expr_node a.left h.1
  obtain ⟨r, hr, hrb⟩ := expr_node a.right h.2
  refine ⟨⟨wordAt k (.binary .assign), l, r⟩, ?_, by simp only [Assign.bare, hlb, hrb]⟩
  simp only [assignment, Assign.node, items, hl, hr]
  rfl

theorem isNull_node (e : Expr) : e.node.isNull = false := by
  cases e <;> rfl

theorem stmtList_items {ns : List Yaml.Node} : stmtList (items ns) = stmts ns := by
  rw [stmtList]
  rfl

/-- The document of a statement is none of a block's list. -/
theorem body_node (s : Stmt) : body s.node = stmt s.node := by
  rw [body]
  cases s <;> rfl

theorem stmt_assign {v : Yaml.Node} {a : Assign} (h : ∀ k, ∃ b, assignment k v = .ok b ∧ b.bare = a.bare) :
    ∃ b, stmt (form "assign" v) = .ok (.assign b) ∧ b.bare = a.bare := by
  obtain ⟨b, hb, hbare⟩ := h (word "assign")
  rw [stmt]
  exact ⟨b, by simp only [form, mapping, hb]; rfl, hbare⟩

theorem stmt_block {ns : List Yaml.Node} {ss : List Stmt} (h : stmts ns = .ok ss) :
    ∃ t, stmt (form "block" (items ns)) = .ok (.block t ss) := by
  have hlist : stmtList (items ns) = stmts ns := stmtList_items
  rw [stmt]
  exact ⟨_, by simp only [form, mapping, hlist, h]; rfl⟩

theorem stmt_call {v : Yaml.Node} {f : Expr} {as : List Expr} (h : callParts v = .ok (f, as)) :
    ∃ t, stmt (form "call" v) = .ok (.call t f as) := by
  rw [stmt]
  exact ⟨_, by simp only [form, mapping, h]; rfl⟩

theorem stmt_print {v : Yaml.Node} {x : Expr} (h : expr v = .ok x) : ∃ t, stmt (form "print" v) = .ok (.print t x) := by
  rw [stmt]
  exact ⟨_, by simp only [form, mapping, h]; rfl⟩

theorem stmt_ret {v : Option Expr} (h : ∀ x ∈ v, x.Encodable) :
    ∃ t w, stmt (form "return" ((v.map Expr.node).getD Encoder.null)) = .ok (.ret t w) ∧
      w.map Expr.bare = v.map Expr.bare := by
  rw [stmt]
  cases v with
  | none => exact ⟨_, none, rfl, rfl⟩
  | some x =>
    obtain ⟨y, hy, hbare⟩ := expr_node x (h x rfl)
    have hnull := isNull_node x
    exact ⟨_, some y, by simp only [Option.map_some, Option.getD_some, form, mapping, hy, hnull]; rfl, by simp [hbare]⟩

theorem stmt_cond {ns : List Yaml.Node} {c : Expr} {y : Stmt} {n : Option Stmt} (h : condParts ns {} = .ok ⟨c, y, n⟩) :
    ∃ t, stmt (form "if" (mapping ns)) = .ok (.cond t c y n) := by
  rw [stmt]
  exact ⟨_, by simp only [form, mapping, h]; rfl⟩

theorem stmt_for {ns : List Yaml.Node} {i u : Option Assign} {c : Option Expr} {b : Stmt}
    (h : forParts ns {} = .ok ⟨i, c, u, b⟩) : ∃ t, stmt (form "for" (mapping ns)) = .ok (.for t i c u b) := by
  rw [stmt]
  exact ⟨_, by simp only [form, mapping, h]; rfl⟩

theorem stmt_foreach {ns : List Yaml.Node} {v : Ident} {l : Expr} {b : Stmt}
    (h : foreachParts ns {} = .ok ⟨v, l, b⟩) : ∃ t, stmt (form "foreach" (mapping ns)) = .ok (.foreach t v l b) := by
  rw [stmt]
  exact ⟨_, by simp only [form, mapping, h]; rfl⟩

theorem condParts_test {v : Yaml.Node} {x : Expr} (h : expr v = .ok x) (rest : List Yaml.Node) (p : CondParts) :
    condParts (word "cond" :: v :: rest) p = condParts rest { p with test := some x } := by
  rw [condParts]
  simp only [h]
  rfl

theorem condParts_yes {v : Yaml.Node} {s : Stmt} (h : body v = .ok s) (rest : List Yaml.Node) (p : CondParts) :
    condParts (word "then" :: v :: rest) p = condParts rest { p with yes := some s } := by
  rw [condParts]
  simp only [h]
  rfl

theorem condParts_no {v : Yaml.Node} {s : Stmt} (h : body v = .ok s) (rest : List Yaml.Node) (p : CondParts) :
    condParts (word "else" :: v :: rest) p = condParts rest { p with no := some s } := by
  rw [condParts]
  simp only [h]
  rfl

theorem condParts_nil (p : CondParts) : condParts [] p = .ok p := by simp [condParts]

theorem forParts_nil (p : ForParts) : forParts [] p = .ok p := by simp [forParts]

theorem foreachParts_nil (p : ForeachParts) : foreachParts [] p = .ok p := by simp [foreachParts]

theorem forParts_init {i : Option Assign} (h : ∀ a ∈ i, a.Encodable) (rest : List Yaml.Node) {p : ForParts}
    (hp : p.init = none) : ∃ j, forParts (entry "init" (i.map Assign.node) ++ rest) p = forParts rest { p with init := j } ∧
      j.map Assign.bare = i.map Assign.bare := by
  cases i with
  | none =>
    obtain ⟨i, c, u, b⟩ := p
    cases hp
    exact ⟨none, rfl, rfl⟩
  | some a =>
    obtain ⟨b, hb, hbare⟩ := assignment_node (h a rfl) (word "init")
    refine ⟨some b, ?_, by simp [hbare]⟩
    rw [Option.map_some, entry, List.cons_append, List.cons_append, List.nil_append, forParts]
    simp only [hb]
    rfl

theorem forParts_test {c : Option Expr} (h : ∀ x ∈ c, x.Encodable) (rest : List Yaml.Node) {p : ForParts}
    (hp : p.test = none) : ∃ d, forParts (entry "cond" (c.map Expr.node) ++ rest) p = forParts rest { p with test := d } ∧
      d.map Expr.bare = c.map Expr.bare := by
  cases c with
  | none =>
    obtain ⟨i, c, u, b⟩ := p
    cases hp
    exact ⟨none, rfl, rfl⟩
  | some x =>
    obtain ⟨y, hy, hbare⟩ := expr_node x (h x rfl)
    refine ⟨some y, ?_, by simp [hbare]⟩
    rw [Option.map_some, entry, List.cons_append, List.cons_append, List.nil_append, forParts]
    simp only [hy]
    rfl

theorem forParts_update {u : Option Assign} (h : ∀ a ∈ u, a.Encodable) (rest : List Yaml.Node) {p : ForParts}
    (hp : p.update = none) :
    ∃ j, forParts (entry "update" (u.map Assign.node) ++ rest) p = forParts rest { p with update := j } ∧
      j.map Assign.bare = u.map Assign.bare := by
  cases u with
  | none =>
    obtain ⟨i, c, u, b⟩ := p
    cases hp
    exact ⟨none, rfl, rfl⟩
  | some a =>
    obtain ⟨b, hb, hbare⟩ := assignment_node (h a rfl) (word "update")
    refine ⟨some b, ?_, by simp [hbare]⟩
    rw [Option.map_some, entry, List.cons_append, List.cons_append, List.nil_append, forParts]
    simp only [hb]
    rfl

theorem forParts_body {v : Yaml.Node} {s : Stmt} (h : body v = .ok s) (p : ForParts) :
    forParts [word "body", v] p = .ok { p with body := some s } := by
  rw [forParts]
  simp only [h]
  exact forParts_nil _

theorem foreachParts_entries {n w : Yaml.Node} {v : String} {l : Expr} {b : Stmt} (hv : v ≠ "") (hl : expr n = .ok l)
    (hb : body w = .ok b) :
    foreachParts [word "var", word v, word "in", n, word "body", w] {} = .ok ⟨identAt (word v) v, l, b⟩ := by
  have hname := name_word hv "loop variable"
  have hbody : foreachParts [word "body", w] ⟨identAt (word v) v, l, none⟩ = .ok ⟨identAt (word v) v, l, b⟩ := by
    rw [foreachParts]
    simp only [hb]
    exact foreachParts_nil _
  have hlist : foreachParts [word "in", n, word "body", w] ⟨identAt (word v) v, none, none⟩ =
      .ok ⟨identAt (word v) v, l, b⟩ := by
    rw [foreachParts]
    simp only [hl]
    exact hbody
  rw [foreachParts]
  simp only [hname]
  exact hlist

mutual

theorem stmt_node (s : Stmt) (h : s.Encodable) : ∃ x, stmt s.node = .ok x ∧ x.bare = s.bare := by
  match s with
  | .assign a =>
    obtain ⟨b, hb, hbare⟩ := stmt_assign (assignment_node h)
    exact ⟨_, hb, by simp only [Stmt.bare, hbare]⟩
  | .block _ ss =>
    obtain ⟨xs, hxs, hbare⟩ := stmts_nodes ss h
    obtain ⟨t, ht⟩ := stmt_block hxs
    exact ⟨_, ht, by simp only [Stmt.bare, hbare]⟩
  | .cond _ c y n =>
    obtain ⟨c', hc, hcb⟩ := expr_node c h.1
    obtain ⟨y', hy, hyb⟩ := stmt_node y h.2.1
    obtain ⟨n', hn, hnb⟩ := condParts_else n h.2.2 ⟨some c', some y', none⟩ rfl
    have hparts : condParts (word "cond" :: c.node :: word "then" :: y.node :: Stmt.elseNodes n) {} = .ok ⟨c', y', n'⟩ := by
      rw [condParts_test hc, condParts_yes ((body_node y).trans hy), hn]
    obtain ⟨t, ht⟩ := stmt_cond hparts
    exact ⟨_, ht, by simp only [Stmt.bare, hcb, hyb, hnb]⟩
  | .call _ f as =>
    obtain ⟨f', hf, hfb⟩ := expr_node f h.1
    obtain ⟨as', has, hasb⟩ := exprs_nodes as h.2
    obtain ⟨t, ht⟩ := stmt_call (callParts_items hf has)
    exact ⟨_, ht, by simp only [Stmt.bare, hfb, hasb]⟩
  | .print _ x =>
    obtain ⟨x', hx, hxb⟩ := expr_node x h
    obtain ⟨t, ht⟩ := stmt_print hx
    exact ⟨_, ht, by simp only [Stmt.bare, hxb]⟩
  | .ret _ v =>
    obtain ⟨t, w, ht, hw⟩ := stmt_ret h
    exact ⟨_, ht, by simp only [Stmt.bare, hw]⟩
  | .for _ i c u b =>
    obtain ⟨b', hb, hbb⟩ := stmt_node b h.2.2.2
    obtain ⟨i', hi, hib⟩ := forParts_init h.1 (entry "cond" (c.map Expr.node) ++
      (entry "update" (u.map Assign.node) ++ [word "body", b.node])) (p := {}) rfl
    obtain ⟨c', hc, hcb⟩ := forParts_test h.2.1 (entry "update" (u.map Assign.node) ++ [word "body", b.node])
      (p := { init := i' }) rfl
    obtain ⟨u', hu, hub⟩ := forParts_update h.2.2.1 [word "body", b.node] (p := { init := i', test := c' }) rfl
    obtain ⟨t, ht⟩ := stmt_for (hi.trans (hc.trans (hu.trans (forParts_body ((body_node b).trans hb) _))))
    exact ⟨_, ht, by simp only [Stmt.bare, hib, hcb, hub, hbb]⟩
  | .foreach _ v l b =>
    obtain ⟨l', hl, hlb⟩ := expr_node l h.2.1
    obtain ⟨b', hb, hbb⟩ := stmt_node b h.2.2
    obtain ⟨t, ht⟩ := stmt_foreach (foreachParts_entries h.1 hl ((body_node b).trans hb))
    exact ⟨_, ht, by simp only [Stmt.bare, hlb, hbb, identAt, Ident.bare]⟩
  | .break _ =>
    rw [Stmt.node, stmt]
    exact ⟨_, rfl, rfl⟩
  | .continue _ =>
    rw [Stmt.node, stmt]
    exact ⟨_, rfl, rfl⟩

theorem stmts_nodes (ss : List Stmt) (h : Stmt.EncodableAll ss) :
    ∃ xs, stmts (Stmt.nodes ss) = .ok xs ∧ Stmt.bareAll xs = Stmt.bareAll ss := by
  match ss with
  | [] => exact ⟨[], by rw [Stmt.nodes, stmts], rfl⟩
  | s :: ss =>
    obtain ⟨x, hx, hxb⟩ := stmt_node s h.1
    obtain ⟨xs, hxs, hxsb⟩ := stmts_nodes ss h.2
    refine ⟨x :: xs, ?_, by simp only [Stmt.bareAll, hxb, hxsb]⟩
    rw [Stmt.nodes, stmts, hx, hxs]
    rfl

theorem condParts_else (n : Option Stmt) (h : Stmt.EncodableElse n) (p : CondParts) (hp : p.no = none) :
    ∃ m, condParts (Stmt.elseNodes n) p = .ok { p with no := m } ∧ Stmt.bareElse m = Stmt.bareElse n := by
  match n with
  | none => exact ⟨none, by rw [Stmt.elseNodes, condParts_nil, ← hp], rfl⟩
  | some s =>
    obtain ⟨x, hx, hxb⟩ := stmt_node s h
    refine ⟨some x, ?_, by simp only [Stmt.bareElse, hxb]⟩
    rw [Stmt.elseNodes, condParts_no ((body_node s).trans hx), condParts_nil]

end

theorem mapM_bare {α β : Type} {node : α → Yaml.Node} {read : Yaml.Node → Result α} {bare : α → β} {as : List α}
    (h : ∀ a ∈ as, ∃ b, read (node a) = .ok b ∧ bare b = bare a) :
    ∃ bs, (as.map node).mapM read = .ok bs ∧ bs.map bare = as.map bare := by
  induction as with
  | nil => exact ⟨[], rfl, rfl⟩
  | cons a as ih =>
    obtain ⟨b, hb, hbare⟩ := h a List.mem_cons_self
    obtain ⟨bs, hbs, hbares⟩ := ih fun a' ha' => h a' (List.mem_cons_of_mem _ ha')
    refine ⟨b :: bs, ?_, by rw [List.map_cons, List.map_cons, hbare, hbares]⟩
    rw [List.map_cons, List.mapM_cons, hb, hbs]
    rfl

/-- A type that was read from some text is read again from its own. -/
theorem type_word {s : String} {t : Ty} (h : Ty.parse s = .ok t) : type (word t.text) = .ok t := by
  have hread := Ty.parse_text (Ty.parse_written h)
  simp only [type, word, Encoder.scalar, hread]
  rfl

theorem var_node {v : VarDecl} (kind : TokenKind) (h : v.Encodable) : ∃ w, var kind v.node = .ok w ∧ w.bare = v.bare := by
  obtain ⟨s, hs⟩ := h
  refine ⟨⟨tokenAt (word v.name.name) kind v.name.name, identAt (word v.name.name) v.name.name, v.type⟩, ?_, rfl⟩
  simp only [var, VarDecl.node, form, mapping, type_word hs]
  rfl

theorem vars_nodes {vs : List VarDecl} (kind : TokenKind) (h : ∀ v ∈ vs, v.Encodable) :
    ∃ ws, vars kind (VarDecl.nodes vs) = .ok ws ∧ ws.map VarDecl.bare = vs.map VarDecl.bare :=
  mapM_bare fun v hv => var_node kind (h v hv)

/-- The parameters, the locals and the body of a method or constructor. -/
theorem methodParts_rest {m : MethodDecl} (h : m.Encodable) (isConstructor : Bool) (p : MethodParts) :
    ∃ as ls ss, methodParts isConstructor [word "args", VarDecl.nodes m.args, word "locals", VarDecl.nodes m.locals,
        word "body", items (Stmt.nodes m.body)] p = .ok { p with args := as, locals := ls, body := ss } ∧
      as.map VarDecl.bare = m.args.map VarDecl.bare ∧ ls.map VarDecl.bare = m.locals.map VarDecl.bare ∧
      Stmt.bareAll ss = Stmt.bareAll m.body := by
  obtain ⟨as, has, hasb⟩ := vars_nodes .var h.args
  obtain ⟨ls, hls, hlsb⟩ := vars_nodes .var h.locals
  obtain ⟨ss, hss, hssb⟩ := stmts_nodes m.body h.body
  refine ⟨as, ls, ss, ?_, hasb, hlsb, hssb⟩
  simp only [methodParts, word, Encoder.scalar, has, hls, stmtList_items, hss]
  rfl

theorem methodParts_name {n : String} (h : n ≠ "") (isConstructor : Bool) (rest : List Yaml.Node) (p : MethodParts) :
    methodParts isConstructor (word "name" :: word n :: rest) p =
      methodParts isConstructor rest { p with name := some (identAt (word n) n) } := by
  have hname := name_word h "method"
  rw [methodParts]
  simp only [hname]
  rfl

theorem methodParts_returns {t : Ty} {s : String} (h : Ty.parse s = .ok t) (rest : List Yaml.Node) (p : MethodParts) :
    methodParts false (entry "returns" (some (word t.text)) ++ rest) p =
      methodParts false rest { p with returnType := some t } := by
  have htype := type_word h
  rw [entry, List.cons_append, List.cons_append, List.nil_append, methodParts]
  simp only [htype]
  rfl

theorem method_node {m : MethodDecl} (h : m.Encodable) {t : Ty} {s : String} (ht : m.returnType = some t)
    (hs : Ty.parse s = .ok t) : ∃ n, method m.node = .ok n ∧ n.bare = m.bare := by
  obtain ⟨as, ls, ss, hrest, has, hls, hss⟩ := methodParts_rest h false
    { name := some (identAt (word m.name.name) m.name.name), returnType := some t }
  have hparts : methodParts false m.node.children { returnType := some .void } =
      .ok ⟨some (identAt (word m.name.name) m.name.name), as, ls, some t, ss⟩ := by
    rw [MethodDecl.node, ht]
    exact ((methodParts_name h.name false _ _).trans (methodParts_returns hs _ _)).trans hrest
  refine ⟨⟨tokenAt m.node .method m.name.name, identAt (word m.name.name) m.name.name, as, ls, some t, ss⟩, ?_,
    by simp only [MethodDecl.bare, has, hls, hss, ht, identAt, Ident.bare]⟩
  rw [method, show entries m.node = .ok m.node.children from rfl]
  simp only [bind, Except.bind, hparts]
  rfl

theorem constructor_node {m : MethodDecl} (h : m.Encodable) (ht : m.returnType = none) :
    ∃ x n, constructor m.node = .ok (some x, n) ∧ n.bare = m.bare := by
  obtain ⟨as, ls, ss, hrest, has, hls, hss⟩ := methodParts_rest h true
    { name := some (identAt (word m.name.name) m.name.name) }
  have hparts : methodParts true m.node.children {} =
      .ok ⟨some (identAt (word m.name.name) m.name.name), as, ls, none, ss⟩ := by
    rw [MethodDecl.node, ht]
    exact (methodParts_name h.name true _ _).trans hrest
  refine ⟨identAt (word m.name.name) m.name.name,
    ⟨tokenAt m.node .constructor m.name.name, identAt (word m.name.name) m.name.name, as, ls, none, ss⟩, ?_,
    by simp only [MethodDecl.bare, has, hls, hss, ht, identAt, Ident.bare]⟩
  rw [constructor, show entries m.node = .ok m.node.children from rfl]
  simp only [bind, Except.bind, hparts]
  rfl

theorem classParts_name {n : String} (h : n ≠ "") (rest : List Yaml.Node) (p : ClassParts) :
    classParts (word "class" :: word n :: rest) p = classParts rest { p with name := some (identAt (word n) n) } := by
  have hname := name_word h "class"
  rw [classParts]
  simp only [hname]
  rfl

theorem classParts_parent {parent : Option Ident} (h : ∀ p ∈ parent, p.name ≠ "") (rest : List Yaml.Node)
    {p : ClassParts} (hp : p.parent = none) :
    ∃ q, classParts (entry "extends" (parent.map fun p => word p.name) ++ rest) p =
        classParts rest { p with parent := q } ∧ q.map Ident.bare = parent.map Ident.bare := by
  cases parent with
  | none =>
    obtain ⟨n, q, fs, c, ms⟩ := p
    cases hp
    exact ⟨none, rfl, rfl⟩
  | some id =>
    have hname := name_word (h id rfl) "parent"
    refine ⟨some (identAt (word id.name) id.name), ?_, rfl⟩
    rw [Option.map_some, entry, List.cons_append, List.cons_append, List.nil_append, classParts]
    simp only [hname]
    rfl

theorem classParts_fields {vs : List VarDecl} (h : ∀ v ∈ vs, v.Encodable) (rest : List Yaml.Node) (p : ClassParts) :
    ∃ ws, classParts (word "fields" :: VarDecl.nodes vs :: rest) p = classParts rest { p with fields := p.fields ++ ws } ∧
      ws.map VarDecl.bare = vs.map VarDecl.bare := by
  obtain ⟨ws, hws, hbare⟩ := vars_nodes .field h
  refine ⟨ws, ?_, hbare⟩
  rw [classParts]
  simp only [hws]
  rfl

theorem classParts_constructor {ctor : Option MethodDecl} (h : ∀ m ∈ ctor, m.Encodable ∧ m.returnType = none)
    (rest : List Yaml.Node) {p : ClassParts} (hp : p.constructor = none) :
    ∃ r : Option (Ident × MethodDecl), classParts (entry "constructor" (ctor.map MethodDecl.node) ++ rest) p =
        classParts rest { p with constructor := r.map fun x => (some x.1, x.2) } ∧
      r.map (fun x => x.2.bare) = ctor.map MethodDecl.bare := by
  cases ctor with
  | none =>
    obtain ⟨n, q, fs, c, ms⟩ := p
    cases hp
    exact ⟨none, rfl, rfl⟩
  | some m =>
    obtain ⟨x, n, hn, hbare⟩ := constructor_node (h m rfl).1 (h m rfl).2
    refine ⟨some (x, n), ?_, by rw [Option.map_some, Option.map_some, hbare]⟩
    rw [Option.map_some, entry, List.cons_append, List.cons_append, List.nil_append, classParts]
    simp only [hn]
    rfl

theorem classParts_methods {ms : List MethodDecl}
    (h : ∀ m ∈ ms, m.Encodable ∧ ∃ t s, m.returnType = some t ∧ Ty.parse s = .ok t) (p : ClassParts) :
    ∃ ns, classParts [word "methods", items (ms.map MethodDecl.node)] p = .ok { p with methods := p.methods ++ ns } ∧
      ns.map MethodDecl.bare = ms.map MethodDecl.bare := by
  have hnodes : ∀ m ∈ ms, ∃ n, method m.node = .ok n ∧ n.bare = m.bare := by
    intro m hm
    obtain ⟨henc, t, s, ht, hs⟩ := h m hm
    exact method_node henc ht hs
  obtain ⟨ns, hns, hbare⟩ := mapM_bare hnodes
  refine ⟨ns, ?_, hbare⟩
  rw [classParts]
  simp only [items, hns]
  rfl

theorem classDecl_node {c : ClassDecl} (h : c.Encodable) : ∃ d, classDecl c.node = .ok d ∧ d.bare = c.bare := by
  let id := identAt (word c.name.name) c.name.name
  obtain ⟨q, hq, hparent⟩ := classParts_parent h.parent (word "fields" :: VarDecl.nodes c.fields ::
    (entry "constructor" (c.constructor.map MethodDecl.node) ++ [word "methods", items (c.methods.map MethodDecl.node)]))
    (p := { name := some id }) rfl
  obtain ⟨fs, hfs, hfields⟩ := classParts_fields h.fields
    (entry "constructor" (c.constructor.map MethodDecl.node) ++ [word "methods", items (c.methods.map MethodDecl.node)])
    { name := some id, parent := q }
  obtain ⟨r, hr, hctor⟩ := classParts_constructor h.constructor [word "methods", items (c.methods.map MethodDecl.node)]
    (p := { name := some id, parent := q, fields := fs }) rfl
  obtain ⟨ms, hms, hmethods⟩ := classParts_methods h.methods
    { name := some id, parent := q, fields := fs, constructor := r.map fun x => (some x.1, x.2) }
  have hparts : classParts c.node.children {} = .ok ⟨some id, q, fs, r.map fun x => (some x.1, x.2), ms⟩ :=
    (classParts_name h.name _ {}).trans (hq.trans (hfs.trans (hr.trans hms)))
  refine ⟨⟨tokenAt c.node .classDecl c.name.name, id, q, fs, r.map Prod.snd, ms⟩, ?_, ?_⟩
  · rw [classDecl, show entries c.node = .ok c.node.children from rfl]
    simp only [bind, Except.bind, hparts]
    cases r <;> rfl
  · simp only [ClassDecl.bare, hparent, hfields, hmethods, ← hctor, Option.map_map]
    rfl

end Decoder

/-- Documents can say every program: one whose names are not empty where they must not be, whose identifiers are none of
the words with a meaning of their own, whose numbers have 32 bits and whose types can be read from some text. What is read
back from its document is the program, apart from the tokens. -/
theorem program_documents (p : Program) (h : p.Encodable) :
    ∃ q, Program.ofNode p.file p.node = .ok q ∧ q.bare = p.bare := by
  have hnodes : ∀ c ∈ p.classes, ∃ d, Decoder.classDecl c.node = .ok d ∧ d.bare = c.bare :=
    fun c hc => Decoder.classDecl_node (h c hc)
  obtain ⟨cs, hcs, hbare⟩ := Decoder.mapM_bare hnodes
  refine ⟨⟨p.file, cs ++ []⟩, ?_, by simp only [Program.bare, List.append_nil, hbare]⟩
  simp only [Program.ofNode, Program.node, form, mapping, items, word, Encoder.scalar, Decoder.classLists, hcs]
  rfl

/-- Names that look like literals, a null that is returned, an assignment that is an expression, a body of one statement. -/
def Sample.lookalikes : Program :=
  let id (n : String) : Ident := ⟨{}, n⟩
  { file := "lookalikes.yaml"
    classes := [
      { token := {}
        name := id "null"
        parent := some (id "5")
        constructor := some {
          token := {}
          name := id "true"
          args := [⟨{}, id "", .list [("", .int), ("b", .cls "list")]⟩]
          body := [
            .foreach {} (id "this") (.list {} [.int {} (-7), .ident (id "~")]) (.break {}),
            .print {} (.binary {} .assign (.ident (id "12")) (.string {} "this"))] }
        methods := [
          { token := {}
            name := id "1.5"
            returnType := some .void
            body := [.cond {} (.bool {} true) (.ret {} (some (.null {}))) none, .ret {} none] }] }] }

theorem program_documents_lookalikes : Sample.lookalikes.Encodable ∧
    ∃ q, Program.ofNode "lookalikes.yaml" Sample.lookalikes.node = .ok q ∧ q.bare = Sample.lookalikes.bare := by
  have h : Sample.lookalikes.Encodable := by
    intro c hc
    obtain rfl := List.mem_singleton.1 hc
    refine ⟨by decide, by simp, by simp, ?_, ?_⟩
    · intro m hm
      obtain rfl := Option.mem_some_iff.1 hm
      refine ⟨⟨by decide, ?_, by simp, ?_⟩, rfl⟩
      · intro v hv
        obtain rfl := List.mem_singleton.1 hv
        exact ⟨"list(int, b: list)", by rfl⟩
      · simp [Stmt.EncodableAll, Stmt.Encodable, Expr.Encodable, Expr.EncodableAll]
    · intro m hm
      obtain rfl := List.mem_singleton.1 hm
      exact ⟨⟨by decide, by simp, by simp,
        by simp [Stmt.EncodableAll, Stmt.Encodable, Stmt.EncodableElse, Expr.Encodable]⟩, .void, "void", rfl, by rfl⟩
  exact ⟨h, program_documents Sample.lookalikes h⟩

end ClassCompiler
