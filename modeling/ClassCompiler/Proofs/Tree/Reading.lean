import ClassCompiler.Proofs.Text.Quoted
import ClassCompiler.Tree.Printer

namespace ClassCompiler

/-- Letters, digits and the underscore. An octet beyond ASCII belongs to a letter. -/
def isWordChar (c : Char) : Bool := c.isAlphanum || c = '_' || 0x80 ≤ c.toNat

def EndsWord (cs : List Char) : Prop := ∀ c ∈ cs.head?, isWordChar c = false

theorem EndsWord.cons {c : Char} (h : isWordChar c = false) (cs : List Char) : EndsWord (c :: cs) := by
  rintro d ⟨⟩
  exact h

def ownWords : List String := ["this", "null", "true", "false", "new", "not", "and", "or"]

/-- A word that begins with a letter. -/
structure IsName (s : String) : Prop where
  chars : ∀ c ∈ s.toList, isWordChar c = true
  letter : ∃ c ∈ s.toList.head?, c.isDigit = false
  free : s ∉ ownWords

/-- The word at the front of a text and what follows it. -/
def nextWord (cs : List Char) : List Char × List Char := (cs.takeWhile isWordChar, cs.dropWhile isWordChar)

theorem nextWord_append {w rest : List Char} (hw : ∀ c ∈ w, isWordChar c = true) (hrest : EndsWord rest) :
    nextWord (w ++ rest) = (w, rest) := by
  have hnone : rest.takeWhile isWordChar = [] ∧ rest.dropWhile isWordChar = rest := by
    cases rest with
    | nil => exact ⟨rfl, rfl⟩
    | cons c cs => simp [hrest c rfl]
  rw [nextWord, List.takeWhile_append_of_pos hw, List.dropWhile_append_of_pos hw, hnone.1, hnone.2, List.append_nil]

namespace Expr

def ofWord (w : List Char) : Expr :=
  if w = "this".toList then .this {}
  else if w = "null".toList then .null {}
  else if w = "true".toList then .bool {} true
  else if w = "false".toList then .bool {} false
  else if w.all Char.isDigit then .int {} (Nat.ofDigitChars 10 w 0)
  else .ident ⟨{}, String.ofList w⟩

end Expr

/-- The strength that an operator behind the right operand needs to become part of that operand. -/
def BinOp.rightStrength (op : BinOp) : Nat := if op.isRightAssoc then op.strength else op.strength + 1

/-- How an operand begins. -/
inductive Opening where
  | round | square | quote | new
  | sign (op : UnOp)
  | word (w : List Char)

def opening : List Char → Opening × List Char
  | '(' :: cs => (.round, cs)
  | '[' :: cs => (.square, cs)
  | '"' :: cs => (.quote, '"' :: cs)
  | '-' :: cs => (.sign .neg, cs)
  | '+' :: '+' :: cs => (.sign .preInc, cs)
  | 'n' :: 'o' :: 't' :: ' ' :: cs => (.sign .not, cs)
  | 'n' :: 'e' :: 'w' :: ' ' :: cs => (.new, cs)
  | cs => (.word (nextWord cs).1, (nextWord cs).2)

def infix? : List Char → Option (BinOp × List Char)
  | ' ' :: '=' :: ' ' :: cs => some (.assign, cs)
  | ' ' :: '+' :: ' ' :: cs => some (.add, cs)
  | ' ' :: '-' :: ' ' :: cs => some (.sub, cs)
  | ' ' :: '*' :: ' ' :: cs => some (.mul, cs)
  | ' ' :: '/' :: ' ' :: cs => some (.div, cs)
  | ' ' :: '%' :: ' ' :: cs => some (.mod, cs)
  | ' ' :: '<' :: ' ' :: cs => some (.lt, cs)
  | ' ' :: '>' :: ' ' :: cs => some (.gt, cs)
  | ' ' :: '=' :: '=' :: ' ' :: cs => some (.eq, cs)
  | ' ' :: '!' :: '=' :: ' ' :: cs => some (.ne, cs)
  | ' ' :: 'a' :: 'n' :: 'd' :: ' ' :: cs => some (.and, cs)
  | ' ' :: 'o' :: 'r' :: ' ' :: cs => some (.or, cs)
  | _ => none

theorem infix?_text (op : BinOp) (cs : List Char) : infix? (' ' :: op.text.toList ++ ' ' :: cs) = some (op, cs) := by
  cases op <;> rfl

/-- How an operand goes on. -/
inductive Following where
  | dot | square | round | nothing
  | sign (op : UnOp)
  | binary (op : BinOp)

/-- An operator with a space on both sides, if it binds at least as tightly as `level`. -/
def followingOperator (level : Nat) (cs : List Char) : Following × List Char :=
  match infix? cs with
  | some (op, rest) => if level ≤ op.strength then (.binary op, rest) else (.nothing, cs)
  | none => (.nothing, cs)

/-- How an operand goes on with operators that bind at least as tightly as `level`. -/
def following (level : Nat) : List Char → Following × List Char
  | '.' :: cs => (.dot, cs)
  | '[' :: cs => (.square, cs)
  | '(' :: cs => (.round, cs)
  | '+' :: '+' :: cs => (.sign .postInc, cs)
  | '-' :: '-' :: cs => (.sign .postDec, cs)
  | cs => followingOperator level cs

inductive Bracket where
  | round | square

def Bracket.close : Bracket → Char
  | .round => ')'
  | .square => ']'

/-- What is to be read. -/
inductive Part where
  /-- An operand and all operators behind it that bind at least as tightly as `level`. -/
  | operation (level : Nat)
  | operand
  /-- The operators behind the operand `x`. -/
  | more (level : Nat) (x : Expr)
  /-- Expressions with commas between them, and the bracket that closes them. -/
  | all (b : Bracket)

/-- A part of a text is read as expressions, and the rest of the text follows. -/
inductive Reads : Part → List Char → List Expr → List Char → Prop where
  | operation {level cs x mid y rest} (hx : Reads .operand cs [x] mid) (hy : Reads (.more level x) mid [y] rest) :
      Reads (.operation level) cs [y] rest
  | word {cs w rest} (h : opening cs = (.word w, rest)) (hw : w ≠ []) : Reads .operand cs [.ofWord w] rest
  | string {cs s rest} (h : opening cs = (.quote, (Text.quote s).toList ++ rest)) (hs : Octets.IsText s) :
      Reads .operand cs [.string {} s] rest
  | round {cs mid x rest} (h : opening cs = (.round, mid)) (hx : Reads (.operation 0) mid [x] (')' :: rest)) :
      Reads .operand cs [x] rest
  | sign {cs op mid x rest} (h : opening cs = (.sign op, mid)) (hx : Reads (.operation prefixStrength) mid [x] rest) :
      Reads .operand cs [.unary {} op x] rest
  | new {cs mid w args xs rest} (h : opening cs = (.new, mid)) (hw : nextWord mid = (w, '(' :: args))
      (hxs : Reads (.all .round) args xs rest) : Reads .operand cs [.new {} ⟨{}, String.ofList w⟩ xs] rest
  | square {cs mid xs rest} (h : opening cs = (.square, mid)) (hxs : Reads (.all .square) mid xs rest) :
      Reads .operand cs [.list {} xs] rest
  | nothing {level x cs rest} (h : following level cs = (.nothing, rest)) : Reads (.more level x) cs [x] rest
  | binary {level x cs op right y mid z rest} (h : following level cs = (.binary op, right))
      (hy : Reads (.operation op.rightStrength) right [y] mid)
      (hz : Reads (.more level (.binary {} op x y)) mid [z] rest) : Reads (.more level x) cs [z] rest
  | member {level x cs name w mid z rest} (h : following level cs = (.dot, name)) (hw : nextWord name = (w, mid))
      (hz : Reads (.more level (.member {} x ⟨{}, String.ofList w⟩)) mid [z] rest) : Reads (.more level x) cs [z] rest
  | index {level x cs inner i mid z rest} (h : following level cs = (.square, inner))
      (hi : Reads (.operation 0) inner [i] (']' :: mid)) (hz : Reads (.more level (.index {} x i)) mid [z] rest) :
      Reads (.more level x) cs [z] rest
  | call {level x cs inner as mid z rest} (h : following level cs = (.round, inner))
      (has : Reads (.all .round) inner as mid) (hz : Reads (.more level (.call {} x as)) mid [z] rest) :
      Reads (.more level x) cs [z] rest
  | changed {level x cs op mid z rest} (h : following level cs = (.sign op, mid))
      (hz : Reads (.more level (.unary {} op x)) mid [z] rest) : Reads (.more level x) cs [z] rest
  | none {b : Bracket} {rest} : Reads (.all b) (b.close :: rest) [] rest
  | one {b : Bracket} {cs x rest} (hx : Reads (.operation 0) cs [x] (b.close :: rest)) : Reads (.all b) cs [x] rest
  | cons {b cs x mid y ys rest} (hx : Reads (.operation 0) cs [x] (',' :: ' ' :: mid))
      (hxs : Reads (.all b) mid (y :: ys) rest) : Reads (.all b) cs (x :: y :: ys) rest

namespace Reads

theorem not_close {b : Bracket} {level : Nat} {cs rest : List Char} {xs : List Expr} :
    ¬ Reads (.operation level) (b.close :: cs) xs rest := by
  intro h
  have hopen : opening (b.close :: cs) = (.word [], b.close :: cs) := by cases b <;> rfl
  cases h with
  | operation hx =>
    cases hx with
    | word h hw =>
      cases hopen.symm.trans h
      exact hw rfl
    | _ => cases hopen.symm.trans ‹_›

theorem close_ne_comma {b : Bracket} {cs ds : List Char} : b.close :: cs ≠ ',' :: ds := by
  cases b <;> simp [Bracket.close]

theorem unique {part : Part} {cs r s : List Char} {xs ys : List Expr} (h : Reads part cs xs r) (h' : Reads part cs ys s) :
    xs = ys ∧ r = s := by
  induction h generalizing ys s with
  | operation hx hy ihx ihy =>
    cases h' with
    | operation hx' hy' =>
      obtain ⟨heq, rfl⟩ := ihx hx'
      cases heq
      exact ihy hy'
  -- What comes next decides which case the second reading is in.
  | word h hw =>
    cases h' with
    | word h' _ => cases h.symm.trans h'; exact ⟨rfl, rfl⟩
    | _ => cases h.symm.trans ‹_›
  | string h hs =>
    cases h' with
    | string h' hs' =>
      have heq := congrArg Prod.snd (h.symm.trans h')
      obtain ⟨rfl, rfl⟩ := Text.quote_append_inj hs hs' heq
      exact ⟨rfl, rfl⟩
    | _ => cases h.symm.trans ‹_›
  | round h hx ih =>
    cases h' with
    | round h' hx' =>
      cases h.symm.trans h'
      obtain ⟨heq, htail⟩ := ih hx'
      cases htail
      exact ⟨heq, rfl⟩
    | _ => cases h.symm.trans ‹_›
  | sign h hx ih =>
    cases h' with
    | sign h' hx' =>
      cases h.symm.trans h'
      obtain ⟨heq, rfl⟩ := ih hx'
      cases heq
      exact ⟨rfl, rfl⟩
    | _ => cases h.symm.trans ‹_›
  | new h hw hxs ih =>
    cases h' with
    | new h' hw' hxs' =>
      cases h.symm.trans h'
      cases hw.symm.trans hw'
      obtain ⟨rfl, rfl⟩ := ih hxs'
      exact ⟨rfl, rfl⟩
    | _ => cases h.symm.trans ‹_›
  | square h hxs ih =>
    cases h' with
    | square h' hxs' =>
      cases h.symm.trans h'
      obtain ⟨rfl, rfl⟩ := ih hxs'
      exact ⟨rfl, rfl⟩
    | _ => cases h.symm.trans ‹_›
  | nothing h =>
    cases h' with
    | nothing h' => cases h.symm.trans h'; exact ⟨rfl, rfl⟩
    | _ => cases h.symm.trans ‹_›
  | binary h hy hz ihy ihz =>
    cases h' with
    | binary h' hy' hz' =>
      cases h.symm.trans h'
      obtain ⟨heq, rfl⟩ := ihy hy'
      cases heq
      exact ihz hz'
    | _ => cases h.symm.trans ‹_›
  | member h hw hz ih =>
    cases h' with
    | member h' hw' hz' =>
      cases h.symm.trans h'
      cases hw.symm.trans hw'
      exact ih hz'
    | _ => cases h.symm.trans ‹_›
  | index h hi hz ihi ihz =>
    cases h' with
    | index h' hi' hz' =>
      cases h.symm.trans h'
      obtain ⟨heq, htail⟩ := ihi hi'
      cases heq
      cases htail
      exact ihz hz'
    | _ => cases h.symm.trans ‹_›
  | call h has hz ihas ihz =>
    cases h' with
    | call h' has' hz' =>
      cases h.symm.trans h'
      obtain ⟨rfl, rfl⟩ := ihas has'
      exact ihz hz'
    | _ => cases h.symm.trans ‹_›
  | changed h hz ih =>
    cases h' with
    | changed h' hz' =>
      cases h.symm.trans h'
      exact ih hz'
    | _ => cases h.symm.trans ‹_›
  | none =>
    cases h' with
    | none => exact ⟨rfl, rfl⟩
    | one hx' => exact absurd hx' not_close
    | cons hx' => exact absurd hx' not_close
  | one hx ih =>
    cases h' with
    | none => exact absurd hx not_close
    | one hx' =>
      obtain ⟨heq, htail⟩ := ih hx'
      cases htail
      exact ⟨heq, rfl⟩
    | cons hx' => exact absurd (ih hx').2 close_ne_comma
  | cons hx hxs ihx ihxs =>
    cases h' with
    | none => exact absurd hx not_close
    | one hx' => exact absurd (ihx hx').2.symm close_ne_comma
    | cons hx' hxs' =>
      obtain ⟨heq, htail⟩ := ihx hx'
      cases heq
      cases htail
      obtain ⟨heq, rfl⟩ := ihxs hxs'
      rw [heq]
      exact ⟨rfl, rfl⟩

end Reads

end ClassCompiler
