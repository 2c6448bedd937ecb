import ClassCompiler.Proofs.Tree.Encoding
import ClassCompiler.Proofs.Tree.Reading

namespace ClassCompiler

namespace BinOp

theorem strength_eq_one_iff (op : BinOp) : op.strength = 1 ↔ op.isRightAssoc = true := by cases op <;> decide

theorem strength_bounds (op : BinOp) : 1 ≤ op.strength ∧ op.strength ≤ 7 := by cases op <;> decide

theorem strength_le_rightStrength (op : BinOp) : op.strength ≤ op.rightStrength := by
  unfold rightStrength
  split <;> omega

theorem rightStrength_le (op : BinOp) : op.rightStrength ≤ prefixStrength := by
  have hbounds := op.strength_bounds
  unfold rightStrength prefixStrength
  split <;> omega

/-- The strength from which on an operator needs no parentheses as an operand of an operator of strength `outer`. -/
def operandStrength (outer : Nat) (onRight : Bool) : Nat :=
  if outer = 1 then if onRight then 1 else 2 else if onRight then outer + 1 else outer

theorem operandStrength_right (op : BinOp) : operandStrength op.strength true = op.rightStrength := by
  cases op <;> rfl

theorem needsParens_eq_false_iff (op : BinOp) (outer : Nat) (onRight : Bool) :
    op.needsParens outer onRight = false ↔ operandStrength outer onRight ≤ op.strength := by
  have hone := op.strength_eq_one_iff
  have hpos := op.strength_bounds
  unfold needsParens operandStrength
  cases onRight <;> cases hassoc : op.isRightAssoc <;> simp only [hassoc] at hone <;> split <;> split <;>
    simp <;> simp at hone <;> omega

end BinOp

namespace Expr

/-- Names are words, numbers have no sign, and strings are octets. -/
def Plain : Expr → Prop
  | .ident id => IsName id.name
  | .member _ _ m => IsName m.name
  | .new _ c _ => IsName c.name
  | .int _ v => 0 ≤ v
  | .string _ s => Octets.IsText s
  | _ => True

mutual

/-- The expression that the text says: without tokens, and with two minus signs for a decrement in front of an operand. -/
def said : Expr → Expr
  | .ident id => .ident id.bare
  | .binary _ op l r => .binary {} op l.said r.said
  | .unary _ op x => if op = .preDec then .unary {} .neg (.unary {} .neg x.said) else .unary {} op x.said
  | .member _ x m => .member {} x.said m.bare
  | .index _ x i => .index {} x.said i.said
  | .call _ f as => .call {} f.said (saidAll as)
  | .new _ c as => .new {} c.bare (saidAll as)
  | .this _ => .this {}
  | .list _ es => .list {} (saidAll es)
  | .null _ => .null {}
  | .int _ v => .int {} v
  | .bool _ b => .bool {} b
  | .string _ s => .string {} s

def saidAll : List Expr → List Expr
  | [] => []
  | e :: es => e.said :: saidAll es

end

/-- The strength with which an operator behind the text of an expression would become part of it, if any could. -/
def openEnd (outer : Nat) (onRight : Bool) : Expr → Option Nat
  | .binary _ op _ _ => if op.needsParens outer onRight then none else some op.rightStrength
  | .unary _ op _ => if op.isPost || prefixStrength < outer then none else some prefixStrength
  | _ => none

end Expr

theorem isDigit_isWordChar {c : Char} (h : c.isDigit = true) : isWordChar c = true := by
  simp [isWordChar, Char.isAlphanum, h]

theorem IsName.toList_ne_nil {s : String} (h : IsName s) : s.toList ≠ [] := by
  obtain ⟨c, hc, -⟩ := h.letter
  intro hnil
  simp [hnil] at hc

theorem IsName.ne_ownWord {s v : String} (h : IsName s) (hv : v ∈ ownWords) : s.toList ≠ v.toList := fun heq =>
  h.free (String.toList_inj.1 heq ▸ hv)

theorem isDigit_of_mem_decimal {n : Nat} {c : Char} (h : c ∈ Nat.toDigits 10 n) : c.isDigit = true :=
  Nat.isDigit_of_mem_toDigits (by decide) (by decide) h

theorem decimal_ne {n : Nat} {w : List Char} (hw : ∃ c ∈ w, c.isDigit = false) : Nat.toDigits 10 n ≠ w := by
  obtain ⟨c, hc, hletter⟩ := hw
  rintro rfl
  simp [isDigit_of_mem_decimal hc] at hletter

theorem opening_word {w rest : List Char} (hne : w ≠ []) (hw : ∀ c ∈ w, isWordChar c = true) (hrest : EndsWord rest)
    (hnew : w ≠ "new".toList) (hnot : w ≠ "not".toList) : opening (w ++ rest) = (.word w, rest) := by
  have hnext := nextWord_append hw hrest
  obtain ⟨c, cs, rfl⟩ := List.exists_cons_of_ne_nil hne
  have hc := hw c List.mem_cons_self
  have hstart {d : Char} {ds : List Char} (heq : c :: cs ++ rest = d :: ds) : isWordChar d = true := by
    rwa [← (List.cons.inj heq).1]
  have hspace {v ds : List Char} (hv : ∀ c ∈ v, isWordChar c = true) (heq : c :: cs ++ rest = v ++ ' ' :: ds) : c :: cs = v := by
    rw [heq, nextWord_append hv (.cons rfl _)] at hnext
    exact (congrArg Prod.fst hnext).symm
  unfold opening
  split
  · next heq => exact absurd (hstart heq) (by decide)
  · next heq => exact absurd (hstart heq) (by decide)
  · next heq => exact absurd (hstart heq) (by decide)
  · next heq => exact absurd (hstart heq) (by decide)
  · next heq => exact absurd (hstart heq) (by decide)
  · next heq => exact absurd (hspace (v := "not".toList) (List.all_eq_true.mp rfl) heq) hnot
  · next heq => exact absurd (hspace (v := "new".toList) (List.all_eq_true.mp rfl) heq) hnew
  · rw [hnext]

theorem ofWord_name {n : String} (h : IsName n) : Expr.ofWord n.toList = .ident ⟨{}, n⟩ := by
  obtain ⟨c, hc, hletter⟩ := h.letter
  have hdigits : n.toList.all Char.isDigit = false := by
    rw [List.all_eq_false]
    exact ⟨c, List.mem_of_mem_head? hc, by simp [hletter]⟩
  unfold Expr.ofWord
  rw [if_neg (h.ne_ownWord (by decide)), if_neg (h.ne_ownWord (by decide)), if_neg (h.ne_ownWord (by decide)),
    if_neg (h.ne_ownWord (by decide)), hdigits, String.ofList_toList]
  rfl

theorem toList_toString_natCast (n : Nat) : (toString (n : Int)).toList = Nat.toDigits 10 n := Nat.toList_repr

theorem ofWord_decimal (n : Nat) : Expr.ofWord (Nat.toDigits 10 n) = .int {} n := by
  unfold Expr.ofWord
  rw [if_neg (decimal_ne ⟨'t', by decide, rfl⟩), if_neg (decimal_ne ⟨'n', by decide, rfl⟩),
    if_neg (decimal_ne ⟨'t', by decide, rfl⟩), if_neg (decimal_ne ⟨'f', by decide, rfl⟩),
    if_pos (List.all_eq_true.2 fun _ => isDigit_of_mem_decimal), Nat.ofDigitChars_ten_toDigits]

def Stops (level : Nat) (cs : List Char) : Prop := following level cs = (.nothing, cs)

theorem following_operator (level : Nat) (op : BinOp) (cs : List Char) :
    following level (' ' :: op.text.toList ++ ' ' :: cs) =
      if level ≤ op.strength then (.binary op, cs) else (.nothing, ' ' :: op.text.toList ++ ' ' :: cs) := by
  change followingOperator level (' ' :: op.text.toList ++ ' ' :: cs) = _
  rw [followingOperator, infix?_text]

theorem stops_operator {level : Nat} {op : BinOp} (h : op.strength < level) (cs : List Char) :
    Stops level (' ' :: op.text.toList ++ ' ' :: cs) :=
  (following_operator level op cs).trans (if_neg (Nat.not_le.2 h))

theorem Stops.mono {k level : Nat} {cs : List Char} (h : Stops k cs) (hle : k ≤ level) : Stops level cs := by
  unfold Stops following at h ⊢
  split at h
  case h_6 =>
    unfold followingOperator at h ⊢
    split at h
    · split at h
      · cases h
      · exact if_neg (by omega)
    · rfl
  all_goals cases h

namespace Expr

theorem openEnd_binary {t : Token} {op : BinOp} {l r : Expr} {outer k : Nat} {onRight : Bool}
    (h : (binary t op l r).openEnd outer onRight = some k) :
    BinOp.operandStrength outer onRight ≤ op.strength ∧ k = op.rightStrength := by
  simp only [openEnd] at h
  split at h
  · cases h
  · next hplain =>
    cases h
    exact ⟨(op.needsParens_eq_false_iff outer onRight).1 (Bool.eq_false_of_not_eq_true hplain), rfl⟩

theorem openEnd_unary {t : Token} {op : UnOp} {x : Expr} {outer k : Nat} {onRight : Bool}
    (h : (unary t op x).openEnd outer onRight = some k) : outer ≤ prefixStrength ∧ k = prefixStrength := by
  simp only [openEnd] at h
  split at h
  · cases h
  · next hplain =>
    cases h
    simp only [Bool.or_eq_true, decide_eq_true_eq, not_or, Nat.not_lt] at hplain
    exact ⟨hplain.2, rfl⟩

/-- Nothing becomes part of what other operators stand directly behind. -/
theorem openEnd_receiver (e : Expr) (k : Nat) : e.openEnd postfixStrength false ≠ some k := by
  intro h
  cases e with
  | binary _ op =>
    have hle := (openEnd_binary h).1
    have hbounds := op.strength_bounds
    have hnine : BinOp.operandStrength postfixStrength false = 9 := rfl
    omega
  | unary => exact absurd (openEnd_unary h).1 (by decide)
  | _ => cases h

theorem lt_of_openEnd_left {e : Expr} {op : BinOp} {k : Nat} (h : e.openEnd op.strength false = some k) :
    op.strength < k := by
  have hbounds := op.strength_bounds
  cases e with
  | binary _ op' =>
    obtain ⟨hle, rfl⟩ := openEnd_binary h
    have hone := op'.strength_eq_one_iff
    have hbounds' := op'.strength_bounds
    unfold BinOp.operandStrength at hle
    unfold BinOp.rightStrength
    cases hassoc : op'.isRightAssoc <;> simp [hassoc] at hone hle ⊢ <;> split at hle <;> omega
  | unary _ op' =>
    obtain ⟨-, rfl⟩ := openEnd_unary h
    exact Nat.lt_succ_of_le hbounds.2
  | _ => cases h

theorem le_of_openEnd_right {e : Expr} {op : BinOp} {k : Nat} (h : e.openEnd op.strength true = some k) :
    op.rightStrength ≤ k := by
  cases e with
  | binary _ op' =>
    obtain ⟨hle, rfl⟩ := openEnd_binary h
    rw [BinOp.operandStrength_right] at hle
    exact hle.trans op'.strength_le_rightStrength
  | unary _ op' =>
    obtain ⟨-, rfl⟩ := openEnd_unary h
    exact op.rightStrength_le
  | _ => cases h

/-- What may stand behind the text of an expression without becoming part of it. -/
structure Follows (e : Expr) (outer : Nat) (onRight : Bool) (rest : List Char) : Prop where
  word : EndsWord rest
  stops : ∀ k, e.openEnd outer onRight = some k → Stops k rest

/-- Operators directly behind an operand are no part of it. -/
theorem Follows.receiver {e : Expr} {rest : List Char} (h : EndsWord rest) : e.Follows postfixStrength false rest :=
  ⟨h, fun k hk => absurd hk (e.openEnd_receiver k)⟩

/-- The text of the expression, wherever it stands, is read as the expression; then come the operators behind it. -/
def ReadsBack (e : Expr) : Prop :=
  ∀ ⦃outer : Nat⦄ ⦃onRight : Bool⦄ ⦃level : Nat⦄ ⦃rest : List Char⦄ ⦃z : Expr⦄ ⦃out : List Char⦄,
    level ≤ BinOp.operandStrength outer onRight → level ≤ postfixStrength → e.Follows outer onRight rest →
    Reads (.more level e.said) rest [z] out → Reads (.operation level) (e.charsIn outer onRight ++ rest) [z] out

/-- The text of expressions in brackets is read as the expressions. -/
def AllReadBack (es : List Expr) : Prop :=
  ∀ (b : Bracket) (rest : List Char), Reads (.all b) (charsOfAll es ++ b.close :: rest) (saidAll es) rest

def IsEnd (c : Char) : Prop := c = ')' ∨ c = ']' ∨ c = ','

theorem IsEnd.stops {c : Char} (h : IsEnd c) (level : Nat) (rest : List Char) : Stops level (c :: rest) := by
  obtain rfl | rfl | rfl := h <;> rfl

theorem IsEnd.endsWord {c : Char} (h : IsEnd c) (rest : List Char) : EndsWord (c :: rest) := by
  obtain rfl | rfl | rfl := h <;> exact .cons rfl rest

theorem IsEnd.follows {c : Char} (h : IsEnd c) {e : Expr} {outer : Nat} {onRight : Bool} (rest : List Char) :
    e.Follows outer onRight (c :: rest) :=
  ⟨h.endsWord rest, fun k _ => h.stops k rest⟩

theorem isEnd_close (b : Bracket) : IsEnd b.close := by
  cases b
  · exact .inl rfl
  · exact .inr (.inl rfl)

/-- An expression by itself, up to a bracket or a comma. -/
theorem ReadsBack.upTo {e : Expr} (h : e.ReadsBack) {c : Char} (hc : IsEnd c) (rest : List Char) :
    Reads (.operation 0) (e.charsIn 0 false ++ c :: rest) [e.said] (c :: rest) :=
  h (Nat.zero_le _) (Nat.zero_le _) (hc.follows rest) (.nothing (hc.stops 0 rest))

theorem reads_inParens {needed : Bool} {cs rest out : List Char} {x z : Expr} {level : Nat}
    (hplain : needed = false → Reads (.operation level) (cs ++ rest) [z] out)
    (hinner : Reads (.operation 0) (cs ++ ')' :: rest) [x] (')' :: rest)) (ht : Reads (.more level x) rest [z] out) :
    Reads (.operation level) (inParens needed cs ++ rest) [z] out := by
  cases needed with
  | false => exact hplain rfl
  | true =>
    rw [inParens, if_pos rfl, List.append_assoc, List.cons_append, List.singleton_append]
    exact .operation (.round rfl hinner) ht

theorem readsBack_binary (t : Token) (op : BinOp) {l r : Expr} (hl : l.ReadsBack) (hr : r.ReadsBack) :
    (binary t op l r).ReadsBack := by
  intro outer onRight level rest z out hlevel _ hrest ht
  have hbounds := op.strength_bounds
  have hleft : op.strength ≤ BinOp.operandStrength op.strength false := by
    unfold BinOp.operandStrength
    split <;> simp_all
  -- The operands without parentheses around them, and any operators behind them that are no part of the right one.
  have hbare {level : Nat} {rest : List Char} {z : Expr} {out : List Char} (hlevel : level ≤ op.strength)
      (hword : EndsWord rest) (hstop : Stops op.rightStrength rest)
      (ht : Reads (.more level (binary {} op l.said r.said)) rest [z] out) :
      Reads (.operation level)
        (l.charsIn op.strength false ++ ' ' :: op.text.toList ++ ' ' :: r.charsIn op.strength true ++ rest) [z] out := by
    have hright : Reads (.operation op.rightStrength) (r.charsIn op.strength true ++ rest) [r.said] rest :=
      hr (op.operandStrength_right).ge (op.rightStrength_le.trans (by decide))
        ⟨hword, fun k hk => hstop.mono (le_of_openEnd_right hk)⟩ (.nothing hstop)
    rw [List.append_assoc, List.append_assoc, List.cons_append]
    exact hl (hlevel.trans hleft) (hlevel.trans (hbounds.2.trans (by decide)))
      ⟨.cons rfl _, fun k hk => stops_operator (lt_of_openEnd_left hk) _⟩
      (.binary ((following_operator level op _).trans (if_pos hlevel)) hright ht)
  have hend : IsEnd ')' := .inl rfl
  change Reads (.operation level) (inParens (op.needsParens outer onRight) _ ++ rest) [z] out
  refine reads_inParens (fun hneeded => ?_) ?_ ht
  · have hle := (op.needsParens_eq_false_iff outer onRight).1 hneeded
    exact hbare (hlevel.trans hle) hrest.word (hrest.stops _ (by simp [openEnd, hneeded])) ht
  · exact hbare (Nat.zero_le _) (hend.endsWord rest) (hend.stops _ rest) (.nothing (hend.stops 0 rest))

theorem readsBack_postfix (t : Token) {op : UnOp} (hpost : op.isPost = true)
    (hsign : ∀ level rest, following level (op.sign ++ rest) = (.sign op, rest)) (hword : ∀ rest, EndsWord (op.sign ++ rest))
    {x : Expr} (hx : x.ReadsBack) (hsaid : (unary t op x).said = unary {} op x.said) : (unary t op x).ReadsBack := by
  intro outer onRight level rest z out _ hmax hrest ht
  have htext : (unary t op x).charsIn outer onRight = x.charsIn postfixStrength false ++ op.sign := if_pos hpost
  rw [htext, List.append_assoc]
  rw [hsaid] at ht
  exact hx hmax hmax (.receiver (hword rest)) (.changed (hsign level rest) ht)

/-- A sign in front takes in its operand with all that stands directly behind that. -/
theorem readsBack_prefix (t : Token) {op : UnOp} (hpost : op.isPost = false) {x : Expr} (hx : x.ReadsBack)
    (hsign : ∀ mid rest, Reads (.operation prefixStrength) mid [x.said] rest → Stops prefixStrength rest →
      Reads .operand (op.sign ++ mid) [(unary t op x).said] rest) : (unary t op x).ReadsBack := by
  intro outer onRight level rest z out _ _ hrest ht
  have hbare {level : Nat} {rest : List Char} {z : Expr} {out : List Char} (hword : EndsWord rest)
      (hstop : Stops prefixStrength rest) (ht : Reads (.more level (unary t op x).said) rest [z] out) :
      Reads (.operation level) (op.sign ++ x.charsIn prefixStrength false ++ rest) [z] out := by
    have hoperand : Reads (.operation prefixStrength) (x.charsIn prefixStrength false ++ rest) [x.said] rest := by
      refine hx (Nat.le_refl _) (by decide) ⟨hword, fun k hk => ?_⟩ (.nothing hstop)
      cases x with
      | binary _ op' =>
        have hle := (openEnd_binary hk).1
        have hbounds := op'.strength_bounds
        have height : BinOp.operandStrength prefixStrength false = 8 := rfl
        omega
      | unary => exact (openEnd_unary hk).2 ▸ hstop
      | _ => cases hk
    rw [List.append_assoc]
    exact .operation (hsign _ _ hoperand hstop) ht
  have hend : IsEnd ')' := .inl rfl
  have htext : (unary t op x).charsIn outer onRight =
      inParens (prefixStrength < outer) (op.sign ++ x.charsIn prefixStrength false) := if_neg (Bool.eq_false_iff.1 hpost)
  rw [htext]
  refine reads_inParens (fun hneeded => ?_) ?_ ht
  · exact hbare hrest.word (hrest.stops _ (by simpa [openEnd, hpost] using hneeded)) ht
  · exact hbare (hend.endsWord rest) (hend.stops _ rest) (.nothing (hend.stops 0 rest))

theorem readsBack_unary (t : Token) (op : UnOp) {x : Expr} (hx : x.ReadsBack) : (unary t op x).ReadsBack := by
  cases op with
  | postInc => exact readsBack_postfix t rfl (fun _ _ => rfl) (by exact fun _ => .cons rfl _) hx rfl
  | postDec => exact readsBack_postfix t rfl (fun _ _ => rfl) (by exact fun _ => .cons rfl _) hx rfl
  | preDec =>
    exact readsBack_prefix t rfl hx fun _ _ hmid hstop => .sign rfl (.operation (.sign rfl hmid) (.nothing hstop))
  | not => exact readsBack_prefix t rfl hx fun _ _ hmid _ => .sign rfl hmid
  | neg => exact readsBack_prefix t rfl hx fun _ _ hmid _ => .sign rfl hmid
  | preInc => exact readsBack_prefix t rfl hx fun _ _ hmid _ => .sign rfl hmid

theorem readsBack_member (t : Token) {m : Ident} (hm : IsName m.name) {x : Expr} (hx : x.ReadsBack) :
    (member t x m).ReadsBack := by
  intro outer onRight level rest z out _ hmax hrest ht
  change Reads _ (x.charsIn postfixStrength false ++ '.' :: m.name.toList ++ rest) _ _
  rw [List.append_assoc, List.cons_append]
  refine hx hmax hmax (.receiver (.cons rfl _))
    (.member rfl (nextWord_append hm.chars hrest.word) ?_)
  rw [String.ofList_toList]
  exact ht

theorem readsBack_index (t : Token) {x i : Expr} (hx : x.ReadsBack) (hi : i.ReadsBack) : (index t x i).ReadsBack := by
  intro outer onRight level rest z out _ hmax hrest ht
  change Reads _ (x.charsIn postfixStrength false ++ '[' :: i.charsIn 0 false ++ [']'] ++ rest) _ _
  rw [List.append_assoc, List.append_assoc, List.cons_append]
  exact hx hmax hmax (.receiver (.cons rfl _))
    (.index rfl (hi.upTo (.inr (.inl rfl)) rest) ht)

theorem readsBack_call (t : Token) {f : Expr} {as : List Expr} (hf : f.ReadsBack) (has : AllReadBack as) :
    (call t f as).ReadsBack := by
  intro outer onRight level rest z out _ hmax hrest ht
  change Reads _ (f.charsIn postfixStrength false ++ '(' :: charsOfAll as ++ [')'] ++ rest) _ _
  rw [List.append_assoc, List.append_assoc, List.cons_append]
  exact hf hmax hmax (.receiver (.cons rfl _))
    (.call rfl (has .round rest) ht)

theorem readsBack_new (t : Token) {c : Ident} (hc : IsName c.name) {as : List Expr} (has : AllReadBack as) :
    (new t c as).ReadsBack := by
  intro outer onRight level rest z out _ _ _ ht
  have hword : nextWord (c.name.toList ++ '(' :: (charsOfAll as ++ ')' :: rest)) = (c.name.toList, _) :=
    nextWord_append hc.chars (.cons rfl _)
  change Reads _ ("new ".toList ++ c.name.toList ++ '(' :: charsOfAll as ++ [')'] ++ rest) _ _
  rw [List.append_assoc, List.append_assoc, List.append_assoc, List.cons_append]
  refine .operation (.new rfl hword (has .round rest)) ?_
  rw [String.ofList_toList]
  exact ht

theorem readsBack_list (t : Token) {es : List Expr} (hes : AllReadBack es) : (list t es).ReadsBack := by
  intro outer onRight level rest z out _ _ _ ht
  change Reads _ ('[' :: charsOfAll es ++ [']'] ++ rest) _ _
  rw [List.append_assoc, List.cons_append]
  exact .operation (.square rfl (hes .square rest)) ht

theorem readsBack_word (e : Expr) (w : List Char) (hchars : ∀ outer onRight, e.charsIn outer onRight = w) (hne : w ≠ [])
    (hw : ∀ c ∈ w, isWordChar c = true) (hnew : w ≠ "new".toList) (hnot : w ≠ "not".toList) (hsaid : ofWord w = e.said) :
    e.ReadsBack := by
  intro outer onRight level rest z out _ _ hrest ht
  rw [hchars]
  exact .operation (hsaid ▸ .word (opening_word hne hw hrest.word hnew hnot) hne) ht

theorem readsBack_constant {e : Expr} (w : String) (hw : w ∈ ["this", "null", "true", "false"])
    (hchars : ∀ outer onRight, e.charsIn outer onRight = w.toList) (hsaid : ofWord w.toList = e.said) : e.ReadsBack := by
  have hword : w.toList ≠ [] ∧ w.toList.all isWordChar = true ∧ w.toList ≠ "new".toList ∧ w.toList ≠ "not".toList := by
    clear hchars hsaid
    revert w
    decide
  exact readsBack_word e w.toList hchars hword.1 (List.all_eq_true.1 hword.2.1) hword.2.2.1 hword.2.2.2 hsaid

theorem readsBack_string (t : Token) {v : String} (hv : Octets.IsText v) : (string t v).ReadsBack := by
  intro outer onRight level rest z out _ _ _ ht
  have hopen : opening ((Text.quote v).toList ++ rest) = (.quote, (Text.quote v).toList ++ rest) := by
    rw [Text.toList_quote]
    rfl
  exact .operation (.string hopen hv) ht

theorem readsBack_int (t : Token) {v : Int} (hv : 0 ≤ v) : (int t v).ReadsBack := by
  obtain ⟨n, rfl⟩ := Int.eq_ofNat_of_zero_le hv
  exact readsBack_word _ _ (fun _ _ => toList_toString_natCast n) Nat.toDigits_ne_nil
    (fun c hc => isDigit_isWordChar (isDigit_of_mem_decimal hc)) (decimal_ne ⟨'n', by decide, rfl⟩)
    (decimal_ne ⟨'n', by decide, rfl⟩) (ofWord_decimal n)

theorem readsBack_ident {id : Ident} (h : IsName id.name) : (ident id).ReadsBack :=
  readsBack_word (.ident id) _ (fun _ _ => rfl) h.toList_ne_nil h.chars (h.ne_ownWord (by decide))
    (h.ne_ownWord (by decide)) (ofWord_name h)

mutual

theorem readsBack (e : Expr) (h : ∀ x ∈ e.subterms, x.Plain) : e.ReadsBack := by
  match e with
  | .ident id => exact readsBack_ident (h (.ident id) (by simp [subterms]))
  | .binary t op l r =>
    simp only [subterms, List.cons_append, List.mem_cons, List.mem_append, forall_eq_or_imp] at h
    exact readsBack_binary t op (readsBack l fun x hx => h.2 x (.inl hx)) (readsBack r fun x hx => h.2 x (.inr hx))
  | .unary t op x =>
    simp only [subterms, List.mem_cons, forall_eq_or_imp] at h
    exact readsBack_unary t op (readsBack x h.2)
  | .member t x m =>
    simp only [subterms, List.mem_cons, forall_eq_or_imp] at h
    exact readsBack_member t h.1 (readsBack x h.2)
  | .index t x i =>
    simp only [subterms, List.cons_append, List.mem_cons, List.mem_append, forall_eq_or_imp] at h
    exact readsBack_index t (readsBack x fun y hy => h.2 y (.inl hy)) (readsBack i fun y hy => h.2 y (.inr hy))
  | .call t f as =>
    simp only [subterms, List.cons_append, List.mem_cons, List.mem_append, forall_eq_or_imp] at h
    exact readsBack_call t (readsBack f fun x hx => h.2 x (.inl hx)) (allReadBack as fun x hx => h.2 x (.inr hx))
  | .new t c as =>
    simp only [subterms, List.mem_cons, forall_eq_or_imp] at h
    exact readsBack_new t h.1 (allReadBack as h.2)
  | .list t es =>
    simp only [subterms, List.mem_cons, forall_eq_or_imp] at h
    exact readsBack_list t (allReadBack es h.2)
  | .this _ => exact readsBack_constant "this" (by decide) (fun _ _ => rfl) rfl
  | .null _ => exact readsBack_constant "null" (by decide) (fun _ _ => rfl) rfl
  | .bool _ true => exact readsBack_constant "true" (by decide) (fun _ _ => rfl) rfl
  | .bool _ false => exact readsBack_constant "false" (by decide) (fun _ _ => rfl) rfl
  | .int t v => exact readsBack_int t (h (.int t v) (by simp [subterms]))
  | .string t v => exact readsBack_string t (h (.string t v) (by simp [subterms]))

theorem allReadBack (es : List Expr) (h : ∀ x ∈ subtermsOfAll es, x.Plain) : AllReadBack es := by
  intro b rest
  match es with
  | [] => exact .none
  | [e] =>
    have he := readsBack e fun x hx => h x (by simp [subtermsOfAll, hx])
    exact .one (he.upTo (isEnd_close b) rest)
  | e :: e' :: es =>
    have he := readsBack e fun x hx => h x (by simp [subtermsOfAll, hx])
    have hes := allReadBack (e' :: es) (fun x hx => h x (List.mem_append_right _ hx)) b rest
    change Reads _ (e.charsIn 0 false ++ ',' :: ' ' :: charsOfAll (e' :: es) ++ b.close :: rest) _ _
    rw [List.append_assoc, List.cons_append, List.cons_append]
    exact .cons (he.upTo (.inr (.inr rfl)) _) hes

end

theorem reads_text {e : Expr} (h : ∀ x ∈ e.subterms, x.Plain) : Reads (.operation 0) e.text.toList [e.said] [] := by
  have hrest : e.Follows 0 false [] := ⟨by rintro d ⟨⟩, fun _ _ => rfl⟩
  have hread := readsBack e h (Nat.zero_le _) (Nat.zero_le _) hrest (.nothing rfl)
  rwa [List.append_nil, ← String.toList_ofList (l := e.charsIn 0 false)] at hread

mutual

theorem charsIn_said (e : Expr) (outer : Nat) (onRight : Bool) : e.said.charsIn outer onRight = e.charsIn outer onRight := by
  match e with
  | .ident _ | .this _ | .null _ | .int _ _ | .bool _ _ | .string _ _ => rfl
  | .binary _ op l r =>
    exact congrArg₂ (fun a b => inParens (op.needsParens outer onRight) (a ++ ' ' :: op.text.toList ++ ' ' :: b))
      (charsIn_said l _ _) (charsIn_said r _ _)
  | .unary _ op x =>
    have hprefix := congrArg (fun a => inParens (prefixStrength < outer) (op.sign ++ a)) (charsIn_said x prefixStrength false)
    have hpostfix := congrArg (fun a => a ++ op.sign) (charsIn_said x postfixStrength false)
    cases op <;> first | exact hprefix | exact hpostfix
  | .member _ x m => exact congrArg (fun a => a ++ '.' :: m.name.toList) (charsIn_said x _ _)
  | .index _ x i => exact congrArg₂ (fun a b => a ++ '[' :: b ++ [']']) (charsIn_said x _ _) (charsIn_said i _ _)
  | .call _ f as => exact congrArg₂ (fun a b => a ++ '(' :: b ++ [')']) (charsIn_said f _ _) (charsOfAll_said as)
  | .new _ c as => exact congrArg (fun a => "new ".toList ++ c.name.toList ++ '(' :: a ++ [')']) (charsOfAll_said as)
  | .list _ es => exact congrArg (fun a => '[' :: a ++ [']']) (charsOfAll_said es)

theorem charsOfAll_said (es : List Expr) : charsOfAll (saidAll es) = charsOfAll es := by
  match es with
  | [] => rfl
  | [e] => exact charsIn_said e 0 false
  | e :: e' :: es => exact congrArg₂ (fun a b => a ++ ',' :: ' ' :: b) (charsIn_said e 0 false) (charsOfAll_said (e' :: es))

end

theorem text_eq_iff {e e' : Expr} (he : ∀ x ∈ e.subterms, x.Plain) (he' : ∀ x ∈ e'.subterms, x.Plain) :
    e.text = e'.text ↔ e.said = e'.said := by
  constructor
  · intro h
    have hread := reads_text he
    rw [h] at hread
    exact (List.cons.inj (hread.unique (reads_text he')).1).1
  · intro h
    rw [text, text, ← charsIn_said e, h, charsIn_said e']

/-- An operand that begins with a minus sign of its own. -/
def IsMinus : Expr → Prop
  | .unary _ op _ => op = .neg ∨ op = .preDec
  | _ => False

def NegatesMinus : Expr → Prop
  | .unary _ .neg x => x.IsMinus
  | _ => False

mutual

/-- Minus signs taken together in pairs, from the left. -/
def paired : Expr → Expr
  | .unary _ .neg (.unary _ .neg x) => .unary {} .preDec x.paired
  | .ident id => .ident id
  | .binary t op l r => .binary t op l.paired r.paired
  | .unary t op x => .unary t op x.paired
  | .member t x m => .member t x.paired m
  | .index t x i => .index t x.paired i.paired
  | .call t f as => .call t f.paired (pairedAll as)
  | .new t c as => .new t c (pairedAll as)
  | .this t => .this t
  | .list t es => .list t (pairedAll es)
  | .null t => .null t
  | .int t v => .int t v
  | .bool t b => .bool t b
  | .string t s => .string t s

def pairedAll : List Expr → List Expr
  | [] => []
  | e :: es => e.paired :: pairedAll es

end

theorem paired_neg_said {x : Expr} (h : ¬ x.IsMinus) : (unary {} .neg x.said).paired = unary {} .neg x.said.paired := by
  cases x with
  | unary _ op _ =>
    cases op with
    | neg => exact absurd (.inl rfl) h
    | preDec => exact absurd (.inr rfl) h
    | _ => rfl
  | _ => rfl

mutual

theorem paired_said (e : Expr) (h : ∀ x ∈ e.subterms, ¬ x.NegatesMinus) : e.said.paired = e.bare := by
  match e with
  | .ident _ | .this _ | .null _ | .int _ _ | .bool _ _ | .string _ _ => rfl
  | .binary _ op l r =>
    simp only [subterms, List.cons_append, List.mem_cons, List.mem_append, forall_eq_or_imp] at h
    exact congrArg₂ (binary {} op) (paired_said l fun x hx => h.2 x (.inl hx)) (paired_said r fun x hx => h.2 x (.inr hx))
  | .unary _ op x =>
    simp only [subterms, List.mem_cons, forall_eq_or_imp] at h
    have hx := congrArg (unary {} op) (paired_said x h.2)
    cases op with
    | neg => exact (paired_neg_said h.1).trans hx
    | _ => exact hx
  | .member _ x m =>
    simp only [subterms, List.mem_cons, forall_eq_or_imp] at h
    exact congrArg (member {} · m.bare) (paired_said x h.2)
  | .index _ x i =>
    simp only [subterms, List.cons_append, List.mem_cons, List.mem_append, forall_eq_or_imp] at h
    exact congrArg₂ (index {}) (paired_said x fun y hy => h.2 y (.inl hy)) (paired_said i fun y hy => h.2 y (.inr hy))
  | .call _ f as =>
    simp only [subterms, List.cons_append, List.mem_cons, List.mem_append, forall_eq_or_imp] at h
    exact congrArg₂ (call {}) (paired_said f fun x hx => h.2 x (.inl hx)) (pairedAll_said as fun x hx => h.2 x (.inr hx))
  | .new _ c as =>
    simp only [subterms, List.mem_cons, forall_eq_or_imp] at h
    exact congrArg (new {} c.bare) (pairedAll_said as h.2)
  | .list _ es =>
    simp only [subterms, List.mem_cons, forall_eq_or_imp] at h
    exact congrArg (list {}) (pairedAll_said es h.2)

theorem pairedAll_said (es : List Expr) (h : ∀ x ∈ subtermsOfAll es, ¬ x.NegatesMinus) :
    pairedAll (saidAll es) = bareAll es := by
  match es with
  | [] => rfl
  | e :: es =>
    exact congrArg₂ List.cons (paired_said e fun x hx => h x (List.mem_append_left _ hx))
      (pairedAll_said es fun x hx => h x (List.mem_append_right _ hx))

end

/-- Two expressions have one text exactly if they are equal up to tokens once every decrement in front of an operand is
taken for two minus signs; without a minus sign directly in front of another one they are equal up to tokens. -/
theorem printed_unambiguous {e e' : Expr} (he : ∀ x ∈ e.subterms, x.Plain) (he' : ∀ x ∈ e'.subterms, x.Plain) :
    (e.text = e'.text ↔ e.said = e'.said) ∧
      ((∀ x ∈ e.subterms, ¬ x.NegatesMinus) → (∀ x ∈ e'.subterms, ¬ x.NegatesMinus) → e.text = e'.text →
        e.bare = e'.bare) := by
  have hiff := text_eq_iff he he'
  refine ⟨hiff, fun hapart hapart' htext => ?_⟩
  calc e.bare = e.said.paired := (paired_said e hapart).symm
    _ = e'.said.paired := congrArg paired (hiff.1 htext)
    _ = e'.bare := paired_said e' hapart'

theorem isName_x : IsName "x" := ⟨List.all_eq_true.1 rfl, ⟨'x', by decide, rfl⟩, by decide⟩

def variableX : Expr := .ident ⟨{}, "x"⟩

def negatedTwice : Expr := .unary {} .neg (.unary {} .neg variableX)

def decremented : Expr := .unary {} .preDec variableX

/-- Two minus signs in front of a variable are also the text of its decrement. -/
theorem double_minus_ambiguous : (∀ x ∈ negatedTwice.subterms, x.Plain) ∧ (∀ x ∈ decremented.subterms, x.Plain) ∧
    negatedTwice.text = decremented.text ∧ negatedTwice.bare ≠ decremented.bare := by
  refine ⟨?_, ?_, rfl, ?_⟩
  · simp [negatedTwice, variableX, subterms, Plain, isName_x]
  · simp [decremented, variableX, subterms, Plain, isName_x]
  · simp [negatedTwice, decremented, bare]

def nestedRight : Expr :=
  .binary {} .sub variableX (.index {} (.call {} (.member {} (.binary {} .sub variableX
    (.unary {} .neg (.unary {} .postDec variableX))) ⟨{}, "x"⟩) [.unary {} .not variableX, .string {} "\""]) (.int {} 0))

def nestedLeft : Expr :=
  .index {} (.call {} (.member {} (.binary {} .sub (.binary {} .sub variableX variableX)
    (.unary {} .neg (.unary {} .postDec variableX))) ⟨{}, "x"⟩) [.unary {} .not variableX, .string {} "\""]) (.int {} 0)

theorem printed_unambiguous_nested : (∀ x ∈ nestedRight.subterms, x.Plain ∧ ¬ x.NegatesMinus) ∧
    (∀ x ∈ nestedLeft.subterms, x.Plain ∧ ¬ x.NegatesMinus) ∧ nestedRight.text ≠ nestedLeft.text := by
  have hquote : Octets.IsText "\"" := by decide
  have hright : ∀ x ∈ nestedRight.subterms, x.Plain ∧ ¬ x.NegatesMinus := by
    simp [nestedRight, variableX, subterms, subtermsOfAll, Plain, NegatesMinus, IsMinus, isName_x, hquote]
  have hleft : ∀ x ∈ nestedLeft.subterms, x.Plain ∧ ¬ x.NegatesMinus := by
    simp [nestedLeft, variableX, subterms, subtermsOfAll, Plain, NegatesMinus, IsMinus, isName_x, hquote]
  refine ⟨hright, hleft, fun htext => ?_⟩
  have hbare := (printed_unambiguous (fun x hx => (hright x hx).1) fun x hx => (hleft x hx).1).2
    (fun x hx => (hright x hx).2) (fun x hx => (hleft x hx).2) htext
  simp [nestedRight, nestedLeft, bare] at hbare

end Expr

end ClassCompiler
