import ClassCompiler.Proofs.Tree.TypeText

namespace ClassCompiler.Ty

inductive Sign where
  | lparen | rparen | comma | colon | arrow
  deriving Repr, DecidableEq

def Sign.chars : Sign → List Char
  | .lparen => ['(']
  | .rparen => [')']
  | .comma => [',']
  | .colon => [':']
  | .arrow => ['-', '>']

inductive Piece where
  | word (n : String)
  | sign (s : Sign)
  deriving Repr, DecidableEq

/-- The text falls into the pieces, with space before, between and behind them. A word goes on as far as the characters of
names do. -/
inductive Splits : List Char → List Piece → Prop where
  | nil : Splits [] []
  | space {c cs ps} (hc : isSpace c = true) (h : Splits cs ps) : Splits (c :: cs) ps
  | word {n : String} {cs ps} (hn : n ≠ "") (hchars : NameChars n) (hnext : ∀ c ∈ cs.head?, isNameChar c = false)
    (h : Splits cs ps) : Splits (n.toList ++ cs) (.word n :: ps)
  | sign {s : Sign} {cs ps} (h : Splits cs ps) : Splits (s.chars ++ cs) (.sign s :: ps)

theorem Sign.exists_chars (s : Sign) : ∃ c cs, s.chars = c :: cs ∧ isSpace c = false ∧ isNameChar c = false := by
  cases s <;> exact ⟨_, _, rfl, by decide, by decide⟩

theorem Sign.eq_of_chars {s s' : Sign} {cs cs' : List Char} (h : s.chars ++ cs = s'.chars ++ cs') : s = s' ∧ cs = cs' := by
  cases s <;> cases s' <;> simp_all [Sign.chars]

/-- What the first piece of a text says of the text, if no space comes before it. -/
def Begins (cs : List Char) : List Piece → Prop
  | [] => cs = []
  | .word n :: ps =>
    n ≠ "" ∧ NameChars n ∧ ∃ tail, cs = n.toList ++ tail ∧ (∀ c ∈ tail.head?, isNameChar c = false) ∧ Splits tail ps
  | .sign s :: ps => ∃ tail, cs = s.chars ++ tail ∧ Splits tail ps

theorem Splits.begins {cs : List Char} {ps : List Piece} (h : Splits cs ps) : Begins (cs.dropWhile isSpace) ps := by
  induction h with
  | nil => rfl
  | space hc _ ih =>
    rw [List.dropWhile_cons_of_pos hc]
    exact ih
  | @word n cs ps hn hchars hnext h ih =>
    obtain ⟨c, w, hw⟩ := List.exists_cons_of_ne_nil (mt String.toList_eq_nil_iff.1 hn)
    have hspace := isSpace_eq_false (hchars c (by rw [hw]; exact List.mem_cons_self))
    refine ⟨hn, hchars, cs, ?_, hnext, h⟩
    rw [hw, List.cons_append, List.dropWhile_cons_of_neg (by simp [hspace])]
  | @sign s cs ps h ih =>
    obtain ⟨c, w, hw, hspace, -⟩ := s.exists_chars
    refine ⟨cs, ?_, h⟩
    rw [hw, List.cons_append, List.dropWhile_cons_of_neg (by simp [hspace])]

theorem Begins.splits {cs : List Char} {ps : List Piece} (h : Begins cs ps) : Splits cs ps := by
  cases ps with
  | nil =>
    cases h
    exact .nil
  | cons p ps =>
    cases p with
    | word n =>
      obtain ⟨hn, hchars, tail, rfl, hnext, htail⟩ := h
      exact .word hn hchars hnext htail
    | sign s =>
      obtain ⟨tail, rfl, htail⟩ := h
      exact .sign htail

theorem splits_dropWhile {cs : List Char} {ps : List Piece} (h : Splits (cs.dropWhile isSpace) ps) : Splits cs ps := by
  induction cs with
  | nil => exact h
  | cons c cs ih =>
    cases hc : isSpace c with
    | false => rwa [List.dropWhile_cons_of_neg (by simp [hc])] at h
    | true =>
      rw [List.dropWhile_cons_of_pos hc] at h
      exact .space hc (ih h)

namespace Input

variable {i j : Input} {n : String} {s : Sign} {ps : List Piece}

abbrev Has (i : Input) (ps : List Piece) : Prop := Splits i.rest ps

theorem Has.skipSpace (h : i.Has ps) : i.skipSpace.Has ps := h.begins.splits

theorem has_of_skipSpace (h : i.skipSpace.Has ps) : i.Has ps := splits_dropWhile h

theorem Has.name (h : i.Has (.word n :: ps)) : n ≠ "" ∧ ∃ j, i.name = (n.toList, j) ∧ j.Has ps := by
  obtain ⟨hn, hchars, tail, heq, hnext, htail⟩ := h.begins
  obtain ⟨j, hj, hrest⟩ := name_of_ahead heq hchars hnext
  subst hrest
  exact ⟨hn, j, hj, htail⟩

theorem has_of_name (hname : i.name = (n.toList, j)) (hn : n ≠ "") (h : j.Has ps) : i.Has (.word n :: ps) := by
  have hword : i.skipSpace.rest.takeWhile isNameChar = n.toList := congrArg Prod.fst hname
  have hcut : n.toList ++ i.skipSpace.rest.dropWhile isNameChar = i.skipSpace.rest := by
    rw [← hword]
    exact List.takeWhile_append_dropWhile
  have hrest : j.rest = i.skipSpace.rest.dropWhile isNameChar := by
    have hj : j = i.skipSpace.advance n.toList.length := by
      rw [← hword]
      exact (congrArg Prod.snd hname).symm
    rw [hj, advance]
    change i.skipSpace.rest.drop n.toList.length = _
    conv_lhs => rw [← hcut]
    exact List.drop_left
  have hchars : NameChars n := fun c hc => List.all_eq_true.1 List.all_takeWhile c (hword ▸ hc)
  have hnext : ∀ c ∈ j.rest.head?, isNameChar c = false := by
    intro c hc
    rw [hrest] at hc
    have hnot := List.head?_dropWhile_not isNameChar i.skipSpace.rest
    rw [Option.mem_def.1 hc] at hnot
    simpa using hnot
  have hsplits : Splits i.skipSpace.rest (.word n :: ps) := by
    rw [← hcut, ← hrest]
    exact .word hn hchars hnext h
  exact has_of_skipSpace hsplits

theorem Has.token? (h : i.Has (.sign s :: ps)) : ∃ j, i.token? s.chars = some j ∧ j.Has ps := by
  obtain ⟨tail, heq, htail⟩ := h.begins
  obtain ⟨j, hj, hrest⟩ := token?_eq_some heq
  subst hrest
  exact ⟨j, hj, htail⟩

theorem ahead_of_token? (h : i.token? s.chars = some j) : i.ahead = s.chars ++ j.rest := by
  simp only [token?] at h
  split at h
  · next hp =>
    cases h
    obtain ⟨tail, htail⟩ := List.isPrefixOf_iff_prefix.1 hp
    rw [advance, ← htail, List.drop_left, ahead, show List.dropWhile isSpace i.rest = s.chars ++ tail from htail.symm]
  · cases h

theorem has_of_token? (hj : i.token? s.chars = some j) (h : j.Has ps) : i.Has (.sign s :: ps) := by
  refine splits_dropWhile ?_
  rw [show i.rest.dropWhile isSpace = s.chars ++ j.rest from ahead_of_token? hj]
  exact .sign h

theorem Has.of_token? (hj : i.token? s.chars = some j) (h : i.Has ps) : ∃ ps', ps = .sign s :: ps' ∧ j.Has ps' := by
  have hahead := h.begins
  rw [show i.rest.dropWhile isSpace = s.chars ++ j.rest from ahead_of_token? hj] at hahead
  obtain ⟨c, w, hw, -, hname⟩ := s.exists_chars
  cases ps with
  | nil => simp [Begins, hw] at hahead
  | cons p ps =>
    cases p with
    | word n =>
      obtain ⟨hn, hchars, tail, heq, -, -⟩ := hahead
      obtain ⟨d, v, hv⟩ := List.exists_cons_of_ne_nil (mt String.toList_eq_nil_iff.1 hn)
      have hd := hchars d (by rw [hv]; exact List.mem_cons_self)
      rw [hw, hv] at heq
      simp [← (List.cons.inj heq).1, hname] at hd
    | sign s' =>
      obtain ⟨tail, heq, htail⟩ := hahead
      obtain ⟨rfl, rfl⟩ := Sign.eq_of_chars heq
      exact ⟨ps, rfl, htail⟩

theorem Has.token?_none (h : i.Has ps) (hs : ps.head? ≠ some (.sign s)) : i.token? s.chars = none := by
  cases hj : i.token? s.chars with
  | none => rfl
  | some j =>
    obtain ⟨ps', rfl, -⟩ := h.of_token? hj
    exact absurd rfl hs

theorem Has.not_sign (h : i.Has ps) (hs : i.token? s.chars = none) : ps.head? ≠ some (.sign s) := by
  intro hhead
  obtain ⟨ps', rfl⟩ := List.head?_eq_some_iff.1 hhead
  obtain ⟨j, hj, -⟩ := h.token?
  rw [hs] at hj
  cases hj

end Input

def ofWord : String → Ty
  | "int" => .int
  | "bool" => .bool
  | "string" => .string
  | "void" => .void
  | n => .cls n

mutual

/-- The type that the pieces derive, up to those that are left over. The words of lists and of method references are names
of classes where no bracket comes next. -/
inductive Derives : List Piece → Ty → List Piece → Prop where
  | word {n rest} (h : n ∈ ["list", "fptr"] → rest.head? ≠ some (.sign .lparen)) : Derives (.word n :: rest) (ofWord n) rest
  | empty {rest} : Derives (.word "list" :: .sign .lparen :: .sign .rparen :: rest) (.list []) rest
  | list {ps es rest} (h : DerivesElems ps es (.sign .rparen :: rest)) :
    Derives (.word "list" :: .sign .lparen :: ps) (.list es) rest
  | fptr {ps ts ps' r rest} (h : DerivesParams ps ts (.sign .arrow :: ps')) (h' : Derives ps' r (.sign .rparen :: rest)) :
    Derives (.word "fptr" :: .sign .lparen :: ps) (.fptr ts r) rest

/-- A position of a list type, with or without a name. -/
inductive DerivesElem : List Piece → String × Ty → List Piece → Prop where
  | unnamed {ps t rest} (h : Derives ps t rest) : DerivesElem ps ("", t) rest
  | named {n ps t rest} (h : Derives ps t rest) : DerivesElem (.word n :: .sign .colon :: ps) (n, t) rest

/-- Positions of a list type, with commas between them. -/
inductive DerivesElems : List Piece → List (String × Ty) → List Piece → Prop where
  | one {ps e rest} (h : DerivesElem ps e rest) : DerivesElems ps [e] rest
  | more {ps e ps' es rest} (h : DerivesElem ps e (.sign .comma :: ps')) (h' : DerivesElems ps' es rest) :
    DerivesElems ps (e :: es) rest

/-- Parameters of a method reference, each with or without a comma behind it. -/
inductive DerivesParams : List Piece → List Ty → List Piece → Prop where
  | nil {ps} : DerivesParams ps [] ps
  | bare {ps t ps' ts rest} (h : Derives ps t ps') (h' : DerivesParams ps' ts rest) : DerivesParams ps (t :: ts) rest
  | comma {ps t ps' ts rest} (h : Derives ps t (.sign .comma :: ps')) (h' : DerivesParams ps' ts rest) :
    DerivesParams ps (t :: ts) rest

end

theorem Derives.exists_word {ps rest : List Piece} {t : Ty} (h : Derives ps t rest) : ∃ n ps', ps = .word n :: ps' := by
  cases h <;> exact ⟨_, _, rfl⟩

/-- A word with a colon behind it derives the name of a class only. -/
theorem Derives.colon {n : String} {ps rest : List Piece} {t : Ty} (h : Derives (.word n :: .sign .colon :: ps) t rest) :
    rest = .sign .colon :: ps := by
  cases h with
  | word => rfl

theorem Derives.head {ps rest : List Piece} {t : Ty} (h : Derives ps t rest) (s : Sign) : ps.head? ≠ some (.sign s) := by
  obtain ⟨n, ps', rfl⟩ := h.exists_word
  simp

theorem DerivesElems.head {ps rest : List Piece} {es : List (String × Ty)} (h : DerivesElems ps es rest) (s : Sign) :
    ps.head? ≠ some (.sign s) := by
  cases h with
  | one h | more h _ =>
    cases h with
    | unnamed h => exact h.head s
    | named h => simp

/-- Parameters up to their arrow begin with a word or with the arrow. -/
theorem DerivesParams.head {ps rest : List Piece} {ts : List Ty} (h : DerivesParams ps ts (.sign .arrow :: rest)) :
    ps.head? ≠ some (.sign .comma) := by
  cases h with
  | nil => simp
  | bare h _ | comma h _ => exact h.head .comma

section Readers

variable {i j k l : Input} {n : String} (fuel : Nat)

/-- The text of a type begins with no word, with a word that is a type by itself, or with the brackets of a list or of a
method reference. -/
theorem head_cases (i : Input) : i.name.1 = [] ∨
    (∃ n j, i.name = (n.toList, j) ∧ n ≠ "" ∧ (n ∈ ["list", "fptr"] → j.token? Sign.lparen.chars = none)) ∨
    (∃ j k, i.name = ("list".toList, j) ∧ j.token? Sign.lparen.chars = some k) ∨
    ∃ j k, i.name = ("fptr".toList, j) ∧ j.token? Sign.lparen.chars = some k := by
  by_cases hnil : i.name.1 = []
  · exact .inl hnil
  refine .inr ?_
  have hname : i.name = ((String.ofList i.name.1).toList, i.name.2) := by rw [String.toList_ofList]
  have hne : String.ofList i.name.1 ≠ "" := by simpa [← String.toList_eq_nil_iff] using hnil
  cases hk : i.name.2.token? Sign.lparen.chars with
  | none => exact .inl ⟨_, _, hname, hne, fun _ => hk⟩
  | some k =>
    by_cases hlist : String.ofList i.name.1 = "list"
    · exact .inr (.inl ⟨_, k, hlist ▸ hname, hk⟩)
    by_cases hfptr : String.ofList i.name.1 = "fptr"
    · exact .inr (.inr ⟨_, k, hfptr ▸ hname, hk⟩)
    · exact .inl ⟨_, _, hname, hne, by simp [hlist, hfptr]⟩

theorem parseTy_nil (h : i.name.1 = []) : parseTy (fuel + 1) i = .error ⟨i.offset, .typeExpected⟩ := by
  rw [parseTy, show i.name = ([], i.name.2) from Prod.ext h rfl]
  rfl

theorem parseTy_word (h : i.name = (n.toList, j)) (hn : n ≠ "")
    (hopen : n ∈ ["list", "fptr"] → j.token? Sign.lparen.chars = none) : parseTy (fuel + 1) i = .ok (ofWord n, j) := by
  rw [parseTy, h]
  simp only [String.ofList_toList, ofWord]
  split <;> simp_all [Sign.chars]

theorem parseTy_empty (h : i.name = ("list".toList, j)) (hk : j.token? Sign.lparen.chars = some k)
    (hl : k.token? Sign.rparen.chars = some l) : parseTy (fuel + 1) i = .ok (.list [], l) := by
  rw [parseTy, h]
  simp only [String.ofList_toList, show j.token? ['('] = some k from hk, show k.token? [')'] = some l from hl]

theorem parseTy_list (h : i.name = ("list".toList, j)) (hk : j.token? Sign.lparen.chars = some k)
    (hl : k.token? Sign.rparen.chars = none) : parseTy (fuel + 1) i = (do
      let r ← parseElems fuel k.skipSpace
      pure (.list r.1, r.2) : Except Failure (Ty × Input)) := by
  rw [parseTy, h]
  simp only [String.ofList_toList, show j.token? ['('] = some k from hk, show k.token? [')'] = none from hl]
  cases parseElems fuel k.skipSpace <;> rfl

theorem parseTy_fptr (h : i.name = ("fptr".toList, j)) (hk : j.token? Sign.lparen.chars = some k) :
    parseTy (fuel + 1) i = (do
      let r ← parseParams fuel k
      let s ← parseTy fuel r.2
      let m ← expect ")" s.2
      pure (.fptr r.1 s.1, m) : Except Failure (Ty × Input)) := by
  rw [parseTy, h]
  simp only [String.ofList_toList, show j.token? ['('] = some k from hk]
  cases parseParams fuel k with
  | error e => rfl
  | ok r =>
    cases hs : parseTy fuel r.2 with
    | error e => simp [hs, bind, Except.bind]
    | ok s => cases hm : expect ")" s.2 <;> simp [hs, hm, bind, Except.bind, pure, Except.pure]

theorem parseElems_succ (i : Input) : parseElems (fuel + 1) i = (do
    let r ← parseTy fuel (elemHead i).2
    match r.2.token? Sign.comma.chars with
    | some k => do
      let s ← parseElems fuel k
      pure (((elemHead i).1, r.1) :: s.1, s.2)
    | none => do
      let m ← expect ")" r.2
      pure ([((elemHead i).1, r.1)], m) : Except Failure (List (String × Ty) × Input)) := by
  rw [parseElems]
  cases hr : parseTy fuel (elemHead i).2 with
  | error e => simp [hr, bind, Except.bind]
  | ok r =>
    simp only [hr, bind, Except.bind, Sign.chars]
    cases r.2.token? [','] with
    | some k =>
      dsimp only
      cases parseElems fuel k <;> rfl
    | none =>
      dsimp only
      cases expect ")" r.2 <;> rfl

theorem parseParams_nil (h : i.token? Sign.arrow.chars = some j) : parseParams (fuel + 1) i = .ok ([], j) := by
  rw [parseParams, show i.token? ['-', '>'] = some j from h]

theorem parseParams_cons (h : i.token? Sign.arrow.chars = none) : parseParams (fuel + 1) i = (do
    let r ← parseTy fuel i.skipSpace
    let s ← parseParams fuel (skipComma r.2)
    pure (r.1 :: s.1, s.2) : Except Failure (List Ty × Input)) := by
  rw [parseParams, show i.token? ['-', '>'] = none from h]
  cases hr : parseTy fuel i.skipSpace with
  | error e => rfl
  | ok r => cases hs : parseParams fuel (skipComma r.2) <;> simp [hs, bind, Except.bind, pure, Except.pure]

theorem expect_rparen : expect ")" i = .ok j ↔ i.token? Sign.rparen.chars = some j := by
  rw [expect, show i.token? ")".toList = i.token? Sign.rparen.chars from rfl]
  cases i.token? Sign.rparen.chars <;> simp

/-- A position begins with a name and its colon, or it is a type only. -/
theorem elemHead_cases (i : Input) :
    (∃ n j k, i.name = (n.toList, j) ∧ n ≠ "" ∧ j.token? Sign.colon.chars = some k ∧ elemHead i = (n, k)) ∨
    (elemHead i = ("", i) ∧ (i.name.1 = [] ∨ i.name.2.token? Sign.colon.chars = none)) := by
  rcases hname : i.name with ⟨cs, j⟩
  cases cs with
  | nil =>
    refine .inr ⟨?_, .inl rfl⟩
    rw [elemHead, hname]
  | cons c cs =>
    cases hk : j.token? Sign.colon.chars with
    | none =>
      refine .inr ⟨?_, .inr rfl⟩
      rw [elemHead, hname]
      simp only [show j.token? [':'] = none from hk]
    | some k =>
      refine .inl ⟨String.ofList (c :: cs), j, k, by rw [String.toList_ofList], by simp [← String.toList_eq_nil_iff], hk, ?_⟩
      rw [elemHead, hname]
      simp only [show j.token? [':'] = some k from hk]

end Readers

namespace Input

variable {i j k : Input}

def left (i : Input) : Nat := i.rest.length

def stop (i : Input) : Nat := i.offset + i.left

/-- One input comes behind another in the same text. -/
structure Behind (j i : Input) : Prop where
  stop : j.stop = i.stop
  left : j.left ≤ i.left

theorem Behind.refl (i : Input) : Behind i i := ⟨rfl, le_rfl⟩

theorem Behind.trans (h : Behind k j) (h' : Behind j i) : Behind k i := ⟨h.stop.trans h'.stop, h.left.trans h'.left⟩

theorem Behind.offset_le (h : Behind j i) : j.offset ≤ i.stop := by
  rw [← h.stop]
  exact Nat.le_add_right _ _

theorem behind_skipSpace (i : Input) : Behind i.skipSpace i := by
  have hlen := congrArg List.length (List.takeWhile_append_dropWhile (p := isSpace) (l := i.rest))
  rw [List.length_append] at hlen
  constructor <;> simp only [stop, left, skipSpace] <;> omega

theorem left_advance {n : Nat} (h : n ≤ i.left) : Behind (i.advance n) i ∧ (i.advance n).left + n = i.left := by
  have hlen : (i.advance n).left = i.left - n := List.length_drop
  refine ⟨⟨?_, by omega⟩, by omega⟩
  rw [stop, hlen]
  simp only [stop, advance]
  omega

theorem left_name {cs : List Char} (h : i.name = (cs, j)) : Behind j i ∧ j.left + cs.length ≤ i.left := by
  have hle : (i.skipSpace.rest.takeWhile isNameChar).length ≤ i.skipSpace.left :=
    (List.takeWhile_prefix isNameChar).length_le
  obtain ⟨hbehind, hleft⟩ := left_advance hle
  have hskip := i.behind_skipSpace
  cases h
  exact ⟨hbehind.trans hskip, hleft.trans_le hskip.left⟩

theorem left_token? {s : List Char} (h : i.token? s = some j) : Behind j i ∧ j.left + s.length ≤ i.left := by
  simp only [token?] at h
  split at h
  · next hp =>
    cases h
    obtain ⟨hbehind, hleft⟩ := left_advance (i := i.skipSpace) (List.isPrefixOf_iff_prefix.1 hp).length_le
    have hskip := i.behind_skipSpace
    exact ⟨hbehind.trans hskip, hleft.trans_le hskip.left⟩
  · cases h

end Input

open Input (Behind)

theorem behind_elemHead (i : Input) : Behind (elemHead i).2 i := by
  obtain ⟨n, j, k, hname, -, hk, heq⟩ | ⟨heq, -⟩ := elemHead_cases i
  · rw [heq]
    exact (Input.left_token? hk).1.trans (Input.left_name hname).1
  · rw [heq]
    exact .refl i

theorem behind_skipComma (i : Input) : Behind (skipComma i) i := by
  rw [skipComma]
  cases hk : i.token? [','] with
  | none => exact i.behind_skipSpace
  | some k => exact (Input.left_token? hk).1

/-- Reading leaves less of the text, and fails inside it. -/
structure Reads {α : Type} (i : Input) (r : Parsed α) : Prop where
  ok : ∀ a j, r = .ok (a, j) → Behind j i ∧ j.left < i.left
  error : ∀ e, r = .error e → e.offset ≤ i.stop

namespace Reads

variable {α β : Type} {i j : Input}

theorem done {a : α} (h : Behind j i) (hlt : j.left < i.left) : Reads i (.ok (a, j)) := by
  constructor
  · intro a' j' heq
    cases heq
    exact ⟨h, hlt⟩
  · intro e heq
    cases heq

theorem failed {p : SyntaxProblem} (h : Behind j i) : Reads (α := α) i (.error ⟨j.offset, p⟩) := by
  constructor
  · intro a k heq
    cases heq
  · intro e heq
    cases heq
    exact h.offset_le

theorem bind {r : Parsed α} {f : α × Input → Parsed β} (h : Reads j r) (hj : Behind j i)
    (hf : ∀ a k, r = .ok (a, k) → Behind k i → k.left < i.left → Reads i (f (a, k))) : Reads i (Except.bind r f) := by
  cases hr : r with
  | error e =>
    constructor
    · intro a k heq
      cases heq
    · intro e' heq
      cases heq
      exact (h.error e hr).trans_eq hj.stop
  | ok a =>
    have hok := h.ok a.1 a.2 hr
    exact hf a.1 a.2 hr (hok.1.trans hj) (hok.2.trans_le hj.left)

theorem expect {a : α} (h : Behind j i) (hlt : j.left < i.left) {s : String} :
    Reads i (Except.bind (Ty.expect s j) fun k => .ok (a, k)) := by
  unfold Ty.expect
  cases hk : j.token? s.toList with
  | none => exact failed (j.behind_skipSpace.trans h)
  | some k =>
    obtain ⟨hbehind, -⟩ := Input.left_token? hk
    exact done (hbehind.trans h) (hbehind.left.trans_lt hlt)

end Reads

/-- All three readers go forward. -/
structure Forward (fuel : Nat) : Prop where
  ty : ∀ i, Reads i (parseTy fuel i)
  elems : ∀ i, Reads i (parseElems fuel i)
  params : ∀ i, Reads i (parseParams fuel i)

theorem forward_ty {fuel : Nat} (ih : Forward fuel) (i : Input) : Reads i (parseTy (fuel + 1) i) := by
  obtain hnil | ⟨n, j, hn, hne, hopen⟩ | ⟨j, k, hj, hk⟩ | ⟨j, k, hj, hk⟩ := head_cases i
  · rw [parseTy_nil fuel hnil]
    exact .failed (.refl i)
  · have hpos := List.length_pos_iff.2 (mt String.toList_eq_nil_iff.1 hne)
    have hname := Input.left_name hn
    rw [parseTy_word fuel hn hne hopen]
    exact .done hname.1 (by omega)
  · have hname := Input.left_name hj
    have hbehind := (Input.left_token? hk).1.trans hname.1
    cases hl : k.token? Sign.rparen.chars with
    | some l =>
      have hlen := Input.left_token? hl
      rw [parseTy_empty fuel hj hk hl]
      exact .done (hlen.1.trans hbehind) (lt_of_lt_of_le (Nat.lt_of_succ_le hlen.2) hbehind.left)
    | none =>
      rw [parseTy_list fuel hj hk hl]
      exact (ih.elems _).bind (k.behind_skipSpace.trans hbehind) fun _ _ _ h hlt => .done h hlt
  · have hname := Input.left_name hj
    rw [parseTy_fptr fuel hj hk]
    refine (ih.params k).bind ((Input.left_token? hk).1.trans hname.1) fun _ _ _ h _ => ?_
    exact (ih.ty _).bind h fun _ _ _ h' hlt => .expect h' hlt

theorem forward_elems {fuel : Nat} (ih : Forward fuel) (i : Input) : Reads i (parseElems (fuel + 1) i) := by
  rw [parseElems_succ]
  refine (ih.ty _).bind (behind_elemHead i) fun t j _ h hlt => ?_
  dsimp only
  cases hk : j.token? Sign.comma.chars with
  | none => exact .expect h hlt
  | some k =>
    exact (ih.elems k).bind ((Input.left_token? hk).1.trans h) fun _ _ _ h' hlt' => .done h' hlt'

theorem forward_params {fuel : Nat} (ih : Forward fuel) (i : Input) : Reads i (parseParams (fuel + 1) i) := by
  cases hj : i.token? Sign.arrow.chars with
  | some j =>
    obtain ⟨hbehind, hlen⟩ := Input.left_token? hj
    rw [parseParams_nil fuel hj]
    exact .done hbehind (by simp only [Sign.chars, List.length_cons] at hlen; omega)
  | none =>
    rw [parseParams_cons fuel hj]
    refine (ih.ty _).bind i.behind_skipSpace fun _ j _ h _ => ?_
    exact (ih.params _).bind ((behind_skipComma j).trans h) fun _ _ _ h' hlt' => .done h' hlt'

theorem forward (fuel : Nat) : Forward fuel := by
  induction fuel with
  | zero => constructor <;> exact fun i => .failed (.refl i)
  | succ fuel ih => exact ⟨forward_ty ih, forward_elems ih, forward_params ih⟩

theorem expect_ne_outOfFuel {s : String} {i : Input} {e : Failure} (h : expect s i = .error e) :
    e.problem ≠ .outOfFuel := by
  unfold expect at h
  split at h
  · cases h
  · cases h
    simp

/-- With fuel for twice what is left of the text, the readers do not run out of it. -/
structure Fueled (fuel : Nat) : Prop where
  ty : ∀ i e, 2 * i.left + 1 ≤ fuel → parseTy fuel i = .error e → e.problem ≠ .outOfFuel
  elems : ∀ i e, 2 * i.left + 2 ≤ fuel → parseElems fuel i = .error e → e.problem ≠ .outOfFuel
  params : ∀ i e, 2 * i.left + 2 ≤ fuel → parseParams fuel i = .error e → e.problem ≠ .outOfFuel

theorem fueled_ty {fuel : Nat} (ih : Fueled fuel) {i : Input} {e : Failure} (hf : 2 * i.left + 1 ≤ fuel + 1)
    (h : parseTy (fuel + 1) i = .error e) : e.problem ≠ .outOfFuel := by
  obtain hnil | ⟨n, j, hn, hne, hopen⟩ | ⟨j, k, hj, hk⟩ | ⟨j, k, hj, hk⟩ := head_cases i
  · rw [parseTy_nil _ hnil] at h
    cases h
    simp
  · rw [parseTy_word _ hn hne hopen] at h
    cases h
  · have hname := Input.left_name hj
    have hlen := Input.left_token? hk
    cases hl : k.token? Sign.rparen.chars with
    | some l =>
      rw [parseTy_empty _ hj hk hl] at h
      cases h
    | none =>
      have hskip := k.behind_skipSpace.left
      simp only [Sign.chars, List.length_singleton] at hlen
      have hwords : "list".toList.length = 4 := rfl
      rw [parseTy_list _ hj hk hl] at h
      obtain h | ⟨r, -, h⟩ := bind_eq_error.1 h
      · exact ih.elems _ _ (by omega) h
      · cases h
  · have hname := Input.left_name hj
    have hlen := Input.left_token? hk
    simp only [Sign.chars, List.length_singleton] at hlen
    have hwords : "fptr".toList.length = 4 := rfl
    rw [parseTy_fptr _ hj hk] at h
    obtain h | ⟨r, hr, h⟩ := bind_eq_error.1 h
    · exact ih.params _ _ (by omega) h
    have hleft := ((forward fuel).params k).ok _ _ hr
    obtain h | ⟨s, -, h⟩ := bind_eq_error.1 h
    · exact ih.ty _ _ (by omega) h
    obtain h | ⟨l, -, h⟩ := bind_eq_error.1 h
    · exact expect_ne_outOfFuel h
    · cases h

theorem fueled_elems {fuel : Nat} (ih : Fueled fuel) {i : Input} {e : Failure} (hf : 2 * i.left + 2 ≤ fuel + 1)
    (h : parseElems (fuel + 1) i = .error e) : e.problem ≠ .outOfFuel := by
  have hhead := (behind_elemHead i).left
  rw [parseElems_succ] at h
  obtain h | ⟨r, hr, h⟩ := bind_eq_error.1 h
  · exact ih.ty _ _ (by omega) h
  have hleft := ((forward fuel).ty _).ok _ _ hr
  cases hk : r.2.token? Sign.comma.chars with
  | none =>
    rw [hk] at h
    obtain h | ⟨m, -, h⟩ := bind_eq_error.1 h
    · exact expect_ne_outOfFuel h
    · cases h
  | some k =>
    have hlen := Input.left_token? hk
    simp only [Sign.chars, List.length_singleton] at hlen
    rw [hk] at h
    obtain h | ⟨s, -, h⟩ := bind_eq_error.1 h
    · exact ih.elems _ _ (by omega) h
    · cases h

theorem fueled_params {fuel : Nat} (ih : Fueled fuel) {i : Input} {e : Failure} (hf : 2 * i.left + 2 ≤ fuel + 1)
    (h : parseParams (fuel + 1) i = .error e) : e.problem ≠ .outOfFuel := by
  cases hj : i.token? Sign.arrow.chars with
  | some j =>
    rw [parseParams_nil _ hj] at h
    cases h
  | none =>
    have hskip := i.behind_skipSpace.left
    rw [parseParams_cons _ hj] at h
    obtain h | ⟨r, hr, h⟩ := bind_eq_error.1 h
    · exact ih.ty _ _ (by omega) h
    have hleft := ((forward fuel).ty _).ok _ _ hr
    have hcomma := (behind_skipComma r.2).left
    obtain h | ⟨s, -, h⟩ := bind_eq_error.1 h
    · exact ih.params _ _ (by omega) h
    · cases h

theorem fueled (fuel : Nat) : Fueled fuel := by
  induction fuel with
  | zero => constructor <;> exact fun i e h => absurd h (by omega)
  | succ fuel ih => exact ⟨fun _ _ => fueled_ty ih, fun _ _ => fueled_elems ih, fun _ _ => fueled_params ih⟩

/-- What the readers return is derived by the pieces of the text that they read. -/
structure Sound (fuel : Nat) : Prop where
  ty : ∀ i t j rest, parseTy fuel i = .ok (t, j) → j.Has rest → ∃ ps, i.Has ps ∧ Derives ps t rest
  elems : ∀ i es j rest, parseElems fuel i = .ok (es, j) → j.Has rest →
    ∃ ps, i.Has ps ∧ DerivesElems ps es (.sign .rparen :: rest)
  params : ∀ i ts j rest, parseParams fuel i = .ok (ts, j) → j.Has rest →
    ∃ ps, i.Has ps ∧ DerivesParams ps ts (.sign .arrow :: rest)

theorem sound_ty {fuel : Nat} (ih : Sound fuel) {i j : Input} {t : Ty} {rest : List Piece}
    (h : parseTy (fuel + 1) i = .ok (t, j)) (hrest : j.Has rest) : ∃ ps, i.Has ps ∧ Derives ps t rest := by
  obtain hnil | ⟨n, k, hn, hne, hopen⟩ | ⟨k, l, hk, hl⟩ | ⟨k, l, hk, hl⟩ := head_cases i
  · rw [parseTy_nil fuel hnil] at h
    cases h
  · rw [parseTy_word fuel hn hne hopen] at h
    cases h
    exact ⟨_, Input.has_of_name hn hne hrest, .word fun hmem => hrest.not_sign (hopen hmem)⟩
  · cases hm : l.token? Sign.rparen.chars with
    | some m =>
      rw [parseTy_empty fuel hk hl hm] at h
      cases h
      exact ⟨_, Input.has_of_name hk (by decide) (Input.has_of_token? hl (Input.has_of_token? hm hrest)), .empty⟩
    | none =>
      rw [parseTy_list fuel hk hl hm] at h
      obtain ⟨r, hr, h⟩ := bind_eq_ok.1 h
      cases h
      obtain ⟨ps, hps, hder⟩ := ih.elems _ _ _ _ hr hrest
      exact ⟨_, Input.has_of_name hk (by decide) (Input.has_of_token? hl (Input.has_of_skipSpace hps)), .list hder⟩
  · rw [parseTy_fptr fuel hk hl] at h
    obtain ⟨r, hr, h⟩ := bind_eq_ok.1 h
    obtain ⟨u, hu, h⟩ := bind_eq_ok.1 h
    obtain ⟨m, hm, h⟩ := bind_eq_ok.1 h
    cases h
    obtain ⟨us, hus, hret⟩ := ih.ty _ _ _ _ hu (Input.has_of_token? (expect_rparen.1 hm) hrest)
    obtain ⟨ps, hps, hparams⟩ := ih.params _ _ _ _ hr hus
    exact ⟨_, Input.has_of_name hk (by decide) (Input.has_of_token? hl hps), .fptr hparams hret⟩

/-- The name of a position stands before its type. -/
theorem sound_elem {i : Input} {ps rest : List Piece} {t : Ty} (hps : (elemHead i).2.Has ps) (h : Derives ps t rest) :
    ∃ ps', i.Has ps' ∧ DerivesElem ps' ((elemHead i).1, t) rest := by
  obtain ⟨n, j, k, hname, hne, hk, heq⟩ | ⟨heq, -⟩ := elemHead_cases i
  · rw [heq] at hps ⊢
    exact ⟨_, Input.has_of_name hname hne (Input.has_of_token? hk hps), .named h⟩
  · rw [heq] at hps ⊢
    exact ⟨ps, hps, .unnamed h⟩

theorem sound_elems {fuel : Nat} (ih : Sound fuel) {i j : Input} {es : List (String × Ty)} {rest : List Piece}
    (h : parseElems (fuel + 1) i = .ok (es, j)) (hrest : j.Has rest) :
    ∃ ps, i.Has ps ∧ DerivesElems ps es (.sign .rparen :: rest) := by
  rw [parseElems_succ] at h
  obtain ⟨r, hr, h⟩ := bind_eq_ok.1 h
  cases hk : r.2.token? Sign.comma.chars with
  | some k =>
    rw [hk] at h
    obtain ⟨u, hu, h⟩ := bind_eq_ok.1 h
    cases h
    obtain ⟨us, hus, hmore⟩ := ih.elems _ _ _ _ hu hrest
    obtain ⟨ts, hts, hty⟩ := ih.ty _ _ _ _ hr (Input.has_of_token? hk hus)
    obtain ⟨ps, hps, helem⟩ := sound_elem hts hty
    exact ⟨ps, hps, .more helem hmore⟩
  | none =>
    rw [hk] at h
    obtain ⟨m, hm, h⟩ := bind_eq_ok.1 h
    cases h
    obtain ⟨ts, hts, hty⟩ := ih.ty _ _ _ _ hr (Input.has_of_token? (expect_rparen.1 hm) hrest)
    obtain ⟨ps, hps, helem⟩ := sound_elem hts hty
    exact ⟨ps, hps, .one helem⟩

theorem sound_params {fuel : Nat} (ih : Sound fuel) {i j : Input} {ts : List Ty} {rest : List Piece}
    (h : parseParams (fuel + 1) i = .ok (ts, j)) (hrest : j.Has rest) :
    ∃ ps, i.Has ps ∧ DerivesParams ps ts (.sign .arrow :: rest) := by
  cases hk : i.token? Sign.arrow.chars with
  | some k =>
    rw [parseParams_nil fuel hk] at h
    cases h
    exact ⟨_, Input.has_of_token? hk hrest, .nil⟩
  | none =>
    rw [parseParams_cons fuel hk] at h
    obtain ⟨r, hr, h⟩ := bind_eq_ok.1 h
    obtain ⟨u, hu, h⟩ := bind_eq_ok.1 h
    cases h
    obtain ⟨us, hus, hmore⟩ := ih.params _ _ _ _ hu hrest
    cases hl : r.2.token? [','] with
    | some l =>
      rw [skipComma, hl] at hus
      obtain ⟨ps, hps, hty⟩ := ih.ty _ _ _ _ hr (Input.has_of_token? (s := .comma) hl hus)
      exact ⟨ps, Input.has_of_skipSpace hps, .comma hty hmore⟩
    | none =>
      rw [skipComma, hl] at hus
      obtain ⟨ps, hps, hty⟩ := ih.ty _ _ _ _ hr (Input.has_of_skipSpace hus)
      exact ⟨ps, Input.has_of_skipSpace hps, .bare hty hmore⟩

theorem sound (fuel : Nat) : Sound fuel := by
  induction fuel with
  | zero =>
    constructor <;>
    · intro _ _ _ _ h
      cases h
  | succ fuel ih =>
    exact ⟨fun _ _ _ _ => sound_ty ih, fun _ _ _ _ => sound_elems ih, fun _ _ _ _ => sound_params ih⟩

/-- With enough fuel the readers return what the pieces of the text derive. -/
structure Complete (fuel : Nat) : Prop where
  ty : ∀ i ps t rest, 2 * i.left + 1 ≤ fuel → i.Has ps → Derives ps t rest →
    ∃ j, parseTy fuel i = .ok (t, j) ∧ j.Has rest
  elems : ∀ i ps es rest, 2 * i.left + 2 ≤ fuel → i.Has ps → DerivesElems ps es (.sign .rparen :: rest) →
    ∃ j, parseElems fuel i = .ok (es, j) ∧ j.Has rest
  params : ∀ i ps ts rest, 2 * i.left + 2 ≤ fuel → i.Has ps → DerivesParams ps ts (.sign .arrow :: rest) →
    ∃ j, parseParams fuel i = .ok (ts, j) ∧ j.Has rest

theorem expect_of_has {j : Input} {rest : List Piece} (h : j.Has (.sign .rparen :: rest)) :
    ∃ k, expect ")" j = .ok k ∧ k.Has rest := by
  obtain ⟨k, hk, hrest⟩ := h.token?
  exact ⟨k, expect_rparen.2 hk, hrest⟩

theorem complete_ty {fuel : Nat} (ih : Complete fuel) {i : Input} {ps rest : List Piece} {t : Ty}
    (hf : 2 * i.left + 1 ≤ fuel + 1) (hps : i.Has ps) (h : Derives ps t rest) :
    ∃ j, parseTy (fuel + 1) i = .ok (t, j) ∧ j.Has rest := by
  cases h with
  | word hopen =>
    obtain ⟨hne, j, hj, hrest⟩ := hps.name
    exact ⟨j, parseTy_word fuel hj hne fun hmem => hrest.token?_none (hopen hmem), hrest⟩
  | empty =>
    obtain ⟨-, j, hj, hps⟩ := hps.name
    obtain ⟨k, hk, hps⟩ := hps.token?
    obtain ⟨l, hl, hps⟩ := hps.token?
    exact ⟨l, parseTy_empty fuel hj hk hl, hps⟩
  | @list ps es rest h =>
    obtain ⟨-, j, hj, hps⟩ := hps.name
    obtain ⟨k, hk, hps⟩ := hps.token?
    have hj' := Input.left_name hj
    have hk' := (Input.left_token? hk).1.left
    have hskip := k.behind_skipSpace.left
    have hwords : "list".toList.length = 4 := rfl
    obtain ⟨l, hl, hrest⟩ := ih.elems _ _ _ _ (by omega) hps.skipSpace h
    have hclose : k.token? Sign.rparen.chars = none := hps.token?_none (h.head _)
    refine ⟨l, ?_, hrest⟩
    rw [parseTy_list fuel hj hk hclose, hl]
    rfl
  | @fptr ps ts ps' r rest h h' =>
    obtain ⟨-, j, hj, hps⟩ := hps.name
    obtain ⟨k, hk, hps⟩ := hps.token?
    have hj' := Input.left_name hj
    have hk' := (Input.left_token? hk).1.left
    have hwords : "fptr".toList.length = 4 := rfl
    obtain ⟨l, hl, hps'⟩ := ih.params _ _ _ _ (by omega) hps h
    have hl' := ((forward fuel).params k).ok _ _ hl
    obtain ⟨m, hm, hclose⟩ := ih.ty _ _ _ _ (by omega) hps' h'
    obtain ⟨x, hx, hrest⟩ := expect_of_has hclose
    refine ⟨x, ?_, hrest⟩
    rw [parseTy_fptr fuel hj hk, hl]
    simp only [bind, Except.bind, hm, hx]
    rfl

/-- The name of a position is seen, and no other word is taken for one. -/
theorem complete_elem {i : Input} {ps rest : List Piece} {e : String × Ty} (hps : i.Has ps) (h : DerivesElem ps e rest)
    (hrest : rest.head? ≠ some (.sign .colon)) :
    (elemHead i).1 = e.1 ∧ ∃ ps', (elemHead i).2.Has ps' ∧ Derives ps' e.2 rest := by
  obtain ⟨n, j, k, hname, hne, hk, heq⟩ | ⟨heq, hnone⟩ := elemHead_cases i
  · rw [heq]
    cases h with
    | unnamed h =>
      obtain ⟨n', ps', rfl⟩ := h.exists_word
      obtain ⟨-, j', hj', hps'⟩ := hps.name
      obtain rfl : j = j' := congrArg Prod.snd (hname.symm.trans hj')
      obtain ⟨ps'', rfl, -⟩ := hps'.of_token? hk
      exact absurd (by rw [h.colon]; rfl) hrest
    | @named n' ps' t rest h =>
      obtain ⟨-, j', hj', hps'⟩ := hps.name
      obtain ⟨hn, rfl⟩ := Prod.mk.inj (hname.symm.trans hj')
      obtain ⟨ps'', heq', hps''⟩ := hps'.of_token? hk
      cases heq'
      exact ⟨String.toList_inj.1 hn, ps', hps'', h⟩
  · rw [heq]
    cases h with
    | unnamed h => exact ⟨rfl, ps, hps, h⟩
    | named h =>
      obtain ⟨hne, j', hj', hps'⟩ := hps.name
      obtain ⟨k', hk', -⟩ := hps'.token?
      rw [hj'] at hnone
      obtain hnil | hcolon := hnone
      · exact absurd (String.toList_eq_nil_iff.1 hnil) hne
      · rw [hk'] at hcolon
        cases hcolon

theorem complete_elems {fuel : Nat} (ih : Complete fuel) {i : Input} {ps rest : List Piece} {es : List (String × Ty)}
    (hf : 2 * i.left + 2 ≤ fuel + 1) (hps : i.Has ps) (h : DerivesElems ps es (.sign .rparen :: rest)) :
    ∃ j, parseElems (fuel + 1) i = .ok (es, j) ∧ j.Has rest := by
  have hhead := (behind_elemHead i).left
  rw [parseElems_succ]
  cases h with
  | @one ps e rest h =>
    obtain ⟨hname, ts, hts, hty⟩ := complete_elem hps h (by simp)
    obtain ⟨j, hj, hclose⟩ := ih.ty _ _ _ _ (by omega) hts hty
    obtain ⟨k, hk, hrest⟩ := expect_of_has hclose
    have hcomma : j.token? Sign.comma.chars = none := hclose.token?_none (by simp)
    refine ⟨k, ?_, hrest⟩
    rw [hj, hname]
    simp only [bind, Except.bind, hcomma, hk]
    rfl
  | @more ps e ps' es rest h h' =>
    obtain ⟨hname, ts, hts, hty⟩ := complete_elem hps h (by simp)
    obtain ⟨j, hj, hcomma⟩ := ih.ty _ _ _ _ (by omega) hts hty
    obtain ⟨k, hk, hps'⟩ := hcomma.token?
    have hj' := ((forward fuel).ty _).ok _ _ hj
    have hk' := (Input.left_token? hk).1.left
    obtain ⟨l, hl, hrest⟩ := ih.elems _ _ _ _ (by omega) hps' h'
    refine ⟨l, ?_, hrest⟩
    rw [hj, hname]
    simp only [bind, Except.bind, hk, hl]
    rfl

theorem complete_params {fuel : Nat} (ih : Complete fuel) {i : Input} {ps rest : List Piece} {ts : List Ty}
    (hf : 2 * i.left + 2 ≤ fuel + 1) (hps : i.Has ps) (h : DerivesParams ps ts (.sign .arrow :: rest)) :
    ∃ j, parseParams (fuel + 1) i = .ok (ts, j) ∧ j.Has rest := by
  have hskip := i.behind_skipSpace.left
  cases h with
  | nil =>
    obtain ⟨j, hj, hrest⟩ := hps.token?
    exact ⟨j, parseParams_nil fuel hj, hrest⟩
  | @bare ps t ps' ts rest h h' =>
    have harrow : i.token? Sign.arrow.chars = none := hps.token?_none (h.head _)
    obtain ⟨j, hj, hps'⟩ := ih.ty _ _ _ _ (by omega) hps.skipSpace h
    have hj' := ((forward fuel).ty _).ok _ _ hj
    have hcomma : j.token? [','] = none := hps'.token?_none (s := .comma) h'.head
    have hleft := (behind_skipComma j).left
    have hnext : (skipComma j).Has ps' := by
      rw [skipComma, hcomma]
      exact hps'.skipSpace
    obtain ⟨k, hk, hrest⟩ := ih.params _ _ _ _ (by omega) hnext h'
    refine ⟨k, ?_, hrest⟩
    rw [parseParams_cons fuel harrow, hj]
    simp only [bind, Except.bind, hk]
    rfl
  | @comma ps t ps' ts rest h h' =>
    have harrow : i.token? Sign.arrow.chars = none := hps.token?_none (h.head _)
    obtain ⟨j, hj, hps'⟩ := ih.ty _ _ _ _ (by omega) hps.skipSpace h
    have hj' := ((forward fuel).ty _).ok _ _ hj
    have hleft := (behind_skipComma j).left
    obtain ⟨k, hk, hps''⟩ := hps'.token?
    have hnext : (skipComma j).Has ps' := by
      rw [skipComma, show j.token? [','] = some k from hk]
      exact hps''
    obtain ⟨l, hl, hrest⟩ := ih.params _ _ _ _ (by omega) hnext h'
    refine ⟨l, ?_, hrest⟩
    rw [parseParams_cons fuel harrow, hj]
    simp only [bind, Except.bind, hl]
    rfl

theorem complete (fuel : Nat) : Complete fuel := by
  induction fuel with
  | zero => constructor <;> exact fun i _ _ _ h => absurd h (by omega)
  | succ fuel ih =>
    exact ⟨fun _ _ _ _ => complete_ty ih, fun _ _ _ _ => complete_elems ih, fun _ _ _ _ => complete_params ih⟩

theorem Input.has_nil {i : Input} : i.Has [] ↔ i.skipSpace.rest = [] := by
  refine ⟨fun h => h.begins, fun h => splits_dropWhile ?_⟩
  rw [show i.rest.dropWhile isSpace = [] from h]
  exact .nil

/-- Reading a whole text goes as its first reading goes, and nothing may be left over. -/
theorem parse_cases (s : String) :
    (∃ t j, parseTy (2 * s.toList.length + 2) { rest := s.toList } = .ok (t, j) ∧ j.Has [] ∧ parse s = .ok t) ∨
    ((∀ t j, parseTy (2 * s.toList.length + 2) { rest := s.toList } = .ok (t, j) → ¬ j.Has []) ∧
      ∃ e, parse s = .error e ∧ e.input = s ∧ e.offset ≤ s.length ∧ e.problem ≠ .outOfFuel) := by
  have hreads := (forward (2 * s.toList.length + 2)).ty { rest := s.toList }
  have hfueled := (fueled (2 * s.toList.length + 2)).ty { rest := s.toList }
  have hstop : Input.stop { rest := s.toList } = s.length := (Nat.zero_add _).trans String.length_toList
  simp only [parse]
  cases hty : parseTy (2 * s.toList.length + 2) { rest := s.toList } with
  | error e =>
    refine .inr ⟨fun t j heq => ?_, ⟨s, e.offset, e.problem⟩, rfl, rfl, (hreads.error e hty).trans_eq hstop,
      hfueled e (Nat.le_succ _) hty⟩
    cases heq
  | ok r =>
    obtain ⟨t, k⟩ := r
    have hbehind := k.behind_skipSpace.trans (hreads.ok t k hty).1
    cases hrest : k.skipSpace.rest with
    | nil => exact .inl ⟨t, k, rfl, Input.has_nil.2 hrest, by simp [hrest]⟩
    | cons c cs =>
      refine .inr ⟨fun t' j heq hnil => ?_, ⟨s, k.skipSpace.offset, .unexpected (String.ofList (c :: cs))⟩, ?_, rfl,
        hbehind.offset_le.trans_eq hstop, by simp⟩
      · cases heq
        rw [Input.has_nil.1 hnil] at hrest
        cases hrest
      · simp [hrest]

/-- A whole text is read as a type exactly when it falls into pieces that derive the type. Every other text is refused with
an offset inside it. Reading always ends: it does not run out of fuel, whether it gets what a text is given or more. -/
theorem parse_reads_grammar (s : String) :
    (∀ t, parse s = .ok t ↔ ∃ ps, Splits s.toList ps ∧ Derives ps t []) ∧
    ((¬ ∃ t ps, Splits s.toList ps ∧ Derives ps t []) →
      ∃ e, parse s = .error e ∧ e.input = s ∧ e.offset ≤ s.length ∧ e.problem ≠ .outOfFuel) ∧
    ∀ fuel e, 2 * s.length + 2 ≤ fuel → parseTy fuel { rest := s.toList } = .error e → e.problem ≠ .outOfFuel := by
  have hleft : Input.left { rest := s.toList } = s.length := String.length_toList
  have hread : ∀ t, parse s = .ok t ↔ ∃ ps, Splits s.toList ps ∧ Derives ps t [] := by
    intro t
    obtain ⟨t', j, hty, hnil, hok⟩ | ⟨hnone, e, herr, -⟩ := parse_cases s
    · rw [hok, Except.ok.injEq]
      constructor
      · rintro rfl
        exact (sound _).ty _ _ _ _ hty hnil
      · rintro ⟨ps, hps, hder⟩
        obtain ⟨k, hk, -⟩ := (complete _).ty { rest := s.toList } _ _ _ (Nat.le_succ _) hps hder
        exact congrArg Prod.fst (Except.ok.inj (hty.symm.trans hk))
    · rw [herr]
      constructor
      · intro heq
        cases heq
      · rintro ⟨ps, hps, hder⟩
        obtain ⟨k, hk, hrest⟩ := (complete _).ty { rest := s.toList } _ _ _ (Nat.le_succ _) hps hder
        exact absurd hrest (hnone t k hk)
  refine ⟨hread, fun hno => ?_, fun fuel e hf => (fueled fuel).ty _ e (by omega)⟩
  obtain ⟨t, j, -, -, hok⟩ | ⟨-, herr⟩ := parse_cases s
  · obtain ⟨ps, hps, hder⟩ := (hread t).1 hok
    exact absurd ⟨t, ps, hps, hder⟩ hno
  · exact herr

/-- A list with a comma and no position before it is refused at the comma. -/
theorem parse_reads_grammar_comma :
    (¬ ∃ t ps, Splits "list(,)".toList ps ∧ Derives ps t []) ∧
    (∃ e, parse "list(,)" = .error e ∧ e.input = "list(,)" ∧ e.offset ≤ "list(,)".length ∧ e.problem ≠ .outOfFuel) ∧
    parseTy 20 { rest := "list(,)".toList } = .error ⟨5, .typeExpected⟩ ∧ SyntaxProblem.typeExpected ≠ .outOfFuel := by
  obtain ⟨hread, hrefuse, hfuel⟩ := parse_reads_grammar "list(,)"
  have hno : ¬ ∃ t ps, Splits "list(,)".toList ps ∧ Derives ps t [] := by
    rintro ⟨t, ps, h⟩
    have hok := (hread t).2 ⟨ps, h⟩
    rw [show parse "list(,)" = .error ⟨"list(,)", 5, .typeExpected⟩ by rfl] at hok
    cases hok
  have herror : parseTy 20 { rest := "list(,)".toList } = .error ⟨5, .typeExpected⟩ := by rfl
  exact ⟨hno, hrefuse hno, herror, hfuel 20 _ (by decide) herror⟩

end ClassCompiler.Ty
