import ClassCompiler.Proofs.Tree.Written
import Mathlib.Data.List.DropRight

namespace ClassCompiler.Ty

theorem isSpace_eq_false {c : Char} (h : isNameChar c = true) : isSpace c = false := by
  unfold isNameChar at h
  unfold isSpace
  simp only [Bool.or_eq_true, Bool.and_eq_true, decide_eq_true_eq] at h
  simp only [Bool.or_eq_false_iff, Bool.and_eq_false_iff, decide_eq_false_iff_not]
  omega

namespace Input

def ahead (i : Input) : List Char := i.rest.dropWhile isSpace

theorem ahead_skipSpace (i : Input) : i.skipSpace.ahead = i.ahead := List.dropWhile_idempotent isSpace i.rest

theorem ahead_of_rest {i : Input} {c : Char} {cs : List Char} (h : i.rest = c :: cs) (hc : isSpace c = false) :
    i.ahead = c :: cs := by
  rw [ahead, h, List.dropWhile_cons_of_neg (by simp [hc])]

/-- The name that comes next ends where the characters of names end. -/
theorem name_of_ahead {i : Input} {cs tail : List Char} (h : i.ahead = cs ++ tail) (hcs : ∀ c ∈ cs, isNameChar c = true)
    (htail : ∀ c ∈ tail.head?, isNameChar c = false) : ∃ j, i.name = (cs, j) ∧ j.rest = tail := by
  have htake : i.skipSpace.rest.takeWhile isNameChar = cs := by
    rw [show i.skipSpace.rest = cs ++ tail from h, List.takeWhile_append_of_pos hcs]
    cases tail with
    | nil => simp
    | cons c tail => simp [htail c rfl]
  refine ⟨i.skipSpace.advance cs.length, by simp only [name, htake], ?_⟩
  rw [advance, show i.skipSpace.rest = cs ++ tail from h, List.drop_left]

theorem token?_eq_some {i : Input} {s tail : List Char} (h : i.ahead = s ++ tail) :
    ∃ j, i.token? s = some j ∧ j.rest = tail := by
  refine ⟨i.skipSpace.advance s.length, if_pos (List.isPrefixOf_iff_prefix.2 ⟨tail, h.symm⟩), ?_⟩
  rw [advance, show i.skipSpace.rest = s ++ tail from h, List.drop_left]

theorem token?_eq_none {i : Input} {c : Char} {s : List Char} (h : i.ahead.head? ≠ some c) : i.token? (c :: s) = none := by
  refine if_neg fun hp => h ?_
  obtain ⟨tail, htail⟩ := List.isPrefixOf_iff_prefix.1 hp
  rw [ahead, show List.dropWhile isSpace i.rest = c :: s ++ tail from htail.symm]
  rfl

end Input

theorem expect_eq_ok {i : Input} {s : String} {tail : List Char} (h : i.ahead = s.toList ++ tail) :
    ∃ j, expect s i = .ok j ∧ j.rest = tail := by
  obtain ⟨j, hj, hrest⟩ := Input.token?_eq_some h
  exact ⟨j, by rw [expect, hj], hrest⟩

/-- What may stand behind a type: it goes on neither with the word that a type may end with nor with a bracket or a colon. -/
structure Ends (tail : List Char) : Prop where
  word : ∀ c ∈ tail.head?, isNameChar c = false
  ahead : ∀ c ∈ (tail.dropWhile isSpace).head?, c ≠ '(' ∧ c ≠ ':'

theorem Ends.nil : Ends [] := ⟨by simp, by simp⟩

theorem Ends.of_head {c : Char} {tail : List Char} (hword : isNameChar c = false) (hspace : isSpace c = false)
    (hopen : c ≠ '(' ∧ c ≠ ':') : Ends (c :: tail) := by
  refine ⟨by simp [hword], ?_⟩
  rw [List.dropWhile_cons_of_neg (by simp [hspace])]
  simpa using hopen

theorem Ends.arrow (tail : List Char) : Ends (' ' :: '-' :: tail) := by
  have hends : Ends ('-' :: tail) := .of_head (by decide) (by decide) (by decide)
  exact ⟨by simp; decide, by rw [List.dropWhile_cons_of_pos (by decide)]; exact hends.ahead⟩

def elemsChars : List (String × Ty) → List Char
  | [] => []
  | (n, t) :: es => elemName n ++ t.chars ++ elemsAfter es

def paramsChars : List Ty → List Char
  | [] => []
  | t :: ts => t.chars ++ charsAfter ts ++ [' ']

theorem chars_list (es : List (String × Ty)) : (list es).chars = "list(".toList ++ (elemsChars es ++ [')']) := by
  cases es with
  | nil => rfl
  | cons e es =>
    rw [chars.eq_def, elemsChars]
    simp only [List.append_assoc]

theorem chars_fptr (ps : List Ty) (r : Ty) :
    (fptr ps r).chars = "fptr(".toList ++ (paramsChars ps ++ ("-> ".toList ++ (r.chars ++ [')']))) := by
  cases ps with
  | nil => rfl
  | cons p ps =>
    rw [chars.eq_def, paramsChars, show " -> ".toList = [' '] ++ "-> ".toList from rfl]
    simp only [List.append_assoc]

/-- The text of a type begins with a word, which a bracket may follow. -/
theorem exists_word {t : Ty} (h : t.Written) :
    ∃ w r, t.chars = w ++ r ∧ w ≠ [] ∧ (∀ c ∈ w, isNameChar c = true) ∧ (r = [] ∨ ∃ s, r = '(' :: s) := by
  cases t with
  | null | noType => exact h.elim
  | int => exact ⟨"int".toList, [], rfl, by decide, List.all_eq_true.mp rfl, .inl rfl⟩
  | bool => exact ⟨"bool".toList, [], rfl, by decide, List.all_eq_true.mp rfl, .inl rfl⟩
  | string => exact ⟨"string".toList, [], rfl, by decide, List.all_eq_true.mp rfl, .inl rfl⟩
  | void => exact ⟨"void".toList, [], rfl, by decide, List.all_eq_true.mp rfl, .inl rfl⟩
  | cls n => exact ⟨n.toList, [], (List.append_nil _).symm, by simpa using h.1, h.2.2, .inl rfl⟩
  | fptr ps r => exact ⟨"fptr".toList, _, chars_fptr ps r, by decide, List.all_eq_true.mp rfl, .inr ⟨_, rfl⟩⟩
  | list es => exact ⟨"list".toList, _, chars_list es, by decide, List.all_eq_true.mp rfl, .inr ⟨_, rfl⟩⟩

def Starts (cs : List Char) : Prop := ∃ c ∈ cs.head?, isNameChar c = true

theorem Starts.append {cs : List Char} (h : Starts cs) (tail : List Char) : Starts (cs ++ tail) := by
  obtain ⟨c, hc, hname⟩ := h
  exact ⟨c, by simp [List.head?_append, Option.mem_def.1 hc], hname⟩

/-- What begins with a name is next even behind a space. -/
theorem Starts.ahead {cs : List Char} (h : Starts cs) {i : Input} (hi : i.rest = cs ∨ i.rest = ' ' :: cs) :
    i.ahead = cs := by
  obtain ⟨c, hc, hname⟩ := h
  obtain ⟨r, rfl⟩ := List.head?_eq_some_iff.1 hc
  have hspace := isSpace_eq_false hname
  obtain hi | hi := hi
  · exact Input.ahead_of_rest hi hspace
  · rw [Input.ahead, hi, List.dropWhile_cons_of_pos (by decide), List.dropWhile_cons_of_neg (by simp [hspace])]

/-- A token that begins with another character is not next where a name is. -/
theorem Starts.token?_eq_none {cs : List Char} (h : Starts cs) {i : Input} (hi : i.ahead = cs) {c : Char}
    (hc : isNameChar c = false) {s : List Char} : i.token? (c :: s) = none := by
  obtain ⟨d, hd, hname⟩ := h
  refine Input.token?_eq_none fun heq => ?_
  rw [hi, Option.mem_def.1 hd] at heq
  cases heq
  simp [hc] at hname

theorem starts_chars {t : Ty} (h : t.Written) : Starts t.chars := by
  obtain ⟨w, r, ht, hne, hw, -⟩ := exists_word h
  obtain ⟨c, w, rfl⟩ := List.exists_cons_of_ne_nil hne
  exact ⟨c, by rw [ht]; rfl, hw c List.mem_cons_self⟩

theorem starts_elems {es : List (String × Ty)} (hne : es ≠ []) (h : WrittenElems es) : Starts (elemsChars es) := by
  match es with
  | (n, t) :: es =>
    rw [elemsChars, List.append_assoc]
    unfold elemName
    split
    · exact (starts_chars h.2.1).append _
    · next hne =>
      obtain ⟨c, cs, hn⟩ := List.exists_cons_of_ne_nil (mt String.toList_eq_nil_iff.1 hne)
      exact ⟨c, by simp [hn], h.1 c (by simp [hn])⟩

/-- A position without a name begins with its type: behind the first word of that no colon comes. -/
theorem elemHead_unnamed {i : Input} {t : Ty} (h : t.Written) {tail : List Char} (htail : Ends tail)
    (hi : i.ahead = t.chars ++ tail) : elemHead i = ("", i) := by
  obtain ⟨w, r, ht, hne, hw, hr⟩ := exists_word h
  have hends : (∀ c ∈ (r ++ tail).head?, isNameChar c = false) ∧
      ((r ++ tail).dropWhile isSpace).head? ≠ some ':' := by
    obtain rfl | ⟨s, rfl⟩ := hr
    · exact ⟨htail.word, fun hc => (htail.ahead ':' hc).2 rfl⟩
    · exact ⟨by simp; decide, by simp [show isSpace '(' = false by decide]⟩
  obtain ⟨j, hj, hrest⟩ := Input.name_of_ahead (by rw [hi, ht, List.append_assoc]) hw hends.1
  have hcolon : j.token? [':'] = none := Input.token?_eq_none (by rw [Input.ahead, hrest]; exact hends.2)
  unfold elemHead
  rw [hj]
  split
  · next heq => exact absurd (congrArg Prod.fst heq) hne
  · next heq =>
    cases heq
    rw [hcolon]

theorem elemHead_named {i : Input} {n : String} (hn : n ≠ "") (hchars : NameChars n) {tail : List Char}
    (hi : i.ahead = n.toList ++ ':' :: tail) : ∃ j, elemHead i = (n, j) ∧ j.rest = tail := by
  obtain ⟨j, hj, hrest⟩ := Input.name_of_ahead hi hchars (by simp; decide)
  obtain ⟨k, hk, hkrest⟩ := Input.token?_eq_some (s := [':']) (Input.ahead_of_rest hrest (by decide))
  refine ⟨k, ?_, hkrest⟩
  unfold elemHead
  rw [hj]
  split
  · next heq => exact absurd (String.toList_eq_nil_iff.1 (congrArg Prod.fst heq)) hn
  · next heq =>
    cases heq
    rw [hk, String.ofList_toList]

theorem parse_elem {i : Input} {n : String} {t : Ty} (hn : NameChars n) (h : t.Written) {tail : List Char}
    (htail : Ends tail) (hi : i.ahead = elemName n ++ (t.chars ++ tail)) :
    ∃ j, elemHead i = (n, j) ∧ j.ahead = t.chars ++ tail := by
  unfold elemName at hi
  split at hi
  · next heq =>
    subst heq
    exact ⟨i, elemHead_unnamed h htail hi, hi⟩
  · next hne =>
    rw [show ": ".toList = [':', ' '] from rfl, List.append_assoc] at hi
    obtain ⟨j, hj, hrest⟩ := elemHead_named hne hn hi
    exact ⟨j, hj, ((starts_chars h).append tail).ahead (.inr hrest)⟩

theorem ahead_of_params {ts : List Ty} (h : WrittenAll ts) {tail : List Char} {i : Input}
    (hi : i.rest = paramsChars ts ++ '-' :: tail ∨ i.rest = ' ' :: (paramsChars ts ++ '-' :: tail)) :
    i.ahead = paramsChars ts ++ '-' :: tail := by
  match ts with
  | [] =>
    obtain hi | hi := hi
    · exact Input.ahead_of_rest hi (by decide)
    · rw [Input.ahead, hi, List.dropWhile_cons_of_pos (by decide)]
      exact List.dropWhile_cons_of_neg (by decide)
  | t :: ts =>
    have hstarts : Starts (paramsChars (t :: ts)) := by
      rw [paramsChars, List.append_assoc]
      exact (starts_chars h.1).append _
    exact (hstarts.append _).ahead hi

theorem length_chars_pos {t : Ty} (h : t.Written) : 0 < t.chars.length := by
  obtain ⟨w, r, ht, hne, -⟩ := exists_word h
  have hw := List.length_pos_iff.2 hne
  rw [ht, List.length_append]
  omega

/-- Any name but those of other types is read as that of a class; no bracket comes behind it. -/
theorem parseTy_cls {n : String} (h : (cls n).Written) {tail : List Char} (htail : Ends tail) {i : Input}
    (hi : i.ahead = n.toList ++ tail) (fuel : Nat) : ∃ j, parseTy (fuel + 1) i = .ok (.cls n, j) ∧ j.rest = tail := by
  obtain ⟨j, hj, hrest⟩ := Input.name_of_ahead hi h.2.2 htail.word
  have hopen : j.token? ['('] = none :=
    Input.token?_eq_none (by rw [Input.ahead, hrest]; exact fun hc => (htail.ahead '(' hc).1 rfl)
  refine ⟨j, ?_, hrest⟩
  obtain ⟨hne, hkey, -⟩ := h
  unfold parseTy
  rw [hj]
  simp only [String.ofList_toList, hopen]
  split <;> simp_all

theorem length_chars_list (es : List (String × Ty)) : (list es).chars.length = (elemsChars es).length + 6 := by
  rw [chars_list, List.length_append, List.length_append, show "list(".toList.length = 5 from rfl, List.length_singleton]
  omega

theorem length_chars_fptr (ps : List Ty) (r : Ty) :
    (fptr ps r).chars.length = (paramsChars ps).length + r.chars.length + 9 := by
  rw [chars_fptr]
  simp only [List.length_append, show "fptr(".toList.length = 5 from rfl, show "-> ".toList.length = 3 from rfl,
    List.length_singleton]
  omega

/-- The text of several positions after that of the first. -/
theorem elemsAfter_cons (n : String) (t : Ty) (es : List (String × Ty)) :
    elemsAfter ((n, t) :: es) = ',' :: ' ' :: elemsChars ((n, t) :: es) := by
  simp only [elemsAfter, elemsChars, List.append_assoc, show ", ".toList = [',', ' '] from rfl, List.cons_append,
    List.nil_append]

theorem charsAfter_cons (t : Ty) (ts : List Ty) : charsAfter (t :: ts) ++ [' '] = ',' :: ' ' :: paramsChars (t :: ts) := by
  simp only [charsAfter, paramsChars, List.append_assoc, show ", ".toList = [',', ' '] from rfl, List.cons_append,
    List.nil_append]

theorem length_paramsChars_le (ts : List Ty) : (paramsChars ts).length ≤ (charsAfter ts).length := by
  cases ts with
  | nil => simp [paramsChars]
  | cons t ts =>
    have hlen := congrArg List.length (charsAfter_cons t ts)
    simp only [List.length_append, List.length_cons, List.length_nil] at hlen
    omega

theorem ends_charsAfter (ts : List Ty) (tail : List Char) : Ends (charsAfter ts ++ ' ' :: '-' :: tail) := by
  cases ts with
  | nil => exact .arrow tail
  | cons t ts => exact .of_head (by decide) (by decide) (by decide)

theorem ahead_skipComma {ts : List Ty} (h : WrittenAll ts) {tail : List Char} {i : Input}
    (hi : i.rest = charsAfter ts ++ ' ' :: '-' :: tail) : (skipComma i).ahead = paramsChars ts ++ '-' :: tail := by
  match ts with
  | [] =>
    have hahead : i.ahead = '-' :: tail := ahead_of_params h (.inr hi)
    rw [skipComma, Input.token?_eq_none (by simp [hahead])]
    exact i.ahead_skipSpace.trans hahead
  | t :: ts =>
    rw [List.append_cons, charsAfter_cons] at hi
    have hcomma : i.ahead = [','] ++ _ := Input.ahead_of_rest hi (by decide)
    obtain ⟨j, hj, hrest⟩ := Input.token?_eq_some hcomma
    rw [skipComma, hj]
    exact ahead_of_params h (.inr hrest)

mutual

theorem parseTy_chars (t : Ty) (h : t.Written) {tail : List Char} (htail : Ends tail) {i : Input}
    (hi : i.ahead = t.chars ++ tail) (fuel : Nat) (hf : t.chars.length ≤ fuel) :
    ∃ j, parseTy fuel i = .ok (t, j) ∧ j.rest = tail := by
  have hpos := length_chars_pos h
  obtain ⟨fuel, rfl⟩ : ∃ n, fuel = n + 1 := ⟨fuel - 1, by omega⟩
  match t with
  | .int | .bool | .string | .void =>
    obtain ⟨j, hj, hrest⟩ := Input.name_of_ahead hi (List.all_eq_true.mp rfl) htail.word
    refine ⟨j, ?_, hrest⟩
    unfold parseTy
    rw [hj]
    rfl
  | .cls n => exact parseTy_cls h htail hi fuel
  | .list es =>
    rw [chars_list, List.append_assoc, show "list(".toList = "list".toList ++ ['('] from rfl, List.append_assoc,
      List.append_assoc, List.singleton_append] at hi
    rw [length_chars_list] at hf
    obtain ⟨j, hj, hrest⟩ := Input.name_of_ahead hi (List.all_eq_true.mp rfl) (by simp; decide)
    have hopen : j.ahead = ['('] ++ (elemsChars es ++ ')' :: tail) := Input.ahead_of_rest hrest (by decide)
    obtain ⟨k, hk, hkrest⟩ := Input.token?_eq_some hopen
    by_cases hes : es = []
    · subst hes
      have hclose : k.ahead = [')'] ++ tail := Input.ahead_of_rest hkrest (by decide)
      obtain ⟨l, hl, hlrest⟩ := Input.token?_eq_some hclose
      refine ⟨l, ?_, hlrest⟩
      unfold parseTy
      rw [hj]
      simp only [String.ofList_toList, hk, hl]
    · have hstarts := (starts_elems hes h).append (')' :: tail)
      have hahead := hstarts.ahead (.inl hkrest)
      have hclose : k.token? [')'] = none := hstarts.token?_eq_none hahead (by decide)
      obtain ⟨l, hl, hlrest⟩ := parseElems_chars es hes h (k.ahead_skipSpace.trans hahead) fuel (by omega)
      refine ⟨l, ?_, hlrest⟩
      unfold parseTy
      rw [hj]
      simp only [String.ofList_toList, hk, hclose, hl]
  | .fptr ps r =>
    rw [chars_fptr, show "fptr(".toList = "fptr".toList ++ ['('] from rfl, show "-> ".toList = ['-', '>', ' '] from rfl] at hi
    simp only [List.append_assoc, List.cons_append, List.nil_append] at hi
    rw [length_chars_fptr] at hf
    obtain ⟨j, hj, hrest⟩ := Input.name_of_ahead hi (List.all_eq_true.mp rfl) (by simp; decide)
    have hopen : j.ahead = ['('] ++ _ := Input.ahead_of_rest hrest (by decide)
    obtain ⟨k, hk, hkrest⟩ := Input.token?_eq_some hopen
    obtain ⟨l, hl, hlrest⟩ := parseParams_chars ps h.1 (ahead_of_params h.1 (.inl hkrest)) fuel (by omega)
    have hends : Ends (')' :: tail) := .of_head (by decide) (by decide) (by decide)
    obtain ⟨x, hx, hxrest⟩ := parseTy_chars r h.2 hends (((starts_chars h.2).append _).ahead (.inr hlrest)) fuel (by omega)
    have hclose : x.ahead = ")".toList ++ tail := Input.ahead_of_rest hxrest (by decide)
    obtain ⟨y, hy, hyrest⟩ := expect_eq_ok hclose
    refine ⟨y, ?_, hyrest⟩
    unfold parseTy
    rw [hj]
    simp only [String.ofList_toList, hk, hl, hx, hy]

/-- The positions of a list type are read up to the bracket that closes it. -/
theorem parseElems_chars (es : List (String × Ty)) (hne : es ≠ []) (h : WrittenElems es) {tail : List Char} {i : Input}
    (hi : i.ahead = elemsChars es ++ ')' :: tail) (fuel : Nat) (hf : (elemsChars es).length < fuel) :
    ∃ j, parseElems fuel i = .ok (es, j) ∧ j.rest = tail := by
  obtain ⟨fuel, rfl⟩ : ∃ n, fuel = n + 1 := ⟨fuel - 1, by omega⟩
  match es with
  | [(n, t)] =>
    rw [elemsChars, elemsAfter] at hi hf
    simp only [List.append_assoc, List.length_append, List.nil_append] at hi hf
    have hends : Ends (')' :: tail) := .of_head (by decide) (by decide) (by decide)
    obtain ⟨j, hj, hahead⟩ := parse_elem h.1 h.2.1 hends hi
    obtain ⟨k, hk, hkrest⟩ := parseTy_chars t h.2.1 hends hahead fuel (by omega)
    have hclose : k.ahead = ")".toList ++ tail := Input.ahead_of_rest hkrest (by decide)
    have hcomma : k.token? [','] = none := Input.token?_eq_none (by simp [hclose])
    obtain ⟨l, hl, hlrest⟩ := expect_eq_ok hclose
    refine ⟨l, ?_, hlrest⟩
    unfold parseElems
    simp only [hj, hk, hcomma, hl]
  | (n, t) :: (n', t') :: es =>
    rw [elemsChars, elemsAfter_cons] at hi hf
    simp only [List.append_assoc, List.length_append, List.length_cons, List.cons_append] at hi hf
    have hends : Ends (',' :: ' ' :: (elemsChars ((n', t') :: es) ++ ')' :: tail)) :=
      .of_head (by decide) (by decide) (by decide)
    obtain ⟨j, hj, hahead⟩ := parse_elem h.1 h.2.1 hends hi
    obtain ⟨k, hk, hkrest⟩ := parseTy_chars t h.2.1 hends hahead fuel (by omega)
    have hcomma : k.ahead = [','] ++ _ := Input.ahead_of_rest hkrest (by decide)
    obtain ⟨l, hl, hlrest⟩ := Input.token?_eq_some hcomma
    have hnext := ((starts_elems (by simp) h.2.2).append (')' :: tail)).ahead (.inr hlrest)
    obtain ⟨x, hx, hxrest⟩ := parseElems_chars ((n', t') :: es) (by simp) h.2.2 hnext fuel (by omega)
    refine ⟨x, ?_, hxrest⟩
    unfold parseElems
    simp only [hj, hk, hl, hx]

/-- The parameters of a method reference are read up to its arrow. -/
theorem parseParams_chars (ts : List Ty) (h : WrittenAll ts) {tail : List Char} {i : Input}
    (hi : i.ahead = paramsChars ts ++ '-' :: '>' :: tail) (fuel : Nat) (hf : (paramsChars ts).length < fuel) :
    ∃ j, parseParams fuel i = .ok (ts, j) ∧ j.rest = tail := by
  obtain ⟨fuel, rfl⟩ : ∃ n, fuel = n + 1 := ⟨fuel - 1, by omega⟩
  match ts with
  | [] =>
    have harrow : i.ahead = ['-', '>'] ++ tail := hi
    obtain ⟨j, hj, hrest⟩ := Input.token?_eq_some harrow
    refine ⟨j, ?_, hrest⟩
    unfold parseParams
    simp only [hj]
  | t :: ts =>
    rw [paramsChars] at hi hf
    simp only [List.append_assoc, List.length_append, List.singleton_append, List.length_singleton] at hi hf
    have harrow : i.token? ['-', '>'] = none := ((starts_chars h.1).append _).token?_eq_none hi (by decide)
    obtain ⟨j, hj, hrest⟩ := parseTy_chars t h.1 (ends_charsAfter ts _) (i.ahead_skipSpace.trans hi) fuel (by omega)
    have hlen := length_paramsChars_le ts
    obtain ⟨k, hk, hkrest⟩ := parseParams_chars ts h.2 (ahead_skipComma h.2 hrest) fuel (by omega)
    refine ⟨k, ?_, hkrest⟩
    unfold parseParams
    simp only [harrow, hj, hk]

end

theorem parse_text {t : Ty} (h : t.Written) : parse t.text = .ok t := by
  have htext : t.text.toList = t.chars := String.toList_ofList
  have hahead : Input.ahead { rest := t.chars } = t.chars ++ [] :=
    (List.append_nil t.chars).symm ▸ (starts_chars h).ahead (.inl rfl)
  obtain ⟨j, hj, hrest⟩ := parseTy_chars t h .nil hahead (2 * t.chars.length + 2) (by omega)
  have hend : j.skipSpace.rest.isEmpty = true := by simp [Input.skipSpace, hrest]
  unfold parse
  simp only [htext, hj, hend, if_true]

/-- Types that can be written are read back from their text, and reading yields no other types, so that what was read
from any text is read again from its own. -/
theorem type_text_round_trips :
    (∀ t : Ty, t.Written → parse t.text = .ok t) ∧
      ∀ (s : String) (t : Ty), parse s = .ok t → t.Written ∧ parse t.text = .ok t :=
  ⟨fun _ => parse_text, fun _ _ h => ⟨parse_written h, parse_text (parse_written h)⟩⟩

/-- Classes and positions may be called like the words that begin other types. -/
theorem type_text_round_trips_words :
    parse (list [("list", .cls "list"), ("", .fptr [.cls "fptr", .void] (.list []))]).text =
        .ok (list [("list", .cls "list"), ("", .fptr [.cls "fptr", .void] (.list []))]) ∧
      parse (list [("a", .int), ("", .list [("", .bool)])]).text = .ok (list [("a", .int), ("", .list [("", .bool)])]) := by
  refine ⟨type_text_round_trips.1 _ ?_, (type_text_round_trips.2 " list( a : int , list(bool)) " _ (by rfl)).2⟩
  simp only [Written, WrittenElems, WrittenAll]
  decide

end ClassCompiler.Ty
