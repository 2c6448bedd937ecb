import ClassCompiler.Proofs.Build.Keys
import ClassCompiler.Text.Quoted
import Mathlib.Tactic.IntervalCases

namespace ClassCompiler

namespace Octets

theorem toList_loop (bytes : ByteArray) (i : Nat) (before : List UInt8) :
    ByteArray.toList.loop bytes i before = before.reverse ++ bytes.data.toList.drop i := by
  fun_induction ByteArray.toList.loop bytes i before with
  | case1 i before hlt ih =>
    have hdrop : bytes.data.toList.drop i = bytes.get! i :: bytes.data.toList.drop (i + 1) := by
      rw [List.drop_eq_getElem_cons (show i < bytes.data.toList.length from hlt)]
      simp [ByteArray.get!, hlt]
    rw [ih, hdrop, List.reverse_cons, List.append_assoc, List.singleton_append]
  | case2 i before hle =>
    rw [List.drop_of_length_le (show bytes.data.toList.length ≤ i from Nat.le_of_not_lt hle), List.append_nil]

def octetsOf (c : Char) : List Char := (String.utf8EncodeChar c).map Char.ofUInt8

theorem toList_ofUnicode (cs : List Char) : (ofUnicode (String.ofList cs)).toList = cs.flatMap octetsOf := by
  have hbytes : (String.ofList cs).toUTF8.toList = cs.flatMap String.utf8EncodeChar := by
    rw [String.toUTF8_eq_toByteArray, String.toByteArray_ofList, ByteArray.toList, toList_loop]
    simp [List.utf8Encode]
  rw [ofUnicode, String.toList_ofList, hbytes, List.map_flatMap]
  rfl

theorem ofUInt8_inj {a b : UInt8} (h : Char.ofUInt8 a = Char.ofUInt8 b) : a = b :=
  UInt8.toNat_inj.1 (congrArg Char.toNat h)

theorem flatMap_octetsOf_inj {cs ds : List Char} (h : cs.flatMap octetsOf = ds.flatMap octetsOf) : cs = ds := by
  have hbytes : cs.flatMap String.utf8EncodeChar = ds.flatMap String.utf8EncodeChar := by
    rw [← List.map_inj_right fun _ _ => ofUInt8_inj, List.map_flatMap, List.map_flatMap]
    exact h
  have hutf : (String.ofList cs).toByteArray = (String.ofList ds).toByteArray := by
    rw [String.toByteArray_ofList, String.toByteArray_ofList, List.utf8Encode, List.utf8Encode, hbytes]
  exact String.ofList_inj.1 (String.toByteArray_inj.1 hutf)

theorem toNat_ofUInt8 {n : Nat} (h : n < 256) : (Char.ofUInt8 (UInt8.ofNat n)).toNat = n :=
  Nat.mod_eq_of_lt h

theorem eq_ofUInt8 {c : Char} {n : Nat} (hc : c.toNat < 256) (h : n = c.toNat) : Char.ofUInt8 (UInt8.ofNat n) = c :=
  Char.toNat_inj.1 (h ▸ toNat_ofUInt8 (h ▸ hc))

theorem octetsOf_of_lt {c : Char} (h : c.toNat < 0x80) : octetsOf c = [c] := by
  rw [octetsOf, String.utf8EncodeChar]
  simp only [show c.val.toNat ≤ 127 from Nat.le_of_lt_succ h, if_true, List.map_cons, List.map_nil]
  exact congrArg (fun d => [d]) (eq_ofUInt8 (by omega) rfl)

/-- A character beyond ASCII has no octet in ASCII. -/
theorem le_of_mem_octetsOf {c d : Char} (h : 0x80 ≤ c.toNat) (hd : d ∈ octetsOf c) : 0x80 ≤ d.toNat := by
  obtain ⟨b, hb, rfl⟩ := List.mem_map.1 hd
  have hhigh (n : Nat) (hn : 0x80 ≤ n ∧ n < 256) : 0x80 ≤ (Char.ofUInt8 (UInt8.ofNat n)).toNat := by
    rw [toNat_ofUInt8 hn.2]
    exact hn.1
  rw [String.utf8EncodeChar] at hb
  simp only [show ¬ c.val.toNat ≤ 127 from Nat.not_le.2 h, if_false] at hb
  split at hb
  · simp only [List.mem_cons, List.not_mem_nil, or_false] at hb
    obtain rfl | rfl := hb <;> exact hhigh _ (by omega)
  · split at hb
    · simp only [List.mem_cons, List.not_mem_nil, or_false] at hb
      obtain rfl | rfl | rfl := hb <;> exact hhigh _ (by omega)
    · simp only [List.mem_cons, List.not_mem_nil, or_false] at hb
      obtain rfl | rfl | rfl | rfl := hb <;> exact hhigh _ (by omega)

theorem toNat_ofNat {v : Nat} (h : v.isValidChar) : (Char.ofNat v).val.toNat = v := by
  rw [Char.ofNat, dif_pos h]
  rfl

theorem octetsOf_two {a b : Char} {v : Nat} (ha : 0xC2 ≤ a.toNat ∧ a.toNat ≤ 0xDF) (hb : isTail b = true)
    (hv : (a.toNat - 0xC0) * 0x40 + low6 b = v) : octetsOf (Char.ofNat v) = [a, b] := by
  simp only [isTail, Bool.and_eq_true, decide_eq_true_eq] at hb
  unfold low6 at hv
  rw [octetsOf, String.utf8EncodeChar, toNat_ofNat (.inl (by omega))]
  simp only [show ¬ v ≤ 127 by omega, show v ≤ 2047 by omega, if_true, if_false, List.map_cons, List.map_nil]
  rw [eq_ofUInt8 (c := a) (by omega) (by omega), eq_ofUInt8 (c := b) (by omega) (by omega)]

theorem octetsOf_three {a b c : Char} {v : Nat} (ha : 0xE0 ≤ a.toNat ∧ a.toNat ≤ 0xEF) (hb : isTail b = true)
    (hc : isTail c = true) (hv : (a.toNat - 0xE0) * 0x1000 + low6 b * 0x40 + low6 c = v) (hlow : 0x800 ≤ v)
    (hplain : ¬ (0xD800 ≤ v ∧ v ≤ 0xDFFF)) : octetsOf (Char.ofNat v) = [a, b, c] := by
  simp only [isTail, Bool.and_eq_true, decide_eq_true_eq] at hb hc
  unfold low6 at hv
  rw [octetsOf, String.utf8EncodeChar, toNat_ofNat (by unfold Nat.isValidChar; omega)]
  simp only [show ¬ v ≤ 127 by omega, show ¬ v ≤ 2047 by omega, show v ≤ 65535 by omega, if_true, if_false,
    List.map_cons, List.map_nil]
  rw [eq_ofUInt8 (c := a) (by omega) (by omega), eq_ofUInt8 (c := b) (by omega) (by omega),
    eq_ofUInt8 (c := c) (by omega) (by omega)]

theorem octetsOf_four {a b c d : Char} {v : Nat} (ha : 0xF0 ≤ a.toNat ∧ a.toNat ≤ 0xF4) (hb : isTail b = true)
    (hc : isTail c = true) (hd : isTail d = true)
    (hv : (a.toNat - 0xF0) * 0x40000 + low6 b * 0x1000 + low6 c * 0x40 + low6 d = v)
    (hplain : 0x10000 ≤ v ∧ v ≤ 0x10FFFF) : octetsOf (Char.ofNat v) = [a, b, c, d] := by
  simp only [isTail, Bool.and_eq_true, decide_eq_true_eq] at hb hc hd
  unfold low6 at hv
  rw [octetsOf, String.utf8EncodeChar, toNat_ofNat (by unfold Nat.isValidChar; omega)]
  simp only [show ¬ v ≤ 127 by omega, show ¬ v ≤ 2047 by omega, show ¬ v ≤ 65535 by omega, if_false,
    List.map_cons, List.map_nil]
  rw [eq_ofUInt8 (c := a) (by omega) (by omega), eq_ofUInt8 (c := b) (by omega) (by omega),
    eq_ofUInt8 (c := c) (by omega) (by omega), eq_ofUInt8 (c := d) (by omega) (by omega)]

/-- What is read as a character are the octets of that character. -/
theorem readChar?_octets {a c : Char} {rest : List Char} {n : Nat} (h : readChar? a rest = some (c, n)) :
    octetsOf c = a :: rest.take n := by
  unfold readChar? at h
  simp only [Bool.and_eq_true, decide_eq_true_eq, Bool.not_eq_true', Bool.and_eq_false_iff, decide_eq_false_iff_not] at h
  split at h
  · next hlt =>
    obtain ⟨rfl, rfl⟩ := Prod.mk.inj (Option.some.inj h)
    exact octetsOf_of_lt hlt
  · split at h
    · next ha =>
      split at h
      · next b rest =>
        split at h
        · next hb =>
          obtain ⟨rfl, rfl⟩ := Prod.mk.inj (Option.some.inj h)
          exact octetsOf_two ha hb rfl
        · cases h
      · cases h
    · split at h
      · next ha =>
        split at h
        · next b c rest =>
          split at h
          · next hbc =>
            obtain ⟨rfl, rfl⟩ := Prod.mk.inj (Option.some.inj h)
            exact octetsOf_three ha hbc.1.1.1 hbc.1.1.2 rfl hbc.1.2 (by omega)
          · cases h
        · cases h
      · split at h
        · next ha =>
          split at h
          · next b c d rest =>
            split at h
            · next hbcd =>
              obtain ⟨rfl, rfl⟩ := Prod.mk.inj (Option.some.inj h)
              exact octetsOf_four ha hbcd.1.1.1.1 hbcd.1.1.1.2 hbcd.1.1.2 rfl ⟨hbcd.1.2, hbcd.2⟩
            · cases h
          · cases h
        · cases h

def Piece.octets : Piece → List Char
  | .char c => octetsOf c
  | .stray o => [o]

theorem flatMap_octets_piecesFrom (skip : Nat) (cs : List Char) :
    (piecesFrom skip cs).flatMap Piece.octets = cs.drop skip := by
  induction cs generalizing skip with
  | nil => simp [piecesFrom]
  | cons a rest ih =>
    cases skip with
    | succ skip => exact ih skip
    | zero =>
      rw [piecesFrom]
      split
      · next c more hread =>
        rw [List.flatMap_cons, ih, Piece.octets, readChar?_octets hread, List.cons_append, List.take_append_drop]
        rfl
      · rw [List.flatMap_cons, ih]
        rfl

theorem pieces_inj {s t : String} (h : pieces s = pieces t) : s = t := by
  have hs := flatMap_octets_piecesFrom 0 s.toList
  rw [show piecesFrom 0 s.toList = piecesFrom 0 t.toList from h, flatMap_octets_piecesFrom] at hs
  exact String.toList_inj.1 hs.symm

/-- A stray octet is one of the text and none of ASCII. -/
theorem stray_of_mem_piecesFrom {o : Char} {skip : Nat} {cs : List Char} (h : .stray o ∈ piecesFrom skip cs) :
    0x80 ≤ o.toNat ∧ o ∈ cs := by
  induction cs generalizing skip with
  | nil => simp [piecesFrom] at h
  | cons a rest ih =>
    cases skip with
    | succ skip => exact (ih h).imp_right (List.mem_cons_of_mem a)
    | zero =>
      rw [piecesFrom] at h
      split at h
      · simp only [List.mem_cons, reduceCtorEq, false_or] at h
        exact (ih h).imp_right (List.mem_cons_of_mem a)
      · next hread =>
        simp only [List.mem_cons, Piece.stray.injEq] at h
        obtain rfl | h := h
        · refine ⟨?_, List.mem_cons_self⟩
          by_contra hlt
          simp [readChar?, Nat.lt_of_not_le hlt] at hread
        · exact (ih h).imp_right (List.mem_cons_of_mem a)

end Octets

namespace Text

open Octets

def hexDigitValue (c : Char) : Nat := if c.toNat < 0x3A then c.toNat - 0x30 else c.toNat - 0x57

def hexValue (cs : List Char) : Nat := cs.foldl (fun n c => n * 16 + hexDigitValue c) 0

theorem hexDigitValue_hexDigit {n : Nat} (h : n < 16) : hexDigitValue (hexDigit n) = n := by
  interval_cases n <;> rfl

theorem length_hex (width n : Nat) : (hex width n).length = width := by
  induction width generalizing n with
  | zero => rfl
  | succ width ih => simp [hex, ih]

theorem hexValue_hex {width n : Nat} (h : n < 16 ^ width) : hexValue (hex width n) = n := by
  induction width generalizing n with
  | zero => simpa [hex, hexValue, eq_comm] using h
  | succ width ih =>
    have hhigh : hexValue (hex width (n / 16)) = n / 16 := ih (by rw [Nat.pow_succ] at h; omega)
    have hlow := hexDigitValue_hexDigit (Nat.mod_lt n (show 0 < 16 by decide))
    rw [hex, hexValue, List.foldl_append, List.foldl_cons, List.foldl_nil, ← hexValue, hhigh, hlow]
    omega

def quotePiece : Octets.Piece → List Char
  | .char c => quoteChar c
  | .stray o => '\\' :: 'x' :: hex 2 o.toNat

theorem quote_eq (s : String) :
    quote s = ofUnicode (String.ofList ('"' :: (pieces s).flatMap quotePiece ++ ['"'])) := rfl

/-- The character that a letter behind a backslash stands for. -/
def unescape (c : Char) : Char :=
  match c with
  | 'a' => Char.ofNat 0x07
  | 'b' => Char.ofNat 0x08
  | 'f' => Char.ofNat 0x0C
  | 'n' => Char.ofNat 0x0A
  | 'r' => Char.ofNat 0x0D
  | 't' => Char.ofNat 0x09
  | 'v' => Char.ofNat 0x0B
  | c => c

/-- The first piece between quotes and what follows it. -/
def readPiece? : List Char → Option (Octets.Piece × List Char)
  | [] => none
  | '\\' :: 'x' :: cs =>
    let c := Char.ofNat (hexValue (cs.take 2))
    some (if c.toNat < 0x80 then .char c else .stray c, cs.drop 2)
  | '\\' :: 'u' :: cs => some (.char (Char.ofNat (hexValue (cs.take 4))), cs.drop 4)
  | '\\' :: 'U' :: cs => some (.char (Char.ofNat (hexValue (cs.take 8))), cs.drop 8)
  | '\\' :: c :: cs => some (.char (unescape c), cs)
  | c :: cs => some (.char c, cs)

def IsPiece : Octets.Piece → Prop
  | .char _ => True
  | .stray o => 0x80 ≤ o.toNat ∧ o.toNat < 256

theorem take_hex_append (width n : Nat) (rest : List Char) :
    (hex width n ++ rest).take width = hex width n ∧ (hex width n ++ rest).drop width = rest := by
  have hlen := length_hex width n
  exact ⟨by rw [List.take_append_of_le_length hlen.ge, List.take_of_length_le hlen.le], by
    rw [List.drop_append_of_le_length hlen.ge, List.drop_of_length_le hlen.le, List.nil_append]⟩

theorem ofNat_hexValue_hex {width : Nat} {c : Char} (h : c.toNat < 16 ^ width) :
    Char.ofNat (hexValue (hex width c.toNat)) = c := by
  rw [hexValue_hex h, Char.ofNat_toNat]

theorem readPiece?_short {c e : Char} (h : shortEscape? c = some e) (rest : List Char) :
    readPiece? ('\\' :: e :: rest) = some (.char c, rest) := by
  have hchar {n : Nat} (hn : c.toNat = n) : c = Char.ofNat n := hn ▸ (Char.ofNat_toNat c).symm
  unfold shortEscape? at h
  split at h
  case h_8 => cases h
  all_goals
    cases h
    rw [hchar ‹_›]
    rfl

theorem readPiece?_quoteChar (c : Char) (rest : List Char) :
    readPiece? (quoteChar c ++ rest) = some (.char c, rest) := by
  have hbound : c.toNat < 0x110000 := by
    have hvalid : c.toNat < 0xD800 ∨ 0xDFFF < c.toNat ∧ c.toNat < 0x110000 := c.valid
    omega
  unfold quoteChar
  split
  · next hc =>
    simp only [Bool.or_eq_true, decide_eq_true_eq] at hc
    obtain rfl | rfl := hc <;> rfl
  · next hc =>
    simp only [Bool.or_eq_true, decide_eq_true_eq, not_or] at hc
    split
    · rw [List.singleton_append]
      exact readPiece?.eq_6 _ _ (by simp [hc.2]) (by simp [hc.2]) (by simp [hc.2]) (by simp [hc.2])
    · split
      · next e he => exact readPiece?_short he rest
      · split
        · next hlow =>
          simp only [Bool.or_eq_true, decide_eq_true_eq] at hlow
          obtain ⟨htake, hdrop⟩ := take_hex_append 2 c.toNat rest
          rw [List.cons_append, List.cons_append, readPiece?, htake, hdrop, ofNat_hexValue_hex (by omega)]
          simp only [show c.toNat < 0x80 by omega, if_true]
        · split
          · next hlow =>
            obtain ⟨htake, hdrop⟩ := take_hex_append 4 c.toNat rest
            rw [List.cons_append, List.cons_append, readPiece?, htake, hdrop, ofNat_hexValue_hex (by omega)]
          · obtain ⟨htake, hdrop⟩ := take_hex_append 8 c.toNat rest
            rw [List.cons_append, List.cons_append, readPiece?, htake, hdrop, ofNat_hexValue_hex (by omega)]

/-- A piece is read from its quoted form, whatever follows it. -/
theorem readPiece?_quotePiece {p : Octets.Piece} (h : IsPiece p) (rest : List Char) :
    readPiece? (quotePiece p ++ rest) = some (p, rest) := by
  cases p with
  | char c => exact readPiece?_quoteChar c rest
  | stray o =>
    obtain ⟨hlow, hhigh⟩ := h
    obtain ⟨htake, hdrop⟩ := take_hex_append 2 o.toNat rest
    rw [quotePiece, List.cons_append, List.cons_append, readPiece?, htake, hdrop, ofNat_hexValue_hex hhigh]
    simp only [show ¬ o.toNat < 0x80 by omega, if_false]

theorem flatMap_quotePiece_inj {ps qs : List Octets.Piece} (hp : ∀ p ∈ ps, IsPiece p) (hq : ∀ q ∈ qs, IsPiece q)
    (h : ps.flatMap quotePiece = qs.flatMap quotePiece) : ps = qs := by
  induction ps generalizing qs with
  | nil =>
    cases qs with
    | nil => rfl
    | cons q qs =>
      have hread := readPiece?_quotePiece (hq q List.mem_cons_self) (qs.flatMap quotePiece)
      rw [← List.flatMap_cons, ← h] at hread
      cases hread
  | cons p ps ih =>
    have hread := readPiece?_quotePiece (hp p List.mem_cons_self) (ps.flatMap quotePiece)
    rw [← List.flatMap_cons, h] at hread
    cases qs with
    | nil => cases hread
    | cons q qs =>
      rw [List.flatMap_cons, readPiece?_quotePiece (hq q List.mem_cons_self)] at hread
      obtain ⟨rfl, hrest⟩ := Prod.mk.inj (Option.some.inj hread)
      rw [ih (fun p hm => hp p (List.mem_cons_of_mem _ hm)) (fun q hm => hq q (List.mem_cons_of_mem _ hm)) hrest.symm]

/-- Text in which every quote has a backslash in front of it, and every backslash escapes a character of ASCII. -/
inductive Enclosed : List Char → Prop where
  | nil : Enclosed []
  | plain {c cs} (hquote : c ≠ '"') (hslash : c ≠ '\\') (h : Enclosed cs) : Enclosed (c :: cs)
  | escaped {c cs} (hc : c.toNat < 0x80) (h : Enclosed cs) : Enclosed ('\\' :: c :: cs)

theorem Enclosed.append {cs ds : List Char} (hc : Enclosed cs) (hd : Enclosed ds) : Enclosed (cs ++ ds) := by
  induction hc with
  | nil => exact hd
  | plain hquote hslash _ ih => exact .plain hquote hslash ih
  | escaped hc _ ih => exact .escaped hc ih

theorem Enclosed.of_forall {cs : List Char} (h : ∀ c ∈ cs, c ≠ '"' ∧ c ≠ '\\') : Enclosed cs := by
  induction cs with
  | nil => exact .nil
  | cons c cs ih =>
    obtain ⟨hc, hcs⟩ := List.forall_mem_cons.1 h
    exact .plain hc.1 hc.2 (ih hcs)

theorem enclosed_octetsOf {c : Char} (hquote : c ≠ '"') (hslash : c ≠ '\\') : Enclosed (octetsOf c) := by
  refine .of_forall fun d hd => ?_
  by_cases hlt : c.toNat < 0x80
  · rw [octetsOf_of_lt hlt] at hd
    obtain rfl := List.mem_singleton.1 hd
    exact ⟨hquote, hslash⟩
  · have hhigh := le_of_mem_octetsOf (Nat.le_of_not_lt hlt) hd
    exact ⟨fun heq => absurd (heq ▸ hhigh) (by decide), fun heq => absurd (heq ▸ hhigh) (by decide)⟩

theorem Enclosed.flatMap_octetsOf {cs : List Char} (h : Enclosed cs) : Enclosed (cs.flatMap octetsOf) := by
  induction h with
  | nil => exact .nil
  | plain hquote hslash _ ih => exact (enclosed_octetsOf hquote hslash).append ih
  | escaped hc _ ih =>
    rw [List.flatMap_cons, List.flatMap_cons, octetsOf_of_lt (by decide), octetsOf_of_lt hc]
    exact .escaped hc ih

/-- The first quote without a backslash ends the text. -/
theorem Enclosed.append_quote_inj {cs ds r r' : List Char} (hc : Enclosed cs) (hd : Enclosed ds)
    (h : cs ++ '"' :: r = ds ++ '"' :: r') : cs = ds ∧ r = r' := by
  induction hc generalizing ds with
  | nil =>
    cases hd with
    | nil => exact ⟨rfl, (List.cons.inj h).2⟩
    | plain hquote => exact absurd (List.cons.inj h).1.symm hquote
    | escaped => exact absurd (List.cons.inj h).1 (by decide)
  | plain hquote hslash _ ih =>
    cases hd with
    | nil => exact absurd (List.cons.inj h).1 hquote
    | plain _ _ hd =>
      obtain ⟨rfl, htail⟩ := List.cons.inj h
      obtain ⟨rfl, hr⟩ := ih hd htail
      exact ⟨rfl, hr⟩
    | escaped => exact absurd (List.cons.inj h).1 hslash
  | escaped _ _ ih =>
    cases hd with
    | nil => exact absurd (List.cons.inj h).1 (by decide)
    | plain _ hslash => exact absurd (List.cons.inj h).1.symm hslash
    | escaped _ hd =>
      obtain ⟨rfl, htail⟩ := List.cons.inj (List.cons.inj h).2
      obtain ⟨rfl, hr⟩ := ih hd htail
      exact ⟨rfl, hr⟩

theorem hex_plain (width n : Nat) : ∀ c ∈ hex width n, c ≠ '"' ∧ c ≠ '\\' := by
  have hdigit (k : Nat) (hk : k < 16) : hexDigit k ≠ '"' ∧ hexDigit k ≠ '\\' := by interval_cases k <;> decide
  induction width generalizing n with
  | zero => simp [hex]
  | succ width ih =>
    intro c hc
    rw [hex, List.mem_append, List.mem_singleton] at hc
    obtain hc | rfl := hc
    · exact ih _ c hc
    · exact hdigit _ (Nat.mod_lt n (by decide))

theorem enclosed_escaped_hex {c : Char} (hc : c.toNat < 0x80) (width n : Nat) : Enclosed ('\\' :: c :: hex width n) :=
  .escaped hc (.of_forall (hex_plain width n))

theorem enclosed_quoteChar (c : Char) : Enclosed (quoteChar c) := by
  unfold quoteChar
  split
  · next hc =>
    simp only [Bool.or_eq_true, decide_eq_true_eq] at hc
    exact .escaped (by obtain rfl | rfl := hc <;> decide) .nil
  · next hc =>
    simp only [Bool.or_eq_true, decide_eq_true_eq, not_or] at hc
    split
    · exact .plain hc.1 hc.2 .nil
    · split
      · next e he =>
        refine .escaped ?_ .nil
        unfold shortEscape? at he
        split at he <;> cases he <;> decide
      · split
        · exact enclosed_escaped_hex (by decide) _ _
        · split <;> exact enclosed_escaped_hex (by decide) _ _

theorem enclosed_quotePieces (ps : List Octets.Piece) : Enclosed (ps.flatMap quotePiece) := by
  induction ps with
  | nil => exact .nil
  | cons p ps ih =>
    rw [List.flatMap_cons]
    refine Enclosed.append ?_ ih
    cases p with
    | char c => exact enclosed_quoteChar c
    | stray o => exact enclosed_escaped_hex (by decide) _ _

theorem toList_quote (s : String) :
    (quote s).toList = '"' :: (((pieces s).flatMap quotePiece).flatMap octetsOf ++ ['"']) := by
  rw [quote_eq, toList_ofUnicode, List.cons_append, List.flatMap_cons, List.flatMap_append]
  rfl

theorem isPiece_of_mem {s : String} (h : IsText s) {p : Octets.Piece} (hp : p ∈ pieces s) : IsPiece p := by
  cases p with
  | char c => trivial
  | stray o =>
    obtain ⟨hlow, hmem⟩ := stray_of_mem_piecesFrom hp
    exact ⟨hlow, h o hmem⟩

/-- A quoted text says what it quotes and where it ends. -/
theorem quote_append_inj {s t : String} (hs : IsText s) (ht : IsText t) {r r' : List Char}
    (h : (quote s).toList ++ r = (quote t).toList ++ r') : s = t ∧ r = r' := by
  rw [toList_quote, toList_quote, List.cons_append, List.cons_append, List.append_assoc, List.append_assoc] at h
  obtain ⟨hbody, hr⟩ := (enclosed_quotePieces _).flatMap_octetsOf.append_quote_inj
    (enclosed_quotePieces _).flatMap_octetsOf (List.cons.inj h).2
  have hpieces : pieces s = pieces t := flatMap_quotePiece_inj (fun _ => isPiece_of_mem hs) (fun _ => isPiece_of_mem ht)
    (flatMap_octetsOf_inj hbody)
  exact ⟨pieces_inj hpieces, hr⟩

end Text
end ClassCompiler
