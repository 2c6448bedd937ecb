import ClassCompiler.Project.Basic
import Mathlib.Tactic.Common

namespace ClassCompiler

namespace Octets

def IsText (s : String) : Prop := ∀ c ∈ s.toList, c.toNat < 256

def IsSource (s : String) : Prop := ∀ c ∈ s.toList, 0 < c.toNat ∧ c.toNat < 256

instance : DecidablePred IsText := fun s => List.decidableBAll (fun c : Char => c.toNat < 256) s.toList

instance : DecidablePred IsSource := fun s => List.decidableBAll (fun c : Char => 0 < c.toNat ∧ c.toNat < 256) s.toList

theorem IsSource.isText {s : String} (h : IsSource s) : IsText s := fun c hc => (h c hc).2

theorem toBytes_append (s t : String) : toBytes (s ++ t) = toBytes s ++ toBytes t := by
  simp [toBytes]

theorem toBytes_inj {s t : String} (hs : IsText s) (ht : IsText t) (h : toBytes s = toBytes t) : s = t := by
  have hchar : ∀ cs ds : List Char, (∀ c ∈ cs, c.toNat < 256) → (∀ d ∈ ds, d.toNat < 256) →
      cs.map (fun c => c.toNat.toUInt8) = ds.map (fun c => c.toNat.toUInt8) → cs = ds := by
    intro cs
    induction cs with
    | nil => intro ds _ _ he; simpa using he.symm
    | cons c cs ih =>
      intro ds hc hd he
      cases ds with
      | nil => simp at he
      | cons d ds =>
        simp only [List.map_cons, List.cons.injEq] at he
        have hcd : c.toNat = d.toNat := by
          have hn := congrArg UInt8.toNat he.1
          simpa [Nat.mod_eq_of_lt (hc c (by simp)), Nat.mod_eq_of_lt (hd d (by simp))] using hn
        rw [Char.toNat_inj.1 hcd, ih ds (fun c h => hc c (by simp [h])) (fun d h => hd d (by simp [h])) he.2]
  exact String.toList_inj.1 (hchar _ _ hs ht h)

theorem zero_notMem_toBytes {s : String} (h : IsSource s) : (0 : UInt8) ∉ toBytes s := by
  intro hm
  obtain ⟨c, hc, h0⟩ := List.mem_map.1 hm
  have hn := congrArg UInt8.toNat h0
  obtain ⟨hpos, hlt⟩ := h c hc
  have : c.toNat = 0 := by simpa [Nat.mod_eq_of_lt hlt] using hn
  omega

end Octets

open Octets

theorem isDigit_of_mem_repr {n : Nat} {c : Char} (h : c ∈ (Nat.repr n).toList) : c.isDigit = true := by
  rw [Nat.repr_eq_ofList_toDigits, String.toList_ofList] at h
  exact Nat.isDigit_of_mem_toDigits (by omega) (by omega) h

theorem nat_repr_inj {m n : Nat} (h : Nat.repr m = Nat.repr n) : m = n := by
  rw [Nat.repr_eq_ofList_toDigits, Nat.repr_eq_ofList_toDigits, String.ofList_inj] at h
  rw [← @Nat.ofDigitChars_ten_toDigits m, h, Nat.ofDigitChars_ten_toDigits]

theorem isSource_repr (n : Nat) : IsSource (Nat.repr n) := by
  intro c hc
  have hd := isDigit_of_mem_repr hc
  simp only [Char.isDigit, Bool.and_eq_true, decide_eq_true_eq] at hd
  have hlow : 48 ≤ c.toNat := hd.1
  have hhigh : c.toNat ≤ 57 := hd.2
  omega

theorem Octets.IsSource.append {s t : String} (hs : IsSource s) (ht : IsSource t) : IsSource (s ++ t) := by
  intro c hc
  rw [String.toList_append, List.mem_append] at hc
  exact hc.elim (hs c) (ht c)

theorem isSource_toString (n : Int) : IsSource (toString n) := by
  cases n with
  | ofNat k => exact isSource_repr k
  | negSucc k => exact IsSource.append (s := "-") (by decide) (isSource_repr _)

theorem toString_int_inj {m n : Int} (h : toString m = toString n) : m = n := by
  have hsign : ∀ k j : Nat, Nat.repr k ≠ "-" ++ Nat.repr j := by
    intro k j he
    have hd := isDigit_of_mem_repr (n := k) (c := '-') (by rw [he, String.toList_append]; simp)
    exact absurd hd (by decide)
  cases m with
  | ofNat k =>
    cases n with
    | ofNat j => exact congrArg Int.ofNat (nat_repr_inj h)
    | negSucc j => exact absurd h (hsign k (j + 1))
  | negSucc k =>
    cases n with
    | ofNat j => exact absurd h.symm (hsign j (k + 1))
    | negSucc j => exact congrArg Int.negSucc (Nat.succ.inj (nat_repr_inj ((String.append_right_inj "-").1 h)))

def Project.keyOctets (p : Project) (source : String) : List UInt8 :=
  toBytes source ++ p.settings.flatMap fun s => 0 :: toBytes s

theorem append_zero_inj {xs ys us vs : List UInt8} (hx : 0 ∉ xs) (hy : 0 ∉ ys) (h : xs ++ 0 :: us = ys ++ 0 :: vs) :
    xs = ys ∧ us = vs := by
  induction xs generalizing ys with
  | nil =>
    cases ys with
    | nil => exact ⟨rfl, (List.cons.inj h).2⟩
    | cons y ys => exact absurd (List.cons.inj h).1 fun he => hy (he ▸ by simp)
  | cons x xs ih =>
    cases ys with
    | nil => exact absurd (List.cons.inj h).1 fun he => hx (he ▸ by simp)
    | cons y ys =>
      simp only [List.cons_append, List.cons.injEq] at h
      obtain ⟨rfl, rfl⟩ := ih (fun hm => hx (by simp [hm])) (fun hm => hy (by simp [hm])) h.2
      exact ⟨by rw [h.1], rfl⟩

/-- The last zero of two lists that end alike stands at one place. -/
theorem append_zero_inj_right {xs ys us vs : List UInt8} (hu : 0 ∉ us) (hv : 0 ∉ vs)
    (h : xs ++ 0 :: us = ys ++ 0 :: vs) : xs = ys ∧ us = vs := by
  have hrev : us.reverse ++ 0 :: xs.reverse = vs.reverse ++ 0 :: ys.reverse := by
    simpa using congrArg List.reverse h
  obtain ⟨hus, hxs⟩ := append_zero_inj (by simpa using hu) (by simpa using hv) hrev
  exact ⟨List.reverse_inj.1 hxs, List.reverse_inj.1 hus⟩

/-- The source and the settings can be told from what is hashed. The source ends at the first zero octet; the
entry class may have zero octets in its name, but the limits after it have none. -/
theorem Project.keyOctets_inj {p q : Project} {s t : String} (hs : IsSource s) (ht : IsSource t)
    (hp : IsText p.entry) (hq : IsText q.entry) (h : p.keyOctets s = q.keyOctets t) :
    s = t ∧ p.entry = q.entry ∧ p.stack = q.stack ∧ p.locals = q.locals := by
  have hnumber (name : String) (hn : IsSource name) (n : Int) : (0 : UInt8) ∉ toBytes (name ++ toString n) :=
    zero_notMem_toBytes (hn.append (isSource_toString n))
  have hnumber_inj {name : String} (hn : IsSource name) {m n : Int}
      (he : toBytes (name ++ toString m) = toBytes (name ++ toString n)) : m = n :=
    toString_int_inj ((String.append_right_inj name).1 (toBytes_inj (hn.append (isSource_toString m)).isText
      (hn.append (isSource_toString n)).isText he))
  have hstack : IsSource "stack=" := by decide
  have hlocals : IsSource "locals=" := by decide
  have hkey (r : Project) (u : String) : r.keyOctets u = toBytes u ++ 0 :: (toBytes ("entry=" ++ r.entry) ++
      0 :: (toBytes ("stack=" ++ toString r.stack)) ++ 0 :: toBytes ("locals=" ++ toString r.locals)) := by
    simp [Project.keyOctets, Project.settings]
  rw [hkey, hkey] at h
  obtain ⟨hsource, h⟩ := append_zero_inj (zero_notMem_toBytes hs) (zero_notMem_toBytes ht) h
  obtain ⟨h, hl⟩ := append_zero_inj_right (hnumber _ hlocals _) (hnumber _ hlocals _) h
  obtain ⟨he, hst⟩ := append_zero_inj_right (hnumber _ hstack _) (hnumber _ hstack _) h
  refine ⟨toBytes_inj hs.isText ht.isText hsource, ?_, hnumber_inj hstack hst, hnumber_inj hlocals hl⟩
  rw [toBytes_append, toBytes_append] at he
  exact toBytes_inj hp hq (List.append_cancel_left he)

end ClassCompiler
