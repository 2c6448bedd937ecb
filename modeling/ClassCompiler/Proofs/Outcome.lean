import ClassCompiler.Machine.Basic
import Mathlib.Data.List.Forall2

namespace ClassCompiler

theorem bind_eq_ok {ε α β : Type} {x : Except ε α} {f : α → Except ε β} {b : β} :
    (x >>= f) = .ok b ↔ ∃ a, x = .ok a ∧ f a = .ok b := by
  cases x with
  | error e => simp [bind, Except.bind]
  | ok a => simp [bind, Except.bind]

theorem bind_eq_error {ε α β : Type} {x : Except ε α} {f : α → Except ε β} {e : ε} :
    (x >>= f) = .error e ↔ x = .error e ∨ ∃ a, x = .ok a ∧ f a = .error e := by
  cases x <;> simp [bind, Except.bind]

theorem pure_eq_ok {ε α : Type} {a b : α} : (pure a : Except ε α) = .ok b ↔ a = b := by
  simp [pure, Except.pure]

theorem exists_ok_of_isSome {ε α : Type} {x : Except ε α} (h : x.toOption.isSome) : ∃ a, x = .ok a := by
  cases x with
  | ok a => exact ⟨a, rfl⟩
  | error e => cases h

theorem exists_ok_of_bind {α β ε : Type} {x : Except ε α} {f : α → Option β} {b : β}
    (h : x.toOption.bind f = some b) : ∃ a, x = .ok a ∧ f a = some b := by
  cases x with
  | ok a => exact ⟨a, rfl, h⟩
  | error e => cases h

theorem mapM_eq_ok {ε α β : Type} {f : α → Except ε β} {as : List α} {bs : List β}
    (h : as.mapM f = .ok bs) : ∀ b ∈ bs, ∃ a ∈ as, f a = .ok b := by
  induction as generalizing bs with
  | nil =>
    rw [List.mapM_nil, pure_eq_ok] at h
    simp [← h]
  | cons a as ih =>
    simp only [List.mapM_cons, bind_eq_ok, pure_eq_ok] at h
    obtain ⟨b, hb, cs, hcs, rfl⟩ := h
    intro c hc
    rcases List.mem_cons.1 hc with rfl | hc
    · exact ⟨a, by simp, hb⟩
    · obtain ⟨a', ha', he⟩ := ih hcs c hc
      exact ⟨a', by simp [ha'], he⟩

/-- Lists that correspond and of which the same thing is read place by place. -/
theorem map_eq_of_forall₂ {α β γ : Type} {R : α → β → Prop} {as : List α} {bs : List β} (h : List.Forall₂ R as bs)
    {f : α → γ} {g : β → γ} (hfg : ∀ a b, R a b → f a = g b) : as.map f = bs.map g := by
  induction h with
  | nil => rfl
  | cons hab _ ih => rw [List.map_cons, List.map_cons, hfg _ _ hab, ih]

/-- Failure for an allowed cause only, and otherwise a value as wanted. -/
def Attempt {α : Type} (allowed : Cause → Prop) (wanted : α → Prop) : Except Fault α → Prop
  | .error e => allowed e.cause
  | .ok a => wanted a

abbrev AnyCause (_ : Cause) : Prop := True

namespace Attempt

variable {α β : Type} {allowed : Cause → Prop} {P : α → Prop} {Q : β → Prop} {x : Except Fault α}

theorem bind {k : α → Except Fault β} (hx : Attempt allowed P x)
    (hk : ∀ a, P a → Attempt allowed Q (k a)) : Attempt allowed Q (x >>= k) := by
  cases x with
  | error e => exact hx
  | ok a => exact hk a hx

theorem map {f : α → β} (hx : Attempt allowed P x) (hf : ∀ a, P a → Q (f a)) :
    Attempt allowed Q (f <$> x) := by
  cases x with
  | error e => exact hx
  | ok a => exact hf a hx

theorem allow {allowed' : Cause → Prop} (hx : Attempt allowed P x) (h : ∀ c, allowed c → allowed' c) :
    Attempt allowed' P x := by
  cases x with
  | error e => exact h _ hx
  | ok a => exact hx

theorem imp {P' : α → Prop} (hx : Attempt allowed P x) (h : ∀ a, P a → P' a) : Attempt allowed P' x := by
  cases x with
  | error e => exact hx
  | ok a => exact h a hx

end Attempt

/-- Two computations that fail for one cause or give related values. -/
def Parallel {α β : Type} (R : α → β → Prop) : Except Fault α → Except Fault β → Prop
  | .ok a, .ok b => R a b
  | .error e, .error e' => e'.cause = e.cause
  | _, _ => False

namespace Parallel

variable {α β γ δ : Type} {R : α → β → Prop} {S : γ → δ → Prop} {x : Except Fault α} {y : Except Fault β}

theorem bind {k : α → Except Fault γ} {l : β → Except Fault δ} (h : Parallel R x y)
    (hk : ∀ a b, R a b → Parallel S (k a) (l b)) : Parallel S (x >>= k) (y >>= l) := by
  match x, y, h with
  | .ok a, .ok b, h => exact hk a b h
  | .error e, .error e', h => exact h

theorem map {f : α → γ} {g : β → δ} (h : Parallel R x y) (hf : ∀ a b, R a b → S (f a) (g b)) :
    Parallel S (f <$> x) (g <$> y) := by
  match x, y, h with
  | .ok a, .ok b, h => exact hf a b h
  | .error e, .error e', h => exact h

theorem refl {R : α → α → Prop} (hR : ∀ a, R a a) (x : Except Fault α) : Parallel R x x := by
  cases x with
  | error e => rfl
  | ok a => exact hR a

end Parallel

/-- Two computations that fail with one fault or give related values. -/
def Matching {α β : Type} (R : α → β → Prop) : Except Fault α → Except Fault β → Prop
  | .ok a, .ok b => R a b
  | .error e, .error e' => e' = e
  | _, _ => False

namespace Matching

variable {α β γ δ : Type} {R : α → β → Prop} {S : γ → δ → Prop} {x : Except Fault α} {y : Except Fault β}

theorem bind {k : α → Except Fault γ} {l : β → Except Fault δ} (h : Matching R x y)
    (hk : ∀ a b, R a b → Matching S (k a) (l b)) : Matching S (x >>= k) (y >>= l) := by
  match x, y, h with
  | .ok a, .ok b, h => exact hk a b h
  | .error e, .error e', h => exact h

theorem map {f : α → γ} {g : β → δ} (h : Matching R x y) (hf : ∀ a b, R a b → S (f a) (g b)) :
    Matching S (f <$> x) (g <$> y) := by
  match x, y, h with
  | .ok a, .ok b, h => exact hf a b h
  | .error e, .error e', h => exact h

theorem refl {R : α → α → Prop} (hR : ∀ a, R a a) (x : Except Fault α) : Matching R x x := by
  cases x with
  | error e => rfl
  | ok a => exact hR a

end Matching

end ClassCompiler
