import ClassCompiler.Proofs.Compile.Layout

namespace ClassCompiler

variable {σ : Type}

abbrev Targets (σ : Type) := String → σ → Prop

/-- What an analysis allows: the states after an operation, and those in which a jump arrives. -/
structure Flow (σ : Type) where
  falls : Op → σ → σ → Prop
  jumps : Jump → σ → σ → Prop

/-- What an analysis claims of a piece: the states before and after its code, where the labels around
the piece may be entered as given. -/
abbrev Claim (σ : Type) := Targets σ → Piece → Supply → σ → σ → Prop

def LabelAt (code : List Instr) (j : Nat) (l : String) : Prop :=
  ∃ line, code[j]? = some ⟨.label l, line⟩

theorem LabelAt.append_left {c₁ c₂ : List Instr} {j : Nat} {l : String} (h : LabelAt c₁ j l) :
    LabelAt (c₁ ++ c₂) j l := by
  obtain ⟨line, h⟩ := h
  have hj : j < c₁.length := (List.getElem?_eq_some_iff.1 h).1
  exact ⟨line, by rw [List.getElem?_append_left hj, h]⟩

theorem LabelAt.append_right {c₁ c₂ : List Instr} {j : Nat} {l : String} (h : LabelAt c₂ j l) :
    LabelAt (c₁ ++ c₂) (c₁.length + j) l := by
  obtain ⟨line, h⟩ := h
  exact ⟨line, by rw [List.getElem?_append_right (by omega), Nat.add_sub_cancel_left, h]⟩

/-- States of one stretch of positions followed by those of another. -/
def splice (n : Nat) (f g : Nat → σ) (i : Nat) : σ := if i < n then f i else g (i - n)

theorem splice_left {n i : Nat} {f g : Nat → σ} (h : f n = g 0) (hi : i ≤ n) :
    splice n f g i = f i := by
  unfold splice
  split
  · rfl
  · have : i = n := by omega
    subst this
    simp [h]

theorem splice_right {n i : Nat} {f g : Nat → σ} : splice n f g (n + i) = g i := by
  unfold splice
  rw [if_neg (by omega), Nat.add_sub_cancel_left]

namespace Flow

variable (A : Flow σ)

def Step (T : Targets σ) (op : Op) (a b : σ) : Prop :=
  A.falls op a b ∧ ∀ test l, op = .jump test l → ∃ x, A.jumps test a x ∧ T l x

/-- A state for every position of some code, fitting along all its edges. -/
def Traced (T : Targets σ) (code : List Instr) (st : Nat → σ) : Prop :=
  ∀ j i, code[j]? = some i →
    A.Step (fun l x => T l x ∨ ∃ k, LabelAt code k l ∧ st k = x) i.op (st j) (st (j + 1))

/-- Operations in a row; `own` gives the states of the labels among them. -/
def Path (T : Targets σ) (own : String → Option σ) : List Op → σ → σ → Prop
  | [], a, b => b = a
  | op :: os, a, b => ∃ c, (A.Step T op a c ∧ ∀ l, op = .label l → own l = some a) ∧ Path T own os c b

def Chain (K : Claim σ) (T : Targets σ) (own : String → Option σ) : List Item → σ → σ → Prop
  | [], a, b => b = a
  | .ops _ os :: is, a, b => ∃ c, A.Path T own os a c ∧ Chain K T own is c b
  | .part q t _ _ _ :: is, a, b => ∃ c, K T q t a c ∧ Chain K T own is c b

variable {A}

theorem Step.mono {T T' : Targets σ} {op : Op} {a b : σ} (h : A.Step T op a b)
    (hT : ∀ l x, T l x → T' l x) : A.Step T' op a b := by
  refine ⟨h.1, fun test l he => ?_⟩
  obtain ⟨x, hx, ht⟩ := h.2 test l he
  exact ⟨x, hx, hT l x ht⟩

theorem Traced.mono {T T' : Targets σ} {code : List Instr} {st : Nat → σ}
    (h : A.Traced T code st)
    (hT : ∀ l x, T l x → T' l x ∨ ∃ k, LabelAt code k l ∧ st k = x) : A.Traced T' code st := by
  intro j i hi
  refine (h j i hi).mono fun l x hx => ?_
  rcases hx with hx | hx
  · exact hT l x hx
  · exact .inr hx

theorem Traced.append {T : Targets σ} {c₁ c₂ : List Instr} {f g : Nat → σ} (h₁ : A.Traced T c₁ f)
    (h₂ : A.Traced T c₂ g) (h : f c₁.length = g 0) :
    A.Traced T (c₁ ++ c₂) (splice c₁.length f g) := by
  intro j i hi
  by_cases hj : j < c₁.length
  · rw [List.getElem?_append_left hj] at hi
    rw [splice_left h (by omega), splice_left h (by omega)]
    refine (h₁ j i hi).mono fun l x hx => ?_
    rcases hx with hx | ⟨k, hk, hx⟩
    · exact .inl hx
    · obtain ⟨line, hl⟩ := hk
      have hlt : k < c₁.length := (List.getElem?_eq_some_iff.1 hl).1
      exact .inr ⟨k, LabelAt.append_left ⟨line, hl⟩, by rw [splice_left h (by omega), hx]⟩
  · rw [List.getElem?_append_right (by omega)] at hi
    obtain ⟨n, rfl⟩ : ∃ n, j = c₁.length + n := ⟨j - c₁.length, by omega⟩
    rw [Nat.add_sub_cancel_left] at hi
    rw [splice_right, Nat.add_assoc, splice_right]
    refine (h₂ n i hi).mono fun l x hx => ?_
    rcases hx with hx | ⟨k, hk, hx⟩
    · exact .inl hx
    · exact .inr ⟨_, hk.append_right, by rw [splice_right, hx]⟩

def AtSpans (K : Claim σ) (code : List Instr) (st : Nat → σ) (sp : List Span) : Prop :=
  ∀ x ∈ sp, x.start + x.length ≤ code.length ∧
    ∃ T, K T x.piece x.before (st x.start) (st (x.start + x.length))

/-- A label stands among the operations that a piece has itself. -/
def Owned (items : List Item) (l : String) : Prop :=
  ∃ line os, Item.ops line os ∈ items ∧ Op.label l ∈ os

/-- Every rule keeps what is claimed, whatever slots its parts take. -/
def Sound (A : Flow σ) (ctx : Context) (K : Claim σ) : Prop :=
  ∀ ⦃p s items s'⦄, Rule ctx p s items s' → Parts (fun _ t _ t' _ => t.slots ≤ t'.slots) items →
    ∀ ⦃T a b⦄, K T p s a b →
    ∃ own : String → Option σ, (∀ l x, own l = some x → Owned items l) ∧
      A.Chain K (fun l x => T l x ∨ own l = some x) own items a b

theorem Path.traced {T : Targets σ} {own : String → Option σ} {os : List Op} {a b : σ}
    (h : A.Path T own os a b) (line : Int) :
    ∃ st : Nat → σ, st 0 = a ∧ st (onLine line os).length = b ∧ A.Traced T (onLine line os) st ∧
      ∀ l, Op.label l ∈ os → ∃ j, LabelAt (onLine line os) j l ∧ own l = some (st j) := by
  induction os generalizing a with
  | nil =>
    obtain rfl := h
    exact ⟨fun _ => b, rfl, rfl, by simp [Traced, onLine], by simp⟩
  | cons op os ih =>
    obtain ⟨c, ⟨hs, hl⟩, hp⟩ := h
    obtain ⟨st, h0, hn, ht, hown⟩ := ih hp
    have hone : A.Traced T (onLine line [op]) (fun i => if i = 0 then a else c) := by
      intro j i hi
      have : j = 0 ∧ i = ⟨op, line⟩ := by
        cases j with
        | zero => exact ⟨rfl, by simpa [onLine, eq_comm] using hi⟩
        | succ j => simp [onLine] at hi
      obtain ⟨rfl, rfl⟩ := this
      exact hs.mono fun l x hx => .inl hx
    have hjoin : (fun i => if i = 0 then a else c) (onLine line [op]).length = st 0 := by
      simp [onLine, h0]
    have happ : onLine line (op :: os) = onLine line [op] ++ onLine line os := by simp [onLine]
    refine ⟨splice 1 (fun i => if i = 0 then a else c) st, by simp [splice], ?_, ?_, ?_⟩
    · rw [happ, List.length_append, show (onLine line [op]).length = 1 from rfl, splice_right, hn]
    · rw [happ]
      exact hone.append ht hjoin
    · intro l hm
      rcases List.mem_cons.1 hm with rfl | hm
      · exact ⟨0, ⟨line, by simp [onLine]⟩, by simpa [splice] using hl l rfl⟩
      · obtain ⟨j, hj, ho⟩ := hown l hm
        refine ⟨1 + j, ?_, by rw [splice_right, ho]⟩
        rw [happ]
        exact hj.append_right

/-- States of the labels that a piece takes from its supply. -/
def ownStates (s : Supply) (xs : List σ) (l : String) : Option σ :=
  (xs.zipIdx.find? fun x => s.label x.2 = l).map Prod.fst

@[simp] theorem ownStates_label (s : Supply) (xs : List σ) (i : Nat) :
    ownStates s xs (s.label i) = xs[i]? := by
  have key : ∀ (xs : List σ) (k i : Nat),
      ((xs.zipIdx k).find? fun x => s.label x.2 = s.label (k + i)).map Prod.fst = xs[i]? := by
    intro xs
    induction xs with
    | nil => simp
    | cons x xs ih =>
      intro k i
      cases i with
      | zero => simp [List.zipIdx_cons]
      | succ i =>
        have := ih (k + 1) i
        rw [show k + 1 + i = k + (i + 1) by omega] at this
        rw [List.zipIdx_cons, List.find?_cons_of_neg (by simp), this, List.getElem?_cons_succ]
  simpa [ownStates] using key xs 0 i

theorem label_of_ownStates {s : Supply} {xs : List σ} {l : String} {x : σ}
    (h : ownStates s xs l = some x) : ∃ i < xs.length, s.label i = l := by
  simp only [ownStates, Option.map_eq_some_iff] at h
  obtain ⟨⟨y, i⟩, hy, rfl⟩ := h
  have hm := List.mem_zipIdx (List.mem_of_find?_eq_some hy)
  exact ⟨i, by omega, by simpa using List.find?_some hy⟩

/-- The labels that a piece takes are those among its own operations. -/
theorem owned_of_ownStates {s : Supply} {xs : List σ} {items : List Item}
    (h : ∀ i < xs.length, Owned items (s.label i)) {l : String} {x : σ}
    (hx : ownStates s xs l = some x) : Owned items l := by
  obtain ⟨i, hi, rfl⟩ := label_of_ownStates hx
  exact h i hi

theorem path_append {T : Targets σ} {own : String → Option σ} {os₁ os₂ : List Op} {a b : σ} :
    A.Path T own (os₁ ++ os₂) a b ↔ ∃ c, A.Path T own os₁ a c ∧ A.Path T own os₂ c b := by
  induction os₁ generalizing a with
  | nil => simp [Path]
  | cons op os ih =>
    simp only [List.cons_append, Path, ih]
    grind

theorem AtSpans.append_left {K : Claim σ} {c₁ c₂ : List Instr} {f g : Nat → σ} {sp : List Span}
    (hs : AtSpans K c₁ f sp) (h : f c₁.length = g 0) :
    AtSpans K (c₁ ++ c₂) (splice c₁.length f g) sp := by
  intro x hx
  obtain ⟨hle, T, hk⟩ := hs x hx
  refine ⟨by rw [List.length_append]; omega, T, ?_⟩
  rw [splice_left h (by omega), splice_left h hle]
  exact hk

theorem AtSpans.append_right {K : Claim σ} {c₁ c₂ : List Instr} {f g : Nat → σ} {sp : List Span}
    (hs : AtSpans K c₂ g sp) : AtSpans K (c₁ ++ c₂) (splice c₁.length f g) (sp.map (Span.shift c₁.length)) := by
  intro x hx
  obtain ⟨y, hy, rfl⟩ := List.mem_map.1 hx
  obtain ⟨hle, T, hk⟩ := hs y hy
  refine ⟨by simp only [Span.shift, List.length_append]; omega, T, ?_⟩
  simp only [Span.shift, Nat.add_assoc, splice_right]
  exact hk

end Flow

theorem spansFrom_eq_map_shift (n : Nat) (items : List Item) :
    spansFrom n items = (spansFrom 0 items).map (Span.shift n) := by
  induction items generalizing n with
  | nil => rfl
  | cons i is ih =>
    have hs : ∀ k, Span.shift n ∘ Span.shift k = Span.shift (n + k) := by
      intro k
      funext sp
      simp [Span.shift, Nat.add_assoc]
    simp only [spansFrom, List.map_append, List.map_map, hs, Nat.add_zero]
    rw [ih (n + i.code.length), ih (0 + i.code.length), List.map_map, hs, Nat.zero_add]

namespace Flow

variable {A : Flow σ}

/-- Some code takes one state to another, and the claims hold at the spans inside it. -/
def Admits (A : Flow σ) (K : Claim σ) (T : Targets σ) (code : List Instr) (sp : List Span) (a b : σ) : Prop :=
  ∃ st : Nat → σ, st 0 = a ∧ st code.length = b ∧ A.Traced T code st ∧ AtSpans K code st sp

def Holds (A : Flow σ) (K : Claim σ) (q : Piece) (t : Supply) (c : List Instr) (sp : List Span) : Prop :=
  ∀ ⦃T a b⦄, K T q t a b → A.Admits K T c sp a b

/-- States for items in a row that fit the claims and the labels among them. -/
structure Fits (A : Flow σ) (K : Claim σ) (T : Targets σ) (own : String → Option σ) (items : List Item)
    (a b : σ) (st : Nat → σ) : Prop where
  first : st 0 = a
  last : st (codeOf items).length = b
  traced : A.Traced T (codeOf items) st
  spans : AtSpans K (codeOf items) st (spansFrom 0 items)
  owned : ∀ l, Owned items l → ∃ j, LabelAt (codeOf items) j l ∧ own l = some (st j)

theorem Fits.cons {K : Claim σ} {T : Targets σ} {own : String → Option σ} {i : Item} {is : List Item}
    {a b c : σ} {f g : Nat → σ} (hf : A.Fits K T own [i] a c f) (hg : A.Fits K T own is c b g) :
    A.Fits K T own (i :: is) a b (splice i.code.length f g) := by
  have he : codeOf [i] = i.code := by simp
  have hs : spansFrom 0 [i] = i.spans := by
    simp only [spansFrom, List.append_nil]
    exact List.map_id'' (fun sp => by simp [Span.shift]) _
  have hjoin : f i.code.length = g 0 := by rw [hg.first, ← hf.last, he]
  refine ⟨?_, ?_, ?_, ?_, ?_⟩
  · rw [splice_left hjoin (Nat.zero_le _), hf.first]
  · rw [codeOf_cons, List.length_append, splice_right, hg.last]
  · rw [codeOf_cons]
    exact (he ▸ hf.traced).append hg.traced hjoin
  · rw [codeOf_cons, spansFrom, spansFrom_eq_map_shift (0 + _), Nat.zero_add]
    intro x hx
    rcases List.mem_append.1 hx with hx | hx
    · rw [← hs] at hx
      have hsp := hf.spans
      rw [he] at hsp
      exact hsp.append_left hjoin x (by simpa [spansFrom, Span.shift] using hx)
    · exact hg.spans.append_right x hx
  · rintro l ⟨line, os, hm, hl⟩
    rw [codeOf_cons]
    rcases List.mem_cons.1 hm with rfl | hm
    · obtain ⟨j, ⟨n, hj⟩, ho⟩ := hf.owned l ⟨line, os, by simp, hl⟩
      rw [he] at hj
      have hlt : j < _ := (List.getElem?_eq_some_iff.1 hj).1
      exact ⟨j, LabelAt.append_left ⟨n, hj⟩, by rw [splice_left hjoin (by omega), ho]⟩
    · obtain ⟨j, hj, ho⟩ := hg.owned l ⟨line, os, hm, hl⟩
      exact ⟨_, hj.append_right, by rw [splice_right, ho]⟩

theorem Chain.fits {K : Claim σ} {T : Targets σ} {own : String → Option σ} {items : List Item}
    {a b : σ} (hc : A.Chain K T own items a b)
    (ih : ∀ q t c t' sp, Item.part q t c t' sp ∈ items → A.Holds K q t c sp) :
    ∃ st, A.Fits K T own items a b st := by
  induction items generalizing a with
  | nil =>
    obtain rfl := hc
    exact ⟨fun _ => b, rfl, rfl, by simp [Traced], by simp [AtSpans, spansFrom], by simp [Owned]⟩
  | cons i is ihis =>
    have ih' := fun c (hc : A.Chain K T own is c b) =>
      ihis hc (fun q t c t' sp hm => ih q t c t' sp (List.mem_cons_of_mem _ hm))
    cases i with
    | ops line os =>
      obtain ⟨c, hp, hc⟩ := hc
      obtain ⟨f, h0, hn, ht, ho⟩ := hp.traced line
      obtain ⟨g, hg⟩ := ih' c hc
      refine ⟨_, Fits.cons (f := f) ⟨h0, ?_, ?_, ?_, ?_⟩ hg⟩
      · simpa [Item.code] using hn
      · simpa [Item.code] using ht
      · simp [AtSpans, spansFrom, Item.spans]
      · rintro l ⟨line', os', hm, hl⟩
        simp only [List.mem_cons, Item.ops.injEq, List.not_mem_nil, or_false] at hm
        obtain ⟨rfl, rfl⟩ := hm
        simpa [Item.code] using ho l hl
    | part q t c t' sp =>
      obtain ⟨x, hk, hc⟩ := hc
      obtain ⟨f, h0, hn, ht, hs⟩ := ih q t c t' sp (by simp) hk
      obtain ⟨g, hg⟩ := ih' x hc
      refine ⟨_, Fits.cons (f := f) ⟨h0, ?_, ?_, ?_, ?_⟩ hg⟩
      · simpa [Item.code] using hn
      · simpa [Item.code] using ht
      · have he : spansFrom 0 [Item.part q t c t' sp] = sp := by
          simp only [spansFrom, List.append_nil, Item.spans]
          exact List.map_id'' (fun sp => by simp [Span.shift]) _
        rw [he]
        simpa [Item.code] using hs
      · rintro l ⟨line', os', hm, hl⟩
        simp at hm

/-- An analysis that every rule keeps gives states to all code that is generated. -/
theorem Sound.holds {ctx : Context} {K : Claim σ} (hA : Sound A ctx K) {p : Piece} {s s' : Supply}
    {code : List Instr} {sp : List Span} (h : Emits ctx p s code s' sp) : A.Holds K p s code sp := by
  induction h with
  | @intro p s s' items code hr hp hc hg ih =>
    subst hc
    intro T a b hk
    have hslots := Parts.iff_forall_mem.2 fun q t c t' sp hm => (hp q t c t' sp hm).slots_mono
    obtain ⟨own, howned, hchain⟩ := hA hr hslots hk
    obtain ⟨st, hst⟩ := hchain.fits ih
    refine ⟨st, hst.first, hst.last, hst.traced.mono fun l x hx => ?_, ?_⟩
    · rcases hx with hx | hx
      · exact .inl hx
      · obtain ⟨j, hj, ho⟩ := hst.owned l (howned l x hx)
        rw [hx] at ho
        exact .inr ⟨j, hj, (Option.some.inj ho).symm⟩
    · intro x hx
      rcases List.mem_cons.1 hx with rfl | hx
      · refine ⟨by simp, T, ?_⟩
        simp only [Nat.zero_add, hst.first, hst.last]
        exact hk
      · exact hst.spans x hx

theorem admits_nil {K : Claim σ} {T : Targets σ} {a : σ} : A.Admits K T [] [] a a :=
  ⟨fun _ => a, rfl, rfl, by simp [Traced], by simp [AtSpans]⟩

theorem Admits.append {K : Claim σ} {T : Targets σ} {c₁ c₂ : List Instr} {sp₁ sp₂ : List Span} {a b c : σ}
    (h₁ : A.Admits K T c₁ sp₁ a b) (h₂ : A.Admits K T c₂ sp₂ b c) :
    A.Admits K T (c₁ ++ c₂) (sp₁ ++ sp₂.map (Span.shift c₁.length)) a c := by
  obtain ⟨f, f0, fn, ft, fs⟩ := h₁
  obtain ⟨g, g0, gn, gt, gs⟩ := h₂
  have hjoin : f c₁.length = g 0 := by rw [fn, g0]
  refine ⟨splice c₁.length f g, ?_, ?_, ft.append gt hjoin, fun x hx => ?_⟩
  · rw [splice_left hjoin (Nat.zero_le _), f0]
  · rw [List.length_append, splice_right, gn]
  · rcases List.mem_append.1 hx with hx | hx
    · exact fs.append_left hjoin x hx
    · exact gs.append_right x hx

theorem Path.admits {K : Claim σ} {T : Targets σ} {own : String → Option σ} {os : List Op} {a b : σ}
    (h : A.Path T own os a b) (line : Int) : A.Admits K T (onLine line os) [] a b := by
  obtain ⟨st, h0, hn, ht, -⟩ := h.traced line
  exact ⟨st, h0, hn, ht, by simp [AtSpans]⟩

end Flow

end ClassCompiler
