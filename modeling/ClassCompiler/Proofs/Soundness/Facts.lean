import ClassCompiler.Proofs.Soundness.TypedHeaps

namespace ClassCompiler

/-- What is known of a value: nothing, which one it is, that it is of a type when boxed, that it is a new object of a
type, or that it is an object of a class of which some fields are set. -/
inductive Fact where
  | any
  | is (v : Value)
  | val (t : Ty)
  | made (t : Ty)
  | making (cls : String) (fields : List String)

/-- What is known of a value on the operand stack: a fact, that it is an array list that was filled with values of some
types, that it is the value below it, or that it is the value in a slot. -/
inductive Cell where
  | known (f : Fact)
  | adds (ts : List Ty)
  | again
  | slot (n : Nat)

/-- How an index is put on the stack: it is a constant, or kept in a slot. -/
inductive Index where
  | const (i : Int)
  | slot (n : Nat)

/-- Where null was just stored: in the list on the stack at an index, in the list below its index, or in a field of the
object on the stack. -/
inductive Note where
  | element (i : Index)
  | indexed
  | field (name : String)

/-- What is known of a frame. -/
structure Facts where
  stack : List Cell
  slots : Nat → Fact
  note : Option Note := none

def Index.value (locals : Nat → Value) : Index → Value
  | .const i => .int (Int32.ofInt i)
  | .slot n => locals n

/-- The element of a list that an index stands for is null. -/
def NullAt (vs : List Value) (i : Value) : Prop := argument vs i.toInt32.toInt.toNat = .null

section

variable (p : Program) (w : TypedHeap) (d : Nat) (locals : Nat → Value)

def Fact.Holds : Fact → Value → Prop
  | .any, _ => True
  | .is u, v => v = u
  | .val t, v => w.Fits p t v
  | .made t, v => v ≠ .null ∧ w.Fits p t v
  | .making c names, v => ∃ fs : FieldValues, w.heap.get? v = some (.inst c fs) ∧ ∀ n ∈ names, (fs.lookup n).isSome

/-- What a cell says of a value above others, in a call of some depth. -/
def Cell.Holds (below : List Value) : Cell → Value → Prop
  | .known f, v => f.Holds p w v
  | .adds ts, v => ∃ (a : Nat) (vs : List Value), v = .ref a ∧ w.marks a = some (.filled d below.length) ∧
    w.heap[a]? = some (.arrayList vs) ∧ List.Forall₂ (w.Fits p) ts vs
  | .again, v => below.head? = some v
  | .slot n, v => v = locals n

def Cells : List Cell → List Value → Prop
  | [], [] => True
  | c :: cs, v :: vs => c.Holds p w d locals vs v ∧ Cells cs vs
  | _, _ => False

def Note.Holds : Note → List Value → Prop
  | .element i, v :: _ => ∃ vs, w.heap.get? v = some (.list vs) ∧ NullAt vs (i.value locals)
  | .indexed, i :: v :: _ => ∃ vs, w.heap.get? v = some (.list vs) ∧ NullAt vs i
  | .field n, v :: _ => ∃ c fs, w.heap.get? v = some (.inst c fs) ∧ fs.lookup n = some .null
  | _, _ => False

/-- The facts hold of a frame that waits for so many others. -/
structure Frame.Has (f : Frame) (a : Facts) : Prop where
  stack : Cells p w d f.local? a.stack f.stack
  slots : ∀ n, (a.slots n).Holds p w (f.local? n)
  note : ∀ n, a.note = some n → n.Holds w f.local? f.stack

end

def Fact.Implies (p : Program) (k k' : Fact) : Prop := ∀ w v, k.Holds p w v → k'.Holds p w v

/-- What is known of a frame says all that something else says. -/
def Facts.Entails (p : Program) (a b : Facts) : Prop := ∀ w d (f : Frame), f.Has p w d a → f.Has p w d b

/-- What is known of the rest when some values are taken from the stack. -/
def Facts.Drops (p : Program) (n : Nat) (a b : Facts) : Prop :=
  ∀ w d (f : Frame), f.Has p w d a → Frame.Has p w d { f with stack := f.stack.drop n } b

section

variable {p : Program} {w w' : TypedHeap} {sites : Nat → Nat → Prop} {d n : Nat} {locals : Nat → Value} {f g : Frame}
  {a b c : Facts} {k k' : Fact} {cell : Cell} {cs cs' : List Cell} {τ τ' : Nat → Fact} {o : Option Note} {v : Value}
  {vs : List Value}

theorem Fact.Holds.mono (h : w.Extends sites w') (hv : k.Holds p w v) : k.Holds p w' v := by
  cases k with
  | any => trivial
  | is u => exact hv
  | val t => exact TypedHeap.Fits.mono h hv
  | made t => exact ⟨hv.1, hv.2.mono h⟩
  | making c names =>
    obtain ⟨fs, ho, hset⟩ := hv
    obtain ⟨fs', ho', hstay⟩ := h.object ho
    exact ⟨fs', ho', fun n hn => hstay n (hset n hn)⟩

theorem Cell.Holds.mono (h : w.Extends sites w') (hs : ¬sites d vs.length) (hv : cell.Holds p w d locals vs v) :
    cell.Holds p w' d locals vs v := by
  cases cell with
  | known k => exact Fact.Holds.mono h hv
  | again | slot n => exact hv
  | adds ts =>
    obtain ⟨a, es, rfl, hm, ho, hes⟩ := hv
    exact ⟨a, es, rfl, h.marks a _ hm, (h.arrays a _ _ hm hs).trans ho, hes.imp fun _ _ => TypedHeap.Fits.mono h⟩

theorem Cells.mono (h : w.Extends sites w') (hs : ∀ n < vs.length, ¬sites d n) (hc : Cells p w d locals cs vs) :
    Cells p w' d locals cs vs := by
  induction cs generalizing vs with
  | nil => cases vs with
    | nil => trivial
    | cons v vs => exact hc.elim
  | cons c cs ih => cases vs with
    | nil => exact hc.elim
    | cons v vs =>
      have hlt : ∀ n, n ≤ vs.length → ¬sites d n := fun n hn => hs n (Nat.lt_succ_of_le hn)
      exact ⟨hc.1.mono h (hlt _ (Nat.le_refl _)), ih (fun n hn => hlt n (Nat.le_of_lt hn)) hc.2⟩

theorem Frame.Has.mono (h : w.Extends sites w') (hs : ∀ n < f.stack.length, ¬sites d n) (hf : f.Has p w d ⟨cs, τ, none⟩) :
    f.Has p w' d ⟨cs, τ, none⟩ :=
  ⟨hf.stack.mono h hs, fun n => (hf.slots n).mono h, by simp⟩

/-- No array list that was there before is filled. -/
theorem Frame.Has.later (hf : f.Has p w d ⟨cs, τ, none⟩) (h : w.Extends (fun _ _ => False) w') :
    f.Has p w' d ⟨cs, τ, none⟩ := hf.mono h fun _ _ => id

theorem Frame.Has.push (hf : f.Has p w d ⟨cs, τ, none⟩) (cell : Cell) (hv : cell.Holds p w d f.local? f.stack v) :
    Frame.Has p w d { f with stack := v :: f.stack } ⟨cell :: cs, τ, none⟩ :=
  ⟨⟨hv, hf.stack⟩, hf.slots, by simp⟩

theorem Frame.Has.uncons (hf : f.Has p w d ⟨cell :: cs, τ, o⟩) : ∃ v vs, f.stack = v :: vs ∧
    cell.Holds p w d f.local? vs v ∧ Frame.Has p w d { f with stack := vs } ⟨cs, τ, none⟩ := by
  have hstack := hf.stack
  cases hs : f.stack with
  | nil =>
    rw [hs] at hstack
    exact hstack.elim
  | cons v vs =>
    rw [hs] at hstack
    exact ⟨v, vs, rfl, hstack.1, hstack.2, hf.slots, by simp⟩

/-- Only the stack and the slots of a frame count. -/
theorem Frame.Has.of_eq (hf : f.Has p w d a) (hstack : g.stack = f.stack) (hlocals : g.locals = f.locals) :
    g.Has p w d a := by
  have hlocal : g.local? = f.local? := funext fun n => by simp [Frame.local?, hlocals]
  exact ⟨hlocal ▸ hstack ▸ hf.stack, hlocal ▸ hf.slots, hlocal ▸ hstack ▸ hf.note⟩

/-- A slot that no value on the stack is said to be in. -/
theorem Cells.update (hn : Cell.slot n ∉ cs) (hc : Cells p w d locals cs vs) (v : Value) :
    Cells p w d (fun i => if i = n then v else locals i) cs vs := by
  induction cs generalizing vs with
  | nil => cases vs with
    | nil => trivial
    | cons => exact hc.elim
  | cons c cs ih => cases vs with
    | nil => exact hc.elim
    | cons u us =>
      obtain ⟨hne, hcs⟩ := List.ne_and_not_mem_of_not_mem_cons hn
      refine ⟨?_, ih hcs hc.2⟩
      cases c with
      | slot i =>
        have hi : i ≠ n := fun he => hne (he ▸ rfl)
        exact (hc.1 : u = locals i).trans (if_neg hi).symm
      | _ => exact hc.1

namespace Facts.Entails

theorem refl (a : Facts) : a.Entails p a := fun _ _ _ h => h

theorem trans (h : a.Entails p b) (h' : b.Entails p c) : a.Entails p c := fun w d f hf => h' w d f (h w d f hf)

/-- What is known of the values below another one. -/
theorem push (h : Facts.Entails p ⟨cs, τ, none⟩ ⟨cs', τ', none⟩) (cell : Cell) :
    Facts.Entails p ⟨cell :: cs, τ, none⟩ ⟨cell :: cs', τ', none⟩ := by
  intro w d f hf
  obtain ⟨v, vs, hs, hv, hf'⟩ := hf.uncons
  obtain ⟨hstack, hslots, -⟩ := h w d _ hf'
  refine ⟨?_, hslots, by simp⟩
  rw [hs]
  exact ⟨hv, hstack⟩

theorem slots (h : ∀ n, (τ n).Implies p (τ' n)) : Facts.Entails p ⟨cs, τ, o⟩ ⟨cs, τ', none⟩ :=
  fun _ _ _ hf => ⟨hf.stack, fun n => h n _ _ (hf.slots n), by simp⟩

theorem forget : Facts.Entails p ⟨cs, τ, o⟩ ⟨cs, τ, none⟩ := slots fun _ _ _ h => h

theorem top (h : k.Implies p k') : Facts.Entails p ⟨.known k :: cs, τ, o⟩ ⟨.known k' :: cs, τ, none⟩ := by
  intro w d f hf
  obtain ⟨v, vs, hs, hv, hf'⟩ := hf.uncons
  refine ⟨?_, hf.slots, by simp⟩
  rw [hs]
  exact ⟨h w v hv, hf'.stack⟩

theorem again : Facts.Entails p ⟨.again :: .known k :: cs, τ, o⟩ ⟨.known k :: .known k :: cs, τ, none⟩ := by
  intro w d f hf
  obtain ⟨v, vs, hs, hv, hf'⟩ := hf.uncons
  obtain ⟨u, us, rfl, hu, -⟩ := hf'.uncons
  obtain rfl : u = v := Option.some.inj hv
  refine ⟨?_, hf.slots, by simp⟩
  rw [hs]
  exact ⟨hu, hf'.stack⟩

theorem slot : Facts.Entails p ⟨.slot n :: cs, τ, o⟩ ⟨.known (τ n) :: cs, τ, none⟩ := by
  intro w d f hf
  obtain ⟨v, vs, hs, hv, hf'⟩ := hf.uncons
  obtain rfl : v = f.local? n := hv
  refine ⟨?_, hf.slots, by simp⟩
  rw [hs]
  exact ⟨hf.slots n, hf'.stack⟩

end Facts.Entails

theorem Facts.Drops.of_cons {n : Nat} (h : Facts.Drops p n ⟨cs, τ, none⟩ b) :
    Facts.Drops p (n + 1) ⟨cell :: cs, τ, o⟩ b := by
  intro w d f hf
  obtain ⟨v, vs, hs, -, hf'⟩ := hf.uncons
  simpa [hs] using h w d _ hf'

theorem Facts.Drops.of_entails (h : a.Entails p b) : a.Drops p 0 b := fun w d f hf => (h w d f hf).of_eq rfl rfl

theorem Facts.Drops.weaken (h : a.Drops p n b) (hb : b.Entails p c) : a.Drops p n c := fun w d f hf => hb w d _ (h w d f hf)

theorem Fact.Implies.refl (k : Fact) : k.Implies p k := fun _ _ h => h

theorem Fact.implies_any : k.Implies p .any := fun _ _ _ => trivial

theorem Fact.implies_of_below {t u : Ty} (h : t.Below u) : (Fact.val t).Implies p (.val u) := fun _ _ hv => TypedHeap.Fits.below hv h

theorem Fact.implies_of_is {t : Ty} (h : ∀ w : TypedHeap, w.Fits p t v) : (Fact.is v).Implies p (.val t) := fun w _ hu => hu ▸ h w

theorem Fact.implies_of_made {t : Ty} : (Fact.made t).Implies p (.val t) := fun _ _ hv => hv.2

end

end ClassCompiler
