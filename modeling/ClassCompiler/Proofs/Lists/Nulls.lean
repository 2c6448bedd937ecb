import ClassCompiler.Proofs.Lists.Copies
import ClassCompiler.Proofs.Typing.Nulls

namespace ClassCompiler

mutual

/-- A value of a type with `null` in it: `null`, or a list in `N` with such values at its positions. -/
def Value.NullsIn (N : Set Nat) (h : Heap) : Ty → Value → Prop
  | .null, v => v = .null
  | .list es, v => (Ty.list es).HasNull →
    ∃ a ∈ N, v = .ref a ∧ ∃ vs, h[a]? = some (.list vs) ∧ Value.NullsInAll N h es vs
  | _, _ => True

def Value.NullsInAll (N : Set Nat) (h : Heap) : List (String × Ty) → List Value → Prop
  | [], [] => True
  | (_, t) :: es, v :: vs => Value.NullsIn N h t v ∧ Value.NullsInAll N h es vs
  | _, _ => False

end

namespace Value

variable {N M : Set Nat} {h h' : Heap}

theorem nullsIn_of_not_hasNull {t : Ty} (ht : ¬t.HasNull) (v : Value) : v.NullsIn N h t := by
  cases t with
  | null => exact (ht trivial).elim
  | list es => exact fun hn => (ht hn).elim
  | _ => trivial

mutual

theorem NullsIn.mono (hN : N ⊆ M) (hh : ∀ a ∈ N, h'[a]? = h[a]?) (t : Ty) (v : Value) (hv : v.NullsIn N h t) :
    v.NullsIn M h' t := by
  match t with
  | .null => exact hv
  | .list es =>
    intro hn
    obtain ⟨a, ha, rfl, vs, hvs, hall⟩ := hv hn
    exact ⟨a, hN ha, rfl, vs, (hh a ha).trans hvs, NullsInAll.mono hN hh es vs hall⟩
  | .int | .bool | .string | .void | .noType | .cls _ | .fptr _ _ => trivial

theorem NullsInAll.mono (hN : N ⊆ M) (hh : ∀ a ∈ N, h'[a]? = h[a]?) (es : List (String × Ty)) (vs : List Value)
    (hv : NullsInAll N h es vs) : NullsInAll M h' es vs := by
  match es, vs with
  | [], [] => trivial
  | (_, t) :: es, v :: vs => exact ⟨hv.1.mono hN hh t v, NullsInAll.mono hN hh es vs hv.2⟩

end

mutual

theorem NullsIn.of_equivalent {isA : String → String → Bool} (t u : Ty) (he : Ty.equivalent isA u t = true)
    (v : Value) (hv : v.NullsIn N h t) : v.NullsIn N h u := by
  match t with
  | .null =>
    rw [Ty.eq_null_of_equivalent he]
    exact hv
  | .list es =>
    obtain ⟨fs, rfl, hfs, hes⟩ := Ty.eq_list_of_equivalent he
    intro hn
    obtain ⟨a, ha, rfl, vs, hvs, hall⟩ := hv (Ty.hasNullElems_of_equivalent fs es hes hfs hn)
    exact ⟨a, ha, rfl, vs, hvs, NullsInAll.of_equivalent es fs hfs hes vs hall⟩
  | .int | .bool | .string | .void | .noType | .cls _ | .fptr _ _ =>
    have he' : Ty.equivalent isA _ u = true := (Bool.and_comm _ _).trans he
    exact nullsIn_of_not_hasNull (fun hn => Ty.hasNull_of_equivalent _ _ he' hn) v

theorem NullsInAll.of_equivalent {isA : String → String → Bool} (es fs : List (String × Ty))
    (hfs : Ty.allElemSubtypes isA fs es = true) (hes : Ty.allElemSubtypes isA es fs = true) (vs : List Value)
    (hv : NullsInAll N h es vs) : NullsInAll N h fs vs := by
  match es, fs, vs with
  | [], [], [] => trivial
  | (_, t) :: es, (_, u) :: fs, v :: vs =>
    simp only [Ty.allElemSubtypes, Bool.and_eq_true] at hfs hes
    exact ⟨NullsIn.of_equivalent t u (show Ty.equivalent isA u t = true by simp [Ty.equivalent, hfs.1, hes.1]) v hv.1,
      NullsInAll.of_equivalent es fs hfs.2 hes.2 vs hv.2⟩

end

theorem NullsInAll.append {es fs : List (String × Ty)} {vs ws : List Value} (hv : NullsInAll N h es vs)
    (hw : NullsInAll N h fs ws) : NullsInAll N h (es ++ fs) (vs ++ ws) := by
  induction es generalizing vs with
  | nil =>
    cases vs with
    | nil => exact hw
    | cons v vs => exact hv.elim
  | cons e es ih =>
    cases vs with
    | nil => exact hv.elim
    | cons v vs => exact ⟨hv.1, ih hv.2⟩

theorem NullsInAll.get {es : List (String × Ty)} {vs : List Value} (hv : NullsInAll N h es vs) {k : Nat} {v : Value}
    (hk : vs[k]? = some v) : ∃ e, es[k]? = some e ∧ v.NullsIn N h e.2 := by
  induction es generalizing vs k with
  | nil =>
    cases vs with
    | nil => simp at hk
    | cons v vs => exact hv.elim
  | cons e es ih =>
    cases vs with
    | nil => simp at hk
    | cons w vs =>
      cases k with
      | zero =>
        obtain rfl := Option.some.inj hk
        exact ⟨e, rfl, hv.1⟩
      | succ k => exact ih hv.2 hk

end Value

/-- A list that reading elements of a value comes to. -/
inductive Value.Holds (h : Heap) : Value → Nat → Prop
  | self {a : Nat} {vs : List Value} (ho : h[a]? = some (.list vs)) : Holds h (.ref a) a
  | element {a b : Nat} {vs : List Value} {v : Value} (ho : h[a]? = some (.list vs)) (hv : v ∈ vs)
      (hb : Holds h v b) : Holds h (.ref a) b

namespace Value

variable {N : Set Nat} {h : Heap}

theorem Holds.list {v : Value} {a : Nat} (hv : v.Holds h a) : ∃ vs, h[a]? = some (.list vs) := by
  induction hv with
  | self ho => exact ⟨_, ho⟩
  | element _ _ _ ih => exact ih

mutual

theorem NullsIn.held (t : Ty) (v : Value) (hv : v.NullsIn N h t) : v.NullsIn {a ∈ N | v.Holds h a} h t := by
  match t with
  | .null => exact hv
  | .list es =>
    intro hn
    obtain ⟨a, ha, rfl, vs, hvs, hall⟩ := hv hn
    refine ⟨a, ⟨ha, .self hvs⟩, rfl, vs, hvs, .mono (fun b hb => ?_) (fun _ _ => rfl) es vs (NullsInAll.held es vs hall)⟩
    obtain ⟨hbN, w, hw, hwb⟩ := hb
    exact ⟨hbN, .element hvs hw hwb⟩
  | .int | .bool | .string | .void | .noType | .cls _ | .fptr _ _ => trivial

theorem NullsInAll.held (es : List (String × Ty)) (vs : List Value) (hv : NullsInAll N h es vs) :
    NullsInAll {a ∈ N | ∃ v ∈ vs, v.Holds h a} h es vs := by
  match es, vs with
  | [], [] => trivial
  | (_, t) :: es, v :: vs =>
    refine ⟨(NullsIn.held t v hv.1).mono (fun a ha => ?_) (fun _ _ => rfl) t v,
      (NullsInAll.held es vs hv.2).mono (fun a ha => ?_) (fun _ _ => rfl) es vs⟩
    · exact ⟨ha.1, v, List.mem_cons_self, ha.2⟩
    · obtain ⟨haN, w, hw, hwa⟩ := ha
      exact ⟨haN, w, List.mem_cons_of_mem _ hw, hwa⟩

end

end Value

namespace Expr

mutual

/-- The expressions that give the value of an expression, or the elements of that. -/
def sources : Expr → List Expr
  | e@(.binary _ .assign _ r) => e :: r.sources
  | e@(.index _ x _) => e :: x.sources
  | e@(.list _ es) => e :: sourcesOfAll es
  | e => [e]

def sourcesOfAll : List Expr → List Expr
  | [] => []
  | e :: es => e.sources ++ sourcesOfAll es

end

theorem mem_subterms (e : Expr) : e ∈ e.subterms := by
  cases e <;> simp [subterms]

theorem subterms_subset {es : List Expr} {e : Expr} (he : e ∈ es) : e.subterms ⊆ subtermsOfAll es := by
  induction es with
  | nil => cases he
  | cons y ys ih =>
    rcases List.mem_cons.1 he with rfl | he
    · exact List.subset_append_left _ _
    · exact List.subset_append_of_subset_right _ (ih he)

theorem mem_sources (e : Expr) : e ∈ e.sources := by
  unfold sources
  split <;> simp

theorem sources_subset {es : List Expr} {e : Expr} (he : e ∈ es) : e.sources ⊆ sourcesOfAll es := by
  induction es with
  | nil => cases he
  | cons y ys ih =>
    rcases List.mem_cons.1 he with rfl | he
    · exact List.subset_append_left _ _
    · exact List.subset_append_of_subset_right _ (ih he)

end Expr

/-- The types with `null` in them that an expression gets its own from are known at every depth. -/
def Context.KnowsNulls (ctx : Context) (e : Expr) : Prop :=
  ∀ y ∈ e.sources, (ctx.typeOf y).HasNull → (ctx.typeOf y).Settled

abbrev Machine.Runs (m : Machine) : State → State → Prop :=
  Relation.ReflTransGen fun s t => ∃ canceled, s.step m canceled = .running t

theorem Machine.Passes.runs {m : Machine} {callers : List Frame} {stop : Nat} {s t : State}
    (h : m.Passes callers stop s t) : m.Runs s t := by
  induction h with
  | refl => exact .refl
  | step _ hs _ ih => exact .head ⟨_, hs⟩ ih

section

variable {m : Machine} {ctx : Context} {mc : MethodCode} {callers : Outer}

/-- After `s` an assignment that is a source of `e` is complete at `u`, and its value holds the list `a`. -/
inductive Machine.Stored (m : Machine) (ctx : Context) (mc : MethodCode) (callers : Outer) (e : Expr) (s u : State)
    (a : Nat) : Prop
  | intro {tok : Token} {l r : Expr} {x : Span} {d : Spot} {v : Value} {below : List Value}
      (source : .binary tok .assign l r ∈ e.sources) (span : x.expr? = some (.binary tok .assign l r))
      (covers : x.Covers ctx mc.code.toList) (runs : m.Runs s u) (complete : u.IsAt mc callers d)
      (pc : d.pc = x.start + x.length) (stack : d.stack = v :: below) (holds : v.Holds u.heap a) :
      Stored m ctx mc callers e s u a

/-- A list that was stored by an assignment in `e` is as it was then. -/
def Machine.Kept (m : Machine) (ctx : Context) (mc : MethodCode) (callers : Outer) (e : Expr) (s t : State) (h : Heap)
    (a : Nat) : Prop :=
  ∃ u, m.Stored ctx mc callers e s u a ∧ m.Runs u t ∧ h[a]? = u.heap[a]?

/-- A list that was stored by an assignment in `e` got other elements while `e` was evaluated. -/
def Machine.Alters (m : Machine) (ctx : Context) (mc : MethodCode) (callers : Outer) (e : Expr) (s t : State) : Prop :=
  ∃ a u w, m.Stored ctx mc callers e s u a ∧ m.Runs u w ∧ w.heap[a]? ≠ u.heap[a]? ∧ m.Runs w t

namespace Machine

variable {e x : Expr} {s s' t t' u : State} {h : Heap} {a : Nat}

theorem Stored.mono (hu : m.Stored ctx mc callers x s' u a) (hx : x.sources ⊆ e.sources) (hs : m.Runs s s') :
    m.Stored ctx mc callers e s u a := by
  cases hu with
  | intro source span covers runs complete pc stack holds =>
    exact .intro (hx source) span covers (hs.trans runs) complete pc stack holds

theorem Kept.mono (ha : m.Kept ctx mc callers x s' t h a) (hx : x.sources ⊆ e.sources) (hs : m.Runs s s') :
    m.Kept ctx mc callers e s t h a := by
  obtain ⟨u, hu, hut, heq⟩ := ha
  exact ⟨u, hu.mono hx hs, hut, heq⟩

theorem Kept.lt_size (ha : m.Kept ctx mc callers e s t h a) : a < h.size := by
  obtain ⟨u, hu, -, heq⟩ := ha
  cases hu with
  | intro _ _ _ _ _ _ _ holds =>
    obtain ⟨es, hes⟩ := holds.list
    exact (Array.getElem?_eq_some_iff.1 (heq.trans hes)).1

theorem Kept.later (ha : m.Kept ctx mc callers e s t h a) (ht : m.Runs t t') {h' : Heap} (hh : h'[a]? = h[a]?) :
    m.Kept ctx mc callers e s t' h' a := by
  obtain ⟨u, hu, hut, heq⟩ := ha
  exact ⟨u, hu, hut.trans ht, hh.trans heq⟩

theorem Alters.mono (h : m.Alters ctx mc callers x s' t) (hx : x.sources ⊆ e.sources) (hs : m.Runs s s')
    (ht : m.Runs t t') : m.Alters ctx mc callers e s t' := by
  obtain ⟨a, u, w, hu, huw, hne, hwt⟩ := h
  exact ⟨a, u, w, hu.mono hx hs, huw, hne, hwt.trans ht⟩

/-- What was stored is as it was still, or it was altered. -/
theorem same_or_alters {S : Set Nat} (hS : ∀ a ∈ S, m.Kept ctx mc callers e s t h a) (ht : m.Runs t t') :
    (∀ a ∈ S, t'.heap[a]? = h[a]?) ∨ m.Alters ctx mc callers e s t' := by
  by_cases hsame : ∀ a ∈ S, t'.heap[a]? = h[a]?
  · exact .inl hsame
  · push Not at hsame
    obtain ⟨a, ha, hne⟩ := hsame
    obtain ⟨u, hu, hut, heq⟩ := hS a ha
    exact .inr ⟨a, u, t', hu, hut.trans ht, fun he => hne (he.trans heq.symm), .refl⟩

end Machine

theorem State.IsAt.heap {c : Spot} {s : State} (h : s.IsAt mc callers c) : s.heap = c.heap := by
  obtain ⟨f, -, rfl⟩ := h
  rfl

/-- A value more, which has `null` where the type of `e` has it. The lists that hold it are hidden, or were
stored by assignments in `e`, and then they are as they were. -/
def Machine.AddsNulls (m : Machine) (ctx : Context) (mc : MethodCode) (callers : Outer) (e : Expr) (D : Set Nat) (c : Spot)
    (s : State) (d : Spot) (t : State) : Prop :=
  ∃ (N S : Set Nat) (v : Value), (∀ a ∈ N ∪ S, c.heap.size ≤ a) ∧ d.Hidden (D ∪ N) ∧ d.stack = v :: c.stack ∧
    v.NullsIn (N ∪ S) d.heap (ctx.typeOf e) ∧ ∀ a ∈ S, m.Kept ctx mc callers e s t d.heap a

/-- The code of an expression leaves `null` where its type has it, if nothing alters the lists that it stores. -/
def Context.LeavesNulls (ctx : Context) (m : Machine) (mc : MethodCode) (callers : Outer) (e : Expr) : Prop :=
  ∀ {q q' : Supply} {code : List Instr} {sp : List Span} {D : Set Nat} {c : Spot} {s : State},
    Emits ctx (.expr e) q code q' sp → ctx.method.slotCount ≤ q.slots → c.Hidden D →
      Ends m mc callers (c.pc + code.length)
        (fun d t => m.AddsNulls ctx mc callers e D c s d t ∨ m.Alters ctx mc callers e s t) code c s

theorem Ends.of_runs {stop : Nat} {Q : Spot → State → Prop} {rest : List Instr} {c : Spot} {s : State}
    (h : ∀ d t, m.Runs s t → Q d t) : Ends m mc callers stop Q rest c s :=
  fun _ _ _ d t _ _ hp => h d t hp.runs

/-- Where nothing has to be hidden, what the value is is all that is asked. -/
theorem Context.LeavesNulls.of_value {e : Expr} (hclean : (Piece.expr e).Clean ctx)
    (hn : ∀ cls, argCount (ctx.table.constructorDescriptor cls) = (ctx.table.constructorParams cls).length)
    (hl : LabelsOnce mc.code)
    (h : ∀ {q q' : Supply} {code : List Instr} {sp : List Span} {D : Set Nat} {c : Spot} {s : State},
      Emits ctx (.expr e) q code q' sp → ctx.method.slotCount ≤ q.slots → c.Hidden D →
        Ends m mc callers (c.pc + code.length)
          (fun d t => (∀ v, d.stack = v :: c.stack → ∃ S : Set Nat, (∀ a ∈ S, c.heap.size ≤ a) ∧
              v.NullsIn S d.heap (ctx.typeOf e) ∧ ∀ a ∈ S, m.Kept ctx mc callers e s t d.heap a) ∨
            m.Alters ctx mc callers e s t) code c s) :
    ctx.LeavesNulls m mc callers e := by
  intro q q' code sp D c s he hslots hc
  rw [← List.append_nil code]
  refine .part he hclean hn hl hc (h he hslots hc) fun d v s' hgoes hv _ => .nil (hv.imp_left fun hv => ?_)
  obtain ⟨S, hfresh, hnulls, hkept⟩ := hv v hgoes.stack
  refine ⟨∅, S, v, ?_, by simpa using hgoes.hidden, hgoes.stack, ?_, hkept⟩
  · rwa [Set.empty_union]
  · rwa [Set.empty_union]

theorem Context.LeavesNulls.of_plain {e : Expr} (hclean : (Piece.expr e).Clean ctx)
    (hn : ∀ cls, argCount (ctx.table.constructorDescriptor cls) = (ctx.table.constructorParams cls).length)
    (hl : LabelsOnce mc.code)
    (h : ∀ {q q' : Supply} {code : List Instr} {sp : List Span} {D : Set Nat} {c : Spot} {s : State},
      Emits ctx (.expr e) q code q' sp → ctx.method.slotCount ≤ q.slots → c.Hidden D →
        Ends m mc callers (c.pc + code.length)
          (fun d t => (∀ v, d.stack = v :: c.stack → v.NullsIn ∅ d.heap (ctx.typeOf e)) ∨
            m.Alters ctx mc callers e s t) code c s) :
    ctx.LeavesNulls m mc callers e := by
  refine Context.LeavesNulls.of_value hclean hn hl fun he hslots hc hat hstop hs d t ht hpc hp => ?_
  refine (h he hslots hc hat hstop hs d t ht hpc hp).imp_left fun hv v hst => ?_
  exact ⟨∅, fun a ha => ha.elim, hv v hst, fun a ha => ha.elim⟩

theorem Ends.literal {i : Expr} {q q' : Supply} {code : List Instr} {sp : List Span} {c : Spot} {s : State}
    (he : Emits ctx (.expr i) q code q' sp) : Ends m mc callers (c.pc + code.length)
      (fun d _ => ∀ k, Context.literal? i = some k → d.stack = .int (Int32.ofInt k) :: c.stack) code c s := by
  cases hi : Context.literal? i with
  | none =>
    intro _ _ _ d t _ _ _ k hk
    cases hk
  | some k =>
    obtain ⟨t, rfl⟩ : ∃ t, i = .int t k := by
      cases i <;> simp [Context.literal?] at hi
      exact ⟨_, by rw [hi]⟩
    cases he with
    | intro hr _ hcode _ =>
    subst hcode
    cases hr
    refine .pushInt fun s' _ => .nil fun k' hk => ?_
    obtain rfl := Option.some.inj hk
    rfl

section

variable {stop : Nat} {Q : Spot → State → Prop} {rest : List Instr} {c : Spot} {s : State} {D : Set Nat} {b : Nat}
  {v : Value} {vs below : List Value} {line : Int}

theorem Ends.box {N : Set Nat} {t : Ty} (hc : c.Hidden D) (hs : c.stack = v :: below) (hv : v.NullsIn N c.heap t)
    (h : ∀ d s' w, d.Hidden D → (∀ a < c.heap.size, d.heap[a]? = c.heap[a]?) → d.stack = w :: below →
      w.NullsIn N d.heap t → m.Passes callers.frames stop s s' → Ends m mc callers stop Q rest d s') :
    Ends m mc callers stop Q (onLine line (ClassCompiler.box t) ++ rest) c s := by
  cases t with
  | int | bool =>
    refine .invokeStatic hs fun s' hp => h _ s' _ ⟨?_, fun v hv => ?_⟩ (fun a ha => ?_) rfl trivial hp
    · exact (hc.heap.push (List.forall_mem_nil _)).hides
    · exact (hc.locals v hv).mono (hc.heap.push (List.forall_mem_nil _)).size
    · exact Array.getElem?_push_lt ha ▸ (Array.getElem?_eq_getElem ha).symm
  | _ => exact h c s v hc (fun _ _ => rfl) hs hv .refl

/-- The array list `b` on the stack has values of the types `ts`, with lists that are hidden or were stored. -/
structure Spot.Fills (D : Set Nat) (b : Nat) (below : List Value) (N S : Set Nat) (ts : List Ty) (vs : List Value)
    (c : Spot) : Prop where
  stack : c.stack = .ref b :: below
  hidden : c.Hidden (insert b (D ∪ N))
  later : ∀ a ∈ N ∪ S, b < a
  list : c.heap[b]? = some (.arrayList vs)
  nulls : Value.NullsInAll (N ∪ S) c.heap (ts.map fun t => ("", t)) vs

theorem Spot.Fills.start {d : Spot} (hc : c.Hidden D)
    (hstack : d.stack = .ref (c.heap.size + 1) :: .ref c.heap.size :: .ref c.heap.size :: c.stack)
    (hlocals : d.locals = c.locals) (hheap : d.heap = Array.push (Array.push c.heap (.list [])) (.arrayList [])) :
    d.Fills (insert c.heap.size D) (c.heap.size + 1) (.ref c.heap.size :: .ref c.heap.size :: c.stack) ∅ ∅ [] [] := by
  have hsize : d.heap.size = c.heap.size + 1 + 1 := by simp [hheap]
  refine ⟨hstack, ?_, fun a ha => ha.elim False.elim False.elim, ?_, trivial⟩
  · rw [Set.union_empty]
    refine ⟨?_, fun v hv => ?_⟩
    · have hhides := (hc.heap.push_hidden (.list [])).push_hidden (.arrayList [])
      rwa [Array.size_push, ← hheap] at hhides
    · rw [hsize]
      exact (hc.locals v (hlocals ▸ hv)).insert_size.insert_size
  · rw [hheap, ← Array.size_push (Object.list [])]
    exact Array.getElem?_push_size

/-- One more value was added, after others may have come that are no part of the list. -/
theorem Spot.Fills.add {N S N' S' : Set Nat} {ts : List Ty} {t : Ty} {d e : Spot} (h : c.Fills D b below N S ts vs)
    (hd : d.Hidden (insert b (D ∪ N) ∪ N')) (hsame : ∀ a ∈ N ∪ S, d.heap[a]? = c.heap[a]?)
    (hlater : ∀ a ∈ N' ∪ S', b < a) (hv : v.NullsIn (N' ∪ S') d.heap t) (hstack : e.stack = .ref b :: below)
    (hlocals : e.locals = d.locals) (hheap : e.heap = d.heap.set (.ref b) (.arrayList (vs ++ [v]))) :
    e.Fills D b below (N ∪ N') (S ∪ S') (ts ++ [t]) (vs ++ [v]) := by
  have hother : ∀ a, b < a → e.heap[a]? = d.heap[a]? := fun a ha => by
    rw [hheap]
    exact Array.getElem?_setIfInBounds_ne (Nat.ne_of_lt ha)
  have hsize : e.heap.size = d.heap.size := by simp [hheap, Heap.set]
  have hb : b ∈ insert b (D ∪ N) ∪ N' := Set.mem_union_left _ (Set.mem_insert _ _)
  have hsets : N ∪ N' ∪ (S ∪ S') = (N ∪ S) ∪ (N' ∪ S') := Set.union_union_union_comm _ _ _ _
  refine ⟨hstack, ?_, ?_, ?_, ?_⟩
  · rw [← Set.union_assoc, ← Set.insert_union]
    refine ⟨hheap ▸ hd.heap.set_hidden hb _, fun w hw => ?_⟩
    rw [hsize]
    exact hd.locals w (hlocals ▸ hw)
  · rw [hsets]
    exact fun a ha => ha.elim (h.later a) (hlater a)
  · rw [hheap, Heap.set, Array.getElem?_setIfInBounds_self, if_pos (hd.heap.bound b hb)]
  · rw [hsets, List.map_append]
    refine .append (.mono Set.subset_union_left (fun a ha => ?_) _ _ h.nulls) ⟨hv.mono Set.subset_union_right ?_ _ _, trivial⟩
    · exact (hother a (h.later a ha)).trans (hsame a ha)
    · exact fun a ha => hother a (hlater a ha)

theorem Spot.Fills.finish {N S : Set Nat} {ts : List Ty} {d e : Spot}
    (h : d.Fills (insert c.heap.size D) (c.heap.size + 1) below N S ts vs)
    (hlocals : e.locals = d.locals) (hheap : e.heap = d.heap.set (.ref c.heap.size) (.list vs)) :
    ∃ N' : Set Nat, (∀ a ∈ N' ∪ S, c.heap.size ≤ a) ∧ e.Hidden (D ∪ N') ∧
      (Value.ref c.heap.size).NullsIn (N' ∪ S) e.heap (.list (ts.map fun t => ("", t))) ∧
      ∀ a ∈ S, e.heap[a]? = d.heap[a]? := by
  set a := c.heap.size
  have hhidden : d.Hidden (D ∪ insert a (insert (a + 1) N)) := by
    rw [Set.union_insert, Set.union_insert, Set.insert_comm, ← Set.insert_union]
    exact h.hidden
  have ha : a ∈ D ∪ insert a (insert (a + 1) N) := Set.mem_union_right _ (Set.mem_insert _ _)
  have hsize : e.heap.size = d.heap.size := by simp [hheap, Heap.set]
  have hother : ∀ b ∈ N ∪ S, e.heap[b]? = d.heap[b]? := fun b hb => by
    have hlt := h.later b hb
    rw [hheap]
    exact Array.getElem?_setIfInBounds_ne (by omega)
  have hsub : N ∪ S ⊆ insert a (insert (a + 1) N) ∪ S :=
    Set.union_subset_union_left _ fun b hb => Set.mem_insert_of_mem _ (Set.mem_insert_of_mem _ hb)
  refine ⟨insert a (insert (a + 1) N), ?_, ⟨hheap ▸ hhidden.heap.set_hidden ha _, fun v hv => ?_⟩,
    fun _ => ⟨a, Set.mem_union_left _ (Set.mem_insert _ _), rfl, vs, ?_, ?_⟩, fun b hb => hother b (.inr hb)⟩
  · rintro b ((rfl | rfl | hb) | hb)
    · exact Nat.le_refl _
    · exact Nat.le_succ _
    · have hlt := h.later b (.inl hb)
      omega
    · have hlt := h.later b (.inr hb)
      omega
  · rw [hsize]
    exact hhidden.locals v (hlocals ▸ hv)
  · rw [hheap, Heap.set, Array.getElem?_setIfInBounds_self, if_pos (hhidden.heap.bound a ha)]
  · exact .mono hsub hother _ _ h.nulls

theorem Ends.fill {e₀ : Expr} {s₀ : State} {es : List Expr} {q q' : Supply} {code : List Instr} {sp : List Span}
    {N S : Set Nat} {ts : List Ty} (hes : ∀ e ∈ es, e.sources ⊆ e₀.sources ∧ ctx.LeavesNulls m mc callers e)
    (halters : ∀ d t, m.Alters ctx mc callers e₀ s₀ t → Q d t)
    (he : Emits ctx (.elements line es) q code q' sp) (hclean : (Piece.elements line es).Clean ctx)
    (hn : ∀ cls, argCount (ctx.table.constructorDescriptor cls) = (ctx.table.constructorParams cls).length)
    (hl : LabelsOnce mc.code) (hslots : ctx.method.slotCount ≤ q.slots) (hs : m.Runs s₀ s)
    (hc : c.Fills D b below N S ts vs) (hkept : ∀ a ∈ S, m.Kept ctx mc callers e₀ s₀ s c.heap a)
    (h : ∀ d s' N' S' vs', d.Fills D b below N' S' (ts ++ es.map ctx.typeOf) vs' →
      (∀ a ∈ S', m.Kept ctx mc callers e₀ s₀ s' d.heap a) → m.Runs s₀ s' → Ends m mc callers stop Q rest d s') :
    Ends m mc callers stop Q (code ++ rest) c s := by
  induction es generalizing q code sp c s N S ts vs with
  | nil =>
    cases he with
    | intro hr _ hcode _ =>
    subst hcode
    cases hr
    exact h c s N S vs (by simpa using hc) hkept hs
  | cons e es ih =>
    cases he with
    | intro hr hp hcode hg =>
    subst hcode
    have hparts := Parts.iff_forall_mem.2 hp
    have hcleans := hr.clean hclean
    cases hr with
    | elements =>
    simp only [Parts.part_iff, Parts.ops_iff, Parts.nil_iff, and_true] at hparts hcleans
    obtain ⟨hx, hrest⟩ := hparts
    obtain ⟨⟨hsources, hleaves⟩, hes'⟩ := List.forall_mem_cons.1 hes
    simp only [codeOf_cons, codeOf_nil, Item.code, onLine_cons, onLine_nil, List.append_assoc, List.cons_append,
      List.nil_append]
    refine .dup hc.stack fun s₁ hp₁ => ?_
    have hs₁ := hs.trans hp₁.runs
    have hhidden : (c.next (.ref b :: .ref b :: below)).Hidden (insert b (D ∪ N)) := ⟨hc.hidden.heap, hc.hidden.locals⟩
    refine .part hx hcleans.1 hn hl hhidden (hleaves hx hslots hhidden) fun d v s₂ hgoes hres hp₂ => ?_
    have hs₂ := hs₁.trans hp₂.runs
    rcases hres with ⟨N₁, S₁, w, hfresh, hd, hst, hw, hkept₁⟩ | halt
    case inr => exact .of_runs fun _ t ht => halters _ t (halt.mono hsources hs₁ ht)
    -- The elements so far are as they were, or one of their lists was altered meanwhile.
    refine .at_ fun _ _ hat => ?_
    rcases Machine.same_or_alters hkept (hp₁.trans hp₂).runs with hsame | halt
    case inr => exact .of_runs fun _ t ht => halters _ t (halt.mono (fun _ => id) .refl ht)
    rw [hat.heap] at hsame
    have hsame' : ∀ a ∈ N ∪ S, d.heap[a]? = c.heap[a]? := fun a ha =>
      ha.elim (fun ha => hgoes.keeps.same a (Set.mem_insert_of_mem _ (.inr ha))) (hsame a)
    have hbound : ∀ a ∈ N ∪ S, a < d.heap.size := fun a ha => ha.elim
      (fun ha => hd.heap.bound a (Set.mem_union_left _ (Set.mem_insert_of_mem _ (.inr ha))))
      (fun ha => ((hkept a ha).later .refl (hsame a ha)).lt_size)
    refine .box hd hst hw fun d₁ s₃ u hd₁ hbox hst₁ hu hp₃ => ?_
    have hb : b < c.heap.size := hc.hidden.heap.bound b (Set.mem_insert _ _)
    have hb₁ : d₁.heap[b]? = some (.arrayList vs) := by
      rw [hbox b (Nat.lt_of_lt_of_le hb hgoes.keeps.size), hgoes.keeps.same b (Set.mem_insert _ _)]
      exact hc.list
    refine .addElement hst₁ hb₁ fun d₂ s₄ hst₂ hl₂ hh₂ hp₄ => ?_
    have hfills := hc.add hd₁ (fun a ha => (hbox a (hbound a ha)).trans (hsame' a ha))
      (fun a ha => Nat.lt_of_lt_of_le hb (hfresh a ha)) hu hst₂ hl₂ hh₂
    have hheap : ∀ a, b < a → a < d.heap.size → d₂.heap[a]? = d.heap[a]? := fun a hba ha => by
      rw [hh₂, Heap.set, Array.getElem?_setIfInBounds_ne (Nat.ne_of_lt hba), hbox a ha]
    have hs₄ := (hp₃.trans hp₄).runs
    refine ih hes' hrest hcleans.2 (Nat.le_trans hslots hx.slots_mono) (hs₂.trans hs₄) hfills (fun a ha => ?_)
      fun d' s' N' S' vs' hd' hk hs' => ?_
    · rcases ha with ha | ha
      · have hsa := hheap a (hc.later a (.inr ha)) (hbound a (.inr ha))
        exact (hkept a ha).later ((hp₁.trans hp₂).runs.trans hs₄) (hsa.trans (hsame a ha))
      · have hlt := Nat.lt_of_lt_of_le hb (hfresh a (.inr ha))
        exact ((hkept₁ a ha).mono hsources hs₁).later hs₄ (hheap a hlt (hkept₁ a ha).lt_size)
    · rw [List.append_assoc] at hd'
      exact h d' s' N' S' vs' hd' hk hs'

end

/-- A new list has `null` where its elements have it. -/
theorem Context.leavesNulls_list {t : Token} {es : List Expr} (hes : ∀ e ∈ es, ctx.LeavesNulls m mc callers e)
    (hclean : (Piece.expr (.list t es)).Clean ctx)
    (hn : ∀ cls, argCount (ctx.table.constructorDescriptor cls) = (ctx.table.constructorParams cls).length)
    (hl : LabelsOnce mc.code) : ctx.LeavesNulls m mc callers (.list t es) := by
  intro q q' code sp D c s he hslots hc
  cases he with
  | intro hr hp hcode hg =>
  subst hcode
  have hparts := Parts.iff_forall_mem.2 hp
  have hcleans := hr.clean hclean
  cases hr with
  | list =>
  simp only [Parts.part_iff, Parts.ops_iff, Parts.nil_iff, and_true] at hparts hcleans
  rw [codeOf_cons, codeOf_cons]
  refine .newList fun d₁ s₁ hst₁ hl₁ hh₁ hp₁ => ?_
  have hsources : ∀ e ∈ es, e.sources ⊆ (Expr.list t es).sources := fun e he y hy =>
    List.mem_cons_of_mem _ (Expr.sources_subset he hy)
  refine .fill (fun e he => ⟨hsources e he, hes e he⟩) (fun _ _ => .inr) hparts hcleans hn hl hslots hp₁.runs (.start hc hst₁ hl₁ hh₁) (fun a ha => ha.elim)
    fun d s₂ N S vs hd hkept _ => ?_
  refine .invokeSpecial [.ref (c.heap.size + 1)] hd.stack rfl fun heap s₃ hrun hp₃ => .nil (.inl ?_)
  obtain ⟨o, elems, ho, hselect, hheap⟩ := Ends.fillList_eq_ok hrun
  obtain rfl : o = .arrayList vs := Option.some.inj (ho.symm.trans hd.list)
  obtain rfl : vs = elems := Option.some.inj hselect
  obtain ⟨N', hfresh, hhidden, hnulls, hsame⟩ := hd.finish (e := ⟨_, _, _, heap, _⟩) rfl hheap
  refine ⟨N', S, _, hfresh, hhidden, rfl, ?_, fun a ha => (hkept a ha).later hp₃.runs (hsame a ha)⟩
  rw [ctx.typeOf_list]
  exact hnulls

/-- What is read from such a list at a position is what the type has there. -/
theorem Value.NullsIn.element {N : Set Nat} {h : Heap} {es : List (String × Ty)} {i : Expr} {it : Ty} {a k : Nat} {v : Value}
    {vs : List Value} (hlist : (Value.ref a).NullsIn N h (.list es)) (hn : (Ty.list es).HasNull)
    (hknown : (Ty.list es).Settled) (ho : h[a]? = some (.list vs)) (hv : vs[k]? = some v)
    (hk : ∀ n, Context.literal? i = some n → n = k) (ht : (ctx.elementAccess i it es).type ≠ .noType) :
    v.NullsIn N h (ctx.elementAccess i it es).type := by
  obtain ⟨b, -, hab, ws, hws, hall⟩ := hlist hn
  obtain rfl := Value.ref.inj hab
  obtain rfl : vs = ws := Object.list.inj (Option.some.inj (ho.symm.trans hws))
  obtain ⟨e, he, hve⟩ := hall.get hv
  have hsettled := (Ty.settledElems_iff.1 hknown e (List.mem_of_getElem? he)).isNoType
  rcases Context.elementAccess_at ht hk he hsettled with hty | hty
  · rw [hty]
    exact hve
  · exact .of_equivalent e.2 _ hty v hve

theorem Ty.isPrimitive_of_hasNull {t : Ty} (h : t.HasNull) : t.isPrimitive = false := by
  cases t <;> first | rfl | exact h.elim

/-- An element of a list has `null` where the list has it. -/
theorem Context.leavesNulls_index {t : Token} {x i : Expr} {es : List (String × Ty)}
    (hx : ctx.LeavesNulls m mc callers x) (hclean : (Piece.expr (.index t x i)).Clean ctx)
    (hn : ∀ cls, argCount (ctx.table.constructorDescriptor cls) = (ctx.table.constructorParams cls).length)
    (hl : LabelsOnce mc.code) (hi : i.Written) (ht : ctx.typeOf x = .list es) (hlist : (Ty.list es).HasNull)
    (hknown : (Ty.list es).Settled) (hnull : (ctx.typeOf (.index t x i)).HasNull) :
    ctx.LeavesNulls m mc callers (.index t x i) := by
  intro q q' code sp D c s he hslots hc
  have htype : ctx.typeOf (.index t x i) = (ctx.elementAccess i (ctx.inferCall false i).type es).type := by
    have htx : (ctx.inferCall false x).type = .list es := ht
    simp [typeOf, infer, inferCall, htx, indexAccess]
  have hsources : x.sources ⊆ (Expr.index t x i).sources := List.subset_cons_self _ _
  cases he with
  | intro hr hp hcode hg =>
  subst hcode
  have hparts := Parts.iff_forall_mem.2 hp
  have hcleans := hr.clean hclean
  cases hr with
  | index =>
  simp only [Parts.part_iff, Parts.ops_iff, Parts.nil_iff, and_true] at hparts hcleans
  obtain ⟨hxe, hie⟩ := hparts
  simp only [codeOf_cons, codeOf_nil, Item.code, onLine_cons]
  refine .part hxe hcleans.1 hn hl hc (hx hxe hslots hc) fun d₁ v s₁ _ hres hp₁ => ?_
  rcases hres with ⟨N, S, w, hfresh, hd₁, hst₁, hw, hkept⟩ | halt
  case inr => exact .of_runs fun _ _ ht => .inr (halt.mono hsources .refl ht)
  refine .part hie hcleans.2 hn hl hd₁ (.literal hie) fun d₂ n s₂ hgoes hlit hp₂ => ?_
  refine .at_ fun _ _ hat => ?_
  rcases Machine.same_or_alters hkept hp₂.runs with hsame | halt
  case inr => exact .of_runs fun _ _ ht => .inr (halt.mono hsources .refl ht)
  rw [hat.heap] at hsame
  rw [ht] at hw
  refine .getElement (hgoes.stack.trans (by rw [hst₁]; rfl)) fun a vs k u s₃ ha ho hk hu hp₃ => ?_
  refine .narrow (Ty.isPrimitive_of_hasNull hnull) fun d s₄ hst hlocals hheap hp₄ => .nil (.inl ?_)
  subst ha
  have hliteral : ∀ z, literal? i = some z → z = k := by
    intro z hz
    obtain ⟨rfl, -⟩ := List.cons.inj (hgoes.stack.symm.trans (hlit z hz))
    cases i <;> simp [literal?] at hz
    subst hz
    rw [← hk]
    exact (Int32.toInt_ofInt_of_le hi.1 hi.2).symm
  refine ⟨N, S, u, hfresh, ⟨hheap ▸ hgoes.keeps.hides, fun x hx => ?_⟩, hst, ?_, fun a ha => ?_⟩
  · rw [hheap]
    exact hgoes.locals x (hlocals ▸ hx)
  · rw [hheap]
    rw [htype] at hnull ⊢
    have hsame' : ∀ b ∈ N ∪ S, d₂.heap[b]? = d₁.heap[b]? := fun b hb =>
      hb.elim (fun hb => hgoes.keeps.same b (Set.mem_union_right _ hb)) (hsame b)
    exact (hw.mono (fun _ => id) hsame').element hlist hknown ho hu hliteral fun he => by simp [he, Ty.HasNull] at hnull
  · rw [hheap]
    exact ((hkept a ha).mono hsources .refl).later ((hp₂.trans hp₃).trans hp₄).runs (hsame a ha)

theorem Context.isPrimitive_of_assignment {pos : Pos} {l : Typed} {r : Ty} (hr : r.HasNull)
    (h : (ctx.assignment pos l r).type = r) : l.type.isPrimitive = false ∧ (r.isList = true → l.type.isList = true) := by
  unfold assignment at h
  split at h
  · exact (h ▸ hr).elim
  split at h
  · exact (h ▸ hr).elim
  split at h
  · next hnot hsub =>
    cases r <;> cases hl : l.type <;>
      simp_all [Program.isSubtype, Ty.isSubtype, Ty.isPrimitive, Ty.isList, Ty.HasNull, Ty.isNoType]
  · exact (h ▸ hr).elim

/-- An object that an assignment changes was there before its value was. -/
theorem Location.Named.ref_mem {left right : Ty} {own : Int → Prop} {c w : Spot} {l : Expr} {more below : List Value}
    {post : List Instr} {v : Value} {a : Nat} {k : Key} (ha : Aimed ctx left right own c l more post)
    (hn : Location.Named ctx w l (.inside a k)) (hs : w.stack = v :: more ++ below) : .ref a ∈ more := by
  cases hn <;> cases ha <;> simp_all

theorem Emits.length_pos {e : Expr} {q q' : Supply} {code : List Instr} {sp : List Span}
    (he : Emits ctx (.expr e) q code q' sp) (hclean : (Piece.expr e).Clean ctx)
    (hn : ∀ cls, argCount (ctx.table.constructorDescriptor cls) = (ctx.table.constructorParams cls).length) :
    0 < code.length := by
  obtain ⟨depth, hstart, hend, -, -⟩ :=
    (depthFlow_sound hn).holds he (T := fun _ _ => False) (a := 0) (b := 1) ⟨hclean, rfl⟩
  refine Nat.pos_of_ne_zero fun hz => ?_
  rw [hz, hstart] at hend
  cases hend

/-- A copy of a list with `null` in its type has `null` where the list has it. -/
theorem Ends.copyNulls {e r : Expr} {q q' : Supply} {rc rest : List Instr} {sp : List Span} {c : Spot} {s : State}
    {D : Set Nat} {stop : Nat} {Q : Spot → State → Prop} {left : Ty} {es : List (String × Ty)} {line : Int}
    (hr : ctx.LeavesNulls m mc callers r) (hsources : r.sources ⊆ e.sources)
    (halters : ∀ d t, m.Alters ctx mc callers e s t → Q d t)
    (he : Emits ctx (.expr r) q rc q' sp) (hclean : (Piece.expr r).Clean ctx)
    (hn : ∀ cls, argCount (ctx.table.constructorDescriptor cls) = (ctx.table.constructorParams cls).length)
    (hl : LabelsOnce mc.code) (hslots : ctx.method.slotCount ≤ q.slots) (hc : c.Hidden D)
    (hleft : left.isList = true) (hright : ctx.typeOf r = .list es) (hnull : (Ty.list es).HasNull)
    (h : ∀ d s' M, d.stack = .ref c.heap.size :: c.stack → (∀ a ∈ M, c.heap.size ≤ a) →
      (∀ i : Nat, ¬OwnSlot ctx.method.slotCount q q' i → d.locals[i]? = c.locals[i]?) →
      (Value.ref c.heap.size).NullsIn M d.heap (.list es) → m.Runs s s' → Ends m mc callers stop Q rest d s') :
    Ends m mc callers stop Q (onLine line (copyBegin left (ctx.typeOf r)) ++ (rc ++
      (onLine line (copyEnd left (ctx.typeOf r)) ++ rest))) c s := by
  have hright' : (ctx.typeOf r).isList = true := by
    rw [hright]
    rfl
  simp only [copyBegin, copyEnd, hleft, hright', Bool.and_self, if_true, onLine_cons, onLine_nil, List.cons_append,
    List.nil_append]
  refine .new m.allocate_list fun s₁ hp₁ => .dup rfl fun s₂ hp₂ => ?_
  set b := c.heap.size
  set c₂ : Spot := Spot.next { c.next (.ref b :: c.stack) with heap := c.heap.push (.list []) }
    (.ref b :: .ref b :: c.stack) with hc₂
  have hsize : c₂.heap.size = b + 1 := by simp [hc₂, Spot.next, b]
  have hhidden : c₂.Hidden (insert b D) := ⟨hc.heap.push_hidden _, fun v hv => by
    rw [hsize]
    exact (hc.locals v hv).insert_size⟩
  have hs₂ := (hp₁.trans hp₂).runs
  refine .part he hclean hn hl hhidden (hr he hslots hhidden) fun u v s₃ hgoes hres hp₃ => ?_
  rcases hres with ⟨N, S, w, hfresh, -, hst, hw, -⟩ | halt
  case inr => exact .of_runs fun _ t ht => halters _ t (halt.mono hsources hs₂ ht)
  rw [hright] at hw
  obtain ⟨a, ha, rfl, vs, hvs, hall⟩ := hw hnull
  refine .invokeSpecial [.ref a] hst rfl fun heap s₄ hrun hp₄ => ?_
  obtain ⟨o, elems, ho, hselect, hheap⟩ := fillList_eq_ok hrun
  obtain rfl : o = .list vs := Option.some.inj (ho.symm.trans hvs)
  obtain rfl : vs = elems := Option.some.inj hselect
  have hlater : ∀ a ∈ N ∪ S, b < a := fun a ha => by
    have := hfresh a ha
    omega
  have hb : b < u.heap.size := hgoes.hidden.heap.bound b (Set.mem_insert _ _)
  refine h _ s₄ (insert b (N ∪ S)) rfl ?_ hgoes.same (fun _ => ⟨b, Set.mem_insert _ _, rfl, vs, ?_, ?_⟩)
    (hs₂.trans (hp₃.trans hp₄).runs)
  · rintro x (rfl | hx)
    · exact Nat.le_refl _
    · exact Nat.le_of_lt (hlater x hx)
  · simp [hheap, Heap.set, hb]
  · refine .mono (Set.subset_insert _ _) (fun x hx => ?_) _ _ hall
    simp only [hheap, Heap.set]
    exact Array.getElem?_setIfInBounds_ne (Nat.ne_of_lt (hlater x hx))

/-- What is assigned is the value. A list that is stored is kept until it is altered. -/
theorem Context.leavesNulls_assign {t : Token} {l r : Expr} (hr : ctx.LeavesNulls m mc callers r)
    (hclean : (Piece.expr (.binary t .assign l r)).Clean ctx)
    (hn : ∀ cls, argCount (ctx.table.constructorDescriptor cls) = (ctx.table.constructorParams cls).length)
    (hl : LabelsOnce mc.code) (htype : ctx.typeOf (.binary t .assign l r) = ctx.typeOf r)
    (hnull : (ctx.typeOf r).HasNull) : ctx.LeavesNulls m mc callers (.binary t .assign l r) := by
  refine Context.LeavesNulls.of_value hclean hn hl fun {q q' code sp D c s} he hslots hc => ?_
  obtain ⟨hleft, hlists⟩ : (ctx.typeOf l).isPrimitive = false ∧ ((ctx.typeOf r).isList = true → (ctx.typeOf l).isList = true) :=
    ctx.isPrimitive_of_assignment (l := ctx.infer l) hnull htype
  have hright := Ty.isPrimitive_of_hasNull hnull
  have hsources : r.sources ⊆ (Expr.binary t .assign l r).sources := List.subset_cons_self _ _
  rw [htype]
  refine .at_ fun hcode _ _ => ?_
  have hpos := he.length_pos hclean hn
  have hcovers : Span.Covers ctx mc.code.toList ⟨.expr (.binary t .assign l r), q, c.pc, code.length⟩ := by
    have hlt := (Array.getElem?_eq_some_iff.1 (hcode 0 _ (List.getElem?_eq_getElem hpos))).1
    exact he.covers_at hcode (by omega)
  rw [← List.append_nil code]
  refine .aim he hclean hn hl hslots hc fun c' s₁ more rc u u' rs post hrc hclean' hu _ hgoes haimed hp₁ => ?_
  have hslots' := Nat.le_trans hslots hu
  cases hty : ctx.typeOf r with
  | list es =>
    rw [hty] at hnull hright haimed
    rw [← hty]
    refine .copyNulls hr hsources (fun _ t h => .inr (h.mono (fun _ => id) hp₁.runs .refl)) hrc hclean' hn hl hslots'
      hgoes.hidden (hlists (by rw [hty]; rfl)) hty hnull fun w s₂ M hst hM hsame hw hs₂ => ?_
    have hstack : w.stack = .ref c'.heap.size :: more ++ c.stack := by
      rw [hst, hgoes.stack]
      rfl
    refine .put haimed hstack hsame hleft hright fun d s₃ p hnamed hd hlocals hheap hholds hp₃ => ?_
    refine .at_ fun _ hstop hat => .nil (.inl fun v hv => ?_)
    obtain ⟨rfl, -⟩ := List.cons.inj (hd.symm.trans hv)
    -- The store hits a list that was there before the copy, so none of those that hold the copied nulls.
    have hother : ∀ a ∈ M, d.heap[a]? = w.heap[a]? := by
      intro a ha
      rw [hheap]
      cases p with
      | slot n => rfl
      | inside x k =>
        have hlt := (hgoes.clear _ (hnamed.ref_mem haimed hstack) x rfl).1
        have hle := hM a ha
        simp only [Location.put, Array.getElem?_modify]
        rw [if_neg (by omega)]
    have hnulls := (hw.mono (fun _ => id) hother).held
    rw [hty]
    refine ⟨_, fun a ha => Nat.le_trans hgoes.keeps.size (hM a ha.1), hnulls, fun a ha => ⟨s₃, ?_, .refl, by rw [hat.heap]⟩⟩
    rw [← hat.heap] at ha
    exact .intro List.mem_cons_self rfl hcovers (hp₁.runs.trans (hs₂.trans hp₃.runs)) hat (by simpa using hstop.symm) hd ha.2
  | null =>
    rw [hty] at hright haimed
    have hcopy : copyBegin (ctx.typeOf l) .null = [] ∧ copyEnd (ctx.typeOf l) .null = [] := by
      simp [copyBegin, copyEnd, Ty.isList]
    rw [hcopy.1, hcopy.2]
    simp only [onLine_nil, List.nil_append]
    refine .part hrc hclean' hn hl hgoes.hidden (hr hrc hslots' hgoes.hidden) fun d v s₂ hgoes' hres hp₂ => ?_
    rcases hres with ⟨N, S, w, _, _, hst, hw, _⟩ | halt
    case inr => exact .of_runs fun _ _ ht => .inr (halt.mono hsources hp₁.runs ht)
    rw [hty] at hw
    have hstack : d.stack = .null :: more ++ c.stack := by
      rw [hst, show w = .null from hw, hgoes.stack]
      rfl
    refine .put haimed hstack hgoes'.same hleft hright fun e s₃ p _ he _ _ _ _ => .nil (.inl fun v hv => ?_)
    exact ⟨∅, fun a ha => ha.elim, (List.cons.inj (hv.symm.trans he)).1, fun a ha => ha.elim⟩
  | _ => exact (hty ▸ hnull).elim

theorem Context.KnowsNulls.mono {e x : Expr} (h : ctx.KnowsNulls e) (hs : x.sources ⊆ e.sources) : ctx.KnowsNulls x :=
  fun y hy => h y (hs hy)

/-- The code of every such expression leaves `null` where its type has it. -/
theorem Context.leavesNulls {e : Expr} (hw : ctx.Written)
    (hn : ∀ cls, argCount (ctx.table.constructorDescriptor cls) = (ctx.table.constructorParams cls).length)
    (hl : LabelsOnce mc.code) (hclean : (Piece.expr e).Clean ctx) (hterms : AllWritten e.subterms)
    (hknows : ctx.KnowsNulls e) : ctx.LeavesNulls m mc callers e := by
  by_cases hnull : (ctx.typeOf e).HasNull
  · obtain ⟨dropped, hissues⟩ := id hclean
    have hall := List.forall_iff_forall_mem.1 hterms
    rcases hasNull_cases hw (hall e e.mem_subterms) hissues hnull with ⟨t, rfl⟩ | ⟨t, es, rfl⟩ |
      ⟨t, x, i, es, rfl, hx, hlist⟩ | ⟨t, l, r, rfl, htype⟩
    · refine Context.LeavesNulls.of_plain hclean hn hl fun he _ _ => ?_
      cases he with
      | intro hr _ hcode _ =>
      subst hcode
      cases hr
      exact .pushNull fun s' _ => .nil (.inl fun v hv => (List.cons.inj hv).1.symm)
    · refine leavesNulls_list (fun x hx => ?_) hclean hn hl
      have hsub := Expr.subterms_subset hx
      have hxclean := clean_of_mem_subtermsOfAll es hissues x (hsub x.mem_subterms)
      have hsize := List.sizeOf_lt_of_mem hx
      exact @leavesNulls x hw hn hl ⟨false, hxclean⟩
        (List.forall_iff_forall_mem.2 fun y hy => hall y (List.mem_cons_of_mem _ (hsub hy)))
        (hknows.mono fun y hy => List.mem_cons_of_mem _ (Expr.sources_subset hx hy))
    · simp only [inferCall, List.append_eq_nil_iff] at hissues
      have hxknows : ctx.KnowsNulls x := hknows.mono (List.subset_cons_self _ _)
      have hxknown := hxknows x x.mem_sources (hx ▸ hlist)
      refine leavesNulls_index ?_ hclean hn hl (hall i ?_) hx hlist (hx ▸ hxknown) hnull
      · exact @leavesNulls x hw hn hl ⟨false, hissues.1.2⟩ (List.forall_iff_forall_mem.2 fun y hy => hall y (by
          simp [Expr.subterms, hy])) hxknows
      · simp [Expr.subterms, i.mem_subterms]
    · simp only [inferCall, List.append_eq_nil_iff] at hissues
      refine leavesNulls_assign ?_ hclean hn hl htype (htype ▸ hnull)
      exact @leavesNulls r hw hn hl ⟨false, hissues.1.2⟩ (List.forall_iff_forall_mem.2 fun y hy => hall y (by
        simp [Expr.subterms, hy])) (hknows.mono (List.subset_cons_self _ _))
  · refine Context.LeavesNulls.of_plain hclean hn hl fun _ _ _ => .of_runs fun _ _ _ => ?_
    exact .inl fun v _ => Value.nullsIn_of_not_hasNull hnull v
termination_by sizeOf e

end

/-- In an accepted program an expression of type `null` leaves `null`, unless an element of a list that an
assignment in it stored was changed in the meantime. The types with `null` in them that it gets its own from
have to be known at every depth. -/
theorem accepted_null_is_null {o : CompileOptions} {p : Program} {files : List ClassFile}
    (hw : p.Written) (ha : (p.check o.entry).issues = [])
    (hc : Program.compile o (p.check o.entry).decl (p.check o.entry).decl = .ok files) :
    (∀ mc, (Machine.load files).HasMethod mc →
        ∃ c ∈ p.classes, Made o c mc ∨ ∃ d ∈ c.bodies, CodeFor o p c d mc) ∧
      ∀ c ∈ p.classes, ∀ d ∈ c.bodies, ∀ mc, CodeFor o p c d mc →
        ∃ spans : List Span, spans.filterMap Span.expr? = Stmt.evaluatedAll d.body ∧
          (∀ x ∈ spans, x.Covers ⟨p, c.name.name, d⟩ mc.code.toList) ∧
          ∀ x ∈ spans, ∀ e, x.expr? = some e → Context.typeOf ⟨p, c.name.name, d⟩ e = .null →
            Context.KnowsNulls ⟨p, c.name.name, d⟩ e →
            ∀ entry callers a s b t, (Machine.load files).Reaches entry s →
              (Machine.load files).Evaluates mc callers x a s b t →
              b.stack = .null :: a.stack ∨ (Machine.load files).Alters ⟨p, c.name.name, d⟩ mc callers e s t := by
  obtain ⟨hdecl, hclean⟩ := Program.check_clean ha
  rw [hdecl] at hc
  refine ⟨fun mc hmc => HasMethod.origin (Program.compile_ok hc) hmc, fun c hmem d hd mc hcode => ?_⟩
  obtain ⟨spans, hexprs, hcovers, hsites⟩ := hcode.sites ((hw c hmem).bodies d hd) (hclean.bodyClean hmem hd)
  refine ⟨spans, hexprs, hcovers, fun x hx e he htype hknows entry callers a s b t hs heval => ?_⟩
  have hsite := hsites x hx e he
  have hctx : Context.Written ⟨p, c.name.name, d⟩ := ⟨hw, ((hw c hmem).bodies d hd).vars⟩
  have hleaves := heval.ends_of hs hsite fun code after sp hemits hb hc =>
    Context.leavesNulls hctx hw.argCount_constructorDescriptor hsite.labels hsite.clean hsite.written hknows hemits
      hsite.slots hc
  rcases hleaves with ⟨N, S, v, -, -, hstack, hv, -⟩ | halt
  · rw [htype] at hv
    exact .inl (by rw [hstack, show v = .null from hv])
  · exact .inr halt

namespace AlteredNull

open Sample Yaml

/-- A list of `null` is assigned, and its element while the list is indexed. -/
def source : String :=
  "classes: [{class: Main,constructor: {locals: [{a: list(Main)}],body: [{print: {bin: [==,{idx: [{assign: [a,{list: [null]}]},{idx: [{list: [{assign: [{idx: [a,0]},this]},0]},1]}]},null]}}]}}]"

def scalar (tag text : String) (column : Nat) : Node := ⟨.scalar, tag, .plain, text, 1, column, []⟩

def root : Node :=
  entry 1 [word "classes" 1, row 10 [
    entry 11 [word "class" 12, word "Main" 19, word "constructor" 24, entry 37 [
      word "locals" 38, row 46 [entry 47 [word "a" 48, word "list(Main)" 51]],
      word "body" 64, row 70 [entry 71 [word "print" 72, entry 79 [word "bin" 80, row 85 [word "==" 86,
        entry 89 [word "idx" 90, row 95 [
          entry 96 [word "assign" 97, row 105 [word "a" 106,
            entry 108 [word "list" 109, row 115 [scalar "!!null" "null" 116]]]],
          entry 125 [word "idx" 126, row 131 [
            entry 132 [word "list" 133, row 139 [
              entry 140 [word "assign" 141, row 149 [
                entry 150 [word "idx" 151, row 156 [word "a" 157, scalar "!!int" "0" 159]], word "this" 163]],
              scalar "!!int" "0" 170]],
            scalar "!!int" "1" 174]]]],
        scalar "!!null" "null" 180]]]]]]]]

def int (text : String) (v : Int) (column : Int) : Expr := .int ⟨.intLit, text, 1, column⟩ v

def element : Expr :=
  .index (token .bracket 90)
    (.binary (token (.binary .assign) 97) .assign (.ident (name "a" 106))
      (.list (token .bracket 109) [.null (token .null 116)]))
    (.index (token .bracket 126)
      (.list (token .bracket 133) [
        .binary (token (.binary .assign) 141) .assign
          (.index (token .bracket 151) (.ident (name "a" 157)) (int "0" 0 159)) (.this (token .this 163)),
        int "0" 0 170])
      (int "1" 1 174))

def body : MethodDecl where
  token := ⟨.constructor, "", 1, 37⟩
  name := ⟨⟨.constructor, "", 1, 37⟩, "Main"⟩
  locals := [⟨⟨.var, "a", 1, 48⟩, name "a" 48, .list [("", .cls "Main")]⟩]
  body := [.print (token .print 72) (.binary (token (.binary .eq) 80) .eq element (.null (token .null 180)))]

def main : ClassDecl where
  token := ⟨.classDecl, "Main", 1, 11⟩
  name := name "Main" 19
  constructor := some body

def program : Program := { file := "sample", classes := [main] }

theorem parse_list : Ty.parse "list(Main)" = .ok (.list [("", .cls "Main")]) := by rfl

theorem ofNode_root : Program.ofNode "sample" root = .ok program := by
  simp [Program.ofNode, root, entry, row, word, scalar, Decoder.classLists, Decoder.classDecl, Decoder.entries,
    Decoder.classParts, Decoder.name, Decoder.constructor, Decoder.methodParts, Decoder.stmtList, Decoder.stmts,
    Decoder.stmt, Decoder.expr, Decoder.exprs, Decoder.scalar, Decoder.vars, Decoder.var, Decoder.type,
    Node.isNull, bind, Except.bind, pure, Except.pure, parse_list, SharedLists.int?_zero, int?_one]
  rfl

set_option maxRecDepth 1500 in
theorem decode_source : Program.decode "sample" source = .ok program :=
  Program.decode_of_read (by decide +kernel) ofNode_root

theorem accepted : (program.check "Main").issues = [] := by decide

theorem compiled : ∃ files, Program.compile {} (program.check "Main").decl (program.check "Main").decl = .ok files := by
  have hc : (Program.compile {} (program.check "Main").decl (program.check "Main").decl).toOption.isSome := by decide
  cases hf : Program.compile {} (program.check "Main").decl (program.check "Main").decl with
  | error e => simp [hf, Except.toOption] at hc
  | ok files => exact ⟨files, rfl⟩

theorem typeOf_element : Context.typeOf ⟨program, "Main", body⟩ element = .null := by rfl

/-- Where the element comes from, only `null` itself and the list of it have `null` in their types. -/
theorem knowsNulls_element : Context.KnowsNulls ⟨program, "Main", body⟩ element := by
  intro y hy _
  simp only [element, Expr.sources, Expr.sourcesOfAll, List.append_nil, List.mem_cons, List.not_mem_nil, or_false] at hy
  have hlist : (Ty.list [("", .null)]).Settled := ⟨trivial, trivial⟩
  rcases hy with rfl | rfl | rfl | rfl
  · exact (trivial : Ty.null.Settled)
  · exact hlist
  · exact hlist
  · exact (trivial : Ty.null.Settled)

end AlteredNull

/-- The theorem at a program with an expression of type `null`, in the body that prints it. -/
theorem accepted_null_is_null_altered : ∃ files,
    Program.compile {} (AlteredNull.program.check "Main").decl (AlteredNull.program.check "Main").decl = .ok files ∧
      ∀ mc, CodeFor {} AlteredNull.program AlteredNull.main AlteredNull.body mc →
        ∃ x : Span, x.expr? = some AlteredNull.element ∧
          x.Covers ⟨AlteredNull.program, "Main", AlteredNull.body⟩ mc.code.toList ∧
          ∀ entry callers a s b t, (Machine.load files).Reaches entry s →
            (Machine.load files).Evaluates mc callers x a s b t →
            b.stack = .null :: a.stack ∨
              (Machine.load files).Alters ⟨AlteredNull.program, "Main", AlteredNull.body⟩ mc callers AlteredNull.element s t := by
  obtain ⟨files, hf⟩ := AlteredNull.compiled
  obtain ⟨-, hbodies⟩ := accepted_null_is_null (o := {}) (Program.decode_written AlteredNull.decode_source) AlteredNull.accepted hf
  refine ⟨files, hf, fun mc hcode => ?_⟩
  obtain ⟨spans, hexprs, hcovers, hnulls⟩ :=
    hbodies AlteredNull.main (by simp [AlteredNull.program]) AlteredNull.body (by simp [AlteredNull.main, ClassDecl.bodies]) mc hcode
  have hmem : AlteredNull.element ∈ spans.filterMap Span.expr? := by
    rw [hexprs]
    simp [AlteredNull.body, Stmt.evaluatedAll, Stmt.evaluated, Expr.evaluated, AlteredNull.element]
  obtain ⟨x, hx, he⟩ := List.mem_filterMap.1 hmem
  exact ⟨x, he, hcovers x hx, hnulls x hx _ he AlteredNull.typeOf_element AlteredNull.knowsNulls_element⟩

/-- What such an expression leaves is then something else. It is compared with `null`, and `false` is printed. -/
theorem accepted_null_altered : ∃ files,
    Program.decode "sample" AlteredNull.source = .ok AlteredNull.program ∧
      (AlteredNull.program.check "Main").issues = [] ∧
      Program.compile {} (AlteredNull.program.check "Main").decl (AlteredNull.program.check "Main").decl = .ok files ∧
      Context.typeOf ⟨AlteredNull.program, "Main", AlteredNull.body⟩ AlteredNull.element = .null ∧
      (Machine.load files).run false 100 "Main" = .finished "false" := by
  obtain ⟨files, hf⟩ := AlteredNull.compiled
  have hrun : (Program.compile {} (AlteredNull.program.check "Main").decl
      (AlteredNull.program.check "Main").decl).toOption.bind (fun files =>
        ((Machine.load files).run false 100 "Main").printed?) = some "false" := by decide +kernel
  simp only [hf, Except.toOption, Option.bind_some] at hrun
  exact ⟨files, AlteredNull.decode_source, AlteredNull.accepted, hf, AlteredNull.typeOf_element, Outcome.eq_finished hrun⟩

end ClassCompiler
