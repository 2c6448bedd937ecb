import ClassCompiler.Proofs.Compile.Fields
import ClassCompiler.Proofs.Lists.Assignments
import ClassCompiler.Proofs.Machine.Construction
import ClassCompiler.Proofs.Machine.Entry
import ClassCompiler.Proofs.Machine.Labels

namespace ClassCompiler

namespace Heap

/-- The value that an object has under a name, null if it has none. -/
def field (h : Heap) (a : Nat) (name : String) : Value := (h[a]?.bind (Object.get? · (.name name))).getD .null

def SameFields (h h' : Heap) : Prop := ∀ a name, h'.field a name = h.field a name

variable {h : Heap} {a : Nat} {v : Value} {o o' : Object}

theorem SameFields.refl : h.SameFields h := fun _ _ => rfl

theorem SameFields.push (ho : ∀ name, o.get? (.name name) = none) : h.SameFields (h.push o) := by
  intro a name
  rw [field, field, Array.getElem?_push]
  split
  · next ha => simp [ha, ho]
  · rfl

theorem field_set_ne {b : Nat} (hne : b ≠ a) (o : Object) (name : String) : (h.set (.ref b) o).field a name = h.field a name := by
  rw [field, field, set, Array.getElem?_setIfInBounds_ne hne]

theorem field_set (ho : h.get? (.ref a) = some o) (o' : Object) (name : String) :
    (h.set (.ref a) o').field a name = (o'.get? (.name name)).getD .null := by
  have hset : (h.set (.ref a) o')[a]? = some o' := get?_set_self (v := .ref a) ho
  rw [field, hset]
  rfl

/-- An object is replaced by one with the same fields. -/
theorem SameFields.set (hv : h.get? v = some o) (ho : ∀ name, o'.get? (.name name) = o.get? (.name name)) :
    h.SameFields (h.set v o') := by
  obtain ⟨b, rfl⟩ := ref_of_get? hv
  intro a name
  by_cases hab : b = a
  · subst hab
    have hb : h[b]? = some o := hv
    rw [field_set hv, ho, field, hb]
    rfl
  · exact field_set_ne hab o' name

theorem field_setFieldValue {cls : String} {fields : List (String × Value)} (ho : h.get? (.ref a) = some (.inst cls fields))
    (n : String) (w : Value) (b : Nat) (name : String) :
    (h.set (.ref a) (.inst cls (setFieldValue fields n w))).field b name =
      if a = b ∧ n = name then w else h.field b name := by
  by_cases hab : a = b
  · subst hab
    have ha : h[a]? = some (.inst cls fields) := ho
    rw [field_set ho, field, ha]
    by_cases hn : n = name
    · subst hn
      simp [Object.get?, lookup_setFieldValue]
    · simp [Object.get?, lookup_setFieldValue_ne hn, hn]
  · rw [field_set_ne hab, if_neg fun h => hab h.1]

end Heap

def Effect.heap : Effect → Heap
  | .next _ heap _ => heap
  | .call _ heap _ _ _ _ => heap

def Reply.heap : Reply → Heap
  | .value _ heap _ => heap
  | .call heap _ _ _ => heap

namespace Machine

variable (m : Machine) (f : Frame) (h : Heap)

theorem constructor_sameFields (n : NativeConstructor) (recv : Value) (args : List Value) :
    Attempt AnyCause h.SameFields (n.run h recv args) := by
  have hfill : ∀ select, Attempt AnyCause h.SameFields (NativeConstructor.run.fillList h recv args {} select) := by
    intro select
    unfold NativeConstructor.run.fillList
    split
    · next hrecv => exact (Attempt.any _).bind fun es _ => Heap.SameFields.set hrecv fun _ => rfl
    · trivial
  cases n with
  | listOfArrayList | listCopy => exact hfill _
  | fptrBind =>
    simp only [NativeConstructor.run]
    split
    · next hrecv =>
      split
      · exact Heap.SameFields.set hrecv fun _ => rfl
      · trivial
    · trivial

theorem dispatch_sameFields (recv : Value) (name : String) (args : List Value) :
    Attempt AnyCause (fun r => h.SameFields r.heap) (m.dispatch h recv name args) := by
  unfold dispatch
  split
  · trivial
  · split
    · trivial
    · split
      · trivial
      · split
        · trivial
        · simp only
          split
          · exact Heap.SameFields.refl
          · trivial

theorem native_sameFields (n : NativeMethod) (recv : Value) (args : List Value) :
    Attempt AnyCause (fun r => h.SameFields r.heap) (n.run m h recv args) := by
  cases n with
  | invoke =>
    simp only [NativeMethod.run]
    split
    · exact (Attempt.any _).bind fun es _ => m.dispatch_sameFields h _ _ es
    · trivial
  | arrayListAdd =>
    simp only [NativeMethod.run]
    split
    · next hrecv => exact Heap.SameFields.set hrecv fun _ => rfl
    · trivial
  | setElement =>
    simp only [NativeMethod.run]
    split
    · next hrecv =>
      split
      · exact Heap.SameFields.set hrecv fun _ => rfl
      · trivial
    · trivial
  | getElement =>
    simp only [NativeMethod.run]
    repeat' split
    all_goals first | trivial | exact Heap.SameFields.refl
  | intValue | booleanValue =>
    simp only [NativeMethod.run]
    split
    · exact Heap.SameFields.refl
    · trivial
  | printInt | printBool => exact Heap.SameFields.refl
  | printString =>
    simp only [NativeMethod.run]
    split
    · exact Heap.SameFields.refl
    · trivial

theorem allocate_noFields (cls : String) :
    Attempt AnyCause (fun o => ∀ name, o.get? (.name name) = none) (m.allocate cls) := by
  unfold allocate
  repeat' split
  all_goals first | trivial | exact fun _ => rfl

/-- Only an operation that stores to a field changes one. -/
theorem exec_sameFields (op : Op) (hop : ∀ r, op ≠ .putField r) :
    Attempt AnyCause (fun r => h.SameFields r.heap) (m.exec f h op) := by
  have hpush : ∀ (g : Frame) (v : Value), Attempt AnyCause (fun r => h.SameFields r.heap) (Effect.quiet h <$> g.push v) :=
    fun g v => (Attempt.any _).map fun _ _ => Heap.SameFields.refl
  have hdone : ∀ {α : Type} (x : Except Fault α) (k : α → Except Fault Effect),
      (∀ a, Attempt AnyCause (fun r => h.SameFields r.heap) (k a)) →
      Attempt AnyCause (fun r => h.SameFields r.heap) (x >>= k) := fun x k hk => (Attempt.any x).bind fun a _ => hk a
  -- What fails changes nothing, so only the last step of an operation has to be looked at.
  cases op with
  | putField r => exact absurd rfl (hop r)
  | invokeSpecial r =>
    simp only [exec, invokeSpecial]
    split
    · trivial
    · refine hdone _ _ ?_
      rintro ⟨vals, g⟩
      simp only
      split
      · trivial
      · split
        · exact (constructor_sameFields h _ _ _).bind fun h' hsame => hsame
        · repeat' split
          all_goals first | trivial | exact Heap.SameFields.refl
  | invokeVirtual r =>
    refine hdone _ _ ?_
    rintro ⟨vals, g⟩
    simp only
    split
    · trivial
    · split
      · refine (m.native_sameFields h _ _ _).bind fun reply hreply => ?_
        cases reply with
        | value v h' printed =>
          simp only
          split
          · exact (Attempt.any _).bind fun _ _ => hreply
          · exact hreply
        | call => exact hreply
      · refine hdone _ _ ?_
        rintro ⟨cls, fields⟩
        simp only
        split
        · trivial
        · exact Heap.SameFields.refl
  | invokeStatic r =>
    refine hdone _ _ ?_
    rintro ⟨args, g⟩
    simp only
    split
    · trivial
    · next n _ =>
      refine (Attempt.any _).bind fun _ _ => ?_
      cases n <;> exact Heap.SameFields.push fun _ => rfl
  | new cls =>
    exact (m.allocate_noFields cls).bind fun o ho => (Attempt.any _).bind fun _ _ => Heap.SameFields.push ho
  | pushInt | pushString | pushNull => exact hpush _ _
  | load => exact hdone _ _ fun i => hpush _ _
  | store => exact hdone _ _ fun i => hdone _ _ fun _ => Heap.SameFields.refl
  | increment => exact hdone _ _ fun i => Heap.SameFields.refl
  | dup => exact hdone _ _ fun _ => hdone _ _ fun _ => hpush _ _
  | pop => exact hdone _ _ fun _ => Heap.SameFields.refl
  | arith => exact hdone _ _ fun _ => hdone _ _ fun _ => hpush _ _
  | neg => exact hdone _ _ fun _ => hpush _ _
  | label => exact Heap.SameFields.refl
  | jump =>
    refine hdone _ _ ?_
    rintro ⟨taken, g⟩
    cases taken with
    | true => exact (Attempt.any _).map fun _ _ => Heap.SameFields.refl
    | false => exact Heap.SameFields.refl
  | cast =>
    unfold exec
    simp only
    repeat' split
    all_goals first | trivial | exact Heap.SameFields.refl
  | getStatic =>
    unfold exec
    simp only
    split
    · exact hpush _ _
    · trivial
  | getField =>
    refine hdone _ _ fun _ => ?_
    simp only
    split
    · trivial
    · exact hpush _ _
  | ret | retRef | unknown => trivial

variable {m f h}

theorem exec_putField {r : MemberRef} {e : Effect} (he : m.exec f h (.putField r) = .ok e) : ∃ w a vs cls fields,
    f.stack = w :: .ref a :: vs ∧ h.get? (.ref a) = some (.inst cls fields) ∧
      e = .next { f with stack := vs } (h.set (.ref a) (.inst cls (setFieldValue fields r.name w))) "" := by
  obtain ⟨⟨v, w, g⟩, hpop, he⟩ := bind_eq_ok.1 he
  unfold Frame.popTwo at hpop
  split at hpop
  · next hs =>
    obtain ⟨rfl, rfl, rfl⟩ := by simpa using hpop
    simp only at he
    split at he
    · cases he
    · next hi =>
      have ho := asInstance_eq_ok hi
      obtain ⟨a, rfl⟩ := Heap.ref_of_get? ho
      exact ⟨_, a, _, _, _, hs, ho, (Except.ok.inj he).symm⟩
  · cases hpop

theorem exec_getField {r : MemberRef} {e : Effect} (he : m.exec f h (.getField r) = .ok e) : ∃ a vs cls fields,
    f.stack = .ref a :: vs ∧ h.get? (.ref a) = some (.inst cls fields) ∧
      e = .quiet h { f with stack := fieldValue fields r.name :: vs } := by
  obtain ⟨⟨v, g⟩, hpop, he⟩ := bind_eq_ok.1 he
  unfold Frame.pop at hpop
  split at hpop
  · cases hpop
  · next hs =>
    obtain ⟨rfl, rfl⟩ := by simpa using hpop
    simp only at he
    split at he
    · cases he
    · next cls fields hi =>
      have ho := asInstance_eq_ok hi
      obtain ⟨a, rfl⟩ := Heap.ref_of_get? ho
      unfold Frame.push at he
      split at he
      · cases he
      · exact ⟨a, _, cls, fields, hs, ho, (Except.ok.inj he).symm⟩

end Machine

/-- A value that was stored to a field of an object. -/
structure FieldStore where
  object : Nat
  field : MemberRef
  value : Value
  deriving Repr, DecidableEq

/-- The store that the next step makes, if it makes one. -/
def State.store? (s : State) : Option FieldStore :=
  match s.frames with
  | [] => none
  | f :: _ =>
    match f.method.code[f.pc]?.map Instr.op, f.stack with
    | some (.putField r), v :: .ref a :: _ => some ⟨a, r, v⟩
    | _, _ => none

/-- The object and the field that the next step reads, if it reads one. -/
def State.load? (s : State) : Option (Nat × MemberRef) :=
  match s.frames with
  | [] => none
  | f :: _ =>
    match f.method.code[f.pc]?.map Instr.op, f.stack with
    | some (.getField r), .ref a :: _ => some (a, r)
    | _, _ => none

/-- A run has come to a state and made some stores on the way, the last of which is the first in the list. -/
inductive Machine.History (m : Machine) (entry : String) : List FieldStore → State → Prop
  | start {s : State} (h : m.start entry = .ok s) : History m entry [] s
  | step {stores : List FieldStore} {s s' : State} {canceled : Bool} (h : History m entry stores s)
    (hs : s.step m canceled = .running s') : History m entry (s.store?.toList ++ stores) s'

/-- What was last stored on an object through a reference of some kind, null if nothing was. -/
def lastStored (stores : List FieldStore) (a : Nat) (through : MemberRef → Bool) : Value :=
  ((stores.find? fun x => x.object = a && through x.field).map FieldStore.value).getD .null

section

variable {m : Machine} {s s' : State} {canceled : Bool}

theorem Machine.Reaches.history {entry : String} (h : m.Reaches entry s) : ∃ stores, m.History entry stores s := by
  induction h with
  | start h => exact ⟨[], .start h⟩
  | step _ hs ih =>
    obtain ⟨stores, hstores⟩ := ih
    exact ⟨_, .step hstores hs⟩

theorem Machine.History.reaches {entry : String} {stores : List FieldStore} (h : m.History entry stores s) :
    m.Reaches entry s := by
  induction h with
  | start h => exact .start h
  | step _ hs ih => exact .step ih hs

theorem lastStored_cons (x : FieldStore) (stores : List FieldStore) (a : Nat) (through : MemberRef → Bool) :
    lastStored (x :: stores) a through =
      if x.object = a ∧ through x.field = true then x.value else lastStored stores a through := by
  unfold lastStored
  rw [List.find?_cons]
  by_cases hx : x.object = a ∧ through x.field = true
  · simp [hx]
  · have hfalse : (decide (x.object = a) && through x.field) = false := by simpa using hx
    rw [if_neg hx, hfalse]

theorem lastStored_congr {stores : List FieldStore} {a : Nat} {p q : MemberRef → Bool}
    (h : ∀ x ∈ stores, x.object = a → p x.field = q x.field) : lastStored stores a p = lastStored stores a q := by
  induction stores with
  | nil => rfl
  | cons x xs ih =>
    obtain ⟨hx, hxs⟩ := List.forall_mem_cons.1 h
    rw [lastStored_cons, lastStored_cons, ih hxs]
    by_cases ha : x.object = a
    · rw [hx ha]
    · simp [ha]

section

variable {f : Frame} {fs : List Frame} {heap : Heap} {out : String}

theorem State.store?_eq_some {x : FieldStore} (h : State.store? ⟨f :: fs, heap, out⟩ = some x) :
    ∃ line vs, f.method.code[f.pc]? = some ⟨.putField x.field, line⟩ ∧ f.stack = x.value :: .ref x.object :: vs := by
  simp only [store?] at h
  split at h
  · next r v a vs hi hs =>
    obtain rfl := Option.some.inj h
    obtain ⟨⟨op, line⟩, hi, rfl⟩ := Option.map_eq_some_iff.1 hi
    exact ⟨line, vs, hi, hs⟩
  · cases h

theorem State.store?_eq_none (h : ∀ i, f.method.code[f.pc]? = some i → ∀ r, i.op ≠ .putField r) :
    State.store? ⟨f :: fs, heap, out⟩ = none := by
  by_contra hsome
  obtain ⟨x, hx⟩ := Option.ne_none_iff_exists'.1 hsome
  obtain ⟨line, vs, hi, -⟩ := State.store?_eq_some hx
  exact h _ hi x.field rfl

theorem State.store?_of_putField {line : Int} {r : MemberRef} {v : Value} {a : Nat} {vs : List Value}
    (hi : f.method.code[f.pc]? = some ⟨.putField r, line⟩) (hs : f.stack = v :: .ref a :: vs) :
    State.store? ⟨f :: fs, heap, out⟩ = some ⟨a, r, v⟩ := by
  simp [store?, hi, hs]

theorem State.load?_eq_some {a : Nat} {r : MemberRef} (h : State.load? ⟨f :: fs, heap, out⟩ = some (a, r)) :
    ∃ line vs, f.method.code[f.pc]? = some ⟨.getField r, line⟩ ∧ f.stack = .ref a :: vs := by
  simp only [load?] at h
  split at h
  · next r a vs hi hs =>
    obtain ⟨rfl, rfl⟩ := Prod.mk.inj (Option.some.inj h)
    obtain ⟨⟨op, line⟩, hi, rfl⟩ := Option.map_eq_some_iff.1 hi
    exact ⟨line, vs, hi, hs⟩
  · cases h

end

/-- A step changes no field, or it stores one value. -/
theorem State.step_fields (hs : s.step m canceled = .running s') : s.store? = none ∧ s.heap.SameFields s'.heap ∨
    ∃ x, s.store? = some x ∧ ∀ a name, s'.heap.field a name =
      if x.object = a ∧ x.field.name = name then x.value else s.heap.field a name := by
  obtain ⟨frames, heap, out⟩ := s
  cases frames with
  | nil => cases hs
  | cons f callers =>
    have hother : ∀ {i : Instr} {r : Effect}, f.method.code[f.pc]? = some i → (∀ r, i.op ≠ .putField r) →
        m.exec { f with pc := f.pc + 1, steps := f.steps + 1 } heap i.op = .ok r →
          State.store? ⟨f :: callers, heap, out⟩ = none ∧ heap.SameFields r.heap := by
      intro i r hi hop he
      have hexec := m.exec_sameFields { f with pc := f.pc + 1, steps := f.steps + 1 } heap i.op hop
      rw [he] at hexec
      refine ⟨store?_eq_none fun k hk r => ?_, hexec⟩
      obtain rfl := Option.some.inj (hi.symm.trans hk)
      exact hop r
    cases steps_of_running hs with
    | @next i g heap' printed hi hr he =>
      by_cases hop : ∀ r, i.op ≠ .putField r
      · exact .inl (hother hi hop he)
      · push Not at hop
        obtain ⟨r, hop⟩ := hop
        rw [hop] at he
        obtain ⟨w, a, vs, cls, fields, hstack, ho, he⟩ := Machine.exec_putField he
        obtain ⟨-, rfl, -⟩ := Effect.next.inj he
        obtain ⟨op, line⟩ := i
        obtain rfl : op = .putField r := hop
        exact .inr ⟨⟨a, r, w⟩, store?_of_putField hi hstack, fun b name => Heap.field_setFieldValue ho r.name w b name⟩
    | @call i g heap' cls mc args pushes hi he =>
      refine .inl (hother hi (fun r hop => ?_) he)
      rw [hop] at he
      obtain ⟨_, _, _, _, _, _, _, he⟩ := Machine.exec_putField he
      cases he
    | @leave v g gs hc hv hi =>
      refine .inl ⟨store?_eq_none fun k hk r hop => ?_, Heap.SameFields.refl⟩
      rcases hi k hk with h | h <;> simp [hop] at h

/-- A step that reads a field puts the value of the field on the stack. -/
theorem State.step_load {a : Nat} {r : MemberRef} (hs : s.step m canceled = .running s') (hl : s.load? = some (a, r)) :
    ∃ f fs vs, s'.frames = f :: fs ∧ f.stack = s.heap.field a r.name :: vs := by
  obtain ⟨frames, heap, out⟩ := s
  cases frames with
  | nil => cases hs
  | cons f callers =>
    obtain ⟨line, vs, hi, hstack⟩ := load?_eq_some hl
    cases steps_of_running hs with
    | next hi' _ he =>
      obtain rfl := Option.some.inj (hi.symm.trans hi')
      obtain ⟨b, ws, cls, fields, hstack', ho, he⟩ := Machine.exec_getField he
      obtain ⟨rfl, -, -⟩ := Effect.next.inj he
      obtain ⟨hv, rfl⟩ := List.cons.inj (hstack.symm.trans hstack')
      obtain rfl := Value.ref.inj hv
      have ha : heap[a]? = some (.inst cls fields) := ho
      exact ⟨_, callers, vs, rfl, by simp [Heap.field, ha, fieldValue, Object.get?]⟩
    | call hi' he =>
      obtain rfl := Option.some.inj (hi.symm.trans hi')
      obtain ⟨_, _, _, _, _, _, he⟩ := Machine.exec_getField he
      cases he
    | leave _ _ hret =>
      rcases hret _ hi with h | h <;> simp at h

variable {entry : String} {stores : List FieldStore}

/-- Every field has what was last stored under its name. -/
theorem Machine.History.field (h : m.History entry stores s) (a : Nat) (name : String) :
    s.heap.field a name = lastStored stores a fun r => r.name = name := by
  induction h with
  | start h =>
    unfold Machine.start at h
    split at h
    · cases h
    · split at h
      · cases h
      · obtain rfl := Except.ok.inj h
        rfl
  | @step stores s s' canceled _ hs ih =>
    rcases State.step_fields hs with ⟨hnone, hsame⟩ | ⟨x, hx, hstep⟩
    · rw [hnone, hsame a name]
      exact ih
    · rw [hx, hstep a name, ih]
      simp [lastStored_cons]

theorem Machine.Reaches.inMethods (hm : m.FindsLabels) (h : m.Reaches entry s) : s.InMethods m := by
  induction h with
  | start h => exact Machine.start_inMethods h
  | @step s s' canceled _ hs ih =>
    have hstep := State.step_inMethods hm canceled ih
    rwa [hs] at hstep

/-- Every store is one of an operation in the code. -/
theorem Machine.History.stored (hm : m.FindsLabels) (h : m.History entry stores s) :
    ∀ x ∈ stores, ∃ mc, m.HasMethod mc ∧ ∃ (j : Nat) (i : Instr), mc.code[j]? = some i ∧ i.op = .putField x.field := by
  induction h with
  | start => exact List.forall_mem_nil _
  | @step stores s s' canceled h hs ih =>
    refine List.forall_mem_append.2 ⟨fun x hx => ?_, ih⟩
    obtain ⟨frames, heap, out⟩ := s
    cases frames with
    | nil => cases hs
    | cons f callers =>
      obtain ⟨line, vs, hi, -⟩ := State.store?_eq_some (Option.mem_toList.1 hx)
      exact ⟨f.method, h.reaches.inMethods hm f List.mem_cons_self, f.pc, _, hi, rfl⟩

end

section

variable {m : Machine} {mc : MethodCode} {callers : Outer} {stop : Nat} {Q : Spot → State → Prop} {rest : List Instr}
  {c : Spot} {s : State} {line : Int}

/-- What the call of a constructor without parameters may come to. -/
theorem Machine.exec_construct {f : Frame} {h : Heap} {owner : String} {w : Value} {vs : List Value} {e : Effect}
    (hs : f.stack = w :: vs) (he : m.exec f h (.invokeSpecial ⟨owner, initName, "()V"⟩) = .ok e) :
    e = .quiet h { f with stack := vs } ∨ ∃ cls code, e = .call { f with stack := vs } h cls code [w] false := by
  have hpop := Moves.popMany_eq (f := f) (show f.stack = [w].reverse ++ vs from hs) (n := argCount "()V" + 1) (by simp)
  simp only [exec, invokeSpecial, hpop, bind, Except.bind, argument, List.getElem?_cons_zero, Option.getD_some,
    NativeConstructor.ofRef?_noParams, ne_eq, not_true_eq_false, if_false] at he
  split at he
  · cases he
  · split at he
    · exact .inl (Except.ok.inj he).symm
    · split at he
      · cases he
      · split at he
        · cases he
        · exact .inr ⟨_, _, (Except.ok.inj he).symm⟩

/-- A call that waits for no result is at its spot again when the call that it made is over. -/
theorem Machine.Passes.returns {inner g : Frame} {out : String} {t : State} (hg : FrameAt mc callers c g)
    (hl : LabelsOnce mc.code) (hc : c.Hidden ∅) (hinner : inner.ClearIn ∅ c.heap.size) (hpushes : inner.pushesResult = false)
    (hle : c.pc ≤ stop) (hp : m.Passes callers.frames stop ⟨inner :: g :: callers.frames, c.heap, out⟩ t)
    (ht : ∃ k, t.frames = k :: callers.frames ∧ k.pc = stop) :
    ∃ u d, m.Passes callers.frames stop ⟨inner :: g :: callers.frames, c.heap, out⟩ u ∧ m.Passes callers.frames stop u t ∧
      u.IsAt mc callers d ∧ d.pc = c.pc ∧ d.stack = c.stack ∧ d.locals = c.locals ∧ d.Hidden ∅ ∧
      c.heap.size ≤ d.heap.size := by
  have hstretch : Stretch mc (fun _ _ => False) c [] (fun _ => 0) (fun _ => False) :=
    ⟨fun i x hi => by simp at hi, hl, fun i x hi => by simp at hi, by simp⟩
  have hheld : Held mc callers c ∅ 0 (fun _ => 0) (fun _ => False) c.heap.size inner.pushesResult (g :: callers.frames) := by
    rw [hpushes]
    exact .bottom hg.method hg.pushes (j := 0) hg.pc (Nat.le_refl 0) (show g.stack = [] ++ c.stack from hg.stack) rfl
      (List.forall_mem_nil _) (hg.locals ▸ hc.locals) fun i _ => by rw [hg.locals]
  obtain ⟨u, -, hsu, hut, ⟨k, hk, hpc⟩, hkeeps, hheld⟩ := hstretch.split hle hp ht (.inner hinner hheld) hc.heap
  obtain ⟨frames, heap', out'⟩ := u
  obtain rfl : frames = k :: callers.frames := hk
  obtain ⟨-, -, -, ⟨ws, hws, hlen, -⟩, hmethod, hpushes', hlocals, hsame⟩ := hheld.innermost
  obtain rfl := List.eq_nil_of_length_eq_zero hlen
  exact ⟨_, ⟨k.pc, k.stack, k.locals, heap', out'⟩, hsu, hut, ⟨k, ⟨hmethod, rfl, rfl, rfl, hpushes'⟩, rfl⟩, hpc, hws,
    Array.ext_getElem? fun i => hsame i not_false, ⟨hkeeps.hides, hlocals⟩, hkeeps.size⟩

/-- A constructor without parameters leaves the call as it was, and nothing else is known of it. -/
theorem Ends.construct {owner : String} {w : Value} {vs : List Value} (hs : c.stack = w :: vs) (hw : w.Clear ∅ c.heap.size)
    (hl : LabelsOnce mc.code) (hc : c.Hidden ∅)
    (h : ∀ d s', d.stack = vs → d.locals = c.locals → d.Hidden ∅ → c.heap.size ≤ d.heap.size →
      m.Passes callers.frames stop s s' → Ends m mc callers stop Q rest d s') :
    Ends m mc callers stop Q (⟨.invokeSpecial ⟨owner, initName, "()V"⟩, line⟩ :: rest) c s := by
  intro hat hstop hsc d t ht hd hp
  obtain ⟨hfirst, hrest⟩ := CodeAt.append_iff.1
    (show CodeAt mc.code c.pc ([⟨.invokeSpecial ⟨owner, initName, "()V"⟩, line⟩] ++ rest) from hat)
  rw [List.length_cons] at hstop
  have hframe : ∃ k, t.frames = k :: callers.frames ∧ k.pc = stop := by
    obtain ⟨k, hk, rfl⟩ := ht
    exact ⟨k, rfl, hk.pc.trans hd⟩
  cases hp with
  | refl =>
    obtain rfl := hsc.unique ht
    omega
  | @step _ s' _ canceled hb hstep hp =>
    have hpass : m.Passes callers.frames stop s s' := .step hb hstep .refl
    obtain ⟨f, hf, rfl⟩ := hsc
    have hget : f.method.code[f.pc]? = some ⟨.invokeSpecial ⟨owner, initName, "()V"⟩, line⟩ := by
      rw [hf.method, hf.pc]
      exact hfirst 0 _ rfl
    have hstack : f.stack = w :: vs := hf.stack.trans hs
    have hnext : FrameAt mc callers (c.next vs) { f with pc := f.pc + 1, steps := f.steps + 1, stack := vs } :=
      ⟨hf.method, by simp [Spot.next, hf.pc], rfl, hf.locals, hf.pushes⟩
    have hexec : ∀ {e : Effect}, m.exec { f with pc := f.pc + 1, steps := f.steps + 1 } c.heap
        (.invokeSpecial ⟨owner, initName, "()V"⟩) = .ok e →
          e = .quiet c.heap { f with pc := f.pc + 1, steps := f.steps + 1, stack := vs } ∨ ∃ cls code,
            e = .call { f with pc := f.pc + 1, steps := f.steps + 1, stack := vs } c.heap cls code [w] false := fun he =>
      Machine.exec_construct (f := { f with pc := f.pc + 1, steps := f.steps + 1 }) hstack he
    cases State.steps_of_running hstep with
    | next hi _ he =>
      obtain rfl := Option.some.inj (hget.symm.trans hi)
      obtain he | ⟨_, _, he⟩ := hexec he
      · obtain ⟨rfl, rfl, rfl⟩ := Effect.next.inj he
        exact h (c.next vs) _ rfl rfl ⟨hc.heap, hc.locals⟩ (Nat.le_refl _) hpass hrest (by simp [Spot.next]; omega)
          ⟨_, hnext, by simp [Spot.next]⟩ d t ht hd hp
      · cases he
    | call hi he =>
      obtain rfl := Option.some.inj (hget.symm.trans hi)
      obtain he | ⟨cls, code, he⟩ := hexec he
      · cases he
      · obtain ⟨rfl, rfl, rfl, rfl, rfl, rfl⟩ := Effect.call.inj he
        obtain ⟨u, e, hsu, hut, hu, hpc, hes, hel, hhidden, hsize⟩ := Machine.Passes.returns hnext hl
          (c := c.next vs) ⟨hc.heap, hc.locals⟩ (.enter (List.forall_mem_singleton.2 hw)) rfl
          (by simp [Spot.next]; omega) hp hframe
        rw [List.length_singleton, ← show e.pc = c.pc + 1 from hpc] at hrest
        exact h e u hes hel hhidden hsize (hpass.trans hsu) hrest (by simp [hpc, Spot.next]; omega) hu d t ht hd hut
    | leave _ _ hret =>
      rcases hret _ hget with h | h <;> simp at h

/-- The fields of an object get their defaults, if the code after it is come to. -/
theorem Ends.fieldDefaults (d : ClassDecl) (vs : List VarDecl) (hd : (vs.map (·.name.name)).Nodup) {a old : Nat}
    (ha : a < old) (hold : old ≤ c.heap.size) (hthis : c.locals[0]? = some (.ref a))
    (h : ∀ e s', (∀ v ∈ vs, e.heap.IsDefault old v.type (e.heap.field a v.name.name)) →
      (∀ name, name ∉ vs.map (·.name.name) → e.heap.field a name = c.heap.field a name) →
      (∀ b o, b ≠ a → c.heap[b]? = some o → e.heap[b]? = some o) →
      m.Passes callers.frames stop s s' → Ends m mc callers stop Q rest e s') :
    Ends m mc callers stop Q (onLine line (vs.flatMap d.fieldDefault) ++ rest) c s := by
  induction vs generalizing c s with
  | nil => exact h c s (List.forall_mem_nil _) (fun _ _ => rfl) (fun _ _ _ => id) .refl
  | cons v vs ih =>
    rw [List.map_cons, List.nodup_cons] at hd
    simp only [List.flatMap_cons, ClassDecl.fieldDefault, onLine_append, onLine_cons, List.cons_append,
      List.append_assoc, List.nil_append]
    refine .load fun w s₁ hw hp₁ => ?_
    obtain rfl : w = .ref a := Option.some.inj (hw.symm.trans hthis)
    refine .defaultValue v.type fun b w s₂ hbs hbl hbg hbw hp₂ => ?_
    refine .putField hbs fun cls fields s₃ ho hp₃ => ?_
    have hsize : c.heap.size ≤ b.heap.size := hbg.size_le
    refine ih hd.2 (by simp [Heap.set]; omega) ((congrArg (·[0]?) hbl).trans hthis) fun e s' hdefaults hother hkeep hp => ?_
    have hput : ∀ name, Heap.field (b.heap.set (.ref a) (.inst cls (setFieldValue fields v.name.name w))) a name =
        if v.name.name = name then w else b.heap.field a name := fun name => by
      simpa using Heap.field_setFieldValue ho v.name.name w a name
    have holder : b.heap.field a = c.heap.field a := by
      have hsome : c.heap[a]? = some c.heap[a] := Array.getElem?_eq_getElem (by omega)
      funext name
      rw [Heap.field, Heap.field, hsome, hbg.getElem? hsome]
    have hrest : ∀ i o, i ≠ a → b.heap[i]? = some o → e.heap[i]? = some o := fun i o hi hget =>
      hkeep i o hi ((Array.getElem?_setIfInBounds_ne (Ne.symm hi)).trans hget)
    refine h e s' (List.forall_mem_cons.2 ⟨?_, hdefaults⟩) (fun name hname => ?_)
      (fun i o hi hget => hrest i o hi (hbg.getElem? hget)) (((hp₁.trans hp₂).trans hp₃).trans hp)
    · rw [hother _ hd.1, hput, if_pos rfl]
      exact hbw.mono v.type hold fun i o hi => hrest i o (by simp [Spot.next] at hi; omega)
    · obtain ⟨hne, hname⟩ : name ≠ v.name.name ∧ name ∉ vs.map (·.name.name) := by simpa using hname
      rw [hother name hname, hput, if_neg (Ne.symm hne), holder]

end

section

variable {o : CompileOptions} {p : Program} {files : List ClassFile} {c : ClassDecl} {mc : MethodCode} {line : Int}

theorem HasMethod.labelsOnce (hc : Program.compile o p p = .ok files) (hmc : (Machine.load files).HasMethod mc) :
    LabelsOnce mc.code := by
  obtain ⟨f, hf, hmc⟩ := hmc
  exact fun l => Nat.le_trans (labelCount_le_codeOfFiles (List.mem_reverse.1 hf) hmc l) (Program.compile_labels hc l)

theorem Program.compile_findsLabels (hc : Program.compile o p p = .ok files) : (Machine.load files).FindsLabels := by
  rintro mc ⟨f, hf, hmc⟩
  obtain ⟨c, -, hfile⟩ := exists_mem_of_forall₂ (Program.compile_ok hc) (List.mem_reverse.1 hf)
  exact MethodCode.findsLabels (hfile.jumpsInside mc hmc)

/-- When a constructor comes to its locals, the fields that its class declares have their defaults. -/
theorem ClassDecl.prologue_defaults {m : Machine} {entry : String} {callers : Outer} {args : List Value} {a : Nat}
    {s s' t : State} {e : Spot} (hl : LabelsOnce mc.code) (hat : CodeAt mc.code 0 (c.prologue line))
    (hd : (c.fields.map (·.name.name)).Nodup) (hs : m.Reaches entry s) (hcall : m.Invokes mc args callers s s')
    (hthis : args[0]? = some (.ref a)) (hp : m.Passes callers.frames (c.prologue line).length s' t)
    (ht : t.IsAt mc callers e) (he : e.pc = (c.prologue line).length) :
    ∀ v ∈ c.fields, e.heap.IsDefault s'.heap.size v.type (e.heap.field a v.name.name) := by
  obtain ⟨canceled, b, hstep, hb, hpc, hheap, hargs⟩ := hcall.starts
  have hhidden : b.Hidden ∅ := (hs.step hstep).bounded.hidden hb
  have hlocal : b.locals[0]? = some (.ref a) := (hargs 0 (List.getElem?_eq_some_iff.1 hthis).1).trans hthis
  have hclear : (Value.ref a).Clear ∅ b.heap.size := hhidden.locals _ (Array.mem_of_getElem? hlocal)
  have ha : a < b.heap.size := (hclear a rfl).1
  have hends : Ends m mc callers (c.prologue line).length (fun e _ =>
      ∀ v ∈ c.fields, e.heap.IsDefault b.heap.size v.type (e.heap.field a v.name.name)) (c.prologue line) b s' := by
    simp only [ClassDecl.prologue, onLine_cons, List.cons_append, List.nil_append]
    refine .load fun w s₁ hw _ => ?_
    obtain rfl : w = .ref a := Option.some.inj (hw.symm.trans hlocal)
    refine .construct rfl hclear hl ⟨hhidden.heap, hhidden.locals⟩ fun d s₂ _ hlocals _ hsize _ => ?_
    rw [← List.append_nil (onLine line _)]
    exact .fieldDefaults c c.fields hd ha hsize ((congrArg (·[0]?) hlocals).trans hlocal) fun _ _ hdefaults _ _ _ =>
      .nil hdefaults
  rw [← hheap]
  exact hends (hpc ▸ hat) (by rw [hpc, Nat.zero_add]) hb e t ht he hp

/-- Every operation on a field refers to one that a class of the program declares. -/
theorem HasMethod.declares (hfiles : List.Forall₂ (FileOf o p) p.classes files)
    (hmc : (Machine.load files).HasMethod mc) {j : Nat} {i : Instr} {r : MemberRef} (hi : mc.code[j]? = some i)
    (hr : i.op.field? = some r) : p.Declares r.owner r.name := by
  obtain ⟨c, hc, hmade | ⟨d, -, hcode⟩⟩ := HasMethod.origin hfiles hmc
  · have hmem : i.op ∈ mc.code.toList.map Instr.op :=
      List.mem_map_of_mem (Array.mem_toList_iff.2 (Array.mem_of_getElem? hi))
    obtain ⟨v, hv, rfl⟩ := hmade.fields r (List.mem_filterMap.2 ⟨_, hmem, hr⟩)
    exact ⟨c, hc, rfl, v, hv, rfl⟩
  · obtain ⟨spans, hplaced⟩ := hcode.fieldsPlaced
    rcases hplaced.resolved hi hr with ⟨v, hv, rfl⟩ | ⟨x, -, -, e, -, hres⟩
    · exact ⟨c, hc, rfl, v, hv, rfl⟩
    · exact hres.declares

/-- Where the code accesses fields, and what the accesses come to. Each names the class in which the field is found
going up from the class that the object has in the tree, but an object keeps one value for each name: a read gives what
was last stored on the object under the name, and a store changes what every class of the object reads under it. What
was last stored through the same declaration is read where all stores under the name went through it, so where no other
class of the program declares the name. A constructor stores the defaults of its own fields first, after the call of that
of the parent. -/
theorem accepted_field_reads (ha : (p.check o.entry).issues = [])
    (hc : Program.compile o (p.check o.entry).decl (p.check o.entry).decl = .ok files) :
    (∀ mc, (Machine.load files).HasMethod mc → ∃ c ∈ p.classes,
      (Made o c mc ∧ ∀ r ∈ fieldsOf (mc.code.toList.map Instr.op), ∃ v ∈ c.fields,
        r = ⟨c.name.name, v.name.name, v.type.descriptor⟩) ∨
      ∃ d ∈ c.bodies, CodeFor o p c d mc ∧ ∃ spans, FieldsPlaced ⟨p, c.name.name, d⟩ c mc.code spans) ∧
    (∀ entry s, (Machine.load files).Reaches entry s → ∃ stores, (Machine.load files).History entry stores s) ∧
    (∀ entry stores s, (Machine.load files).History entry stores s →
      (∀ a name, s.heap.field a name = lastStored stores a fun r => r.name = name) ∧
      ∀ canceled s', s.step (Machine.load files) canceled = .running s' →
        (∀ a r, s.load? = some (a, r) → ∃ f fs v vs, s'.frames = f :: fs ∧ f.stack = v :: vs ∧
          v = lastStored stores a (fun q => q.name = r.name) ∧
          ((∀ x ∈ stores, x.object = a → x.field.name = r.name → x.field.owner = r.owner) ∨
              (∀ owner, p.Declares owner r.name → owner = r.owner) →
            v = lastStored stores a fun q => q.owner = r.owner ∧ q.name = r.name)) ∧
        (∀ x, s.store? = some x → s'.heap.field x.object x.field.name = x.value) ∧
        ∀ a name, (∀ x, s.store? = some x → ¬(x.object = a ∧ x.field.name = name)) →
          s'.heap.field a name = s.heap.field a name) ∧
    (∀ c ∈ p.classes, (c.fields.map (·.name.name)).Nodup → ∀ mc line, (Machine.load files).HasMethod mc →
      CodeAt mc.code 0 (c.prologue line) → ∀ entry callers args a s s' t e, (Machine.load files).Reaches entry s →
        (Machine.load files).Invokes mc args callers s s' → args[0]? = some (.ref a) →
        (Machine.load files).Passes callers.frames (c.prologue line).length s' t → t.IsAt mc callers e →
        e.pc = (c.prologue line).length →
          ∀ v ∈ c.fields, e.heap.IsDefault s'.heap.size v.type (e.heap.field a v.name.name)) := by
  obtain ⟨hdecl, -⟩ := Program.check_clean ha
  rw [hdecl] at hc
  have hfiles := Program.compile_ok hc
  refine ⟨fun mc hmc => ?_, fun entry s => Machine.Reaches.history, fun entry stores s hs => ⟨hs.field, fun canceled s' hstep => ⟨?_, ?_, ?_⟩⟩, ?_⟩
  · obtain ⟨c, hmem, hmade | ⟨d, hd, hcode⟩⟩ := HasMethod.origin hfiles hmc
    · exact ⟨c, hmem, .inl ⟨hmade, hmade.fields⟩⟩
    · exact ⟨c, hmem, .inr ⟨d, hd, hcode, hcode.fieldsPlaced⟩⟩
  · intro a r hload
    obtain ⟨f, fs, vs, hframes, hstack⟩ := State.step_load hstep hload
    refine ⟨f, fs, _, vs, hframes, hstack, hs.field a r.name, fun hsole => ?_⟩
    -- A store comes from code that names a class with such a field, so both conditions say the same of the stores.
    have howner : ∀ x ∈ stores, x.object = a → x.field.name = r.name → x.field.owner = r.owner := by
      rcases hsole with hsole | hsole
      · exact hsole
      · intro x hx _ hname
        obtain ⟨mc, hmc, j, i, hi, hop⟩ := hs.stored (Program.compile_findsLabels hc) x hx
        exact hsole _ (hname ▸ HasMethod.declares hfiles hmc hi (by rw [hop]; rfl))
    rw [hs.field a r.name]
    exact lastStored_congr fun x hx hobject => by simpa using howner x hx hobject
  · intro x hx
    rcases State.step_fields hstep with ⟨hnone, -⟩ | ⟨y, hy, hfields⟩
    · simp [hnone] at hx
    · obtain rfl := Option.some.inj (hy.symm.trans hx)
      rw [hfields, if_pos ⟨rfl, rfl⟩]
  · intro a name hother
    rcases State.step_fields hstep with ⟨-, hsame⟩ | ⟨y, hy, hfields⟩
    · exact hsame a name
    · rw [hfields, if_neg (hother y hy)]
  · intro c _ hd mc line hmc hat entry callers args a s s' t e hs hcall hthis hp ht he
    exact ClassDecl.prologue_defaults (HasMethod.labelsOnce hc hmc) hat hd hs hcall hthis hp ht he

end

/-- The state that a run comes to in so many steps, and the stores on the way. -/
def State.recorded (m : Machine) : (steps : Nat) → List FieldStore → State → Option (List FieldStore × State)
  | 0, stores, s => some (stores, s)
  | steps + 1, stores, s =>
    match s.step m false with
    | .running s' => s'.recorded m steps (s.store?.toList ++ stores)
    | _ => none

theorem Machine.History.recorded {m : Machine} {entry : String} {steps : Nat} {stores stores' : List FieldStore}
    {s t : State} (hs : m.History entry stores s) (h : s.recorded m steps stores = some (stores', t)) :
    m.History entry stores' t := by
  induction steps generalizing stores s with
  | zero =>
    obtain ⟨rfl, rfl⟩ := Prod.mk.inj (Option.some.inj h)
    exact hs
  | succ steps ih =>
    unfold State.recorded at h
    cases hstep : s.step m false with
    | running s' =>
      simp only [hstep] at h
      exact ih (hs.step hstep) h
    | finished out => simp [hstep] at h
    | failed out e => simp [hstep] at h

namespace RedeclaredField

open Sample Yaml

/-- A class declares a field that its parent declares too. -/
def source : String :=
  "classes: [{class: Main, constructor: {locals: [{a: A}, {b: B}], body: [{assign: [b, {new: [B]}]}, {assign: [a, b]}, {assign: [{dot: [b, x]}, 7]}, {print: {dot: [a, x]}}]}}, {class: A, fields: [{x: int}]}, {class: B, extends: A, fields: [{x: int}]}]"

def root : Node :=
  entry 1 [word "classes" 1, row 10 [
    entry 11 [word "class" 12, word "Main" 19, word "constructor" 25, entry 38 [
      word "locals" 39, row 47 [entry 48 [word "a" 49, word "A" 52], entry 56 [word "b" 57, word "B" 60]],
      word "body" 65, row 71 [
        entry 72 [word "assign" 73, row 81 [word "b" 82, entry 85 [word "new" 86, row 91 [word "B" 92]]]],
        entry 99 [word "assign" 100, row 108 [word "a" 109, word "b" 112]],
        entry 117 [word "assign" 118, row 126 [entry 127 [word "dot" 128, row 133 [word "b" 134, word "x" 137]],
          ⟨.scalar, "!!int", .plain, "7", 1, 142, []⟩]],
        entry 147 [word "print" 148, entry 155 [word "dot" 156, row 161 [word "a" 162, word "x" 165]]]]]],
    entry 174 [word "class" 175, word "A" 182, word "fields" 185, row 193 [entry 194 [word "x" 195, word "int" 198]]],
    entry 206 [word "class" 207, word "B" 214, word "extends" 217, word "A" 226,
      word "fields" 229, row 237 [entry 238 [word "x" 239, word "int" 242]]]]]

def main : ClassDecl where
  token := ⟨.classDecl, "Main", 1, 11⟩
  name := name "Main" 19
  constructor := some {
    token := ⟨.constructor, "", 1, 38⟩
    name := ⟨⟨.constructor, "", 1, 38⟩, "Main"⟩
    locals := [⟨⟨.var, "a", 1, 49⟩, name "a" 49, .cls "A"⟩, ⟨⟨.var, "b", 1, 57⟩, name "b" 57, .cls "B"⟩]
    body := [
      .assign ⟨token (.binary .assign) 73, .ident (name "b" 82), .new (token .new 86) (name "B" 92) []⟩,
      .assign ⟨token (.binary .assign) 100, .ident (name "a" 109), .ident (name "b" 112)⟩,
      .assign ⟨token (.binary .assign) 118, .member (token .dot 128) (.ident (name "b" 134)) (name "x" 137),
        .int ⟨.intLit, "7", 1, 142⟩ 7⟩,
      .print (token .print 148) (.member (token .dot 156) (.ident (name "a" 162)) (name "x" 165))] }

def parent : ClassDecl where
  token := ⟨.classDecl, "A", 1, 174⟩
  name := name "A" 182
  fields := [⟨⟨.field, "x", 1, 195⟩, name "x" 195, .int⟩]

def child : ClassDecl where
  token := ⟨.classDecl, "B", 1, 206⟩
  name := name "B" 214
  parent := some (name "A" 226)
  fields := [⟨⟨.field, "x", 1, 239⟩, name "x" 239, .int⟩]

def program : Program := { file := "sample", classes := [main, parent, child] }

theorem parse_int : Ty.parse "int" = .ok .int := by rfl

theorem parse_parent : Ty.parse "A" = .ok (.cls "A") := by rfl

theorem parse_child : Ty.parse "B" = .ok (.cls "B") := by rfl

theorem int?_seven : Numeral.int? 32 ['7'] = some 7 := by rfl

theorem ofNode_root : Program.ofNode "sample" root = .ok program := by
  simp [Program.ofNode, root, entry, row, word, Decoder.classLists, Decoder.classDecl, Decoder.entries,
    Decoder.classParts, Decoder.name, Decoder.constructor, Decoder.methodParts, Decoder.stmtList, Decoder.stmts,
    Decoder.stmt, Decoder.expr, Decoder.exprs, Decoder.assignment, Decoder.scalar, Decoder.vars, Decoder.var, Decoder.type,
    Node.isNull, bind, Except.bind, pure, Except.pure, parse_int, parse_parent, parse_child, int?_seven]
  rfl

set_option maxRecDepth 1500 in
theorem decode_source : Program.decode "sample" source = .ok program :=
  Program.decode_of_read (by decide +kernel) ofNode_root

theorem accepted : (program.check "Main").issues = [] := by decide

theorem compiled : ∃ files, Program.compile {} (program.check "Main").decl (program.check "Main").decl = .ok files := by
  have hc : (Program.compile {} (program.check "Main").decl (program.check "Main").decl).toOption.isSome := by decide
  cases hf : Program.compile {} (program.check "Main").decl (program.check "Main").decl with
  | error e => simp [hf, Except.toOption] at hc
  | ok files => exact ⟨files, rfl⟩

end RedeclaredField

theorem accepted_field_reads_redeclared : ∃ files,
    Program.compile {} (RedeclaredField.program.check "Main").decl (RedeclaredField.program.check "Main").decl = .ok files ∧
      (∀ entry s, (Machine.load files).Reaches entry s → ∃ stores, (Machine.load files).History entry stores s) ∧
      ∀ entry stores s, (Machine.load files).History entry stores s →
        (∀ a name, s.heap.field a name = lastStored stores a fun r => r.name = name) ∧
        ∀ canceled s', s.step (Machine.load files) canceled = .running s' →
          (∀ a r, s.load? = some (a, r) → ∃ f fs vs, s'.frames = f :: fs ∧
            f.stack = lastStored stores a (fun q => q.name = r.name) :: vs) ∧
          (∀ x, s.store? = some x → s'.heap.field x.object x.field.name = x.value) ∧
          ∀ a name, (∀ x, s.store? = some x → ¬(x.object = a ∧ x.field.name = name)) →
            s'.heap.field a name = s.heap.field a name := by
  obtain ⟨files, hf⟩ := RedeclaredField.compiled
  obtain ⟨-, hhistory, hruns, -⟩ := accepted_field_reads (o := {}) RedeclaredField.accepted hf
  refine ⟨files, hf, hhistory, fun entry stores s hs => ⟨(hruns entry stores s hs).1, fun canceled s' hstep => ?_⟩⟩
  obtain ⟨hread, hstore, hother⟩ := (hruns entry stores s hs).2 canceled s' hstep
  refine ⟨fun a r hload => ?_, hstore, hother⟩
  obtain ⟨f, fs, v, vs, hframes, hstack, rfl, -⟩ := hread a r hload
  exact ⟨f, fs, vs, hframes, hstack⟩

/-- What is read through one declaration is what was stored through the other: the parent's field had only been given
its default, and 7 is printed. -/
theorem redeclared_field_shared : ∃ files stores s v,
    Program.decode "sample" RedeclaredField.source = .ok RedeclaredField.program ∧
      (RedeclaredField.program.check "Main").issues = [] ∧
      Program.compile {} (RedeclaredField.program.check "Main").decl (RedeclaredField.program.check "Main").decl =
        .ok files ∧
      (Machine.load files).History "Main" stores s ∧ s.load? = some (1, ⟨"A", "x", "Ljava/lang/Integer;"⟩) ∧
      lastStored stores 1 (fun q => q.owner = "A" ∧ q.name = "x") = v ∧ s.heap.get? v = some (.integer 0) ∧
      s.heap.get? (s.heap.field 1 "x") = some (.integer 7) ∧
      (Machine.load files).run false 100 "Main" = .finished "7" := by
  have hrun : (Program.compile {} (RedeclaredField.program.check "Main").decl
      (RedeclaredField.program.check "Main").decl).toOption.bind (fun files =>
        ((Machine.load files).start "Main").toOption.bind fun s => (s.recorded (Machine.load files) 42 []).map fun r =>
          (r.2.load?, r.2.heap.get? (lastStored r.1 1 fun q => q.owner = "A" ∧ q.name = "x"),
            r.2.heap.get? (r.2.heap.field 1 "x"), ((Machine.load files).run false 100 "Main").printed?)) =
      some (some (1, ⟨"A", "x", "Ljava/lang/Integer;"⟩), some (.integer 0), some (.integer 7), some "7") := by
    decide +kernel
  obtain ⟨files, hc, hrun⟩ := exists_ok_of_bind hrun
  obtain ⟨s, hs, hrun⟩ := exists_ok_of_bind hrun
  obtain ⟨⟨stores, t⟩, ht, hrun⟩ := Option.map_eq_some_iff.1 hrun
  obtain ⟨hload, hstored, hfield, hprinted⟩ : _ ∧ _ ∧ _ ∧ _ := by simpa using hrun
  exact ⟨files, stores, t, _, RedeclaredField.decode_source, RedeclaredField.accepted, hc,
    Machine.History.recorded (.start hs) ht, hload, rfl, by simpa using hstored, hfield, Outcome.eq_finished hprinted⟩

end ClassCompiler
