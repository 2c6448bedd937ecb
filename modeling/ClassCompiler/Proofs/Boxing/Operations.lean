import ClassCompiler.Proofs.Boxing.Methods
import ClassCompiler.Proofs.Stack.Underflow

namespace ClassCompiler

def Value.kind : Value → Kind
  | .int _ => .raw
  | _ => .ref

def Object.Boxed : Object → Prop
  | .integer _ => True
  | .boolean _ => True
  | .inst _ fields => ∀ f ∈ fields, f.2.kind = .ref
  | .list elems => ∀ v ∈ elems, v.kind = .ref
  | .fptr receiver _ => receiver.kind = .ref
  | .arrayList elems => ∀ v ∈ elems, v.kind = .ref

def Heap.Boxed (h : Heap) : Prop := ∀ o ∈ h, o.Boxed

theorem argument_kind {vs : List Value} (h : ∀ v ∈ vs, v.kind = .ref) (i : Nat) : (argument vs i).kind = .ref := by
  unfold argument
  cases hi : vs[i]? with
  | none => rfl
  | some v => exact h v (List.mem_of_getElem? hi)

theorem fieldValue_kind {fields : List (String × Value)} (h : ∀ f ∈ fields, f.2.kind = .ref) (name : String) :
    (fieldValue fields name).kind = .ref := by
  unfold fieldValue
  cases hl : fields.lookup name with
  | none => rfl
  | some v =>
    obtain ⟨before, after, hmem, -⟩ := List.lookup_eq_some_iff.1 hl
    exact h (name, v) (by simp [hmem])

theorem setFieldValue_kind {fields : List (String × Value)} (h : ∀ f ∈ fields, f.2.kind = .ref) (name : String)
    {v : Value} (hv : v.kind = .ref) : ∀ f ∈ setFieldValue fields name v, f.2.kind = .ref := by
  induction fields with
  | nil => simpa [setFieldValue] using hv
  | cons f fs ih =>
    obtain ⟨n, w⟩ := f
    obtain ⟨hw, hfs⟩ := List.forall_mem_cons.1 h
    unfold setFieldValue
    split
    · exact List.forall_mem_cons.2 ⟨hv, hfs⟩
    · exact List.forall_mem_cons.2 ⟨hw, ih hfs⟩

namespace Heap.Boxed

variable {h : Heap} {v : Value} {o : Object}

theorem get? (hh : h.Boxed) (hv : h.get? v = some o) : o.Boxed := by
  cases v with
  | ref a => exact hh o (Array.mem_of_getElem? hv)
  | _ => cases hv

theorem push (hh : h.Boxed) (ho : o.Boxed) : Heap.Boxed (Array.push h o) := by
  intro x hx
  rcases Array.mem_push.1 hx with hx | rfl
  · exact hh x hx
  · exact ho

theorem set (hh : h.Boxed) (ho : o.Boxed) : (h.set v o).Boxed := by
  cases v with
  | ref a =>
    intro x hx
    rcases Array.mem_or_eq_of_mem_setIfInBounds hx with hx | rfl
    · exact hh x hx
    · exact ho
  | _ => exact hh

end Heap.Boxed

/-- The stack and the slots of a frame are of the kinds that are known. -/
structure Frame.HasKinds (f : Frame) (count : Nat) (a : Kinds) : Prop where
  stack : f.stack.map Value.kind = a.stack
  vars : ∀ n < count, (f.local? n).kind = .ref
  temps : ∀ n k, count ≤ n → a.temps n = some k → (f.local? n).kind = k

/-- A frame at the same place with other values. -/
structure Frame.Moved (f : Frame) (count : Nat) (a : Kinds) (g : Frame) : Prop where
  method : g.method = f.method
  pushesResult : g.pushesResult = f.pushesResult
  pc : g.pc = f.pc
  size : g.locals.size = f.locals.size
  kinds : g.HasKinds count a

theorem Frame.Moved.trans {f g k : Frame} {count : Nat} {a b : Kinds} (h : f.Moved count a g)
    (h' : g.Moved count b k) : f.Moved count b k :=
  ⟨h'.method.trans h.method, h'.pushesResult.trans h.pushesResult, h'.pc.trans h.pc, h'.size.trans h.size, h'.kinds⟩

theorem Frame.HasKinds.mono {f : Frame} {count : Nat} {a b : Kinds} (h : f.HasKinds count a) (hb : b ≤ a) :
    f.HasKinds count b :=
  ⟨h.stack.trans hb.1.symm, h.vars, fun n k hn hk => h.temps n k hn (hb.2 n k hk)⟩

theorem Frame.HasKinds.slot {f : Frame} {count n : Nat} {a : Kinds} {k : Kind} (h : f.HasKinds count a)
    (hk : a.slot count n = some k) : (f.local? n).kind = k := by
  unfold Kinds.slot at hk
  split at hk
  · next hn =>
    cases hk
    exact h.vars n hn
  · next hn => exact h.temps n k (Nat.not_lt.1 hn) hk

namespace Frame.HasKinds

variable {f : Frame} {count : Nat} {a : Kinds}

theorem push (hf : f.HasKinds count a) (v : Value) :
    Attempt AnyCause (f.Moved count (a.push v.kind)) (f.push v) := by
  unfold Frame.push
  split
  · trivial
  · exact ⟨rfl, rfl, rfl, rfl, by simp [hf.stack], hf.vars, hf.temps⟩

theorem pop {k : Kind} {ks : List Kind} (hf : f.HasKinds count a) (hs : a.stack = k :: ks) :
    Attempt AnyCause (fun r => r.1.kind = k ∧ f.Moved count { a with stack := ks } r.2) f.pop := by
  have hstack := hf.stack
  rw [hs] at hstack
  unfold Frame.pop
  split
  · trivial
  · next v vs hv =>
    rw [hv, List.map_cons, List.cons.injEq] at hstack
    exact ⟨hstack.1, rfl, rfl, rfl, rfl, hstack.2, hf.vars, hf.temps⟩

theorem popTwo {j k : Kind} {ks : List Kind} (hf : f.HasKinds count a) (hs : a.stack = k :: j :: ks) :
    Attempt AnyCause (fun r => r.1.kind = j ∧ r.2.1.kind = k ∧ f.Moved count { a with stack := ks } r.2.2) f.popTwo := by
  have hstack := hf.stack
  rw [hs] at hstack
  unfold Frame.popTwo
  split
  · next b c vs hv =>
    rw [hv, List.map_cons, List.map_cons, List.cons.injEq, List.cons.injEq] at hstack
    exact ⟨hstack.2.1, hstack.1, rfl, rfl, rfl, rfl, hstack.2.2, hf.vars, hf.temps⟩
  · trivial

theorem popMany {ws ks : List Kind} (hf : f.HasKinds count a) (hs : a.stack = ws ++ ks) {n : Nat}
    (hn : ws.length = n) : Attempt AnyCause
      (fun r => r.1.map Value.kind = ws.reverse ∧ f.Moved count { a with stack := ks } r.2) (f.popMany n) := by
  have hstack := hf.stack
  rw [hs] at hstack
  unfold Frame.popMany
  split
  · trivial
  · refine ⟨?_, rfl, rfl, rfl, rfl, ?_, hf.vars, hf.temps⟩
    · rw [List.map_reverse, List.map_take, hstack, ← hn, List.take_left']
      rfl
    · rw [List.map_drop, hstack, ← hn, List.drop_left']
      rfl

theorem local?_setLocal {n : Nat} (hn : n < f.locals.size) (v : Value) (i : Nat) :
    (f.setLocal n v).local? i = if i = n then v else f.local? i := by
  unfold Frame.local? Frame.setLocal
  by_cases hi : i = n
  · subst hi
    simp [hn]
  · simp [hi, Ne.symm hi]

/-- A slot of the receiver, a parameter or a local is set. -/
theorem setVar {n : Nat} {v : Value} (hf : f.HasKinds count a) (hn : n < count) (hsize : n < f.locals.size)
    (hv : v.kind = .ref) : (f.setLocal n v).HasKinds count a := by
  refine ⟨hf.stack, fun i hi => ?_, fun i k hi hk => ?_⟩
  · rw [local?_setLocal hsize]
    split
    · exact hv
    · exact hf.vars i hi
  · rw [local?_setLocal hsize, if_neg (by omega)]
    exact hf.temps i k hi hk

theorem setTemp {n : Nat} (hf : f.HasKinds count a) (hn : count ≤ n) (hsize : n < f.locals.size) (v : Value) :
    (f.setLocal n v).HasKinds count (a.take n v.kind) := by
  refine ⟨hf.stack, fun i hi => ?_, fun i k hi hk => ?_⟩
  · rw [local?_setLocal hsize, if_neg (by omega)]
    exact hf.vars i hi
  · simp only [Kinds.take, Function.update_apply] at hk
    rw [local?_setLocal hsize]
    split at hk
    · next h => rw [if_pos h, Option.some.inj hk]
    · next h =>
      rw [if_neg h]
      exact hf.temps i k hi hk

end Frame.HasKinds

/-- What a runtime method may reply: an answer of its kind, or a call with references. -/
def Reply.Boxed (m : Machine) (n : NativeMethod) : Reply → Prop
  | .value v h _ => h.Boxed ∧ n.result = if n.answers then [v.kind] else []
  | .call h _ mc args => h.Boxed ∧ m.HasMethod mc ∧ (∀ v ∈ args, v.kind = .ref) ∧ n.answers = true ∧ n.result = [.ref]

/-- What an operation may do to a frame: it leaves the kinds `x`, at its place or where it jumps to, or
it makes a call with references after which it has them. -/
def Effect.Boxed (m : Machine) (f : Frame) (op : Op) (count : Nat) (x : Kinds) : Effect → Prop
  | .next g h _ => h.Boxed ∧ ((op.isFinal = false ∧ f.Moved count x g) ∨
    ∃ test l k, op = .jump test l ∧ f.method.code.labelOffset? l = some k ∧ { f with pc := k }.Moved count x g)
  | .call g h _ mc args pushes => h.Boxed ∧ m.HasMethod mc ∧ (∀ v ∈ args, v.kind = .ref) ∧ op.isFinal = false ∧
    ∃ b, f.Moved count b g ∧ x = if pushes then b.push .ref else b

section

variable {m : Machine} {f : Frame} {h : Heap} {count : Nat} {a x : Kinds}

theorem forall_kind_of_map_replicate {vs : List Value} {n : Nat} (hv : vs.map Value.kind = List.replicate n .ref) :
    ∀ v ∈ vs, v.kind = .ref := by
  intro v hmem
  exact List.eq_of_mem_replicate (hv ▸ List.mem_map_of_mem hmem)

theorem asInstance_boxed (hh : h.Boxed) (v : Value) :
    Attempt AnyCause (fun r => ∀ fl ∈ r.2, fl.2.kind = .ref) (asInstance h v) := by
  unfold asInstance
  split
  · trivial
  · split
    · next c fs hv => exact hh.get? hv
    · trivial

theorem elementsOf_boxed {select : Object → Option (List Value)} {v : Value} {note : String} (hh : h.Boxed)
    (hs : ∀ o es, select o = some es → o.Boxed → ∀ v ∈ es, v.kind = .ref) :
    Attempt AnyCause (fun es => ∀ v ∈ es, v.kind = .ref) (elementsOf h select v note) := by
  unfold elementsOf
  split
  · trivial
  · split
    · next es he =>
      obtain ⟨o, ho, hes⟩ := Option.bind_eq_some_iff.1 he
      exact hs o es hes (hh.get? ho)
    · trivial

theorem Object.Boxed.listElems {o : Object} {es : List Value} (he : o.listElems? = some es) (ho : o.Boxed) :
    ∀ v ∈ es, v.kind = .ref := by
  cases o with
  | list vs =>
    obtain rfl := Option.some.inj he
    exact ho
  | _ => cases he

theorem Object.Boxed.arrayListElems {o : Object} {es : List Value} (he : o.arrayListElems? = some es)
    (ho : o.Boxed) : ∀ v ∈ es, v.kind = .ref := by
  cases o with
  | arrayList vs =>
    obtain rfl := Option.some.inj he
    exact ho
  | _ => cases he

theorem constructor_boxed (hh : h.Boxed) (n : NativeConstructor) (recv : Value) {args : List Value}
    (ha : ∀ v ∈ args, v.kind = .ref) : Attempt AnyCause Heap.Boxed (n.run h recv args) := by
  have hfill : ∀ {select : Object → Option (List Value)},
      (∀ o es, select o = some es → o.Boxed → ∀ v ∈ es, v.kind = .ref) →
      Attempt AnyCause Heap.Boxed (NativeConstructor.run.fillList h recv args {} select) := by
    intro select hs
    unfold NativeConstructor.run.fillList
    split
    · exact (elementsOf_boxed hh hs).bind fun es hes => hh.set (o := .list es) hes
    · trivial
  cases n with
  | listOfArrayList => exact hfill fun _ _ he ho => ho.arrayListElems he
  | listCopy => exact hfill fun _ _ he ho => ho.listElems he
  | fptrBind =>
    simp only [NativeConstructor.run]
    split
    · split
      · next name _ => exact hh.set (o := .fptr (argument args 0) name) (argument_kind ha 0)
      · trivial
    · trivial

theorem dispatch_boxed (hh : h.Boxed) {receiver : Value} (hr : receiver.kind = .ref) (name : String)
    {args : List Value} (ha : ∀ v ∈ args, v.kind = .ref) :
    Attempt AnyCause (Reply.Boxed m .invoke) (m.dispatch h receiver name args) := by
  unfold Machine.dispatch
  split
  · trivial
  · split
    · trivial
    · split
      · trivial
      · next c hc =>
        split
        · trivial
        · next mc hmc =>
          simp only
          split
          · exact ⟨hh, ⟨c, Machine.class?_mem hc, List.mem_of_find?_eq_some hmc⟩,
              List.forall_mem_cons.2 ⟨hr, ha⟩, rfl, rfl⟩
          · trivial

theorem method_boxed (hh : h.Boxed) (n : NativeMethod) (recv : Value) {args : List Value}
    (ha : args.map Value.kind = n.params) : Attempt AnyCause (Reply.Boxed m n) (n.run m h recv args) := by
  cases n with
  | intValue | booleanValue =>
    simp only [NativeMethod.run]
    split
    · exact ⟨hh, rfl⟩
    · trivial
  | arrayListAdd =>
    obtain ⟨v, rfl, hv⟩ : ∃ v, args = [v] ∧ v.kind = .ref := by simpa [NativeMethod.params, List.map_eq_cons_iff] using ha
    simp only [NativeMethod.run]
    split
    · next es he =>
      refine ⟨hh.set (o := .arrayList _) fun w hw => ?_, rfl⟩
      rcases List.mem_append.1 hw with hw | hw
      · exact hh.get? he w hw
      · exact List.mem_singleton.1 hw ▸ hv
    · trivial
  | getElement =>
    simp only [NativeMethod.run]
    split
    · next es he =>
      split
      · exact ⟨hh, by rw [argument_kind (hh.get? he)]; rfl⟩
      · trivial
    · trivial
  | setElement =>
    obtain ⟨i, v, rfl, -, hv⟩ : ∃ i v, args = [i, v] ∧ i.kind = .raw ∧ v.kind = .ref := by
      simpa [NativeMethod.params, List.map_eq_cons_iff] using ha
    simp only [NativeMethod.run]
    split
    · next es he =>
      split
      · refine ⟨hh.set (o := .list _) fun w hw => ?_, rfl⟩
        rcases List.mem_or_eq_of_mem_set hw with hw | rfl
        · exact hh.get? he w hw
        · exact hv
      · trivial
    · trivial
  | invoke =>
    simp only [NativeMethod.run]
    split
    · next receiver name he =>
      exact (elementsOf_boxed hh fun _ _ he ho => ho.arrayListElems he).bind fun es hes =>
        dispatch_boxed hh (hh.get? he) name hes
    · trivial
  | printInt | printBool => exact ⟨hh, rfl⟩
  | printString =>
    simp only [NativeMethod.run]
    split
    · exact ⟨hh, rfl⟩
    · trivial

/-- What an operation finds and leaves, where it works on its operands only. -/
theorem Kinds.after_eq_some {op : Op} (hx : a.after count op = some x)
    (hop : ∀ ks : List Kind, Kinds.after count ⟨ks, a.temps⟩ op = (op.operands?.bind (takeKinds · ks)).map
      fun ks => ⟨op.results ++ ks, a.temps⟩) :
    ∃ ws ks, op.operands? = some ws ∧ a.stack = ws ++ ks ∧ x = { a with stack := op.results ++ ks } := by
  rw [show a = ⟨a.stack, a.temps⟩ from rfl, hop] at hx
  obtain ⟨ks, hks, rfl⟩ := Option.map_eq_some_iff.1 hx
  obtain ⟨ws, hws, ht⟩ := Option.bind_eq_some_iff.1 hks
  exact ⟨ws, ks, hws, takeKinds_eq_some.1 ht, rfl⟩

theorem invokeSpecial_boxed (hh : h.Boxed) (hf : f.HasKinds count a) {r : MemberRef}
    (hx : a.after count (.invokeSpecial r) = some x) :
    Attempt AnyCause (Effect.Boxed m f (.invokeSpecial r) count x) (m.invokeSpecial f h r) := by
  obtain ⟨ws, ks, ⟨⟩, hs, rfl⟩ := Kinds.after_eq_some hx fun _ => rfl
  unfold Machine.invokeSpecial
  split
  · trivial
  · refine (hf.popMany hs List.length_replicate).bind fun ⟨vals, g⟩ ⟨hvals, hg⟩ => ?_
    rw [List.reverse_replicate] at hvals
    have hvals := forall_kind_of_map_replicate hvals
    simp only
    split
    · trivial
    · split
      · exact (constructor_boxed hh _ _ fun v hv => hvals v (List.mem_of_mem_tail hv)).bind fun h' hh' =>
          ⟨hh', .inl ⟨rfl, hg⟩⟩
      · split
        · exact ⟨hh, .inl ⟨rfl, hg⟩⟩
        · split
          · trivial
          · next c hc =>
            split
            · trivial
            · next mc hmc =>
              exact ⟨hh, ⟨c, Machine.class?_mem hc, List.mem_of_find?_eq_some hmc⟩, hvals, rfl, _, hg, rfl⟩

theorem NativeMethod.length_params (n : NativeMethod) : n.params.length = n.arity := by cases n <;> rfl

theorem invokeVirtual_boxed (hh : h.Boxed) (hf : f.HasKinds count a) {r : MemberRef}
    (hx : a.after count (.invokeVirtual r) = some x) :
    Attempt AnyCause (Effect.Boxed m f (.invokeVirtual r) count x) (m.invokeVirtual f h r) := by
  obtain ⟨ws, ks, hws, hs, rfl⟩ := Kinds.after_eq_some hx fun _ => rfl
  obtain ⟨n, hn, rfl⟩ := Option.map_eq_some_iff.1 hws
  obtain rfl := NativeMethod.eq_ref_of_named? hn
  unfold Machine.invokeVirtual
  refine (hf.popMany hs (by simp [NativeMethod.length_params])).bind fun ⟨vals, g⟩ ⟨hvals, hg⟩ => ?_
  obtain ⟨recv, args, rfl, -, hargs⟩ : ∃ recv args, vals = recv :: args ∧ recv.kind = .ref ∧
      args.map Value.kind = n.params := by
    simpa [List.map_eq_cons_iff] using hvals
  simp only [NativeMethod.ofRef?_ref, returnsVoid_method, Bool.not_not, List.tail_cons]
  split
  · trivial
  · refine (method_boxed hh n _ hargs).bind fun reply hreply => ?_
    cases reply with
    | call h' cls mc as =>
      obtain ⟨hh', hmc, has, hans, hres⟩ := hreply
      refine ⟨hh', hmc, has, rfl, _, hg, ?_⟩
      simp [hans, Op.results, hres, Kinds.push]
    | value v h' printed =>
      obtain ⟨hh', hres⟩ := hreply
      cases hans : n.answers with
      | false =>
        refine ⟨hh', .inl ⟨rfl, ?_⟩⟩
        simpa [Op.results, hres, hans] using hg
      | true =>
        refine (hg.kinds.push v).bind fun k hk => ⟨hh', .inl ⟨rfl, ?_⟩⟩
        simpa [Op.results, hres, hans, Kinds.push] using hg.trans hk

theorem invokeStatic_boxed (hh : h.Boxed) (hf : f.HasKinds count a) {r : MemberRef}
    (hx : a.after count (.invokeStatic r) = some x) :
    Attempt AnyCause (Effect.Boxed m f (.invokeStatic r) count x) (Machine.invokeStatic f h r) := by
  obtain ⟨ws, ks, ⟨⟩, hs, rfl⟩ := Kinds.after_eq_some hx fun _ => rfl
  unfold Machine.invokeStatic
  refine (hf.popMany hs List.length_replicate).bind fun ⟨vals, g⟩ ⟨hvals, hg⟩ => ?_
  simp only
  split
  · trivial
  · next n _ =>
    have hrun : (n.run h vals).1.Boxed ∧ (n.run h vals).2.kind = .ref := by
      cases n <;> exact ⟨hh.push trivial, rfl⟩
    refine (hg.kinds.push _).bind fun k hk => ⟨hrun.1, .inl ⟨rfl, ?_⟩⟩
    rw [hrun.2] at hk
    exact hg.trans hk

theorem decide_boxed (hf : f.HasKinds count a) {test : Jump} {ks : List Kind} (hs : a.stack = test.operands ++ ks) :
    Attempt AnyCause (fun r => f.Moved count { a with stack := ks } r.2) (test.decide f) := by
  cases test with
  | always =>
    obtain rfl : ks = a.stack := hs.symm
    exact ⟨rfl, rfl, rfl, rfl, hf⟩
  | ifZero | ifNonzero => exact (hf.pop hs).bind fun ⟨v, g⟩ hg => hg.2
  | ifInts _ | ifSame | ifDifferent => exact (hf.popTwo hs).bind fun ⟨v, w, g⟩ hg => hg.2.2

theorem jump_boxed (hh : h.Boxed) (hf : f.HasKinds count a) {test : Jump} {l : String}
    (hx : a.after count (.jump test l) = some x) :
    Attempt AnyCause (Effect.Boxed m f (.jump test l) count x) (m.exec f h (.jump test l)) := by
  obtain ⟨ws, ks, ⟨⟩, hs, rfl⟩ := Kinds.after_eq_some hx fun _ => rfl
  have hdecide := decide_boxed hf hs
  unfold Machine.exec
  simp only
  cases hr : test.decide f with
  | error e => trivial
  | ok r =>
    obtain ⟨taken, g⟩ := r
    rw [hr] at hdecide
    cases taken with
    | false =>
      refine ⟨hh, .inl ⟨?_, hdecide⟩⟩
      cases test with
      | always => cases hr
      | _ => rfl
    | true =>
      show Attempt AnyCause _ (Effect.quiet h <$> g.jumpTo l)
      unfold Frame.jumpTo
      split
      · next k hk =>
        rw [hdecide.method] at hk
        exact ⟨hh, .inr ⟨test, l, k, rfl, hk, ⟨hdecide.method, hdecide.pushesResult, rfl, hdecide.size,
          hdecide.kinds.stack, hdecide.kinds.vars, hdecide.kinds.temps⟩⟩⟩
      · trivial

theorem slot_boxed (i : Int) : Attempt AnyCause (fun n => n = i.toNat ∧ n < f.locals.size) (f.slot i) := by
  unfold Frame.slot
  split
  · next hi =>
    simp only [Bool.and_eq_true, decide_eq_true_eq] at hi
    exact ⟨rfl, hi.2⟩
  · trivial

theorem load_boxed (hh : h.Boxed) (hf : f.HasKinds count a) {k : SlotKind} {i : Int}
    (hx : a.after count (.load k i) = some x) :
    Attempt AnyCause (Effect.Boxed m f (.load k i) count x) (m.exec f h (.load k i)) := by
  obtain ⟨kind, hkind, rfl⟩ := Option.map_eq_some_iff.1 hx
  refine (slot_boxed i).bind fun n ⟨hn, _⟩ => ?_
  subst hn
  refine (hf.push _).map fun g hg => ⟨hh, .inl ⟨rfl, ?_⟩⟩
  rwa [hf.slot hkind] at hg

theorem store_boxed (hh : h.Boxed) (hf : f.HasKinds count a) {k : SlotKind} {i : Int}
    (hx : a.after count (.store k i) = some x) :
    Attempt AnyCause (Effect.Boxed m f (.store k i) count x) (m.exec f h (.store k i)) := by
  obtain ⟨_ | ⟨kind, ks⟩, τ⟩ := a
  · cases hx
  · rw [Kinds.after_store] at hx
    refine (slot_boxed i).bind fun n ⟨hn, hsize⟩ => (hf.pop rfl).bind fun ⟨v, g⟩ ⟨hv, hg⟩ => ?_
    subst hn
    rw [← hg.size] at hsize
    have hset : (g.setLocal i.toNat v).HasKinds count x := by
      split at hx
      · next hn =>
        obtain ⟨rfl, hx⟩ := Option.ite_none_right_eq_some.1 hx
        exact Option.some.inj hx ▸ hg.kinds.setVar hn hsize hv
      · next hn =>
        have := hg.kinds.setTemp (Nat.not_lt.1 hn) hsize v
        rw [hv] at this
        exact Option.some.inj hx ▸ this
    exact ⟨hh, .inl ⟨rfl, hg.method, hg.pushesResult, hg.pc, by simpa [Frame.setLocal] using hg.size, hset⟩⟩

theorem increment_boxed (hh : h.Boxed) (hf : f.HasKinds count a) {i d : Int}
    (hx : a.after count (.increment i d) = some x) :
    Attempt AnyCause (Effect.Boxed m f (.increment i d) count x) (m.exec f h (.increment i d)) := by
  obtain ⟨hraw, hx⟩ := Option.ite_none_right_eq_some.1 hx
  obtain rfl := Option.some.inj hx
  obtain ⟨hcount, hraw⟩ : count ≤ i.toNat ∧ a.temps i.toNat = some .raw := by
    unfold Kinds.slot at hraw
    split at hraw
    · cases hraw
    · next hn => exact ⟨Nat.not_lt.1 hn, hraw⟩
  refine (slot_boxed i).bind fun n ⟨hn, hsize⟩ => ?_
  subst hn
  have hset := hf.setTemp hcount hsize (.int ((f.local? i.toNat).toInt32 + Int32.ofInt d))
  have htake : a.take i.toNat .raw = a := by simp [Kinds.take, ← hraw]
  exact ⟨hh, .inl ⟨rfl, rfl, rfl, rfl, by simp [Frame.setLocal], htake ▸ hset⟩⟩

theorem exec_boxed (hh : h.Boxed) (hf : f.HasKinds count a) {op : Op} (hx : a.after count op = some x) :
    Attempt AnyCause (Effect.Boxed m f op count x) (m.exec f h op) := by
  -- `hx` says which kinds the operation takes and leaves; calls, jumps and slots have lemmas of their own.
  cases op with
  | jump test l => exact jump_boxed hh hf hx
  | invokeSpecial r => exact invokeSpecial_boxed hh hf hx
  | invokeVirtual r => exact invokeVirtual_boxed hh hf hx
  | invokeStatic r => exact invokeStatic_boxed hh hf hx
  | load k i => exact load_boxed hh hf hx
  | store k i => exact store_boxed hh hf hx
  | increment i d => exact increment_boxed hh hf hx
  | dup =>
    obtain ⟨_ | ⟨kind, ks⟩, τ⟩ := a
    · cases hx
    · obtain rfl := Option.some.inj hx
      refine (hf.pop rfl).bind ?_
      rintro ⟨v, g⟩ ⟨hv, hg⟩
      refine (hg.kinds.push v).bind fun g' hg' => (hg'.kinds.push v).map fun g'' hg'' => ⟨hh, .inl ⟨rfl, ?_⟩⟩
      rw [hv] at hg' hg''
      exact (hg.trans hg').trans hg''
  | pop =>
    obtain ⟨_ | ⟨kind, ks⟩, τ⟩ := a
    · cases hx
    · obtain rfl := Option.some.inj hx
      exact (hf.pop rfl).bind fun _ hg => ⟨hh, .inl ⟨rfl, hg.2⟩⟩
  | pushInt v | pushString v | pushNull =>
    obtain ⟨ws, ks, ⟨⟩, hs, rfl⟩ := Kinds.after_eq_some hx fun _ => rfl
    obtain rfl : ks = a.stack := hs.symm
    exact (hf.push _).map fun g hg => ⟨hh, .inl ⟨rfl, hg⟩⟩
  | arith op =>
    obtain ⟨ws, ks, ⟨⟩, hs, rfl⟩ := Kinds.after_eq_some hx fun _ => rfl
    refine (hf.popTwo hs).bind ?_
    rintro ⟨v, w, g⟩ hg
    refine Attempt.bind (P := fun _ => True) ?_ fun r _ => (hg.2.2.kinds.push _).map fun k hk =>
      ⟨hh, .inl ⟨rfl, hg.2.2.trans hk⟩⟩
    cases op.apply v.toInt32 w.toInt32 <;> trivial
  | neg =>
    obtain ⟨ws, ks, ⟨⟩, hs, rfl⟩ := Kinds.after_eq_some hx fun _ => rfl
    exact (hf.pop hs).bind fun _ hg => (hg.2.kinds.push _).map fun k hk => ⟨hh, .inl ⟨rfl, hg.2.trans hk⟩⟩
  | label l =>
    obtain ⟨ws, ks, ⟨⟩, hs, rfl⟩ := Kinds.after_eq_some hx fun _ => rfl
    obtain rfl : ks = a.stack := hs.symm
    exact ⟨hh, .inl ⟨rfl, rfl, rfl, rfl, rfl, hf⟩⟩
  | new cls =>
    obtain ⟨ws, ks, ⟨⟩, hs, rfl⟩ := Kinds.after_eq_some hx fun _ => rfl
    obtain rfl : ks = a.stack := hs.symm
    have halloc : Attempt AnyCause Object.Boxed (m.allocate cls) := by
      unfold Machine.allocate
      repeat' split
      all_goals simp [Attempt, fault, Object.Boxed, Value.kind, AnyCause]
    exact halloc.bind fun o ho => (hf.push _).bind fun g hg => ⟨hh.push ho, .inl ⟨rfl, hg⟩⟩
  | cast cls =>
    obtain ⟨ws, ks, ⟨⟩, hs, rfl⟩ := Kinds.after_eq_some hx fun _ => rfl
    unfold Machine.exec
    simp only
    split
    · trivial
    · split
      · exact ⟨hh, .inl ⟨rfl, rfl, rfl, rfl, rfl, hf.stack.trans hs, hf.vars, hf.temps⟩⟩
      · trivial
  | getField r =>
    obtain ⟨ws, ks, ⟨⟩, hs, rfl⟩ := Kinds.after_eq_some hx fun _ => rfl
    refine (hf.pop hs).bind ?_
    rintro ⟨v, g⟩ ⟨-, hg⟩
    have hi := asInstance_boxed hh v
    simp only
    split
    · trivial
    · next c fields hv =>
      rw [hv] at hi
      refine (hg.kinds.push _).map fun k hk => ⟨hh, .inl ⟨rfl, ?_⟩⟩
      rw [fieldValue_kind hi] at hk
      exact hg.trans hk
  | putField r =>
    obtain ⟨ws, ks, ⟨⟩, hs, rfl⟩ := Kinds.after_eq_some hx fun _ => rfl
    refine (hf.popTwo hs).bind ?_
    rintro ⟨v, w, g⟩ ⟨-, hw, hg⟩
    have hi := asInstance_boxed hh v
    simp only
    split
    · trivial
    · next c fields hv =>
      rw [hv] at hi
      exact ⟨hh.set (o := .inst c _) (setFieldValue_kind hi r.name hw), .inl ⟨rfl, hg⟩⟩
  | getStatic r =>
    obtain ⟨ws, ks, ⟨⟩, hs, rfl⟩ := Kinds.after_eq_some hx fun _ => rfl
    obtain rfl : ks = a.stack := hs.symm
    unfold Machine.exec
    simp only
    split
    · exact (hf.push _).map fun g hg => ⟨hh, .inl ⟨rfl, hg⟩⟩
    · trivial
  | ret | retRef | unknown => trivial

end

end ClassCompiler
