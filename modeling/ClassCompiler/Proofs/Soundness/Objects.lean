import ClassCompiler.Proofs.Soundness.Operations

namespace ClassCompiler

section

variable {o : CompileOptions} {p : Program} {m : Machine} {w w' : TypedHeap} {d n : Nat} {f g : Frame}
  {a b : Facts} {op : Op} {k : Fact} {cell cell' : Cell} {cs : List Cell} {τ : Nat → Fact} {note : Option Note}
  {h : Heap} {stack vs : List Value} {u v : Value} {t : Ty} {ts : List Ty} {c : String} {r : MemberRef} {x : VarDecl}

theorem asInstance_eq {fs : FieldValues} (hv : h.get? v = some (.inst c fs)) : asInstance h v = .ok (c, fs) := by
  cases v with
  | ref a => simp [asInstance, hv, Value.isNull]
  | _ => cases hv

theorem TypedHeap.Valid.setField (hw : w.Valid p) {i : Nat} {fs : FieldValues} (ho : w.heap[i]? = some (.inst c fs))
    (hx : p.OwnField c r.name x) (hv : w.Fits p x.type v) :
    (w.put (.ref i) (.inst c (setFieldValue fs r.name v))).Valid p ∧
      ∀ {sites : Nat → Nat → Prop}, w.Extends sites (w.put (.ref i) (.inst c (setFieldValue fs r.name v))) := by
  have hmark : ∀ m, w.marks i ≠ some m := by
    intro m hm
    obtain ⟨obj, hobj, hallows⟩ := hw.marked i m hm
    obtain rfl := Option.some.inj (ho.symm.trans hobj)
    unfold TypedHeap.Allows at hallows
    split at hallows <;> simp_all
  have hext : ∀ {sites : Nat → Nat → Prop}, w.Extends sites (w.put (.ref i) (.inst c (setFieldValue fs r.name v))) := by
    refine TypedHeap.Extends.put ho ⟨rfl, fun name hset => ?_⟩ fun d n hm => absurd hm (hmark _)
    by_cases hn : r.name = name
    · rw [← hn, lookup_setFieldValue]
      rfl
    · rwa [lookup_setFieldValue_ne hn]
  refine ⟨hw.put ho (hext : w.Extends (fun _ _ => False) _) (fun m hm => absurd hm (hmark m)) fun c' fs' he => ?_, hext⟩
  obtain ⟨rfl, rfl⟩ := Object.inst.inj he
  intro name y hy z hz
  by_cases hn : r.name = name
  · subst hn
    rw [lookup_setFieldValue] at hz
    obtain rfl := Option.some.inj hz
    obtain ⟨cd, hcd, hxd⟩ := hx
    obtain ⟨cd', hcd', hyd⟩ := hy
    obtain rfl := Option.some.inj (hcd.symm.trans hcd')
    obtain rfl := Option.some.inj (hxd.symm.trans hyd)
    exact hv
  · rw [lookup_setFieldValue_ne hn] at hz
    exact hw.fields i c fs ho name y hy z hz

theorem leads_getField (hx : p.OwnField c r.name x) :
    (Op.getField r).Leads o p m ⟨.known (.val (.cls c)) :: cs, τ, note⟩ ⟨.known (.val x.type) :: cs, τ, none⟩ := by
  intro w d f hw hf
  obtain ⟨v, vs, hs, hv, hf'⟩ := hf.uncons
  unfold Machine.exec
  simp only [Frame.pop, hs]
  obtain rfl | ⟨fs, ho, hset⟩ := hv
  · exact .get
  · obtain ⟨y, hy⟩ := Option.isSome_iff_exists.1 (hset r.name x hx)
    have hfits : w.Fits p x.type y := by
      cases v with
      | ref i => exact hw.fields i c fs ho r.name x hx y hy
      | _ => cases ho
    simp only [bind, Except.bind, asInstance_eq ho, fieldValue, hy, Option.getD_some]
    exact leaves_quiet_push (.with_stack f vs) hw (hf'.push (.known (.val x.type)) hfits)

theorem leaves_putField (hw : w.Valid p) (hx : p.OwnField c r.name x) (hs : f.stack = v :: u :: vs)
    (hu : u = .null ∨ ∃ fs, w.heap.get? u = some (.inst c fs)) (hv : w.Fits p x.type v)
    (hb : ∀ fs i, u = .ref i → w.heap[i]? = some (.inst c fs) →
      (∀ {sites : Nat → Nat → Prop}, w.Extends sites (w.put (.ref i) (.inst c (setFieldValue fs r.name v)))) →
      Frame.Has p (w.put (.ref i) (.inst c (setFieldValue fs r.name v))) d { f with stack := vs } b) :
    Attempt ((Op.putField r).FailsFor w.heap f.stack) (Effect.Leaves o p w d f b) (m.exec f w.heap (.putField r)) := by
  unfold Machine.exec
  simp only [Frame.popTwo, hs]
  obtain rfl | ⟨fs, ho⟩ := hu
  · exact .put
  · cases u with
    | ref i =>
      simp only [bind, Except.bind, asInstance_eq ho]
      obtain ⟨hvalid, hext⟩ := hw.setField ho hx hv
      exact ⟨_, rfl, hvalid, hext, .with_stack f vs, hb fs i rfl ho hext⟩
    | _ => cases ho

theorem leads_putField (hx : p.OwnField c r.name x) (ht : t.Below x.type) :
    (Op.putField r).Leads o p m ⟨.known (.val t) :: .known (.val (.cls c)) :: cs, τ, note⟩ ⟨cs, τ, none⟩ := by
  intro w d f hw hf
  obtain ⟨v, vs, hs, hv, hf'⟩ := hf.uncons
  obtain ⟨u, us, rfl, hu, hf''⟩ := hf'.uncons
  exact leaves_putField hw hx hs (Or.imp_right (fun ⟨fs, ho, _⟩ => ⟨fs, ho⟩) hu) (TypedHeap.Fits.below hv ht)
    fun fs i _ _ hext => hf''.later hext

/-- Null is stored into a field of an object that is still on the stack. -/
theorem leads_putField_null (hx : p.OwnField c r.name x) (ht : x.type.isNullable = true) :
    (Op.putField r).Leads o p m ⟨.known (.val .null) :: .again :: .known (.val (.cls c)) :: cs, τ, note⟩
      ⟨.known (.val (.cls c)) :: cs, τ, some (.field r.name)⟩ := by
  intro w d f hw hf
  obtain ⟨v, vs, hs, hv, hf'⟩ := hf.uncons
  obtain ⟨u, us, rfl, hagain, hf''⟩ := hf'.uncons
  obtain ⟨u', us, rfl, hu, -⟩ := hf''.uncons
  obtain rfl : u' = u := Option.some.inj hagain
  obtain rfl : v = .null := hv
  refine leaves_putField hw hx hs (Or.imp_right (fun ⟨fs, ho, _⟩ => ⟨fs, ho⟩) hu)
    (TypedHeap.Fits.below (t := .null) rfl (.inr ⟨rfl, ht⟩)) fun fs i hui ho hext => ?_
  subst hui
  have hmono := hf''.later hext
  refine ⟨hmono.stack, hmono.slots, fun note hnote => ?_⟩
  obtain rfl := Option.some.inj hnote
  exact ⟨c, _, (TypedHeap.getElem?_put ho i).trans (if_pos rfl), lookup_setFieldValue fs r.name _⟩

theorem leads_getField_null {name : String} (hn : r.name = name) :
    (Op.getField r).Leads o p m ⟨.known (.val (.cls c)) :: cs, τ, some (.field name)⟩
      ⟨.known (.val .null) :: cs, τ, none⟩ := by
  subst hn
  intro w d f hw hf
  obtain ⟨v, vs, hs, -, hf'⟩ := hf.uncons
  have hnote := hf.note _ rfl
  rw [hs] at hnote
  obtain ⟨c', fs, ho, hnull⟩ := hnote
  unfold Machine.exec
  simp only [Frame.pop, hs]
  simp only [bind, Except.bind, asInstance_eq ho, fieldValue, hnull, Option.getD_some]
  exact leaves_quiet_push (.with_stack f vs) hw (hf'.push (.known (.val .null)) rfl)

theorem leads_putField_self {names : List String} (hx : p.OwnField c r.name x) (hτ : τ 0 = .making c names) :
    (Op.putField r).Leads o p m ⟨[.known (.val x.type), .slot 0], τ, note⟩
      ⟨[], Function.update τ 0 (.making c (r.name :: names)), none⟩ := by
  intro w d f hw hf
  obtain ⟨v, vs, hs, hv, hf'⟩ := hf.uncons
  obtain ⟨u, us, rfl, hu, hf''⟩ := hf'.uncons
  have hself := hf.slots 0
  obtain rfl : u = f.local? 0 := hu
  simp only [hτ] at hself
  obtain ⟨fs, ho, hset⟩ := hself
  refine leaves_putField hw hx hs (.inr ⟨fs, ho⟩) hv fun fs' i hui ho' hext => ?_
  have hmono := hf''.later hext
  rw [hui] at ho
  obtain ⟨-, rfl⟩ := Object.inst.inj (Option.some.inj (ho'.symm.trans ho))
  refine ⟨hmono.stack, fun n => ?_, by simp⟩
  simp only [Function.update_apply]
  split
  · next hn =>
    subst hn
    refine ⟨setFieldValue fs' r.name v, ?_, fun name hname => ?_⟩
    · rw [show Frame.local? { f with stack := us } 0 = .ref i from hui]
      exact (TypedHeap.getElem?_put ho' i).trans (if_pos rfl)
    · by_cases hn : r.name = name
      · rw [← hn, lookup_setFieldValue]
        rfl
      · rw [lookup_setFieldValue_ne hn]
        exact hset name ((List.mem_cons.1 hname).resolve_left (Ne.symm hn))
  · exact hmono.slots n

/-- What a reply to a call of a runtime method may leave. -/
def Reply.Leaves (o : CompileOptions) (p : Program) (w : TypedHeap) (d : Nat) (f : Frame) (answers : Bool) (b : Facts) :
    Reply → Prop
  | .value v h _ => ∃ w' : TypedHeap, w'.heap = h ∧ w'.Valid p ∧ w.Extends (fun e _ => d ≤ e) w' ∧
    Frame.Has p w' d (if answers then { f with stack := v :: f.stack } else f) b
  | .call h cls mc args => Effect.Leaves o p w d f b (.call f h cls mc args answers)

theorem Effect.Leaves.of_stack {e : Effect} (he : e.Leaves o p w d { f with stack } b) : e.Leaves o p w d f b := by
  cases e with
  | next g h printed =>
    obtain ⟨w', hh, hw, hx, hg, hhas⟩ := he
    exact ⟨w', hh, hw, hx, ⟨hg.method, hg.pushesResult, hg.pc, hg.self⟩, hhas⟩
  | call g h cls mc args pushes =>
    obtain ⟨hh, hg, hcall⟩ := he
    exact ⟨hh, ⟨hg.method, hg.pushesResult, hg.pc, hg.self⟩, hcall⟩

theorem leaves_method {nm : NativeMethod} (args : List Value) (hs : f.stack = args.reverse ++ u :: vs)
    (hn : args.length = nm.arity) (hu : u ≠ .null)
    (hrun : Attempt ((Op.invokeVirtual nm.ref).FailsFor w.heap f.stack)
      (Reply.Leaves o p w d { f with stack := vs } nm.answers b) (nm.run m w.heap u args)) :
    Attempt ((Op.invokeVirtual nm.ref).FailsFor w.heap f.stack) (Effect.Leaves o p w d f b)
      (m.exec f w.heap (.invokeVirtual nm.ref)) := by
  have hpop : f.popMany (argCount nm.ref.desc + 1) = .ok (u :: args, { f with stack := vs }) :=
    Moves.popMany_eq (by simp [hs]) (by simp [hn])
  unfold Machine.exec
  simp only [Machine.invokeVirtual, hpop, bind, Except.bind, argument, List.getElem?_cons_zero, Option.getD_some,
    Value.isNull, hu, decide_false, NativeMethod.ofRef?_ref, List.tail_cons, returnsVoid_method, Bool.not_not,
    Bool.false_eq_true, if_false]
  cases hr : nm.run m w.heap u args with
  | error e =>
    rw [hr] at hrun
    exact hrun
  | ok reply =>
    rw [hr] at hrun
    cases reply with
    | call h' cls mc as =>
      have hcall : Effect.Leaves o p w d { f with stack := vs } b (.call { f with stack := vs } h' cls mc as nm.answers) := hrun
      exact hcall.of_stack (f := f)
    | value v h' printed =>
      obtain ⟨w', hh, hw, hx, hhas⟩ := hrun
      subst hh
      cases hans : nm.answers with
      | false =>
        rw [hans] at hhas
        exact ⟨w', rfl, hw, hx, .with_stack f vs, hhas⟩
      | true =>
        rw [hans] at hhas
        exact leaves_push w' (r := fun g => .next g w'.heap printed) rfl (.with_stack f vs) hw hx hhas

theorem ne_null_of_get? {obj : Object} (hu : h.get? u = some obj) : u ≠ .null := by
  rintro rfl
  cases hu

theorem leads_unbox (nm : NativeMethod) (ht : t = .int ∧ nm = .intValue ∨ t = .bool ∧ nm = .booleanValue) :
    (Op.invokeVirtual nm.ref).Leads o p m ⟨.known (.val t) :: cs, τ, note⟩ ⟨.known .any :: cs, τ, none⟩ := by
  intro w d f hw hf
  obtain ⟨u, us, hs, hu, hf'⟩ := hf.uncons
  have hpush : ∀ v : Value, Frame.Has p w d { f with stack := v :: us } ⟨.known .any :: cs, τ, none⟩ := fun v =>
    hf'.push (.known .any) trivial
  obtain ⟨rfl, rfl⟩ | ⟨rfl, rfl⟩ := ht
  · obtain ⟨i, hi⟩ := hu
    refine leaves_method [] hs rfl (ne_null_of_get? hi) ?_
    simp only [NativeMethod.run, hi]
    exact ⟨w, rfl, hw, .refl w, hpush _⟩
  · obtain ⟨i, hi⟩ := hu
    refine leaves_method [] hs rfl (ne_null_of_get? hi) ?_
    simp only [NativeMethod.run, hi]
    exact ⟨w, rfl, hw, .refl w, hpush _⟩

theorem leads_print {nm : NativeMethod} {k : Fact} (hp : t.printer? = some nm) (hk : t.isPrimitive = true ∨ k = .val t) :
    (Op.invokeVirtual nm.ref).Leads o p m ⟨.known k :: .known (.is .stream) :: cs, τ, note⟩ ⟨cs, τ, none⟩ := by
  intro w d f hw hf
  obtain ⟨v, vs, hs, hv, hf'⟩ := hf.uncons
  obtain ⟨u, us, rfl, hu, hf''⟩ := hf'.uncons
  obtain rfl : u = .stream := hu
  refine leaves_method [v] hs (Ty.arity_printer? hp).1.symm (by simp) ?_
  rw [(Ty.arity_printer? hp).2]
  cases t <;> simp only [Ty.printer?, Option.some.injEq, reduceCtorEq] at hp <;> subst hp
  case string =>
    obtain rfl := hk.resolve_left (by simp [Ty.isPrimitive])
    obtain ⟨s, rfl⟩ := hv
    exact ⟨w, rfl, hw, .refl w, hf''⟩
  case int | bool => exact ⟨w, rfl, hw, .refl w, hf''⟩

/-- A value is added to an array list that is still on the stack. -/
theorem leads_add : (Op.invokeVirtual NativeMethod.arrayListAdd.ref).Leads o p m
    ⟨.known (.val t) :: .again :: .adds ts :: cs, τ, note⟩ ⟨.known .any :: .adds (ts ++ [t]) :: cs, τ, none⟩ := by
  intro w d f hw hf
  obtain ⟨v, vs, hs, hv, hf'⟩ := hf.uncons
  obtain ⟨u, us, rfl, hagain, hf''⟩ := hf'.uncons
  obtain ⟨u', us, rfl, ⟨i, es, rfl, hm, ho, hes⟩, hrest⟩ := hf''.uncons
  obtain rfl : Value.ref i = u := Option.some.inj hagain
  have hext : w.Extends (fun e n => e = d ∧ n = us.length) (w.put (.ref i) (.arrayList (es ++ [v]))) := by
    refine TypedHeap.Extends.put ho trivial fun e n he => ?_
    obtain ⟨rfl, rfl⟩ := Mark.filled.inj (Option.some.inj (hm.symm.trans he))
    exact ⟨rfl, rfl⟩
  have hvalid := hw.put ho hext (fun k hk => by
    obtain rfl := Option.some.inj (hm.symm.trans hk)
    trivial) fun c fs he => by cases he
  refine leaves_method [v] hs rfl (by simp) ?_
  have hget : w.heap.get? (.ref i) = some (.arrayList es) := ho
  simp only [NativeMethod.run, hget]
  refine ⟨_, rfl, hvalid, hext.widen fun e n he => he.1 ▸ Nat.le_refl _, ?_⟩
  have hbelow := hrest.mono hext fun n hn he => Nat.ne_of_lt hn he.2
  have hcell : (Cell.adds (ts ++ [t])).Holds p (w.put (.ref i) (.arrayList (es ++ [v]))) d f.local? us (.ref i) :=
    ⟨i, es ++ [v], rfl, hm, (TypedHeap.getElem?_put ho i).trans (if_pos rfl),
      List.rel_append (hes.imp fun _ _ => TypedHeap.Fits.mono hext) (.cons (TypedHeap.Fits.mono hext hv) .nil)⟩
  exact (hbelow.push _ hcell).push (.known .any) trivial

theorem leads_box (ns : NativeStatic) (ht : t = .int ∧ ns = .integerValueOf ∨ t = .bool ∧ ns = .booleanValueOf) :
    (Op.invokeStatic ns.ref).Leads o p m ⟨cell :: cs, τ, note⟩ ⟨.known (.val t) :: cs, τ, none⟩ := by
  intro w d f hw hf
  obtain ⟨v, vs, hs, -, hf'⟩ := hf.uncons
  have hpop : f.popMany (argCount ns.ref.desc) = .ok ([v], { f with stack := vs }) :=
    Moves.popMany_eq (by simp [hs]) (by simp)
  unfold Machine.exec
  simp only [Machine.invokeStatic, hpop, bind, Except.bind, NativeStatic.ofRef?_ref]
  have hnew : ∀ obj : Object, (∀ c fs, obj ≠ .inst c fs) →
      (w.add obj none).Fits p t (.ref w.heap.size) → ns.run w.heap [v] = (w.heap.push obj, .ref w.heap.size) →
      Attempt ((Op.invokeStatic ns.ref).FailsFor w.heap f.stack)
        (Effect.Leaves o p w d f ⟨.known (.val t) :: cs, τ, none⟩)
        (Frame.push { f with stack := vs } (ns.run w.heap [v]).2 >>= fun g =>
          pure (Effect.next g (ns.run w.heap [v]).1 "")) := by
    intro obj hobj hfits hrun
    rw [hrun]
    have hext {sites : Nat → Nat → Prop} : w.Extends sites (w.add obj none) := hw.extends_add _ _
    refine leaves_push (w.add obj none) rfl (.with_stack f vs) (hw.add (by simp) fun c fs he => absurd he (hobj c fs))
      hext ?_
    exact (hf'.later hext).push (.known (.val t)) hfits
  obtain ⟨rfl, rfl⟩ | ⟨rfl, rfl⟩ := ht
  · exact hnew (.integer v.toInt32) (by simp) ⟨_, get?_add _ _⟩ rfl
  · exact hnew (.boolean v.toBool) (by simp) ⟨_, get?_add _ _⟩ rfl

end

end ClassCompiler
