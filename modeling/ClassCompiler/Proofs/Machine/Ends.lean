import ClassCompiler.Proofs.Machine.Operations
import ClassCompiler.Proofs.Machine.Passage

namespace ClassCompiler

/-- Whenever a call comes through code that ends at `stop`, it is as wanted there. -/
def Ends (m : Machine) (mc : MethodCode) (callers : Outer) (stop : Nat) (Q : Spot → State → Prop)
    (code : List Instr) (c : Spot) (s : State) : Prop :=
  CodeAt mc.code c.pc code → stop = c.pc + code.length → s.IsAt mc callers c → ∀ d t, t.IsAt mc callers d →
    d.pc = stop → m.Passes callers.frames stop s t → Q d t

theorem onLine_nil (line : Int) : onLine line [] = [] := rfl

theorem onLine_cons (line : Int) (op : Op) (ops : List Op) :
    onLine line (op :: ops) = ⟨op, line⟩ :: onLine line ops := rfl

theorem onLine_append (line : Int) (os os' : List Op) : onLine line (os ++ os') = onLine line os ++ onLine line os' :=
  List.map_append

theorem State.IsAt.unique {mc : MethodCode} {callers : Outer} {c d : Spot} {s : State} (h : s.IsAt mc callers c)
    (h' : s.IsAt mc callers d) : d = c := by
  obtain ⟨f, ⟨-, hpc, hstack, hlocals, -⟩, hs⟩ := h
  obtain ⟨g, ⟨-, hpc', hstack', hlocals', -⟩, hs'⟩ := h'
  rw [hs, State.mk.injEq, List.cons.injEq] at hs'
  obtain ⟨⟨rfl, -⟩, hheap, hout⟩ := hs'
  obtain ⟨pc, stack, locals, heap, out⟩ := c
  obtain ⟨pc', stack', locals', heap', out'⟩ := d
  simp_all

namespace Ends

variable {m : Machine} {mc : MethodCode} {callers : Outer} {stop : Nat} {Q : Spot → State → Prop}
  {rest : List Instr} {c : Spot} {s : State} {line : Int} {v w : Value} {vs : List Value}

theorem nil (h : Q c s) : Ends m mc callers stop Q [] c s := by
  intro _ hstop hs d t ht _ hp
  cases hp with
  | refl => exact hs.unique ht ▸ h
  | step hb =>
    obtain ⟨f, ⟨-, hpc, -⟩, rfl⟩ := hs
    obtain ⟨inner, g, hframes, hne⟩ := hb
    cases inner with
    | nil =>
      obtain ⟨rfl, -⟩ := List.cons.inj hframes
      exact absurd (hpc.trans hstop.symm) (hne rfl)
    | cons k ks =>
      have hlen := congrArg List.length (List.cons.inj hframes).2
      simp at hlen
      omega

theorem op {op : Op} {P : Spot → Prop} (hx : Does m mc callers AnyCause op c P) (hnext : ∀ d, P d → d.pc = c.pc + 1)
    (h : ∀ d s', P d → m.Passes callers.frames stop s s' → Ends m mc callers stop Q rest d s') :
    Ends m mc callers stop Q (⟨op, line⟩ :: rest) c s := by
  intro hat hstop hs d t ht hd hp
  obtain ⟨hfirst, hrest⟩ := CodeAt.append_iff.1 (show CodeAt mc.code c.pc ([⟨op, line⟩] ++ rest) from hat)
  cases hp with
  | refl =>
    obtain rfl := hs.unique ht
    simp only [List.length_cons] at hstop
    omega
  | @step _ s' _ canceled hb hstep hp =>
    have hactive : callers.frames.length < s'.frames.length := by
      obtain ⟨g, -, rfl⟩ := ht
      exact hp.active (Nat.lt_succ_self _)
    have hpass : m.Passes callers.frames stop s s' := .step hb hstep .refl
    obtain ⟨f, hf, rfl⟩ := hs
    have hget : f.method.code[f.pc]? = some ⟨op, line⟩ := by
      rw [hf.method, hf.pc]
      exact hfirst 0 _ rfl
    have hexec := hx { f with pc := f.pc + 1, steps := f.steps + 1 }
      ⟨hf.method, by simp [hf.pc], hf.stack, hf.locals, hf.pushes⟩
    cases State.steps_of_running hstep with
    | next hi _ he =>
      obtain rfl := Option.some.inj (hget.symm.trans hi)
      rw [he] at hexec
      obtain ⟨e, g, printed, hP, hr, hout, hg⟩ := hexec
      obtain ⟨rfl, rfl, rfl⟩ := Effect.next.inj hr
      have hpc := hnext e hP
      refine h e _ hP hpass (by rwa [hpc]) (by rw [hpc, hstop, List.length_cons]; omega) ⟨_, hg, by rw [hout]⟩ d t ht hd hp
    | call hi he =>
      obtain rfl := Option.some.inj (hget.symm.trans hi)
      rw [he] at hexec
      obtain ⟨e, g, printed, -, hr, -⟩ := hexec
      cases hr
    | leave hcallers =>
      simp only [hcallers, List.length_cons] at hactive
      omega

theorem step {op : Op} {d : Spot} (hx : Does m mc callers AnyCause op c (· = d)) (hnext : d.pc = c.pc + 1)
    (h : ∀ s', m.Passes callers.frames stop s s' → Ends m mc callers stop Q rest d s') :
    Ends m mc callers stop Q (⟨op, line⟩ :: rest) c s :=
  .op hx (fun _ hd => hd ▸ hnext) fun _ s' hd hp => hd ▸ h s' hp

theorem pushNull (h : ∀ s', m.Passes callers.frames stop s s' →
      Ends m mc callers stop Q rest (c.next (.null :: c.stack)) s') :
    Ends m mc callers stop Q (⟨.pushNull, line⟩ :: rest) c s :=
  .step (.pushNull fun _ => trivial) rfl h

theorem pushInt {n : Int} (h : ∀ s', m.Passes callers.frames stop s s' →
      Ends m mc callers stop Q rest (c.next (.int (Int32.ofInt n) :: c.stack)) s') :
    Ends m mc callers stop Q (⟨.pushInt n, line⟩ :: rest) c s :=
  .step (.pushInt fun _ => trivial) rfl h

theorem pushString {text : String} (h : ∀ s', m.Passes callers.frames stop s s' →
      Ends m mc callers stop Q rest (c.next (.str text :: c.stack)) s') :
    Ends m mc callers stop Q (⟨.pushString text, line⟩ :: rest) c s :=
  .step (.pushString fun _ => trivial) rfl h

theorem load {k : SlotKind} {n : Nat} (h : ∀ v s', c.locals[n]? = some v → m.Passes callers.frames stop s s' →
      Ends m mc callers stop Q rest (c.next (v :: c.stack)) s') :
    Ends m mc callers stop Q (⟨.load k n, line⟩ :: rest) c s := by
  refine .op (.load (fun _ => trivial) fun _ => trivial) ?_ ?_
  · rintro _ ⟨_, _, rfl⟩
    rfl
  · rintro _ s' ⟨v, hv, rfl⟩ hp
    exact h v s' hv hp

theorem store {k : SlotKind} {n : Nat} (hs : c.stack = v :: vs)
    (h : ∀ s', n < c.locals.size → m.Passes callers.frames stop s s' →
      Ends m mc callers stop Q rest { c.next vs with locals := c.locals.setIfInBounds n v } s') :
    Ends m mc callers stop Q (⟨.store k n, line⟩ :: rest) c s := by
  refine .op (.store hs fun _ => trivial) ?_ ?_
  · rintro _ ⟨_, rfl⟩
    rfl
  · rintro _ s' ⟨hn, rfl⟩ hp
    exact h s' hn hp

theorem dup (hs : c.stack = v :: vs) (h : ∀ s', m.Passes callers.frames stop s s' →
      Ends m mc callers stop Q rest (c.next (v :: v :: vs)) s') :
    Ends m mc callers stop Q (⟨.dup, line⟩ :: rest) c s :=
  .step (.dup hs fun _ => trivial) rfl h

theorem pop (hs : c.stack = v :: vs) (h : ∀ s', m.Passes callers.frames stop s s' →
      Ends m mc callers stop Q rest (c.next vs) s') :
    Ends m mc callers stop Q (⟨.pop, line⟩ :: rest) c s :=
  .step (.pop hs) rfl h

theorem cast {cls : String} (h : ∀ s', m.Passes callers.frames stop s s' →
      Ends m mc callers stop Q rest (c.next c.stack) s') :
    Ends m mc callers stop Q (⟨.cast cls, line⟩ :: rest) c s :=
  .step (.cast (fun _ => trivial) fun _ _ _ _ => trivial) rfl h

theorem new {cls : String} {o : Object} (ho : m.allocate cls = .ok o)
    (h : ∀ s', m.Passes callers.frames stop s s' → Ends m mc callers stop Q rest
      { c.next (.ref c.heap.size :: c.stack) with heap := c.heap.push o } s') :
    Ends m mc callers stop Q (⟨.new cls, line⟩ :: rest) c s :=
  .step (.new ho fun _ => trivial) rfl h

theorem getField {r : MemberRef} (hs : c.stack = v :: vs)
    (h : ∀ cls fields s', c.heap.get? v = some (.inst cls fields) → m.Passes callers.frames stop s s' →
      Ends m mc callers stop Q rest (c.next (fieldValue fields r.name :: vs)) s') :
    Ends m mc callers stop Q (⟨.getField r, line⟩ :: rest) c s := by
  refine .op (.getField hs (fun _ _ => trivial) fun _ => trivial) ?_ ?_
  · rintro _ ⟨_, _, _, rfl⟩
    rfl
  · rintro _ s' ⟨cls, fields, ho, rfl⟩ hp
    exact h cls fields s' ho hp

theorem putField {r : MemberRef} (hs : c.stack = w :: v :: vs)
    (h : ∀ cls fields s', c.heap.get? v = some (.inst cls fields) → m.Passes callers.frames stop s s' →
      Ends m mc callers stop Q rest
        { c.next vs with heap := c.heap.set v (.inst cls (setFieldValue fields r.name w)) } s') :
    Ends m mc callers stop Q (⟨.putField r, line⟩ :: rest) c s := by
  refine .op (.putField hs fun _ _ => trivial) ?_ ?_
  · rintro _ ⟨_, _, _, rfl⟩
    rfl
  · rintro _ s' ⟨cls, fields, ho, rfl⟩ hp
    exact h cls fields s' ho hp

theorem fillList_eq_ok {h heap : Heap} {args : List Value} {select : Object → Option (List Value)}
    (hr : NativeConstructor.run.fillList h w args {} select = .ok heap) : ∃ o es, h.get? (argument args 0) = some o ∧
      select o = some es ∧ heap = h.set w (.list es) := by
  unfold NativeConstructor.run.fillList elementsOf at hr
  split at hr
  · split at hr
    · cases hr
    · split at hr
      · next es hes =>
        obtain ⟨o, ho, hselect⟩ := Option.bind_eq_some_iff.1 hes
        exact ⟨o, es, ho, hselect, (Except.ok.inj hr).symm⟩
      · cases hr
  · cases hr

theorem invokeSpecial (args : List Value) {n : NativeConstructor} (hs : c.stack = args.reverse ++ w :: vs)
    (hn : args.length = n.arity)
    (h : ∀ heap s', n.run c.heap w args = .ok heap → m.Passes callers.frames stop s s' →
      Ends m mc callers stop Q rest { c.next vs with heap := heap } s') :
    Ends m mc callers stop Q (⟨.invokeSpecial n.ref, line⟩ :: rest) c s := by
  refine .op (.invokeSpecial args hs hn (fun _ => trivial) fun _ _ => trivial) ?_ ?_
  · rintro _ ⟨_, _, rfl⟩
    rfl
  · rintro _ s' ⟨heap, hrun, rfl⟩ hp
    exact h heap s' hrun hp

/-- The constructor of an array list has nothing to construct. -/
theorem invokeSpecial_arrayList (hs : c.stack = w :: vs)
    (h : ∀ s', m.Passes callers.frames stop s s' → Ends m mc callers stop Q rest (c.next vs) s') :
    Ends m mc callers stop Q (⟨.invokeSpecial ⟨arrayListClass, initName, "()V"⟩, line⟩ :: rest) c s :=
  .step (.invokeSpecial_arrayList hs fun _ => trivial) rfl h

/-- A runtime method that calls no other and prints nothing. -/
theorem invokeVirtual (args : List Value) {n : NativeMethod} (hs : c.stack = args.reverse ++ w :: vs)
    (hn : args.length = n.arity)
    (h : ∀ r, n.run m c.heap w args = .ok r → ∃ v heap, r = .value v heap "" ∧
      ∀ s', m.Passes callers.frames stop s s' →
        Ends m mc callers stop Q rest { c.next (if n.answers then v :: vs else vs) with heap := heap } s') :
    Ends m mc callers stop Q (⟨.invokeVirtual n.ref, line⟩ :: rest) c s := by
  have hvalue : ∀ r, n.run m c.heap w args = .ok r → ∃ v heap, r = .value v heap "" := fun r hr => by
    obtain ⟨v, heap, hr, -⟩ := h r hr
    exact ⟨v, heap, hr⟩
  refine .op (.invokeVirtual args hs hn (fun _ => trivial) (fun _ _ _ => trivial) hvalue fun _ => trivial) ?_ ?_
  · rintro _ ⟨_, _, _, rfl⟩
    rfl
  · rintro _ s' ⟨v, heap, hrun, rfl⟩ hp
    obtain ⟨v', heap', hr, hnext⟩ := h _ hrun
    obtain ⟨rfl, rfl, -⟩ := Reply.value.inj hr
    exact hnext s' hp

theorem invokeStatic {n : NativeStatic} (hs : c.stack = v :: vs) (h : ∀ s', m.Passes callers.frames stop s s' →
      Ends m mc callers stop Q rest
        { c.next ((n.run c.heap [v]).2 :: vs) with heap := (n.run c.heap [v]).1 } s') :
    Ends m mc callers stop Q (⟨.invokeStatic n.ref, line⟩ :: rest) c s :=
  .step (.invokeStatic hs fun _ => trivial) rfl h

theorem addElement {b : Nat} {below : List Value} (hs : c.stack = v :: .ref b :: below) (hb : c.heap[b]? = some (.arrayList vs))
    (h : ∀ d s', d.stack = below → d.locals = c.locals → d.heap = c.heap.set (.ref b) (.arrayList (vs ++ [v])) →
      m.Passes callers.frames stop s s' → Ends m mc callers stop Q rest d s') :
    Ends m mc callers stop Q (onLine line ClassCompiler.addElement ++ rest) c s := by
  simp only [ClassCompiler.addElement, onLine_cons, onLine_nil, List.cons_append, List.nil_append]
  refine .invokeVirtual [v] hs rfl fun r hr => ?_
  simp only [NativeMethod.run, Heap.get?, hb] at hr
  obtain rfl := Except.ok.inj hr
  refine ⟨_, _, rfl, fun s₁ hp₁ => .pop rfl fun s₂ hp₂ => ?_⟩
  exact h _ s₂ rfl rfl rfl (hp₁.trans hp₂)

/-- A list and an array list for its elements are created. -/
theorem newList (h : ∀ d s', d.stack = .ref (c.heap.size + 1) :: .ref c.heap.size :: .ref c.heap.size :: c.stack →
      d.locals = c.locals → d.heap = Array.push (Array.push c.heap (.list [])) (.arrayList []) →
      m.Passes callers.frames stop s s' → Ends m mc callers stop Q rest d s') :
    Ends m mc callers stop Q (onLine line ([.new listClass, .dup] ++ newArrayList) ++ rest) c s := by
  simp only [newArrayList, onLine_cons, onLine_nil, List.cons_append, List.nil_append]
  refine .new m.allocate_list fun s₁ hp₁ => .dup rfl fun s₂ hp₂ => .new m.allocate_arrayList fun s₃ hp₃ =>
    .dup rfl fun s₄ hp₄ => .invokeSpecial_arrayList rfl fun s₅ hp₅ => ?_
  exact h _ s₅ (by simp [Spot.next]) rfl rfl ((((hp₁.trans hp₂).trans hp₃).trans hp₄).trans hp₅)

/-- What the code of an expression does is known of it by itself. -/
theorem part {ctx : Context} {e : Expr} {t t' : Supply} {code : List Instr} {sp : List Span} {D : Set Nat}
    {P : Spot → State → Prop} (he : Emits ctx (.expr e) t code t' sp) (hclean : (Piece.expr e).Clean ctx)
    (hn : ∀ cls, argCount (ctx.table.constructorDescriptor cls) = (ctx.table.constructorParams cls).length)
    (hl : LabelsOnce mc.code) (hc : c.Hidden D) (hP : Ends m mc callers (c.pc + code.length) P code c s)
    (h : ∀ d v s', c.Goes D (OwnSlot ctx.method.slotCount t t') [v] d → P d s' →
      m.Passes callers.frames stop s s' → Ends m mc callers stop Q rest d s') :
    Ends m mc callers stop Q (code ++ rest) c s := by
  intro hat hstop hsc d u hu hd hp
  obtain ⟨hcode, hrest⟩ := CodeAt.append_iff.1 hat
  rw [List.length_append] at hstop
  obtain ⟨depth, hstart, hend, htraced, -⟩ :=
    (depthFlow_sound hn).holds he (T := fun _ _ => False) (a := 0) (b := 1) ⟨hclean, rfl⟩
  have hs : Stretch mc (fun _ _ => False) c code depth (OwnSlot ctx.method.slotCount t t') := ⟨hcode, hl, htraced, he.slots⟩
  obtain ⟨s', d', v, hown, hss', hs'u, hs', hpc, hgoes⟩ := hs.goes hstart hend hc (by omega) hsc hp
    (by obtain ⟨g, hg, rfl⟩ := hu; exact ⟨g, rfl, hg.pc.trans hd⟩)
  have hPd : P d' s' := hP hcode rfl hsc d' s' hs' hpc hown
  exact h d' v s' hgoes hPd hss' (hpc ▸ hrest) (by omega) hs' d u hu hd hs'u

theorem through {code : List Instr} {sp : List Span} {K : Claim Nat} {D : Set Nat} {own : Int → Prop}
    (hcode : depthFlow.Admits K (fun _ _ => False) code sp 0 0) (hown : ∀ i ∈ slotsOf (code.map Instr.op), own i)
    (hl : LabelsOnce mc.code) (hc : c.Hidden D)
    (h : ∀ d s', c.Goes D own [] d → m.Passes callers.frames stop s s' → Ends m mc callers stop Q rest d s') :
    Ends m mc callers stop Q (code ++ rest) c s := by
  intro hat hstop hsc d u hu hd hp
  obtain ⟨hcode', hrest⟩ := CodeAt.append_iff.1 hat
  rw [List.length_append] at hstop
  obtain ⟨depth, hstart, hend, htraced, -⟩ := hcode
  have hs : Stretch mc (fun _ _ => False) c code depth own := ⟨hcode', hl, htraced, hown⟩
  obtain ⟨s', d', more, -, hss', hs'u, hs', hpc, hmore, hgoes⟩ := hs.arrives hstart hc (by omega) hsc hp
    (by obtain ⟨g, hg, rfl⟩ := hu; exact ⟨g, rfl, hg.pc.trans hd⟩)
  obtain rfl := List.eq_nil_of_length_eq_zero (hmore.trans hend)
  exact h d' s' hgoes hss' (hpc ▸ hrest) (by omega) hs' d u hu hd hs'u

theorem at_ (h : CodeAt mc.code c.pc rest → stop = c.pc + rest.length → s.IsAt mc callers c →
    Ends m mc callers stop Q rest c s) : Ends m mc callers stop Q rest c s :=
  fun hat hstop hs => h hat hstop hs hat hstop hs

theorem anyhow (code : List Instr) : Ends m mc callers stop (fun d _ => d.pc = stop) code c s :=
  fun _ _ _ _ _ _ hpc _ => hpc

end Ends

end ClassCompiler
