import ClassCompiler.Proofs.Boxing.Operations
import ClassCompiler.Proofs.Machine.Moves

namespace ClassCompiler

/-- The states that a run from an entry point goes through; it may be canceled at any time. -/
inductive Machine.Reaches (m : Machine) (entry : String) : State → Prop
  | start {s : State} (h : m.start entry = .ok s) : Reaches m entry s
  | step {s s' : State} {canceled : Bool} (h : Reaches m entry s) (hs : s.step m canceled = .running s') :
    Reaches m entry s'

def Machine.HasKinds (m : Machine) : Prop := ∀ mc, m.HasMethod mc → ∃ count st, Kinded count mc.code st

/-- A frame has all kinds that fit its code; if it waits for a result, it has them after that. -/
structure Frame.Kept (m : Machine) (waits : Bool) (f : Frame) : Prop where
  method : m.HasMethod f.method
  kinds {count : Nat} {st : Nat → Kinds} (h : Kinded count f.method.code st) :
    ∃ b, f.HasKinds count b ∧ st f.pc ≤ if waits then b.push .ref else b

/-- All frames have the kinds of their code; the innermost one waits for a result or not. -/
def FramesKept (m : Machine) : (waits : Bool) → List Frame → Prop
  | _, [] => True
  | waits, f :: fs => f.Kept m waits ∧ FramesKept m f.pushesResult fs

/-- The objects of a state hold references, and its frames have the kinds of their code. -/
structure State.Kept (m : Machine) (s : State) : Prop where
  heap : s.heap.Boxed
  frames : FramesKept m false s.frames

theorem FramesKept.mem {m : Machine} {waits : Bool} {fs : List Frame} (h : FramesKept m waits fs) {f : Frame}
    (hf : f ∈ fs) : ∃ waits, f.Kept m waits := by
  induction fs generalizing waits with
  | nil => cases hf
  | cons g gs ih =>
    rcases List.mem_cons.1 hf with rfl | hf
    · exact ⟨waits, h.1⟩
    · exact ih h.2 hf

section

variable {m : Machine} {f : Frame} {callers : List Frame} {heap : Heap} {out : String}

theorem Frame.Kept.hasKinds (h : f.Kept m false) {count : Nat} {st : Nat → Kinds}
    (hk : Kinded count f.method.code st) : f.HasKinds count (st f.pc) := by
  obtain ⟨b, hb, hle⟩ := h.kinds hk
  exact hb.mono hle

theorem Frame.enter_hasKinds {cls : String} {mc : MethodCode} {args : List Value} {pushes : Bool} {count : Nat}
    (ha : ∀ v ∈ args, v.kind = .ref) : (Frame.enter cls mc args pushes).HasKinds count .start := by
  refine ⟨rfl, fun n _ => ?_, fun n k _ hk => by cases hk⟩
  unfold Frame.local?
  cases hn : (Frame.enter cls mc args pushes).locals[n]? with
  | none => rfl
  | some v =>
    have hmem := Array.mem_of_getElem? hn
    simp only [Frame.enter, Array.mem_append, List.mem_toArray, Array.mem_replicate] at hmem
    rcases hmem with hv | ⟨-, rfl⟩
    · exact ha v hv
    · rfl

theorem Frame.enter_kept {cls : String} {mc : MethodCode} {args : List Value} {pushes : Bool}
    (hm : m.HasMethod mc) (ha : ∀ v ∈ args, v.kind = .ref) : (Frame.enter cls mc args pushes).Kept m false :=
  ⟨hm, fun {_ st} hk => ⟨.start, enter_hasKinds ha, (hk.entry : st 0 = .start) ▸ Kinds.le_refl _⟩⟩

/-- What an operation leaves in code whose kinds fit, where it goes on and where it jumps to. -/
theorem Kinded.after {count : Nat} {code : Code} {st : Nat → Kinds} (hk : Kinded count code st) {j : Nat} {i : Instr}
    (hi : code[j]? = some i) :
    ∃ x, (st j).after count i.op = some x ∧ (i.op.isFinal = false → st (j + 1) ≤ x) ∧
      ∀ test l, i.op = .jump test l → ∃ k, code.labelOffset? l = some k ∧ st k ≤ x := by
  have hfalls := hk.falls hi
  have hjump : ∀ test l x, i.op = .jump test l → (st j).after count i.op = some x →
      ∃ k, code.labelOffset? l = some k ∧ st k ≤ x := by
    intro test l x hop hx
    obtain ⟨k, hk, ks, hks, hle⟩ := hk.jumps hi hop
    rw [hop] at hx
    obtain ⟨ws, ks', ⟨⟩, hs, rfl⟩ := Kinds.after_eq_some hx fun _ => rfl
    obtain rfl : ks' = ks := List.append_cancel_left (hs.symm.trans (takeKinds_eq_some.1 hks))
    exact ⟨k, hk, hle⟩
  cases hf : i.op.isFinal with
  | false =>
    rw [kindFlow_falls hf] at hfalls
    obtain ⟨x, hx, hle⟩ := hfalls
    exact ⟨x, hx, fun _ => hle, fun test l hop => hjump test l x hop hx⟩
  | true =>
    simp only [kindFlow, hf, if_true] at hfalls
    obtain ⟨ws, ks, hws, hks⟩ := hfalls
    obtain ⟨x, hx⟩ : ∃ x, (st j).after count i.op = some x := by
      cases hop : i.op with
      | ret | retRef | jump test l =>
        rw [hop] at hws
        exact ⟨{ st j with stack := i.op.results ++ ks }, by simp [Kinds.after, hws, hks, hop]⟩
      | _ => simp [hop, Op.isFinal] at hf
    exact ⟨x, hx, by simp, fun test l hop => hjump test l x hop hx⟩

theorem State.leave_kept (hh : heap.Boxed) (hc : FramesKept m f.pushesResult callers) {v : Value}
    (hv : v.kind = .ref) {s : State} (hs : State.leave f callers heap out v = .running s) : s.Kept m := by
  unfold State.leave at hs
  split at hs
  · cases hs
  · next g gs =>
    obtain ⟨hg, hgs⟩ := hc
    split at hs
    · next hp =>
      split at hs
      · next k hk =>
        obtain rfl := Progress.running.inj hs
        have hpush := g.push_attempt v
        rw [hk] at hpush
        obtain rfl := hpush
        refine ⟨hh, ⟨hg.method, fun hkinded => ?_⟩, hgs⟩
        obtain ⟨b, hb, hle⟩ := hg.kinds hkinded
        rw [hp, if_pos rfl] at hle
        exact ⟨b.push .ref, ⟨by simp [hb.stack, hv], hb.vars, hb.temps⟩, hle⟩
      · cases hs
    · next hp =>
      obtain rfl := Progress.running.inj hs
      rw [Bool.not_eq_true] at hp
      exact ⟨hh, hp ▸ hg, hgs⟩

/-- The operation that a frame is at finds operands of the kinds that it works on: on the stack, and in
the slot of which it increments the number. -/
def Frame.Finds (f : Frame) (op : Op) : Prop :=
  (∃ ks, op.operands? = some ks ∧ ks <+: f.stack.map Value.kind) ∧
    ∀ i d, op = .increment i d → (f.local? i.toNat).kind = .raw

theorem Frame.HasKinds.finds {count : Nat} {a x : Kinds} {op : Op} (hf : f.HasKinds count a)
    (hx : a.after count op = some x) : f.Finds op := by
  have hnone : op.operands? = some [] → ∃ ks, op.operands? = some ks ∧ ks <+: f.stack.map Value.kind :=
    fun h => ⟨[], h, List.nil_prefix⟩
  cases op with
  | load k i | store k i | dup | pop => exact ⟨hnone rfl, by simp⟩
  | increment i d =>
    obtain ⟨hraw, -⟩ := Option.ite_none_right_eq_some.1 hx
    refine ⟨hnone rfl, ?_⟩
    rintro i' d' ⟨⟩
    exact hf.slot hraw
  | _ =>
    obtain ⟨ws, ks, hws, hs, -⟩ := Kinds.after_eq_some hx fun _ => rfl
    exact ⟨⟨ws, hws, ks, (hf.stack.trans hs).symm⟩, by simp⟩

/-- The frame has the kinds that its operation works on, and what it leaves fits where the code goes on. -/
def Frame.Fits (f : Frame) (op : Op) (count : Nat) (st : Nat → Kinds) : Prop :=
  ∃ a x, f.HasKinds count a ∧ a.after count op = some x ∧ (op.isFinal = false → st f.pc ≤ x) ∧
    ∀ test l, op = .jump test l → ∃ k, f.method.code.labelOffset? l = some k ∧ st k ≤ x

/-- A frame stays in its method and has the kinds at the place where it goes on. -/
theorem Frame.Fits.next {op : Op} {count : Nat} {st : Nat → Kinds} (h : f.Fits op count st) (hh : heap.Boxed)
    {g : Frame} {heap' : Heap} {printed : String} (he : m.exec f heap op = .ok (.next g heap' printed)) :
    heap'.Boxed ∧ g.method = f.method ∧ g.pushesResult = f.pushesResult ∧ g.HasKinds count (st g.pc) := by
  obtain ⟨a, x, hf, hx, hfalls, hjumps⟩ := h
  have hexec := exec_boxed (m := m) hh hf hx
  rw [he] at hexec
  obtain ⟨hh', ⟨hfinal, hmoved⟩ | ⟨test, l, k, rfl, hk, hmoved⟩⟩ := hexec
  · exact ⟨hh', hmoved.method, hmoved.pushesResult, hmoved.kinds.mono (hmoved.pc ▸ hfalls hfinal)⟩
  · obtain ⟨k', hk', hle⟩ := hjumps test l rfl
    obtain rfl : k' = k := Option.some.inj (hk'.symm.trans hk)
    exact ⟨hh', hmoved.method, hmoved.pushesResult, hmoved.kinds.mono (hmoved.pc ▸ hle)⟩

/-- A frame that makes a call has the kinds at the place where it goes on when the call is over. -/
theorem Frame.Fits.call {op : Op} {count : Nat} {st : Nat → Kinds} (h : f.Fits op count st) (hh : heap.Boxed)
    {g : Frame} {heap' : Heap} {cls : String} {mc : MethodCode} {args : List Value} {pushes : Bool}
    (he : m.exec f heap op = .ok (.call g heap' cls mc args pushes)) :
    (heap'.Boxed ∧ m.HasMethod mc ∧ ∀ v ∈ args, v.kind = .ref) ∧ g.method = f.method ∧
      g.pushesResult = f.pushesResult ∧ ∃ b, g.HasKinds count b ∧ st g.pc ≤ if pushes then b.push .ref else b := by
  obtain ⟨a, x, hf, hx, hfalls, -⟩ := h
  have hexec := exec_boxed (m := m) hh hf hx
  rw [he] at hexec
  obtain ⟨hh', hmc, hargs, hfinal, b, hmoved, rfl⟩ := hexec
  exact ⟨⟨hh', hmc, hargs⟩, hmoved.method, hmoved.pushesResult, b, hmoved.kinds, hmoved.pc ▸ hfalls hfinal⟩

theorem State.perform_kept (hm : m.HasKinds) (hh : heap.Boxed) (hmethod : m.HasMethod f.method) {op : Op}
    (hfits : ∀ {count st}, Kinded count f.method.code st → f.Fits op count st)
    (hc : FramesKept m f.pushesResult callers) {s : State} (hs : perform m f callers heap out op = .running s) :
    s.Kept m := by
  obtain ⟨count, st, hkinded⟩ := hm f.method hmethod
  unfold perform at hs
  simp only at hs
  split at hs
  · cases hs
  · next g heap' printed he =>
    obtain rfl := Progress.running.inj hs
    obtain ⟨hh', hg, hp, -⟩ := (hfits hkinded).next hh he
    refine ⟨hh', ⟨hg ▸ hmethod, fun {count st} hk => ?_⟩, hp ▸ hc⟩
    rw [hg] at hk
    obtain ⟨-, -, -, hkinds⟩ := (hfits hk).next hh he
    exact ⟨_, hkinds, Kinds.le_refl _⟩
  · next g heap' cls mc args pushes he =>
    split at hs
    · cases hs
    · obtain rfl := Progress.running.inj hs
      obtain ⟨⟨hh', hmc, hargs⟩, hg, hp, -⟩ := (hfits hkinded).call hh he
      refine ⟨hh', Frame.enter_kept hmc hargs, ⟨hg ▸ hmethod, fun {count st} hk => ?_⟩, hp ▸ hc⟩
      rw [hg] at hk
      obtain ⟨-, -, -, hb⟩ := (hfits hk).call hh he
      exact hb

theorem State.step_kept (hm : m.HasKinds) {canceled : Bool} {s s' : State} (h : s.Kept m)
    (hs : s.step m canceled = .running s') : s'.Kept m := by
  obtain ⟨frames, heap, out⟩ := s
  cases frames with
  | nil => cases hs
  | cons f callers =>
    obtain ⟨hh, hf, hc⟩ := h
    unfold step at hs
    simp only at hs
    split at hs
    · exact leave_kept hh hc rfl hs
    · next i hi =>
      have hafter : ∀ {count st}, Kinded count f.method.code st →
          Frame.Fits { f with pc := f.pc + 1, steps := f.steps + 1 } i.op count st := by
        intro count st hk
        obtain ⟨x, hx, hfalls, hjumps⟩ := hk.after hi
        have hkinds := hf.hasKinds hk
        exact ⟨st f.pc, x, ⟨hkinds.stack, hkinds.vars, hkinds.temps⟩, hx, hfalls, hjumps⟩
      split at hs
      · cases hs
      · split at hs
        · exact leave_kept (f := { f with pc := f.pc + 1, steps := f.steps + 1 }) hh hc rfl hs
        · next hop =>
          split at hs
          · cases hs
          · next v vs hv =>
            refine leave_kept (f := { f with pc := f.pc + 1, steps := f.steps + 1 }) hh hc ?_ hs
            obtain ⟨count, st, hk⟩ := hm f.method hf.method
            obtain ⟨a, x, hkinds, hx, -⟩ := hafter hk
            obtain ⟨⟨ks, hks, hfound⟩, -⟩ := hkinds.finds hx
            rw [hop] at hks
            obtain rfl := Option.some.inj hks
            rw [hv, List.map_cons, List.cons_prefix_cons] at hfound
            exact hfound.1.symm
        · exact perform_kept (f := { f with pc := f.pc + 1, steps := f.steps + 1 }) hm hh hf.method hafter hc hs

theorem Machine.Reaches.kept {entry : String} {s : State} (h : m.Reaches entry s) (hm : m.HasKinds) : s.Kept m := by
  induction h with
  | start h =>
    unfold Machine.start at h
    split at h
    · cases h
    · next c hc =>
      split at h
      · cases h
      · next mc hmc =>
        obtain rfl := Except.ok.inj h
        exact ⟨by simp [Heap.Boxed], Frame.enter_kept ⟨c, class?_mem hc, List.mem_of_find?_eq_some hmc⟩
          (by simp [Value.kind]), trivial⟩
  | step _ hs ih => exact State.step_kept hm ih hs

end

/-- What holds of every state of a run of a program: an object holds references only, every frame
belongs to one of the classes and its slots hold references only, and every operation finds operands of
the kinds it works on. The result of a method is the operand of its return. -/
structure State.Boxed (o : CompileOptions) (p : Program) (s : State) : Prop where
  heap : s.heap.Boxed
  origin : ∀ f ∈ s.frames, ∃ c ∈ p.classes, Made o c f.method ∨ ∃ d ∈ c.bodies, CodeFor o p c d f.method
  slots : ∀ f ∈ s.frames, ∀ c ∈ p.classes, ∀ d ∈ c.bodies, CodeFor o p c d f.method →
    ∀ n < d.slotCount, (f.local? n).kind = .ref
  made : ∀ f ∈ s.frames, ∀ c ∈ p.classes, Made o c f.method → ∀ n, (f.local? n).kind = .ref
  operands : ∀ f fs i, s.frames = f :: fs → f.method.code[f.pc]? = some i → f.Finds i.op

/-- The value that the code of an expression leaves is a raw number exactly if the expression is a number
or a truth value. -/
def Frame.LeavesValues (ctx : Context) (spans : List Span) (f : Frame) : Prop :=
  ∀ x ∈ spans, ∀ e, x.expr? = some e → f.pc = x.start + x.length →
    ∃ v vs, f.stack = v :: vs ∧ (v.kind = .raw ↔ ctx.typeOf e = .int ∨ ctx.typeOf e = .bool)

theorem BodyKinded.leavesValues {ctx : Context} {code : Code} {st : Nat → Kinds} {spans : List Span} {f : Frame}
    (h : BodyKinded ctx code st spans) (hf : f.HasKinds ctx.method.slotCount (st f.pc)) : f.LeavesValues ctx spans := by
  intro x hx e he hpc
  have hstack := hf.stack
  rw [hpc, h.expr_kind x hx e he, Kinds.push_stack, List.map_eq_cons_iff] at hstack
  obtain ⟨v, vs, hv, hkind, -⟩ := hstack
  refine ⟨v, vs, hv, ?_⟩
  rw [hkind, Ty.kind_eq_raw_iff]
  cases ctx.typeOf e <;> simp [Ty.isPrimitive]

section

variable {o : CompileOptions} {p : Program} {files : List ClassFile}

/-- A method of the files was made for a class or comes from one of its bodies. -/
theorem HasMethod.origin (hfiles : List.Forall₂ (FileOf o p) p.classes files) {mc : MethodCode}
    (h : (Machine.load files).HasMethod mc) :
    ∃ c ∈ p.classes, Made o c mc ∨ ∃ d ∈ c.bodies, CodeFor o p c d mc := by
  obtain ⟨file, hfile, hmc⟩ := h
  obtain ⟨c, hc, hcf⟩ := exists_mem_of_forall₂ hfiles (List.mem_reverse.1 hfile)
  exact ⟨c, hc, hcf.origin hmc⟩

theorem load_hasKinds (hfiles : List.Forall₂ (FileOf o p) p.classes files) (hw : p.Written)
    (hadm : ∀ c ∈ p.classes, ∀ d ∈ c.bodies, d.Admitted p c.name.name) : (Machine.load files).HasKinds := by
  intro mc hmc
  obtain ⟨c, hc, hmade | ⟨d, hd, hcode⟩⟩ := HasMethod.origin hfiles hmc
  · obtain ⟨st, hk⟩ := hmade.kinded Nat.one_pos
    exact ⟨1, st, hk⟩
  · obtain ⟨st, spans, hk⟩ := hcode.kinded hw (hadm c hc d hd)
    exact ⟨_, st, hk.toKinded⟩

theorem State.Kept.boxed {s : State} (hfiles : List.Forall₂ (FileOf o p) p.classes files) (hw : p.Written)
    (hadm : ∀ c ∈ p.classes, ∀ d ∈ c.bodies, d.Admitted p c.name.name) (hs : s.Kept (Machine.load files)) :
    s.Boxed o p := by
  refine ⟨hs.heap, fun f hf => ?_, fun f hf c hc d hd hcode n hn => ?_, fun f hf c hc hmade n => ?_,
    fun f fs i hf hi => ?_⟩
  · obtain ⟨waits, hkept⟩ := hs.frames.mem hf
    exact HasMethod.origin hfiles hkept.method
  · obtain ⟨waits, hkept⟩ := hs.frames.mem hf
    obtain ⟨st, spans, hk⟩ := hcode.kinded hw (hadm c hc d hd)
    obtain ⟨b, hb, -⟩ := hkept.kinds hk.toKinded
    exact hb.vars n hn
  · obtain ⟨waits, hkept⟩ := hs.frames.mem hf
    obtain ⟨st, hk⟩ := hmade.kinded (Nat.succ_pos n)
    obtain ⟨b, hb, -⟩ := hkept.kinds hk
    exact hb.vars n (Nat.lt_succ_self n)
  · have hkept := hs.frames
    rw [hf] at hkept
    obtain ⟨count, st, hk⟩ := load_hasKinds hfiles hw hadm f.method hkept.1.method
    obtain ⟨x, hx, -⟩ := hk.after hi
    exact (hkept.1.hasKinds hk).finds hx

end

/-- In every state of every run of an accepted program without an empty list literal, slots, objects and
results hold references only, operations find operands of the kinds they work on, and the values that
expressions leave are raw exactly for numbers and truth values. -/
theorem accepted_boxing_discipline {o : CompileOptions} {p : Program}
    {files : List ClassFile} (hw : p.Written) (ha : (p.check o.entry).issues = [])
    (hlists : ∀ c ∈ p.classes, ∀ d ∈ c.bodies, ∀ t es, Expr.list t es ∈ d.subterms → es ≠ [])
    (hc : Program.compile o (p.check o.entry).decl (p.check o.entry).decl = .ok files) :
    (∀ entry s, (Machine.load files).Reaches entry s → s.Boxed o p) ∧
      ∀ c ∈ p.classes, ∀ d ∈ c.bodies, ∀ mc, CodeFor o p c d mc →
        ∃ spans : List Span, spans.filterMap Span.expr? = Stmt.evaluatedAll d.body ∧
          (∀ x ∈ spans, x.Covers ⟨p, c.name.name, d⟩ mc.code.toList) ∧
          ∀ entry s f fs, (Machine.load files).Reaches entry s → s.frames = f :: fs → f.method = mc →
            f.LeavesValues ⟨p, c.name.name, d⟩ spans := by
  obtain ⟨hdecl, hclean⟩ := Program.check_clean ha
  rw [hdecl] at hc
  have hfiles := Program.compile_ok hc
  have hadm : ∀ c ∈ p.classes, ∀ d ∈ c.bodies, d.Admitted p c.name.name := fun c hmem d hd =>
    hclean.admitted hw hmem hd (allFilled_of_lists (hlists c hmem d hd))
  have hkinds := load_hasKinds hfiles hw hadm
  refine ⟨fun entry s hs => (hs.kept hkinds).boxed hfiles hw hadm, fun c hmem d hd mc hcode => ?_⟩
  obtain ⟨st, spans, hk⟩ := hcode.kinded hw (hadm c hmem d hd)
  refine ⟨spans, hk.exprs, hk.covers, fun entry s f fs hs hf hmethod => ?_⟩
  have hkept := (hs.kept hkinds).frames
  rw [hf] at hkept
  exact hk.leavesValues (hkept.1.hasKinds (hmethod ▸ hk.toKinded))

theorem accepted_boxing_discipline_sample :
    ∃ files, Program.compile {} (Tally.program.check "Main").decl (Tally.program.check "Main").decl = .ok files ∧
      (∀ entry s, (Machine.load files).Reaches entry s → s.Boxed {} Tally.program) ∧
      ∀ c ∈ Tally.program.classes, ∀ d ∈ c.bodies, ∀ mc, CodeFor {} Tally.program c d mc →
        ∃ spans : List Span, spans.filterMap Span.expr? = Stmt.evaluatedAll d.body ∧
          (∀ x ∈ spans, x.Covers ⟨Tally.program, c.name.name, d⟩ mc.code.toList) ∧
          ∀ entry s f fs, (Machine.load files).Reaches entry s → s.frames = f :: fs → f.method = mc →
            f.LeavesValues ⟨Tally.program, c.name.name, d⟩ spans := by
  obtain ⟨files, hf⟩ := Tally.compiled
  exact ⟨files, hf, accepted_boxing_discipline (o := {}) Tally.written Tally.accepted Tally.lists_filled hf⟩

end ClassCompiler
