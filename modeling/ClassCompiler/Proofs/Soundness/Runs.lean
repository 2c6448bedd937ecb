import ClassCompiler.Proofs.Scalar.Program
import ClassCompiler.Proofs.Soundness.Methods

namespace ClassCompiler

/-- Calls that wait, the innermost first: when the call before them, which is under a contract, is over, each has what is
known in its code where it goes on. -/
def Waits (o : CompileOptions) (p : Program) (m : Machine) (w : TypedHeap) :
    (k : Contract) → (receiver : Value) → (pushes : Bool) → List Frame → Prop
  | _, _, _, [] => True
  | k, v, pushes, g :: gs => ∃ k' st, Offers o p g.method k' ∧ k'.Governs o p m g.method st ∧
    (∀ w' r, w.Extends (fun e _ => gs.length < e) w' → k.Gives p w' v r →
      Frame.Has p w' gs.length (if pushes then { g with stack := r :: g.stack } else g) (st g.pc)) ∧
    Waits o p m w k' (g.local? 0) g.pushesResult gs

/-- All calls have what is known in their code, in a heap that is typed. -/
def State.Typed (o : CompileOptions) (p : Program) (m : Machine) (s : State) : Prop :=
  ∃ w : TypedHeap, w.heap = s.heap ∧ w.Valid p ∧ ∀ f fs, s.frames = f :: fs → ∃ k st, Offers o p f.method k ∧
    k.Governs o p m f.method st ∧ f.Has p w fs.length (st f.pc) ∧ Waits o p m w k (f.local? 0) f.pushesResult fs

/-- What a step of a typed run may fail for: not for a value of the wrong class or something that is missing, and for
null only where an expression needs an object of a class or a method reference. -/
def State.FailsFor (o : CompileOptions) (p : Program) (s : State) : Cause → Prop
  | .classCast => False
  | .noSuchMethod => False
  | .noSuchClass => False
  | .nullReference => ∃ f fs i, s.frames = f :: fs ∧ f.method.code[f.pc]? = some i ∧
    Dereferences s.heap i.op f.stack ∧ f.method.DereferencesAt o p f.pc
  | _ => True

/-- A step leads to a typed state, ends the run, or fails for what it may. -/
def Progress.Typed (o : CompileOptions) (p : Program) (m : Machine) (failsFor : Cause → Prop) : Progress → Prop
  | .running s => s.Typed o p m
  | .finished _ => True
  | .failed _ e => failsFor e.cause

section

variable {o : CompileOptions} {p : Program} {m : Machine} {files : List ClassFile} {w w' : TypedHeap} {d : Nat}
  {k : Contract} {st : Nat → Facts} {f : Frame} {fs callers : List Frame} {heap : Heap} {out : String} {v r : Value}
  {pushes : Bool} {op : Op} {i : Instr} {mc : MethodCode}

theorem Waits.mono (h : w.Extends (fun e _ => fs.length ≤ e) w') (hw : Waits o p m w k v pushes fs) :
    Waits o p m w' k v pushes fs := by
  -- The calls that wait are less deep than any whose objects may change.
  induction fs generalizing k v pushes with
  | nil => trivial
  | cons g gs ih =>
    obtain ⟨k', st, hoffers, hgoverns, hafter, hrest⟩ := hw
    exact ⟨k', st, hoffers, hgoverns, fun w'' r hx hr => hafter w'' r ((h.widen fun e _ he => he).trans hx) hr,
      ih (h.widen fun e _ he => Nat.le_of_lt he) hrest⟩

theorem Jump.decide_attempt (test : Jump) (f : Frame) : Attempt (· = .stackUnderflow)
    (fun r => r.2 = { f with stack := f.stack.drop test.pops } ∧ (test = .always → r.1 = true)) (test.decide f) := by
  have hpop : Attempt (· = .stackUnderflow) (fun r => r.2 = { f with stack := f.stack.drop 1 }) f.pop := by
    unfold Frame.pop
    split <;> simp_all [Attempt, fault]
  have hpopTwo : Attempt (· = .stackUnderflow) (fun r => r.2.2 = { f with stack := f.stack.drop 2 }) f.popTwo := by
    unfold Frame.popTwo
    split <;> simp_all [Attempt, fault]
  cases test with
  | always => exact ⟨rfl, fun _ => rfl⟩
  | ifZero | ifNonzero =>
    refine hpop.bind ?_
    rintro ⟨v, g⟩ hg
    exact ⟨hg, by simp⟩
  | ifInts _ | ifSame | ifDifferent =>
    refine hpopTwo.bind ?_
    rintro ⟨v, u, g⟩ hg
    exact ⟨hg, by simp⟩

/-- An operation that stays in its call leaves what is known where the code goes on. -/
theorem Contract.Governs.exec (hk : k.Governs o p m mc st) {j : Nat} (hi : mc.code[j]? = some i) (hw : w.Valid p)
    (hmethod : f.method = mc) (hf : f.Has p w d (st j)) (hpc : f.pc = j + 1) (hr : i.op ≠ .ret) (hr' : i.op ≠ .retRef) :
    Attempt (i.op.FailsFor w.heap f.stack) (fun e => ∃ n, e.Leaves o p w d { f with pc := n } (st n))
      (m.exec f w.heap i.op) := by
  have hfalls := hk.falls hi
  have hstay : { f with pc := j + 1 } = f := by rw [← hpc]
  cases hop : i.op with
  | ret => exact absurd hop hr
  | retRef => exact absurd hop hr'
  | jump test l =>
    rw [hop] at hfalls
    -- A jump alone may go on elsewhere than behind itself.
    obtain ⟨n, hn, hdrops⟩ := hk.jumps hi hop
    unfold Machine.exec
    refine ((test.decide_attempt f).allow fun c hc => hc ▸ trivial).bind ?_
    rintro ⟨taken, g⟩ ⟨rfl, htaken⟩
    cases taken with
    | true =>
      have hjump : Frame.jumpTo { f with stack := f.stack.drop test.pops } l =
          .ok { f with stack := f.stack.drop test.pops, pc := n } := by
        simp [Frame.jumpTo, hmethod, hn]
      simp only [if_true, hjump]
      exact ⟨n, w, rfl, hw, .refl w, ⟨rfl, rfl, rfl, rfl⟩, (hdrops w d f hf).of_eq rfl rfl⟩
    | false =>
      have hne : test ≠ .always := fun h => by simpa using htaken h
      exact ⟨j + 1, w, rfl, hw, .refl w, ⟨rfl, rfl, hpc, rfl⟩, hfalls hne w d f hf⟩
  | _ =>
    rw [hop] at hfalls
    refine (hfalls w d f hw hf).imp fun e he => ⟨j + 1, ?_⟩
    rwa [hstay]

/-- An operation that fails for null stands where an expression needs an object or a method reference. -/
theorem Contract.Governs.needs_at (hk : k.Governs o p m f.method st) (hf : f.Has p w d (st f.pc))
    (hi : f.method.code[f.pc]? = some i) (hd : Dereferences w.heap i.op f.stack) : f.method.DereferencesAt o p f.pc := by
  have hneeds : i.op.dereferences = true := by
    generalize i.op = op, f.stack = vs at hd ⊢
    cases hd <;> simp [Op.dereferences, Op.isCall]
  refine (hk.needs hi hneeds).resolve_left ?_
  rintro ⟨r, t, cls, names, hop, hstack, hself⟩
  obtain ⟨fs, ho, -⟩ : (Fact.making cls names).Holds p w (f.local? 0) := hself ▸ hf.slots 0
  -- What is excused is the setting of a field of the object under construction, which is not null.
  have hcells := hf.stack
  rw [hstack] at hcells
  rw [hop] at hd
  generalize f.stack = vs at hd hcells
  cases hd with
  | put =>
    rw [← show Value.null = f.local? 0 from hcells.2.1] at ho
    cases ho

/-- A call that gives what its contract says leaves the calls that wait for it typed. -/
theorem State.leave_typed {failsFor : Cause → Prop} (hw : w.Valid p)
    (hwaits : Waits o p m w k v f.pushesResult callers) (hr : k.Gives p w v r) (hover : failsFor .stackOverflow) :
    (State.leave f callers w.heap out r).Typed o p m failsFor := by
  unfold State.leave
  cases callers with
  | nil => trivial
  | cons g gs =>
    obtain ⟨k', st, hoffers, hgoverns, hafter, hrest⟩ := hwaits
    have hhas := hafter w r (.refl w) hr
    simp only
    split
    · next hpushes =>
      rw [if_pos hpushes] at hhas
      have hpush := g.push_attempt r
      cases he : g.push r with
      | error e =>
        rw [he] at hpush
        simpa only [Progress.Typed, Fault.within, show e.cause = .stackOverflow from hpush] using hover
      | ok g' =>
        rw [he] at hpush
        obtain rfl := hpush
        refine ⟨w, rfl, hw, ?_⟩
        rintro _ _ ⟨⟩
        exact ⟨k', st, hoffers, hgoverns, hhas, hrest⟩
    · next hpushes =>
      rw [if_neg hpushes] at hhas
      refine ⟨w, rfl, hw, ?_⟩
      rintro _ _ ⟨⟩
      exact ⟨k', st, hoffers, hgoverns, hhas, hrest⟩

end

section

variable {o : CompileOptions} {p : Program} {files : List ClassFile} {w : TypedHeap} {k : Contract}
  {st : Nat → Facts} {f : Frame} {callers : List Frame} {out : String} {op : Op} {mc : MethodCode}

/-- An operation that stays in its call, or makes another, leads to a typed state. -/
theorem State.perform_typed (h : Typable o p files) {failsFor : Cause → Prop} (hw : w.Valid p) (hoffers : Offers o p f.method k)
    (hgoverns : k.Governs o p (Machine.load files) f.method st)
    (hwaits : Waits o p (Machine.load files) w k (f.local? 0) f.pushesResult callers)
    (hfaults : ∀ c, op.FailsFor w.heap f.stack c → failsFor c) (hdepth : failsFor .callDepth)
    (he : Attempt (op.FailsFor w.heap f.stack)
      (fun e => ∃ n, e.Leaves o p w callers.length { f with pc := n } (st n)) ((Machine.load files).exec f w.heap op)) :
    (State.perform (Machine.load files) f callers w.heap out op).Typed o p (Machine.load files) failsFor := by
  unfold State.perform
  simp only
  cases hexec : (Machine.load files).exec f w.heap op with
  | error e =>
    rw [hexec] at he
    exact hfaults _ he
  | ok e =>
    rw [hexec] at he
    obtain ⟨n, he⟩ := he
    cases e with
    | next g heap printed =>
      obtain ⟨w', hheap, hw', hext, ⟨hmethod, hpushes, hpc, hself⟩, hhas⟩ := he
      obtain rfl : g.pc = n := hpc
      refine ⟨w', hheap, hw', ?_⟩
      rintro _ _ ⟨⟩
      have hwaits' := hwaits.mono hext
      rw [← show g.local? 0 = f.local? 0 from hself, ← show g.pushesResult = f.pushesResult from hpushes] at hwaits'
      rw [← show g.method = f.method from hmethod] at hoffers hgoverns
      exact ⟨k, st, hoffers, hgoverns, hhas, hwaits'⟩
    | call g heap cls mc args pushes =>
      obtain ⟨rfl, ⟨hmethod, hpushes, hpc, hself⟩, k', v, vs, rfl, hoffers', htakes, hafter⟩ := he
      obtain rfl : g.pc = n := hpc
      simp only
      split
      · exact hdepth
      · obtain ⟨st', hgoverns'⟩ := h.governs hoffers'
        refine ⟨w, rfl, hw, ?_⟩
        rintro _ _ ⟨⟩
        rw [← show g.local? 0 = f.local? 0 from hself, ← show g.pushesResult = f.pushesResult from hpushes] at hwaits
        rw [← show g.method = f.method from hmethod] at hoffers hgoverns
        -- The caller waits where its code goes on once the value is pushed.
        refine ⟨k', st', hoffers', hgoverns', hgoverns'.entry ▸ htakes.has, k, st, hoffers, hgoverns, ?_, hwaits⟩
        rwa [Frame.local?_enter (Nat.succ_pos _)]

/-- Where a call ends its code gives a value, unless its contract says that it gives none. -/
theorem Typable.returns (h : Typable o p files) (hk : Offers o p mc k) {ps : List Nat} {j : Nat}
    (hp : mc.code.Path ps j) (hj : mc.code[j]? = none ∨ ∃ i, mc.code[j]? = some i ∧ i.op.isReturn = true) :
    ∃ i, mc.code[j]? = some i ∧ (i.op = .ret → k.result = .void) := by
  have hmade : ∀ {c : ClassDecl}, Made o c mc → ∃ i, mc.code[j]? = some i := fun hm =>
    (hm.returnsAt hp hj).imp fun i hi => hi.1
  have hbody : ∀ {c : ClassDecl} {d : MethodDecl}, c ∈ p.classes → d ∈ c.bodies → CodeFor o p c d mc →
      ∃ i, mc.code[j]? = some i ∧ (i.op = .ret → d.result = .void) := by
    intro c d hc hd hcode
    obtain ⟨hadmitted, -, -, hreturns⟩ := h.bodies c hc d hd
    obtain ⟨spans, hleaves⟩ := hcode.leaves hadmitted
    obtain ⟨i, hi, hgives⟩ := hleaves.returnsAt hreturns hp hj
    refine ⟨i, hi, fun hret => ?_⟩
    cases hr : d.result <;> simp_all [Ty.isVoid]
  cases hk with
  | method hc hd hm => exact hbody hc (by simp [ClassDecl.bodies, hd]) (.inl hm)
  | constructor hc hd hm =>
    exact (hbody hc (by simp [ClassDecl.bodies, hd]) (.inr hm)).imp fun i hi => ⟨hi.1, fun _ => rfl⟩
  | @default c hc => exact (hmade (c := c) (.inl rfl)).imp fun i hi => ⟨hi, fun _ => rfl⟩
  | entry hc hm => exact (hmade (.inr hm)).imp fun i hi => ⟨hi, fun _ => rfl⟩

/-- A step of a typed run leads to a typed state, ends the run, or fails for what it may. -/
theorem State.step_typed (h : Typable o p files) {s : State} (hs : s.Typed o p (Machine.load files))
    (hpath : ∀ f ∈ s.frames, f.OnPath) (canceled : Bool) :
    (s.step (Machine.load files) canceled).Typed o p (Machine.load files) (s.FailsFor o p) := by
  obtain ⟨frames, heap, out⟩ := s
  cases frames with
  | nil => trivial
  | cons f callers =>
    obtain ⟨w, hheap, hw, hframes⟩ := hs
    obtain rfl : w.heap = heap := hheap
    obtain ⟨k, st, hoffers, hgoverns, hhas, hwaits⟩ := hframes f callers rfl
    obtain ⟨ps, hp⟩ := hpath f List.mem_cons_self
    cases hi : f.method.code[f.pc]? with
    | none =>
      -- A path that leaves the code would end a call without a return.
      obtain ⟨i, hi', -⟩ := h.returns hoffers hp (.inl hi)
      simp [hi] at hi'
    | some i =>
      have hfalls := hgoverns.falls hi
      simp only [step, hi]
      split
      · trivial
      split
      · next hop =>
        rw [hop] at hfalls
        obtain ⟨i', hi', hvoid⟩ := h.returns hoffers hp (.inr ⟨i, hi, by rw [hop]; rfl⟩)
        obtain rfl := Option.some.inj (hi.symm.trans hi')
        refine leave_typed (f := { f with pc := f.pc + 1, steps := f.steps + 1 }) hw hwaits ⟨?_, hfalls w _ f hhas⟩ trivial
        rw [hvoid hop]
        rfl
      · next hop =>
        rw [hop] at hfalls
        obtain ⟨hleft, v, vs, hstack, hv⟩ := hfalls w _ f hhas
        simp only [hstack]
        exact leave_typed (f := { f with pc := f.pc + 1, steps := f.steps + 1 }) hw hwaits ⟨hv, hleft⟩ trivial
      · next hret hretRef =>
        refine perform_typed (f := { f with pc := f.pc + 1, steps := f.steps + 1 }) h hw hoffers hgoverns hwaits (fun c hc => ?_) trivial
          (hgoverns.exec hi hw rfl (hhas.of_eq rfl rfl) rfl hret hretRef)
        cases c with
        | nullReference => exact ⟨f, callers, i, rfl, hi, hc, hgoverns.needs_at hhas hi hc⟩
        | _ => exact hc

/-- No method takes an array, as the entry point does. -/
theorem MethodDecl.descriptor_ne_mainDesc (d : MethodDecl) : d.descriptor ≠ mainDesc := by
  intro h
  have hsecond := congrArg (fun s : String => s.toList[1]?) h
  cases ha : d.args with
  | nil => simp [descriptor, ha, mainDesc] at hsecond
  | cons a as => cases ht : a.type <;> simp [descriptor, ha, mainDesc, Ty.descriptor, ht, String.join_cons] at hsecond

theorem FileOf.offers_main {c : ClassDecl} {file : ClassFile} (hf : FileOf o p c file) (hc : c ∈ p.classes)
    (hm : file.method? mainName mainDesc = some mc) : Offers o p mc { self := .any } := by
  obtain ⟨ks, ms, hks, hms, hmethods⟩ := hf.methods
  have hmem := List.mem_of_find?_eq_some hm
  obtain ⟨hname, hdesc⟩ : mc.name = mainName ∧ mc.desc = mainDesc := by simpa using List.find?_some hm
  rw [hmethods, List.append_assoc, List.mem_append, List.mem_append] at hmem
  rcases hmem with hmem | hmem | hmem
  · exact .entry hc hmem
  · exact absurd ((hks.names mc hmem).symm.trans hname) (by decide)
  · obtain ⟨d, hd, code, -, rfl⟩ := exists_mem_of_forall₂ hms hmem
    exact absurd hdesc d.descriptor_ne_mainDesc

theorem State.Typed.start (h : Typable o p files) {entry : String} {s : State}
    (hs : (Machine.load files).start entry = .ok s) : s.Typed o p (Machine.load files) := by
  unfold Machine.start at hs
  split at hs
  · cases hs
  · next file hfile =>
    split at hs
    · cases hs
    · next code hcode =>
      obtain rfl := Except.ok.inj hs
      obtain ⟨c, hc, hf⟩ := exists_mem_of_forall₂ h.files.each (List.mem_reverse.1 (List.mem_of_find?_eq_some hfile))
      have hoffers := hf.offers_main hc hcode
      obtain ⟨st, hgoverns⟩ := h.governs hoffers
      have htakes : Contract.Takes { self := .any } p ⟨#[], fun _ => none⟩ .null [] := ⟨trivial, .nil⟩
      refine ⟨⟨#[], fun _ => none⟩, rfl, ⟨by simp, by simp⟩, ?_⟩
      rintro _ _ ⟨⟩
      exact ⟨_, st, hoffers, hgoverns, hgoverns.entry ▸ htakes.has, trivial⟩

theorem Machine.Reaches.typed (h : Typable o p files) {entry : String} {s : State}
    (hs : (Machine.load files).Reaches entry s) (hpath : ∀ t, (Machine.load files).Reaches entry t → ∀ f ∈ t.frames, f.OnPath) :
    s.Typed o p (Machine.load files) := by
  induction hs with
  | start hs => exact State.Typed.start h hs
  | @step s s' canceled hreach hs ih =>
    have hstep := State.step_typed h ih (hpath s hreach) canceled
    rwa [hs] at hstep

theorem State.run_failed {m : Machine} {canceled : Bool} {fuel : Nat} {entry : String} {s : State} {e : Fault}
    (hs : m.Reaches entry s) (h : s.run m canceled fuel = .failed out e) :
    ∃ t, m.Reaches entry t ∧ t.step m canceled = .failed out e := by
  induction fuel generalizing s with
  | zero => cases h
  | succ n ih =>
    rw [State.run] at h
    split at h
    · next t ht => exact ih (hs.step ht) h
    · cases h
    · next out' e' he =>
      obtain ⟨rfl, rfl⟩ := Outcome.failed.inj h
      exact ⟨s, hs, he⟩

end

/-- A program without inheritance, in which names that stand side by side are different, no class or method has a name
of the runtime's, and no list literal is empty or has an element of type `null`. -/
structure Program.Simple (p : Program) : Prop where
  roots : ∀ c ∈ p.classes, c.parentName = ""
  distinct : (p.classes.map (·.name.name)).Nodup
  names : ∀ c ∈ p.classes, Unqualified c.name.name
  own : ∀ c ∈ p.classes, c.name.name ≠ listClass ∧ c.name.name ≠ fptrClass
  methods : ∀ c ∈ p.classes, ∀ d ∈ c.methods, d.name.name ≠ initName
  fields : ∀ c ∈ p.classes, (c.fields.map (·.name.name)).Nodup
  vars : ∀ c ∈ p.classes, ∀ d ∈ c.bodies, ((d.args ++ d.locals).map (·.name.name)).Nodup
  lists : ∀ c ∈ p.classes, ∀ d ∈ c.bodies, ∀ t es, Expr.list t es ∈ d.subterms →
    es ≠ [] ∧ ∀ e ∈ es, Context.typeOf ⟨p, c.name.name, d⟩ e ≠ .null

section

variable {o : CompileOptions} {p : Program} {files : List ClassFile}

theorem Program.Simple.typable (h : p.Simple) {entry : String} (hclean : p.Clean entry) (hw : p.Written)
    (ha : p.Addressed) (hfiles : List.Forall₂ (FileOf o p) p.classes files) : Typable o p files where
  files := ⟨h.distinct, hfiles⟩
  written := hw
  flat := ⟨h.roots, fun c hc => (h.names c hc).1⟩
  solid := hclean.solid hw ha
  names := h.names
  own := h.own
  methods := h.methods
  fields := h.fields
  bodies c hc d hd := by
    refine ⟨hclean.admitted hw hc hd (allFilled_of_lists fun t es he => (h.lists c hc d hd t es he).1),
      List.forall_iff_forall_mem.2 fun e he => ?_, h.vars c hc d hd, fun hvoid => ?_⟩
    · cases e with
      | list t es => exact (h.lists c hc d hd t es he).2
      | _ => trivial
    · rcases List.mem_append.1 hd with hk | hm
      · simp [MethodDecl.result, (hw c hc).constructor d (Option.mem_toList.1 hk), Ty.resultOfOption, Ty.isVoid] at hvoid
      · exact ((hclean.classes c hc).methods d hm).returns.resolve_left (by simp [hvoid])

/-- Type soundness. No run of an accepted program without inheritance fails for a value of the wrong class or for a
method or a class that is missing, and one that fails for null dereferences it where an expression needs an object of a
class or a method reference. (Positions of lists are pushed as numbers of 32 bits: `Program.Addressed`.) -/
theorem accepted_type_soundness (hw : p.Written) (ha : (p.check o.entry).issues = [])
    (hs : p.Simple) (haddressed : p.Addressed)
    (hc : Program.compile o (p.check o.entry).decl (p.check o.entry).decl = .ok files) :
    (∀ entry s canceled out e, (Machine.load files).Reaches entry s → s.step (Machine.load files) canceled = .failed out e →
      s.FailsFor o p e.cause) ∧
    ∀ canceled fuel out e, (Machine.load files).run canceled fuel o.entry = .failed out e →
      ∃ s, (Machine.load files).Reaches o.entry s ∧ s.step (Machine.load files) canceled = .failed out e ∧
        s.FailsFor o p e.cause := by
  obtain ⟨hdecl, hclean⟩ := Program.check_clean ha
  rw [hdecl] at hc
  have hfiles := Program.compile_ok hc
  have htypable := hs.typable hclean hw haddressed hfiles
  have hkinds := load_hasKinds hfiles hw fun c hc d hd => (htypable.bodies c hc d hd).admitted
  have hfails : ∀ entry s canceled out e, (Machine.load files).Reaches entry s →
      s.step (Machine.load files) canceled = .failed out e → s.FailsFor o p e.cause := by
    intro entry s canceled out e hreach hstep
    have htyped := hreach.typed htypable fun t ht => ht.onPath hkinds
    have hprogress := State.step_typed htypable htyped (hreach.onPath hkinds) canceled
    rwa [hstep] at hprogress
  refine ⟨hfails, fun canceled fuel out e hrun => ?_⟩
  obtain ⟨c, hmem, hentry⟩ := hclean.entry
  obtain ⟨f, hfile, hf⟩ := htypable.files.file hmem
  have hne : o.entry ≠ "" := hentry ▸ (hs.names c hmem).1
  rw [hentry] at hfile
  have hstart : (Machine.load files).start o.entry =
      .ok ⟨[Frame.enter f.name (o.method mainName mainDesc true c.entryCode) [.null] false], #[], ""⟩ := by
    simp only [Machine.start, hfile, hf.method?_main hentry]
  simp only [Machine.run, String.isEmpty_iff, hne, if_false, hstart] at hrun
  obtain ⟨s, hreach, hstep⟩ := State.run_failed (.start hstart) hrun
  exact ⟨s, hreach, hstep, hfails o.entry s canceled out e hreach hstep⟩

end

theorem accepted_type_soundness_sample :
    ∃ files, Program.compile {} (Tally.program.check "Main").decl (Tally.program.check "Main").decl = .ok files ∧
      (∀ entry s canceled out e, (Machine.load files).Reaches entry s →
        s.step (Machine.load files) canceled = .failed out e → s.FailsFor {} Tally.program e.cause) ∧
      ∀ canceled fuel out e, (Machine.load files).run canceled fuel "Main" = .failed out e →
        ∃ s, (Machine.load files).Reaches "Main" s ∧ s.step (Machine.load files) canceled = .failed out e ∧
          s.FailsFor {} Tally.program e.cause := by
  have hsimple : Tally.program.Simple := by
    refine ⟨by decide, by decide, ?_, by decide, by decide, by decide, by decide, fun c hc d hd t es hes => ?_⟩
    · simp [Tally.program, Tally.main, Tally.tally, Sample.ident, Unqualified]
    · obtain ⟨rfl, rfl, rfl⟩ := Tally.only_list hc hd hes
      have hfirst : Context.typeOf ⟨Tally.program, "Tally", Tally.fill⟩ (Sample.value "n") = .int := rfl
      have hsecond : Context.typeOf ⟨Tally.program, "Tally", Tally.fill⟩ (.int {} 5) = .int := rfl
      simp [Tally.tally, Sample.ident, hfirst, hsecond]
  have haddressed : Tally.program.Addressed := by
    have hrows : (Ty.list [("low", .int), ("", .int)]).Addressed :=
      Ty.addressed_list (by decide) ⟨trivial, trivial, trivial⟩
    refine ⟨?_, ?_, ?_⟩
    · simpa [Tally.program, Tally.main, Tally.tally, Sample.var, Ty.Addressed] using hrows
    · simp [Tally.program, Tally.main, Tally.entry, Tally.tally, Tally.fill, Tally.above, Sample.var, ClassDecl.bodies,
        Ty.Addressed, or_imp, forall_and]
    · simp [Tally.program, Tally.main, Tally.entry, Tally.tally, Tally.fill, Tally.above, ClassDecl.bodies,
        MethodDecl.result, Ty.resultOfOption, Ty.Addressed, or_imp, forall_and]
  obtain ⟨files, hf⟩ := Tally.compiled
  exact ⟨files, hf, accepted_type_soundness (o := {}) Tally.written Tally.accepted hsimple haddressed hf⟩

end ClassCompiler
