import ClassCompiler.Proofs.Code.Paths
import ClassCompiler.Proofs.Compile.Total
import ClassCompiler.Proofs.Machine.Labels
import ClassCompiler.Proofs.Stack.Limits
import ClassCompiler.Proofs.Stack.Temporaries

namespace ClassCompiler

namespace Op

@[simp] def read? : Op → Option Int
  | .load _ i => some i
  | .increment i _ => some i
  | _ => none

@[simp] def stored? : Op → Option Int
  | .store _ i => some i
  | _ => none

end Op

section

variable {count : Nat} {a b : Kinds} {op : Op} {slot : Nat} {code : Code} {st : Nat → Kinds}

theorem Kinds.temps_after (h : a.after count op = some b) :
    b.temps = a.temps ∨ ∃ n k, op.stored? = some n ∧ b.temps = Function.update a.temps n.toNat (some k) := by
  cases op with
  | store kind n =>
    simp only [after] at h
    split at h
    · cases h
    · split at h
      · rw [Option.ite_none_right_eq_some] at h
        obtain ⟨-, h⟩ := h
        exact .inl (by rw [← Option.some.inj h])
      · exact .inr ⟨n, _, rfl, by rw [← Option.some.inj h]; rfl⟩
  | increment n k =>
    simp only [after, Option.ite_none_right_eq_some] at h
    exact .inl (by rw [← Option.some.inj h.2])
  | dup | pop =>
    simp only [after] at h
    split at h
    · cases h
    · exact .inl (by rw [← Option.some.inj h])
  | _ =>
    simp only [after, Option.map_eq_some_iff] at h
    obtain ⟨_, _, rfl⟩ := h
    exact .inl rfl

/-- Along an edge the analysis learns of a slot only by a store. -/
theorem Kinded.edge_temps (h : Kinded count code st) {j k : Nat} (he : code.Edge j k)
    (hk : (st k).temps slot ≠ none) : (st j).temps slot ≠ none ∨
      ∃ i n, code[j]? = some i ∧ i.op.stored? = some n ∧ n.toNat = slot := by
  obtain ⟨kind, hkind⟩ := Option.ne_none_iff_exists'.1 hk
  obtain ⟨i, hi, ⟨hf, hfalls⟩ | ⟨test, l, -, hjumps⟩⟩ := h.edge he
  · simp only [kindFlow, hf, Bool.false_eq_true, if_false] at hfalls
    obtain ⟨x, hx, hle⟩ := hfalls
    have hsome := hle.2 slot kind hkind
    rcases Kinds.temps_after hx with hsame | ⟨n, k', hstored, hupdate⟩
    · exact .inl (by simp [← hsame, hsome])
    · by_cases hn : n.toNat = slot
      · exact .inr ⟨i, n, hi, hstored, hn⟩
      · rw [hupdate, Function.update_of_ne (Ne.symm hn)] at hsome
        exact .inl (by simp [hsome])
  · obtain ⟨ks, -, hle⟩ := hjumps
    have hsome := hle.2 slot kind hkind
    exact .inl (by simpa using hsome ▸ Option.some_ne_none kind)

/-- What is known of a slot at the end of a path was stored on it. -/
theorem Kinded.path_stores (h : Kinded count code st) {ps : List Nat} {j : Nat} (hp : code.Path ps j)
    (hj : (st j).temps slot ≠ none) :
    ∃ k ∈ ps, ∃ i n, code[k]? = some i ∧ i.op.stored? = some n ∧ n.toNat = slot := by
  induction hp with
  | start => simp [h.entry, Kinds.start] at hj
  | @step ps j k hp he ih =>
    rcases h.edge_temps he hj with hbefore | hstored
    · obtain ⟨k, hk, hstored⟩ := ih hbefore
      exact ⟨k, List.mem_cons_of_mem _ hk, hstored⟩
    · exact ⟨j, List.mem_cons_self, hstored⟩

/-- Something is known of every slot that is read past those of the variables. -/
theorem Kinded.known_of_read (h : Kinded count code st) {j : Nat} {i : Instr} {n : Int} (hi : code[j]? = some i)
    (hread : i.op.read? = some n) (hn : count ≤ n) : (st j).temps n.toNat ≠ none := by
  have hfalls := h.falls hi
  have hslot : ¬ n.toNat < count := by omega
  cases hop : i.op <;> simp only [hop, Op.read?, Option.some.injEq, reduceCtorEq] at hread
  all_goals
    subst hread
    simp [kindFlow, hop, Op.isFinal, Kinds.after, Kinds.slot, hslot] at hfalls
    obtain ⟨x, hx, -⟩ := hfalls
    grind

end

/-- Every path to an operation that reads a slot from `count` on passes one that stores it. -/
def Code.StoredBeforeRead (code : Code) (count : Nat) : Prop :=
  ∀ {ps : List Nat} {j : Nat} {i : Instr} {n : Int}, code.Path ps j → code[j]? = some i → i.op.read? = some n →
    count ≤ n → ∃ k ∈ ps, ∃ i', code[k]? = some i' ∧ i'.op.stored? = some n

theorem Op.slot?_of_stored? {op : Op} {n : Int} (h : op.stored? = some n) : op.slot? = some n := by
  cases op <;> simp_all

theorem mem_slotsOf {code : Code} {j : Nat} {i : Instr} {n : Int} (hi : code[j]? = some i) (hn : i.op.slot? = some n) :
    n ∈ slotsOf (code.toList.map Instr.op) :=
  List.mem_filterMap.2 ⟨i.op, List.mem_map_of_mem (List.mem_of_getElem? (by simpa using hi)), hn⟩

theorem Kinded.storedBeforeRead {count : Nat} {code : Code} {st : Nat → Kinds} (h : Kinded count code st)
    (hs : ∀ n ∈ slotsOf (code.toList.map Instr.op), 0 ≤ n) : code.StoredBeforeRead count := by
  intro ps j i n hp hi hread hn
  obtain ⟨k, hk, i', n', hi', hstored, hslot⟩ := h.path_stores hp (h.known_of_read hi hread hn)
  have hpos := hs n' (mem_slotsOf hi' (Op.slot?_of_stored? hstored))
  obtain rfl : n' = n := by omega
  exact ⟨k, hk, i', hi', hstored⟩

section

variable {o : CompileOptions} {p : Program} {c : ClassDecl} {m : MethodDecl}

/-- A body is compiled whatever labels are free, and takes the slots that are counted for it. -/
theorem MethodDecl.Admitted.compileBody (h : m.Admitted p c.name.name) (s : Supply) :
    ∃ code s', m.compileBody p c s = .ok (code, s') ∧ s'.slots = m.slotNeed := by
  have hbody := Context.compileStmts_total h.known m.body none h.filled h.written h.clean
  have hfree : (Gen.freeSlotsFrom m.slotCount).Total := fun s => ⟨_, rfl⟩
  have htotal : (m.compileBody p c).Total := hfree.bind fun _ => hbody.bind fun _ => Gen.total_pure _
  obtain ⟨⟨code, s'⟩, hr⟩ := htotal s
  obtain ⟨b, rfl⟩ := MethodDecl.compileBody_ok hr
  exact ⟨code, _, hr, b.after_slots⟩

theorem MethodDecl.Admitted.total_finish (h : m.Admitted p c.name.name) (hs : (m.slotNeed : Int) ≤ o.limits.locals)
    (name desc : String) (start : List Instr) :
    (m.compileBody p c >>= fun code => o.finish name desc (start ++ code)).Total := by
  intro s
  obtain ⟨code, s', hr, hslots⟩ := h.compileBody s
  exact ⟨_, Gen.bind_eq_ok.2 ⟨code, s', hr, CompileOptions.finish_eq_ok.2 ⟨by rw [hslots]; exact hs, rfl, rfl⟩⟩⟩

theorem Gen.Total.within {α : Type} {g : Gen α} (hg : g.Total) (note : String) : (Gen.within note g).Total := by
  intro s
  obtain ⟨r, hr⟩ := hg s
  exact ⟨r, within_eq_ok.2 hr⟩

/-- Bodies that are admitted and need no more slots than a frame has. -/
def BodiesFit (o : CompileOptions) (p : Program) (c : ClassDecl) (ms : List MethodDecl) : Prop :=
  ∀ m ∈ ms, m.Admitted p c.name.name ∧ (m.slotNeed : Int) ≤ o.limits.locals

theorem total_compileMethods {ms : List MethodDecl} (h : BodiesFit o p c ms) : (o.compileMethods p c ms).Total := by
  induction ms with
  | nil => exact Gen.total_pure _
  | cons m ms ih =>
    obtain ⟨⟨hm, hs⟩, hms⟩ := List.forall_mem_cons.1 h
    have hmethod : (o.compileMethod p c m).Total := hm.total_finish hs _ _ []
    exact (hmethod.within _).bind fun _ => (ih hms).bind fun _ => Gen.total_pure _

theorem total_compileConstructors (ho : 1 ≤ o.limits.locals) (h : BodiesFit o p c c.constructor.toList) :
    (o.compileConstructors p c).Total := by
  have hdefault : (o.defaultConstructor c).Total := fun s =>
    ⟨_, Gen.bind_eq_ok.2 ⟨(), _, rfl, CompileOptions.finish_eq_ok.2 ⟨ho, rfl, rfl⟩⟩⟩
  unfold CompileOptions.compileConstructors
  split
  · exact hdefault.bind fun _ => Gen.total_pure _
  · next m hm =>
    obtain ⟨hadm, hs⟩ := h m (by simp [hm])
    have hk : (o.compileConstructor p c m).Total := hadm.total_finish hs _ _ (c.prologue m.token.pos.line)
    split
    · exact (hk.within _).bind fun _ => Gen.total_pure _
    · exact hdefault.bind fun _ => (hk.within _).bind fun _ => Gen.total_pure _

theorem total_compileClasses {cs : List ClassDecl} (ho : 1 ≤ o.limits.locals) (h : ∀ c ∈ cs, BodiesFit o p c c.bodies) :
    (o.compileClasses p cs).Total := by
  induction cs with
  | nil => exact Gen.total_pure _
  | cons c cs ih =>
    obtain ⟨hc, hcs⟩ := List.forall_mem_cons.1 h
    have hclass : (o.compileClass p c).Total :=
      (total_compileConstructors ho fun m hm => hc m (List.mem_append_left _ hm)).bind fun _ =>
        (total_compileMethods fun m hm => hc m (List.mem_append_right _ hm)).bind fun _ => Gen.total_pure _
    exact (hclass.within _).bind fun _ => (ih hcs).bind fun _ => Gen.total_pure _

/-- The temporaries in the code of a body: each evaluated expression and each statement has its span, the
temporaries that the spans take are all different and follow the variables, and an operation that names one
stands in the span that took it. -/
structure TempsPlaced (ctx : Context) (code : Code) (spans : List Span) : Prop where
  exprs : spans.filterMap Span.expr? = Stmt.evaluatedAll ctx.method.body
  stmts : spans.filterMap Span.stmt? = Stmt.substatementsOfAll ctx.method.body
  covers : ∀ x ∈ spans, x.Covers ctx code.toList
  perm : (spans.flatMap Span.temps).Perm (List.range' ctx.method.slotCount ctx.method.temporaries)
  named {j : Nat} {i : Instr} {n : Int} (hi : code[j]? = some i) (hn : i.op.slot? = some n)
    (hslot : ctx.method.slotCount ≤ n) : ∃ x ∈ spans, x.Contains j ∧ n.toNat ∈ x.temps

theorem BodyCode.tempsPlaced {code : List Instr} (b : BodyCode p c m code) (start : List Instr)
    (hs : ∀ n ∈ slotsOf (start.map Instr.op), n = 0) :
    TempsPlaced ⟨p, c.name.name, m⟩ (start ++ code).toArray (b.spansAfter start) := by
  refine ⟨?_, ?_, by simpa using b.covers_spansAfter start, ?_, fun {j i n} hi hn hslot => ?_⟩
  · rw [b.filterMap_spansAfter start Span.shift_expr?]
    exact b.emits.evaluated
  · rw [b.filterMap_spansAfter start Span.shift_stmt?]
    exact b.emits.substatements
  · rw [spansAfter, List.flatMap_map]
    exact b.temps_perm
  · have hpos := m.slotCount_pos
    replace hslot : (m.slotCount : Int) ≤ n := hslot
    have hret : slotsOf ((if m.endsWithReturn then [] else onLine m.token.pos.line [.ret]).map Instr.op) = [] := by
      split <;> simp
    have hmem : ∀ {is : List Instr} {k : Nat}, is[k]? = some i → n ∈ slotsOf (is.map Instr.op) := fun hk =>
      List.mem_filterMap.2 ⟨i.op, List.mem_map_of_mem (List.mem_of_getElem? hk), hn⟩
    rw [List.getElem?_toArray, b.code_eq, List.getElem?_append, List.append_assoc, List.getElem?_append,
      List.getElem?_append] at hi
    split at hi
    · have := hs n (hmem hi)
      omega
    split at hi
    · have := m.slotsOf_localDefaults n (hmem hi)
      omega
    split at hi
    · obtain ⟨x, hx, hcontains, hown⟩ := b.emits.namedBy hi hn hslot
      exact ⟨_, List.mem_map_of_mem hx, (hcontains.shift (by omega)).shift (by omega), hown⟩
    · simpa [hret] using hmem hi

theorem CodeFor.tempsPlaced {mc : MethodCode} (h : CodeFor o p c m mc) :
    ∃ spans, TempsPlaced ⟨p, c.name.name, m⟩ mc.code spans := by
  rcases h with ⟨code, ⟨b, -⟩, rfl⟩ | ⟨code, ⟨b, -⟩, rfl⟩
  · exact ⟨_, b.tempsPlaced [] (by simp)⟩
  · exact ⟨_, b.tempsPlaced _ (c.slotsOf_prologue _)⟩

theorem CodeFor.slotNeed_le {mc : MethodCode} (h : CodeFor o p c m mc) : (m.slotNeed : Int) ≤ o.limits.locals := by
  rcases h with ⟨_, ⟨b, hb⟩, -⟩ | ⟨_, ⟨b, hb⟩, -⟩
  all_goals rwa [b.after_slots] at hb

theorem Made.slots {mc : MethodCode} (h : Made o c mc) : ∀ n ∈ slotsOf (mc.code.toList.map Instr.op), n = 0 := by
  rcases h with rfl | h
  · simpa [ClassDecl.defaultConstructor, CompileOptions.method] using c.slotsOf_prologue c.token.pos.line
  · unfold ClassDecl.entryPoint at h
    split at h
    · obtain rfl := List.mem_singleton.1 h
      simp [CompileOptions.method, ClassDecl.entryCode]
    · cases h

/-- The slots in the file of a class: all lie in the frame, each body has its method and its temporaries are in
their places and stored before they are read, and a method without a body names the receiver only. -/
structure SlotsAllocated (o : CompileOptions) (p : Program) (c : ClassDecl) (f : ClassFile) : Prop where
  within : ∀ mc ∈ f.methods, ∀ n ∈ slotsOf (mc.code.toList.map Instr.op), 0 ≤ n ∧ n < o.limits.locals
  bodies : ∀ d ∈ c.bodies, ∃ mc ∈ f.methods, CodeFor o p c d mc
  origin : ∀ mc ∈ f.methods, (∀ n ∈ slotsOf (mc.code.toList.map Instr.op), n = 0) ∨ ∃ d ∈ c.bodies, CodeFor o p c d mc
  placed : ∀ d ∈ c.bodies, ∀ mc ∈ f.methods, CodeFor o p c d mc → ∃ spans,
    TempsPlaced ⟨p, c.name.name, d⟩ mc.code spans ∧ mc.code.StoredBeforeRead d.slotCount

theorem CompiledFrom.slotsAllocated {f : ClassFile} (h : CompiledFrom o p c f) (hw : p.Written) (hc : c.MembersClean p)
    (hadm : ∀ d ∈ c.bodies, d.Admitted p c.name.name) : SlotsAllocated o p c f := by
  have hwithin : ∀ mc ∈ f.methods, ∀ n ∈ slotsOf (mc.code.toList.map Instr.op), 0 ≤ n ∧ n < o.limits.locals := by
    intro mc hmc
    obtain ⟨_, -, hframe⟩ := exists_mem_of_forall₂ (h.frames hw hc) hmc
    rw [← hframe.localsLimit]
    exact hframe.slots
  refine ⟨hwithin, fun d hd => h.fileOf.codeFor hd, fun mc hmc => ?_, fun d hd mc hmc hcode => ?_⟩
  · exact (h.fileOf.origin hmc).imp_left Made.slots
  · obtain ⟨spans, hplaced⟩ := hcode.tempsPlaced
    obtain ⟨st, _, hkinded⟩ := hcode.kinded hw (hadm d hd)
    exact ⟨spans, hplaced, hkinded.toKinded.storedBeforeRead fun n hn => (hwithin mc hmc n hn).1⟩

/-- An accepted program without an empty list literal fails to compile exactly when a body needs more slots than
a frame has, and its code keeps to the slots that were allocated; no run names a slot out of its frame. -/
theorem accepted_slots_allocated (hw : p.Written)
    (ha : (p.check o.entry).issues = [])
    (hl : ∀ c ∈ p.classes, ∀ m ∈ c.bodies, ∀ t es, Expr.list t es ∈ m.subterms → es ≠ [])
    (ho : 0 < o.limits.locals) :
    ((∃ e, Program.compile o (p.check o.entry).decl (p.check o.entry).decl = .error e ∧ e.IsLocalsLimit) ↔
      ∃ c ∈ p.classes, ∃ m ∈ c.bodies, o.limits.locals < m.slotNeed) ∧
    ∀ files, Program.compile o (p.check o.entry).decl (p.check o.entry).decl = .ok files →
      List.Forall₂ (SlotsAllocated o p) p.classes files ∧
      ∀ canceled fuel entry out e, (Machine.load files).run canceled fuel entry = .failed out e →
        e.cause ≠ .invalidLocalSlot := by
  obtain ⟨hd, hclean⟩ := Program.check_clean ha
  rw [hd]
  have hadm : ∀ c ∈ p.classes, ∀ m ∈ c.bodies, m.Admitted p c.name.name := fun c hc m hm =>
    hclean.admitted hw hc hm (allFilled_of_lists (hl c hc m hm))
  refine ⟨⟨?_, ?_⟩, fun files hc => ?_⟩
  · rintro ⟨e, he, -⟩
    by_contra! hfit
    have htotal : (o.compileClasses p p.classes).Total :=
      total_compileClasses (by omega) fun c hc m hm => ⟨hadm c hc m hm, hfit c hc m hm⟩
    obtain ⟨r, hr⟩ := htotal {}
    simp [Program.compile, hr] at he
  · rintro ⟨c, hcmem, m, hm, hlt⟩
    rcases (limited_compileClasses (o := o) hadm) {} with ⟨⟨files, s'⟩, hr⟩ | ⟨e, he, hlimit⟩
    · have hc : Program.compile o p p = .ok files := by simp [Program.compile, hr]
      obtain ⟨f, -, hf⟩ := exists_mem_of_forall₂ (List.Forall₂.flip (Program.compile_ok hc)) hcmem
      obtain ⟨mc, -, hcode⟩ := FileOf.codeFor hf hm
      have := hcode.slotNeed_le
      omega
    · exact ⟨e, by simp [Program.compile, he], hlimit⟩
  · have hfiles : List.Forall₂ (fun c f => SlotsAllocated o p c f ∧ List.Forall₂ (FrameOf o) (c.stackNeeds o p) f.methods)
        p.classes files := forall₂_imp_mem (Program.compile_each hc) fun c hmem f hf =>
      ⟨hf.slotsAllocated hw (hclean.classes c hmem).toMembersClean (hadm c hmem),
        hf.frames hw (hclean.classes c hmem).toMembersClean⟩
    refine ⟨hfiles.imp fun _ _ h => h.1, fun canceled fuel entry out e hr => ?_⟩
    have hmethods : ∀ mc, (Machine.load files).HasMethod mc → ∃ n, FrameOf o n mc := by
      rintro mc ⟨f, hf, hmc⟩
      obtain ⟨c, -, -, hframes⟩ := exists_mem_of_forall₂ hfiles (List.mem_reverse.1 hf)
      obtain ⟨n, -, hframe⟩ := exists_mem_of_forall₂ hframes hmc
      exact ⟨n, hframe⟩
    choose! need hneed using hmethods
    exact (Machine.run_frames hneed hr).1

theorem accepted_slots_allocated_sample :
    ((∃ e, Program.compile {} (Tally.program.check "Main").decl (Tally.program.check "Main").decl = .error e ∧
        e.IsLocalsLimit) ↔
      ∃ c ∈ Tally.program.classes, ∃ m ∈ c.bodies, (128 : Int) < m.slotNeed) ∧
    ∃ files, List.Forall₂ (SlotsAllocated {} Tally.program) Tally.program.classes files ∧
      ∀ canceled fuel entry out e, (Machine.load files).run canceled fuel entry = .failed out e →
        e.cause ≠ .invalidLocalSlot := by
  obtain ⟨hlimit, hall⟩ := accepted_slots_allocated (o := {}) Tally.written Tally.accepted Tally.lists_filled (by decide)
  obtain ⟨files, hf⟩ := Tally.compiled
  exact ⟨hlimit, files, hall files hf⟩

end

end ClassCompiler
