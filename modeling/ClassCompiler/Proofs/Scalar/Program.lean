import ClassCompiler.Proofs.Compile.Methods
import ClassCompiler.Proofs.Scalar.Stmt
import ClassCompiler.Proofs.Stack.Limits
import ClassCompiler.Proofs.Typing.Clean

namespace ClassCompiler

namespace MethodDecl

variable {m : MethodDecl}

theorem mem_locals_of_symbol? (ha : m.args = []) {n : String} {sym : Symbol} (h : m.symbol? n = some sym) :
    ∃ v ∈ m.locals, v.name.name = n ∧ v.type = sym.type := by
  have hmem := List.mem_of_find?_eq_some h
  have hname : sym.name = n := by simpa using List.find?_some h
  simp only [symbols, ha, List.zipIdx_nil, List.map_nil, List.nil_append, List.mem_map] at hmem
  obtain ⟨⟨v, i⟩, hv, rfl⟩ := hmem
  exact ⟨v, List.fst_mem_of_mem_zipIdx hv, hname, rfl⟩

theorem startEnv_of_mem (hd : (m.locals.map (·.name.name)).Nodup) {v : VarDecl} (hv : v ∈ m.locals) :
    m.startEnv v.name.name = .ofTy v.type := by
  have hfind := find?_eq_some_of_nodup _ hd hv
  simp only [startEnv]
  rw [hfind]

theorem startEnv_typed (ha : m.args = []) (hd : (m.locals.map (·.name.name)).Nodup)
    (ht : ∀ v ∈ m.locals, v.type.isScalar = true) : EnvTyped m m.startEnv := by
  intro n sym hs
  obtain ⟨v, hv, rfl, hty⟩ := mem_locals_of_symbol? ha hs
  rw [startEnv_of_mem hd hv, ← hty]
  exact Scalar.hasTy_ofTy (ht v hv)

end MethodDecl

section

variable {mc : MethodCode} {line : Int}

theorem Moves.scalarDefault {t : Ty} {c : Spot} (m : Machine) (callers : Outer) (ht : t.isScalar = true)
    (hat : CodeAt mc.code c.pc (onLine line (defaultValue t))) :
    ∃ v heap, c.heap.Grows heap ∧ (Scalar.ofTy t).KeptAs heap v ∧
      Moves m mc callers 0 c { c with pc := c.pc + (defaultValue t).length, stack := v :: c.stack, heap } := by
  cases t with
  | int =>
    have hpush : Moves m mc callers 1 c _ := Moves.pushInt hat.opAt
    exact ⟨_, _, Heap.Grows.push _ _, Heap.get?_push _ _,
      (hpush.trans (Moves.invokeStatic hat.tail.opAt rfl)).weaken (Nat.zero_le _)⟩
  | bool =>
    have hpush : Moves m mc callers 1 c _ := Moves.pushInt hat.opAt
    exact ⟨_, _, Heap.Grows.push _ _, Heap.get?_push _ _,
      (hpush.trans (Moves.invokeStatic hat.tail.opAt rfl)).weaken (Nat.zero_le _)⟩
  | string => exact ⟨_, _, Heap.Grows.refl, rfl, (Moves.pushString hat.opAt).weaken (Nat.zero_le _)⟩
  | _ => simp [Ty.isScalar] at ht

/-- The slots of some variables hold what they start with. -/
def Started (d : MethodDecl) (names : List String) (locals : Array Value) (heap : Heap) : Prop :=
  ∀ n ∈ names, ∀ sym, d.symbol? n = some sym → ∃ v, locals[sym.slot]? = some v ∧ (d.startEnv n).KeptAs heap v

theorem Moves.localDefaults (m : Machine) (callers : Outer) {d : MethodDecl} (hd : (d.locals.map (·.name.name)).Nodup)
    (ht : ∀ v ∈ d.locals, v.type.isScalar = true) (vs : List VarDecl) (hvs : ∀ v ∈ vs, v ∈ d.locals) {c : Spot}
    {names : List String} (hsize : d.slotCount ≤ c.locals.size) (hstart : Started d names c.locals c.heap)
    (hat : CodeAt mc.code c.pc (vs.flatMap fun v =>
      onLine v.token.pos.line (defaultValue v.type ++ [.store .ref (d.localSlot v)]))) :
    ∃ locals heap, Started d (names ++ vs.map (·.name.name)) locals heap ∧ Moves m mc callers 0 c
      { c with pc := c.pc + (vs.flatMap fun v =>
          onLine v.token.pos.line (defaultValue v.type ++ [.store .ref (d.localSlot v)])).length, locals, heap } := by
  induction vs generalizing c names with
  | nil => exact ⟨c.locals, c.heap, by simpa using hstart, .refl⟩
  | cons v vs ih =>
    rw [List.flatMap_cons, CodeAt.append_iff, CodeAt.onLine_append_iff] at hat
    obtain ⟨⟨hvalue, hput⟩, hrest⟩ := hat
    obtain ⟨sym, hsym⟩ := MethodDecl.symbol?_of_mem_locals (hvs v (by simp))
    have hslot : d.localSlot v = sym.slot := by simp [MethodDecl.localSlot, hsym]
    have hlt : sym.slot < c.locals.size := Nat.lt_of_lt_of_le (MethodDecl.symbol?_slot_lt hsym).2 hsize
    obtain ⟨w, heap, hg, hk, hmove⟩ := Moves.scalarDefault m callers (ht v (hvs v (by simp))) hvalue
    rw [hslot] at hput
    have hset := hmove.trans (Moves.store hput.opAt rfl hlt)
    have hstart' : Started d (names ++ [v.name.name]) (c.locals.setIfInBounds sym.slot w) heap := by
      intro n hn sym' hsym'
      by_cases hname : n = v.name.name
      · subst hname
        obtain rfl := Option.some.inj (hsym.symm.trans hsym')
        refine ⟨w, by simp [hlt], ?_⟩
        rwa [MethodDecl.startEnv_of_mem hd (hvs v (by simp))]
      · obtain ⟨w', hw', hk'⟩ := hstart n (by simpa [hname] using hn) sym' hsym'
        have hne : sym.slot ≠ sym'.slot := fun he => hname (MethodDecl.symbol?_slot_inj hsym hsym' he).symm
        exact ⟨w', by rw [Array.getElem?_setIfInBounds_ne hne, hw'], hk'.grows hg⟩
    obtain ⟨locals, heap', hall, hmoves⟩ := ih (fun v hv => hvs v (by simp [hv]))
      (c := ⟨c.pc + (defaultValue v.type).length + 1, c.stack, c.locals.setIfInBounds sym.slot w, heap, c.out⟩)
      (by simpa using hsize) hstart' (by simpa [length_onLine, Nat.add_assoc] using hrest)
    refine ⟨locals, heap', by simpa using hall, (hset.trans hmoves).arrive ?_⟩
    simp [length_onLine]
    omega

end

def Result.out : Result → String
  | .done _ _ out => out
  | .stopped _ out => out
  | .outOfFuel out => out

def Result.Gives : Result → Outcome → Prop
  | .done _ _ out, o => o = .finished out
  | .stopped .divisionByZero out, o => ∃ e, o = .failed out e ∧ e.cause = .divisionByZero
  | .stopped .stuck _, _ => False
  | .outOfFuel out, o => o = .outOfFuel out

theorem Result.Gives.out {r : Result} {o : Outcome} (h : r.Gives o) : o.out = r.out := by
  match r, h with
  | .done _ _ _, h => rw [h]; rfl
  | .stopped .divisionByZero _, ⟨e, h, _⟩ => rw [h]; rfl
  | .outOfFuel _, h => rw [h]; rfl

/-- Runs show what is meant: they end in the same way, they print the same, and nothing but a division
by zero stops them. -/
structure Realizes (run : (fuel : Nat) → Outcome) (meaning : (fuel : Nat) → Result) : Prop where
  defined : ∀ n out, meaning n ≠ .stopped .stuck out
  finishes : ∀ out, (∃ n, run n = .finished out) ↔ ∃ n exit env, meaning n = .done exit env out
  divides : ∀ out, (∃ n e, run n = .failed out e ∧ e.cause = .divisionByZero) ↔
    ∃ n, meaning n = .stopped .divisionByZero out
  faults : ∀ n out e, run n = .failed out e → e.cause = .divisionByZero
  prints : ∀ n, ∃ more, (meaning n).out = (run n).out ++ more
  printed : ∀ n, ∃ k, (run k).out = (meaning n).out

theorem Realizes.of_gives {m : Machine} {s : State} {meaning : (fuel : Nat) → Result}
    (h : ∀ n, ∃ k, n ≤ k ∧ (meaning n).Gives (s.run m false k)) :
    Realizes (s.run m false) meaning := by
  -- A run that has ended is the same for all more fuel, so it can be compared with the meaning at its own fuel.
  have hended : ∀ {n}, (s.run m false n).Ended → (meaning n).Gives (s.run m false n) := by
    intro n hn
    obtain ⟨k, hk, hg⟩ := h n
    rwa [State.run_of_ended hn hk] at hg
  refine ⟨fun n out hn => ?_, fun out => ⟨?_, ?_⟩, fun out => ⟨?_, ?_⟩, fun n out e hr => ?_, fun n => ?_, fun n => ?_⟩
  · obtain ⟨k, -, hg⟩ := h n
    rw [hn] at hg
    exact hg
  · rintro ⟨n, hr⟩
    have hg := hended (n := n) (by rw [hr]; trivial)
    rw [hr] at hg
    match hm : meaning n, hg with
    | .done exit env _, hg =>
      obtain rfl := Outcome.finished.inj hg
      exact ⟨n, exit, env, hm⟩
    | .stopped .divisionByZero _, ⟨_, hg, _⟩ => cases hg
    | .outOfFuel _, hg => cases hg
  · rintro ⟨n, exit, env, hm⟩
    obtain ⟨k, -, hg⟩ := h n
    rw [hm] at hg
    exact ⟨k, hg⟩
  · rintro ⟨n, e, hr, -⟩
    have hg := hended (n := n) (by rw [hr]; trivial)
    rw [hr] at hg
    match hm : meaning n, hg with
    | .done _ _ _, hg => cases hg
    | .stopped .divisionByZero _, ⟨_, hg, _⟩ =>
      obtain ⟨rfl, -⟩ := Outcome.failed.inj hg
      exact ⟨n, hm⟩
    | .outOfFuel _, hg => cases hg
  · rintro ⟨n, hm⟩
    obtain ⟨k, -, hg⟩ := h n
    rw [hm] at hg
    exact ⟨k, hg⟩
  · have hg := hended (n := n) (by rw [hr]; trivial)
    rw [hr] at hg
    match meaning n, hg with
    | .done _ _ _, hg => cases hg
    | .stopped .divisionByZero _, ⟨_, hg, he⟩ =>
      obtain ⟨-, rfl⟩ := Outcome.failed.inj hg
      exact he
    | .outOfFuel _, hg => cases hg
  · obtain ⟨k, hk, hg⟩ := h n
    rw [← hg.out]
    exact State.run_extends hk
  · obtain ⟨k, -, hg⟩ := h n
    exact ⟨k, hg.out⟩

def Result.ShownBy (m : Machine) (fuel : Nat) : Result → Nat → State → Prop
  | .done _ _ out, _, s => s.step m false = .finished out
  | .stopped .divisionByZero out, _, s => ∃ e, s.step m false = .failed out e ∧ e.cause = .divisionByZero
  | .stopped .stuck _, _, _ => False
  | .outOfFuel out, k, s => fuel ≤ k ∧ s.out = out

theorem Result.ShownBy.mono {m : Machine} {fuel fuel' n : Nat} {r : Result} {s : State} (h : r.ShownBy m fuel n s)
    (hle : fuel' ≤ fuel) : r.ShownBy m fuel' n s := by
  match r, h with
  | .done _ _ _, h => exact h
  | .stopped .divisionByZero _, h => exact h
  | .outOfFuel _, ⟨hn, ho⟩ => exact ⟨Nat.le_trans hle hn, ho⟩

/-- The operand stack overflows, what was printed before being the beginning of what is meant. -/
def Overflows (run : (fuel : Nat) → Outcome) (meaning : (fuel : Nat) → Result) : Prop :=
  ∃ n k out e, run n = .failed out e ∧ e.cause = .stackOverflow ∧ Continues out (meaning k).out

theorem Leads.gives {m : Machine} {fuel : Nat} {r : Result} {s : State} (h : Leads m (r.ShownBy m fuel) r.out 0 s) :
    (∃ k, fuel ≤ k ∧ r.Gives (s.run m false k)) ∨
      ∃ k out e, s.run m false k = .failed out e ∧ e.cause = .stackOverflow ∧ Continues out r.out := by
  rcases h.run with ⟨k, t, hP, hrun⟩ | hover
  · rw [Nat.zero_add] at hP
    refine .inl ?_
    match r, hP with
    | .done _ _ out, hP =>
      refine ⟨k + (fuel + 1), by omega, ?_⟩
      rw [hrun, State.run, hP]
      rfl
    | .stopped .divisionByZero out, ⟨e, hP, he⟩ =>
      refine ⟨k + (fuel + 1), by omega, e, ?_, he⟩
      rw [hrun, State.run, hP]
    | .outOfFuel out, ⟨hle, hP⟩ =>
      refine ⟨k, hle, ?_⟩
      have := hrun 0
      rw [Nat.add_zero] at this
      rw [this, State.run, hP]
      rfl
  · exact .inr hover

/-- A run that shows each result of a meaning, however much fuel that gets. -/
theorem Realizes.of_leads {m : Machine} {s : State} {meaning : (fuel : Nat) → Result}
    (h : ∀ fuel, Leads m ((meaning fuel).ShownBy m fuel) (meaning fuel).out 0 s) :
    Overflows (s.run m false) meaning ∨ Realizes (s.run m false) meaning := by
  by_cases hover : Overflows (s.run m false) meaning
  · exact .inl hover
  · refine .inr (Realizes.of_gives fun n => ?_)
    rcases (h n).gives with hg | ⟨k, out, e, hrun, he, ho⟩
    · exact hg
    · exact absurd ⟨k, n, out, e, hrun, he, ho⟩ hover

/-- The end of a constructor that was called at the end of the entry point. -/
theorem Follows.shown {m : Machine} {mc mc' : MethodCode} {g f : Frame} {method : MethodDecl} {stack : List Value}
    {after fuel n : Nat} {c e : Spot} {r : Result} {s : State}
    (hf : Follows m mc ⟨[g], false⟩ method none stack after fuel c r) (hafter : EndsAt mc.code after) (hg : FrameAt mc' ⟨[], false⟩ e g)
    (he : EndsAt mc'.code e.pc) (hs : StandsAt mc ⟨[g], false⟩ c f s) :
    Leads m (r.ShownBy m (n + fuel)) r.out n s := by
  match r, hf with
  | .done exit env out, ⟨d, pc, hm, ha, hl⟩ =>
    have hend : EndsAt mc.code d.pc := by
      rw [hl.pc]
      match exit, ha with
      | .next, ha => exact (show pc = after from ha) ▸ hafter
      | .return, ha => exact .inr ha
      | .break, ⟨_, h, _⟩ => cases h
      | .continue, ⟨_, h, _⟩ => cases h
    have hout : Continues d.out out := hl.out ▸ .refl _
    refine (hm.leads n f s hs).bind hout fun k t hk => ?_
    obtain ⟨-, f', hf'⟩ := hk
    obtain ⟨f'', hsilent, hstep⟩ := hf'.step_of_endsAt hend
    simp only [State.leave, hsilent, Bool.false_eq_true, if_false] at hstep
    refine .step hstep (.here ?_)
    have hback : StandsAt mc' ⟨[], false⟩ ⟨e.pc, e.stack, e.locals, d.heap, d.out⟩ g ⟨[g], d.heap, d.out⟩ :=
      ⟨⟨hg.method, hg.pc, hg.stack, hg.locals, hg.pushes⟩, rfl⟩
    obtain ⟨_, -, hlast⟩ := hback.step_of_endsAt he
    rw [Result.ShownBy, hlast, hl.out]
    rfl
  | .stopped .divisionByZero out, hf => exact hf.leads n f s hs
  | .outOfFuel out, ⟨d, hm, ho⟩ =>
    refine (hm.leads n f s hs).bind (ho ▸ .refl _) fun k t hk => .here ?_
    obtain ⟨hle, f', hf'⟩ := hk
    exact ⟨hle, by rw [hf'.state]; exact ho⟩

/-- A program of one class, whose constructor is a scalar body over distinct scalar variables. -/
structure ScalarProgram (p : Program) (c : ClassDecl) (d : MethodDecl) : Prop where
  alone : p.classes = [c]
  constructor : c.constructor = some d
  distinct : (d.locals.map (·.name.name)).Nodup
  scalar : ∀ v ∈ d.locals, v.type.isScalar = true
  body : Stmt.allScalar d.body = true

/-- The name of a class is not one that the machine takes for a class of its own: constructors of the
root class and of array lists are left out, and lists and bound methods have no fields. -/
def ClassDecl.OwnName (c : ClassDecl) : Prop :=
  (c.name.name ≠ rootClass ∧ c.name.name ≠ arrayListClass) ∧
    (c.fields = [] ∨ c.name.name ≠ listClass ∧ c.name.name ≠ fptrClass)

theorem Started.agrees {d : MethodDecl} {locals : Array Value} {heap : Heap} (ha : d.args = [])
    (hd : (d.locals.map (·.name.name)).Nodup) (ht : ∀ v ∈ d.locals, v.type.isScalar = true)
    (h : Started d (d.locals.map (·.name.name)) locals heap) : Agrees d d.startEnv locals heap := by
  refine ⟨MethodDecl.startEnv_typed ha hd ht, fun n sym hs => ?_⟩
  obtain ⟨v, hv, rfl, -⟩ := MethodDecl.mem_locals_of_symbol? ha hs
  exact h _ (List.mem_map_of_mem hv) sym hs

section

variable {o : CompileOptions} {p : Program} {c : ClassDecl} {d : MethodDecl} {mc : MethodCode}

/-- The constructor of a scalar program, called at the end of the entry point, shows what it means. -/
theorem ScalarProgram.constructor_leads (hp : ScalarProgram p c d) (hmc : ConstructorOf o p c d mc)
    (ha : d.args = []) (hb : d.BodyClean p c.name.name) (hsuper : c.superName = rootClass) (m : Machine)
    (cls : String) {this : Value} {heap : Heap} {g : Frame} {mc' : MethodCode} {e : Spot} (hnull : this.isNull = false)
    (ho : c.fields = [] ∨ ∃ cls fields, heap.get? this = some (.inst cls fields)) (hg : FrameAt mc' ⟨[], false⟩ e g)
    (he : EndsAt mc'.code e.pc) (fuel n : Nat) :
    Leads m ((d.meaning fuel).ShownBy m (n + fuel)) (d.meaning fuel).out n
      ⟨Frame.enter cls mc [this] false :: [g], heap, ""⟩ := by
  obtain ⟨code, ⟨b, hslots⟩, rfl⟩ := hmc
  have hcount : (d.slotCount : Int) ≤ o.limits.locals :=
    Int.le_trans (Int.ofNat_le.2 b.emits.slots_mono) hslots
  let mc := o.method initName d.constructorDescriptor false (c.prologue d.token.pos.line ++ code)
  let start := Frame.enter cls mc [this] false
  have hthis : start.locals[0]? = some this := (Array.getElem?_append_left (by simp)).trans rfl
  have hsize : d.slotCount ≤ start.locals.size := by
    simp only [start, Frame.enter, mc, CompileOptions.method, Array.size_append, Array.size_replicate,
      List.size_toArray, List.length_singleton]
    omega
  have hlabels : LabelsOnce mc.code := b.labelCount_le_one (c.labelCount_prologue _)
  have hcode : CodeAt mc.code 0 (c.prologue d.token.pos.line ++ code) := CodeAt.self _
  rw [b.code_eq] at hcode
  simp only [CodeAt.append_iff] at hcode
  obtain ⟨hprologue, ⟨hlocals, hstmts⟩, hend⟩ := hcode
  obtain ⟨heap₁, hfields⟩ := Moves.prologue m ⟨[g], false⟩ (c := ⟨0, [], start.locals, heap, ""⟩) hsuper hprologue hthis hnull ho
  have hnone : Started d [] start.locals heap₁ := by simp [Started]
  obtain ⟨locals, heap₂, hstarted, hvars⟩ := Moves.localDefaults m ⟨[g], false⟩ hp.distinct hp.scalar d.locals
    (fun _ => id) (c := ⟨_, [], start.locals, heap₁, ""⟩) hsize hnone hlocals
  have hagrees : Agrees d d.startEnv locals heap₂ := Started.agrees ha hp.distinct hp.scalar (by simpa using hstarted)
  have hissues : Context.stmtsIssues ⟨p, c.name.name, d⟩ (none : Option Loop).isSome d.body = [] := hb.body
  have hbody : Follows m mc ⟨[g], false⟩ d none [] _ fuel ⟨_, [], locals, heap₂, ""⟩ (d.meaning fuel) :=
    Stmt.performsAll d.body hlabels hp.body hissues (by simp [LoopPlaced]) b.emits hstmts ⟨rfl, rfl, rfl, hagrees⟩
  have hafter : EndsAt mc.code
      (0 + (c.prologue d.token.pos.line).length + d.localDefaults.length + b.stmts.length) := by
    by_cases hr : d.endsWithReturn = true
    · refine .inl (Array.getElem?_eq_none ?_)
      simp [mc, CompileOptions.method, b.code_eq, hr]
      omega
    · rw [List.length_append, ← Nat.add_assoc, if_neg hr] at hend
      exact .inr hend.opAt
  exact (hbody.of_moves (hfields.trans hvars)).shown hafter hg he ⟨⟨rfl, rfl, rfl, rfl, rfl⟩, rfl⟩

/-- The file of the only class of a program is the one that a machine finds under its name. -/
theorem class?_load_singleton {f : ClassFile} {name : String} (hf : f.name = name) :
    (Machine.load [f]).class? name = some f := by
  simp [Machine.load, Machine.class?, hf]

theorem FileOf.method?_main {f : ClassFile} (hf : FileOf o p c f) (he : c.name.name = o.entry) :
    f.method? mainName mainDesc = some (o.method mainName mainDesc true c.entryCode) := by
  obtain ⟨ks, ms, -, -, hm⟩ := hf.methods
  simp [ClassFile.method?, hm, ClassDecl.entryPoint, he, CompileOptions.method]

theorem FileOf.method?_constructor {f : ClassFile} (hf : FileOf o p c f) (hd : c.constructor = some d)
    (ha : d.args = []) : ∃ mc, ConstructorOf o p c d mc ∧ f.method? initName "()V" = some mc := by
  obtain ⟨ks, ms, hk, -, hm⟩ := hf.methods
  have hmain : ∀ mc ∈ c.entryPoint o, mc.name ≠ initName := by
    intro mc hmc
    unfold ClassDecl.entryPoint at hmc
    split at hmc
    · rw [List.mem_singleton.1 hmc]
      exact (by decide : mainName ≠ initName)
    · cases hmc
  cases hk with
  | none hn => simp [hd] at hn
  | withArgs hc hne _ =>
    obtain rfl := Option.some.inj (hd.symm.trans hc)
    exact absurd ha hne
  | @plain d' mc hc _ h =>
    obtain rfl := Option.some.inj (hd.symm.trans hc)
    refine ⟨mc, h, ?_⟩
    obtain ⟨code, -, rfl⟩ := h
    rw [ClassFile.method?, hm, List.append_assoc, List.find?_append, List.find?_eq_none.2, Option.none_or]
    · simp [CompileOptions.method, MethodDecl.constructorDescriptor, ha, Ty.descriptor]
    · intro mc hmc
      simp [hmain mc hmc]

theorem ClassDecl.OwnName.allocate {m : Machine} (h : c.OwnName) (hc : (m.class? c.name.name).isSome) :
    ∃ x, m.allocate c.name.name = .ok x ∧ (c.fields = [] ∨ ∃ cls fields, x = .inst cls fields) := by
  obtain ⟨⟨-, harray⟩, hfields⟩ := h
  by_cases hl : c.name.name = listClass
  · exact ⟨_, by rw [Machine.allocate, if_pos hl], .inl (hfields.resolve_right fun h => h.1 hl)⟩
  · by_cases hf : c.name.name = fptrClass
    · exact ⟨_, by rw [Machine.allocate, if_neg hl, if_pos hf], .inl (hfields.resolve_right fun h => h.2 hf)⟩
    · exact ⟨_, by rw [Machine.allocate, if_neg hl, if_neg hf, if_neg harray, if_pos hc], .inr ⟨_, _, rfl⟩⟩

/-- From the entry point on, a run shows what the constructor means. -/
theorem ScalarProgram.entry_leads (hp : ScalarProgram p c d) {f : ClassFile} (hf : FileOf o p c f)
    (ha : d.args = []) (hb : d.BodyClean p c.name.name)
    (hsuper : c.superName = rootClass) (hn : c.OwnName) (fuel : Nat) :
    Leads (Machine.load [f]) ((d.meaning fuel).ShownBy (Machine.load [f]) fuel) (d.meaning fuel).out 0
      ⟨[Frame.enter f.name (o.method mainName mainDesc true c.entryCode) [.null] false], #[], ""⟩ := by
  let m := Machine.load [f]
  let main := o.method mainName mainDesc true c.entryCode
  have hclass : m.class? c.name.name = some f := class?_load_singleton hf.name
  obtain ⟨mc, hmc, hfind⟩ := hf.method?_constructor hp.constructor ha
  obtain ⟨x, hx, hfields⟩ := hn.allocate (m := m) (by rw [hclass]; rfl)
  have hcode : CodeAt main.code 0 c.entryCode := CodeAt.self _
  let start := Frame.enter f.name main [.null] false
  have hnew : Moves m main ⟨[], false⟩ 1 ⟨0, [], start.locals, #[], ""⟩ ⟨1, [.ref 0], start.locals, #[x], ""⟩ :=
    .new hcode.opAt hx
  refine (hnew.leads 0 start _ ⟨⟨rfl, rfl, rfl, rfl, rfl⟩, rfl⟩).bind
    ⟨(d.meaning fuel).out, by simp⟩ fun k t hk => ?_
  obtain ⟨hle, g, hg⟩ := hk
  obtain ⟨g', hg', hstep⟩ := hg.construct hcode.tail.opAt rfl rfl hn.1 hclass hfind (by decide)
  refine .step hstep ?_
  have hleads := hp.constructor_leads hmc ha hb hsuper m f.name (show (Value.ref 0).isNull = false from rfl)
    (hfields.imp_right fun ⟨cls, fields, hi⟩ => ⟨cls, fields, show Heap.get? #[x] (.ref 0) = _ by rw [hi]; rfl⟩) hg' (.inr hcode.tail.tail.opAt) fuel (k + 1)
  exact hleads.imp fun n t ht => ht.mono (by omega)

/-- An accepted entry class has no parent, and its constructor no parameters. -/
theorem ClassDecl.Clean.of_entry {entry : String} (hc : c.Clean entry p) (he : c.name.name = entry)
    (hd : c.constructor = some d) : d.args = [] ∧ c.superName = rootClass := by
  have hhead := hc.head
  simp only [headIssues, he, hd, if_true, List.append_eq_nil_iff] at hhead
  obtain ⟨hargs, hparent⟩ := hhead
  refine ⟨?_, ?_⟩
  · by_contra hne
    simp [hne] at hargs
  · by_contra hne
    have hne : c.parentName ≠ "" := fun h => hne (by simp [superName, h])
    simp [hne] at hparent

/-- A run of a well-formed scalar program prints what its constructor means and ends in the same way, unless the
operand stack overflows on the way. -/
theorem ScalarProgram.overflows_or_realizes {files : List ClassFile} (hentry : o.entry ≠ "") (hclean : p.Clean o.entry)
    (hp : ScalarProgram p c d) (hn : c.OwnName) (hc : Program.compile o p p = .ok files) :
    Overflows (fun fuel => (Machine.load files).run false fuel o.entry) d.meaning ∨
      Realizes (fun fuel => (Machine.load files).run false fuel o.entry) d.meaning := by
  have hfiles := Program.compile_ok hc
  rw [hp.alone] at hfiles
  obtain ⟨f, _, hf, hnil, rfl⟩ := List.forall₂_cons_left_iff.1 hfiles
  obtain rfl := List.forall₂_nil_left_iff.1 hnil
  have hmem : c ∈ p.classes := by simp [hp.alone]
  have he : c.name.name = o.entry := by
    obtain ⟨c', hc', he⟩ := hclean.entry
    rw [hp.alone, List.mem_singleton] at hc'
    rwa [hc'] at he
  have hcls := hclean.classes c hmem
  obtain ⟨hargs, hsuper⟩ := hcls.of_entry he hp.constructor
  let start : State := ⟨[Frame.enter f.name (o.method mainName mainDesc true c.entryCode) [.null] false], #[], ""⟩
  have hstart : (Machine.load [f]).start o.entry = .ok start := by
    simp only [Machine.start, class?_load_singleton (hf.name.trans he), hf.method?_main he]
    rfl
  have hrun : (fun fuel => (Machine.load [f]).run false fuel o.entry) = start.run (Machine.load [f]) false := by
    funext fuel
    simp only [Machine.run, String.isEmpty_iff, hentry, if_false, hstart]
  rw [hrun]
  exact Realizes.of_leads fun fuel =>
    hp.entry_leads hf hargs (hcls.constructor d hp.constructor).2 hsuper hn fuel

/-- A run of an accepted scalar program prints what its constructor means and ends in the same way, whenever no method
needs more of the stack than a positive limit; otherwise the operand stack may overflow on the way, and nothing else. -/
theorem scalar_run_realizes_meaning {files : List ClassFile} (hentry : o.entry ≠ "") (hw : p.Written)
    (ha : (p.check o.entry).issues = []) (hp : ScalarProgram p c d) (hn : c.OwnName)
    (hc : Program.compile o (p.check o.entry).decl (p.check o.entry).decl = .ok files) :
    ((0 < o.limits.stack → ∀ n ∈ c.stackNeeds o p, (n : Int) ≤ o.limits.stack) →
      Realizes (fun fuel => (Machine.load files).run false fuel o.entry) d.meaning) ∧
    (Overflows (fun fuel => (Machine.load files).run false fuel o.entry) d.meaning ∨
      Realizes (fun fuel => (Machine.load files).run false fuel o.entry) d.meaning) := by
  obtain ⟨hdecl, hclean⟩ := Program.check_clean ha
  rw [hdecl] at hc
  have hruns := hp.overflows_or_realizes hentry hclean hn hc
  refine ⟨fun hfits => hruns.resolve_left ?_, hruns⟩
  rintro ⟨n, -, out, e, hrun, he, -⟩
  obtain ⟨hpos, c', hmem, need, hneed, hlt⟩ := (Program.run_frames hw hclean hc hrun).2 he
  obtain rfl : c' = c := List.mem_singleton.1 (hp.alone ▸ hmem)
  have hle := hfits hpos need hneed
  omega

end

namespace ScalarSample

def ident (name : String) : Ident := ⟨{}, name⟩

def constructorOf (name : String) (locals : List VarDecl) (body : List Stmt) : MethodDecl :=
  { token := {}, name := ident name, locals, body }

def classOf (name : String) (fields locals : List VarDecl) (body : List Stmt) : ClassDecl where
  token := {}
  name := ident name
  fields := fields
  constructor := some (constructorOf name locals body)

def programOf (name : String) (fields locals : List VarDecl) (body : List Stmt) : Program where
  file := "sample"
  classes := [classOf name fields locals body]

theorem scalarProgram {name : String} {fields locals : List VarDecl} {body : List Stmt}
    (hd : (locals.map (·.name.name)).Nodup) (ht : ∀ v ∈ locals, v.type.isScalar = true)
    (hb : Stmt.allScalar body = true) :
    ScalarProgram (programOf name fields locals body) (classOf name fields locals body)
      (constructorOf name locals body) :=
  ⟨rfl, rfl, hd, ht, hb⟩

/-- A number that is halved and printed until nothing is left of it. -/
def halving : List Stmt :=
  let n : Expr := .ident (ident "n")
  [.for {} (some ⟨{}, n, .int {} 13⟩) (some (.binary {} .gt n (.int {} 0)))
    (some ⟨{}, n, .binary {} .div n (.int {} 2)⟩) (.print {} n)]

def halvingLocals : List VarDecl := [⟨{}, ident "n", .int⟩]

/-- Additions nested to the right: all the left operands wait on the stack. -/
def nestedSum : (depth : Nat) → Expr
  | 0 => .int {} 1
  | depth + 1 => .binary {} .add (.int {} 1) (nestedSum depth)

end ScalarSample

open ScalarSample in
theorem scalar_run_realizes_meaning_halving :
    ∃ files, Program.compile {} (programOf "Main" [] halvingLocals halving)
        (programOf "Main" [] halvingLocals halving) = .ok files ∧
      Realizes (fun fuel => (Machine.load files).run false fuel "Main")
        (constructorOf "Main" halvingLocals halving).meaning := by
  have ha : ((programOf "Main" [] halvingLocals halving).check "Main").issues = [] := by decide
  have hd := (Program.check_clean ha).1
  obtain ⟨files, hf⟩ : ∃ files, Program.compile {} (programOf "Main" [] halvingLocals halving)
      (programOf "Main" [] halvingLocals halving) = .ok files := exists_ok_of_isSome (by decide)
  refine ⟨files, hf, (scalar_run_realizes_meaning (o := {}) (by decide) (by decide) ha
    (scalarProgram (by decide) (by decide) (by decide)) ⟨by decide, .inl rfl⟩ (by rw [hd]; exact hf)).1 fun _ => ?_⟩
  decide

/-- An accepted scalar program with a run that does not show what is meant. -/
def Misses (o : CompileOptions) (p : Program) (c : ClassDecl) (d : MethodDecl) : Prop :=
  (p.check o.entry).issues = [] ∧ ScalarProgram p c d ∧
    ∃ files, Program.compile o (p.check o.entry).decl (p.check o.entry).decl = .ok files ∧
      ¬Realizes (fun fuel => (Machine.load files).run false fuel o.entry) d.meaning

def Program.outcome? (o : CompileOptions) (fuel : Nat) (p : Program) : Option (String × Option Cause) :=
  (Program.compile o p p).toOption.bind fun files =>
    match (Machine.load files).run false fuel o.entry with
    | .finished out => some (out, none)
    | .failed out e => some (out, some e.cause)
    | .outOfFuel _ => none

section

variable {o : CompileOptions} {p : Program} {c : ClassDecl} {d : MethodDecl} {fuel : Nat} {out : String}

theorem Misses.of_fault (fuel : Nat) (out : String) (cause : Cause) (ha : (p.check o.entry).issues = []) (hp : ScalarProgram p c d)
    (hr : p.outcome? o fuel = some (out, some cause)) (hne : cause ≠ .divisionByZero) : Misses o p c d := by
  refine ⟨ha, hp, ?_⟩
  rw [(Program.check_clean ha).1]
  unfold Program.outcome? at hr
  cases hc : Program.compile o p p with
  | error e => simp [hc, Except.toOption] at hr
  | ok files =>
    refine ⟨files, rfl, fun h => hne ?_⟩
    simp only [hc, Except.toOption, Option.bind_some] at hr
    split at hr
    · simp at hr
    · next e hrun =>
      simp only [Option.some.injEq, Prod.mk.injEq] at hr
      rw [← hr.2]
      exact h.faults fuel _ e hrun
    · cases hr

theorem Misses.of_output (fuel : Nat) (out : String) (ha : (p.check o.entry).issues = []) (hp : ScalarProgram p c d)
    (hr : p.outcome? o fuel = some (out, none)) (hne : ∀ n exit env, d.meaning n ≠ .done exit env out) :
    Misses o p c d := by
  refine ⟨ha, hp, ?_⟩
  rw [(Program.check_clean ha).1]
  unfold Program.outcome? at hr
  cases hc : Program.compile o p p with
  | error e => simp [hc, Except.toOption] at hr
  | ok files =>
    refine ⟨files, rfl, fun h => ?_⟩
    simp only [hc, Except.toOption, Option.bind_some] at hr
    split at hr
    · next hrun =>
      simp only [Option.some.injEq, Prod.mk.injEq, and_true] at hr
      obtain ⟨n, exit, env, hm⟩ := (h.finishes _).1 ⟨fuel, hrun⟩
      exact hne n exit env (hr ▸ hm)
    · simp at hr
    · cases hr

end

open ScalarSample in
/-- A sum that is nested too deeply for the operand stack, a constructor that is never run because the
class has the name of the root class, and a field that an object named for the lists cannot hold. -/
theorem scalar_run_misses_meaning :
    Misses {} (programOf "Main" [] [] [.print {} (nestedSum 128)]) (classOf "Main" [] [] [.print {} (nestedSum 128)])
        (constructorOf "Main" [] [.print {} (nestedSum 128)]) ∧
      Misses { entry := rootClass } (programOf rootClass [] [] [.print {} (.int {} 1)])
        (classOf rootClass [] [] [.print {} (.int {} 1)]) (constructorOf rootClass [] [.print {} (.int {} 1)]) ∧
      Misses { entry := listClass } (programOf listClass [⟨{}, ident "x", .int⟩] [] [.print {} (.int {} 1)])
        (classOf listClass [⟨{}, ident "x", .int⟩] [] [.print {} (.int {} 1)])
        (constructorOf listClass [] [.print {} (.int {} 1)]) := by
  refine ⟨?_, ?_, ?_⟩
  · exact .of_fault 200 "" .stackOverflow (by decide +kernel)
      (scalarProgram (by decide) (by decide) (by decide)) (by decide +kernel) (by decide)
  · refine .of_output 20 "" (by decide)
      (scalarProgram (by decide) (by decide) (by decide)) (by decide) fun n exit env h => ?_
    have hout : "" ++ (Scalar.wrap 1).text = "" := congrArg Result.out h
    exact absurd hout (by decide)
  · exact .of_fault 20 "" .classCast (by decide)
      (scalarProgram (by decide) (by decide) (by decide)) (by decide +kernel) (by decide)

end ClassCompiler
