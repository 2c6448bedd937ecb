import ClassCompiler.Proofs.Boxing.Runs
import ClassCompiler.Proofs.Compile.Returns
import ClassCompiler.Proofs.Machine.Passage
import ClassCompiler.Proofs.Machine.Evaluations
import ClassCompiler.Proofs.Stack.Limits

namespace ClassCompiler

/-- States for two pieces of code in a row, with the one where they meet. -/
theorem Flow.Admits.append_states {σ : Type} {A : Flow σ} {K : Claim σ} {T : Targets σ} {c₁ c₂ : List Instr}
    {sp₁ sp₂ : List Span} {a b c : σ} (h₁ : A.Admits K T c₁ sp₁ a b) (h₂ : A.Admits K T c₂ sp₂ b c) :
    ∃ st : Nat → σ, st 0 = a ∧ st c₁.length = b ∧ st (c₁ ++ c₂).length = c ∧ A.Traced T (c₁ ++ c₂) st := by
  obtain ⟨f, f0, fn, ft, -⟩ := h₁
  obtain ⟨g, g0, gn, gt, -⟩ := h₂
  have hjoin : f c₁.length = g 0 := by rw [fn, g0]
  refine ⟨splice c₁.length f g, ?_, ?_, ?_, ft.append gt hjoin⟩
  · rw [splice_left hjoin (Nat.zero_le _), f0]
  · rw [splice_left hjoin (Nat.le_refl _), fn]
  · rw [List.length_append, splice_right, gn]

section

variable {K : Claim Bool} {T : Targets Bool} {line : Int} {os : List Op} {a b : Bool} {code : Code} {st : Nat → Bool}

theorem live_straight (h : straight os = true) : liveFlow.Admits K T (onLine line os) [] a a := by
  have hp : liveFlow.Path T (fun _ => none) os a a := Live.path_straight h
  exact hp.admits line

theorem live_ret : liveFlow.Admits K T (onLine line [.ret]) [] a b := by
  have hp : liveFlow.Path T (fun _ => none) [.ret] a b :=
    ⟨b, ⟨⟨fun _ hf => absurd hf (by simp [Op.isFinal]), by simp⟩, by simp⟩, rfl⟩
  exact hp.admits line

theorem ClassDecl.straight_prologue (c : ClassDecl) :
    straight ([.load .ref 0, .invokeSpecial ⟨c.superName, initName, "()V"⟩] ++ c.fields.flatMap c.fieldDefault) = true := by
  induction c.fields with
  | nil => rfl
  | cons f fs ih => simp_all [ClassDecl.fieldDefault]

theorem ClassDecl.live_prologue (c : ClassDecl) : liveFlow.Admits K T (c.prologue line) [] a a :=
  live_straight c.straight_prologue

theorem MethodDecl.live_localDefaults (m : MethodDecl) : liveFlow.Admits K T m.localDefaults [] a a := by
  unfold MethodDecl.localDefaults
  induction m.locals with
  | nil => exact Flow.admits_nil
  | cons v vs ih => exact (live_straight (by simp)).append ih

theorem live_of_path (h : liveFlow.Solves code st) (h0 : st 0 = true) {ps : List Nat} {j : Nat} (hp : code.Path ps j) :
    st j = true := by
  induction hp with
  | start => exact h0
  | step _ he ih =>
    obtain ⟨i, -, ⟨hf, hfalls⟩ | ⟨test, l, -, hjumps⟩⟩ := h.edge he
    · exact hfalls ih hf
    · exact hjumps ih

theorem Code.Path.le_size {ps : List Nat} {j : Nat} (hp : code.Path ps j) : j ≤ code.size := by
  cases hp with
  | start => exact Nat.zero_le _
  | step _ he =>
    cases he with
    | next hi _ => exact (Array.getElem?_eq_some_iff.1 hi).1
    | jump _ _ hl =>
      obtain ⟨line, hline⟩ : LabelAt code.toList _ _ := labelAt_of_labelOffset? (by simpa using hl)
      have hlt := (List.getElem?_eq_some_iff.1 hline).1
      simp only [Array.length_toList] at hlt
      omega

/-- Code at the end of which nothing is live: control is always at an operation. -/
def Code.EndsDead (code : Code) : Prop := ∃ st, liveFlow.Solves code st ∧ st 0 = true ∧ st code.size = false

theorem Code.EndsDead.getElem? (h : code.EndsDead) {ps : List Nat} {j : Nat} (hp : code.Path ps j) :
    ∃ i, code[j]? = some i := by
  obtain ⟨st, hs, h0, hend⟩ := h
  have hlive := live_of_path hs h0 hp
  have hne : j ≠ code.size := by
    rintro rfl
    rw [hend] at hlive
    cases hlive
  have hle := hp.le_size
  exact ⟨_, Array.getElem?_eq_getElem (by omega)⟩

end

section

variable {o : CompileOptions} {p : Program} {c : ClassDecl} {d : MethodDecl} {mc : MethodCode}

theorem stays_of_straight_code {is : List Instr} (h : straight (is.map Instr.op) = true) {j : Nat} {i : Instr}
    (hi : is[j]? = some i) : i.op.isReturn = false := by
  have hstays := List.all_eq_true.1 (stays_of_straight h) i.op (List.mem_map_of_mem (List.mem_of_getElem? hi))
  simpa using hstays

theorem Ty.isVoid_of_isSubtype {isA : String → String → Bool} {t u : Ty} (h : Ty.isSubtype isA t u = true)
    (ht : t.isNoType = false) : t.isVoid = u.isVoid := by
  cases t <;> cases u <;> simp_all [Ty.isSubtype, Ty.isVoid, Ty.isNoType]

/-- An operation that leaves a call for a return statement: it gives a value where the method has a result. -/
def LeavesWell (d : MethodDecl) (op : Op) (v : Option Expr) : Prop :=
  if d.result.isVoid then op = .ret else op = .retRef ∧ v ≠ none

/-- What the checker admits as returned is as void as the result of the method. -/
theorem LeavesFor.of_admitted {ctx : Context} {op : Op} {loop : Option Loop} {t : Token} {v : Option Expr}
    (h : LeavesFor ctx op v) (ha : (Piece.stmt loop (.ret t v)).Admitted ctx) (hk : ctx.Known)
    (hop : op.isReturn = true) : LeavesWell ctx.method op v := by
  have hret : op ≠ .retRef → op = .ret := fun hne => by cases op <;> simp_all [Op.isReturn]
  have hclean : ctx.returnIssues t.pos v = [] := ha.clean
  simp only [Context.returnIssues, List.append_eq_nil_iff] at hclean
  obtain ⟨hissues, hsub⟩ := hclean
  unfold LeavesWell
  cases v with
  | none =>
    have hvoid : Ty.isSubtype ctx.table.hasAncestor .void ctx.method.result = true := by
      by_contra hne
      simp [Typed.value, Program.isSubtype, hne] at hsub
    rw [← Ty.isVoid_of_isSubtype hvoid rfl, Ty.isVoid, if_pos rfl]
    exact hret fun he => by simpa using h.1 he
  | some e =>
    have hadmits : ctx.Admits false e := by
      have hf := ha.filled
      have hn := ha.written
      simp only [Piece.subterms, Stmt.subterms, Option.toList_some, List.flatMap_cons, List.flatMap_nil,
        List.append_nil] at hf hn
      exact ⟨hf, hn, hissues⟩
    have hsome : Ty.isSubtype ctx.table.hasAncestor (ctx.typeOf e) ctx.method.result = true := by
      by_contra hne
      simp [Program.isSubtype, show (ctx.infer e).type = ctx.typeOf e from rfl, hne] at hsub
    rw [← Ty.isVoid_of_isSubtype hsome (Ty.Known.isNoType (hadmits.known hk))]
    cases hvoid : (ctx.typeOf e).isVoid with
    | true =>
      rw [if_pos rfl]
      refine hret fun he => ?_
      obtain ⟨e', he', hne⟩ := h.1 he
      obtain rfl := Option.some.inj he'
      simp [hvoid] at hne
    | false => exact ⟨h.2 ⟨e, rfl, hvoid⟩, by simp⟩

/-- How the code of a body may be left: where it ends it is dead, and an operation that leaves the call ends a
return statement, or is the last one of a body in which no return statement stands directly. -/
structure BodyLeaves (ctx : Context) (code : Code) (spans : List Span) : Prop where
  stmts : spans.filterMap Span.stmt? = Stmt.substatementsOfAll ctx.method.body
  covers : ∀ x ∈ spans, x.Covers ctx code.toList
  dead : code.EndsDead
  leaves {ps : List Nat} {j : Nat} {i : Instr} (hp : code.Path ps j) (hi : code[j]? = some i)
    (hr : i.op.isReturn = true) : i.op = .ret ∧ ctx.method.hasReturn = false ∨
      ∃ x ∈ spans, ∃ t v, x.stmt? = some (.ret t v) ∧ j + 1 = x.start + x.length ∧ LeavesWell ctx.method i.op v

theorem MethodDecl.hasReturn_of_endsWithReturn (h : d.endsWithReturn = true) : d.hasReturn = true := by
  unfold endsWithReturn at h
  cases hl : d.body.getLast? with
  | none => simp [hl] at h
  | some s =>
    rw [hl] at h
    exact List.any_eq_true.2 ⟨s, List.mem_of_getLast? hl, h⟩

theorem MethodDecl.straight_localDefaults (d : MethodDecl) : straight (d.localDefaults.map Instr.op) = true := by
  unfold localDefaults
  induction d.locals with
  | nil => rfl
  | cons v vs ih => simpa using ih

theorem BodyCode.leaves {code : List Instr} (b : BodyCode p c d code) (start : List Instr)
    (hs : ∀ {K T}, liveFlow.Admits K T start [] true true) (hstart : straight (start.map Instr.op) = true)
    (hl : ∀ l, labelCount start l = 0) (hd : d.Admitted p c.name.name) :
    BodyLeaves ⟨p, c.name.name, d⟩ (start ++ code).toArray (b.spansAfter start) := by
  -- Past the statements the code is live only if none of them is a return.
  have hbody : liveFlow.Admits liveClaim (fun _ _ => False) b.stmts b.spans true (!d.hasReturn) := by
    refine (liveFlow_sound).holds b.emits ⟨?_, by simp⟩
    cases hr : d.hasReturn with
    | false => exact .inl rfl
    | true => exact .inr ⟨hr, rfl⟩
  have hend : liveFlow.Admits liveClaim (fun _ _ => False)
      (if d.endsWithReturn then [] else onLine d.token.pos.line [.ret]) [] (!d.hasReturn) false := by
    split
    · next he =>
      rw [MethodDecl.hasReturn_of_endsWithReturn he]
      exact Flow.admits_nil
    · exact live_ret
  obtain ⟨st, h0, hmid, hlast, ht⟩ := (hs.append (d.live_localDefaults.append hbody)).append_states hend
  have hcode : start ++ (d.localDefaults ++ b.stmts) ++ (if d.endsWithReturn then [] else onLine d.token.pos.line [.ret]) =
      start ++ code := by rw [List.append_assoc, ← b.code_eq]
  rw [hcode] at hlast ht
  have hsolves := ht.solves (b.labelCount_le_one hl)
  refine ⟨?_, by simpa using b.covers_spansAfter start, ⟨st, hsolves, h0, by simpa using hlast⟩,
    fun {ps j i} hp hi hr => ?_⟩
  · rw [b.filterMap_spansAfter start Span.shift_stmt?]
    exact b.emits.substatements
  rw [List.getElem?_toArray, b.code_eq, List.getElem?_append, List.append_assoc, List.getElem?_append,
    List.getElem?_append] at hi
  split at hi
  · exact absurd hr (by simp [stays_of_straight_code hstart hi])
  split at hi
  · exact absurd hr (by simp [stays_of_straight_code d.straight_localDefaults hi])
  split at hi
  · obtain ⟨x, hx, loop, t, v, hpiece, hlast, hleaves⟩ := b.emits.returnSite hi hr
    have hstmt : x.stmt? = some (.ret t v) := by rw [Span.stmt?, hpiece, Piece.stmt?]
    refine .inr ⟨_, List.mem_map_of_mem hx, t, v, by simpa using hstmt, ?_, ?_⟩
    · simp only [Function.comp_apply, Span.shift]
      omega
    · have hadmitted := b.emits.forall_of_mem (P := fun q _ => q.Admitted _) hd.piece (fun hr _ hq => hr.admitted hq) x hx
      rw [hpiece] at hadmitted
      exact hleaves.of_admitted hadmitted hd.known hr
  · split at hi
    · simp at hi
    · simp only [onLine, List.map_cons, List.map_nil, List.getElem?_singleton, Option.ite_none_right_eq_some] at hi
      obtain ⟨hj, hi⟩ := hi
      have hlive := live_of_path hsolves h0 hp
      rw [show j = (start ++ (d.localDefaults ++ b.stmts)).length by
        simp only [List.length_append]
        omega, hmid] at hlive
      exact .inl ⟨by rw [← Option.some.inj hi], by simpa using hlive⟩

theorem CodeFor.leaves (h : CodeFor o p c d mc) (hd : d.Admitted p c.name.name) :
    ∃ spans, BodyLeaves ⟨p, c.name.name, d⟩ mc.code spans := by
  rcases h with ⟨code, ⟨b, -⟩, rfl⟩ | ⟨code, ⟨b, -⟩, rfl⟩
  · exact ⟨_, b.leaves [] Flow.admits_nil rfl (fun _ => rfl) hd⟩
  · refine ⟨_, b.leaves _ c.live_prologue ?_ (c.labelCount_prologue _) hd⟩
    rw [ClassDecl.prologue, map_op_onLine]
    exact c.straight_prologue

end

def Frame.OnPath (f : Frame) : Prop := ∃ ps, f.method.code.Path ps f.pc

section

variable {m : Machine} {f g : Frame} {heap heap' : Heap} {i : Instr}

/-- An operation works on the kinds of its call and leaves those of the code. -/
theorem Frame.Kept.exec_boxed (hm : m.HasKinds) (hh : heap.Boxed) (hf : f.Kept m false)
    (hi : f.method.code[f.pc]? = some i) : ∃ count x,
      Attempt AnyCause (Effect.Boxed m { f with pc := f.pc + 1, steps := f.steps + 1 } i.op count x)
        (m.exec { f with pc := f.pc + 1, steps := f.steps + 1 } heap i.op) := by
  obtain ⟨count, st, hk⟩ := hm f.method hf.method
  obtain ⟨x, hx, -⟩ := hk.after hi
  have hkinds := hf.hasKinds hk
  exact ⟨count, x, ClassCompiler.exec_boxed (f := { f with pc := f.pc + 1, steps := f.steps + 1 }) hh
    ⟨hkinds.stack, hkinds.vars, hkinds.temps⟩ hx⟩

/-- An operation takes its call along an edge of the code. -/
theorem Frame.Kept.edge_next (hm : m.HasKinds) (hh : heap.Boxed) (hf : f.Kept m false)
    (hi : f.method.code[f.pc]? = some i) {printed : String}
    (he : m.exec { f with pc := f.pc + 1, steps := f.steps + 1 } heap i.op = .ok (.next g heap' printed)) :
    g.method = f.method ∧ f.method.code.Edge f.pc g.pc := by
  obtain ⟨count, x, hexec⟩ := hf.exec_boxed hm hh hi
  rw [he] at hexec
  obtain ⟨-, ⟨hfinal, hmoved⟩ | ⟨test, l, k, hop, hl, hmoved⟩⟩ := hexec
  · exact ⟨hmoved.method, hmoved.pc ▸ .next hi hfinal⟩
  · exact ⟨hmoved.method, hmoved.pc ▸ .jump hi hop hl⟩

theorem Frame.Kept.edge_call (hm : m.HasKinds) (hh : heap.Boxed) (hf : f.Kept m false)
    (hi : f.method.code[f.pc]? = some i) {cls : String} {mc : MethodCode} {args : List Value} {pushes : Bool}
    (he : m.exec { f with pc := f.pc + 1, steps := f.steps + 1 } heap i.op = .ok (.call g heap' cls mc args pushes)) :
    g.method = f.method ∧ f.method.code.Edge f.pc g.pc := by
  obtain ⟨count, x, hexec⟩ := hf.exec_boxed hm hh hi
  rw [he] at hexec
  obtain ⟨-, -, -, hfinal, b, hmoved, -⟩ := hexec
  exact ⟨hmoved.method, hmoved.pc ▸ .next hi hfinal⟩

theorem Frame.OnPath.along (hp : f.OnPath) (hg : g.method = f.method ∧ f.method.code.Edge f.pc g.pc) : g.OnPath := by
  obtain ⟨ps, hps⟩ := hp
  exact ⟨_, hg.1 ▸ hps.step hg.2⟩

theorem State.step_onPath (hm : m.HasKinds) {canceled : Bool} {s s' : State} (hk : s.Kept m)
    (hp : ∀ f ∈ s.frames, f.OnPath) (hs : s.step m canceled = .running s') : ∀ f ∈ s'.frames, f.OnPath := by
  obtain ⟨frames, heap, out⟩ := s
  cases frames with
  | nil => cases hs
  | cons f callers =>
    obtain ⟨hh, hf, -⟩ := hk
    obtain ⟨hpf, hpc⟩ := List.forall_mem_cons.1 hp
    cases steps_of_running hs with
    | next hi _ he => exact List.forall_mem_cons.2 ⟨hpf.along (hf.edge_next hm hh hi he), hpc⟩
    | call hi he =>
      exact List.forall_mem_cons.2 ⟨⟨[], .start⟩,
        List.forall_mem_cons.2 ⟨hpf.along (hf.edge_call hm hh hi he), hpc⟩⟩
    | @leave v g gs hcallers _ _ =>
      subst hcallers
      obtain ⟨hpg, hpgs⟩ := List.forall_mem_cons.1 hpc
      refine List.forall_mem_cons.2 ⟨?_, hpgs⟩
      split
      · exact hpg
      · exact hpg

theorem Machine.Reaches.onPath (hm : m.HasKinds) {entry : String} {s : State} (h : m.Reaches entry s) :
    ∀ f ∈ s.frames, f.OnPath := by
  induction h with
  | start h =>
    unfold Machine.start at h
    split at h
    · cases h
    · split at h
      · cases h
      · obtain rfl := Except.ok.inj h
        exact List.forall_mem_singleton.2 ⟨[], .start⟩
  | step h hs ih => exact State.step_onPath hm (h.kept hm) ih hs

/-- A step leaves no more than so many calls active, without a fault. -/
def Progress.EndsIn (n : Nat) : Progress → Prop
  | .running s => s.frames.length ≤ n
  | .finished _ => True
  | .failed _ _ => False

/-- The innermost call ends in the next step of a run, without a fault. -/
def State.Leaves (m : Machine) (canceled : Bool) (s : State) (f : Frame) : Prop :=
  ∃ callers, s.frames = f :: callers ∧ (s.step m canceled).EndsIn callers.length

/-- An operation that does not leave its call keeps it active. -/
theorem State.perform_active {callers : List Frame} {out : String} {op : Op} :
    ¬(perform m f callers heap out op).EndsIn callers.length := by
  unfold perform
  simp only
  split
  · exact id
  · simp [Progress.EndsIn]
  · split
    · exact id
    · simp only [Progress.EndsIn, List.length_cons]
      omega

/-- A call ends past its code, or at an operation that leaves it. -/
theorem State.Leaves.ends {canceled : Bool} {s : State} (h : s.Leaves m canceled f) :
    f.method.code[f.pc]? = none ∨ ∃ i, f.method.code[f.pc]? = some i ∧ i.op.isReturn = true := by
  obtain ⟨callers, hs, hstep⟩ := h
  obtain ⟨frames, heap, out⟩ := s
  obtain rfl : frames = f :: callers := hs
  cases hi : f.method.code[f.pc]? with
  | none => exact .inl rfl
  | some i =>
    refine .inr ⟨i, rfl, ?_⟩
    simp only [step, hi] at hstep
    split at hstep
    · exact hstep.elim
    · split at hstep
      · next hop => rw [hop]; rfl
      · next hop => rw [hop]; rfl
      · exact absurd hstep perform_active

end

/-- The method that was generated for a body of a class, and whether its calls give a value. -/
inductive GeneratedFor (o : CompileOptions) (p : Program) (c : ClassDecl) : MethodDecl → MethodCode → Bool → Prop
  | method {d : MethodDecl} {mc : MethodCode} (hd : d ∈ c.methods) (h : MethodOf o p c d mc) :
    GeneratedFor o p c d mc (!d.result.isVoid)
  | constructor {d : MethodDecl} {mc : MethodCode} (hd : c.constructor = some d) (h : ConstructorOf o p c d mc) :
    GeneratedFor o p c d mc false

/-- How a call ends at a position: at the end of a return statement that gives a value, or giving none. -/
def ReturnsAt (code : Code) (spans : List Span) (gives : Bool) (j : Nat) : Prop :=
  ∃ i, code[j]? = some i ∧
    if gives then i.op = .retRef ∧ ∃ x ∈ spans, ∃ t e, x.stmt? = some (.ret t (some e)) ∧ j + 1 = x.start + x.length
    else i.op = .ret

section

variable {o : CompileOptions} {p : Program} {c : ClassDecl} {d : MethodDecl} {mc : MethodCode} {gives : Bool}

theorem GeneratedFor.codeFor (h : GeneratedFor o p c d mc gives) : CodeFor o p c d mc := by
  cases h with
  | method _ h => exact .inl h
  | constructor _ h => exact .inr h

theorem GeneratedFor.mem_bodies (h : GeneratedFor o p c d mc gives) : d ∈ c.bodies := by
  cases h with
  | method hd => exact List.mem_append_right _ hd
  | constructor hd => simp [ClassDecl.bodies, hd]

theorem GeneratedFor.gives_eq (h : GeneratedFor o p c d mc gives) (hw : p.Written) (hc : c ∈ p.classes) :
    gives = !d.result.isVoid := by
  cases h with
  | method => rfl
  | constructor hd => simp [MethodDecl.result, (hw c hc).constructor d hd, Ty.resultOfOption, Ty.isVoid]

/-- A body from which a value is to be given has a return statement directly in it. -/
theorem GeneratedFor.hasReturn (h : GeneratedFor o p c d mc gives) (hc : c.MembersClean p)
    (hvoid : d.result.isVoid = false) (hw : p.Written) (hmem : c ∈ p.classes) : d.hasReturn = true := by
  cases h with
  | method hd => exact ((hc.methods d hd).returns).resolve_left (by simp [hvoid])
  | constructor hd => simp [MethodDecl.result, (hw c hmem).constructor d hd, Ty.resultOfOption, Ty.isVoid] at hvoid

theorem BodyLeaves.returnsAt {code : Code} {spans : List Span} (h : BodyLeaves ⟨p, c.name.name, d⟩ code spans)
    (hret : d.result.isVoid = false → d.hasReturn = true) {ps : List Nat} {j : Nat} (hp : code.Path ps j)
    (hj : code[j]? = none ∨ ∃ i, code[j]? = some i ∧ i.op.isReturn = true) :
    ReturnsAt code spans (!d.result.isVoid) j := by
  obtain ⟨i, hi⟩ := h.dead.getElem? hp
  obtain ⟨i', hi', hr⟩ := hj.resolve_left (by simp [hi])
  obtain rfl : i' = i := Option.some.inj (hi'.symm.trans hi)
  refine ⟨i', hi, ?_⟩
  cases hvoid : d.result.isVoid with
  | true =>
    obtain ⟨hop, -⟩ | ⟨x, -, t, v, -, -, hleaves⟩ := h.leaves hp hi hr
    · simpa using hop
    · simpa [LeavesWell, hvoid] using hleaves
  | false =>
    obtain ⟨-, hnone⟩ | ⟨x, hx, t, v, hstmt, hend, hleaves⟩ := h.leaves hp hi hr
    · exact absurd (hret hvoid) (by simp [show d.hasReturn = false from hnone])
    · simp only [LeavesWell, hvoid, Bool.false_eq_true, if_false] at hleaves
      obtain ⟨e, rfl⟩ := Option.ne_none_iff_exists'.1 hleaves.2
      exact ⟨hleaves.1, x, hx, t, e, hstmt, hend⟩

theorem returnsAt_of_straight {is : List Instr} {line : Int} (hs : straight (is.map Instr.op) = true)
    (hlive : liveFlow.Admits liveClaim (fun _ _ => False) is [] true true) (hl : ∀ l, labelCount is l = 0)
    {ps : List Nat} {j : Nat} (hp : Code.Path (is ++ onLine line [.ret]).toArray ps j)
    (hj : (is ++ onLine line [.ret]).toArray[j]? = none ∨
      ∃ i, (is ++ onLine line [.ret]).toArray[j]? = some i ∧ i.op.isReturn = true) :
    ReturnsAt (is ++ onLine line [.ret]).toArray [] false j := by
  have hret : liveFlow.Admits liveClaim (fun _ _ => False) (onLine line [.ret]) [] true false := live_ret
  obtain ⟨st, h0, hlast, ht, -⟩ := hlive.append hret
  have hsolves := ht.solves fun l => by simp [hl]
  obtain ⟨i, hi⟩ := Code.EndsDead.getElem? ⟨st, hsolves, h0, by simpa using hlast⟩ hp
  obtain ⟨i', hi', hr⟩ := hj.resolve_left (by simp [hi])
  refine ⟨i', hi', ?_⟩
  rw [List.getElem?_toArray, List.getElem?_append] at hi'
  split at hi'
  · exact absurd hr (by simp [stays_of_straight_code hs hi'])
  · simp only [onLine, List.map_cons, List.map_nil, List.getElem?_singleton, Option.ite_none_right_eq_some] at hi'
    simp [← Option.some.inj hi'.2]

theorem Made.returnsAt (h : Made o c mc) {ps : List Nat} {j : Nat} (hp : mc.code.Path ps j)
    (hj : mc.code[j]? = none ∨ ∃ i, mc.code[j]? = some i ∧ i.op.isReturn = true) : ReturnsAt mc.code [] false j := by
  rcases h with rfl | h
  · refine returnsAt_of_straight ?_ c.live_prologue (c.labelCount_prologue _) hp hj
    rw [ClassDecl.prologue, map_op_onLine]
    exact c.straight_prologue
  · unfold ClassDecl.entryPoint at h
    split at h
    · obtain rfl := List.mem_singleton.1 h
      have hcreate : straight ((onLine c.token.pos.line
          [.new c.name.name, .invokeSpecial ⟨c.name.name, initName, "()V"⟩]).map Instr.op) = true := rfl
      exact returnsAt_of_straight hcreate (live_straight rfl) (fun l => by simp) hp hj
    · cases h

/-- Every method of a file was made for the class or generated for one of its bodies. -/
theorem FileOf.generated {f : ClassFile} (h : FileOf o p c f) (hmc : mc ∈ f.methods) :
    Made o c mc ∨ ∃ d gives, GeneratedFor o p c d mc gives := by
  obtain ⟨ks, ms, hks, hms, hm⟩ := h.methods
  rw [hm, List.append_assoc, List.mem_append, List.mem_append] at hmc
  rcases hmc with hmc | hmc | hmc
  · exact .inl (.inr hmc)
  · cases hks with
    | none => exact .inl (.inl (List.mem_singleton.1 hmc))
    | plain hc _ hk =>
      obtain rfl := List.mem_singleton.1 hmc
      exact .inr ⟨_, _, .constructor hc hk⟩
    | withArgs hc _ hk =>
      rcases List.mem_cons.1 hmc with rfl | hmc
      · exact .inl (.inl rfl)
      · obtain rfl := List.mem_singleton.1 hmc
        exact .inr ⟨_, _, .constructor hc hk⟩
  · obtain ⟨d, hd, hcode⟩ := exists_mem_of_forall₂ hms hmc
    exact .inr ⟨_, _, .method hd hcode⟩

/-- How the calls of an accepted program without an empty list literal end: those of a method with a result at
the end of one of its return statements, giving a value; those of other methods and of constructors giving
none; and no call past the end of its code. -/
theorem accepted_calls_return {files : List ClassFile}
    (hw : p.Written) (ha : (p.check o.entry).issues = [])
    (hlists : ∀ c ∈ p.classes, ∀ d ∈ c.bodies, ∀ t es, Expr.list t es ∈ d.subterms → es ≠ [])
    (hc : Program.compile o (p.check o.entry).decl (p.check o.entry).decl = .ok files) :
    (∀ entry s canceled f, (Machine.load files).Reaches entry s → s.Leaves (Machine.load files) canceled f →
      ∃ c ∈ p.classes, Made o c f.method ∧ ReturnsAt f.method.code [] false f.pc ∨
        ∃ d gives, GeneratedFor o p c d f.method gives) ∧
    ∀ c ∈ p.classes, ∀ d mc gives, GeneratedFor o p c d mc gives → ∃ spans : List Span,
      spans.filterMap Span.stmt? = Stmt.substatementsOfAll d.body ∧
      (∀ x ∈ spans, x.Covers ⟨p, c.name.name, d⟩ mc.code.toList) ∧
      ∀ entry s canceled f, (Machine.load files).Reaches entry s → s.Leaves (Machine.load files) canceled f →
        f.method = mc → ReturnsAt mc.code spans gives f.pc := by
  obtain ⟨hdecl, hclean⟩ := Program.check_clean ha
  rw [hdecl] at hc
  have hfiles := Program.compile_ok hc
  have hadm : ∀ c ∈ p.classes, ∀ d ∈ c.bodies, d.Admitted p c.name.name := fun c hmem d hd =>
    hclean.admitted hw hmem hd (allFilled_of_lists (hlists c hmem d hd))
  have hkinds := load_hasKinds hfiles hw hadm
  -- The innermost call of every state that is reached is a method of the files, and on a path of its code.
  have hcall : ∀ {entry s canceled f}, (Machine.load files).Reaches entry s → s.Leaves (Machine.load files) canceled f →
      (Machine.load files).HasMethod f.method ∧ f.OnPath := by
    rintro entry s canceled f hs ⟨callers, hf, -⟩
    have hmem : f ∈ s.frames := hf ▸ List.mem_cons_self
    obtain ⟨_, hkept⟩ := (hs.kept hkinds).frames.mem hmem
    exact ⟨hkept.method, hs.onPath hkinds f hmem⟩
  refine ⟨fun entry s canceled f hs hleaves => ?_, fun c hmem d mc gives hgen => ?_⟩
  · obtain ⟨⟨file, hfile, hmc⟩, ps, hpath⟩ := hcall hs hleaves
    obtain ⟨c, hmem, hcf⟩ := exists_mem_of_forall₂ hfiles (List.mem_reverse.1 hfile)
    exact ⟨c, hmem, (hcf.generated hmc).imp_left fun hmade => ⟨hmade, hmade.returnsAt hpath hleaves.ends⟩⟩
  · obtain ⟨spans, hbody⟩ := hgen.codeFor.leaves (hadm c hmem d hgen.mem_bodies)
    refine ⟨spans, hbody.stmts, hbody.covers, fun entry s canceled f hs hleaves hmethod => ?_⟩
    obtain ⟨-, ps, hpath⟩ := hcall hs hleaves
    subst hmethod
    rw [hgen.gives_eq hw hmem]
    exact hbody.returnsAt (fun hvoid => hgen.hasReturn (hclean.classes c hmem).toMembersClean hvoid hw hmem) hpath
      hleaves.ends

end

theorem accepted_calls_return_sample : ∃ files,
    (Machine.load files).run false 600 "Main" = .finished "459" ∧
    (∀ entry s canceled f, (Machine.load files).Reaches entry s → s.Leaves (Machine.load files) canceled f →
      ∃ c ∈ Tally.program.classes, Made {} c f.method ∧ ReturnsAt f.method.code [] false f.pc ∨
        ∃ d gives, GeneratedFor {} Tally.program c d f.method gives) ∧
    ∀ c ∈ Tally.program.classes, ∀ d mc gives, GeneratedFor {} Tally.program c d mc gives → ∃ spans : List Span,
      spans.filterMap Span.stmt? = Stmt.substatementsOfAll d.body ∧
      (∀ x ∈ spans, x.Covers ⟨Tally.program, c.name.name, d⟩ mc.code.toList) ∧
      ∀ entry s canceled f, (Machine.load files).Reaches entry s → s.Leaves (Machine.load files) canceled f →
        f.method = mc → ReturnsAt mc.code spans gives f.pc := by
  have hrun : (Program.compile {} (Tally.program.check "Main").decl (Tally.program.check "Main").decl).toOption.bind
      (fun files => ((Machine.load files).run false 600 "Main").printed?) = some "459" := by decide +kernel
  obtain ⟨files, hf, hout⟩ := exists_ok_of_bind hrun
  exact ⟨files, Outcome.eq_finished hout,
    accepted_calls_return (o := {}) Tally.written Tally.accepted Tally.lists_filled hf⟩

end ClassCompiler
