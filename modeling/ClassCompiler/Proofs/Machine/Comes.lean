import ClassCompiler.Proofs.Compile.Returns
import ClassCompiler.Proofs.Machine.Ends
import ClassCompiler.Proofs.Stack.Limits

namespace ClassCompiler

/-- The call over `callers` goes on between two positions, and makes no other call, until it is as `Q` says; if
the run stops on the way, it does so for a cause that `E` names for the spot. -/
inductive Machine.Comes (m : Machine) (mc : MethodCode) (callers : Outer) (lo hi : Nat) (E : Spot → Cause → Prop)
    (Q : Spot → State → Prop) : State → Prop
  | here {c : Spot} {s : State} (hs : s.IsAt mc callers c) (h : Q c s) : Comes m mc callers lo hi E Q s
  | step {c : Spot} {s s' : State} (hs : s.IsAt mc callers c) (hc : lo ≤ c.pc ∧ c.pc < hi)
      (hstep : s.step m false = .running s') (h : Comes m mc callers lo hi E Q s') : Comes m mc callers lo hi E Q s
  | stops {c : Spot} {s : State} {out : String} {e : Fault} (hs : s.IsAt mc callers c) (hc : lo ≤ c.pc ∧ c.pc < hi)
      (hstep : s.step m false = .failed out e) (he : E c e.cause) : Comes m mc callers lo hi E Q s

theorem Does.step {m : Machine} {mc : MethodCode} {callers : Outer} {A : Cause → Prop} {op : Op} {c : Spot}
    {P : Spot → Prop} {s : State} (hx : Does m mc callers A op c P) (hat : OpAt mc.code c.pc op) (hr : op ≠ .ret)
    (hr' : op ≠ .retRef) (hs : s.IsAt mc callers c) :
    (∃ d s', P d ∧ s.step m false = .running s' ∧ s'.IsAt mc callers d) ∨
      ∃ out e, s.step m false = .failed out e ∧ A e.cause := by
  obtain ⟨f, hf⟩ := hs
  have hstep := step_of_opAt (m := m) hat hr hr' hf
  have hexec := hx { f with pc := f.pc + 1, steps := f.steps + 1 }
    ⟨hf.method, by simp [hf.pc], hf.stack, hf.locals, hf.pushes⟩
  unfold State.perform at hstep
  simp only at hstep
  cases he : m.exec { f with pc := f.pc + 1, steps := f.steps + 1 } c.heap op with
  | error e =>
    rw [he] at hexec hstep
    exact .inr ⟨_, _, hstep, hexec⟩
  | ok r =>
    rw [he] at hexec hstep
    obtain ⟨d, g, printed, hP, rfl, hout, hg⟩ := hexec
    exact .inl ⟨d, _, hP, hstep, g, hg, by rw [hout]⟩

namespace Machine.Comes

variable {m : Machine} {mc : MethodCode} {callers : Outer} {lo hi lo' hi' : Nat} {E E' : Spot → Cause → Prop}
  {Q R : Spot → State → Prop} {c : Spot} {s : State}

theorem bind (h : m.Comes mc callers lo hi E Q s)
    (hk : ∀ d t, t.IsAt mc callers d → Q d t → m.Comes mc callers lo hi E R t) : m.Comes mc callers lo hi E R s := by
  induction h with
  | here hs h => exact hk _ _ hs h
  | step hs hc hstep _ ih => exact .step hs hc hstep ih
  | stops hs hc hstep he => exact .stops hs hc hstep he

theorem imp (h : m.Comes mc callers lo hi E Q s) (hk : ∀ d t, Q d t → R d t) : m.Comes mc callers lo hi E R s :=
  h.bind fun d t ht hq => .here ht (hk d t hq)

theorem mono (h : m.Comes mc callers lo hi E Q s) (hlo : lo' ≤ lo) (hhi : hi ≤ hi') (hE : ∀ d e, E d e → E' d e) :
    m.Comes mc callers lo' hi' E' Q s := by
  induction h with
  | here hs h => exact .here hs h
  | step hs hc hstep _ ih => exact .step hs ⟨hlo.trans hc.1, hc.2.trans_le hhi⟩ hstep ih
  | stops hs hc hstep he => exact .stops hs ⟨hlo.trans hc.1, hc.2.trans_le hhi⟩ hstep (hE _ _ he)

theorem reaches {entry : String} (h : m.Comes mc callers lo hi E Q s) (hr : m.Reaches entry s) :
    m.Comes mc callers lo hi E (fun d t => Q d t ∧ m.Reaches entry t) s := by
  induction h with
  | here hs h => exact .here hs ⟨h, hr⟩
  | step hs hc hstep _ ih => exact .step hs hc hstep (ih (.step hr hstep))
  | stops hs hc hstep he => exact .stops hs hc hstep he

theorem of_does {op : Op} {P : Spot → Prop} (hat : OpAt mc.code c.pc op) (hr : op ≠ .ret) (hr' : op ≠ .retRef)
    (hs : s.IsAt mc callers c) (hc : lo ≤ c.pc ∧ c.pc < hi) (hx : Does m mc callers (E c) op c P)
    (h : ∀ d s', P d → s'.IsAt mc callers d → m.Comes mc callers lo hi E Q s') : m.Comes mc callers lo hi E Q s := by
  rcases hx.step hat hr hr' hs with ⟨d, s', hP, hstep, hs'⟩ | ⟨out, e, hstep, he⟩
  · exact .step hs hc hstep (h d s' hP hs')
  · exact .stops hs hc hstep he

end Machine.Comes

/-- A call goes through straight code to its end, or stops for a cause that `E` names. -/
def Crosses (m : Machine) (mc : MethodCode) (callers : Outer) (lo hi : Nat) (E : Spot → Cause → Prop)
    (Q : Spot → State → Prop) (code : List Instr) (c : Spot) (s : State) : Prop :=
  CodeAt mc.code c.pc code → hi = c.pc + code.length → lo ≤ c.pc → s.IsAt mc callers c →
    m.Comes mc callers lo hi E (fun d t => d.pc = hi ∧ Q d t) s

namespace Crosses

variable {m : Machine} {mc : MethodCode} {callers : Outer} {lo hi : Nat} {E : Spot → Cause → Prop}
  {Q : Spot → State → Prop} {rest : List Instr} {c : Spot} {s : State} {line : Int}

theorem nil (h : Q c s) : Crosses m mc callers lo hi E Q [] c s := fun _ hstop _ hs => .here hs ⟨hstop.symm, h⟩

theorem op {op : Op} {P : Spot → Prop} (hr : op ≠ .ret ∧ op ≠ .retRef) (hx : Does m mc callers (E c) op c P)
    (hnext : ∀ d, P d → d.pc = c.pc + 1) (h : ∀ d s', P d → Crosses m mc callers lo hi E Q rest d s') :
    Crosses m mc callers lo hi E Q (⟨op, line⟩ :: rest) c s := by
  intro hat hstop hlo hs
  obtain ⟨hfirst, hrest⟩ := CodeAt.append_iff.1 (show CodeAt mc.code c.pc ([⟨op, line⟩] ++ rest) from hat)
  rw [List.length_cons] at hstop
  refine .of_does ⟨line, hfirst 0 _ rfl⟩ hr.1 hr.2 hs ⟨hlo, by omega⟩ hx fun d s' hd hs' => ?_
  have hpc := hnext d hd
  exact h d s' hd (by rwa [hpc]) (by omega) (by omega) hs'

theorem step {op : Op} {d : Spot} (hr : op ≠ .ret ∧ op ≠ .retRef) (hx : Does m mc callers (E c) op c (· = d))
    (hnext : d.pc = c.pc + 1) (h : ∀ s', Crosses m mc callers lo hi E Q rest d s') :
    Crosses m mc callers lo hi E Q (⟨op, line⟩ :: rest) c s :=
  .op hr hx (fun _ hd => hd ▸ hnext) fun _ s' hd => hd ▸ h s'

end Crosses

/-- The call over `callers` is between two positions, or waits there for a call that it made. -/
def State.Inside (callers : List Frame) (lo hi : Nat) (s : State) : Prop :=
  ∃ inner f, s.frames = inner ++ f :: callers ∧ (inner = [] → lo ≤ f.pc ∧ f.pc < hi)

/-- A run goes on for as long as a call is between two positions. -/
inductive Machine.Stays (m : Machine) (callers : List Frame) (lo hi : Nat) : State → State → Prop
  | refl {s : State} : Stays m callers lo hi s s
  | step {s s' t : State} {canceled : Bool} (hb : s.Inside callers lo hi) (hs : s.step m canceled = .running s')
      (h : Stays m callers lo hi s' t) : Stays m callers lo hi s t

/-- Once the call is no more between two positions, it is as `Q` says. -/
def Machine.After (m : Machine) (mc : MethodCode) (callers : Outer) (lo hi : Nat) (Q : Spot → State → Prop)
    (s : State) : Prop :=
  ∀ t, m.Stays callers.frames lo hi s t → ¬t.Inside callers.frames lo hi → ∃ d, t.IsAt mc callers d ∧ Q d t

theorem Machine.Reaches.stays {m : Machine} {entry : String} {callers : List Frame} {lo hi : Nat} {s t : State}
    (hs : m.Reaches entry s) (h : m.Stays callers lo hi s t) : m.Reaches entry t := by
  induction h with
  | refl => exact hs
  | step _ hstep _ ih => exact ih (.step hs hstep)

theorem State.Inside.before {callers : List Frame} {lo hi : Nat} {s : State} (h : s.Inside callers lo hi) :
    s.Before callers hi := by
  obtain ⟨inner, f, hs, hpc⟩ := h
  exact ⟨inner, f, hs, fun hi => Nat.ne_of_lt (hpc hi).2⟩

theorem State.IsAt.inside_iff {mc : MethodCode} {callers : Outer} {c : Spot} {lo hi : Nat} {s : State}
    (h : s.IsAt mc callers c) : s.Inside callers.frames lo hi ↔ lo ≤ c.pc ∧ c.pc < hi := by
  obtain ⟨f, ⟨-, hpc, -⟩, rfl⟩ := h
  constructor
  · rintro ⟨inner, g, hframes, hin⟩
    obtain rfl : inner = [] := by
      have hlen := congrArg List.length hframes
      simp only [List.length_cons, List.length_append] at hlen
      exact List.eq_nil_of_length_eq_zero (by omega)
    obtain ⟨rfl, -⟩ := List.cons.inj hframes
    exact hpc ▸ hin rfl
  · intro hc
    exact ⟨[], f, rfl, fun _ => hpc ▸ hc⟩

theorem State.not_inside_of_length_le {callers : List Frame} {lo hi : Nat} {s : State}
    (h : s.frames.length ≤ callers.length) : ¬s.Inside callers lo hi := by
  rintro ⟨inner, f, hframes, -⟩
  simp only [hframes, List.length_append, List.length_cons] at h
  omega

section

variable {m : Machine} {mc : MethodCode} {callers : Outer} {c : Spot} {D : Set Nat} {depth : Nat → Nat}
  {own : Int → Prop} {n length : Nat} {T : Targets Nat} {code : List Instr} {s t : State}

/-- The call has been in some code until a jump in it went to a label around it. -/
inductive Machine.JumpsOut (m : Machine) (mc : MethodCode) (callers : Outer) (T : Targets Nat) (c : Spot) (D : Set Nat)
    (own : Int → Prop) (code : List Instr) (s t : State) : Prop
  | intro {r : State} {canceled : Bool} {b d : Spot} {j : Nat} {i : Instr} {test : Jump} {l : String} {more : List Value}
      (stays : m.Stays callers.frames c.pc (c.pc + code.length) s r) (before : r.IsAt mc callers b)
      (inside : b.pc = c.pc + j) (jumps : code[j]? = some i) (op : i.op = .jump test l)
      (leaves : r.step m canceled = .running t) (after : t.IsAt mc callers d) (target : T l more.length)
      (label : mc.code.labelOffset? l = some d.pc) (goes : c.Goes D own more d) : JumpsOut m mc callers T c D own code s t

/-- The call that is in some code keeps the slots that are not the code's own. -/
theorem Held.kept {waits : Bool} {fs : List Frame} (h : Held mc callers c D length depth own n waits fs) :
    ∃ inner f, fs = inner ++ f :: callers.frames ∧ (inner = [] → c.pc ≤ f.pc ∧ f.pc ≤ c.pc + length) ∧
      ∀ i : Nat, ¬own i → f.locals[i]? = c.locals[i]? := by
  induction h with
  | @bottom g _ ws j _ _ pc inside _ _ _ _ same => exact ⟨[], g, rfl, fun _ => by omega, same⟩
  | @inner k _ _ _ _ ih =>
    obtain ⟨inner, f, rfl, -, hsame⟩ := ih
    exact ⟨k :: inner, f, rfl, fun hnil => absurd hnil (by simp), hsame⟩

/-- Where a call is that has been in the code since it was at its start: still in it or at its end, at a label
around it, or returned. -/
theorem Stretch.stays (hs : Stretch mc T c code depth own)
    (hT : ∀ l k j, T l k → mc.code.labelOffset? l = some j → j < c.pc ∨ c.pc + code.length ≤ j)
    (h : m.Stays callers.frames c.pc (c.pc + code.length) s t) (hkeeps : c.heap.Keeps D s.heap)
    (hf : Held mc callers c D code.length depth own s.heap.size false s.frames) :
    c.heap.Keeps D t.heap ∧ Held mc callers c D code.length depth own t.heap.size false t.frames ∨
      m.JumpsOut mc callers T c D own code s t ∨
      t.frames.length ≤ callers.frames.length ∧ ∃ i ∈ code, i.op = .ret ∨ i.op = .retRef := by
  induction h with
  | refl => exact .inl ⟨hkeeps, hf⟩
  | @step s s' t canceled hb hstep h ih =>
    obtain ⟨f, fs, hframes⟩ : ∃ f fs, s.frames = f :: fs := by
      obtain ⟨inner, f, hframes, -⟩ := hb
      cases inner with
      | nil => exact ⟨f, callers.frames, hframes⟩
      | cons k ks => exact ⟨k, ks ++ f :: callers.frames, hframes⟩
    obtain ⟨frames, heap, out⟩ := s
    obtain rfl : frames = f :: fs := hframes
    -- Once outside, the run does not go on.
    have hend : ¬s'.Inside callers.frames c.pc (c.pc + code.length) → t = s' := fun hout => by
      cases h with
      | refl => rfl
      | step hin => exact absurd hin hout
    obtain ⟨hkeeps', hf' | ⟨before, inside, jumps, op, after, target, label, goes⟩ | hleft⟩ :=
      hs.step hf hkeeps.hides hb.before (State.steps_of_running hstep)
    · rcases ih (hkeeps.trans hkeeps') hf' with hin | ⟨stays, before, inside, jumps, op, leaves, after, target, label, goes⟩ | hleft
      · exact .inl hin
      · exact .inr (.inl (.intro (.step hb hstep stays) before inside jumps op leaves after target label goes))
      · exact .inr (.inr hleft)
    · obtain rfl := hend fun hin => by
        have hd := after.inside_iff.1 hin
        have := hT _ _ _ target label
        omega
      exact .inr (.inl (.intro .refl before inside jumps op hstep after target label
        ⟨goes.stack, goes.clear, hkeeps.trans goes.keeps, goes.locals, goes.same⟩))
    · obtain rfl := hend (State.not_inside_of_length_le hleft.1)
      exact .inr (.inr hleft)

theorem Spot.Hidden.held (hc : c.Hidden D) (hstart : depth 0 = 0) (hsc : s.IsAt mc callers c) :
    c.heap.Keeps D s.heap ∧ Held mc callers c D length depth own s.heap.size false s.frames := by
  obtain ⟨f, ⟨hmethod, hpc, hstack, hlocals, hpushes⟩, rfl⟩ := hsc
  exact ⟨hc.heap.keeps, .bottom hmethod hpushes (j := 0) hpc (Nat.zero_le _) (show f.stack = [] ++ c.stack from hstack)
    (by simp [hstart]) (List.forall_mem_nil _) (hlocals ▸ hc.locals) fun i _ => by rw [hlocals]⟩

/-- While the call is in the code it keeps the slots that are not the code's own. -/
theorem Stretch.keeps (hs : Stretch mc T c code depth own)
    (hT : ∀ l k j, T l k → mc.code.labelOffset? l = some j → j < c.pc ∨ c.pc + code.length ≤ j)
    (hstart : depth 0 = 0) (hc : c.Hidden D) (hsc : s.IsAt mc callers c)
    (h : m.Stays callers.frames c.pc (c.pc + code.length) s t) (ht : t.Inside callers.frames c.pc (c.pc + code.length)) :
    ∃ inner f, t.frames = inner ++ f :: callers.frames ∧ ∀ i : Nat, ¬own i → f.locals[i]? = c.locals[i]? := by
  obtain ⟨hkeeps, hf⟩ : c.heap.Keeps D s.heap ∧ Held mc callers c D code.length depth own s.heap.size false s.frames :=
    hc.held hstart hsc
  rcases hs.stays hT h hkeeps hf with ⟨-, hf⟩ | ⟨-, -, -, -, -, -, after, target, label, -⟩ | ⟨hle, -⟩
  · obtain ⟨inner, f, hframes, -, hsame⟩ := hf.kept
    exact ⟨inner, f, hframes, hsame⟩
  · have hd := after.inside_iff.1 ht
    have := hT _ _ _ target label
    omega
  · exact absurd ht (State.not_inside_of_length_le hle)

/-- Where the call is once it is no more in the code. -/
theorem Stretch.exits (hs : Stretch mc T c code depth own)
    (hT : ∀ l k j, T l k → mc.code.labelOffset? l = some j → j < c.pc ∨ c.pc + code.length ≤ j)
    (hstart : depth 0 = 0) (hc : c.Hidden D) (hsc : s.IsAt mc callers c)
    (h : m.Stays callers.frames c.pc (c.pc + code.length) s t)
    (ht : ¬t.Inside callers.frames c.pc (c.pc + code.length)) :
    (∃ d more, t.IsAt mc callers d ∧ c.Goes D own more d ∧ d.pc = c.pc + code.length ∧ more.length = depth code.length) ∨
      m.JumpsOut mc callers T c D own code s t ∨
      t.frames.length ≤ callers.frames.length ∧ ∃ i ∈ code, i.op = .ret ∨ i.op = .retRef := by
  obtain ⟨hkeeps, hf⟩ : c.heap.Keeps D s.heap ∧ Held mc callers c D code.length depth own s.heap.size false s.frames :=
    hc.held hstart hsc
  rcases hs.stays hT h hkeeps hf with ⟨hkeeps, hf⟩ | hleft
  · obtain ⟨inner, f, hframes, hpc, -⟩ := hf.kept
    obtain rfl : inner = [] := by
      by_contra hne
      exact ht ⟨inner, f, hframes, fun hnil => absurd hnil hne⟩
    obtain ⟨frames, heap, out⟩ := t
    obtain rfl : frames = f :: callers.frames := hframes
    obtain ⟨j, hj, hjpc, ⟨ws, hws, hcount, hclear⟩, hmethod, hpushes, hlocals, hsame⟩ := hf.innermost
    obtain rfl : j = code.length := by
      by_contra hne
      exact ht ⟨[], f, rfl, fun _ => by omega⟩
    exact .inl ⟨⟨f.pc, f.stack, f.locals, heap, out⟩, ws, ⟨f, ⟨hmethod, rfl, rfl, rfl, hpushes⟩, rfl⟩,
      ⟨hws, hclear, hkeeps, hlocals, hsame⟩, hjpc, hcount⟩
  · exact .inr hleft

end

/-- No operation in the code of an expression leaves the call. -/
theorem Emits.stays_of_expr {ctx : Context} {e : Expr} {u u' : Supply} {code : List Instr} {sp : List Span}
    (he : Emits ctx (.expr e) u code u' sp) {i : Instr} (hi : i ∈ code) : i.op ≠ .ret ∧ i.op ≠ .retRef := by
  obtain ⟨j, hj⟩ := List.mem_iff_getElem?.1 hi
  have hnone : i.op.isReturn = false := by
    by_contra hret
    obtain ⟨x, hx, loop, t, v, hpiece, -⟩ := he.returnSite hj (by simpa using hret)
    have hmem : Stmt.ret t v ∈ sp.filterMap Span.stmt? :=
      List.mem_filterMap.2 ⟨x, hx, by rw [Span.stmt?, hpiece]; rfl⟩
    rw [he.substatements] at hmem
    simp [Piece.substatements] at hmem
  constructor <;> intro hop <;> simp [hop, Op.isReturn] at hnone

/-- The code of an expression is left at its end, with one more value. -/
theorem Machine.After.part {m : Machine} {mc : MethodCode} {callers : Outer} {ctx : Context} {D : Set Nat} {e : Expr}
    {u u' : Supply} {code : List Instr} {sp : List Span} {c : Spot} {s : State} (he : Emits ctx (.expr e) u code u' sp)
    (hclean : (Piece.expr e).Clean ctx)
    (hn : ∀ cls, argCount (ctx.table.constructorDescriptor cls) = (ctx.table.constructorParams cls).length)
    (hl : LabelsOnce mc.code) (hc : c.Hidden D) (hat : CodeAt mc.code c.pc code) (hs : s.IsAt mc callers c) :
    m.After mc callers c.pc (c.pc + code.length) (fun d _ => d.pc = c.pc + code.length ∧
      ∃ v, c.Goes D (OwnSlot ctx.method.slotCount u u') [v] d) s := by
  intro t ht hout
  obtain ⟨depth, hstart, hend, htraced, -⟩ :=
    (depthFlow_sound hn).holds he (T := fun _ _ => False) (a := 0) (b := 1) ⟨hclean, rfl⟩
  have hstretch : Stretch mc (fun _ _ => False) c code depth (OwnSlot ctx.method.slotCount u u') :=
    ⟨hat, hl, htraced, he.slots⟩
  rcases hstretch.exits (fun _ _ _ hfalse => hfalse.elim) hstart hc hs ht hout with
    ⟨d, more, hd, hgoes, hpc, hcount⟩ | ⟨-, -, -, -, -, -, -, hfalse, -, -⟩ | ⟨-, i, hi, hret⟩
  · obtain ⟨v, rfl⟩ := List.length_eq_one_iff.1 (hcount.trans hend)
    exact ⟨d, hd, hpc, v, hgoes⟩
  · exact hfalse.elim
  · have := he.stays_of_expr hi
    simp_all

theorem Machine.Reaches.fits {m : Machine} {depth : MethodCode → Nat → Nat} (hD : m.Depths depth) {entry : String}
    {s : State} (hs : m.Reaches entry s) : StacksFit m depth 0 s.frames := by
  induction hs with
  | start h => exact m.start_fits hD h
  | @step s s' canceled h hstep ih =>
    have hfits := State.step_fits hD canceled ih
    rw [hstep] at hfits
    exact hfits

theorem Machine.Reaches.slots {m : Machine} {o : CompileOptions} (hm : ∀ mc, m.HasMethod mc → ∃ n, FrameOf o n mc)
    {entry : String} {mc : MethodCode} {callers : Outer} {s : State} {c : Spot} (hs : m.Reaches entry s)
    (hc : s.IsAt mc callers c) {pc : Nat} {op : Op} (hop : OpAt mc.code pc op) {n : Nat} (hn : op.slot? = some (n : Int)) :
    n < c.locals.size := by
  choose! need hframe using hm
  choose! depth hD hgreatest using fun mc h => (hframe mc h).stack
  obtain ⟨f, ⟨hmethod, -, -, hlocals, -⟩, rfl⟩ := hc
  obtain ⟨⟨hmc, hsize, -⟩, -⟩ := hs.fits hD
  rw [hmethod] at hmc hsize
  obtain ⟨line, hline⟩ := hop
  have hmem : (⟨op, line⟩ : Instr) ∈ mc.code.toList := Array.mem_toList_iff.2 (Array.mem_of_getElem? hline)
  have hslot := (hframe mc hmc).slots n (List.mem_filterMap.2 ⟨op, List.mem_map_of_mem hmem, hn⟩)
  have hlocals' : f.locals = c.locals := hlocals
  rw [hlocals'] at hsize
  omega

end ClassCompiler
