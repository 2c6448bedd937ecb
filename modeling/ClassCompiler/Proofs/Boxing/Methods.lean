import ClassCompiler.Proofs.Boxing.Bodies
import ClassCompiler.Proofs.Compile.Spans
import ClassCompiler.Proofs.Code.Descriptor
import ClassCompiler.Proofs.Stack.Slots

namespace ClassCompiler

/-- States for all positions of some code that fit along all its edges. -/
structure Flow.Solves {σ : Type} (A : Flow σ) (code : Code) (st : Nat → σ) : Prop where
  falls {j : Nat} {i : Instr} (h : code[j]? = some i) : A.falls i.op (st j) (st (j + 1))
  jumps {j : Nat} {i : Instr} {test : Jump} {l : String} (h : code[j]? = some i) (hj : i.op = .jump test l) :
    ∃ k, code.labelOffset? l = some k ∧ A.jumps test (st j) (st k)

theorem Flow.Traced.solves {σ : Type} {A : Flow σ} {code : List Instr} {st : Nat → σ}
    (h : A.Traced (fun _ _ => False) code st) (hl : ∀ l, labelCount code l ≤ 1) : A.Solves code.toArray st := by
  refine ⟨fun {j i} hi => (h j i (by simpa using hi)).1, fun {j i test l} hi hj => ?_⟩
  obtain ⟨x, hx, hT | ⟨k, hk, rfl⟩⟩ := (h j i (by simpa using hi)).2 test l hj
  · exact hT.elim
  · exact ⟨k, labelOffset?_of_labelAt (hl l) hk, hx⟩

/-- A call starts with an empty stack, and nothing is known of the slots that its code takes. -/
def Kinds.start : Kinds := ⟨[], fun _ => none⟩

/-- The kinds in code whose first `count` slots are those of the receiver, the parameters and the locals. -/
structure Kinded (count : Nat) (code : Code) (st : Nat → Kinds) : Prop extends
    (kindFlow count).Solves code st where
  entry : st 0 = .start

/-- The kinds in the code of a body: each expression leaves a value of the kind of its type. -/
structure BodyKinded (ctx : Context) (code : Code) (st : Nat → Kinds) (spans : List Span) : Prop extends
    Kinded ctx.method.slotCount code st where
  exprs : spans.filterMap Span.expr? = Stmt.evaluatedAll ctx.method.body
  covers : ∀ x ∈ spans, x.Covers ctx code.toList
  expr_kind : ∀ x ∈ spans, ∀ e, x.expr? = some e →
    st (x.start + x.length) = (st x.start).push (ctx.typeOf e).kind

section

variable {K : Claim Kinds} {T : Targets Kinds} {count : Nat} {τ : Nat → Option Kind} {c : ClassDecl}
  {m : MethodDecl}

theorem admits_of_afterAll {os : List Op} {a b : Kinds} (h : a.afterAll count os = some b) (line : Int) :
    (kindFlow count).Admits K T (onLine line os) [] a b :=
  (path_of_afterAll (fun _ => none) h (Kinds.le_refl b) fun _ => rfl).admits line

theorem ClassDecl.kinds_prologue (c : ClassDecl) (hc : 0 < count) (line : Int) :
    (kindFlow count).Admits K T (c.prologue line) [] .start .start := by
  have hf : ∀ fs : List VarDecl, Kinds.afterAll count .start (fs.flatMap c.fieldDefault) = some .start := by
    intro fs
    induction fs with
    | nil => rfl
    | cons f fs ih =>
      have hone : Kinds.afterAll count .start (c.fieldDefault f) = some .start := by
        simp [ClassDecl.fieldDefault, Kinds.start, Kinds.slot_user hc, Kinds.afterAll_append]
      rw [List.flatMap_cons, Kinds.afterAll_append, hone]
      exact ih
  refine admits_of_afterAll ?_ line
  rw [Kinds.afterAll_append]
  have hsuper : Kinds.afterAll count .start [.load .ref 0, .invokeSpecial ⟨c.superName, initName, "()V"⟩] =
      some .start := by
    simp [Kinds.start, Kinds.slot_user hc]
  rw [hsuper]
  exact hf c.fields

theorem MethodDecl.kinds_localDefaults (m : MethodDecl) :
    (kindFlow m.slotCount).Admits K T m.localDefaults [] .start .start := by
  unfold MethodDecl.localDefaults
  induction m.locals with
  | nil => exact Flow.admits_nil
  | cons v vs ih =>
    have hv : Kinds.afterAll m.slotCount .start (defaultValue v.type ++ [.store .ref (m.localSlot v)]) =
        some .start := by
      simp [Kinds.start, Kinds.afterAll_append, m.localSlot_lt v]
    exact (admits_of_afterAll hv _).append ih

theorem kinds_ret {a : Kinds} (line : Int) : (kindFlow count).Admits K T (onLine line [.ret]) [] a a :=
  (path_ret fun _ => none).admits line

end

theorem Flow.Admits.kinded {K : Claim Kinds} {count : Nat} {code : List Instr} {sp : List Span} {b : Kinds}
    (h : (kindFlow count).Admits K (fun _ _ => False) code sp .start b) (hl : ∀ l, labelCount code l ≤ 1) :
    ∃ st, Kinded count code.toArray st := by
  obtain ⟨st, h0, -, ht, -⟩ := h
  exact ⟨st, ht.solves hl, h0⟩

section

variable {o : CompileOptions} {p : Program} {c : ClassDecl} {m : MethodDecl}

/-- The code of a body, after code that keeps to the same kinds. -/
theorem BodyCode.kinded {code : List Instr} (b : BodyCode p c m code) (start : List Instr) (hw : p.Written)
    (hm : m.Admitted p c.name.name)
    (hs : (kindFlow m.slotCount).Admits (kindClaim ⟨p, c.name.name, m⟩) (fun _ _ => False) start [] .start .start)
    (hl : ∀ l, labelCount start l = 0) :
    ∃ st spans, BodyKinded ⟨p, c.name.name, m⟩ (start ++ code).toArray st spans := by
  let ctx : Context := ⟨p, c.name.name, m⟩
  have hbody : (kindFlow m.slotCount).Admits (kindClaim ctx) (fun _ _ => False) b.stmts b.spans .start .start :=
    (kindFlow_sound hm.known hw.argCount_constructorDescriptor).holds b.emits
      ⟨hm.piece, Nat.le_refl _, fun _ _ => rfl, rfl, by simp [LoopEnters]⟩
  have hend : (kindFlow m.slotCount).Admits (kindClaim ctx) (fun _ _ => False)
      (if m.endsWithReturn then [] else onLine m.token.pos.line [.ret]) [] .start .start := by
    split
    · exact Flow.admits_nil
    · exact kinds_ret _
  have hall := hs.append ((m.kinds_localDefaults.append hbody).append hend)
  rw [← b.code_eq] at hall
  simp only [List.map_nil, List.nil_append, List.append_nil, List.map_map] at hall
  obtain ⟨st, h0, -, ht, hsp⟩ := hall
  refine ⟨st, b.spansAfter start, ⟨ht.solves (b.labelCount_le_one hl), h0⟩, ?_, b.covers_spansAfter start, ?_⟩
  · rw [b.filterMap_spansAfter start Span.shift_expr?]
    exact b.emits.evaluated
  · intro x hx e he
    obtain ⟨-, T, -, -, -, hk⟩ := hsp x hx
    obtain ⟨piece, before, first, length⟩ := x
    cases piece <;> simp_all [Span.expr?, Piece.expr?]

def CodeFor (o : CompileOptions) (p : Program) (c : ClassDecl) (m : MethodDecl) (mc : MethodCode) : Prop :=
  MethodOf o p c m mc ∨ ConstructorOf o p c m mc

theorem CodeFor.kinded {mc : MethodCode} (h : CodeFor o p c m mc) (hw : p.Written) (hm : m.Admitted p c.name.name) :
    ∃ st spans, BodyKinded ⟨p, c.name.name, m⟩ mc.code st spans := by
  rcases h with ⟨code, ⟨b, -⟩, rfl⟩ | ⟨code, ⟨b, -⟩, rfl⟩
  · exact b.kinded [] hw hm Flow.admits_nil fun _ => rfl
  · exact b.kinded _ hw hm (c.kinds_prologue m.slotCount_pos _) (c.labelCount_prologue _)

/-- A method that a class gets without a body of its own. -/
def Made (o : CompileOptions) (c : ClassDecl) (mc : MethodCode) : Prop :=
  mc = c.defaultConstructor o ∨ mc ∈ c.entryPoint o

/-- No slot of such a method ever holds a raw number. -/
theorem Made.kinded {mc : MethodCode} (h : Made o c mc) {count : Nat} (hc : 0 < count) :
    ∃ st, Kinded count mc.code st := by
  rcases h with rfl | h
  · have hcode := (c.kinds_prologue (K := fun _ _ _ _ _ => True) (T := fun _ _ => False) hc c.token.pos.line).append
      (kinds_ret c.token.pos.line)
    exact hcode.kinded fun l => by simp [c.labelCount_prologue]
  · unfold ClassDecl.entryPoint at h
    split at h
    · obtain rfl := List.mem_singleton.1 h
      have hcreate : Kinds.afterAll count .start [.new c.name.name, .invokeSpecial ⟨c.name.name, initName, "()V"⟩] =
          some .start := by simp [Kinds.start]
      have hcode := (admits_of_afterAll (K := fun _ _ _ _ _ => True) (T := fun _ _ => False) hcreate
        c.token.pos.line).append (kinds_ret c.token.pos.line)
      exact hcode.kinded fun l => by simp
    · cases h

/-- Every method of a file was made for the class or comes from one of its bodies. -/
theorem FileOf.origin {f : ClassFile} (h : FileOf o p c f) {mc : MethodCode} (hmc : mc ∈ f.methods) :
    Made o c mc ∨ ∃ d ∈ c.bodies, CodeFor o p c d mc := by
  obtain ⟨ks, ms, hks, hms, hm⟩ := h.methods
  rw [hm, List.append_assoc, List.mem_append, List.mem_append] at hmc
  have hctor : ∀ {d mc}, c.constructor = some d → ConstructorOf o p c d mc → ∃ d ∈ c.bodies, CodeFor o p c d mc :=
    fun {d mc} hd hk => ⟨d, by simp [ClassDecl.bodies, hd], .inr hk⟩
  rcases hmc with hmc | hmc | hmc
  · exact .inl (.inr hmc)
  · cases hks with
    | none => exact .inl (.inl (List.mem_singleton.1 hmc))
    | plain hc _ hk =>
      obtain rfl := List.mem_singleton.1 hmc
      exact .inr (hctor hc hk)
    | withArgs hc _ hk =>
      rcases List.mem_cons.1 hmc with rfl | hmc
      · exact .inl (.inl rfl)
      · obtain rfl := List.mem_singleton.1 hmc
        exact .inr (hctor hc hk)
  · obtain ⟨d, hd, hcode⟩ := exists_mem_of_forall₂ hms hmc
    exact .inr ⟨d, by simp [ClassDecl.bodies, hd], .inl hcode⟩

end

end ClassCompiler
