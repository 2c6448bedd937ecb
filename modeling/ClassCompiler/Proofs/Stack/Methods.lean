import ClassCompiler.Proofs.Stack.Depth
import ClassCompiler.Proofs.Compile.Methods
import ClassCompiler.Proofs.Compile.Spans
import ClassCompiler.Proofs.Code.Descriptor
import Mathlib.Data.List.Forall2

namespace ClassCompiler

/-- One depth for each position of some code that fits along all edges. -/
structure Balanced (code : Code) (depth : Nat → Nat) : Prop where
  entry : depth 0 = 0
  enough {j : Nat} {i : Instr} (h : code[j]? = some i) : i.op.pops ≤ depth j
  falls {j : Nat} {i : Instr} (h : code[j]? = some i) (hf : i.op.isFinal = false) :
    depth (j + 1) = depth j - i.op.pops + i.op.pushes
  jumps {j : Nat} {i : Instr} {test : Jump} {l : String} (h : code[j]? = some i) (hj : i.op = .jump test l) :
    ∃ k, code.labelOffset? l = some k ∧ depth k = depth j - test.pops

/-- The depths fit the statements and the expressions of a body: statements stand at depth zero and an
expression adds one value. -/
structure Disciplined (ctx : Context) (body : List Stmt) (code : Code) (depth : Nat → Nat)
    (spans : List Span) : Prop where
  balanced : Balanced code depth
  exprs : spans.filterMap Span.expr? = Stmt.evaluatedAll body
  stmts : spans.filterMap Span.stmt? = Stmt.substatementsOfAll body
  covers : ∀ x ∈ spans, x.Covers ctx code.toList
  expr_adds_one : ∀ x ∈ spans, x.expr?.isSome → depth (x.start + x.length) = depth x.start + 1
  stmt_adds_none : ∀ x ∈ spans, x.stmt?.isSome → depth x.start = 0 ∧ depth (x.start + x.length) = 0

mutual

theorem Depth.path_defaultValue (t : Ty) {T : Targets Nat} {own : String → Option Nat} {a b : Nat} :
    depthFlow.Path T own (defaultValue t) a b ↔ b = a + 1 := by
  match t with
  | .int | .bool | .string | .null | .void | .noType | .cls _ | .fptr _ _ =>
    simp [defaultValue, Flow.Path, Flow.Step, depthFlow_falls, Op.isFinal, Op.pops, Op.pushes]
  | .list es =>
    simp [defaultValue, newArrayList, Flow.path_append, Flow.Path, Flow.Step, depthFlow_falls, Op.isFinal,
      Op.pops, Op.pushes, Depth.path_defaultElements es, NativeConstructor.arity]

theorem Depth.path_defaultElements (es : List (String × Ty)) {T : Targets Nat}
    {own : String → Option Nat} {a b : Nat} :
    depthFlow.Path T own (defaultElements es) (a + 1) b ↔ b = a + 1 := by
  match es with
  | [] => simp [defaultElements, Flow.Path]
  | (_, t) :: es =>
    simp [defaultElements, addElement, Flow.path_append, Flow.Path, Flow.Step, depthFlow_falls, Op.isFinal,
      Op.pops, Op.pushes, Depth.path_defaultValue t, Depth.path_defaultElements es, NativeMethod.arity,
      NativeMethod.answers]

end

section

variable {K : Claim Nat} {T : Targets Nat}

theorem ClassDecl.depth_prologue (c : ClassDecl) (line : Int) :
    depthFlow.Admits K T (c.prologue line) [] 0 0 := by
  have hf : ∀ fs : List VarDecl, depthFlow.Path T (fun _ => none) (fs.flatMap c.fieldDefault) 0 0 := by
    intro fs
    induction fs with
    | nil => rfl
    | cons f fs ih =>
      rw [List.flatMap_cons, Flow.path_append]
      exact ⟨0, by simp [ClassDecl.fieldDefault, Flow.path_append, Flow.Path, Flow.Step, depthFlow_falls,
        Depth.path_defaultValue, Op.isFinal, Op.pops, Op.pushes], ih⟩
  have hp : depthFlow.Path T (fun _ => none)
      ([.load .ref 0, .invokeSpecial ⟨c.superName, initName, "()V"⟩] ++ c.fields.flatMap c.fieldDefault) 0 0 :=
    Flow.path_append.2 ⟨0, by simp [Flow.Path, Flow.Step, depthFlow_falls, Op.isFinal, Op.pops, Op.pushes],
      hf c.fields⟩
  exact hp.admits line

theorem MethodDecl.depth_localDefaults (m : MethodDecl) :
    depthFlow.Admits K T m.localDefaults [] 0 0 := by
  unfold MethodDecl.localDefaults
  induction m.locals with
  | nil => exact Flow.admits_nil
  | cons v vs ih =>
    have hv : depthFlow.Path T (fun _ => none) (defaultValue v.type ++ [.store .ref (m.localSlot v)]) 0 0 := by
      simp [Flow.path_append, Flow.Path, Flow.Step, depthFlow_falls, Depth.path_defaultValue, Op.isFinal,
        Op.pops, Op.pushes]
    exact (hv.admits _).append ih

theorem depth_ret (line : Int) : depthFlow.Admits K T (onLine line [.ret]) [] 0 0 := by
  have hp : depthFlow.Path T (fun _ => none) [.ret] 0 0 := by
    simp [Flow.Path, Flow.Step, depthFlow_falls, Op.isFinal, Op.pops]
  exact hp.admits line

end

theorem Balanced.of_traced {code : List Instr} {depth : Nat → Nat} (h0 : depth 0 = 0)
    (hl : ∀ l, labelCount code l ≤ 1) (h : depthFlow.Traced (fun _ _ => False) code depth) :
    Balanced code.toArray depth := by
  refine ⟨h0, fun {j i} hi => ?_, fun {j i} hi hf => ?_, fun {j i test l} hi hj => ?_⟩
  · exact (h j i (by simpa using hi)).1.1
  · exact (h j i (by simpa using hi)).1.2 hf
  · obtain ⟨x, hx, ht⟩ := (h j i (by simpa using hi)).2 test l hj
    rcases ht with ht | ⟨k, hk, rfl⟩
    · exact ht.elim
    · exact ⟨k, labelOffset?_of_labelAt (hl l) hk, hx⟩

theorem Flow.Admits.balanced {K : Claim Nat} {code : List Instr} {sp : List Span} {b : Nat}
    (h : depthFlow.Admits K (fun _ _ => False) code sp 0 b) (hl : ∀ l, labelCount code l ≤ 1) :
    ∃ depth, Balanced code.toArray depth := by
  obtain ⟨st, h0, -, ht, -⟩ := h
  exact ⟨st, Balanced.of_traced h0 hl ht⟩

/-- The code of a body, after code that leaves the stack empty. -/
theorem BodyCode.disciplined {p : Program} {c : ClassDecl} {m : MethodDecl} {code : List Instr}
    (b : BodyCode p c m code) (start : List Instr) (hw : p.Written) (hm : m.BodyClean p c.name.name)
    (hs : depthFlow.Admits (depthClaim ⟨p, c.name.name, m⟩) (fun _ _ => False) start [] 0 0)
    (hl : ∀ l, labelCount start l = 0) :
    ∃ depth spans, Disciplined ⟨p, c.name.name, m⟩ m.body (start ++ code).toArray depth spans := by
  let ctx : Context := ⟨p, c.name.name, m⟩
  have hsound : depthFlow.Sound ctx (depthClaim ctx) := depthFlow_sound hw.argCount_constructorDescriptor
  have hbody : depthFlow.Admits (depthClaim ctx) (fun _ _ => False) b.stmts b.spans 0 0 :=
    hsound.holds b.emits ⟨hm.body, by simp⟩
  have hend : depthFlow.Admits (depthClaim ctx) (fun _ _ => False)
      (if m.endsWithReturn then [] else onLine m.token.pos.line [.ret]) [] 0 0 := by
    split
    · exact Flow.admits_nil
    · exact depth_ret _
  have hall := hs.append ((m.depth_localDefaults.append hbody).append hend)
  rw [← b.code_eq] at hall
  simp only [List.map_nil, List.nil_append, List.append_nil, List.map_map] at hall
  obtain ⟨st, h0, -, ht, hsp⟩ := hall
  refine ⟨st, b.spansAfter start, Balanced.of_traced h0 (b.labelCount_le_one hl) ht, ?_, ?_,
    b.covers_spansAfter start, ?_, ?_⟩
  · rw [b.filterMap_spansAfter start Span.shift_expr?]
    exact b.emits.evaluated
  · rw [b.filterMap_spansAfter start Span.shift_stmt?]
    exact b.emits.substatements
  · intro x hx he
    obtain ⟨-, T, hk⟩ := hsp x hx
    unfold Span.expr? at he
    cases hp : x.piece <;> simp_all [Piece.expr?, depthClaim]
  · intro x hx he
    obtain ⟨-, T, hk⟩ := hsp x hx
    unfold Span.stmt? at he
    cases hp : x.piece <;> simp_all [Piece.stmt?, depthClaim]

theorem ClassDecl.defaultConstructor_balanced (o : CompileOptions) (c : ClassDecl) :
    ∃ depth, Balanced (c.defaultConstructor o).code depth := by
  have h := (c.depth_prologue (K := fun _ _ _ _ _ => True) (T := fun _ _ => False) c.token.pos.line).append
    (depth_ret c.token.pos.line)
  refine h.balanced fun l => ?_
  simp [c.labelCount_prologue]

theorem ClassDecl.entryCode_balanced (c : ClassDecl) : ∃ depth, Balanced c.entryCode.toArray depth := by
  have hp : depthFlow.Path (fun _ _ => False) (fun _ => none)
      [.new c.name.name, .invokeSpecial ⟨c.name.name, initName, "()V"⟩, .ret] 0 0 := by
    simp [Flow.Path, Flow.Step, depthFlow_falls, Op.isFinal, Op.pops, Op.pushes]
  refine (hp.admits (K := fun _ _ _ _ _ => True) c.token.pos.line).balanced fun l => ?_
  simp

/-- The methods of a class file are those made for the class and one for each of its bodies. -/
def FileDisciplined (p : Program) (c : ClassDecl) (f : ClassFile) : Prop :=
  ∃ made bodies, f.methods = made ++ bodies ∧
    (∀ mc ∈ made, ∃ depth, Balanced mc.code depth) ∧
    List.Forall₂ (fun m mc => ∃ depth spans,
      Disciplined ⟨p, c.name.name, m⟩ m.body mc.code depth spans) c.bodies bodies

section

variable {o : CompileOptions} {p : Program} {c : ClassDecl} {m : MethodDecl}

theorem MethodOf.disciplined {mc : MethodCode} (h : MethodOf o p c m mc) (hw : p.Written)
    (hm : m.BodyClean p c.name.name) :
    ∃ depth spans, Disciplined ⟨p, c.name.name, m⟩ m.body mc.code depth spans := by
  obtain ⟨code, ⟨b, -⟩, rfl⟩ := h
  exact b.disciplined [] hw hm Flow.admits_nil fun _ => rfl

theorem ConstructorOf.disciplined {mc : MethodCode} (h : ConstructorOf o p c m mc) (hw : p.Written)
    (hm : m.BodyClean p c.name.name) :
    ∃ depth spans, Disciplined ⟨p, c.name.name, m⟩ m.body mc.code depth spans := by
  obtain ⟨code, ⟨b, -⟩, rfl⟩ := h
  exact b.disciplined _ hw hm (c.depth_prologue _) (c.labelCount_prologue _)

theorem ConstructorsOf.disciplined {ks : List MethodCode} (h : ConstructorsOf o p c ks) (hw : p.Written)
    (hc : c.MembersClean p) :
    ∃ made bodies, ks = made ++ bodies ∧ (∀ mc ∈ made, ∃ depth, Balanced mc.code depth) ∧
      List.Forall₂ (fun m mc => ∃ depth spans,
        Disciplined ⟨p, c.name.name, m⟩ m.body mc.code depth spans) c.constructor.toList bodies := by
  cases h with
  | none hn =>
    refine ⟨[c.defaultConstructor o], [], by simp, ?_, by simp [hn]⟩
    simpa using c.defaultConstructor_balanced o
  | plain hk _ h =>
    refine ⟨[], _, rfl, by simp, ?_⟩
    simpa [hk] using h.disciplined hw (hc.constructor _ hk).2
  | withArgs hk _ h =>
    refine ⟨[c.defaultConstructor o], _, rfl, ?_, ?_⟩
    · simpa using c.defaultConstructor_balanced o
    · simpa [hk] using h.disciplined hw (hc.constructor _ hk).2

theorem ClassDecl.entryPoint_balanced (o : CompileOptions) (c : ClassDecl) :
    ∀ mc ∈ c.entryPoint o, ∃ depth, Balanced mc.code depth := by
  unfold ClassDecl.entryPoint
  split
  · intro mc hmc
    obtain rfl := List.mem_singleton.1 hmc
    exact c.entryCode_balanced
  · simp

theorem FileOf.disciplined {f : ClassFile} (h : FileOf o p c f) (hw : p.Written) (hc : c.MembersClean p) :
    FileDisciplined p c f := by
  obtain ⟨ks, ms, hk, hm, he⟩ := h.methods
  obtain ⟨made, bodies, rfl, hmade, hbodies⟩ := hk.disciplined hw hc
  refine ⟨c.entryPoint o ++ made, bodies ++ ms, by rw [he]; simp, fun mc hmc => ?_, ?_⟩
  · rcases List.mem_append.1 hmc with hmc | hmc
    · exact c.entryPoint_balanced o mc hmc
    · exact hmade mc hmc
  · exact List.rel_append hbodies
      (forall₂_imp_mem hm fun m hmem _ h => h.disciplined hw (hc.methods m hmem).toBodyClean)

end

end ClassCompiler
