import Mathlib.Order.Bounds.Basic
import ClassCompiler.Proofs.Stack.Need
import ClassCompiler.Proofs.Stack.Underflow

namespace ClassCompiler

mutual

/-- How far the stack rises for the value that a variable of a type starts with. -/
def needOfDefault : Ty → Nat
  | .list es => max 4 (3 + needOfDefaults es)
  | _ => 1

def needOfDefaults : List (String × Ty) → Nat
  | [] => 0
  | (_, t) :: es => max (1 + needOfDefault t) (needOfDefaults es)

end

/-- How far the stack rises where a constructor sets the fields of its class. -/
def needOfFields : List VarDecl → Nat
  | [] => 0
  | f :: fs => max (1 + needOfDefault f.type) (needOfFields fs)

/-- How far the stack rises where a method sets its locals. -/
def needOfLocals : List VarDecl → Nat
  | [] => 0
  | v :: vs => max (needOfDefault v.type) (needOfLocals vs)

namespace ClassDecl

/-- What the start of a constructor needs: the receiver, and the values of the fields. -/
def startNeed (c : ClassDecl) : Nat := max 1 (needOfFields c.fields)

def bodyNeed (p : Program) (c : ClassDecl) (m : MethodDecl) : Nat :=
  max (needOfLocals m.locals) (Context.needOfStmts ⟨p, c.name.name, m⟩ m.body)

def constructorNeeds (p : Program) (c : ClassDecl) : List Nat :=
  match c.constructor with
  | none => [c.startNeed]
  | some m => (if m.args.isEmpty then [] else [c.startNeed]) ++ [max c.startNeed (c.bodyNeed p m)]

/-- What the methods of the file of a class need of the operand stack, in their order. -/
def stackNeeds (o : CompileOptions) (p : Program) (c : ClassDecl) : List Nat :=
  (if c.name.name = o.entry then [1] else []) ++ c.constructorNeeds p ++ c.methods.map (c.bodyNeed p)

end ClassDecl

/-- Some code needs exactly so much of the operand stack: it is the greatest of its depths. -/
def NeedsStack (code : Code) (n : Nat) : Prop := ∃ depth, Balanced code depth ∧ IsGreatest (Set.range depth) n

theorem one_le_needOfDefault (t : Ty) : 1 ≤ needOfDefault t := by
  cases t <;> simp [needOfDefault]

mutual

theorem Peak.path_defaultValue (t : Ty) {T : Targets (Nat × Nat)} {own : String → Option (Nat × Nat)} {d k : Nat}
    {b : Nat × Nat} :
    peakFlow.Path T own (defaultValue t) (d, k) b ↔ b = (d + 1, max k (needOfDefault t) - 1) := by
  match t with
  | .int | .bool | .string | .null | .void | .noType | .cls _ | .fptr _ _ =>
    simp [defaultValue, needOfDefault, Peak.path_cons, Op.isFinal, Op.pops, Op.pushes]
    grind
  | .list es =>
    simp [defaultValue, needOfDefault, Flow.path_append, Peak.path_cons, Op.isFinal,
      Op.pops, Op.pushes, Peak.path_defaultElements es, NativeConstructor.arity]
    grind

theorem Peak.path_defaultElements (es : List (String × Ty)) {T : Targets (Nat × Nat)}
    {own : String → Option (Nat × Nat)} {d k : Nat} {b : Nat × Nat} :
    peakFlow.Path T own (defaultElements es) (d + 1, k) b ↔ b = (d + 1, max k (needOfDefaults es)) := by
  match es with
  | [] => simp [defaultElements, needOfDefaults]
  | (_, t) :: es =>
    have ht := one_le_needOfDefault t
    simp [defaultElements, needOfDefaults, Flow.path_append, Peak.path_cons, Op.isFinal, Op.pops, Op.pushes,
      Peak.path_defaultValue t, Peak.path_defaultElements es]
    grind

end

section

variable {K : Claim (Nat × Nat)} {T : Targets (Nat × Nat)} {k : Nat}

theorem ClassDecl.peak_prologue (c : ClassDecl) (line : Int) :
    peakFlow.Admits K T (c.prologue line) [] (0, k) (0, max k c.startNeed) := by
  have hfields : ∀ fs : List VarDecl, ∀ k, peakFlow.Path T (fun _ => none) (fs.flatMap c.fieldDefault) (0, k)
      (0, max k (needOfFields fs)) := by
    intro fs
    induction fs with
    | nil => simp [needOfFields]
    | cons f fs ih =>
      intro k
      have hf := one_le_needOfDefault f.type
      rw [List.flatMap_cons, Flow.path_append]
      refine ⟨(0, max k (1 + needOfDefault f.type)), ?_, by simpa [needOfFields] using ih (max k (1 + needOfDefault f.type))⟩
      simp [ClassDecl.fieldDefault, Flow.path_append, Peak.path_cons, Peak.path_defaultValue, Op.isFinal, Op.pops,
        Op.pushes]
      omega
  have hp : peakFlow.Path T (fun _ => none)
      ([.load .ref 0, .invokeSpecial ⟨c.superName, initName, "()V"⟩] ++ c.fields.flatMap c.fieldDefault) (0, k)
      (0, max k c.startNeed) := by
    refine Flow.path_append.2 ⟨(0, max k 1), ?_, by simpa [startNeed] using hfields c.fields (max k 1)⟩
    simp [Peak.path_cons, Op.isFinal, Op.pops, Op.pushes]
    omega
  exact hp.admits line

theorem MethodDecl.peak_localDefaults (m : MethodDecl) :
    peakFlow.Admits K T m.localDefaults [] (0, k) (0, max k (needOfLocals m.locals)) := by
  unfold MethodDecl.localDefaults
  generalize m.locals = vs
  induction vs generalizing k with
  | nil => simpa [needOfLocals] using Flow.admits_nil
  | cons v vs ih =>
    have hv := one_le_needOfDefault v.type
    have hp : peakFlow.Path T (fun _ => none) (defaultValue v.type ++ [.store .ref (m.localSlot v)]) (0, k)
        (0, max k (needOfDefault v.type)) := by
      simp [Flow.path_append, Peak.path_cons, Peak.path_defaultValue, Op.isFinal, Op.pops, Op.pushes]
      omega
    rw [List.flatMap_cons, needOfLocals, ← max_assoc]
    exact (hp.admits _).append ih

theorem peak_ret (line : Int) : peakFlow.Admits K T (onLine line [.ret]) [] (0, k) (0, k) := by
  have hp : peakFlow.Path T (fun _ => none) [.ret] (0, k) (0, k) := by
    simp [Peak.path_cons, Op.isFinal, Op.pops]
  exact hp.admits line

end

/-- The greatest depth up to a position is the depth there and what is missing to it. -/
theorem peak_greatest {T : Targets (Nat × Nat)} {code : List Instr} {st : Nat → Nat × Nat}
    (ht : peakFlow.Traced T code st) (h0 : st 0 = (0, 0)) {j : Nat} (hj : j ≤ code.length) :
    IsGreatest ((fun i => (st i).1) '' Set.Iic j) ((st j).1 + (st j).2) := by
  induction j with
  | zero =>
    refine ⟨⟨0, by simp, by simp [h0]⟩, ?_⟩
    rintro _ ⟨i, hi, rfl⟩
    obtain rfl : i = 0 := by simpa using hi
    simp [h0]
  | succ j ih =>
    obtain ⟨⟨i, hi, hpeak⟩, hle⟩ := ih (by omega)
    have hi' : code[j]? = some code[j] := List.getElem?_eq_getElem (by omega)
    have hnext := (ht j _ hi').1.2
    refine ⟨?_, ?_⟩
    · rcases le_total ((st j).1 + (st j).2) (st (j + 1)).1 with hc | hc
      · exact ⟨j + 1, by simp, by simp only; omega⟩
      · exact ⟨i, by simp at hi ⊢; omega, by simp only at hpeak ⊢; omega⟩
    · rintro _ ⟨i, hi, rfl⟩
      rcases Nat.lt_or_ge j i with hji | hji
      · obtain rfl : i = j + 1 := by simp at hi; omega
        simp only
        omega
      · have := hle ⟨i, hji, rfl⟩
        simp only at this ⊢
        omega

theorem Flow.Admits.needsStack {K : Claim (Nat × Nat)} {code : List Instr} {sp : List Span} {k : Nat}
    (h : peakFlow.Admits K (fun _ _ => False) code sp (0, 0) (0, k)) (hl : ∀ l, labelCount code l ≤ 1) :
    NeedsStack code.toArray k := by
  obtain ⟨st, h0, hn, ht, -⟩ := h
  have hgreatest := peak_greatest ht h0 le_rfl
  rw [hn, Nat.zero_add] at hgreatest
  -- Past the end of the code the depth stays what it is at the end.
  refine ⟨fun j => (st (min j code.length)).1, Balanced.of_traced (by simp [h0]) hl fun j i hi => ?_, ?_⟩
  · have hj : j < code.length := (List.getElem?_eq_some_iff.1 hi).1
    obtain ⟨hfalls, hjumps⟩ := ht j i hi
    rw [show min j code.length = j by omega, show min (j + 1) code.length = j + 1 by omega]
    refine ⟨hfalls.1, fun test l he => ?_⟩
    obtain ⟨x, hx, hT | ⟨p, hp, rfl⟩⟩ := hjumps test l he
    · exact hT.elim
    · obtain ⟨line, hline⟩ := hp
      have hplt : p < code.length := (List.getElem?_eq_some_iff.1 hline).1
      exact ⟨_, hx, .inr ⟨p, ⟨line, hline⟩, by rw [show min p code.length = p by omega]⟩⟩
  · convert hgreatest using 1
    ext d
    simp only [Set.mem_range, Set.mem_image, Set.mem_Iic]
    constructor
    · rintro ⟨j, rfl⟩
      exact ⟨_, Nat.min_le_right _ _, rfl⟩
    · rintro ⟨j, hj, rfl⟩
      exact ⟨j, by rw [show min j code.length = j by omega]⟩

section

variable {o : CompileOptions} {p : Program} {c : ClassDecl} {m : MethodDecl}

/-- The code of a body, after code that leaves the stack empty. -/
theorem BodyCode.needsStack {code start : List Instr} {k : Nat} (b : BodyCode p c m code) (hw : p.Written)
    (hm : m.BodyClean p c.name.name)
    (hs : peakFlow.Admits (peakClaim ⟨p, c.name.name, m⟩) (fun _ _ => False) start [] (0, 0) (0, k))
    (hl : ∀ l, labelCount start l = 0) : NeedsStack (start ++ code).toArray (max k (c.bodyNeed p m)) := by
  let ctx : Context := ⟨p, c.name.name, m⟩
  have hsound : peakFlow.Sound ctx (peakClaim ctx) := peakFlow_sound hw.argCount_constructorDescriptor
  have hbody : peakFlow.Admits (peakClaim ctx) (fun _ _ => False) b.stmts b.spans (0, max k (needOfLocals m.locals))
      (0, max k (c.bodyNeed p m)) := by
    refine hsound.holds b.emits ⟨⟨hm.body, by simp⟩, ?_⟩
    simp [ctx, Context.needOfPiece, ClassDecl.bodyNeed, max_assoc]
  have hend : peakFlow.Admits (peakClaim ctx) (fun _ _ => False)
      (if m.endsWithReturn then [] else onLine m.token.pos.line [.ret]) [] (0, max k (c.bodyNeed p m))
      (0, max k (c.bodyNeed p m)) := by
    split
    · exact Flow.admits_nil
    · exact peak_ret _
  have hall := hs.append ((m.peak_localDefaults.append hbody).append hend)
  rw [← b.code_eq] at hall
  exact hall.needsStack (b.labelCount_le_one hl)

theorem ClassDecl.defaultConstructor_needsStack (o : CompileOptions) (c : ClassDecl) :
    NeedsStack (c.defaultConstructor o).code c.startNeed := by
  have h := (c.peak_prologue (K := fun _ _ _ _ _ => True) (T := fun _ _ => False) (k := 0) c.token.pos.line).append
    (peak_ret c.token.pos.line)
  rw [Nat.zero_max] at h
  exact h.needsStack fun l => by simp [c.labelCount_prologue]

theorem ClassDecl.entryCode_needsStack (c : ClassDecl) : NeedsStack c.entryCode.toArray 1 := by
  have hp : peakFlow.Path (fun _ _ => False) (fun _ => none)
      [.new c.name.name, .invokeSpecial ⟨c.name.name, initName, "()V"⟩, .ret] (0, 0) (0, 1) := by
    simp [Peak.path_cons, Op.isFinal, Op.pops, Op.pushes]
  exact (hp.admits (K := fun _ _ _ _ _ => True) c.token.pos.line).needsStack fun l => by simp

/-- The limits of a method are those of the options; it needs so much of the stack, and its slots are within
the limit on slots. -/
structure FrameOf (o : CompileOptions) (n : Nat) (mc : MethodCode) : Prop where
  stackLimit : mc.stackLimit = o.limits.stack
  localsLimit : mc.localsLimit = o.limits.locals
  stack : NeedsStack mc.code n
  slots : ∀ i ∈ slotsOf (mc.code.toList.map Instr.op), 0 ≤ i ∧ i < mc.localsLimit

theorem CompileOptions.frameOf {name desc : String} {isStatic : Bool} {code : List Instr} {n : Nat}
    (hn : NeedsStack code.toArray n) (hs : ∀ i ∈ slotsOf (code.map Instr.op), 0 ≤ i ∧ i < o.limits.locals) :
    FrameOf o n (o.method name desc isStatic code) := ⟨rfl, rfl, hn, hs⟩

@[simp] theorem map_op_onLine (line : Int) (os : List Op) : (onLine line os).map Instr.op = os := by
  simp [onLine, Function.comp_def]

theorem ClassDecl.slotsOf_prologue (c : ClassDecl) (line : Int) :
    ∀ i ∈ slotsOf ((c.prologue line).map Instr.op), i = 0 := by
  have hfields : ∀ fs : List VarDecl, ∀ i ∈ slotsOf (fs.flatMap c.fieldDefault), i = 0 := by
    intro fs
    induction fs with
    | nil => simp
    | cons f fs ih => simpa [ClassDecl.fieldDefault] using ih
  simpa [ClassDecl.prologue] using hfields c.fields

theorem MethodDecl.slotsOf_localDefaults (m : MethodDecl) :
    ∀ i ∈ slotsOf (m.localDefaults.map Instr.op), 0 ≤ i ∧ i < m.slotCount := by
  unfold MethodDecl.localDefaults
  induction m.locals with
  | nil => simp
  | cons v vs ih => simpa [m.localSlot_lt v] using ih

/-- The slots of a body are those of its variables, and those that were taken for its code. -/
theorem BodyCode.slots {code : List Instr} (b : BodyCode p c m code) :
    (m.slotCount : Int) ≤ b.after.slots ∧ ∀ i ∈ slotsOf (code.map Instr.op), 0 ≤ i ∧ i < b.after.slots := by
  have hcount : m.slotCount ≤ b.after.slots := b.emits.slots_mono
  have hret : slotsOf ((if m.endsWithReturn then [] else onLine m.token.pos.line [.ret]).map Instr.op) = [] := by
    split <;> simp
  refine ⟨by omega, fun i hi => ?_⟩
  rw [b.code_eq, List.map_append, List.map_append, slotsOf_append, slotsOf_append, hret, List.append_nil] at hi
  rcases List.mem_append.1 hi with hi | hi
  · have := m.slotsOf_localDefaults i hi
    omega
  · have hown := b.emits.slots i hi
    simp only [OwnSlot] at hown
    omega

theorem MethodOf.frameOf {mc : MethodCode} (h : MethodOf o p c m mc) (hw : p.Written)
    (hm : m.BodyClean p c.name.name) : FrameOf o (c.bodyNeed p m) mc := by
  obtain ⟨code, ⟨b, hb⟩, rfl⟩ := h
  refine CompileOptions.frameOf ?_ fun i hi => ?_
  · have hneed := b.needsStack hw hm (Flow.admits_nil (a := (0, 0))) fun _ => rfl
    rwa [Nat.zero_max] at hneed
  · have := b.slots.2 i hi
    omega

theorem ConstructorOf.frameOf {mc : MethodCode} (h : ConstructorOf o p c m mc) (hw : p.Written)
    (hm : m.BodyClean p c.name.name) : FrameOf o (max c.startNeed (c.bodyNeed p m)) mc := by
  obtain ⟨code, ⟨b, hb⟩, rfl⟩ := h
  refine CompileOptions.frameOf ?_ fun i hi => ?_
  · have hneed := b.needsStack hw hm (c.peak_prologue (k := 0) m.token.pos.line) (c.labelCount_prologue _)
    rwa [Nat.zero_max] at hneed
  · rw [List.map_append, slotsOf_append] at hi
    have hpos := m.slotCount_pos
    have hcount := b.slots.1
    rcases List.mem_append.1 hi with hi | hi
    · have := c.slotsOf_prologue _ i hi
      omega
    · have := b.slots.2 i hi
      omega

theorem ClassDecl.defaultConstructor_frameOf (c : ClassDecl) (ho : 1 ≤ o.limits.locals) :
    FrameOf o c.startNeed (c.defaultConstructor o) := by
  refine CompileOptions.frameOf (c.defaultConstructor_needsStack o) fun i hi => ?_
  have := c.slotsOf_prologue c.token.pos.line i (by simpa using hi)
  omega

/-- A class is only compiled where a frame has a slot for the receiver. -/
theorem CompiledFrom.one_le_locals {f : ClassFile} (h : CompiledFrom o p c f) : 1 ≤ o.limits.locals := by
  have hbody : ∀ {d mc}, ConstructorOf o p c d mc → 1 ≤ o.limits.locals := by
    rintro d mc ⟨code, ⟨b, hb⟩, -⟩
    have hpos := d.slotCount_pos
    have hcount := b.slots.1
    omega
  obtain ⟨s, s', h⟩ := h
  simp only [CompileOptions.compileClass, Gen.bind_eq_ok] at h
  obtain ⟨ks, s₁, hk, -⟩ := h
  cases compileConstructors_ok hk with
  | plain _ _ hd | withArgs _ _ hd => exact hbody hd
  | none hc =>
    simp only [CompileOptions.compileConstructors, hc, Gen.bind_eq_ok] at hk
    obtain ⟨d, s₁, hd, -⟩ := hk
    exact (defaultConstructor_ok hd).1

theorem CompiledFrom.frames {f : ClassFile} (h : CompiledFrom o p c f) (hw : p.Written) (hc : c.MembersClean p) :
    List.Forall₂ (FrameOf o) (c.stackNeeds o p) f.methods := by
  have hdefault := c.defaultConstructor_frameOf h.one_le_locals
  obtain ⟨ks, ms, hks, hms, he⟩ := h.fileOf.methods
  rw [he]
  refine List.rel_append (List.rel_append ?_ ?_) ?_
  · unfold ClassDecl.entryPoint
    split
    · exact .cons (CompileOptions.frameOf c.entryCode_needsStack (by simp [ClassDecl.entryCode])) .nil
    · exact .nil
  · cases hks with
    | none hn => simpa [ClassDecl.constructorNeeds, hn] using hdefault
    | plain hd ha hk =>
      simpa [ClassDecl.constructorNeeds, hd, ha] using hk.frameOf hw (hc.constructor _ hd).2
    | withArgs hd ha hk =>
      simpa [ClassDecl.constructorNeeds, hd, ha] using ⟨hdefault, hk.frameOf hw (hc.constructor _ hd).2⟩
  · rw [List.forall₂_map_left_iff]
    exact forall₂_imp_mem hms fun m hm mc h => h.frameOf hw (hc.methods m hm).toBodyClean

end

/-- Methods that need less than their limit of the stack, and not more slots than they have, only fail for
causes that do not lie in the frame. -/
theorem Machine.run_frames {m : Machine} {o : CompileOptions} {need : MethodCode → Nat}
    (hm : ∀ mc, m.HasMethod mc → FrameOf o (need mc) mc) {canceled : Bool} {fuel : Nat} {entry out : String}
    {e : Fault} (hr : m.run canceled fuel entry = .failed out e) :
    e.cause ≠ .invalidLocalSlot ∧
      (e.cause = .stackOverflow → 0 < o.limits.stack ∧ ∃ mc, m.HasMethod mc ∧ o.limits.stack < need mc) := by
  choose! depth hD hgreatest using fun mc h => (hm mc h).stack
  have hmay := Machine.run_fits hD hr
  refine ⟨fun he => ?_, fun he => ?_⟩
  · rw [he] at hmay
    obtain ⟨mc, hmc, i, hi, hout⟩ := hmay
    exact hout ((hm mc hmc).slots i hi)
  · rw [he] at hmay
    obtain ⟨mc, hmc, hpos, j, hj⟩ := hmay
    rw [(hm mc hmc).stackLimit] at hpos hj
    have hle := (hgreatest mc hmc).2 ⟨j, rfl⟩
    exact ⟨hpos, mc, hmc, by omega⟩

theorem Program.compile_frames {o : CompileOptions} {p : Program} {files : List ClassFile} (hw : p.Written)
    (hclean : p.Clean o.entry) (hc : Program.compile o p p = .ok files) :
    List.Forall₂ (fun c f => List.Forall₂ (FrameOf o) (c.stackNeeds o p) f.methods) p.classes files :=
  forall₂_imp_mem (Program.compile_each hc) fun c hmem _ hf => hf.frames hw (hclean.classes c hmem).toMembersClean

theorem HasMethod.frameOf {o : CompileOptions} {p : Program} {files : List ClassFile}
    (h : List.Forall₂ (fun c f => List.Forall₂ (FrameOf o) (c.stackNeeds o p) f.methods) p.classes files)
    {mc : MethodCode} (hmc : (Machine.load files).HasMethod mc) :
    ∃ n, FrameOf o n mc ∧ ∃ c ∈ p.classes, n ∈ c.stackNeeds o p := by
  obtain ⟨f, hf, hmc⟩ := hmc
  obtain ⟨c, hmem, hcf⟩ := exists_mem_of_forall₂ h (List.mem_reverse.1 hf)
  obtain ⟨n, hn, hframe⟩ := exists_mem_of_forall₂ hcf hmc
  exact ⟨n, hframe, c, hmem, hn⟩

/-- A run of a well-formed program names no slot out of its frame, and overflows a stack only where some method needs
more than a positive limit. -/
theorem Program.run_frames {o : CompileOptions} {p : Program} {files : List ClassFile} (hw : p.Written)
    (hclean : p.Clean o.entry) (hc : Program.compile o p p = .ok files) {canceled : Bool} {fuel : Nat}
    {entry out : String} {e : Fault} (hr : (Machine.load files).run canceled fuel entry = .failed out e) :
    e.cause ≠ .invalidLocalSlot ∧ (e.cause = .stackOverflow →
      0 < o.limits.stack ∧ ∃ c ∈ p.classes, ∃ n ∈ c.stackNeeds o p, o.limits.stack < n) := by
  have hmethods := fun mc (hmc : (Machine.load files).HasMethod mc) =>
    HasMethod.frameOf (Program.compile_frames hw hclean hc) hmc
  choose! need hneed hcounted using hmethods
  obtain ⟨hslot, hover⟩ := Machine.run_frames hneed hr
  refine ⟨hslot, fun he => ?_⟩
  obtain ⟨hpos, mc, hmc, hlt⟩ := hover he
  obtain ⟨c, hmem, hn⟩ := hcounted mc hmc
  exact ⟨hpos, c, hmem, need mc, hn, hlt⟩

/-- Every method of an accepted program needs exactly what is counted for it of the operand stack, and its slots
are within the limit. The limit on the stack is written into it without being compared with the need: a
run may overflow a stack, but only if some method needs more than the limit. -/
theorem accepted_frame_needs {o : CompileOptions} {p : Program} {files : List ClassFile}
    (hw : p.Written) (ha : (p.check o.entry).issues = [])
    (hc : Program.compile o (p.check o.entry).decl (p.check o.entry).decl = .ok files) :
    List.Forall₂ (fun c f => List.Forall₂ (FrameOf o) (c.stackNeeds o p) f.methods) p.classes files ∧
      ∀ canceled fuel entry out e, (Machine.load files).run canceled fuel entry = .failed out e →
        e.cause ≠ .invalidLocalSlot ∧ (e.cause = .stackOverflow →
          0 < o.limits.stack ∧ ∃ c ∈ p.classes, ∃ n ∈ c.stackNeeds o p, o.limits.stack < n) := by
  obtain ⟨hd, hclean⟩ := Program.check_clean ha
  rw [hd] at hc
  exact ⟨Program.compile_frames hw hclean hc, fun _ _ _ _ _ hr => Program.run_frames hw hclean hc hr⟩

theorem accepted_frame_needs_sample : ∃ files,
    List.Forall₂ (fun c f => List.Forall₂ (FrameOf {}) (c.stackNeeds {} Tally.program) f.methods)
      Tally.program.classes files ∧
    ∀ canceled fuel entry out e, (Machine.load files).run canceled fuel entry = .failed out e →
      e.cause ≠ .invalidLocalSlot ∧ (e.cause = .stackOverflow →
        (0 : Int) < 128 ∧ ∃ c ∈ Tally.program.classes, ∃ n ∈ c.stackNeeds {} Tally.program, (128 : Int) < n) := by
  obtain ⟨files, hf⟩ := Tally.compiled
  exact ⟨files, accepted_frame_needs (o := {}) Tally.written Tally.accepted hf⟩

def Outcome.cause? : Outcome → Option Cause
  | .failed _ e => some e.cause
  | _ => none

theorem Outcome.failed_of_cause? {r : Outcome} {k : Cause} (h : r.cause? = some k) :
    ∃ out e, r = .failed out e ∧ e.cause = k := by
  cases r with
  | failed out e => exact ⟨out, e, rfl, Option.some.inj h⟩
  | finished out => cases h
  | outOfFuel out => cases h

/-- One value is all that fits on the stack of a frame here; the program is accepted and compiled, and its run
overflows the stack. -/
theorem stack_limit_unchecked : ∃ files out e,
    Program.decode "sample" Sample.source = .ok Sample.program ∧ (Sample.program.check "Main").issues = [] ∧
      Program.compile { limits := { stack := 1 } } (Sample.program.check "Main").decl
        (Sample.program.check "Main").decl = .ok files ∧
      (Machine.load files).run false 12 "Main" = .failed out e ∧ e.cause = .stackOverflow := by
  have hrun : (Program.compile { limits := { stack := 1 } } (Sample.program.check "Main").decl
      (Sample.program.check "Main").decl).toOption.bind (fun files =>
        ((Machine.load files).run false 12 "Main").cause?) = some .stackOverflow := by decide +kernel
  obtain ⟨files, hc, hcause⟩ := exists_ok_of_bind hrun
  obtain ⟨out, e, ho, he⟩ := Outcome.failed_of_cause? hcause
  exact ⟨files, out, e, Sample.decode_source, by decide, hc, ho, he⟩

end ClassCompiler
