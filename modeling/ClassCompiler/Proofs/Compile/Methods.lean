import ClassCompiler.Proofs.Compile.Labels

namespace ClassCompiler

/-- The code of a body: defaults of the locals, the statements, and a return if they end without. -/
structure BodyCode (p : Program) (c : ClassDecl) (m : MethodDecl) (code : List Instr) where
  labels : Nat
  after : Supply
  stmts : List Instr
  spans : List Span
  emits : Emits ⟨p, c.name.name, m⟩ (.stmts none m.body) ⟨labels, m.slotCount⟩ stmts after spans
  code_eq : code = m.localDefaults ++ stmts ++ (if m.endsWithReturn then [] else onLine m.token.pos.line [.ret])

/-- The body of a method and the slots that its code needs. -/
def BodyOf (o : CompileOptions) (p : Program) (c : ClassDecl) (m : MethodDecl) (code : List Instr) : Prop :=
  ∃ b : BodyCode p c m code, (b.after.slots : Int) ≤ o.limits.locals

variable (o : CompileOptions) (p : Program)

def MethodOf (c : ClassDecl) (m : MethodDecl) (mc : MethodCode) : Prop :=
  ∃ code, BodyOf o p c m code ∧ mc = o.method m.name.name m.descriptor false code

def ConstructorOf (c : ClassDecl) (m : MethodDecl) (mc : MethodCode) : Prop :=
  ∃ code, BodyOf o p c m code ∧
    mc = o.method initName m.constructorDescriptor false (c.prologue m.token.pos.line ++ code)

/-- The constructor without parameters that a class gets. -/
def ClassDecl.defaultConstructor (c : ClassDecl) : MethodCode :=
  o.method initName "()V" false (c.prologue c.token.pos.line ++ onLine c.token.pos.line [.ret])

/-- The constructors of a class: one without parameters, and the declared one. -/
inductive ConstructorsOf (c : ClassDecl) : List MethodCode → Prop where
  | none (hc : c.constructor = none) : ConstructorsOf c [c.defaultConstructor o]
  | plain {m : MethodDecl} {mc : MethodCode} (hc : c.constructor = some m) (ha : m.args = [])
      (h : ConstructorOf o p c m mc) : ConstructorsOf c [mc]
  | withArgs {m : MethodDecl} {mc : MethodCode} (hc : c.constructor = some m) (ha : m.args ≠ [])
      (h : ConstructorOf o p c m mc) : ConstructorsOf c [c.defaultConstructor o, mc]

def ClassDecl.entryPoint (c : ClassDecl) : List MethodCode :=
  if c.name.name = o.entry then [o.method mainName mainDesc true c.entryCode] else []

/-- The file of a class. -/
structure FileOf (c : ClassDecl) (f : ClassFile) : Prop where
  name : f.name = c.name.name
  super : f.super = c.superName
  fields : f.fields = c.fields.map fun v => (v.name.name, v.type.descriptor)
  table : f.table = p.methodTable c.name.name
  methods : ∃ ks ms, ConstructorsOf o p c ks ∧ List.Forall₂ (MethodOf o p c) c.methods ms ∧
    f.methods = c.entryPoint o ++ ks ++ ms

/-- A file is what a class is compiled to, whatever labels were given before. -/
def CompiledFrom (c : ClassDecl) (f : ClassFile) : Prop :=
  ∃ s s', o.compileClass p c s = .ok (f, s')

theorem forall₂_imp_mem {α β : Type} {R S : α → β → Prop} {xs : List α} {ys : List β}
    (h : List.Forall₂ R xs ys) (hi : ∀ x ∈ xs, ∀ y, R x y → S x y) : List.Forall₂ S xs ys := by
  induction h with
  | nil => exact .nil
  | cons hr _ ih => exact .cons (hi _ (by simp) _ hr) (ih fun x hx => hi x (by simp [hx]))

theorem exists_mem_of_forall₂ {α β : Type} {R : α → β → Prop} {xs : List α} {ys : List β}
    (h : List.Forall₂ R xs ys) {y : β} (hy : y ∈ ys) : ∃ x ∈ xs, R x y := by
  induction h with
  | nil => cases hy
  | cons hr _ ih =>
    rcases List.mem_cons.1 hy with rfl | hy
    · exact ⟨_, by simp, hr⟩
    · obtain ⟨x, hx, hr⟩ := ih hy
      exact ⟨x, by simp [hx], hr⟩

theorem find?_eq_some_of_nodup {α β : Type} [DecidableEq β] (key : α → β) {xs : List α} (h : (xs.map key).Nodup)
    {x : α} (hx : x ∈ xs) : xs.find? (fun y => key y = key x) = some x := by
  induction xs with
  | nil => cases hx
  | cons y ys ih =>
    rw [List.map_cons, List.nodup_cons] at h
    rcases List.mem_cons.1 hx with rfl | hx
    · simp
    · have hne : key y ≠ key x := fun he => h.1 (he ▸ List.mem_map_of_mem hx)
      rw [List.find?_cons_of_neg (by simpa using hne)]
      exact ih h.2 hx

variable {o p} {c : ClassDecl} {m : MethodDecl} {s s' : Supply}

theorem Gen.within_eq_ok {α : Type} {note : String} {g : Gen α} {r : α × Supply} :
    Gen.within note g s = .ok r ↔ g s = .ok r := by
  unfold Gen.within
  cases g s <;> simp

theorem CompileOptions.finish_eq_ok {name desc : String} {code : List Instr} {mc : MethodCode} :
    o.finish name desc code s = .ok (mc, s') ↔
      (s.slots : Int) ≤ o.limits.locals ∧ mc = o.method name desc false code ∧ s' = s := by
  unfold CompileOptions.finish
  by_cases hs : (s.slots : Int) ≤ o.limits.locals
  · simp [hs, eq_comm]
  · simp [hs]

theorem MethodDecl.compileBody_ok {code : List Instr} (h : m.compileBody p c s = .ok (code, s')) :
    ∃ b : BodyCode p c m code, b.after = s' := by
  simp only [MethodDecl.compileBody, Gen.bind_eq_ok, Gen.pure_eq_ok] at h
  obtain ⟨_, s₁, hs, stmts, s₂, hb, rfl, rfl⟩ := h
  simp only [Gen.freeSlotsFrom, Except.ok.injEq, Prod.mk.injEq, true_and] at hs
  subst hs
  obtain ⟨sp, he⟩ := Context.compileStmts_laid _ hb
  exact ⟨⟨s.labels, s₂, stmts, sp, he, rfl⟩, rfl⟩

theorem compileMethod_ok {mc : MethodCode} (h : o.compileMethod p c m s = .ok (mc, s')) :
    MethodOf o p c m mc := by
  simp only [CompileOptions.compileMethod, Gen.bind_eq_ok, CompileOptions.finish_eq_ok] at h
  obtain ⟨code, s₁, hb, hl, rfl, rfl⟩ := h
  obtain ⟨b, rfl⟩ := MethodDecl.compileBody_ok hb
  exact ⟨code, ⟨b, hl⟩, rfl⟩

theorem compileConstructor_ok {mc : MethodCode} (h : o.compileConstructor p c m s = .ok (mc, s')) :
    ConstructorOf o p c m mc := by
  simp only [CompileOptions.compileConstructor, Gen.bind_eq_ok, CompileOptions.finish_eq_ok] at h
  obtain ⟨code, s₁, hb, hl, rfl, rfl⟩ := h
  obtain ⟨b, rfl⟩ := MethodDecl.compileBody_ok hb
  exact ⟨code, ⟨b, hl⟩, rfl⟩

theorem compileMethods_ok {ms : List MethodDecl} {mcs : List MethodCode}
    (h : o.compileMethods p c ms s = .ok (mcs, s')) : List.Forall₂ (MethodOf o p c) ms mcs := by
  induction ms generalizing s mcs with
  | nil =>
    simp only [CompileOptions.compileMethods, Gen.pure_eq_ok] at h
    rw [← h.1]
    exact .nil
  | cons m ms ih =>
    simp only [CompileOptions.compileMethods, Gen.bind_eq_ok, Gen.within_eq_ok, Gen.pure_eq_ok] at h
    obtain ⟨r, s₁, hr, rest, s₂, hrest, rfl, rfl⟩ := h
    exact .cons (compileMethod_ok hr) (ih hrest)

theorem defaultConstructor_ok {mc : MethodCode} (h : o.defaultConstructor c s = .ok (mc, s')) :
    1 ≤ o.limits.locals ∧ mc = c.defaultConstructor o := by
  simp only [CompileOptions.defaultConstructor, Gen.bind_eq_ok, CompileOptions.finish_eq_ok, Gen.freeSlotsFrom,
    Except.ok.injEq, Prod.mk.injEq, true_and] at h
  obtain ⟨_, _, rfl, hl, rfl, _⟩ := h
  exact ⟨hl, rfl⟩

theorem compileConstructors_ok {mcs : List MethodCode}
    (h : o.compileConstructors p c s = .ok (mcs, s')) : ConstructorsOf o p c mcs := by
  unfold CompileOptions.compileConstructors at h
  cases hc : c.constructor with
  | none =>
    simp only [hc, Gen.bind_eq_ok, Gen.pure_eq_ok] at h
    obtain ⟨d, s₁, hd, rfl, rfl⟩ := h
    obtain ⟨-, rfl⟩ := defaultConstructor_ok hd
    exact .none hc
  | some m =>
    simp only [hc] at h
    by_cases ha : m.args = []
    · simp only [ha, List.isEmpty_nil, if_true, Gen.bind_eq_ok, Gen.within_eq_ok, Gen.pure_eq_ok] at h
      obtain ⟨r, s₁, hr, rfl, rfl⟩ := h
      exact .plain hc ha (compileConstructor_ok hr)
    · simp only [List.isEmpty_iff, ha, if_false, Gen.bind_eq_ok, Gen.within_eq_ok, Gen.pure_eq_ok] at h
      obtain ⟨d, s₁, hd, r, s₂, hr, rfl, rfl⟩ := h
      obtain ⟨-, rfl⟩ := defaultConstructor_ok hd
      exact .withArgs hc ha (compileConstructor_ok hr)

theorem compileClass_ok {f : ClassFile} (h : o.compileClass p c s = .ok (f, s')) : FileOf o p c f := by
  simp only [CompileOptions.compileClass, Gen.bind_eq_ok, Gen.pure_eq_ok] at h
  obtain ⟨ks, s₁, hk, ms, s₂, hm, rfl, rfl⟩ := h
  exact ⟨rfl, rfl, rfl, rfl, ks, ms, compileConstructors_ok hk, compileMethods_ok hm, rfl⟩

theorem compileClasses_each {cs : List ClassDecl} {files : List ClassFile}
    (h : o.compileClasses p cs s = .ok (files, s')) : List.Forall₂ (CompiledFrom o p) cs files := by
  induction cs generalizing s files with
  | nil =>
    simp only [CompileOptions.compileClasses, Gen.pure_eq_ok] at h
    rw [← h.1]
    exact .nil
  | cons c cs ih =>
    simp only [CompileOptions.compileClasses, Gen.bind_eq_ok, Gen.within_eq_ok, Gen.pure_eq_ok] at h
    obtain ⟨r, s₁, hr, rest, s₂, hrest, rfl, rfl⟩ := h
    exact .cons ⟨_, _, hr⟩ (ih hrest)

theorem CompiledFrom.fileOf {c : ClassDecl} {f : ClassFile} (h : CompiledFrom o p c f) : FileOf o p c f := by
  obtain ⟨_, _, h⟩ := h
  exact compileClass_ok h

theorem names_of_fileOf {cs : List ClassDecl} {files : List ClassFile}
    (h : List.Forall₂ (FileOf o p) cs files) : files.map ClassFile.name = cs.map fun c => c.name.name := by
  induction h with
  | nil => rfl
  | cons hf _ ih => rw [List.map_cons, List.map_cons, hf.name, ih]

/-- Every class of a program gets one file, in order. -/
theorem Program.compile_each {q : Program} {files : List ClassFile} (h : Program.compile o p q = .ok files) :
    List.Forall₂ (CompiledFrom o p) q.classes files := by
  unfold Program.compile at h
  split at h
  · next fs s' hc =>
    obtain rfl := Except.ok.inj h
    exact compileClasses_each hc
  · cases h

theorem Program.compile_ok {q : Program} {files : List ClassFile} (h : Program.compile o p q = .ok files) :
    List.Forall₂ (FileOf o p) q.classes files :=
  forall₂_imp_mem (Program.compile_each h) fun _ _ _ => CompiledFrom.fileOf

mutual

theorem opLabelCount_defaultValue (t : Ty) (l : String) : opLabelCount (defaultValue t) l = 0 := by
  match t with
  | .int | .bool | .string | .null | .void | .noType | .cls _ | .fptr _ _ => simp [defaultValue]
  | .list es => simp [defaultValue, opLabelCount_defaultElements es l]

theorem opLabelCount_defaultElements (es : List (String × Ty)) (l : String) :
    opLabelCount (defaultElements es) l = 0 := by
  match es with
  | [] => rfl
  | (_, t) :: es =>
    simp [defaultElements, opLabelCount_defaultValue t l, opLabelCount_defaultElements es l]

end

theorem ClassDecl.labelCount_prologue (c : ClassDecl) (line : Int) (l : String) :
    labelCount (c.prologue line) l = 0 := by
  have hf : ∀ fs : List VarDecl, opLabelCount (fs.flatMap c.fieldDefault) l = 0 := by
    intro fs
    induction fs with
    | nil => rfl
    | cons f fs ih => simp [ClassDecl.fieldDefault, opLabelCount_defaultValue, ih]
  simp [ClassDecl.prologue, hf]

theorem MethodDecl.labelCount_localDefaults (m : MethodDecl) (l : String) :
    labelCount m.localDefaults l = 0 := by
  unfold MethodDecl.localDefaults
  induction m.locals with
  | nil => rfl
  | cons v vs ih => simp [opLabelCount_defaultValue, ih]

theorem BodyCode.labelCount_le_one {code start : List Instr} (b : BodyCode p c m code)
    (hl : ∀ l, labelCount start l = 0) (l : String) : labelCount (start ++ code) l ≤ 1 := by
  have hbody := b.emits.labelCount_le_one l
  have hret : labelCount (if m.endsWithReturn then [] else onLine m.token.pos.line [.ret]) l = 0 := by
    split <;> simp
  simp only [b.code_eq, labelCount_append, hl, m.labelCount_localDefaults, hret]
  omega

end ClassCompiler
