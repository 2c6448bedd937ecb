import ClassCompiler.Proofs.Compile.Methods

namespace ClassCompiler

def Op.jump? : Op → Option String
  | .jump _ l => some l
  | _ => none

def opJumps (os : List Op) : List String := os.filterMap Op.jump?

def jumps (code : List Instr) : List String := opJumps (code.map (·.op))

@[simp] theorem opJumps_nil : opJumps [] = [] := rfl

@[simp] theorem opJumps_cons (op : Op) (os : List Op) : opJumps (op :: os) = op.jump?.toList ++ opJumps os := by
  cases h : op.jump? <;> simp [opJumps, h]

@[simp] theorem opJumps_append (os₁ os₂ : List Op) : opJumps (os₁ ++ os₂) = opJumps os₁ ++ opJumps os₂ :=
  List.filterMap_append

@[simp] theorem jumps_nil : jumps [] = [] := rfl

@[simp] theorem jumps_append (c₁ c₂ : List Instr) : jumps (c₁ ++ c₂) = jumps c₁ ++ jumps c₂ := by
  simp [jumps]

@[simp] theorem jumps_onLine (line : Int) (os : List Op) : jumps (onLine line os) = opJumps os := by
  simp [jumps, onLine, Function.comp_def]

theorem mem_jumps {code : List Instr} {i : Instr} (hi : i ∈ code) {test : Jump} {l : String}
    (ho : i.op = .jump test l) : l ∈ jumps code :=
  List.mem_filterMap.2 ⟨i.op, List.mem_map_of_mem hi, by rw [ho]; rfl⟩

section

variable (t u : Ty)

@[simp] theorem opJumps_box : opJumps (box t) = [] := by cases t <;> rfl

@[simp] theorem opJumps_unbox : opJumps (unbox t) = [] := by cases t <;> rfl

@[simp] theorem opJumps_narrow : opJumps (narrow t) = [] := by cases t <;> rfl

@[simp] theorem opJumps_newArrayList : opJumps newArrayList = [] := rfl

@[simp] theorem opJumps_addElement : opJumps addElement = [] := rfl

@[simp] theorem opJumps_copyBegin : opJumps (copyBegin t u) = [] := by
  unfold copyBegin
  split <;> rfl

@[simp] theorem opJumps_copyEnd : opJumps (copyEnd t u) = [] := by
  unfold copyEnd
  split <;> rfl

@[simp] theorem opJumps_callResultOps : opJumps (Context.callResultOps t) = [] := by
  cases t with
  | fptr ps r => cases hr : r.isVoid <;> simp [Context.callResultOps, hr]
  | _ => rfl

@[simp] theorem opJumps_changeBy (delta : Int) (isPre : Bool) (slot : Nat) :
    opJumps (changeBy delta isPre slot) = [] := by cases isPre <;> rfl

@[simp] theorem opJumps_changeVariable (slot : Nat) (op : UnOp) : opJumps (changeVariable slot op) = [] := by
  cases op <;> rfl

@[simp] theorem opJumps_changeElement (list val : Nat) (index : Op) (op : UnOp) :
    opJumps (changeElement list val index op) = index.jump?.toList ++ index.jump?.toList := by
  simp [changeElement, Op.jump?]

@[simp] theorem opJumps_changeField (obj val : Nat) (field : MemberRef) (op : UnOp) :
    opJumps (changeField obj val field op) = [] := by
  simp [changeField, Op.jump?]

@[simp] theorem opJumps_storeElementOps (index : Op) : opJumps (storeElementOps t u index) = index.jump?.toList := by
  simp [storeElementOps, Op.jump?]

@[simp] theorem opJumps_storeField (field : MemberRef) : opJumps (storeField t u field) = [] := by
  simp [storeField, Op.jump?]

@[simp] theorem opJumps_returnValue : opJumps (returnValue t) = [] := by
  unfold returnValue
  split <;> simp [Op.jump?]

@[simp] theorem opJumps_castElement : opJumps (castElement t) = [] := by
  unfold castElement
  split <;> rfl

end

mutual

@[simp] theorem opJumps_defaultValue (t : Ty) : opJumps (defaultValue t) = [] := by
  match t with
  | .int | .bool | .string | .null | .void | .noType | .cls _ | .fptr _ _ => rfl
  | .list es => simp [defaultValue, opJumps_defaultElements es, Op.jump?]

@[simp] theorem opJumps_defaultElements (es : List (String × Ty)) : opJumps (defaultElements es) = [] := by
  match es with
  | [] => rfl
  | (_, t) :: es => simp [defaultElements, opJumps_defaultValue t, opJumps_defaultElements es, Op.jump?]

end

/-- The labels around a piece that its code may jump to. -/
def Piece.exits : Piece → List String
  | .stmt (some l) _ => [l.next, l.done]
  | .stmts (some l) _ => [l.next, l.done]
  | .orElse (some l) _ => [l.next, l.done]
  | .test _ done _ => [done]
  | _ => []

/-- A jump stays in the code of a piece or leaves it for a label of the loop around. -/
def Confined (p : Piece) (code : List Instr) : Prop :=
  ∀ l ∈ jumps code, labelCount code l ≠ 0 ∨ l ∈ p.exits

variable {ctx : Context} {p : Piece} {s s' : Supply} {code : List Instr} {sp : List Span}

theorem Emits.confined (h : Emits ctx p s code s' sp) : Confined p code := by
  induction h with
  | intro hr hp hc hg ih =>
    subst hc
    replace ih := Parts.iff_forall_mem.2 ih
    clear hp hg
    cases hr <;>
    simp only [Parts.part_iff, Parts.ops_iff, Parts.nil_iff, Confined, Piece.exits, codeOf_cons, codeOf_nil, Item.code,
      jumps_nil, jumps_append, jumps_onLine, opJumps_nil, opJumps_cons, opJumps_append, opJumps_box, opJumps_unbox,
      opJumps_narrow, opJumps_newArrayList, opJumps_addElement, opJumps_copyBegin, opJumps_copyEnd,
      opJumps_callResultOps, opJumps_changeVariable, opJumps_changeElement, opJumps_changeField,
      opJumps_storeElementOps, opJumps_storeField, opJumps_returnValue, opJumps_castElement, branchMerge, Op.jump?,
      Option.toList_none, Option.toList_some, List.nil_append, List.append_nil, List.cons_append, List.mem_append,
      List.mem_cons, List.not_mem_nil, or_false, false_implies, implies_true, labelCount_append, labelCount_onLine,
      opLabelCount_cons, opLabelCount_nil, Op.label.injEq] at ih ⊢ <;>
    grind

/-- Every jump in a method goes to a label of the method. -/
def JumpsInside (code : List Instr) : Prop := ∀ l ∈ jumps code, labelCount code l ≠ 0

theorem ClassDecl.jumps_prologue (c : ClassDecl) (line : Int) : jumps (c.prologue line) = [] := by
  have hf : ∀ fs : List VarDecl, opJumps (fs.flatMap c.fieldDefault) = [] := by
    intro fs
    induction fs with
    | nil => rfl
    | cons f fs ih => simp [ClassDecl.fieldDefault, ih, Op.jump?]
  simp [ClassDecl.prologue, hf, Op.jump?]

theorem MethodDecl.jumps_localDefaults (m : MethodDecl) : jumps m.localDefaults = [] := by
  unfold MethodDecl.localDefaults
  induction m.locals with
  | nil => rfl
  | cons v vs ih => simp [ih, Op.jump?]

theorem BodyCode.jumpsInside {q : Program} {c : ClassDecl} {m : MethodDecl} {start : List Instr}
    (b : BodyCode q c m code) (hs : jumps start = []) : JumpsInside (start ++ code) := by
  intro l hl
  have hret : jumps (if m.endsWithReturn then [] else onLine m.token.pos.line [.ret]) = [] := by
    split <;> simp [Op.jump?]
  simp only [b.code_eq, jumps_append, hs, m.jumps_localDefaults, hret, List.nil_append, List.append_nil] at hl
  have hplaced := (b.emits.confined l hl).resolve_right (by simp [Piece.exits])
  simp only [b.code_eq, labelCount_append]
  omega

/-- Code places labels of the supply only, and each of them once. -/
structure Draws (s : Supply) (code : List Instr) (s' : Supply) : Prop where
  once : ∀ n, PlacesOnce s code s' n
  numbered : ∀ l, (∀ n, labelName n ≠ l) → labelCount code l = 0

namespace Draws

variable {s₁ : Supply} {c₁ c₂ : List Instr}

theorem labelCount_le_one (h : Draws s code s') (l : String) : labelCount code l ≤ 1 := by
  by_cases hl : ∃ n, labelName n = l
  · obtain ⟨n, rfl⟩ := hl
    exact (h.once n).once
  · have := h.numbered l (by simpa using hl)
    omega

theorem append (h : Draws s c₁ s₁) (h' : Draws s₁ c₂ s') : Draws s (c₁ ++ c₂) s' := by
  refine ⟨fun n => ?_, fun l hl => ?_⟩
  · have hfirst := placesOnce_iff.1 (h.once n)
    have hrest := placesOnce_iff.1 (h'.once n)
    simp only [placesOnce_iff, labelCount_append]
    omega
  · rw [labelCount_append, h.numbered l hl, h'.numbered l hl]

theorem of_labelCount (h : ∀ l, labelCount code l = 0) : Draws s code s :=
  ⟨fun n => ⟨Nat.le_refl _, by simp [h], by simp [h]⟩, fun l _ => h l⟩

end Draws

theorem Emits.draws (h : Emits ctx p s code s' sp) : Draws s code s' :=
  ⟨h.placesOnce, fun _ => h.labelCount_eq_zero⟩

def codeOfMethods (ms : List MethodCode) : List Instr := ms.flatMap (·.code.toList)

def codeOfFiles (files : List ClassFile) : List Instr := files.flatMap fun f => codeOfMethods f.methods

section

variable {o : CompileOptions} {q : Program} {c : ClassDecl} {m : MethodDecl}

theorem MethodDecl.compileBody_draws (h : m.compileBody q c s = .ok (code, s')) : Draws s code s' := by
  simp only [MethodDecl.compileBody, Gen.bind_eq_ok, Gen.pure_eq_ok] at h
  obtain ⟨_, s₁, hs, stmts, s₂, hb, rfl, rfl⟩ := h
  simp only [Gen.freeSlotsFrom, Except.ok.injEq, Prod.mk.injEq, true_and] at hs
  subst hs
  obtain ⟨sp, he⟩ := Context.compileStmts_laid _ hb
  have hbody : Draws s stmts s₂ := ⟨fun n => ⟨(he.placesOnce n).mono, (he.placesOnce n).once, (he.placesOnce n).free⟩,
    he.draws.numbered⟩
  have hret : ∀ l, labelCount (if m.endsWithReturn then [] else onLine m.token.pos.line [.ret]) l = 0 := by
    intro l
    split <;> simp
  exact ((Draws.of_labelCount m.labelCount_localDefaults).append hbody).append (.of_labelCount hret)

theorem compileMethod_draws {mc : MethodCode} (h : o.compileMethod q c m s = .ok (mc, s')) :
    Draws s mc.code.toList s' := by
  simp only [CompileOptions.compileMethod, Gen.bind_eq_ok, CompileOptions.finish_eq_ok] at h
  obtain ⟨code, s₁, hb, -, rfl, rfl⟩ := h
  exact MethodDecl.compileBody_draws hb

theorem compileConstructor_draws {mc : MethodCode} (h : o.compileConstructor q c m s = .ok (mc, s')) :
    Draws s mc.code.toList s' := by
  simp only [CompileOptions.compileConstructor, Gen.bind_eq_ok, CompileOptions.finish_eq_ok] at h
  obtain ⟨code, s₁, hb, -, rfl, rfl⟩ := h
  exact (Draws.of_labelCount (c.labelCount_prologue _)).append (MethodDecl.compileBody_draws hb)

theorem defaultConstructor_draws {mc : MethodCode} (h : o.defaultConstructor c s = .ok (mc, s')) :
    Draws s mc.code.toList s' := by
  simp only [CompileOptions.defaultConstructor, Gen.bind_eq_ok, CompileOptions.finish_eq_ok, Gen.freeSlotsFrom,
    Except.ok.injEq, Prod.mk.injEq, true_and] at h
  obtain ⟨_, s₁, rfl, -, rfl, rfl⟩ := h
  have hnone : Draws s (c.prologue c.token.pos.line ++ onLine c.token.pos.line [.ret]) s :=
    .of_labelCount fun l => by simp [c.labelCount_prologue]
  exact ⟨fun n => ⟨(hnone.once n).mono, (hnone.once n).once, (hnone.once n).free⟩, hnone.numbered⟩

theorem compileMethods_draws {ms : List MethodDecl} {mcs : List MethodCode}
    (h : o.compileMethods q c ms s = .ok (mcs, s')) : Draws s (codeOfMethods mcs) s' := by
  induction ms generalizing s mcs with
  | nil =>
    simp only [CompileOptions.compileMethods, Gen.pure_eq_ok] at h
    obtain ⟨rfl, rfl⟩ := h
    exact .of_labelCount fun _ => rfl
  | cons m ms ih =>
    simp only [CompileOptions.compileMethods, Gen.bind_eq_ok, Gen.within_eq_ok, Gen.pure_eq_ok] at h
    obtain ⟨mc, s₁, hm, rest, s₂, hrest, rfl, rfl⟩ := h
    exact (compileMethod_draws hm).append (ih hrest)

theorem compileConstructors_draws {mcs : List MethodCode} (h : o.compileConstructors q c s = .ok (mcs, s')) :
    Draws s (codeOfMethods mcs) s' := by
  unfold CompileOptions.compileConstructors at h
  cases hc : c.constructor with
  | none =>
    simp only [hc, Gen.bind_eq_ok, Gen.pure_eq_ok] at h
    obtain ⟨d, s₁, hd, rfl, rfl⟩ := h
    simpa [codeOfMethods] using defaultConstructor_draws hd
  | some m =>
    simp only [hc] at h
    split at h
    · simp only [Gen.bind_eq_ok, Gen.within_eq_ok, Gen.pure_eq_ok] at h
      obtain ⟨mc, s₁, hm, rfl, rfl⟩ := h
      simpa [codeOfMethods] using compileConstructor_draws hm
    · simp only [Gen.bind_eq_ok, Gen.within_eq_ok, Gen.pure_eq_ok] at h
      obtain ⟨d, s₁, hd, mc, s₂, hm, rfl, rfl⟩ := h
      simpa [codeOfMethods] using (defaultConstructor_draws hd).append (compileConstructor_draws hm)

theorem compileClass_draws {f : ClassFile} (h : o.compileClass q c s = .ok (f, s')) :
    Draws s (codeOfMethods f.methods) s' := by
  simp only [CompileOptions.compileClass, Gen.bind_eq_ok, Gen.pure_eq_ok] at h
  obtain ⟨ks, s₁, hk, ms, s₂, hm, rfl, rfl⟩ := h
  have hentry : ∀ l, labelCount (codeOfMethods (c.entryPoint o)) l = 0 := by
    intro l
    unfold ClassDecl.entryPoint
    split <;> simp [codeOfMethods, CompileOptions.method, ClassDecl.entryCode]
  have hall := ((Draws.of_labelCount hentry).append (compileConstructors_draws hk)).append (compileMethods_draws hm)
  simpa [codeOfMethods, ClassDecl.entryPoint] using hall

theorem compileClasses_draws {cs : List ClassDecl} {files : List ClassFile}
    (h : o.compileClasses q cs s = .ok (files, s')) : Draws s (codeOfFiles files) s' := by
  induction cs generalizing s files with
  | nil =>
    simp only [CompileOptions.compileClasses, Gen.pure_eq_ok] at h
    obtain ⟨rfl, rfl⟩ := h
    exact .of_labelCount fun _ => rfl
  | cons c cs ih =>
    simp only [CompileOptions.compileClasses, Gen.bind_eq_ok, Gen.within_eq_ok, Gen.pure_eq_ok] at h
    obtain ⟨f, s₁, hf, rest, s₂, hrest, rfl, rfl⟩ := h
    exact (compileClass_draws hf).append (ih hrest)

/-- No label is placed twice in all the files of a program. -/
theorem Program.compile_labels {p : Program} {files : List ClassFile} (h : Program.compile o q p = .ok files)
    (l : String) : labelCount (codeOfFiles files) l ≤ 1 := by
  unfold Program.compile at h
  split at h
  · next fs s' hc =>
    obtain rfl := Except.ok.inj h
    exact (compileClasses_draws hc).labelCount_le_one l
  · cases h

end

end ClassCompiler
