import ClassCompiler.Proofs.Code.Native
import ClassCompiler.Proofs.Machine.Hierarchy
import ClassCompiler.Proofs.Compile.Admitted

namespace ClassCompiler

/-- What an operation refers to is a class or a member that the machine has. -/
def Op.Links (m : Machine) : Op → Prop
  | .new cls => cls ∈ [listClass, fptrClass, arrayListClass] ∨ (m.class? cls).isSome
  | .getField r | .putField r => ∃ f, m.class? r.owner = some f ∧ (r.name, r.desc) ∈ f.fields
  | .getStatic r => r.owner = outField.owner ∧ r.name = outField.name
  | .invokeSpecial r => r.name = initName ∧
    ((NativeConstructor.ofRef? r).isSome ∨ r.owner = rootClass ∨ r.owner = arrayListClass ∨
      ∃ f, m.class? r.owner = some f ∧ (f.method? r.name r.desc).isSome)
  | .invokeVirtual r => (NativeMethod.ofRef? r).isSome
  | .invokeStatic r => (NativeStatic.ofRef? r).isSome
  | _ => True

def AllLink (m : Machine) (os : List Op) : Prop := ∀ op ∈ os, op.Links m

section

variable {m : Machine}

@[simp] theorem allLink_nil : AllLink m [] := List.forall_mem_nil _

@[simp] theorem allLink_cons {op : Op} {os : List Op} : AllLink m (op :: os) ↔ op.Links m ∧ AllLink m os :=
  List.forall_mem_cons

@[simp] theorem allLink_append {os os' : List Op} : AllLink m (os ++ os') ↔ AllLink m os ∧ AllLink m os' :=
  List.forall_mem_append

attribute [local simp] Op.Links

@[simp] theorem links_method (n : NativeMethod) : (Op.invokeVirtual n.ref).Links m := by simp

@[simp] theorem links_static (n : NativeStatic) : (Op.invokeStatic n.ref).Links m := by simp

@[simp] theorem NativeConstructor.ref_name (n : NativeConstructor) : n.ref.name = initName := by cases n <;> rfl

@[simp] theorem links_constructor (n : NativeConstructor) : (Op.invokeSpecial n.ref).Links m := by simp

@[simp] theorem links_outField : (Op.getStatic outField).Links m := ⟨rfl, rfl⟩

@[simp] theorem links_newList : (Op.new listClass).Links m := .inl (by simp)

@[simp] theorem links_newFptr : (Op.new fptrClass).Links m := .inl (by simp)

@[simp] theorem allLink_box (t : Ty) : AllLink m (box t) := by cases t <;> simp [box]

@[simp] theorem allLink_unbox (t : Ty) : AllLink m (unbox t) := by cases t <;> simp [unbox]

@[simp] theorem allLink_narrow (t : Ty) : AllLink m (narrow t) := by
  cases t <;> simp [narrow]

@[simp] theorem allLink_newArrayList : AllLink m newArrayList := by simp [newArrayList]

@[simp] theorem allLink_addElement : AllLink m addElement := by simp [addElement]

@[simp] theorem allLink_branchMerge (j : Jump) (taken : Int) (yes after : String) :
    AllLink m (branchMerge j taken yes after) := by simp [branchMerge]

@[simp] theorem allLink_changeBy (delta : Int) (isPre : Bool) (slot : Nat) :
    AllLink m (changeBy delta isPre slot) := by cases isPre <;> simp [changeBy]

@[simp] theorem allLink_changeVariable (slot : Nat) (op : UnOp) : AllLink m (changeVariable slot op) := by
  unfold changeVariable
  split <;> simp

@[simp] theorem allLink_copyBegin (left right : Ty) : AllLink m (copyBegin left right) := by
  unfold copyBegin
  split <;> simp

@[simp] theorem allLink_copyEnd (left right : Ty) : AllLink m (copyEnd left right) := by
  unfold copyEnd
  split <;> simp

@[simp] theorem allLink_callResultOps (t : Ty) : AllLink m (Context.callResultOps t) := by
  cases t with
  | fptr ps r => cases h : r.isVoid <;> simp [Context.callResultOps, h]
  | _ => simp [Context.callResultOps]

@[simp] theorem allLink_returnValue (t : Ty) : AllLink m (returnValue t) := by
  unfold returnValue
  split <;> simp

@[simp] theorem allLink_castElement (t : Ty) : AllLink m (castElement t) := by
  unfold castElement
  split <;> simp

mutual

@[simp] theorem allLink_defaultValue (t : Ty) : AllLink m (defaultValue t) := by
  match t with
  | .int | .bool | .string | .null | .void | .noType | .cls _ | .fptr _ _ => simp [defaultValue]
  | .list es => simp [defaultValue, allLink_defaultElements es]

@[simp] theorem allLink_defaultElements (es : List (String × Ty)) : AllLink m (defaultElements es) := by
  match es with
  | [] => simp [defaultElements]
  | (_, t) :: es => simp [defaultElements, allLink_defaultValue t, allLink_defaultElements es]

end

/-- The machine has the classes of a program, with their fields and constructors. -/
def Machine.Provides (m : Machine) (p : Program) : Prop :=
  ∀ c ∈ p.classes, ∃ f, m.class? c.name.name = some f ∧
    (∀ v ∈ c.fields, (v.name.name, v.type.descriptor) ∈ f.fields) ∧ (f.method? initName "()V").isSome ∧
    ∀ d, c.constructor = some d → (f.method? initName d.constructorDescriptor).isSome

variable {p : Program}

namespace Machine.Provides

theorem field (h : m.Provides p) {cls name owner : String} {v : VarDecl} (hv : p.field? cls name = some (owner, v)) :
    ∃ f, m.class? owner = some f ∧ (name, v.type.descriptor) ∈ f.fields := by
  obtain ⟨c, hc, rfl, hmem, rfl⟩ := Program.field?_mem hv
  obtain ⟨f, hf, hfields, -⟩ := h c hc
  exact ⟨f, hf, hfields v hmem⟩

theorem noParams (h : m.Provides p) {cls : String} (hc : p.hasClass cls = true) :
    ∃ f, m.class? cls = some f ∧ (f.method? initName "()V").isSome := by
  obtain ⟨c, hc⟩ := Option.isSome_iff_exists.1 hc
  obtain ⟨hmem, rfl⟩ := findClass?_name hc
  obtain ⟨f, hf, -, hplain, -⟩ := h c hmem
  exact ⟨f, hf, hplain⟩

/-- The constructor of a class is there under the descriptor that it is called by. -/
theorem constructor (h : m.Provides p) {cls : String} (hc : p.hasClass cls = true) :
    ∃ f, m.class? cls = some f ∧ (f.method? initName (p.constructorDescriptor cls)).isSome := by
  unfold Program.constructorDescriptor
  cases hd : p.constructor? cls with
  | none => exact h.noParams hc
  | some d =>
    obtain ⟨c, hmem, rfl, hcd⟩ := Program.constructor?_mem hd
    obtain ⟨f, hf, -, -, hdeclared⟩ := h c hmem
    exact ⟨f, hf, hdeclared d hcd⟩

end Machine.Provides

theorem CompileOptions.find?_method (o : CompileOptions) {name desc : String} {isStatic : Bool} {code : List Instr}
    {f : ClassFile} (h : o.method name desc isStatic code ∈ f.methods) : (f.method? name desc).isSome :=
  List.find?_isSome.2 ⟨_, h, by simp [CompileOptions.method]⟩

variable {o : CompileOptions} {files : List ClassFile}

theorem FileOf.provides {c : ClassDecl} {f : ClassFile} (h : FileOf o p c f) :
    (f.method? initName "()V").isSome ∧
      ∀ d, c.constructor = some d → (f.method? initName d.constructorDescriptor).isSome := by
  obtain ⟨ks, ms, hks, -, hm⟩ := h.methods
  have hmem : ∀ k ∈ ks, k ∈ f.methods := fun k hk => by simp [hm, hk]
  cases hks with
  | none hn =>
    refine ⟨o.find?_method (hmem _ (List.mem_singleton_self _)), fun d hd => ?_⟩
    rw [hn] at hd
    cases hd
  | @plain d mc hc ha hk =>
    obtain ⟨code, -, rfl⟩ := hk
    have hfound := o.find?_method (hmem _ (List.mem_singleton_self _))
    refine ⟨?_, fun d' hd => by rw [hc] at hd; exact Option.some.inj hd ▸ hfound⟩
    simpa [MethodDecl.constructorDescriptor, ha, Ty.descriptor] using hfound
  | @withArgs d mc hc ha hk =>
    obtain ⟨code, -, rfl⟩ := hk
    refine ⟨o.find?_method (hmem _ (List.mem_cons_self ..)), fun d' hd => ?_⟩
    rw [hc] at hd
    exact Option.some.inj hd ▸ o.find?_method (hmem _ (List.mem_cons_of_mem _ (List.mem_singleton_self _)))

theorem FilesOf.provides (h : FilesOf o p files) : (Machine.load files).Provides p := by
  intro c hc
  obtain ⟨f, hf, hfile⟩ := h.file hc
  refine ⟨f, hf, fun v hv => ?_, hfile.provides⟩
  rw [hfile.fields]
  exact List.mem_map_of_mem hv

/-- The operations of an item link; those of its parts are left out. -/
def Item.Links (m : Machine) : Item → Prop
  | .ops _ os => AllLink m os
  | .part _ _ _ _ _ => True

variable {ctx : Context} {q : Piece} {s s' : Supply}

/-- A field that is counted up or down is a number. -/
theorem Context.Known.int_of_changed (hk : ctx.Known) {t u : Token} {op : UnOp} {x : Expr} {n : Ident}
    {c owner : String} {f : VarDecl} (ho : op.isIncDec = true) (ht : ctx.typeOf x = .cls c)
    (hf : ctx.table.field? c n.name = some (owner, f))
    (hc : (Piece.expr (.unary t op (.member u x n))).Clean ctx) : f.type = .int := by
  obtain ⟨dropped, hc⟩ := hc
  simp only [Context.inferCall, ho, if_true, List.append_eq_nil_iff] at hc
  obtain ⟨d, hd, -, hv, -⟩ := Program.field?_mem hf
  have hknown := hk.table.fields d hd f hv
  rw [← Context.typeOf_member_field (t := u) ht hf] at hknown ⊢
  exact (Context.increment_known hknown.isNoType hc.2).2.1

theorem Rule.links {items : List Item} (hr : Rule ctx q s items s') (hp : m.Provides ctx.table)
    (hk : ctx.Known) (hc : q.Clean ctx) : ∀ i ∈ items, i.Links m := by
  cases hr
  case field ht hf => simpa [Item.Links, Op.Links] using hp.field hf
  case new =>
    obtain ⟨dropped, hc⟩ := hc
    simp only [Context.inferCall, List.append_eq_nil_iff] at hc
    obtain ⟨hclass, -, -⟩ := Context.creation_ok hc.1.1 hc.2
    obtain ⟨f, hf, hfound⟩ := hp.constructor hclass
    simp [Item.Links, Op.Links, hf, hfound]
  case changeField ho ht hf =>
    obtain ⟨file, hfile, hmem⟩ := hp.field hf
    rw [hk.int_of_changed ho ht hf hc] at hmem
    simp [Item.Links, Op.Links, ClassCompiler.changeField, hfile, hmem]
  case assignField hl ht hf =>
    obtain ⟨file, hfile, hmem⟩ := hp.field hf
    rw [← Context.typeOf_member_field ht hf, ← hl] at hmem
    simp [Item.Links, Op.Links, storeField, hfile, hmem]
  all_goals
    simp [Item.Links, Op.Links, ClassCompiler.changeElement, storeElementOps]

def CodeLinks (m : Machine) (code : List Instr) : Prop := ∀ i ∈ code, i.op.Links m

@[simp] theorem codeLinks_append {code code' : List Instr} :
    CodeLinks m (code ++ code') ↔ CodeLinks m code ∧ CodeLinks m code' := List.forall_mem_append

@[simp] theorem codeLinks_onLine {line : Int} {os : List Op} : CodeLinks m (onLine line os) ↔ AllLink m os := by
  simp [CodeLinks, AllLink, onLine]

theorem Emits.links {code : List Instr} {sp : List Span} (h : Emits ctx q s code s' sp) (hp : m.Provides ctx.table)
    (hk : ctx.Known) (hc : q.Clean ctx) : CodeLinks m code := by
  induction h with
  | @intro q s s' items code hr _ hcode _ ih =>
    subst hcode
    have hown := hr.links hp hk hc
    have hparts := Parts.iff_forall_mem.1 (hr.clean hc)
    intro i hi
    obtain ⟨item, hitem, hmem⟩ := List.mem_flatMap.1 hi
    cases item with
    | ops line os => exact codeLinks_onLine.2 (hown _ hitem) i hmem
    | part q t c t' sp => exact ih q t c t' sp hitem (hparts q t c t' sp hitem) i hmem

variable {c : ClassDecl} {d : MethodDecl}

theorem MethodDecl.codeLinks_localDefaults (d : MethodDecl) : CodeLinks m d.localDefaults := by
  intro i hi
  obtain ⟨v, -, hi⟩ := List.mem_flatMap.1 hi
  have hall : CodeLinks m (onLine v.token.pos.line (defaultValue v.type ++ [.store .ref (d.localSlot v)])) := by
    simp [Op.Links]
  exact hall i hi

theorem BodyCode.links {code : List Instr} (b : BodyCode p c d code) (hp : m.Provides p)
    (hk : Context.Known ⟨p, c.name.name, d⟩) (hc : d.BodyClean p c.name.name) : CodeLinks m code := by
  have hret : CodeLinks m (if d.endsWithReturn then [] else onLine d.token.pos.line [.ret]) := by
    split <;> simp [CodeLinks, onLine, Op.Links]
  rw [b.code_eq, codeLinks_append, codeLinks_append]
  exact ⟨⟨d.codeLinks_localDefaults, b.emits.links hp hk hc.body⟩, hret⟩

/-- The parent of an accepted class is the root class or a class of the program. -/
theorem ClassDecl.Clean.superName {entry : String} (h : c.Clean entry p) :
    c.superName = rootClass ∨ p.hasClass c.superName = true := by
  by_cases hn : c.parentName = ""
  · exact .inl (by simp [ClassDecl.superName, hn])
  · exact .inr (by rw [ClassDecl.superName, if_neg hn]; exact h.hasParent hn)

theorem ClassDecl.Clean.codeLinks_prologue {entry : String} (h : c.Clean entry p) (hmem : c ∈ p.classes)
    (hp : m.Provides p) (line : Int) : CodeLinks m (c.prologue line) := by
  obtain ⟨f, hf, hfields, -⟩ := hp c hmem
  have hsuper : (Op.invokeSpecial ⟨c.superName, initName, "()V"⟩).Links m := by
    rcases h.superName with hs | hs
    · exact ⟨rfl, .inr (.inl hs)⟩
    · exact ⟨rfl, .inr (.inr (.inr (hp.noParams hs)))⟩
  have hdefaults : AllLink m (c.fields.flatMap c.fieldDefault) := by
    intro op hop
    obtain ⟨v, hv, hop⟩ := List.mem_flatMap.1 hop
    have hall : AllLink m (c.fieldDefault v) := by
      simp [ClassDecl.fieldDefault, Op.Links, hf, hfields v hv]
    exact hall op hop
  rw [ClassDecl.prologue, codeLinks_onLine, allLink_append]
  exact ⟨allLink_cons.2 ⟨trivial, allLink_cons.2 ⟨hsuper, allLink_nil⟩⟩, hdefaults⟩

theorem Machine.Provides.codeLinks_entryCode (hp : m.Provides p) (hmem : c ∈ p.classes) : CodeLinks m c.entryCode := by
  obtain ⟨f, hf, -, hplain, -⟩ := hp c hmem
  simp [ClassDecl.entryCode, Op.Links, hf, hplain]

/-- What holds of the code of each body, with or without the start of a constructor, of the constructor that
a class gets and of the entry point, holds of all code of the file. -/
theorem FileOf.forall_code {f : ClassFile} {P : List Instr → Prop} (h : FileOf o p c f) (hentry : P c.entryCode)
    (hdefault : P (c.prologue c.token.pos.line ++ onLine c.token.pos.line [.ret]))
    (hmethod : ∀ d ∈ c.methods, ∀ code, BodyCode p c d code → P code)
    (hctor : ∀ d, c.constructor = some d → ∀ code, BodyCode p c d code → P (c.prologue d.token.pos.line ++ code)) :
    ∀ mc ∈ f.methods, P mc.code.toList := by
  obtain ⟨ks, ms, hks, hms, hm⟩ := h.methods
  have hdeclared : ∀ {d mc}, c.constructor = some d → ConstructorOf o p c d mc → P mc.code.toList := by
    rintro d mc hd ⟨code, ⟨b, -⟩, rfl⟩
    exact hctor d hd code b
  rw [hm]
  refine List.forall_mem_append.2 ⟨List.forall_mem_append.2 ⟨?_, ?_⟩, fun mc hmc => ?_⟩
  · unfold ClassDecl.entryPoint
    split
    · exact List.forall_mem_singleton.2 hentry
    · exact List.forall_mem_nil _
  · cases hks with
    | none => exact List.forall_mem_singleton.2 hdefault
    | plain hc _ hk => exact List.forall_mem_singleton.2 (hdeclared hc hk)
    | withArgs hc _ hk => exact List.forall_mem_cons.2 ⟨hdefault, List.forall_mem_singleton.2 (hdeclared hc hk)⟩
  · obtain ⟨d, hd, code, ⟨b, -⟩, rfl⟩ := exists_mem_of_forall₂ hms hmc
    exact hmethod d hd code b

theorem FileOf.links {entry : String} {f : ClassFile} (h : FileOf o p c f) (hp : m.Provides p)
    (hclean : p.Clean entry) (hw : p.Written) (hmem : c ∈ p.classes) :
    ∀ mc ∈ f.methods, CodeLinks m mc.code.toList := by
  have hprologue := (hclean.classes c hmem).codeLinks_prologue hmem hp
  have hbody : ∀ d ∈ c.bodies, ∀ code, BodyCode p c d code → CodeLinks m code := fun d hd code b =>
    b.links hp (hclean.context_known hw hmem hd) (hclean.bodyClean hmem hd)
  refine h.forall_code (hp.codeLinks_entryCode hmem) ?_ (fun d hd => hbody d ?_) fun d hd code b => ?_
  · rw [codeLinks_append]
    exact ⟨hprologue _, by simp [Op.Links]⟩
  · simp [ClassDecl.bodies, hd]
  · rw [codeLinks_append]
    exact ⟨hprologue _, hbody d (by simp [ClassDecl.bodies, hd]) code b⟩

end

/-- Everything that the code of an accepted program refers to is there when the program runs. -/
theorem accepted_links {o : CompileOptions} {p : Program} {files : List ClassFile}
    (hw : p.Written) (ha : (p.check o.entry).issues = [])
    (hd : (p.classes.map (·.name.name)).Nodup)
    (hc : Program.compile o (p.check o.entry).decl (p.check o.entry).decl = .ok files) :
    ∀ f ∈ files, ∀ mc ∈ f.methods, ∀ i ∈ mc.code, i.op.Links (Machine.load files) := by
  obtain ⟨hdecl, hclean⟩ := Program.check_clean ha
  rw [hdecl] at hc
  have hfiles : FilesOf o p files := ⟨hd, Program.compile_ok hc⟩
  intro f hf mc hmc i hi
  obtain ⟨c, hmem, hfile⟩ := exists_mem_of_forall₂ hfiles.each hf
  exact hfile.links hfiles.provides hclean hw hmem mc hmc i (Array.mem_toList_iff.2 hi)

theorem accepted_links_sample :
    ∃ files, Program.compile {} (Tally.program.check "Main").decl (Tally.program.check "Main").decl = .ok files ∧
      ∀ f ∈ files, ∀ mc ∈ f.methods, ∀ i ∈ mc.code, i.op.Links (Machine.load files) := by
  obtain ⟨files, hf⟩ := Tally.compiled
  exact ⟨files, hf, accepted_links (o := {}) Tally.written Tally.accepted (by decide) hf⟩

end ClassCompiler
