import ClassCompiler.Proofs.Compile.Methods
import ClassCompiler.Proofs.Code.Descriptor
import ClassCompiler.Proofs.Tree.Ancestors
import ClassCompiler.Proofs.Machine.Moves

namespace ClassCompiler

theorem find?_reverse_of_nodup {α β : Type} [DecidableEq β] (key : α → β) {xs : List α}
    (h : (xs.map key).Nodup) (k : β) : xs.reverse.find? (fun x => key x = k) = xs.find? (fun x => key x = k) := by
  cases hx : xs.find? (fun x => key x = k) with
  | none => simpa using hx
  | some x =>
    have hmem := List.mem_of_find?_eq_some hx
    have hk : key x = k := by simpa using List.find?_some hx
    subst hk
    exact find?_eq_some_of_nodup key (by rw [List.map_reverse]; exact List.pairwise_reverse.2 (h.imp Ne.symm)) (List.mem_reverse.2 hmem)

theorem find?_rel {α β : Type} {R : α → β → Prop} {P : α → Bool} {Q : β → Bool}
    (hk : ∀ x y, R x y → Q y = P x) {xs : List α} {ys : List β} (h : List.Forall₂ R xs ys) :
    Option.Rel R (xs.find? P) (ys.find? Q) := by
  induction h with
  | nil => exact .none
  | @cons x y xs ys hr _ ih =>
    rw [List.find?_cons, List.find?_cons, hk x y hr]
    cases P x with
    | true => exact .some hr
    | false => exact ih

/-- The files of a program in which no two classes have one name. -/
structure FilesOf (o : CompileOptions) (p : Program) (files : List ClassFile) : Prop where
  distinct : (p.classes.map (·.name.name)).Nodup
  each : List.Forall₂ (FileOf o p) p.classes files

namespace FilesOf

variable {o : CompileOptions} {p : Program} {files : List ClassFile}

/-- Under every name the machine has the file of the class that the program has. -/
theorem class? (h : FilesOf o p files) (name : String) :
    Option.Rel (FileOf o p) (p.class? name) ((Machine.load files).class? name) := by
  rw [Machine.class?, Machine.load, find?_reverse_of_nodup ClassFile.name (names_of_fileOf h.each ▸ h.distinct)]
  exact find?_rel (fun c f hf => by rw [hf.name]) h.each

theorem file (h : FilesOf o p files) {c : ClassDecl} (hc : c ∈ p.classes) :
    ∃ f, (Machine.load files).class? c.name.name = some f ∧ FileOf o p c f := by
  have hrel := h.class? c.name.name
  have hclass : p.class? c.name.name = some c :=
    find?_eq_some_of_nodup (fun c : ClassDecl => c.name.name) h.distinct hc
  rw [hclass] at hrel
  cases hf : (Machine.load files).class? c.name.name with
  | none => rw [hf] at hrel; cases hrel
  | some f =>
    rw [hf] at hrel
    cases hrel with
    | some hr => exact ⟨f, rfl, hr⟩

end FilesOf

/-- A name of a program's own: not that of a class of the runtime's packages. -/
def Unqualified (name : String) : Prop := name ≠ "" ∧ '/' ∉ name.toList

theorem Unqualified.ne_rootClass {name : String} (h : Unqualified name) : name ≠ rootClass := by
  rintro rfl
  exact h.2 (by decide)

theorem Unqualified.ne_arrayListClass {name : String} (h : Unqualified name) : name ≠ arrayListClass := by
  rintro rfl
  exact h.2 (by decide)

section

variable {o : CompileOptions} {p : Program}

/-- Walks over declarations and over their files meet the same classes. -/
theorem forall₂_chainIn {steps : Nat} {cs : List ClassDecl} {fs : List ClassFile}
    (hfind : ∀ n, Option.Rel (FileOf o p) (findClass? cs n) (fs.find? (·.name = n)))
    (hnames : ∀ c ∈ cs, Unqualified c.name.name) {name super : String}
    (hs : super = name ∨ name = "" ∧ super = rootClass) :
    List.Forall₂ (FileOf o p) (ancestorsIn steps cs name) (Machine.chainIn steps fs super) := by
  induction steps generalizing cs fs name super with
  | zero => exact .nil
  | succ steps ih =>
    have hrel : Option.Rel (FileOf o p) (findClass? cs name) (fs.find? (·.name = super)) := by
      rcases hs with rfl | ⟨rfl, rfl⟩
      · exact hfind super
      · -- neither the empty name nor that of the root class is one of a declared class
        have hnone : ∀ n, (∀ c ∈ cs, c.name.name ≠ n) → findClass? cs n = none := by
          intro n hn
          exact List.find?_eq_none.2 fun c hc => by simpa using hn c hc
        have hroot := hfind rootClass
        rw [hnone rootClass fun c hc => (hnames c hc).ne_rootClass] at hroot
        rwa [hnone "" fun c hc => (hnames c hc).1]
    rw [ancestorsIn, Machine.chainIn]
    cases hc : findClass? cs name with
    | none =>
      rw [hc] at hrel
      cases hf : fs.find? (·.name = super) with
      | none => exact .nil
      | some f => rw [hf] at hrel; cases hrel
    | some c =>
      rw [hc] at hrel
      cases hf : fs.find? (·.name = super) with
      | none => rw [hf] at hrel; cases hrel
      | some f =>
        rw [hf] at hrel
        cases hrel with
        | some hr =>
          have hsuper : super = name := by
            have hfn : f.name = super := by simpa using List.find?_some hf
            rw [← hfn, hr.name, (findClass?_name hc).2]
          subst hsuper
          refine .cons hr (ih (fun n => ?_) (fun d hd => hnames d (List.mem_filter.1 hd).1) ?_)
          · rw [findClass?_filter_ne, find?_filter_ne ClassFile.name]
            split
            · exact .none
            · exact hfind n
          · rw [hr.super, ClassDecl.superName]
            split
            · next he => exact .inr ⟨he, rfl⟩
            · exact .inl rfl

variable {files : List ClassFile}

theorem FilesOf.chain (h : FilesOf o p files) (hnames : ∀ c ∈ p.classes, Unqualified c.name.name) (name : String) :
    List.Forall₂ (FileOf o p) (p.ancestors name) ((Machine.load files).chain name) := by
  have hlength : (Machine.load files).classes.length = p.classes.length := by
    simpa [Machine.load] using congrArg List.length (names_of_fileOf h.each)
  rw [Machine.chain, hlength]
  exact forall₂_chainIn h.class? hnames (.inl rfl)

/-- An object can be narrowed to the declared ancestors of its class. -/
theorem FilesOf.isInstance (h : FilesOf o p files) (hnames : ∀ c ∈ p.classes, Unqualified c.name.name)
    {heap : Heap} {v : Value} {cls : String} {fields : List (String × Value)}
    (hv : heap.get? v = some (.inst cls fields)) {target : String} (ht : p.hasClass target = true) :
    (Machine.load files).isInstance heap v target = p.hasAncestor cls target := by
  have hroot : target ≠ rootClass := by
    obtain ⟨d, hd⟩ := Option.isSome_iff_exists.1 ht
    obtain ⟨hmem, hn⟩ := findClass?_name hd
    exact hn ▸ (hnames d hmem).ne_rootClass
  have hchain : (∃ f ∈ (Machine.load files).chain cls, f.name = target) ↔
      ∃ c ∈ p.ancestors cls, c.name.name = target := by
    have hall := h.chain hnames cls
    generalize p.ancestors cls = cs at hall
    generalize (Machine.load files).chain cls = fs at hall
    induction hall with
    | nil => simp
    | cons hr _ ih => simp [hr.name, ih]
  rw [Bool.eq_iff_iff, Program.hasAncestor_iff ht, ← hchain]
  simp [Machine.isInstance, hroot, hv]

theorem Emits.generated {ctx : Context} {q : Piece} {s s' : Supply} {code : List Instr} {sp : List Span}
    (h : Emits ctx q s code s' sp) : ctx.compilePiece q s = .ok (code, s') := by
  cases h with
  | intro _ _ _ hg => exact hg

theorem MethodOf.name {c : ClassDecl} {d : MethodDecl} {mc : MethodCode} (h : MethodOf o p c d mc) :
    mc.name = d.name.name ∧ mc.isStatic = false := by
  obtain ⟨code, -, rfl⟩ := h
  exact ⟨rfl, rfl⟩

/-- The code of a method is what is generated for its declaration. -/
theorem MethodOf.compiled {c : ClassDecl} {d : MethodDecl} {mc : MethodCode} (h : MethodOf o p c d mc) :
    ∃ s s', o.compileMethod p c d s = .ok (mc, s') := by
  obtain ⟨code, ⟨b, hslots⟩, rfl⟩ := h
  have hstmts : Context.compileStmts ⟨p, c.name.name, d⟩ none d.body ⟨b.labels, d.slotCount⟩ =
      .ok (b.stmts, b.after) := b.emits.generated
  have hbody : d.compileBody p c ⟨b.labels, 0⟩ = .ok (code, b.after) := by
    simp only [MethodDecl.compileBody, Gen.bind_eq_ok, Gen.pure_eq_ok]
    exact ⟨(), ⟨b.labels, d.slotCount⟩, rfl, _, _, hstmts, b.code_eq.symm, rfl⟩
  refine ⟨⟨b.labels, 0⟩, b.after, ?_⟩
  simp only [CompileOptions.compileMethod, Gen.bind_eq_ok, CompileOptions.finish_eq_ok]
  exact ⟨code, b.after, hbody, hslots, rfl, rfl⟩

theorem ConstructorsOf.names {c : ClassDecl} {ks : List MethodCode} (h : ConstructorsOf o p c ks) :
    ∀ k ∈ ks, k.name = initName := by
  cases h with
  | none => simp [ClassDecl.defaultConstructor, CompileOptions.method]
  | plain _ _ hk =>
    obtain ⟨_, -, rfl⟩ := hk
    simp [CompileOptions.method]
  | withArgs _ _ hk =>
    obtain ⟨_, -, rfl⟩ := hk
    simp [ClassDecl.defaultConstructor, CompileOptions.method]

/-- The method with a receiver that a file has under a name is the declared one. -/
theorem FileOf.methodNamed? {c : ClassDecl} {f : ClassFile} (h : FileOf o p c f) {name : String}
    (hn : name ≠ initName) : Option.Rel (MethodOf o p c) (c.method? name) (f.methodNamed? name) := by
  obtain ⟨ks, ms, hks, hms, hm⟩ := h.methods
  have hstart : ∀ mc ∈ c.entryPoint o ++ ks, ¬(decide (mc.name = name) && !mc.isStatic) = true := by
    intro mc hmc
    rcases List.mem_append.1 hmc with hmc | hmc
    · unfold ClassDecl.entryPoint at hmc
      split at hmc
      · rw [List.mem_singleton.1 hmc]
        simp [CompileOptions.method]
      · cases hmc
    · simp [hks.names mc hmc, Ne.symm hn]
  rw [ClassFile.methodNamed?, hm, List.find?_append, List.find?_eq_none.2 hstart, Option.none_or]
  exact find?_rel (fun d mc hd => by rw [hd.name.1, hd.name.2, Bool.not_false, Bool.and_true]) hms

/-- Code that was generated for the declaration of a method that a class itself has. -/
def CodeOf (o : CompileOptions) (p : Program) (owner name : String) (d : MethodDecl) (code : MethodCode) : Prop :=
  ∃ c ∈ p.classes, c.name.name = owner ∧ c.method? name = some d ∧ ∃ s s', o.compileMethod p c d s = .ok (code, s')

/-- Whether and how a call of a bound method goes on, as the declarations have it. -/
def DispatchesTo (o : CompileOptions) (p : Program) (heap : Heap) (receiver : Value) (name : String)
    (args : List Value) (answer : Except Fault Reply) : Option (String × MethodDecl) → Prop
  | none => ∃ notes, answer = fault .noSuchMethod notes
  | some (owner, d) => ∃ code, CodeOf o p owner name d code ∧
    if d.args.length = args.length then answer = .ok (.call heap owner code (receiver :: args))
    else ∃ notes, answer = fault .noSuchMethod notes

theorem MethodOf.argCount {c : ClassDecl} {d : MethodDecl} {mc : MethodCode} (h : MethodOf o p c d mc)
    (hw : d.Written) : argCount mc.desc = d.args.length := by
  obtain ⟨code, -, rfl⟩ := h
  exact hw.argCount _

/-- A call of a bound method runs the method that the class of the receiver has or inherits. -/
theorem FilesOf.dispatch (h : FilesOf o p files) (hw : p.Written) {heap : Heap} {v : Value} {cls : String}
    {fields : List (String × Value)} (hv : heap.get? v = some (.inst cls fields)) {name : String}
    (hn : name ≠ initName) (args : List Value) :
    DispatchesTo o p heap v name args ((Machine.load files).dispatch heap v name args) (p.method? cls name) := by
  have hinst : asInstance heap v = .ok (cls, fields) := by
    have hnull : v.isNull = false := by
      cases v with
      | null => simp [Heap.get?] at hv
      | _ => rfl
    simp [asInstance, hnull, hv]
  have htable : ((Machine.load files).class? cls).bind (·.table.lookup name) = (p.method? cls name).map Prod.fst := by
    have hrel := h.class? cls
    cases hc : p.class? cls with
    | none =>
      rw [hc] at hrel
      have hnone : p.method? cls name = none := by simp [Program.method?, Program.ancestors_eq_nil hc]
      rw [hnone]
      generalize (Machine.load files).class? cls = found at hrel
      cases hrel
      rfl
    | some c =>
      rw [hc] at hrel
      generalize (Machine.load files).class? cls = found at hrel
      cases hrel with
      | some hf => rw [Option.bind_some, hf.table, (findClass?_name hc).2, Program.lookup_methodTable]
  rw [Machine.dispatch, hinst]
  simp only [htable]
  cases hm : p.method? cls name with
  | none => exact ⟨_, rfl⟩
  | some r =>
    obtain ⟨owner, d⟩ := r
    obtain ⟨c, hc, hd⟩ := List.exists_of_findSome?_eq_some hm
    simp only [Option.map_eq_some_iff, Prod.mk.injEq] at hd
    obtain ⟨d', hd, rfl, rfl⟩ := hd
    have hmem := Program.mem_of_mem_ancestors hc
    obtain ⟨f, hf, hfile⟩ := h.file hmem
    have hcode := hfile.methodNamed? hn
    rw [hd] at hcode
    simp only [Option.map_some, hf]
    generalize f.methodNamed? name = found at hcode
    cases hcode with
    | @some _ code hcode =>
      refine ⟨code, ⟨c, hmem, rfl, hd, hcode.compiled⟩, ?_⟩
      simp only [hcode.argCount ((hw c hmem).bodies d' (by
        simp [ClassDecl.bodies, List.mem_of_find?_eq_some hd])), hfile.name]
      split
      · rfl
      · exact ⟨_, rfl⟩

end

/-- The machine that runs an accepted program has its hierarchy: bound methods are looked up in it, objects
are narrowed by it, and methods are inherited along it. -/
theorem accepted_hierarchy {o : CompileOptions} {p : Program} {files : List ClassFile}
    (hw : p.Written) (ha : (p.check o.entry).issues = [])
    (hd : (p.classes.map (·.name.name)).Nodup) (hn : ∀ c ∈ p.classes, Unqualified c.name.name)
    (hc : Program.compile o (p.check o.entry).decl (p.check o.entry).decl = .ok files) :
    (∀ heap v cls fields, Heap.get? heap v = some (.inst cls fields) →
      (∀ name, name ≠ initName → ∀ args, DispatchesTo o p heap v name args
        ((Machine.load files).dispatch heap v name args) (p.method? cls name)) ∧
      ∀ target, p.hasClass target = true →
        (Machine.load files).isInstance heap v target = p.hasAncestor cls target) ∧
    ∀ cls name, (p.method? cls name).isSome → ∀ heir, p.hasAncestor heir cls = true → (p.method? heir name).isSome := by
  obtain ⟨hdecl, -⟩ := Program.check_clean ha
  rw [hdecl] at hc
  have hfiles : FilesOf o p files := ⟨hd, Program.compile_ok hc⟩
  refine ⟨fun heap v cls fields hv => ⟨fun name hne args => ?_, fun target ht => ?_⟩, fun cls name hm heir hh => ?_⟩
  · exact hfiles.dispatch hw hv hne args
  · exact hfiles.isInstance hn hv ht
  · exact Program.method?_of_hasAncestor hm hh

namespace Pedigree

open Sample

def answering (method : String) (type : Ty) (result : Expr) : MethodDecl where
  token := {}
  name := ident method
  returnType := some type
  body := [.ret {} (some result)]

def child (name parent : String) (methods : List MethodDecl) : ClassDecl :=
  { token := {}, name := ident name, parent := some (ident parent), methods }

def main : ClassDecl where
  token := {}
  name := ident "Main"
  constructor := some {
    token := {}
    name := ident "Main"
    locals := [var "d" (.cls "Duck")]
    body := [
      .assign ⟨{}, value "d", .new {} (ident "Duck") []⟩,
      .print {} (.call {} (field (value "d") "legs") []),
      .print {} (.call {} (field (value "d") "kind") [])] }

def animal : ClassDecl where
  token := {}
  name := ident "Animal"
  methods := [answering "legs" .int (.int {} 4), answering "kind" .string (.string {} "animal")]

/-- A duck has the legs of a bird, and is called what all animals are. A hen comes of an egg, an egg of a hen. -/
def program : Program where
  file := "sample"
  classes := [main, child "Duck" "Bird" [], child "Bird" "Animal" [answering "legs" .int (.int {} 2)], animal,
    child "Hen" "Egg" [answering "kind" .string (.string {} "hen")], child "Egg" "Hen" []]

theorem written : program.Written := by decide +kernel

theorem accepted : (program.check "Main").issues = [] := by decide +kernel

end Pedigree

theorem accepted_hierarchy_sample :
    ∃ files, (∀ heap v cls fields, Heap.get? heap v = some (.inst cls fields) →
      (∀ name, name ≠ initName → ∀ args, DispatchesTo {} Pedigree.program heap v name args
        ((Machine.load files).dispatch heap v name args) (Pedigree.program.method? cls name)) ∧
      ∀ target, Pedigree.program.hasClass target = true →
        (Machine.load files).isInstance heap v target = Pedigree.program.hasAncestor cls target) ∧
    (∀ cls name, (Pedigree.program.method? cls name).isSome → ∀ heir, Pedigree.program.hasAncestor heir cls = true →
      (Pedigree.program.method? heir name).isSome) ∧
    Pedigree.program.method? "Duck" "legs" = some ("Bird", Pedigree.answering "legs" .int (.int {} 2)) ∧
    Pedigree.program.method? "Duck" "kind" =
      some ("Animal", Pedigree.answering "kind" .string (.string {} "animal")) ∧
    Pedigree.program.method? "Egg" "kind" = some ("Hen", Pedigree.answering "kind" .string (.string {} "hen")) ∧
    Pedigree.program.hasAncestor "Duck" "Animal" = true ∧ Pedigree.program.hasAncestor "Animal" "Duck" = false ∧
    Pedigree.program.hasAncestor "Hen" "Egg" = true ∧ Pedigree.program.hasAncestor "Egg" "Hen" = true ∧
    (Machine.load files).run false 100 "Main" = .finished "2animal" := by
  have hrun : (Program.compile {} (Pedigree.program.check "Main").decl
      (Pedigree.program.check "Main").decl).toOption.bind
      (fun files => ((Machine.load files).run false 100 "Main").printed?) = some "2animal" := by decide +kernel
  obtain ⟨files, hf, hprinted⟩ := exists_ok_of_bind hrun
  obtain ⟨hlooked, hinherited⟩ := accepted_hierarchy (o := {}) Pedigree.written Pedigree.accepted (by decide)
    (by unfold Unqualified; decide) hf
  exact ⟨files, hlooked, hinherited, rfl, rfl, rfl, by decide, by decide, by decide, by decide,
    Outcome.eq_finished hprinted⟩

end ClassCompiler
