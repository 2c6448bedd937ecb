import ClassCompiler.Proofs.Typing.Alike
import ClassCompiler.Proofs.Typing.Recheck
import ClassCompiler.Proofs.Typing.Settled

namespace ClassCompiler

/-- The same variable with a related type. -/
structure VarDecl.Retyped (R : Ty → Ty → Prop) (v w : VarDecl) : Prop where
  token : w.token = v.token
  name : w.name = v.name
  type : R v.type w.type

/-- `R` relates the types of the parameters, `L` those of the locals. -/
structure MethodDecl.Retyped (R L : Ty → Ty → Prop) (m n : MethodDecl) : Prop where
  token : n.token = m.token
  name : n.name = m.name
  args : List.Forall₂ (VarDecl.Retyped R) m.args n.args
  locals : List.Forall₂ (VarDecl.Retyped L) m.locals n.locals
  returnType : n.returnType = m.returnType
  body : n.body = m.body

structure ClassDecl.Retyped (R L : Ty → Ty → Prop) (c d : ClassDecl) : Prop where
  token : d.token = c.token
  name : d.name = c.name
  parent : d.parent = c.parent
  fields : List.Forall₂ (VarDecl.Retyped R) c.fields d.fields
  constructor : Option.Rel (MethodDecl.Retyped R L) c.constructor d.constructor
  methods : List.Forall₂ (MethodDecl.Retyped R L) c.methods d.methods

def Program.Retyped (R L : Ty → Ty → Prop) (p q : Program) : Prop :=
  List.Forall₂ (ClassDecl.Retyped R L) p.classes q.classes

variable {R L : Ty → Ty → Prop}

/-- Related questions are both answered or both not. -/
theorem optionRel_cases {α β : Type} {S : α → β → Prop} {a : Option α} {b : Option β} (h : Option.Rel S a b) :
    (a = none ∧ b = none) ∨ ∃ x y, a = some x ∧ b = some y ∧ S x y := by
  cases h with
  | none => exact .inl ⟨rfl, rfl⟩
  | some hxy => exact .inr ⟨_, _, rfl, rfl, hxy⟩

theorem optionRel_map {α β γ δ : Type} {S : α → β → Prop} {T : γ → δ → Prop} {f : α → γ} {g : β → δ}
    (hfg : ∀ x y, S x y → T (f x) (g y)) {a : Option α} {b : Option β} (h : Option.Rel S a b) :
    Option.Rel T (a.map f) (b.map g) := by
  cases h with
  | none => exact .none
  | some hxy => exact .some (hfg _ _ hxy)

theorem forall₂_append_cons {α : Type} {S : α → α → Prop} (hS : ∀ x, S x x) {x y : α} (h : S x y)
    (before after : List α) : List.Forall₂ S (before ++ x :: after) (before ++ y :: after) :=
  List.rel_append (List.forall₂_same.2 fun z _ => hS z) (.cons h (List.forall₂_same.2 fun z _ => hS z))

theorem VarDecl.retyped_self (hR : ∀ t, R t t) (v : VarDecl) : v.Retyped R v := ⟨rfl, rfl, hR v.type⟩

theorem VarDecl.retyped_all_self (hR : ∀ t, R t t) (vs : List VarDecl) : List.Forall₂ (VarDecl.Retyped R) vs vs :=
  List.forall₂_same.2 fun v _ => v.retyped_self hR

section

variable (hR : ∀ t, R t t) (hL : ∀ t, L t t)

include hR hL

theorem MethodDecl.retyped_self (m : MethodDecl) : m.Retyped R L m :=
  ⟨rfl, rfl, VarDecl.retyped_all_self hR _, VarDecl.retyped_all_self hL _, rfl, rfl⟩

theorem MethodDecl.retyped_option_self (m : Option MethodDecl) : Option.Rel (MethodDecl.Retyped R L) m m := by
  cases m with
  | none => exact .none
  | some m => exact .some (m.retyped_self hR hL)

theorem ClassDecl.retyped_self (c : ClassDecl) : c.Retyped R L c where
  token := rfl
  name := rfl
  parent := rfl
  fields := VarDecl.retyped_all_self hR c.fields
  constructor := MethodDecl.retyped_option_self hR hL c.constructor
  methods := List.forall₂_same.2 fun m _ => m.retyped_self hR hL

end

theorem forall₂_zipIdx {α β : Type} {S : α → β → Prop} {xs : List α} {ys : List β} (h : List.Forall₂ S xs ys) (k : Nat) :
    List.Forall₂ (fun a b => S a.1 b.1 ∧ a.2 = b.2) (xs.zipIdx k) (ys.zipIdx k) := by
  induction h generalizing k with
  | nil => exact .nil
  | cons hxy _ ih => exact .cons ⟨hxy, rfl⟩ (ih (k + 1))

namespace MethodDecl.Retyped

variable {m n : MethodDecl} (h : m.Retyped R L n)

include h

theorem result : n.result = m.result := by rw [MethodDecl.result, MethodDecl.result, h.returnType]

theorem paramTypes : List.Forall₂ R (m.args.map VarDecl.type) (n.args.map VarDecl.type) :=
  List.rel_map (fun _ _ hv => hv.type) h.args

end MethodDecl.Retyped

namespace MethodDecl

variable {m n : MethodDecl} (h : m.Retyped R R n)

include h

theorem symbols_retyped : List.Forall₂ (fun a b => b.name = a.name ∧ R a.type b.type) m.symbols n.symbols := by
  refine List.rel_append ?_ ?_
  · refine List.rel_map (fun a b hab => ?_) (forall₂_zipIdx h.args 1)
    exact ⟨congrArg Ident.name hab.1.name, hab.1.type⟩
  · rw [h.args.length_eq]
    refine List.rel_map (fun a b hab => ?_) (forall₂_zipIdx h.locals _)
    exact ⟨congrArg Ident.name hab.1.name, hab.1.type⟩

theorem symbol?_retyped (name : String) :
    Option.Rel (fun a b => b.name = a.name ∧ R a.type b.type) (m.symbol? name) (n.symbol? name) :=
  find?_rel (fun a b hab => by rw [hab.1]) (symbols_retyped h)

end MethodDecl

namespace ClassDecl.Retyped

variable {c d : ClassDecl} (h : c.Retyped R L d)

include h

theorem parentName : d.parentName = c.parentName := by rw [ClassDecl.parentName, ClassDecl.parentName, h.parent]

theorem field? (name : String) : Option.Rel (VarDecl.Retyped R) (c.field? name) (d.field? name) :=
  find?_rel (fun v w hvw => by rw [hvw.name]) h.fields

theorem method? (name : String) : Option.Rel (MethodDecl.Retyped R L) (c.method? name) (d.method? name) :=
  find?_rel (fun m n hmn => by rw [hmn.name]) h.methods

end ClassDecl.Retyped

theorem findClass?_retyped {cs ds : List ClassDecl} (h : List.Forall₂ (ClassDecl.Retyped R L) cs ds) (name : String) :
    Option.Rel (ClassDecl.Retyped R L) (findClass? cs name) (findClass? ds name) :=
  find?_rel (fun c d hcd => by rw [hcd.name]) h

theorem ancestorsIn_retyped {cs ds : List ClassDecl} (h : List.Forall₂ (ClassDecl.Retyped R L) cs ds) (steps : Nat)
    (name : String) :
    List.Forall₂ (ClassDecl.Retyped R L) (ancestorsIn steps cs name) (ancestorsIn steps ds name) := by
  induction steps generalizing cs ds name with
  | zero => exact .nil
  | succ steps ih =>
    rw [ancestorsIn, ancestorsIn]
    obtain ⟨hc, hd⟩ | ⟨c, d, hc, hd, hcd⟩ := optionRel_cases (findClass?_retyped h name)
    · rw [hc, hd]
      exact .nil
    · rw [hc, hd]
      refine .cons hcd (hcd.parentName ▸ ih (List.rel_filter (fun a b hab => ?_) h) _)
      simp [hab.name]

theorem findSome?_rel {α β γ δ : Type} {S : α → β → Prop} {T : γ → δ → Prop} {f : α → Option γ} {g : β → Option δ}
    (hfg : ∀ x y, S x y → Option.Rel T (f x) (g y)) {xs : List α} {ys : List β} (h : List.Forall₂ S xs ys) :
    Option.Rel T (xs.findSome? f) (ys.findSome? g) := by
  induction h with
  | nil => exact .none
  | @cons x y xs ys hxy _ ih =>
    rw [List.findSome?_cons, List.findSome?_cons]
    obtain ⟨hx, hy⟩ | ⟨a, b, hx, hy, hab⟩ := optionRel_cases (hfg x y hxy)
    · rw [hx, hy]
      exact ih
    · rw [hx, hy]
      exact .some hab

namespace Program.Retyped

variable {p q : Program} (h : p.Retyped R L q)

include h

theorem ancestors (name : String) : List.Forall₂ (ClassDecl.Retyped R L) (p.ancestors name) (q.ancestors name) := by
  rw [Program.ancestors, Program.ancestors, h.length_eq]
  exact ancestorsIn_retyped h _ name

theorem class? (name : String) : Option.Rel (ClassDecl.Retyped R L) (p.class? name) (q.class? name) :=
  findClass?_retyped h name

theorem names : q.classes.map (·.name.name) = p.classes.map (·.name.name) :=
  (map_eq_of_forall₂ h fun _ _ hcd => (congrArg Ident.name hcd.name).symm).symm

theorem field? (cls name : String) :
    Option.Rel (fun a b => a.2.Retyped R b.2) (p.field? cls name) (q.field? cls name) := by
  refine findSome?_rel (fun c d hcd => ?_) (h.ancestors cls)
  refine optionRel_map (fun _ _ hvw => ?_) (hcd.field? name)
  exact hvw

theorem method? (cls name : String) :
    Option.Rel (fun a b => a.2.Retyped R L b.2) (p.method? cls name) (q.method? cls name) := by
  refine findSome?_rel (fun c d hcd => ?_) (h.ancestors cls)
  refine optionRel_map (fun _ _ hmn => ?_) (hcd.method? name)
  exact hmn

theorem constructorParams (cls : String) : List.Forall₂ R (p.constructorParams cls) (q.constructorParams cls) := by
  unfold Program.constructorParams Program.constructor?
  obtain ⟨hc, hd⟩ | ⟨c, d, hc, hd, hcd⟩ := optionRel_cases (h.class? cls)
  · rw [hc, hd]
    exact .nil
  · rw [hc, hd, Option.bind_some, Option.bind_some]
    obtain ⟨hm, hn⟩ | ⟨m, n, hm, hn, hmn⟩ := optionRel_cases hcd.constructor
    · rw [hm, hn]
      exact .nil
    · rw [hm, hn]
      exact hmn.paramTypes

theorem hasClass : q.hasClass = p.hasClass := Program.hasClass_congr h.names

theorem hasAncestor : q.hasAncestor = p.hasAncestor := by
  funext name ancestor
  have hmap : (q.ancestors name).map (fun c => (c.name.name, c.parentName)) =
      (p.ancestors name).map (fun c => (c.name.name, c.parentName)) :=
    (map_eq_of_forall₂ (h.ancestors name) fun _ _ hcd => by rw [hcd.name, hcd.parentName]).symm
  have hany (r : Program) : (r.ancestors name).any (fun c => c.name.name = ancestor || c.parentName = ancestor) =
      ((r.ancestors name).map fun c => (c.name.name, c.parentName)).any fun c => c.1 = ancestor || c.2 = ancestor := by
    rw [List.any_map]
    rfl
  rw [Program.hasAncestor, Program.hasAncestor, hany q, hany p, hmap]

theorem isSubtype (a b : Ty) : q.isSubtype a b = p.isSubtype a b := by
  rw [Program.isSubtype, Program.isSubtype, h.hasAncestor]

theorem equivalent (a b : Ty) : q.equivalent a b = p.equivalent a b := by
  rw [Program.equivalent, Program.equivalent, h.hasAncestor]

theorem sameElements (elems : List (String × Ty)) (first : Ty) :
    q.sameElements elems first = p.sameElements elems first := by
  simp only [Program.sameElements, h.equivalent]

end Program.Retyped

namespace Context

/-- An object of a declared class is created if the arguments fit. -/
theorem creation_of_hasClass {ctx : Context} {pos : Pos} {c : String} {as : List Ty} (hd : ctx.table.hasClass c = true) :
    ctx.creation pos c as = if ctx.fits (ctx.table.constructorParams c) as then .value (.cls c)
      else .value .noType [report pos .E014 [c]] := by
  simp only [creation, hd, if_true]
  rfl

variable {p q : Program} {cls : String} {m : MethodDecl}

theorem agrees_retyped (h : p.Retyped R L q) : Agrees ⟨p, cls, m⟩ ⟨q, cls, m⟩ := ⟨rfl, rfl, h.hasClass, h.hasAncestor⟩

theorem memberAccess_retyped (h : p.Retyped Eq L q) {pos : Pos} {t : Ty} {name : String} :
    (⟨q, cls, m⟩ : Context).memberAccess pos t name = (⟨p, cls, m⟩ : Context).memberAccess pos t name := by
  cases t with
  | cls c =>
    simp only [memberAccess, h.hasClass]
    obtain ⟨hf, hf'⟩ | ⟨f, f', hf, hf', hff⟩ := optionRel_cases (h.field? c name)
    · obtain ⟨hm, hm'⟩ | ⟨n, n', hm, hm', hnn⟩ := optionRel_cases (h.method? c name)
      · simp only [hf, hf', hm, hm']
      · have hargs := List.forall₂_eq_eq_eq ▸ hnn.paramTypes
        simp only [hf, hf', hm, hm', MethodDecl.functionType, hnn.result, hargs]
    · simp only [hf, hf', hff.type]
  | _ => rfl

theorem creation_retyped (h : p.Retyped Eq L q) {pos : Pos} {c : String} {as : List Ty} :
    (⟨q, cls, m⟩ : Context).creation pos c as = (⟨p, cls, m⟩ : Context).creation pos c as := by
  by_cases hd : p.hasClass c = true
  · have hparams : p.constructorParams c = q.constructorParams c := List.forall₂_eq_eq_eq ▸ h.constructorParams c
    have hd' : q.hasClass c = true := h.hasClass ▸ hd
    rw [creation_of_hasClass hd', creation_of_hasClass hd, fits_congr (agrees_retyped h).hasAncestor]
    simp only [hparams]
  · simp only [creation, h.hasClass, hd, Bool.false_eq_true, if_false]

/-- Other types of locals make no difference outside their body. -/
theorem findsAlike_retyped (h : p.Retyped Eq L q) (e : Expr) : FindsAlike ⟨p, cls, m⟩ ⟨q, cls, m⟩ e := by
  cases e with
  | member t x n => exact memberAccess_retyped h
  | new t c as => exact creation_retyped h
  | _ => trivial

end Context

/-- A clean body is clean in a program where all that it names is the same. -/
theorem MethodDecl.BodyClean.of_findsAlike {p q : Program} {cls : String} {m : MethodDecl} (h : p.Retyped R L q)
    (hf : ∀ e ∈ m.subterms, Context.FindsAlike ⟨p, cls, m⟩ ⟨q, cls, m⟩ e) (hc : m.BodyClean p cls) :
    m.BodyClean q cls :=
  ⟨h.hasClass ▸ hc.vars, (Context.bodyIssues_agrees (Context.agrees_retyped h) hf).trans hc.body⟩

end ClassCompiler
