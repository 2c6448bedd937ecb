import ClassCompiler.Proofs.Tree.Parents

namespace ClassCompiler

/-- A type, or a type with missing parts. -/
inductive PartialTy where
  | missing
  | int
  | bool
  | string
  | null
  | void
  | noType
  | cls (name : String)
  | fptr (params : List PartialTy) (result : PartialTy)
  | list (elems : List (String × PartialTy))

namespace PartialTy

mutual

def type? : PartialTy → Option Ty
  | .missing => none
  | .int => some .int
  | .bool => some .bool
  | .string => some .string
  | .null => some .null
  | .void => some .void
  | .noType => some .noType
  | .cls name => some (.cls name)
  | .fptr ps r => some (.fptr (readAll ps) (Ty.resultOfOption r.type?))
  | .list es => some (.list (readElems es))

def readAll : List PartialTy → List Ty
  | [] => []
  | t :: ts => Ty.ofOption t.type? :: readAll ts

def readElems : List (String × PartialTy) → List (String × Ty)
  | [] => []
  | (n, t) :: es => (n, Ty.ofOption t.type?) :: readElems es

end

/-- The type that a type with missing parts is read as. -/
def read (t : PartialTy) : Ty := Ty.ofOption t.type?

/-- Nothing is known of what a type like this one stands for. -/
def isNoType : PartialTy → Bool
  | .missing => true
  | .noType => true
  | _ => false

/-- The result of a method reference, where a missing one means that there is none. -/
def resultOf : PartialTy → PartialTy
  | .missing => .void
  | t => t

theorem sizeOf_resultOf (t : PartialTy) : sizeOf t.resultOf = sizeOf t := by
  cases t <;> rfl

mutual

/-- Whether a value of the first type may stand where the second is expected. A missing type is met before anything else
of either is looked at. -/
def isSubtype (isA : String → String → Bool) (t u : PartialTy) : Bool :=
  if t.isNoType then true
  else if u.isNoType then false
  else match t, u with
    | .int, .int => true
    | .bool, .bool => true
    | .string, .string => true
    | .void, .void => true
    | .null, .null => true
    | .null, .cls _ => true
    | .null, .fptr _ _ => true
    | .cls a, .cls b => a = b || isA a b
    | .fptr ps r, .fptr qs s => isSubtype isA r.resultOf s.resultOf && allSubtypes isA ps qs
    | .list es, .list fs => allElemSubtypes isA es fs
    | _, _ => false
termination_by sizeOf t
decreasing_by all_goals simp [sizeOf_resultOf] <;> omega

def allSubtypes (isA : String → String → Bool) : List PartialTy → List PartialTy → Bool
  | [], [] => true
  | t :: ts, u :: us => isSubtype isA t u && allSubtypes isA ts us
  | _, _ => false
termination_by ts => sizeOf ts

def allElemSubtypes (isA : String → String → Bool) : List (String × PartialTy) → List (String × PartialTy) → Bool
  | [], [] => true
  | (_, t) :: ts, (_, u) :: us => isSubtype isA t u && allElemSubtypes isA ts us
  | _, _ => false
termination_by es => sizeOf es

end

def equivalent (isA : String → String → Bool) (t u : PartialTy) : Bool := isSubtype isA t u && isSubtype isA u t

variable {isA : String → String → Bool}

theorem read_eq_noType {t : PartialTy} : t.read = .noType ↔ t = .missing ∨ t = .noType := by
  cases t <;> simp [read, type?, Ty.ofOption]

theorem read_resultOf (t : PartialTy) : t.resultOf.read = Ty.resultOfOption t.type? := by
  cases t <;> rfl

mutual

theorem isSubtype_eq (t u : PartialTy) : t.isSubtype isA u = Ty.isSubtype isA t.read u.read := by
  match t, u with
  | .fptr ps r, .fptr qs s =>
    rw [isSubtype]
    simp only [isNoType, Bool.false_eq_true, if_false, isSubtype_eq r.resultOf s.resultOf, allSubtypes_eq ps qs,
      read_resultOf]
    simp [read, type?, Ty.ofOption, Ty.isSubtype]
  | .list es, .list fs =>
    rw [isSubtype]
    simp [isNoType, read, type?, Ty.ofOption, Ty.isSubtype, allElemSubtypes_eq es fs]
  | .missing, _ | .noType, _ => simp [isSubtype, isNoType, read, type?, Ty.ofOption, Ty.isSubtype]
  | .int, u | .bool, u | .string, u | .null, u | .void, u | .cls _, u =>
    cases u <;> simp [isSubtype, isNoType, read, type?, Ty.ofOption, Ty.isSubtype]
  | .fptr _ _, .missing | .fptr _ _, .int | .fptr _ _, .bool | .fptr _ _, .string | .fptr _ _, .null | .fptr _ _, .void
  | .fptr _ _, .noType | .fptr _ _, .cls _ | .fptr _ _, .list _ | .list _, .missing | .list _, .int | .list _, .bool
  | .list _, .string | .list _, .null | .list _, .void | .list _, .noType | .list _, .cls _ | .list _, .fptr _ _ =>
    simp [isSubtype, isNoType, read, type?, Ty.ofOption, Ty.isSubtype]
termination_by sizeOf t
decreasing_by all_goals simp [sizeOf_resultOf] <;> omega

theorem allSubtypes_eq (ts us : List PartialTy) :
    allSubtypes isA ts us = Ty.allSubtypes isA (readAll ts) (readAll us) := by
  match ts, us with
  | [], [] | [], _ :: _ | _ :: _, [] => simp [allSubtypes, readAll, Ty.allSubtypes]
  | t :: ts, u :: us =>
    rw [allSubtypes, readAll, readAll, Ty.allSubtypes, isSubtype_eq t u, allSubtypes_eq ts us]
    rfl
termination_by sizeOf ts

theorem allElemSubtypes_eq (es fs : List (String × PartialTy)) :
    allElemSubtypes isA es fs = Ty.allElemSubtypes isA (readElems es) (readElems fs) := by
  match es, fs with
  | [], [] | [], _ :: _ | _ :: _, [] => simp [allElemSubtypes, readElems, Ty.allElemSubtypes]
  | (_, t) :: es, (_, u) :: fs =>
    rw [allElemSubtypes, readElems, readElems, Ty.allElemSubtypes, isSubtype_eq t u, allElemSubtypes_eq es fs]
    rfl
termination_by sizeOf es

end

end PartialTy

namespace Ty

variable {isA : String → String → Bool}

mutual

theorem isSubtype_refl (t : Ty) : isSubtype isA t t = true := by
  match t with
  | .int | .bool | .string | .null | .void | .noType => simp [isSubtype]
  | .cls _ => simp [isSubtype]
  | .fptr ps r => simp [isSubtype, isSubtype_refl r, allSubtypes_refl ps]
  | .list es => simp [isSubtype, allElemSubtypes_refl es]

theorem allSubtypes_refl (ts : List Ty) : allSubtypes isA ts ts = true := by
  match ts with
  | [] => rfl
  | t :: ts => simp [allSubtypes, isSubtype_refl t, allSubtypes_refl ts]

theorem allElemSubtypes_refl (es : List (String × Ty)) : allElemSubtypes isA es es = true := by
  match es with
  | [] => rfl
  | (_, t) :: es => simp [allElemSubtypes, isSubtype_refl t, allElemSubtypes_refl es]

end

theorem isSubtype_noType {t : Ty} : isSubtype isA t .noType = true ↔ t = .noType := by
  cases t <;> simp [isSubtype]

theorem null_isSubtype {t : Ty} :
    isSubtype isA .null t = true ↔ t = .null ∨ (∃ name, t = .cls name) ∨ ∃ ps r, t = .fptr ps r := by
  cases t <;> simp [isSubtype]

theorem cls_isSubtype {a b : String} : isSubtype isA (.cls a) (.cls b) = true ↔ a = b ∨ isA a b = true := by
  simp [isSubtype]

theorem cls_trans (htrans : ∀ a b c, isA a b = true → isA b c = true → isA a c = true) {a b c : String}
    (hab : isSubtype isA (.cls a) (.cls b) = true)
    (hbc : isSubtype isA (.cls b) (.cls c) = true) : isSubtype isA (.cls a) (.cls c) = true := by
  rw [cls_isSubtype] at *
  obtain rfl | hab := hab
  · exact hbc
  · obtain rfl | hbc := hbc
    · exact .inr hab
    · exact .inr (htrans a b c hab hbc)

mutual

theorem isSubtype_trans (htrans : ∀ a b c, isA a b = true → isA b c = true → isA a c = true) (t u v : Ty)
    (htu : isSubtype isA t u = true) (huv : isSubtype isA u v = true) : isSubtype isA t v = true := by
  match t, u, v with
  | .noType, _, _ => simp [isSubtype]
  | .int, .int, _ | .bool, .bool, _ | .string, .string, _ | .void, .void, _ | .null, .null, _ => exact huv
  | .null, .cls _, .cls _ | .null, .fptr _ _, .fptr _ _ => simp [isSubtype]
  | .cls _, .cls _, .cls _ => exact cls_trans htrans htu huv
  | .fptr ps r, .fptr qs s, .fptr us w =>
    simp only [isSubtype, Bool.and_eq_true] at *
    exact ⟨isSubtype_trans htrans r s w htu.1 huv.1, allSubtypes_trans htrans ps qs us htu.2 huv.2⟩
  | .list es, .list fs, .list gs =>
    simp only [isSubtype] at *
    exact allElemSubtypes_trans htrans es fs gs htu huv

theorem allSubtypes_trans (htrans : ∀ a b c, isA a b = true → isA b c = true → isA a c = true) (ts us vs : List Ty)
    (htu : allSubtypes isA ts us = true) (huv : allSubtypes isA us vs = true) : allSubtypes isA ts vs = true := by
  match ts, us, vs with
  | [], [], _ => exact huv
  | t :: ts, u :: us, v :: vs =>
    simp only [allSubtypes, Bool.and_eq_true] at *
    exact ⟨isSubtype_trans htrans t u v htu.1 huv.1, allSubtypes_trans htrans ts us vs htu.2 huv.2⟩

theorem allElemSubtypes_trans (htrans : ∀ a b c, isA a b = true → isA b c = true → isA a c = true)
    (es fs gs : List (String × Ty)) (hef : allElemSubtypes isA es fs = true) (hfg : allElemSubtypes isA fs gs = true) :
    allElemSubtypes isA es gs = true := by
  match es, fs, gs with
  | [], [], _ => exact hfg
  | (_, t) :: es, (_, u) :: fs, (_, v) :: gs =>
    simp only [allElemSubtypes, Bool.and_eq_true] at *
    exact ⟨isSubtype_trans htrans t u v hef.1 hfg.1, allElemSubtypes_trans htrans es fs gs hef.2 hfg.2⟩

end

mutual

def unnamed : Ty → Ty
  | .fptr ps r => .fptr (unnamedAll ps) r.unnamed
  | .list es => .list (unnamedElems es)
  | t => t

def unnamedAll : List Ty → List Ty
  | [] => []
  | t :: ts => t.unnamed :: unnamedAll ts

def unnamedElems : List (String × Ty) → List (String × Ty)
  | [] => []
  | (_, t) :: es => ("", t.unnamed) :: unnamedElems es

end

@[simp] theorem unnamed_eq_cls {t : Ty} {name : String} : t.unnamed = .cls name ↔ t = .cls name := by
  cases t <;> simp [unnamed]

mutual

theorem isSubtype_of_unnamed_eq (t u : Ty) (h : t.unnamed = u.unnamed) : isSubtype isA t u = true := by
  match t, u with
  | .fptr ps r, .fptr qs s =>
    simp only [unnamed, fptr.injEq] at h
    simp [isSubtype, isSubtype_of_unnamed_eq r s h.2, allSubtypes_of_unnamed_eq ps qs h.1]
  | .list es, .list fs =>
    simp only [unnamed, list.injEq] at h
    simp [isSubtype, allElemSubtypes_of_unnamed_eq es fs h]
  | .noType, _ => simp [isSubtype]
  | .cls _, u =>
    rw [unnamed_eq_cls.1 h.symm]
    exact isSubtype_refl _
  | .int, .int | .bool, .bool | .string, .string | .null, .null | .void, .void => simp [isSubtype]

theorem allSubtypes_of_unnamed_eq (ts us : List Ty) (h : unnamedAll ts = unnamedAll us) :
    allSubtypes isA ts us = true := by
  match ts, us with
  | [], [] => rfl
  | t :: ts, u :: us =>
    simp only [unnamedAll, List.cons.injEq] at h
    simp [allSubtypes, isSubtype_of_unnamed_eq t u h.1, allSubtypes_of_unnamed_eq ts us h.2]

theorem allElemSubtypes_of_unnamed_eq (es fs : List (String × Ty)) (h : unnamedElems es = unnamedElems fs) :
    allElemSubtypes isA es fs = true := by
  match es, fs with
  | [], [] => rfl
  | (_, t) :: es, (_, u) :: fs =>
    simp only [unnamedElems, List.cons.injEq, Prod.mk.injEq, true_and] at h
    simp [allElemSubtypes, isSubtype_of_unnamed_eq t u h.1, allElemSubtypes_of_unnamed_eq es fs h.2]

end

mutual

/-- Where classes are ordered, types that may stand for one another differ in names only. -/
theorem unnamed_eq_of_isSubtype (hanti : ∀ a b, isA a b = true → isA b a = true → a = b) (t u : Ty)
    (htu : isSubtype isA t u = true) (hut : isSubtype isA u t = true) : t.unnamed = u.unnamed := by
  match t, u with
  | .noType, u => rw [isSubtype_noType.1 hut]
  | .int, .int | .bool, .bool | .string, .string | .void, .void | .null, .null => rfl
  | .null, .cls _ | .null, .fptr _ _ => simp [isSubtype] at hut
  | .cls a, .cls b =>
    rw [cls_isSubtype] at htu hut
    obtain rfl : a = b := htu.elim id fun hab => hut.elim Eq.symm (hanti a b hab)
    rfl
  | .fptr ps r, .fptr qs s =>
    simp only [isSubtype, Bool.and_eq_true] at htu hut
    rw [unnamed, unnamed, unnamed_eq_of_isSubtype hanti r s htu.1 hut.1,
      unnamedAll_eq_of_allSubtypes hanti ps qs htu.2 hut.2]
  | .list es, .list fs =>
    rw [unnamed, unnamed, unnamedElems_eq_of_allElemSubtypes hanti es fs htu hut]

theorem unnamedAll_eq_of_allSubtypes (hanti : ∀ a b, isA a b = true → isA b a = true → a = b) (ts us : List Ty)
    (htu : allSubtypes isA ts us = true) (hut : allSubtypes isA us ts = true) : unnamedAll ts = unnamedAll us := by
  match ts, us with
  | [], [] => rfl
  | t :: ts, u :: us =>
    simp only [allSubtypes, Bool.and_eq_true] at htu hut
    rw [unnamedAll, unnamedAll, unnamed_eq_of_isSubtype hanti t u htu.1 hut.1,
      unnamedAll_eq_of_allSubtypes hanti ts us htu.2 hut.2]

theorem unnamedElems_eq_of_allElemSubtypes (hanti : ∀ a b, isA a b = true → isA b a = true → a = b)
    (es fs : List (String × Ty)) (hef : allElemSubtypes isA es fs = true) (hfe : allElemSubtypes isA fs es = true) :
    unnamedElems es = unnamedElems fs := by
  match es, fs with
  | [], [] => rfl
  | (_, t) :: es, (_, u) :: fs =>
    simp only [allElemSubtypes, Bool.and_eq_true] at hef hfe
    rw [unnamedElems, unnamedElems, unnamed_eq_of_isSubtype hanti t u hef.1 hfe.1,
      unnamedElems_eq_of_allElemSubtypes hanti es fs hef.2 hfe.2]

end

theorem equivalent_iff_unnamed_eq (hanti : ∀ a b, isA a b = true → isA b a = true → a = b) {t u : Ty} :
    equivalent isA t u = true ↔ t.unnamed = u.unnamed := by
  rw [equivalent, Bool.and_eq_true]
  exact ⟨fun h => unnamed_eq_of_isSubtype hanti t u h.1 h.2,
    fun h => ⟨isSubtype_of_unnamed_eq t u h, isSubtype_of_unnamed_eq u t h.symm⟩⟩

end Ty

theorem Program.isSubtype_cls_iff {p : Program} {a b : String} :
    p.isSubtype (.cls a) (.cls b) = true ↔ Relation.ReflTransGen p.Extends a b := by
  rw [isSubtype, Ty.cls_isSubtype, hasAncestor_iff_reachable]
  exact ⟨fun h => h.elim (· ▸ .refl) id, .inr⟩

/-- Subtyping over any hierarchy is a preorder in which exactly the missing type and `noType` are below everything. Classes
are related if the links to parents lead from one to the other, and if no links lead in a circle, two types may stand
for one another exactly if they differ in nothing but the names of list positions. A missing part counts as what it is
read as. -/
theorem subtyping_preorder (p : Program) :
    (∀ t : PartialTy, t.isSubtype p.hasAncestor t = true) ∧
      (∀ t u v : PartialTy, t.isSubtype p.hasAncestor u = true → u.isSubtype p.hasAncestor v = true →
        t.isSubtype p.hasAncestor v = true) ∧
      (∀ t : PartialTy, (t = .missing ∨ t = .noType) → ∀ u : PartialTy, t.isSubtype p.hasAncestor u = true) ∧
      (∀ t u : PartialTy, (u = .missing ∨ u = .noType) → t.isSubtype p.hasAncestor u = true → t = .missing ∨ t = .noType) ∧
      (∀ a b, (PartialTy.cls a).isSubtype p.hasAncestor (.cls b) = true ↔ Relation.ReflTransGen p.Extends a b) ∧
      (p.hasClass "" = false → ∀ a b, b ≠ "" →
        ((PartialTy.cls a).isSubtype p.hasAncestor (.cls b) = true ↔ Relation.ReflTransGen p.ExtendsNamed a b)) ∧
      (∀ t : PartialTy, PartialTy.null.isSubtype p.hasAncestor t = true ↔
        t = .null ∨ (∃ name, t = .cls name) ∨ ∃ ps r, t = .fptr ps r) ∧
      (p.Acyclic → ∀ t u : PartialTy, t.equivalent p.hasAncestor u = true ↔ t.read.unnamed = u.read.unnamed) ∧
      ∀ t u : PartialTy, t.isSubtype p.hasAncestor u = p.isSubtype t.read u.read ∧
        t.equivalent p.hasAncestor u = p.equivalent t.read u.read := by
  have hbottom : ∀ t : PartialTy, (t = .missing ∨ t = .noType) ↔ t.read = .noType := fun t => PartialTy.read_eq_noType.symm
  have hread : ∀ t u : PartialTy, t.isSubtype p.hasAncestor u = p.isSubtype t.read u.read := PartialTy.isSubtype_eq
  have hequal : ∀ t u : PartialTy, t.equivalent p.hasAncestor u = p.equivalent t.read u.read := fun t u => by
    rw [PartialTy.equivalent, hread, hread]
    rfl
  simp only [hread, hequal]
  refine ⟨fun t => Ty.isSubtype_refl _, fun t u v htu huv => ?_, fun t ht u => ?_, fun t u hu htu => ?_, fun a b => ?_,
    fun hempty a b hb => ?_, fun t => ?_, fun hacyclic t u => ?_, fun _ _ => ⟨trivial, trivial⟩⟩
  · refine Ty.isSubtype_trans (fun a b c hab hbc => ?_) _ _ _ htu huv
    rw [Program.hasAncestor_iff_reachable] at *
    exact hab.trans hbc
  · rw [(hbottom t).1 ht]
    simp [Program.isSubtype, Ty.isSubtype]
  · rw [(hbottom u).1 hu] at htu
    exact (hbottom t).2 (Ty.isSubtype_noType.1 htu)
  · exact Program.isSubtype_cls_iff
  · exact Program.isSubtype_cls_iff.trans (Program.reachable_iff_named hempty hb)
  · rw [Program.isSubtype, PartialTy.read, PartialTy.type?, Ty.ofOption, Option.getD_some, Ty.null_isSubtype]
    cases t <;> simp [PartialTy.read, PartialTy.type?, Ty.ofOption]
  · exact Ty.equivalent_iff_unnamed_eq fun a b => hacyclic.eq_of_hasAncestor

namespace Kin

def kin (name parent : String) : ClassDecl := { token := {}, name := ⟨{}, name⟩, parent := some ⟨{}, parent⟩ }

/-- A class, its parent, and a parent of that which is not declared. -/
def program : Program := { file := "", classes := [kin "A" "B", kin "B" "C"] }

theorem extends_cases {a b : String} (h : program.Extends a b) : a = "A" ∧ b = "B" ∨ a = "B" ∧ b = "C" := by
  obtain ⟨c, hc, rfl⟩ := h
  obtain ⟨hmem, rfl⟩ := findClass?_name hc
  rcases List.mem_pair.1 hmem with rfl | rfl
  · exact .inl ⟨rfl, rfl⟩
  · exact .inr ⟨rfl, rfl⟩

theorem acyclic : program.Acyclic := by
  have hstep : ∀ a b, Relation.TransGen program.Extends a b → a = "A" ∧ (b = "B" ∨ b = "C") ∨ a = "B" ∧ b = "C" := by
    intro a b h
    induction h with
    | single h => rcases extends_cases h with ⟨rfl, rfl⟩ | ⟨rfl, rfl⟩ <;> simp
    | tail _ h ih => rcases extends_cases h with ⟨rfl, rfl⟩ | ⟨rfl, rfl⟩ <;> simp_all
  intro a h
  rcases hstep a a h with ⟨rfl, h | h⟩ | ⟨rfl, h⟩ <;> simp at h

end Kin

theorem subtyping_preorder_kin :
    (PartialTy.list [("x", .cls "A")]).isSubtype Kin.program.hasAncestor (.list [("y", .cls "C")]) = true ∧
      Kin.program.hasClass "" = false ∧ Relation.ReflTransGen Kin.program.ExtendsNamed "A" "C" ∧
      PartialTy.missing.isSubtype Kin.program.hasAncestor .null = true ∧ Kin.program.Acyclic ∧
      (PartialTy.fptr [.missing, .list [("x", .cls "A")]] .missing).equivalent Kin.program.hasAncestor
        (.fptr [.noType, .list [("", .cls "A")]] .void) = true := by
  obtain ⟨-, htrans, hbottom, -, -, hnamed, -, hequivalent, hread⟩ := subtyping_preorder Kin.program
  have hempty : Kin.program.hasClass "" = false := by decide
  refine ⟨htrans _ (PartialTy.list [("", .cls "B")]) _ ?_ ?_, hempty, (hnamed hempty "A" "C" (by decide)).1 ?_,
    hbottom .missing (.inl rfl) .null, Kin.acyclic, (hequivalent Kin.acyclic _ _).2 rfl⟩ <;>
  · rw [(hread _ _).1]
    decide

end ClassCompiler
