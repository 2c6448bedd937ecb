import ClassCompiler.Proofs.Tree.Ancestors
import Mathlib.Logic.Relation

namespace ClassCompiler

open Relation

namespace Program

/-- The declared class `a` has the parent `b`. The parent of a class without one is the empty name, which is the name of no
class in a program that was read. -/
def Extends (p : Program) (a b : String) : Prop := ∃ c, p.class? a = some c ∧ c.parentName = b

/-- The declared class `a` is declared with the parent `b`. -/
def ExtendsNamed (p : Program) (a b : String) : Prop := ∃ c i, p.class? a = some c ∧ c.parent = some i ∧ i.name = b

variable {p : Program} {a b : String}

theorem reachable_of_mem_ancestorsIn {steps : Nat} {cs : List ClassDecl} {c : ClassDecl}
    (hcs : ∀ n d, findClass? cs n = some d → p.class? n = some d) (h : c ∈ ancestorsIn steps cs a) :
    ReflTransGen p.Extends a c.name.name := by
  induction steps generalizing cs a with
  | zero => simp [ancestorsIn] at h
  | succ steps ih =>
    unfold ancestorsIn at h
    split at h
    · simp at h
    · next d hd =>
      rcases List.mem_cons.1 h with rfl | h
      · rw [(findClass?_name hd).2]
      · refine .head ⟨d, hcs a d hd, rfl⟩ (ih (fun n e he => ?_) h)
        rw [findClass?_filter_ne] at he
        split at he
        · cases he
        · exact hcs n e he

theorem extends_of_mem_ancestors {c : ClassDecl} (h : c ∈ p.ancestors a) : p.Extends c.name.name c.parentName :=
  ⟨c, class?_of_mem_ancestors h, rfl⟩

/-- The walk from a class has the parent that a class met on it is linked to. -/
theorem hasAncestor_of_extends {c : String} (h : p.hasAncestor a b = true) (hc : p.Extends b c) :
    p.hasAncestor a c = true := by
  obtain ⟨d, hd, rfl⟩ := hc
  have hclass : p.hasClass b = true := Option.isSome_of_eq_some hd
  obtain ⟨e, he, hname⟩ := (hasAncestor_iff hclass).1 h
  have heq := class?_of_mem_ancestors he
  rw [hname, hd] at heq
  obtain rfl := Option.some.inj heq
  simp only [hasAncestor, Bool.or_eq_true, List.any_eq_true, decide_eq_true_eq]
  exact .inr ⟨d, he, .inr rfl⟩

theorem hasAncestor_iff_reachable : p.hasAncestor a b = true ↔ ReflTransGen p.Extends a b := by
  constructor
  · intro h
    simp only [hasAncestor, Bool.or_eq_true, List.any_eq_true, decide_eq_true_eq] at h
    obtain rfl | ⟨c, hc, hb⟩ := h
    · exact .refl
    · have hreach := reachable_of_mem_ancestorsIn (fun _ _ => id) hc
      obtain rfl | rfl := hb
      · exact hreach
      · exact hreach.tail (extends_of_mem_ancestors hc)
  · intro h
    induction h with
    | refl => simp [hasAncestor]
    | tail _ hc ih => exact hasAncestor_of_extends ih hc

theorem ExtendsNamed.extends (h : p.ExtendsNamed a b) : p.Extends a b := by
  obtain ⟨c, i, hc, hi, rfl⟩ := h
  exact ⟨c, hc, by simp [ClassDecl.parentName, hi]⟩

/-- Where no class has the empty name, the links to a name that is not empty are those that are declared. -/
theorem reachable_iff_named (hempty : p.hasClass "" = false) (hb : b ≠ "") :
    ReflTransGen p.Extends a b ↔ ReflTransGen p.ExtendsNamed a b := by
  constructor
  · intro h
    induction h with
    | refl => exact .refl
    | @tail c d _ hlink ih =>
      obtain ⟨e, he, rfl⟩ := hlink
      have hc : c ≠ "" := by
        rintro rfl
        simp [hasClass, he] at hempty
      refine (ih hc).tail ?_
      cases hparent : e.parent with
      | none => simp [ClassDecl.parentName, hparent] at hb
      | some i => exact ⟨e, i, he, hparent, by simp [ClassDecl.parentName, hparent]⟩
  · exact ReflTransGen.mono (fun _ _ => ExtendsNamed.extends) a b

/-- No class is its own ancestor in another way than by being the class itself. -/
def Acyclic (p : Program) : Prop := ∀ a, ¬TransGen p.Extends a a

theorem Acyclic.eq_of_hasAncestor (h : p.Acyclic) (hab : p.hasAncestor a b = true) (hba : p.hasAncestor b a = true) :
    a = b := by
  rw [hasAncestor_iff_reachable] at hab hba
  obtain rfl | hab := reflTransGen_iff_eq_or_transGen.1 hab
  · rfl
  · exact (h a (hab.trans_left hba)).elim

end Program
end ClassCompiler
