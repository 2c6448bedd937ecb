import ClassCompiler.Proofs.Machine.Hierarchy
import ClassCompiler.Proofs.Typing.Clean
import Mathlib.Logic.Relation
import Mathlib.Data.Set.Finite.List
import Mathlib.Data.Fintype.Card

namespace ClassCompiler

open Relation

namespace Program

/-- The class that a machine has under a name: of those that are declared with it the last. -/
def loaded? (p : Program) (name : String) : Option ClassDecl := findClass? p.classes.reverse name

/-- The second class is the parent that the first is declared with. -/
def ParentIs (p : Program) (c d : ClassDecl) : Prop := c.parentName ≠ "" ∧ p.loaded? c.parentName = some d

/-- A class and its parents up to one without a parent. -/
inductive Lineage (p : Program) : ClassDecl → List ClassDecl → Prop where
  | root {c : ClassDecl} (h : c.parentName = "") : Lineage p c [c]
  | child {c d : ClassDecl} {ds : List ClassDecl} (h : p.ParentIs c d) (hd : Lineage p d ds) : Lineage p c (c :: ds)

/-- The parents of a class come to one that is among its own parents. -/
def Circles (p : Program) (c : ClassDecl) : Prop := ∃ d, ReflTransGen p.ParentIs c d ∧ TransGen p.ParentIs d d

/-- The classes that are declared with a parent are declared with one of the program. -/
def ParentsDeclared (p : Program) : Prop := ∀ c ∈ p.classes, c.parentName ≠ "" → ∃ d, p.ParentIs c d

variable {p : Program} {c d : ClassDecl} {ds es : List ClassDecl}

theorem ParentIs.mem (h : p.ParentIs c d) : d ∈ p.classes ∧ d.name.name = c.parentName := by
  obtain ⟨hmem, hname⟩ := findClass?_name h.2
  exact ⟨List.mem_reverse.1 hmem, hname⟩

theorem ParentIs.unique {d' : ClassDecl} (h : p.ParentIs c d) (h' : p.ParentIs c d') : d' = d :=
  Option.some.inj (h'.2.symm.trans h.2)

theorem Clean.parentsDeclared {entry : String} (h : p.Clean entry) : p.ParentsDeclared := by
  intro c hc hn
  obtain ⟨d, hd⟩ := Option.isSome_iff_exists.1 ((h.classes c hc).hasParent hn)
  obtain ⟨hmem, hname⟩ := findClass?_name hd
  have hfound : (p.loaded? c.parentName).isSome :=
    List.find?_isSome.2 ⟨d, List.mem_reverse.2 hmem, by simpa using hname⟩
  obtain ⟨e, he⟩ := Option.isSome_iff_exists.1 hfound
  exact ⟨e, hn, he⟩

/-- A class whose parents come round again has a parent whose parents do. -/
theorem Circles.parent (h : p.Circles c) : ∃ d, p.ParentIs c d ∧ p.Circles d := by
  obtain ⟨d, hcd, hd⟩ := h
  rcases ReflTransGen.cases_head hcd with rfl | ⟨e, he, hed⟩
  · obtain ⟨e, he, hec⟩ := TransGen.head'_iff.1 hd
    exact ⟨e, he, c, hec, hd⟩
  · exact ⟨e, he, d, hed, hd⟩

namespace Lineage

theorem unique (h : p.Lineage c ds) (h' : p.Lineage c es) : es = ds := by
  induction h generalizing es with
  | root hn =>
    cases h' with
    | root => rfl
    | child hp => exact absurd hn hp.1
  | child hp _ ih =>
    cases h' with
    | root hn => exact absurd hn hp.1
    | child hp' hd =>
      obtain rfl := hp.unique hp'
      rw [ih hd]

/-- The parents of a class have the rest of its lineage. -/
theorem parent (h : p.Lineage c ds) (hp : p.ParentIs c d) : ∃ es, ds = c :: es ∧ p.Lineage d es := by
  cases h with
  | root hn => exact absurd hn hp.1
  | child hp' hd =>
    obtain rfl := hp.unique hp'
    exact ⟨_, rfl, hd⟩

theorem ancestor (h : p.Lineage c ds) (hd : TransGen p.ParentIs c d) :
    ∃ es, p.Lineage d es ∧ es.length < ds.length := by
  induction hd with
  | single hp =>
    obtain ⟨es, rfl, hes⟩ := h.parent hp
    exact ⟨es, hes, by simp⟩
  | tail _ hp ih =>
    obtain ⟨es, hes, hlt⟩ := ih
    obtain ⟨fs, rfl, hfs⟩ := hes.parent hp
    exact ⟨fs, hfs, by simp at hlt; omega⟩

theorem mem (h : p.Lineage c ds) : c ∈ ds := by
  cases h <;> exact List.mem_cons_self

theorem length_pos (h : p.Lineage c ds) : 0 < ds.length := List.length_pos_of_mem h.mem

theorem ancestor_of_mem (h : p.Lineage c ds) (hd : d ∈ ds) : ReflTransGen p.ParentIs c d := by
  induction h with
  | root => exact List.mem_singleton.1 hd ▸ .refl
  | child hp _ ih =>
    rcases List.mem_cons.1 hd with rfl | hd
    · exact .refl
    · exact .head hp (ih hd)

theorem irrefl (h : p.Lineage c ds) : ¬TransGen p.ParentIs c c := by
  intro hc
  obtain ⟨es, hes, hlt⟩ := h.ancestor hc
  rw [h.unique hes] at hlt
  exact Nat.lt_irrefl _ hlt

theorem not_circles (h : p.Lineage c ds) : ¬p.Circles c := by
  rintro ⟨d, hcd, hd⟩
  obtain rfl | hcd := reflTransGen_iff_eq_or_transGen.1 hcd
  · exact h.irrefl hd
  · obtain ⟨es, hes, -⟩ := h.ancestor hcd
    exact hes.irrefl hd

theorem nodup (h : p.Lineage c ds) : ds.Nodup := by
  induction h with
  | root => simp
  | child hp hd ih =>
    refine List.nodup_cons.2 ⟨fun hmem => ?_, ih⟩
    exact (child hp hd).irrefl (.head' hp (hd.ancestor_of_mem hmem))

theorem subset (h : p.Lineage c ds) (hc : c ∈ p.classes) : ds ⊆ p.classes := by
  induction h with
  | root => simpa using hc
  | child hp _ ih => exact List.cons_subset.2 ⟨hc, ih hp.mem.1⟩

theorem length_le (h : p.Lineage c ds) (hc : c ∈ p.classes) : ds.length ≤ p.classes.length :=
  (h.nodup.subperm (h.subset hc)).length_le

end Lineage

/-- A class has a lineage unless its parents come round again. -/
theorem lineage_iff (hp : p.ParentsDeclared) (hc : c ∈ p.classes) : (∃ ds, p.Lineage c ds) ↔ ¬p.Circles c := by
  refine ⟨fun ⟨ds, h⟩ => h.not_circles, fun hcircles => ?_⟩
  -- The class and its parents are finitely many, so if none is among its own parents, having one is well-founded.
  let Kin := {d : ClassDecl // d ∈ p.classes ∧ ReflTransGen p.ParentIs c d}
  have hfinite : Finite Kin := Set.Finite.subset (List.finite_toSet p.classes) fun d hd => hd.1
  let Above : Kin → Kin → Prop := fun d e => TransGen p.ParentIs e.1 d.1
  have htrans : IsTrans Kin Above := ⟨fun _ _ _ h h' => h'.trans h⟩
  have hirrefl : Std.Irrefl Above := ⟨fun d hd => hcircles ⟨d.1, d.2.2, hd⟩⟩
  have hkin : ∀ d : Kin, ∃ ds, p.Lineage d.1 ds := fun d => by
    induction d using (Finite.wellFounded_of_trans_of_irrefl Above).induction with
    | _ d ih =>
      by_cases hn : d.1.parentName = ""
      · exact ⟨_, .root hn⟩
      · obtain ⟨e, he⟩ := hp d.1 d.2.1 hn
        obtain ⟨ds, hds⟩ := ih ⟨e, he.mem.1, d.2.2.tail he⟩ (.single he)
        exact ⟨_, .child he hds⟩
  exact hkin ⟨c, hc, .refl⟩

end Program
end ClassCompiler
