import ClassCompiler.Proofs.Tree.Ancestors
import ClassCompiler.Proofs.Typing.Agreement
import ClassCompiler.Proofs.Machine.Hierarchy

namespace ClassCompiler

theorem find?_eq_of_perm {α β : Type} [DecidableEq β] (key : α → β) {xs ys : List α} (h : xs.Perm ys)
    (hd : (xs.map key).Nodup) (k : β) : xs.find? (fun x => key x = k) = ys.find? (fun x => key x = k) := by
  cases hx : xs.find? (fun x => key x = k) with
  | none =>
    rw [List.find?_eq_none] at hx
    exact (List.find?_eq_none.2 fun y hy => hx y (h.mem_iff.2 hy)).symm
  | some x =>
    have hmem := List.mem_of_find?_eq_some hx
    have hk : key x = k := by simpa using List.find?_some hx
    subst hk
    exact (find?_eq_some_of_nodup key ((h.map key).nodup_iff.1 hd) (h.mem_iff.1 hmem)).symm

theorem ancestorsIn_congr {cs ds : List ClassDecl} (h : ∀ n, findClass? cs n = findClass? ds n) (steps : Nat)
    (name : String) : ancestorsIn steps cs name = ancestorsIn steps ds name := by
  induction steps generalizing cs ds name with
  | zero => rfl
  | succ steps ih =>
    rw [ancestorsIn, ancestorsIn, h name]
    cases findClass? ds name with
    | none => rfl
    | some c => exact congrArg _ (ih (fun n => by rw [findClass?_filter_ne, findClass?_filter_ne, h n]) _)

namespace Program

/-- The same classes under every name, with the same ancestors. -/
structure Alike (p q : Program) : Prop where
  class? : ∀ name, p.class? name = q.class? name
  ancestors : ∀ name, p.ancestors name = q.ancestors name

variable {p q : Program}

theorem alike_of_classes (h : p.classes = q.classes) : p.Alike q :=
  ⟨fun n => by rw [class?, class?, h], fun n => by rw [ancestors, ancestors, h]⟩

/-- The order of classes does not matter if their names tell them apart. -/
theorem alike_of_perm (h : p.classes.Perm q.classes) (hd : (p.classes.map (·.name.name)).Nodup) : p.Alike q := by
  have hfind : ∀ n, findClass? p.classes n = findClass? q.classes n :=
    find?_eq_of_perm (fun c : ClassDecl => c.name.name) h hd
  exact ⟨hfind, fun n => by rw [Program.ancestors, Program.ancestors, h.length_eq, ancestorsIn_congr hfind]⟩

namespace Alike

theorem symm (h : p.Alike q) : q.Alike p := ⟨fun n => (h.class? n).symm, fun n => (h.ancestors n).symm⟩

theorem hasClass (h : p.Alike q) : p.hasClass = q.hasClass :=
  funext fun n => by rw [Program.hasClass, Program.hasClass, h.class?]

theorem constructor? (h : p.Alike q) (cls : String) : p.constructor? cls = q.constructor? cls := by
  rw [Program.constructor?, Program.constructor?, h.class?]

theorem field? (h : p.Alike q) (cls name : String) : p.field? cls name = q.field? cls name := by
  rw [Program.field?, Program.field?, h.ancestors]

theorem method? (h : p.Alike q) (cls name : String) : p.method? cls name = q.method? cls name := by
  rw [Program.method?, Program.method?, h.ancestors]

theorem methodTable (h : p.Alike q) (cls : String) : p.methodTable cls = q.methodTable cls := by
  rw [Program.methodTable, Program.methodTable, h.ancestors]

theorem constructorDescriptor (h : p.Alike q) (cls : String) :
    p.constructorDescriptor cls = q.constructorDescriptor cls := by
  rw [Program.constructorDescriptor, Program.constructorDescriptor, h.constructor?]

theorem hasAncestor (h : p.Alike q) : p.hasAncestor = q.hasAncestor :=
  funext fun name => funext fun ancestor => by rw [Program.hasAncestor, Program.hasAncestor, h.ancestors]

theorem isSubtype (h : p.Alike q) (a b : Ty) : p.isSubtype a b = q.isSubtype a b := by
  rw [Program.isSubtype, Program.isSubtype, h.hasAncestor]

theorem equivalent (h : p.Alike q) (a b : Ty) : p.equivalent a b = q.equivalent a b := by
  rw [Program.equivalent, Program.equivalent, h.hasAncestor]

theorem sameElements (h : p.Alike q) (elems : List (String × Ty)) (first : Ty) :
    p.sameElements elems first = q.sameElements elems first := by
  simp only [Program.sameElements, h.equivalent]

end Alike

end Program

namespace Context

variable {p q : Program} {cls : String} {m : MethodDecl} (h : p.Alike q)

include h

theorem agrees_alike : Agrees ⟨q, cls, m⟩ ⟨p, cls, m⟩ := ⟨rfl, rfl, h.hasClass, h.hasAncestor⟩

theorem findsAlike_alike (e : Expr) : FindsAlike ⟨q, cls, m⟩ ⟨p, cls, m⟩ e := by
  cases e with
  | member t x n =>
    unfold FindsAlike memberAccess
    simp only [h.hasClass, h.field?, h.method?]
  | new t c as =>
    unfold FindsAlike creation
    have hfits := fits_congr (agrees_alike h : Agrees ⟨q, cls, m⟩ ⟨p, cls, m⟩).hasAncestor
    simp only [h.hasClass, h.constructor?, hfits]
  | _ => trivial

theorem typeOf_alike (e : Expr) : (⟨p, cls, m⟩ : Context).typeOf e = (⟨q, cls, m⟩ : Context).typeOf e :=
  typeOf_agrees (agrees_alike h) fun x _ => findsAlike_alike h x

theorem bodyIssues_alike : (⟨p, cls, m⟩ : Context).bodyIssues = (⟨q, cls, m⟩ : Context).bodyIssues :=
  bodyIssues_agrees (agrees_alike h) fun x _ => findsAlike_alike h x

end Context

end ClassCompiler
