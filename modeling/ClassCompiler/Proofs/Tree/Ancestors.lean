import ClassCompiler.Proofs.Typing.Known

namespace ClassCompiler

theorem findClass?_name {cs : List ClassDecl} {name : String} {c : ClassDecl} (h : findClass? cs name = some c) :
    c ∈ cs ∧ c.name.name = name :=
  ⟨List.mem_of_find?_eq_some h, by simpa using List.find?_some h⟩

/-- Without the entries of one name the others are found as before. -/
theorem find?_filter_ne {α : Type} (key : α → String) (xs : List α) (name other : String) :
    (xs.filter (key · ≠ name)).find? (key · = other) = if other = name then none else xs.find? (key · = other) := by
  rw [List.find?_filter]
  split
  · next h => simp [h]
  · next h =>
    refine congrArg (List.find? · xs) (funext fun x => ?_)
    by_cases hx : key x = other <;> simp [hx, h]

theorem findClass?_filter_ne (cs : List ClassDecl) (name other : String) :
    findClass? (cs.filter (·.name.name ≠ name)) other = if other = name then none else findClass? cs other :=
  find?_filter_ne (fun c : ClassDecl => c.name.name) cs name other

theorem length_filter_lt_of_findClass? {cs : List ClassDecl} {name : String} {c : ClassDecl}
    (h : findClass? cs name = some c) : (cs.filter (·.name.name ≠ name)).length < cs.length := by
  obtain ⟨hm, hn⟩ := findClass?_name h
  exact List.length_filter_lt_length_iff_exists.2 ⟨c, hm, by simp [hn]⟩

/-- Every class that the walk meets is the declaration of its name. -/
theorem findClass?_of_mem_ancestorsIn {steps : Nat} {cs : List ClassDecl} {name : String} {c : ClassDecl}
    (h : c ∈ ancestorsIn steps cs name) : findClass? cs c.name.name = some c := by
  induction steps generalizing cs name with
  | zero => simp [ancestorsIn] at h
  | succ steps ih =>
    unfold ancestorsIn at h
    split at h
    · simp at h
    · next d hd =>
      rcases List.mem_cons.1 h with rfl | h
      · rwa [(findClass?_name hd).2]
      · have hfind := ih h
        rw [findClass?_filter_ne] at hfind
        split at hfind
        · cases hfind
        · exact hfind

/-- With each class the walk meets its parent, if that is there. -/
theorem exists_parent_mem_ancestorsIn {steps : Nat} {cs : List ClassDecl} {name : String} {c : ClassDecl}
    (hsteps : cs.length ≤ steps) (h : c ∈ ancestorsIn steps cs name)
    (hp : (findClass? cs c.parentName).isSome) : ∃ d ∈ ancestorsIn steps cs name, d.name.name = c.parentName := by
  induction steps generalizing cs name with
  | zero => simp [ancestorsIn] at h
  | succ steps ih =>
    unfold ancestorsIn at h ⊢
    split at h
    · simp at h
    · next d hd =>
      have hlt := length_filter_lt_of_findClass? hd
      by_cases hself : c.parentName = name
      · exact ⟨d, by simp, by rw [(findClass?_name hd).2, hself]⟩
      · have hrest : (findClass? (cs.filter (·.name.name ≠ name)) c.parentName).isSome := by
          rwa [findClass?_filter_ne, if_neg hself]
        rcases List.mem_cons.1 h with rfl | h
        · obtain ⟨e, he⟩ := Option.isSome_iff_exists.1 hrest
          obtain ⟨k, rfl⟩ : ∃ k, steps = k + 1 := by
            have := List.length_pos_of_mem (findClass?_name he).1
            exact ⟨steps - 1, by omega⟩
          refine ⟨e, List.mem_cons_of_mem _ ?_, (findClass?_name he).2⟩
          rw [ancestorsIn, he]
          exact List.mem_cons_self
        · obtain ⟨e, he, hn⟩ := ih (by omega) h hrest
          exact ⟨e, List.mem_cons_of_mem _ he, hn⟩

namespace Program

variable {p : Program}

theorem class?_of_mem_ancestors {name : String} {c : ClassDecl} (h : c ∈ p.ancestors name) :
    p.class? c.name.name = some c := findClass?_of_mem_ancestorsIn h

theorem mem_ancestors_self {name : String} {c : ClassDecl} (h : p.class? name = some c) : c ∈ p.ancestors name := by
  obtain ⟨hm, -⟩ := findClass?_name h
  obtain ⟨k, hk⟩ : ∃ k, p.classes.length = k + 1 :=
    ⟨p.classes.length - 1, by have := List.length_pos_of_mem hm; omega⟩
  have hfind : findClass? p.classes name = some c := h
  rw [ancestors, hk, ancestorsIn, hfind]
  exact List.mem_cons_self

theorem ancestors_eq_nil {name : String} (h : p.class? name = none) : p.ancestors name = [] := by
  have hfind : findClass? p.classes name = none := h
  unfold ancestors
  cases p.classes.length with
  | zero => rfl
  | succ n => rw [ancestorsIn, hfind]

/-- What a walk meets, every walk meets that comes to its start. -/
theorem ancestorsIn_subset {name : String} {steps : Nat} {cs : List ClassDecl} {start : String}
    (hcs : ∀ n c, findClass? cs n = some c → p.class? n = some c)
    (hstart : ∀ c, p.class? start = some c → c ∈ p.ancestors name) :
    ancestorsIn steps cs start ⊆ p.ancestors name := by
  induction steps generalizing cs start with
  | zero => simp [ancestorsIn]
  | succ steps ih =>
    unfold ancestorsIn
    split
    · simp
    · next d hd =>
      have hmem := hstart d (hcs start d hd)
      refine List.cons_subset.2 ⟨hmem, ih (fun n c hc => ?_) fun c hc => ?_⟩
      · rw [findClass?_filter_ne] at hc
        split at hc
        · cases hc
        · exact hcs n c hc
      · obtain ⟨e, he, hn⟩ := exists_parent_mem_ancestorsIn (Nat.le_refl _) hmem (Option.isSome_of_eq_some hc)
        have heq := class?_of_mem_ancestors he
        rw [hn, hc] at heq
        exact Option.some.inj heq ▸ he

theorem ancestors_subset {name : String} {c : ClassDecl} (h : c ∈ p.ancestors name) :
    p.ancestors c.name.name ⊆ p.ancestors name := by
  refine ancestorsIn_subset (fun _ _ => id) fun d hd => ?_
  rw [class?_of_mem_ancestors h] at hd
  exact Option.some.inj hd ▸ h

/-- A declared class is an ancestor if the walk meets it. -/
theorem hasAncestor_iff {name ancestor : String} (h : p.hasClass ancestor = true) :
    p.hasAncestor name ancestor = true ↔ ∃ c ∈ p.ancestors name, c.name.name = ancestor := by
  obtain ⟨d, hd⟩ := Option.isSome_iff_exists.1 h
  simp only [hasAncestor, Bool.or_eq_true, decide_eq_true_eq, List.any_eq_true]
  constructor
  · rintro (rfl | ⟨c, hc, hn | hn⟩)
    · exact ⟨d, mem_ancestors_self hd, (findClass?_name hd).2⟩
    · exact ⟨c, hc, hn⟩
    · obtain ⟨e, he, hen⟩ := exists_parent_mem_ancestorsIn (Nat.le_refl _) hc (hn ▸ h)
      exact ⟨e, he, hen.trans hn⟩
  · rintro ⟨c, hc, hn⟩
    exact .inr ⟨c, hc, .inl hn⟩

theorem method?_isSome_iff {cls name : String} :
    (p.method? cls name).isSome ↔ ∃ c ∈ p.ancestors cls, (c.method? name).isSome := by
  simp [method?, List.findSome?_isSome_iff]

theorem hasClass_of_method? {cls name : String} (h : (p.method? cls name).isSome) : p.hasClass cls = true := by
  by_contra hne
  have hnone : p.class? cls = none := by simpa [hasClass] using hne
  simp [method?, ancestors_eq_nil hnone] at h

theorem method?_of_hasAncestor {cls ancestor name : String} (hm : (p.method? ancestor name).isSome)
    (h : p.hasAncestor cls ancestor = true) : (p.method? cls name).isSome := by
  obtain ⟨c, hc, rfl⟩ := (hasAncestor_iff (hasClass_of_method? hm)).1 h
  obtain ⟨d, hd, hdm⟩ := method?_isSome_iff.1 hm
  exact method?_isSome_iff.2 ⟨d, ancestors_subset hc hd, hdm⟩

theorem lookup_foldl_addMethods (ms : List MethodDecl) (owner name : String) (table : List (String × String)) :
    (ms.foldl (fun table m =>
      if (table.lookup m.name.name).isSome then table else table ++ [(m.name.name, owner)]) table).lookup name =
      (table.lookup name).or ((ms.find? (·.name.name = name)).map fun _ => owner) := by
  induction ms generalizing table with
  | nil => simp
  | cons m ms ih =>
    rw [List.foldl_cons, ih, List.find?_cons]
    by_cases hm : m.name.name = name
    · subst hm
      cases ht : table.lookup m.name.name with
      | some v => simp [ht]
      | none => simp [ht, List.lookup_append]
    · have hne : (name == m.name.name) = false := beq_eq_false_iff_ne.2 (Ne.symm hm)
      split
      · simp [hm]
      · simp [hm, List.lookup_append, List.lookup_cons, hne]

theorem lookup_addMethods (table : List (String × String)) (c : ClassDecl) (name : String) :
    (addMethods table c).lookup name = (table.lookup name).or ((c.method? name).map fun _ => c.name.name) :=
  lookup_foldl_addMethods c.methods c.name.name name table

/-- The table of a class has the owner of every method that the class has. -/
theorem lookup_methodTable (p : Program) (cls name : String) :
    (p.methodTable cls).lookup name = (p.method? cls name).map Prod.fst := by
  have hfold : ∀ (cs : List ClassDecl) (table : List (String × String)),
      (cs.foldl addMethods table).lookup name =
        (table.lookup name).or ((cs.findSome? fun c => (c.method? name).map (c.name.name, ·)).map Prod.fst) := by
    intro cs
    induction cs with
    | nil => simp
    | cons c cs ih =>
      intro table
      rw [List.foldl_cons, ih, lookup_addMethods, List.findSome?_cons]
      cases table.lookup name <;> cases c.method? name <;> simp
  exact (hfold (p.ancestors cls) []).trans (by simp [method?])

end Program

end ClassCompiler
