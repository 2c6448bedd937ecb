import ClassCompiler.Proofs.Compile.Relabel
import ClassCompiler.Proofs.Machine.Relabel
import ClassCompiler.Proofs.Tree.Written
import ClassCompiler.Proofs.Typing.Accepted

namespace ClassCompiler

/-- Files of the same classes, which differ in the names of labels only. -/
structure SameUnits (files files' : List ClassFile) : Prop where
  names : (files.map ClassFile.name).Perm (files'.map ClassFile.name)
  renamed : ∀ f ∈ files, ∀ g ∈ files', f.name = g.name → f.Renamed g

theorem SameUnits.machine {files files' : List ClassFile} (h : SameUnits files files')
    (hd : (files.map ClassFile.name).Nodup) : (Machine.load files).Renamed (Machine.load files') where
  class? name := by
    rw [Machine.class?, Machine.class?, Machine.load, Machine.load, find?_reverse_of_nodup ClassFile.name hd,
      find?_reverse_of_nodup ClassFile.name (h.names.nodup_iff.1 hd)]
    cases hf : files.find? (·.name = name) with
    | none =>
      have hnone : files'.find? (·.name = name) = none := by
        refine List.find?_eq_none.2 fun g hg hn => ?_
        obtain ⟨f, hf', hfg⟩ := List.mem_map.1 (h.names.mem_iff.2 (List.mem_map_of_mem hg))
        exact List.find?_eq_none.1 hf f hf' (hfg ▸ hn)
      rw [hnone]
      exact .none
    | some f =>
      have hmem := List.mem_of_find?_eq_some hf
      have hn : f.name = name := by simpa using List.find?_some hf
      obtain ⟨g, hg, hgf⟩ := List.mem_map.1 (h.names.mem_iff.1 (List.mem_map_of_mem hmem))
      rw [← hn, ← hgf, find?_eq_some_of_nodup ClassFile.name (h.names.nodup_iff.1 hd) hg]
      exact .some (h.renamed f hmem g hg hgf.symm)
  length := by simpa [Machine.load] using h.names.length_eq.symm

variable {p q : Program} {o : CompileOptions}

theorem compile_sameUnits (hperm : p.classes.Perm q.classes) (hd : (p.classes.map (·.name.name)).Nodup)
    {files files' : List ClassFile} (hp : Program.compile o p p = .ok files) (hq : Program.compile o q q = .ok files') :
    SameUnits files files' where
  names := by
    rw [names_of_fileOf (Program.compile_ok hp), names_of_fileOf (Program.compile_ok hq)]
    exact hperm.map _
  renamed := Program.compile_renamed (Program.alike_of_perm hperm hd) hperm hd hp hq

/-- If the classes do not compile in one order they do not in another. -/
theorem compile_fails_of_perm (hperm : p.classes.Perm q.classes) (hd : (p.classes.map (·.name.name)).Nodup)
    (h : ∃ e, Program.compile o q q = .error e) : ∃ e, Program.compile o p p = .error e := by
  obtain ⟨e, he⟩ := h
  cases hp : Program.compile o p p with
  | error e' => exact ⟨e', rfl⟩
  | ok files =>
    obtain ⟨files', hq⟩ := Program.compile_of_perm (Program.alike_of_perm hperm hd) hperm hp
    rw [hq] at he
    cases he

/-- The order of classes with different names matters neither to whether a program is accepted nor to whether it
compiles, nor to what it does when it runs; the files of its classes differ in the names of labels only. -/
theorem class_order_irrelevant (entry : String) (hperm : p.classes.Perm q.classes)
    (hd : (p.classes.map (·.name.name)).Nodup) :
    ((p.check entry).issues = [] ↔ (q.check entry).issues = []) ∧
    ((p.check entry).issues = [] →
      ((∃ e, Program.compile o (p.check entry).decl (p.check entry).decl = .error e) ↔
        ∃ e, Program.compile o (q.check entry).decl (q.check entry).decl = .error e) ∧
      ∀ files files', Program.compile o (p.check entry).decl (p.check entry).decl = .ok files →
        Program.compile o (q.check entry).decl (q.check entry).decl = .ok files' →
        SameUnits files files' ∧ ∀ canceled fuel cls,
          ((Machine.load files).run canceled fuel cls).SameEnd ((Machine.load files').run canceled fuel cls)) := by
  have halike := Program.alike_of_perm hperm hd
  have hiff : (p.check entry).issues = [] ↔ (q.check entry).issues = [] := by
    rw [Program.check_issues_eq_nil_iff, Program.check_issues_eq_nil_iff]
    exact ⟨fun h => h.alike halike fun c => hperm.mem_iff, fun h => h.alike halike.symm fun c => hperm.symm.mem_iff⟩
  refine ⟨hiff, fun ha => ?_⟩
  rw [(Program.check_clean ha).1, (Program.check_clean (hiff.1 ha)).1]
  have hd' : (q.classes.map (·.name.name)).Nodup := (hperm.map _).nodup_iff.1 hd
  refine ⟨⟨compile_fails_of_perm hperm.symm hd', compile_fails_of_perm hperm hd⟩, fun files files' hp hq => ?_⟩
  have hunits := compile_sameUnits hperm hd hp hq
  have hnames : (files.map ClassFile.name).Nodup := by rwa [names_of_fileOf (Program.compile_ok hp)]
  exact ⟨hunits, (hunits.machine hnames).run⟩

namespace Sample

/-- A class with a branch in its constructor that creates an object of another, which has a branch as well. -/
def main : ClassDecl where
  token := ⟨.classDecl, "Main", 1, 1⟩
  name := name "Main" 2
  constructor := some {
    token := ⟨.constructor, "", 1, 3⟩
    name := ⟨⟨.constructor, "", 1, 3⟩, "Main"⟩
    locals := [⟨⟨.var, "o", 1, 4⟩, name "o" 4, .cls "Other"⟩]
    body := [
      .assign ⟨token (.binary .assign) 5, .ident (name "o" 6), .new (token .new 7) (name "Other" 8) []⟩,
      .cond (token .if 9)
        (.binary (token (.binary .lt) 10) .lt (.int ⟨.intLit, "1", 1, 11⟩ 1) (.int ⟨.intLit, "2", 1, 12⟩ 2))
        (.print (token .print 13) (.int ⟨.intLit, "1", 1, 14⟩ 1)) none] }

def other : ClassDecl where
  token := ⟨.classDecl, "Other", 2, 1⟩
  name := name "Other" 2
  constructor := some {
    token := ⟨.constructor, "", 2, 3⟩
    name := ⟨⟨.constructor, "", 2, 3⟩, "Other"⟩
    body := [
      .cond (token .if 4) (.bool ⟨.trueLit, "true", 2, 5⟩ true)
        (.print (token .print 6) (.int ⟨.intLit, "2", 2, 7⟩ 2)) none] }

def mainFirst : Program := { file := "", classes := [main, other] }

def otherFirst : Program := { file := "", classes := [other, main] }

end Sample

theorem class_order_irrelevant_sample :
    ((Sample.mainFirst.check "Main").issues = [] ∧ (Sample.otherFirst.check "Main").issues = []) ∧
    ∃ files files', Program.compile {} Sample.mainFirst Sample.mainFirst = .ok files ∧
      Program.compile {} Sample.otherFirst Sample.otherFirst = .ok files' ∧
      SameUnits files files' ∧ ∀ canceled fuel cls,
        ((Machine.load files).run canceled fuel cls).SameEnd ((Machine.load files').run canceled fuel cls) := by
  have hperm : Sample.mainFirst.classes.Perm Sample.otherFirst.classes := .swap _ _ _
  obtain ⟨hiff, hcompiled⟩ := class_order_irrelevant (o := {}) "Main" hperm (by decide)
  have ha : (Sample.mainFirst.check "Main").issues = [] := by decide
  obtain ⟨-, hfiles⟩ := hcompiled ha
  rw [(Program.check_clean ha).1, (Program.check_clean (hiff.1 ha)).1] at hfiles
  have hp : (Program.compile {} Sample.mainFirst Sample.mainFirst).toOption.isSome := by decide
  have hq : (Program.compile {} Sample.otherFirst Sample.otherFirst).toOption.isSome := by decide
  cases hf : Program.compile {} Sample.mainFirst Sample.mainFirst with
  | error e => simp [hf, Except.toOption] at hp
  | ok files =>
    cases hf' : Program.compile {} Sample.otherFirst Sample.otherFirst with
    | error e => simp [hf', Except.toOption] at hq
    | ok files' => exact ⟨⟨ha, hiff.1 ha⟩, files, files', rfl, rfl, hfiles files files' hf hf'⟩

end ClassCompiler
