import Mathlib.Order.ConditionallyCompleteLattice.Basic
import Mathlib.Order.Lattice.Nat
import ClassCompiler.Build.Basic
import ClassCompiler.Proofs.Compile.Methods
import ClassCompiler.Proofs.Tree.Written
import ClassCompiler.Proofs.Typing.Clean

namespace ClassCompiler

/-- The places of a list at which something with a property stands. -/
def placesOf {α : Type} (P : α → Bool) (xs : List α) : Set Nat := {k | ∃ x, xs[k]? = some x ∧ P x = true}

section

variable {α β : Type} {P : α → Bool} {Q : β → Bool} {xs : List α} {ys : List β} {k : Nat}

theorem find?_of_isLeast (h : IsLeast (placesOf P xs) k) : xs.find? P = xs[k]? := by
  obtain ⟨⟨x, hx, hP⟩, hleast⟩ := h
  obtain ⟨hk, rfl⟩ := List.getElem?_eq_some_iff.1 hx
  rw [hx, List.find?_eq_some_iff_getElem]
  refine ⟨hP, k, hk, rfl, fun j hj => ?_⟩
  by_contra hPj
  exact absurd (hleast ⟨xs[j], List.getElem?_eq_getElem (hj.trans hk), by simpa using hPj⟩) (by omega)

theorem find?_reverse_of_isGreatest (h : IsGreatest (placesOf P xs) k) : xs.reverse.find? P = xs[k]? := by
  obtain ⟨⟨x, hx, hP⟩, hgreatest⟩ := h
  obtain ⟨hk, rfl⟩ := List.getElem?_eq_some_iff.1 hx
  rw [hx, List.find?_eq_some_iff_getElem]
  have hlast : xs.length - 1 - (xs.length - 1 - k) = k := by omega
  refine ⟨hP, xs.length - 1 - k, by simp; omega, by simp [hlast], fun j hj => ?_⟩
  by_contra hPj
  have hmem : xs.length - 1 - j ∈ placesOf P xs :=
    ⟨xs[xs.length - 1 - j], List.getElem?_eq_getElem (by omega), by simpa using hPj⟩
  exact absurd (hgreatest hmem) (by omega)

theorem placesOf_eq_of_forall₂ (h : List.Forall₂ (fun x y => Q y = P x) xs ys) : placesOf Q ys = placesOf P xs := by
  have hlen := h.length_eq
  ext k
  constructor
  · rintro ⟨y, hy, hQ⟩
    obtain ⟨hk, rfl⟩ := List.getElem?_eq_some_iff.1 hy
    have hx : xs[k]? = some xs[k] := List.getElem?_eq_getElem (by omega)
    exact ⟨_, hx, (h.get (by omega) hk).symm.trans hQ⟩
  · rintro ⟨x, hx, hP⟩
    obtain ⟨hk, rfl⟩ := List.getElem?_eq_some_iff.1 hx
    have hy : ys[k]? = some ys[k] := List.getElem?_eq_getElem (by omega)
    exact ⟨_, hy, (h.get hk (by omega)).trans hP⟩

theorem bddAbove_placesOf : BddAbove (placesOf P xs) := by
  refine ⟨xs.length, fun k hk => ?_⟩
  obtain ⟨x, hx, -⟩ := hk
  exact (List.getElem?_eq_some_iff.1 hx).1.le

end

/-- The text under a name is that of the file which the machine has under it. -/
theorem mem_renderFiles {files : List ClassFile} {name text : String} :
    (name, text) ∈ renderFiles files ↔
      ((Machine.load files).class? name).map ClassFile.asmText = some text := by
  have hfold (acc : List (String × String)) :
      (name, text) ∈ files.foldl (fun acc f => acc.filter (·.1 ≠ f.name) ++ [(f.name, f.asmText)]) acc ↔
        match files.reverse.find? (·.name = name) with
        | some f => f.asmText = text
        | none => (name, text) ∈ acc := by
    induction files generalizing acc with
    | nil => rfl
    | cons f files ih =>
      rw [List.foldl_cons, ih, List.reverse_cons, List.find?_append]
      cases files.reverse.find? (·.name = name) with
      | some g => rfl
      | none =>
        by_cases hf : f.name = name
        · simp [hf, eq_comm]
        · simp [hf, Ne.symm hf]
  rw [renderFiles, List.mem_mergeSort, hfold, Machine.class?, Machine.load]
  cases files.reverse.find? (·.name = name) <;> simp

/-- The places among the classes of a program at which a name is declared. -/
def Program.placesNamed (p : Program) (name : String) : Set Nat := placesOf (·.name.name = name) p.classes

theorem Program.placesNamed_nonempty {p : Program} {name : String} (h : p.hasClass name = true) :
    (p.placesNamed name).Nonempty := by
  obtain ⟨c, hc⟩ := Option.isSome_iff_exists.1 h
  obtain ⟨hP, k, hk, rfl, -⟩ := List.find?_eq_some_iff_getElem.1 hc
  exact ⟨k, p.classes[k], List.getElem?_eq_getElem hk, hP⟩

variable {o : CompileOptions} {p : Program} {files : List ClassFile}

theorem placesOf_files (h : List.Forall₂ (FileOf o p) p.classes files) (name : String) :
    placesOf (·.name = name) files = p.placesNamed name :=
  placesOf_eq_of_forall₂ (forall₂_imp_mem h fun c _ f hf => by rw [hf.name])

/-- Each class of an accepted program is compiled to one file. Under a name the checker has the first of the
classes that declare it, and the machine has, and writes, the file of the last, so that both are of one
declaration exactly if there is no second. -/
theorem registered_is_last_declared {o : CompileOptions} {p : Program} {files : List ClassFile}
    (ha : (p.check o.entry).issues = [])
    (hc : Program.compile o (p.check o.entry).decl (p.check o.entry).decl = .ok files) :
    List.Forall₂ (CompiledFrom o p) p.classes files ∧
      ∀ name, p.hasClass name = true → ∃ first last,
        IsLeast (p.placesNamed name) first ∧ p.class? name = p.classes[first]? ∧
        IsGreatest (p.placesNamed name) last ∧ (Machine.load files).class? name = files[last]? ∧
        (∀ asm, (name, asm) ∈ renderFiles files ↔ files[last]?.map ClassFile.asmText = some asm) ∧
        (first = last ↔ ∃! k, k ∈ p.placesNamed name) := by
  rw [(Program.check_clean ha).1] at hc
  refine ⟨Program.compile_each hc, fun name hname => ?_⟩
  have hne := Program.placesNamed_nonempty hname
  have hleast : IsLeast (p.placesNamed name) (sInf (p.placesNamed name)) := ⟨Nat.sInf_mem hne, fun k hk => Nat.sInf_le hk⟩
  have hgreatest : IsGreatest (p.placesNamed name) (sSup (p.placesNamed name)) :=
    ⟨Nat.sSup_mem hne bddAbove_placesOf, fun k hk => le_csSup bddAbove_placesOf hk⟩
  have hmachine : (Machine.load files).class? name = files[sSup (p.placesNamed name)]? :=
    find?_reverse_of_isGreatest (placesOf_files (Program.compile_ok hc) name ▸ hgreatest)
  refine ⟨_, _, hleast, find?_of_isLeast hleast, hgreatest, hmachine, fun asm => by rw [mem_renderFiles, hmachine], ?_⟩
  constructor
  · intro he
    exact ⟨_, hleast.1, fun k hk => le_antisymm (he ▸ hgreatest.2 hk) (hleast.2 hk)⟩
  · rintro ⟨k, -, hk⟩
    exact (hk _ hleast.1).trans (hk _ hgreatest.1).symm

namespace TwiceDeclared

open Sample Yaml

/-- Prints a field of an object of a class that is declared again, without the field. -/
def source : String :=
  "classes: [{class: Main, constructor: {body: [{print: {dot: [{new: [C]}, x]}}]}}, {class: C, fields: [{x: int}]}, {class: C}]"

def root : Node :=
  entry 1 [word "classes" 1, row 10 [
    entry 11 [word "class" 12, word "Main" 19, word "constructor" 25, entry 38 [
      word "body" 39, row 45 [
        entry 46 [word "print" 47, entry 54 [word "dot" 55, row 60 [
          entry 61 [word "new" 62, row 67 [word "C" 68]], word "x" 73]]]]]],
    entry 82 [word "class" 83, word "C" 90, word "fields" 93, row 101 [entry 102 [word "x" 103, word "int" 106]]],
    entry 114 [word "class" 115, word "C" 122]]]

def main : ClassDecl where
  token := ⟨.classDecl, "Main", 1, 11⟩
  name := name "Main" 19
  constructor := some {
    token := ⟨.constructor, "", 1, 38⟩
    name := ⟨⟨.constructor, "", 1, 38⟩, "Main"⟩
    body := [.print (token .print 47) (.member (token .dot 55) (.new (token .new 62) (name "C" 68) []) (name "x" 73))] }

def first : ClassDecl where
  token := ⟨.classDecl, "C", 1, 82⟩
  name := name "C" 90
  fields := [⟨⟨.field, "x", 1, 103⟩, name "x" 103, .int⟩]

def second : ClassDecl where
  token := ⟨.classDecl, "C", 1, 114⟩
  name := name "C" 122

def program : Program := { file := "sample", classes := [main, first, second] }

theorem parse_int : Ty.parse "int" = .ok .int := by rfl

theorem ofNode_root : Program.ofNode "sample" root = .ok program := by
  simp [Program.ofNode, root, entry, row, word, Decoder.classLists, Decoder.classDecl, Decoder.entries,
    Decoder.classParts, Decoder.name, Decoder.constructor, Decoder.methodParts, Decoder.stmtList, Decoder.stmts,
    Decoder.stmt, Decoder.expr, Decoder.exprs, Decoder.vars, Decoder.var, Decoder.type, Node.isNull, bind,
    Except.bind, pure, Except.pure, parse_int]
  rfl

set_option maxRecDepth 1500 in
theorem decode_source : Program.decode "sample" source = .ok program :=
  Program.decode_of_read (by decide +kernel) ofNode_root

theorem accepted : (program.check "Main").issues = [] := by decide

theorem compiled : ∃ files, Program.compile {} (program.check "Main").decl (program.check "Main").decl = .ok files := by
  have hc : (Program.compile {} (program.check "Main").decl (program.check "Main").decl).toOption.isSome := by decide
  cases hf : Program.compile {} (program.check "Main").decl (program.check "Main").decl with
  | error e => simp [hf, Except.toOption] at hc
  | ok files => exact ⟨files, rfl⟩

end TwiceDeclared

theorem registered_is_last_declared_twice : ∃ files,
    Program.compile {} (TwiceDeclared.program.check "Main").decl (TwiceDeclared.program.check "Main").decl = .ok files ∧
      ∃ first last, IsLeast (TwiceDeclared.program.placesNamed "C") first ∧
        IsGreatest (TwiceDeclared.program.placesNamed "C") last ∧
        TwiceDeclared.program.class? "C" = TwiceDeclared.program.classes[first]? ∧
        (Machine.load files).class? "C" = files[last]? := by
  obtain ⟨files, hf⟩ := TwiceDeclared.compiled
  obtain ⟨-, hnames⟩ := registered_is_last_declared (o := {}) TwiceDeclared.accepted hf
  obtain ⟨first, last, hleast, hclass, hgreatest, hmachine, -⟩ := hnames "C" (by decide)
  exact ⟨files, hf, first, last, hleast, hgreatest, hclass, hmachine⟩

/-- The field of the first declaration, which is the one that the checker knows, is missing in the file that
the machine has. -/
theorem registered_misses_checked_class : ∃ files f,
    Program.decode "sample" TwiceDeclared.source = .ok TwiceDeclared.program ∧
      (TwiceDeclared.program.check "Main").issues = [] ∧
      Program.compile {} (TwiceDeclared.program.check "Main").decl (TwiceDeclared.program.check "Main").decl = .ok files ∧
      TwiceDeclared.program.class? "C" = some TwiceDeclared.first ∧ (Machine.load files).class? "C" = some f ∧
      ¬ CompiledFrom {} TwiceDeclared.program TwiceDeclared.first f := by
  obtain ⟨files, hf⟩ := TwiceDeclared.compiled
  have hfields : (Program.compile {} (TwiceDeclared.program.check "Main").decl
      (TwiceDeclared.program.check "Main").decl).toOption.bind (fun files =>
        ((Machine.load files).class? "C").map ClassFile.fields) = some [] := by decide
  simp only [hf, Except.toOption, Option.bind_some, Option.map_eq_some_iff] at hfields
  obtain ⟨f, hclass, hnone⟩ := hfields
  refine ⟨files, f, TwiceDeclared.decode_source, TwiceDeclared.accepted, hf, rfl, hclass, fun hfrom => ?_⟩
  have hdeclared := hfrom.fileOf.fields
  rw [hnone] at hdeclared
  simp [TwiceDeclared.first] at hdeclared

end ClassCompiler
