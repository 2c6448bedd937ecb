import ClassCompiler.Compile.Expr
import ClassCompiler.Proofs.Typing.Known

namespace ClassCompiler

def PlainName (name : String) : Prop := ∀ c ∈ name.toList, c ≠ ';' ∧ c ≠ ')'

theorem countParams?_skip {cs rest : List Char} (h : ∀ c ∈ cs, c ≠ ';' ∧ c ≠ ')') :
    countParams? true (cs ++ ';' :: rest) = (countParams? false rest).map (· + 1) := by
  induction cs with
  | nil => rfl
  | cons c cs ih =>
    obtain ⟨hc, hcs⟩ := List.forall_mem_cons.1 h
    rw [List.cons_append, countParams?]
    · exact ih hcs
    · exact hc.2
    · exact hc.1

theorem Ty.NameChars.plainName {name : String} (h : Ty.NameChars name) : PlainName name := by
  intro c hc
  have := h c hc
  constructor <;> (rintro rfl; revert this; decide)

theorem Ty.Written.plainName_classRef {t : Ty} (h : t.Written) : PlainName t.classRef := by
  cases t with
  | cls name => exact h.2.2.plainName
  | null | noType => exact h.elim
  | _ => simp [PlainName, Ty.classRef, integerClass, booleanClass, stringClass, fptrClass, listClass, rootClass]

/-- Every value is stored as an object of a class. -/
theorem Ty.descriptor_eq {t : Ty} (h : t ≠ .void) : t.descriptor = "L" ++ t.classRef ++ ";" := by
  cases t <;> first | exact absurd rfl h | rfl

theorem countParams?_descriptor {t : Ty} (h : t.Written) (rest : List Char) :
    countParams? false (t.descriptor.toList ++ rest) = (countParams? false rest).map (· + 1) := by
  by_cases hv : t = .void
  · subst hv
    rfl
  · rw [Ty.descriptor_eq hv, String.toList_append, String.toList_append, List.append_assoc, List.append_assoc]
    exact countParams?_skip h.plainName_classRef

theorem countParams?_descriptors {ts : List Ty} (h : ∀ t ∈ ts, t.Written) (rest : List Char) :
    countParams? false ((String.join (ts.map Ty.descriptor)).toList ++ ')' :: rest) = some ts.length := by
  induction ts with
  | nil => rfl
  | cons t ts ih =>
    obtain ⟨ht, hts⟩ := List.forall_mem_cons.1 h
    rw [List.map_cons, String.join_cons, String.toList_append, List.append_assoc,
      countParams?_descriptor ht, ih hts, List.length_cons, Option.map_some]

/-- A call with a descriptor made of written types takes one value for each of them. -/
theorem argCount_descriptor {ts : List Ty} (h : ∀ t ∈ ts, t.Written) (result : String) :
    argCount ("(" ++ String.join (ts.map Ty.descriptor) ++ ")" ++ result) = ts.length := by
  have hl : ("(" ++ String.join (ts.map Ty.descriptor) ++ ")" ++ result).toList =
      '(' :: ((String.join (ts.map Ty.descriptor)).toList ++ ')' :: result.toList) := by
    simp [String.toList_append]
  rw [argCount, hl]
  simp only [countParams?_descriptors h, Option.getD_some]

theorem MethodDecl.Written.argCount {m : MethodDecl} (h : m.Written) (result : String) :
    argCount ("(" ++ String.join (m.args.map (·.type.descriptor)) ++ ")" ++ result) = m.args.length := by
  have hw : ∀ t ∈ m.args.map VarDecl.type, t.Written := by
    intro t ht
    obtain ⟨v, hv, rfl⟩ := List.mem_map.1 ht
    exact h.vars v (by simp [hv])
  have := argCount_descriptor hw result
  rwa [List.map_map, List.length_map] at this

theorem Program.Written.argCount_constructorDescriptor {p : Program} (h : p.Written) (cls : String) :
    argCount (p.constructorDescriptor cls) = (p.constructorParams cls).length := by
  unfold Program.constructorDescriptor Program.constructorParams
  cases hm : p.constructor? cls with
  | none => rfl
  | some m =>
    obtain ⟨c, hc, _, hcm⟩ := Program.constructor?_mem hm
    have hw : m.Written := (h c hc).bodies m (by simp [ClassDecl.bodies, hcm])
    rw [List.length_map]
    exact hw.argCount Ty.void.descriptor

end ClassCompiler
