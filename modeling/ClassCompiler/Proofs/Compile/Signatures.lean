import ClassCompiler.Proofs.Code.Descriptor
import ClassCompiler.Proofs.Compile.Methods

namespace ClassCompiler

/-- The part of a descriptor before the first closing bracket. -/
def parameterPart (desc : String) : List Char := desc.toList.takeWhile (· ≠ ')')

/-- The descriptor of a method with these parameters and this result. -/
def descriptorOf (params : List Ty) (result : Ty) : String :=
  "(" ++ String.join (params.map Ty.descriptor) ++ ")" ++ result.descriptor

variable {params : List Ty} {result : Ty} {m : MethodDecl}

theorem toList_descriptorOf : (descriptorOf params result).toList =
    ('(' :: (String.join (params.map Ty.descriptor)).toList) ++ ')' :: result.descriptor.toList := by
  simp [descriptorOf, String.toList_append]

theorem MethodDecl.descriptor_eq : m.descriptor = descriptorOf (m.args.map VarDecl.type) m.result := by
  simp [MethodDecl.descriptor, descriptorOf, Function.comp_def]

theorem MethodDecl.constructorDescriptor_eq :
    m.constructorDescriptor = descriptorOf (m.args.map VarDecl.type) .void := by
  simp [MethodDecl.constructorDescriptor, descriptorOf, Function.comp_def]

theorem argCount_descriptorOf (h : ∀ t ∈ params, t.Written) : argCount (descriptorOf params result) = params.length :=
  argCount_descriptor h result.descriptor

theorem Ty.Written.bracket_notMem_descriptor {t : Ty} (h : t.Written) : ')' ∉ t.descriptor.toList := by
  by_cases hv : t = .void
  · subst hv
    decide
  · intro hc
    simp only [Ty.descriptor_eq hv, String.toList_append, List.mem_append] at hc
    obtain (hc | hc) | hc := hc
    · exact absurd hc (by decide)
    · exact (h.plainName_classRef _ hc).2 rfl
    · exact absurd hc (by decide)

theorem bracket_notMem_descriptors (h : ∀ t ∈ params, t.Written) :
    ')' ∉ (String.join (params.map Ty.descriptor)).toList := by
  induction params with
  | nil => simp
  | cons t ts ih =>
    obtain ⟨ht, hts⟩ := List.forall_mem_cons.1 h
    rw [List.map_cons, String.join_cons, String.toList_append, List.mem_append]
    exact fun hc => hc.elim ht.bracket_notMem_descriptor (ih hts)

/-- The first closing bracket is the one behind the parameters. -/
theorem parameterPart_descriptorOf (h : ∀ t ∈ params, t.Written) :
    parameterPart (descriptorOf params result) = '(' :: (String.join (params.map Ty.descriptor)).toList := by
  have hopen : ∀ c ∈ '(' :: (String.join (params.map Ty.descriptor)).toList, decide (c ≠ ')') = true := by
    rintro c (_ | ⟨_, hc⟩)
    · decide
    · exact decide_eq_true fun he => bracket_notMem_descriptors h (he ▸ hc)
  rw [parameterPart, toList_descriptorOf, List.takeWhile_append_of_pos hopen]
  simp

theorem Ty.getLast?_descriptor {t : Ty} (h : t ≠ .void) : t.descriptor.toList.getLast? = some ';' := by
  rw [Ty.descriptor_eq h, String.toList_append]
  exact List.getLast?_concat

/-- Only the descriptor of `void` ends in something else than a semicolon. -/
theorem returnsVoid_descriptorOf : returnsVoid (descriptorOf params result) = true ↔ result = .void := by
  rw [returnsVoid, decide_eq_true_iff, toList_descriptorOf]
  constructor
  · rintro ⟨before, hends⟩
    by_contra hr
    have hlast := congrArg List.getLast? hends
    simp [List.getLast?_append, List.getLast?_cons, Ty.getLast?_descriptor hr] at hlast
  · rintro rfl
    exact ⟨_, rfl⟩

theorem MethodDecl.result_eq_void : m.result = .void ↔ m.returnType = none ∨ m.returnType = some .void := by
  unfold MethodDecl.result Ty.resultOfOption
  cases m.returnType <;> simp

theorem MethodDecl.written_of_parse (hargs : ∀ v ∈ m.args, ∃ s, Ty.parse s = .ok v.type) :
    ∀ t ∈ m.args.map VarDecl.type, t.Written := by
  intro t ht
  obtain ⟨v, hv, rfl⟩ := List.mem_map.1 ht
  obtain ⟨s, hs⟩ := hargs v hv
  exact Ty.parse_written hs

theorem Program.constructorDescriptor_eq {p : Program} {cls : String} (h : p.constructor? cls = some m) :
    p.constructorDescriptor cls = m.constructorDescriptor := by
  simp only [Program.constructorDescriptor, h]

theorem desc_of_compileConstructor {o : CompileOptions} {p : Program} {c : ClassDecl} {s s' : Supply} {mc : MethodCode}
    (h : o.compileConstructor p c m s = .ok (mc, s')) : mc.desc = m.constructorDescriptor := by
  obtain ⟨code, -, rfl⟩ := compileConstructor_ok h
  rfl

/-- A descriptor has as many parameters as the declaration and says whether something is returned; the
constructor is called with the parameters under which its code is kept. -/
theorem descriptors_carry_arity (hargs : ∀ v ∈ m.args, ∃ s, Ty.parse s = .ok v.type) :
    argCount m.descriptor = m.args.length ∧
      (returnsVoid m.descriptor = true ↔ m.returnType = none ∨ m.returnType = some .void) ∧
      ∀ (o : CompileOptions) (p : Program) (c : ClassDecl) (s s' : Supply) (mc : MethodCode),
        o.compileConstructor p c m s = .ok (mc, s') →
          mc.desc = m.constructorDescriptor ∧ argCount mc.desc = m.args.length ∧ returnsVoid mc.desc = true ∧
            parameterPart mc.desc = parameterPart m.descriptor ∧
            parameterPart mc.desc = '(' :: (String.join (m.args.map (·.type.descriptor))).toList ∧
            ∀ (table : Program) (cls : String), table.constructor? cls = some m →
              parameterPart (table.constructorDescriptor cls) = parameterPart mc.desc := by
  have hw := MethodDecl.written_of_parse hargs
  have hcount (result : Ty) : argCount (descriptorOf (m.args.map VarDecl.type) result) = m.args.length := by
    rw [argCount_descriptorOf hw, List.length_map]
  refine ⟨?_, ?_, fun o p c s s' mc hmc => ?_⟩
  · rw [MethodDecl.descriptor_eq, hcount]
  · rw [MethodDecl.descriptor_eq, returnsVoid_descriptorOf, MethodDecl.result_eq_void]
  · have hdesc := desc_of_compileConstructor hmc
    have hsig := hdesc.trans MethodDecl.constructorDescriptor_eq
    refine ⟨hdesc, ?_, ?_, ?_, ?_, fun table cls hcls => ?_⟩
    · rw [hsig, hcount]
    · rw [hsig, returnsVoid_descriptorOf]
    · rw [hsig, MethodDecl.descriptor_eq, parameterPart_descriptorOf hw, parameterPart_descriptorOf hw]
    · rw [hsig, parameterPart_descriptorOf hw, List.map_map]
      rfl
    · rw [Program.constructorDescriptor_eq hcls, hdesc]

namespace FiveParameters

def arg (name : String) (type : Ty) : VarDecl := ⟨{}, ⟨{}, name⟩, type⟩

/-- A constructor whose parameters are easily miscounted: `void` is one letter, and class names hold the
letters that descriptors are made of. -/
def constructor : MethodDecl where
  token := {}
  name := ⟨{}, "LV2"⟩
  args := [arg "a" .void, arg "b" (.cls "LV2"), arg "c" (.list [("", .int)]), arg "d" (.fptr [.cls "V"] .void), arg "e" .int]

def declaration : ClassDecl where
  token := {}
  name := ⟨{}, "LV2"⟩
  constructor := some constructor

def program : Program := { file := "sample", classes := [declaration] }

theorem parsed : ∀ v ∈ constructor.args, ∃ s, Ty.parse s = .ok v.type := by
  simp only [constructor, arg, List.forall_mem_cons]
  exact ⟨⟨"void", rfl⟩, ⟨"LV2", rfl⟩, ⟨"list(int)", rfl⟩, ⟨"fptr(V -> void)", rfl⟩, ⟨"int", rfl⟩, by simp⟩

theorem compiled : ∃ mc s, CompileOptions.compileConstructor {} program declaration constructor {} = .ok (mc, s) :=
  ⟨_, _, rfl⟩

end FiveParameters

theorem descriptors_carry_arity_five : ∃ mc s,
    CompileOptions.compileConstructor {} FiveParameters.program FiveParameters.declaration FiveParameters.constructor {} =
        .ok (mc, s) ∧
      argCount mc.desc = 5 ∧ returnsVoid mc.desc = true ∧
      mc.desc = "(VLLV2;LList;LFptr;Ljava/lang/Integer;)V" ∧
      parameterPart (FiveParameters.program.constructorDescriptor "LV2") = parameterPart mc.desc := by
  obtain ⟨mc, s, hmc⟩ := FiveParameters.compiled
  obtain ⟨-, -, hall⟩ := descriptors_carry_arity FiveParameters.parsed
  obtain ⟨hdesc, hcount, hvoid, -, -, hcalled⟩ := hall _ _ _ _ _ _ hmc
  exact ⟨mc, s, hmc, hcount, hvoid, hdesc.trans rfl, hcalled FiveParameters.program "LV2" rfl⟩

end ClassCompiler
