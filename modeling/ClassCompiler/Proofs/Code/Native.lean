import ClassCompiler.Compile.Stmt

namespace ClassCompiler

def NativeConstructor.arity : NativeConstructor → Nat
  | .listOfArrayList => 1
  | .listCopy => 1
  | .fptrBind => 2

def NativeMethod.arity : NativeMethod → Nat
  | .intValue => 0
  | .booleanValue => 0
  | .setElement => 2
  | _ => 1

def NativeMethod.answers : NativeMethod → Bool
  | .setElement => false
  | .printInt => false
  | .printBool => false
  | .printString => false
  | _ => true

@[simp] theorem argCount_constructor (n : NativeConstructor) : argCount n.ref.desc = n.arity := by
  cases n <;> decide

@[simp] theorem argCount_method (n : NativeMethod) : argCount n.ref.desc = n.arity := by
  cases n <;> decide

@[simp] theorem returnsVoid_method (n : NativeMethod) : returnsVoid n.ref.desc = !n.answers := by
  cases n <;> decide

@[simp] theorem argCount_static (n : NativeStatic) : argCount n.ref.desc = 1 := by
  cases n <;> decide

theorem Ty.arity_printer? {t : Ty} {n : NativeMethod} (h : t.printer? = some n) :
    n.arity = 1 ∧ n.answers = false := by
  cases t <;> simp [Ty.printer?] at h <;> subst h <;> decide

@[simp] theorem argCount_noParams : argCount "()V" = 0 := by decide

@[simp] theorem NativeMethod.ofRef?_ref (n : NativeMethod) : NativeMethod.ofRef? n.ref = some n := by
  cases n <;> decide

@[simp] theorem NativeStatic.ofRef?_ref (n : NativeStatic) : NativeStatic.ofRef? n.ref = some n := by
  cases n <;> decide

@[simp] theorem NativeConstructor.ofRef?_ref (n : NativeConstructor) :
    NativeConstructor.ofRef? n.ref = some n := by
  cases n <;> decide

/-- No constructor of a runtime class is without parameters. -/
theorem NativeConstructor.ofRef?_noParams (owner name : String) :
    NativeConstructor.ofRef? ⟨owner, name, "()V"⟩ = none := by
  have hkey : ∀ n : NativeConstructor,
      (MemberRef.constructorKey ⟨owner, name, "()V"⟩ == n.ref.constructorKey) = false := by
    intro n
    refine beq_eq_false_iff_ne.2 fun h => ?_
    have hend := congrArg (fun s : String => s.toList.reverse.take 3) h
    cases n <;> simp [MemberRef.constructorKey, ref, listClass, fptrClass] at hend
  simp [ofRef?, byKey, all, List.lookup_cons, hkey]

end ClassCompiler
