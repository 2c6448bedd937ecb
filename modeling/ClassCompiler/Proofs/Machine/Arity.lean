import ClassCompiler.Proofs.Machine.Returns

namespace ClassCompiler

/-- What an operation starts is given as many arguments as it takes, and the receiver. -/
def Effect.Arity : Effect → Prop
  | .call _ _ _ mc args _ => args.length = argCount mc.desc + 1
  | .next _ _ _ => True

def Reply.Arity : Reply → Prop
  | .call _ _ mc args => args.length = argCount mc.desc + 1
  | .value _ _ _ => True

theorem Attempt.any {α : Type} (x : Except Fault α) : Attempt AnyCause (fun _ => True) x := by
  cases x <;> trivial

theorem Frame.popMany_arity (f : Frame) (n : Nat) : Attempt AnyCause (fun r => r.1.length = n) (f.popMany n) := by
  unfold popMany
  split
  · trivial
  · simp only [Attempt, List.length_reverse, List.length_take]
    omega

theorem ClassFile.desc_of_method? {c : ClassFile} {name desc : String} {mc : MethodCode}
    (hmc : c.method? name desc = some mc) : mc.desc = desc := by
  have hfound := List.find?_some hmc
  simp only [Bool.and_eq_true, decide_eq_true_eq] at hfound
  exact hfound.2

namespace Machine

variable (m : Machine) (f : Frame) (h : Heap)

theorem desc_of_virtualMethod? {m : Machine} {cls name desc : String} {owner : ClassFile} {mc : MethodCode}
    (hmc : m.virtualMethod? cls name desc = some (owner, mc)) : mc.desc = desc := by
  obtain ⟨c, -, hfound⟩ := List.exists_of_findSome?_eq_some hmc
  obtain ⟨mc', hmc', he⟩ := Option.map_eq_some_iff.1 hfound
  obtain ⟨-, rfl⟩ := Prod.mk.inj he
  exact c.desc_of_method? hmc'

theorem dispatch_arity (recv : Value) (name : String) (args : List Value) :
    Attempt AnyCause Reply.Arity (m.dispatch h recv name args) := by
  unfold dispatch
  split
  · trivial
  · split
    · trivial
    · split
      · trivial
      · split
        · trivial
        · simp only
          split
          · next hn => simp [Attempt, Reply.Arity, hn]
          · trivial

theorem native_arity (n : NativeMethod) (recv : Value) (args : List Value) :
    Attempt AnyCause Reply.Arity (n.run m h recv args) := by
  cases n with
  | invoke =>
    simp only [NativeMethod.run]
    split
    · exact (Attempt.any _).bind fun es _ => m.dispatch_arity h _ _ es
    · trivial
  | _ => simp only [NativeMethod.run]; repeat' (first | trivial | split)

theorem invokeSpecial_arity (r : MemberRef) : Attempt AnyCause Effect.Arity (m.invokeSpecial f h r) := by
  unfold invokeSpecial
  split
  · trivial
  · refine (f.popMany_arity _).bind fun ⟨vals, g⟩ hvals => ?_
    simp only
    split
    · trivial
    · split
      · refine (Attempt.any _).bind fun _ _ => ?_
        trivial
      · split
        · trivial
        · split
          · trivial
          · split
            · trivial
            · next hmc => simpa [Attempt, pure, Except.pure, Effect.Arity, ClassFile.desc_of_method? hmc] using hvals

theorem invokeVirtual_arity (r : MemberRef) : Attempt AnyCause Effect.Arity (m.invokeVirtual f h r) := by
  unfold invokeVirtual
  refine (f.popMany_arity _).bind fun ⟨vals, g⟩ hvals => ?_
  simp only
  split
  · trivial
  · split
    · refine (m.native_arity h _ _ _).bind fun reply hreply => ?_
      cases reply with
      | value =>
        simp only
        split
        · refine (Attempt.any _).bind fun _ _ => ?_
          trivial
        · trivial
      | call => exact hreply
    · refine (Attempt.any _).bind fun ⟨cls, fields⟩ _ => ?_
      simp only
      split
      · trivial
      · next hmc => simpa [Attempt, pure, Except.pure, Effect.Arity, desc_of_virtualMethod? hmc] using hvals

theorem exec_arity (op : Op) : Attempt AnyCause Effect.Arity (m.exec f h op) := by
  have hpush : ∀ (g : Frame) (h : Heap) (v : Value), Attempt AnyCause Effect.Arity (Effect.quiet h <$> g.push v) :=
    fun g h v => (Attempt.any _).map fun _ _ => trivial
  have hdone : ∀ {α : Type} (x : Except Fault α) (k : α → Except Fault Effect), (∀ a, Attempt AnyCause Effect.Arity (k a)) →
      Attempt AnyCause Effect.Arity (x >>= k) := fun x k hk => (Attempt.any x).bind fun a _ => hk a
  cases op with
  | invokeSpecial r => exact m.invokeSpecial_arity f h r
  | invokeVirtual r => exact m.invokeVirtual_arity f h r
  | invokeStatic r =>
    refine hdone _ _ fun ⟨args, g⟩ => ?_
    simp only
    split
    · trivial
    · exact hdone _ _ fun _ => trivial
  | pushInt | pushString | pushNull => exact hpush _ _ _
  | load => exact hdone _ _ fun i => hpush _ _ _
  | store => exact hdone _ _ fun i => hdone _ _ fun _ => trivial
  | increment => exact hdone _ _ fun i => trivial
  | dup => exact hdone _ _ fun _ => hdone _ _ fun _ => hpush _ _ _
  | pop => exact hdone _ _ fun _ => trivial
  | new => exact hdone _ _ fun _ => hdone _ _ fun _ => trivial
  | arith => exact hdone _ _ fun _ => hdone _ _ fun _ => hpush _ _ _
  | neg => exact hdone _ _ fun _ => hpush _ _ _
  | jump =>
    refine hdone _ _ fun ⟨taken, g⟩ => ?_
    cases taken with
    | true => exact (Attempt.any _).map fun _ _ => trivial
    | false => trivial
  | cast | getStatic =>
    unfold exec
    simp only
    split
    · first | trivial | exact hpush _ _ _
    · first | trivial | (split <;> trivial)
  | getField =>
    refine hdone _ _ fun _ => ?_
    simp only
    split
    · trivial
    · exact hpush _ _ _
  | putField =>
    refine hdone _ _ fun _ => ?_
    simp only
    split
    · trivial
    · trivial
  | _ => trivial

end Machine

end ClassCompiler
