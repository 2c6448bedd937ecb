import ClassCompiler.Proofs.Machine.Comes
import ClassCompiler.Proofs.Tree.Lineage

namespace ClassCompiler

open Relation

def MethodCode.Holds (mc : MethodCode) (n : Nat) : Prop := 0 < mc.stackLimit → (n : Int) ≤ mc.stackLimit

theorem MethodCode.Holds.not_full {mc : MethodCode} {n k : Nat} (h : mc.Holds n) (hk : k < n) : ¬mc.Full k := by
  rintro ⟨hpos, hle⟩
  have := h hpos
  omega

theorem MethodCode.Holds.mono {mc : MethodCode} {n k : Nat} (h : mc.Holds n) (hk : k ≤ n) : mc.Holds k :=
  fun hpos => (Int.ofNat_le.2 hk).trans (h hpos)

namespace Crosses

variable {m : Machine} {mc : MethodCode} {callers : Outer} {lo hi : Nat} {Q : Spot → State → Prop}
  {rest : List Instr} {c : Spot} {s : State} {line : Int} {vs : List Value}

/-- A list and an array list for its elements are created. -/
theorem newList (hroom : mc.Holds (c.stack.length + 4))
    (h : ∀ d s', d.stack = .ref (c.heap.size + 1) :: .ref c.heap.size :: .ref c.heap.size :: c.stack →
      d.locals = c.locals → d.heap = Array.push (Array.push c.heap (.list [])) (.arrayList []) →
      Crosses m mc callers lo hi (fun _ _ => False) Q rest d s') :
    Crosses m mc callers lo hi (fun _ _ => False) Q (onLine line ([.new listClass, .dup] ++ newArrayList) ++ rest) c s := by
  simp only [newArrayList, onLine_cons, onLine_nil, List.cons_append, List.nil_append]
  refine .step (by simp) (.new m.allocate_list (hroom.not_full (by omega))) rfl fun s₁ => ?_
  refine .step (by simp) (.dup rfl (hroom.not_full (by omega))) rfl fun s₂ => ?_
  refine .step (by simp) (.new m.allocate_arrayList (hroom.not_full (by simp [Spot.next]))) rfl fun s₃ => ?_
  refine .step (by simp) (.dup rfl (hroom.not_full (by simp [Spot.next]))) rfl fun s₄ => ?_
  refine .step (by simp) (.invokeSpecial_arrayList rfl (by simp [Value.isNull])) rfl fun s₅ => ?_
  exact h _ s₅ (by simp [Spot.next]) rfl rfl

theorem addElement {b : Nat} {v : Value} {below : List Value} (hroom : mc.Holds (below.length + 1))
    (hs : c.stack = v :: .ref b :: below) (hb : c.heap[b]? = some (.arrayList vs))
    (h : ∀ d s', d.stack = below → d.locals = c.locals → d.heap = c.heap.set (.ref b) (.arrayList (vs ++ [v])) →
      Crosses m mc callers lo hi (fun _ _ => False) Q rest d s') :
    Crosses m mc callers lo hi (fun _ _ => False) Q (onLine line ClassCompiler.addElement ++ rest) c s := by
  simp only [ClassCompiler.addElement, onLine_cons, onLine_nil, List.cons_append, List.nil_append]
  have hrun : NativeMethod.arrayListAdd.run m c.heap (.ref b) [v] =
      .ok (.value (.ofBool true) (c.heap.set (.ref b) (.arrayList (vs ++ [v]))) "") := by
    simp only [NativeMethod.run, Heap.get?, hb]
    rfl
  refine .op (by simp) (.invokeVirtual [v] hs rfl (by simp [Value.isNull]) (fun _ e he => by simp [hrun] at he)
    (fun r hr => ⟨_, _, Except.ok.inj (hr.symm.trans hrun)⟩) (hroom.not_full (by omega))) ?_ ?_
  · rintro _ ⟨_, _, -, rfl⟩
    rfl
  · rintro _ s₁ ⟨x, heap, hx, rfl⟩
    obtain ⟨rfl, rfl, -⟩ := Reply.value.inj (Except.ok.inj (hrun.symm.trans hx))
    exact .step (by simp) (.pop rfl) rfl fun s₂ => h _ s₂ rfl rfl rfl

mutual

/-- The value that a variable starts with is put on the stack, where there is room for it. -/
theorem defaultValue (t : Ty) {rest : List Instr} {c : Spot} {s : State}
    (hroom : mc.Holds (c.stack.length + needOfDefault t))
    (h : ∀ d v s', d.stack = v :: c.stack → d.locals = c.locals → c.heap.Grows d.heap →
      Crosses m mc callers lo hi (fun _ _ => False) Q rest d s') :
    Crosses m mc callers lo hi (fun _ _ => False) Q (onLine line (ClassCompiler.defaultValue t) ++ rest) c s := by
  have hone : ¬mc.Full c.stack.length := hroom.not_full (Nat.lt_add_of_pos_right (one_le_needOfDefault t))
  match t with
  | .int =>
    refine .step (by simp) (.pushInt hone) rfl fun s₁ => ?_
    refine .step (by simp) (.invokeStatic (n := .integerValueOf) rfl hone) rfl fun s₂ => ?_
    exact h _ _ s₂ rfl rfl (Heap.Grows.push _ _)
  | .bool =>
    refine .step (by simp) (.pushInt hone) rfl fun s₁ => ?_
    refine .step (by simp) (.invokeStatic (n := .booleanValueOf) rfl hone) rfl fun s₂ => ?_
    exact h _ _ s₂ rfl rfl (Heap.Grows.push _ _)
  | .string => exact .step (by simp) (.pushString hone) rfl fun s₁ => h _ _ s₁ rfl rfl .refl
  | .null | .void | .noType | .cls _ | .fptr _ _ =>
    exact .step (by simp) (.pushNull hone) rfl fun s₁ => h _ _ s₁ rfl rfl .refl
  | .list es =>
    rw [needOfDefault] at hroom
    rw [ClassCompiler.defaultValue, onLine_append, onLine_append, List.append_assoc, List.append_assoc]
    refine .newList (hroom.mono (by omega)) fun d s₁ hstack hlocals hheap => ?_
    have hgrows : c.heap.Grows d.heap := hheap ▸ (Heap.Grows.push _ _).trans (Heap.Grows.push _ _)
    have hlist : d.heap[c.heap.size]? = some (.list []) := by
      rw [hheap]
      exact Heap.Grows.push _ _ (.ref c.heap.size) _ Array.getElem?_push_size
    have harray : d.heap[c.heap.size + 1]? = some (.arrayList []) := by
      rw [hheap, ← Array.size_push (Object.list [])]
      exact Array.getElem?_push_size
    refine .defaultElements es (hroom.mono (by simp [hstack]; omega)) hstack harray fun e ys s₂ hes hel hey hkeep => ?_
    have hempty : e.heap[c.heap.size]? = some (.list []) := hkeep _ _ (by omega) hlist
    have hrun : NativeConstructor.listOfArrayList.run e.heap (.ref c.heap.size) [.ref (c.heap.size + 1)] =
        .ok (e.heap.set (.ref c.heap.size) (.list ys)) := by
      rw [List.nil_append] at hey
      simp [NativeConstructor.run, NativeConstructor.run.fillList, hempty, elementsOf, argument, Value.isNull, Heap.get?,
        hey, Object.arrayListElems?, bind, Except.bind, pure, Except.pure]
    refine .op (by simp) (.invokeSpecial [.ref (c.heap.size + 1)] (hes.trans hstack) rfl (by simp [Value.isNull])
      fun e he => by simp [hrun] at he) ?_ ?_
    · rintro _ ⟨_, -, rfl⟩
      rfl
    · rintro _ s₃ ⟨heap, hheap, rfl⟩
      obtain rfl := Except.ok.inj (hrun.symm.trans hheap)
      refine h _ (.ref c.heap.size) s₃ rfl (hel.trans hlocals) (Heap.Grows.set (fun v o hv => ?_) (Nat.le_refl _) _)
      obtain ⟨a, rfl⟩ := Heap.ref_of_get? hv
      have hlt := Heap.lt_size_of_get? hv
      exact hkeep a o (by omega) (hgrows _ o hv)

theorem defaultElements (es : List (String × Ty)) {rest : List Instr} {c : Spot} {s : State} {a : Nat}
    {xs vs : List Value} (hroom : mc.Holds (c.stack.length + needOfDefaults es)) (hs : c.stack = .ref a :: vs)
    (ho : c.heap[a]? = some (.arrayList xs))
    (h : ∀ d ys s', d.stack = c.stack → d.locals = c.locals → d.heap[a]? = some (.arrayList (xs ++ ys)) →
      (∀ b o, b ≠ a → c.heap[b]? = some o → d.heap[b]? = some o) →
      Crosses m mc callers lo hi (fun _ _ => False) Q rest d s') :
    Crosses m mc callers lo hi (fun _ _ => False) Q (onLine line (ClassCompiler.defaultElements es) ++ rest) c s := by
  match es with
  | [] => exact h c [] s rfl rfl (by simpa using ho) (fun _ _ _ => id)
  | (_, t) :: es =>
    rw [needOfDefaults] at hroom
    have ht := one_le_needOfDefault t
    have hlength : c.stack.length = vs.length + 1 := by simp [hs]
    simp only [ClassCompiler.defaultElements, onLine_cons, onLine_append, List.cons_append, List.append_assoc]
    refine .step (by simp) (.dup hs (hroom.not_full (by omega))) rfl fun s₁ => ?_
    refine .defaultValue t (hroom.mono (by simp [Spot.next]; omega)) fun d v s₂ hds hdl hdg => ?_
    refine .addElement (hroom.mono (by simp; omega)) hds (hdg (.ref a) _ ho) fun e s₃ hes hel heh => ?_
    have hother : ∀ b o, b ≠ a → d.heap[b]? = some o → e.heap[b]? = some o := fun b o hb hget => by
      rw [heh]
      exact (Array.getElem?_setIfInBounds_ne (Ne.symm hb)).trans hget
    have harray : e.heap[a]? = some (.arrayList (xs ++ [v])) := by
      rw [heh]
      exact Heap.get?_set_self (h := d.heap) (v := .ref a) (hdg (.ref a) _ ho)
    refine .defaultElements es (hroom.mono (by simp [hes]; omega)) hes harray fun f ys s₄ hfs hfl hfa hkeep => ?_
    refine h f (v :: ys) s₄ (hfs.trans (hes.trans hs.symm)) (hfl.trans (hel.trans hdl)) (by simpa using hfa)
      fun b o hb hget => hkeep b o hb (hother b o hb (hdg (.ref b) _ hget))

end

theorem fieldDefaults (d : ClassDecl) (fs : List VarDecl) {this : Value} {cls : String} {fields : List (String × Value)}
    (hroom : mc.Holds (c.stack.length + needOfFields fs)) (hthis : c.locals[0]? = some this)
    (ho : c.heap.get? this = some (.inst cls fields))
    (h : ∀ e s' fields', e.stack = c.stack → e.heap.get? this = some (.inst cls fields') →
      Crosses m mc callers lo hi (fun _ _ => False) Q rest e s') :
    Crosses m mc callers lo hi (fun _ _ => False) Q (onLine line (fs.flatMap d.fieldDefault) ++ rest) c s := by
  induction fs generalizing c s fields with
  | nil => exact h c s fields rfl ho
  | cons f fs ih =>
    rw [needOfFields] at hroom
    have hslot : ¬c.locals.size ≤ 0 := by
      have := (Array.getElem?_eq_some_iff.1 hthis).1
      omega
    simp only [List.flatMap_cons, ClassDecl.fieldDefault, onLine_append, onLine_cons, List.cons_append, List.append_assoc]
    refine .op (by simp) (.load hslot (hroom.not_full (by omega))) ?_ ?_
    · rintro _ ⟨_, _, rfl⟩
      rfl
    · rintro _ s₁ ⟨v, hv, rfl⟩
      obtain rfl : v = this := Option.some.inj (hv.symm.trans hthis)
      refine .defaultValue f.type (hroom.mono (by simp [Spot.next]; omega)) fun e w s₂ hes hel heg => ?_
      have ho' : e.heap.get? v = some (.inst cls fields) := heg v _ ho
      refine .op (by simp) (.putField hes fun err herr => ?_) ?_ ?_
      · simp [asInstance, Heap.isNull_of_get? ho', ho'] at herr
      · rintro _ ⟨_, _, -, rfl⟩
        rfl
      · rintro _ s₃ ⟨cls', fields', hget, rfl⟩
        obtain ⟨rfl, rfl⟩ := Object.inst.inj (Option.some.inj (ho'.symm.trans hget))
        exact ih (hroom.mono (by simp [Spot.next])) ((congrArg (·[0]?) hel).trans hthis) (Heap.get?_set_self ho') h

end Crosses

/-- The run gets back to some calls, having made at most so many more, and the heap is then as wanted. -/
inductive Machine.GetsBack (m : Machine) (callers : List Frame) (Q : Heap → Prop) : (calls : Nat) → State → Prop where
  | back {n : Nat} {heap : Heap} {out : String} (h : Q heap) : GetsBack m callers Q n ⟨callers, heap, out⟩
  | within {n : Nat} {s s' : State} (hs : s.step m false = .running s') (hle : s'.frames.length ≤ s.frames.length)
    (h : GetsBack m callers Q n s') : GetsBack m callers Q n s
  | call {n : Nat} {s s' : State} (hs : s.step m false = .running s') (h : GetsBack m callers Q n s') :
    GetsBack m callers Q (n + 1) s

section

variable {m : Machine} {mc : MethodCode} {callers : Outer} {outer : List Frame} {Q R : Heap → Prop} {n k : Nat}
  {c : Spot} {s : State}

theorem Machine.GetsBack.mono (h : m.GetsBack outer Q n s) (hn : n ≤ k) : m.GetsBack outer Q k s := by
  induction h generalizing k with
  | back h => exact .back h
  | within hs hle _ ih => exact .within hs hle (ih hn)
  | call hs _ ih =>
    obtain ⟨k, rfl⟩ : ∃ j, k = j + 1 := ⟨k - 1, by omega⟩
    exact .call hs (ih (by omega))

theorem Machine.GetsBack.bind {inner : List Frame} (h : m.GetsBack inner Q n s)
    (hk : ∀ heap out, Q heap → m.GetsBack outer R k ⟨inner, heap, out⟩) : m.GetsBack outer R (k + n) s := by
  induction h with
  | back h => exact (hk _ _ h).mono (Nat.le_add_right _ _)
  | within hs hle _ ih => exact .within hs hle ih
  | call hs _ ih => exact .call hs ih

theorem Machine.Comes.isAt {lo hi : Nat} {E : Spot → Cause → Prop} {P : Spot → State → Prop}
    (h : m.Comes mc callers lo hi E P s) : ∃ c, s.IsAt mc callers c := by
  cases h with
  | here hs => exact ⟨_, hs⟩
  | step hs => exact ⟨_, hs⟩
  | stops hs => exact ⟨_, hs⟩

theorem State.IsAt.length_frames (h : s.IsAt mc callers c) : s.frames.length = callers.frames.length + 1 := by
  obtain ⟨f, -, rfl⟩ := h
  rfl

theorem Machine.Comes.getsBack {lo hi : Nat} {P : Spot → State → Prop}
    (h : m.Comes mc callers lo hi (fun _ _ => False) P s)
    (hk : ∀ d t, t.IsAt mc callers d → P d t → m.GetsBack outer Q n t) : m.GetsBack outer Q n s := by
  induction h with
  | here hs h => exact hk _ _ hs h
  | step hs _ hstep h ih =>
    obtain ⟨d, hd⟩ := h.isAt
    exact .within hstep (by rw [hd.length_frames, hs.length_frames]) ih
  | stops _ _ _ he => exact he.elim

theorem State.IsAt.returns {g : Frame} {gs : List Frame} (h : s.IsAt mc ⟨g :: gs, false⟩ c) (he : EndsAt mc.code c.pc)
    (hQ : Q c.heap) : m.GetsBack (g :: gs) Q 0 s := by
  obtain ⟨f, hf⟩ := h
  obtain ⟨f', hpushes, hstep⟩ := hf.step_of_endsAt (m := m) he
  have hleave : State.leave f' (g :: gs) c.heap c.out .null = .running ⟨g :: gs, c.heap, c.out⟩ := by
    simp [State.leave, hpushes]
  refine .within (hstep.trans hleave) ?_ (.back hQ)
  rw [hf.state]
  exact Nat.le_succ _

end

section

variable {o : CompileOptions} {p : Program} {files : List ClassFile} {c d : ClassDecl}

/-- Some code is that of a constructor of the class, and begins as all of them do. -/
def ClassDecl.Constructs (c : ClassDecl) (code : Code) : Prop := ∃ line, CodeAt code 0 (c.prologue line)

theorem ClassDecl.constructs_prologue {line : Int} {rest : List Instr} :
    c.Constructs (c.prologue line ++ rest).toArray := ⟨line, (CodeAt.append_iff.1 (CodeAt.self _)).1⟩

theorem ClassDecl.constructs_default (o : CompileOptions) (c : ClassDecl) : c.Constructs (c.defaultConstructor o).code :=
  c.constructs_prologue

theorem ConstructorsOf.constructs {ks : List MethodCode} (h : ConstructorsOf o p c ks) :
    ∀ k ∈ ks, c.Constructs k.code := by
  have hdeclared : ∀ {d mc}, ConstructorOf o p c d mc → c.Constructs mc.code := by
    rintro d mc ⟨code, -, rfl⟩
    exact c.constructs_prologue
  cases h with
  | none => exact List.forall_mem_singleton.2 (c.constructs_default o)
  | plain _ _ hk => exact List.forall_mem_singleton.2 (hdeclared hk)
  | withArgs _ _ hk => exact List.forall_mem_cons.2 ⟨c.constructs_default o, List.forall_mem_singleton.2 (hdeclared hk)⟩

def ClassDecl.DeclaresPlain (c : ClassDecl) : Prop := ∃ m, c.constructor = some m ∧ m.args = []

/-- The constructor without parameters of a file is one of the class's constructors, the one that the class gets if it
declares none. -/
theorem FileOf.plainConstructor {f : ClassFile} (h : FileOf o p c f) : ∃ mc, f.method? initName "()V" = some mc ∧
    c.Constructs mc.code ∧ (¬c.DeclaresPlain → mc = c.defaultConstructor o) := by
  obtain ⟨ks, ms, hks, -, hm⟩ := h.methods
  have hentry : ∀ mc ∈ c.entryPoint o, ¬(decide (mc.name = initName) && decide (mc.desc = "()V")) = true := by
    unfold ClassDecl.entryPoint
    split
    · simp [CompileOptions.method, mainName, initName]
    · exact List.forall_mem_nil _
  have hfound : ∃ mc ∈ ks, f.method? initName "()V" = some mc ∧ (¬c.DeclaresPlain → mc = c.defaultConstructor o) := by
    unfold ClassFile.method?
    rw [hm, List.append_assoc, List.find?_append, List.find?_eq_none.2 hentry, Option.none_or, List.find?_append]
    cases hks with
    | none => exact ⟨_, List.mem_singleton_self _, rfl, fun _ => rfl⟩
    | plain hc ha hk =>
      obtain ⟨code, -, rfl⟩ := hk
      refine ⟨_, List.mem_singleton_self _, ?_, fun hn => absurd ⟨_, hc, ha⟩ hn⟩
      simp [CompileOptions.method, MethodDecl.constructorDescriptor, ha, Ty.descriptor]
    | withArgs => exact ⟨_, List.mem_cons_self, rfl, fun _ => rfl⟩
  obtain ⟨mc, hmem, hget, hmade⟩ := hfound
  exact ⟨mc, hget, hks.constructs mc hmem, hmade⟩

/-- Under the name of a parent a machine has the file that was made for it. -/
theorem loaded_file (h : List.Forall₂ (FileOf o p) p.classes files) {name : String} (hd : p.loaded? name = some d) :
    ∃ f, (Machine.load files).class? name = some f ∧ FileOf o p d f := by
  have hrel : Option.Rel (FileOf o p) (p.loaded? name) ((Machine.load files).class? name) :=
    find?_rel (fun c f hf => by rw [hf.name]) (List.rel_reverse h)
  rw [hd] at hrel
  generalize (Machine.load files).class? name = found at hrel
  cases hrel with
  | some hf => exact ⟨_, rfl, hf⟩

variable {m : Machine} {mc : MethodCode} {callers : Outer} {g : Frame} {gs : List Frame} {a : Spot} {s : State}
  {this : Value}

/-- A constructor first puts its object on the stack, to call the constructor of the parent. -/
theorem ClassDecl.Constructs.loads (h : c.Constructs mc.code) (hs : s.IsAt mc callers a) (hpc : a.pc = 0)
    (hstack : a.stack = []) (hthis : a.locals[0]? = some this) : ∃ s', s.step m false = .running s' ∧
      s'.IsAt mc callers (a.next [this]) ∧ OpAt mc.code 1 (.invokeSpecial ⟨c.superName, initName, "()V"⟩) := by
  obtain ⟨line, hat⟩ := h
  have hcode : CodeAt mc.code 0 (onLine line (.load .ref 0 :: .invokeSpecial ⟨c.superName, initName, "()V"⟩ ::
      c.fields.flatMap c.fieldDefault)) := hat
  have hfull : ¬mc.Full a.stack.length := by
    rw [hstack]
    rintro ⟨hpos, hle⟩
    exact absurd hpos (by simpa using hle)
  have hslot : ¬a.locals.size ≤ 0 := by
    have := (Array.getElem?_eq_some_iff.1 hthis).1
    omega
  have hload : Does m mc callers (fun _ => False) (.load .ref 0) a fun d =>
      ∃ v, a.locals[0]? = some v ∧ d = a.next (v :: a.stack) := .load hslot hfull
  rcases hload.step (hpc ▸ hcode.opAt) (by simp) (by simp) hs with ⟨d, s', ⟨v, hv, rfl⟩, hstep, hs'⟩ | ⟨_, _, _, hfalse⟩
  · obtain rfl := Option.some.inj (hv.symm.trans hthis)
    exact ⟨s', hstep, by rwa [hstack] at hs', hcode.tail.opAt⟩
  · exact hfalse.elim

/-- After the constructor of the parent the fields are set, and the constructor returns. -/
theorem ClassDecl.finishes (hs : s.IsAt (c.defaultConstructor o) ⟨g :: gs, false⟩ a) (hpc : a.pc = 2)
    (hstack : a.stack = []) (hthis : a.locals[0]? = some this) {cls : String}
    (ho : ∃ fields, a.heap.get? this = some (.inst cls fields)) (hroom : (c.defaultConstructor o).Holds c.startNeed) :
    m.GetsBack (g :: gs) (fun h => ∃ fields, h.get? this = some (.inst cls fields)) 0 s := by
  obtain ⟨fields, ho⟩ := ho
  let line := c.token.pos.line
  have hcode : CodeAt (c.defaultConstructor o).code 0
      (onLine line [.load .ref 0, .invokeSpecial ⟨c.superName, initName, "()V"⟩] ++
        (onLine line (c.fields.flatMap c.fieldDefault) ++ onLine line [.ret])) := by
    rw [← List.append_assoc, ← onLine_append]
    exact CodeAt.self _
  obtain ⟨-, hrest⟩ := CodeAt.append_iff.1 hcode
  obtain ⟨hfields, hret⟩ := CodeAt.append_iff.1 hrest
  have hcross : Crosses m (c.defaultConstructor o) ⟨g :: gs, false⟩ 2 (2 + (c.fields.flatMap c.fieldDefault).length)
      (fun _ _ => False) (fun d _ => ∃ fields, d.heap.get? this = some (.inst cls fields))
      (onLine line (c.fields.flatMap c.fieldDefault) ++ []) a s := by
    refine .fieldDefaults c c.fields (hroom.mono ?_) hthis ho fun e s' fields' _ he => .nil ⟨fields', he⟩
    simp [hstack, ClassDecl.startNeed]
  rw [List.append_nil] at hcross
  refine (hcross (hpc ▸ hfields) (by rw [hpc, length_onLine]) (by omega) hs).getsBack fun d t ht hd => ?_
  refine ht.returns (.inr ?_) hd.2
  rw [hd.1]
  simpa [length_onLine] using hret.opAt

/-- A call of a constructor starts with the object in its first slot. -/
theorem State.isAt_enter (this : Value) (name : String) (mc : MethodCode) (args : List Value) (callers : Outer)
    (heap : Heap) (out : String) : ∃ a, a.pc = 0 ∧ a.stack = [] ∧ a.locals[0]? = some this ∧ a.heap = heap ∧ a.out = out ∧
      (State.mk (Frame.enter name mc (this :: args) callers.pushes :: callers.frames) heap out).IsAt mc callers a :=
  ⟨⟨0, [], _, heap, out⟩, rfl, rfl, (Array.getElem?_append_left (by simp)).trans rfl, rfl, rfl, _, ⟨rfl, rfl, rfl, rfl, rfl⟩, rfl⟩

theorem Program.ParentIs.superName (h : p.ParentIs c d) : c.superName = c.parentName := if_neg h.1

/-- The object that a constructor runs for is still one of its class. -/
abbrev Heap.HasInstance (this : Value) (cls : String) (h : Heap) : Prop := ∃ fields, h.get? this = some (.inst cls fields)

/-- A constructor that calls none of the program returns. -/
theorem ClassDecl.getsBack_alone (hsuper : c.superName = rootClass ∨ c.superName = arrayListClass)
    (hroom : (c.defaultConstructor o).Holds c.startNeed) (name : String) {cls : String} {heap : Heap} (out : String)
    (ho : heap.HasInstance this cls) : m.GetsBack (g :: gs) (Heap.HasInstance this cls) 0
      ⟨Frame.enter name (c.defaultConstructor o) [this] false :: g :: gs, heap, out⟩ := by
  obtain ⟨a, hpc, hstack, hlocal, rfl, rfl, hs⟩ :=
    State.isAt_enter this name (c.defaultConstructor o) [] ⟨g :: gs, false⟩ heap out
  obtain ⟨s', hload, hs', hcall⟩ := (c.constructs_default o).loads (m := m) hs hpc hstack hlocal
  rw [show (1 : Nat) = (a.next [this]).pc by simp [Spot.next, hpc]] at hcall
  have hinit : Does m (c.defaultConstructor o) ⟨g :: gs, false⟩ (fun _ => False)
      (.invokeSpecial ⟨c.superName, initName, "()V"⟩) (a.next [this]) (· = (a.next [this]).next []) :=
    .invokeSpecial_plain hsuper rfl (by obtain ⟨fields, ho⟩ := ho; simp [Heap.isNull_of_get? ho])
  rcases hinit.step hcall (by simp) (by simp) hs' with ⟨d, s'', rfl, hstep, hs''⟩ | ⟨_, _, _, hfalse⟩
  · refine .within hload (by rw [hs'.length_frames, hs.length_frames]) ?_
    refine .within hstep (by rw [hs''.length_frames, hs'.length_frames]) ?_
    exact c.finishes hs'' (by simp [Spot.next, hpc]) rfl hlocal ho hroom
  · exact hfalse.elim

/-- Where no class of the lineage declares a constructor without parameters, every constructor calls the next one, and
all of them return. -/
theorem Program.Lineage.getsBack {ds : List ClassDecl} (hl : p.Lineage c ds)
    (hfiles : List.Forall₂ (FileOf o p) p.classes files) (hplain : ∀ d ∈ ds, ¬d.DeclaresPlain)
    (hroom : ∀ d ∈ ds, (d.defaultConstructor o).Holds d.startNeed) (hdepth : gs.length + 1 + ds.length ≤ maxCallDepth)
    (name : String) {cls : String} {heap : Heap} (out : String) (ho : heap.HasInstance this cls) :
    ∃ n < ds.length, (Machine.load files).GetsBack (g :: gs) (Heap.HasInstance this cls) n
      ⟨Frame.enter name (c.defaultConstructor o) [this] false :: g :: gs, heap, out⟩ := by
  induction hl generalizing g gs name heap out with
  | root hn => exact ⟨0, Nat.one_pos, ClassDecl.getsBack_alone (.inl (if_pos hn)) (hroom _ (List.mem_singleton_self _)) name out ho⟩
  | @child c d ds hp hd ih =>
    have hroomc := hroom c List.mem_cons_self
    by_cases hsuper : c.superName = rootClass ∨ c.superName = arrayListClass
    · exact ⟨0, Nat.succ_pos _, ClassDecl.getsBack_alone hsuper hroomc name out ho⟩
    obtain ⟨hplainc, hplain⟩ := List.forall_mem_cons.1 hplain
    obtain ⟨-, hroom⟩ := List.forall_mem_cons.1 hroom
    obtain ⟨f, hf, hfile⟩ := loaded_file hfiles hp.2
    obtain ⟨code, hget, -, hmade⟩ := hfile.plainConstructor
    obtain rfl := hmade (hplain d hd.mem)
    obtain ⟨a, hpc, hstack, hlocal, rfl, rfl, hs⟩ :=
      State.isAt_enter this name (c.defaultConstructor o) [] ⟨g :: gs, false⟩ heap out
    obtain ⟨s', hload, ⟨f', hs'⟩, hcall⟩ := (c.constructs_default o).loads (m := Machine.load files) hs hpc hstack hlocal
    rw [show (1 : Nat) = (a.next [this]).pc by simp [Spot.next, hpc]] at hcall
    have hnull : this.isNull = false := by
      obtain ⟨fields, ho⟩ := ho
      exact Heap.isNull_of_get? ho
    have hlength := hd.length_pos
    simp only [List.length_cons] at hdepth ⊢
    obtain ⟨k, hk, hstep⟩ := hs'.construct hcall rfl hnull (not_or.1 hsuper) (hp.superName ▸ hf) hget
      (by simp only [List.length_cons]; omega)
    have hleft : (g :: gs).length + 1 + ds.length ≤ maxCallDepth := by simp only [List.length_cons]; omega
    obtain ⟨n, hn, hback⟩ := ih hplain hroom (g := k) hleft f.name a.out ho
    refine ⟨n + 1, by omega, .within hload (by rw [State.IsAt.length_frames ⟨f', hs'⟩, hs.length_frames]) (.call hstep ?_)⟩
    rw [← Nat.zero_add n]
    refine hback.bind fun heap out ho' => ?_
    exact c.finishes (a := ⟨2, [], a.locals, heap, out⟩) ⟨k, ⟨hk.method, by rw [hk.pc]; simp [Spot.next, hpc], hk.stack,
      hk.locals, hk.pushes⟩, rfl⟩ rfl rfl hlocal ho' hroomc

/-- Where the parents of a class come round again, its constructors call one another until there are too many calls. -/
theorem Program.Circles.fails (hc : p.Circles c) (hfiles : List.Forall₂ (FileOf o p) p.classes files)
    (hnames : ∀ d ∈ p.classes, Unqualified d.name.name) (hcode : c.Constructs mc.code) (hthis : this.isNull = false)
    (hs : s.IsAt mc callers a) (hpc : a.pc = 0) (hstack : a.stack = []) (hlocal : a.locals[0]? = some this) :
    ∃ n e, s.run (Machine.load files) false n = .failed a.out e ∧ e.cause = .callDepth := by
  -- The induction is on how many calls there is room for.
  induction hk : maxCallDepth - callers.frames.length using Nat.strong_induction_on generalizing c mc callers a s with
  | _ k ih =>
  obtain ⟨d, hp, hd⟩ := hc.parent
  obtain ⟨f, hf, hfile⟩ := loaded_file hfiles hp.2
  obtain ⟨code, hget, hnext, -⟩ := hfile.plainConstructor
  have hunqualified : Unqualified c.superName := by
    rw [hp.superName, ← hp.mem.2]
    exact hnames d hp.mem.1
  obtain ⟨s', hload, ⟨f', hs'⟩, hcall⟩ := hcode.loads (m := Machine.load files) hs hpc hstack hlocal
  rw [show (1 : Nat) = (a.next [this]).pc by simp [Spot.next, hpc]] at hcall
  obtain ⟨g, hg, hstep⟩ := hs'.step_construct (m := Machine.load files) hcall rfl hthis
    ⟨hunqualified.ne_rootClass, hunqualified.ne_arrayListClass⟩ (hp.superName ▸ hf) hget
  split at hstep
  · exact ⟨2, _, by simp only [State.run, hload, hstep]; rfl, rfl⟩
  · next hroom =>
    obtain ⟨b, hbpc, hbstack, hblocal, -, hbout, hb⟩ :=
      State.isAt_enter this f.name code [] ⟨g :: callers.frames, false⟩ a.heap a.out
    obtain ⟨n, e, hrun, he⟩ := ih _ (by simp at hroom ⊢; omega) hd hnext hb hbpc hbstack hblocal rfl
    exact ⟨n + 2, e, by simpa only [State.run, hload, hstep, Spot.next, ← hbout] using hrun, he⟩

/-- How the construction of an object ends. Going through the parents of a class of an accepted program ends at a class
without a parent unless they come round again, which is not checked. In the first case it meets no class twice, and if
none of the classes declares a constructor without parameters, the one of the class returns with a call for each further
class at most. In the second case every constructor of the class calls others until there are too many calls. -/
theorem accepted_construction_ends (ha : (p.check o.entry).issues = [])
    (hc : Program.compile o (p.check o.entry).decl (p.check o.entry).decl = .ok files) (hmem : c ∈ p.classes) :
    ((∃ ds, p.Lineage c ds) ↔ ¬p.Circles c) ∧
    (∀ ds, p.Lineage c ds → ds.Nodup ∧ ds.length ≤ p.classes.length ∧
      ((∀ d ∈ ds, ¬d.DeclaresPlain) → (∀ d ∈ ds, (d.defaultConstructor o).Holds d.startNeed) →
        ∀ g gs name this cls heap out, gs.length + 1 + ds.length ≤ maxCallDepth → heap.HasInstance this cls →
          ∃ n < ds.length, (Machine.load files).GetsBack (g :: gs) (Heap.HasInstance this cls) n
            ⟨Frame.enter name (c.defaultConstructor o) [this] false :: g :: gs, heap, out⟩)) ∧
    (p.Circles c → (∀ d ∈ p.classes, Unqualified d.name.name) → ∀ ks, ConstructorsOf o p c ks → ∀ mc ∈ ks,
      ∀ name this args (callers : Outer) heap out, this.isNull = false →
        ∃ n e, State.run (Machine.load files) false n
            ⟨Frame.enter name mc (this :: args) callers.pushes :: callers.frames, heap, out⟩ = .failed out e ∧
          e.cause = .callDepth) := by
  obtain ⟨hdecl, hclean⟩ := Program.check_clean ha
  rw [hdecl] at hc
  have hfiles := Program.compile_ok hc
  refine ⟨Program.lineage_iff hclean.parentsDeclared hmem, fun ds hl => ⟨hl.nodup, hl.length_le hmem, ?_⟩, ?_⟩
  · intro hplain hroom g gs name this cls heap out hdepth ho
    exact hl.getsBack hfiles hplain hroom hdepth name out ho
  · intro hcircles hnames ks hks mc hmc name this args callers heap out hthis
    obtain ⟨a, hpc, hstack, hlocal, -, rfl, hs⟩ := State.isAt_enter this name mc args callers heap out
    exact hcircles.fails hfiles hnames (hks.constructs mc hmc) hthis hs hpc hstack hlocal

end

def State.after (m : Machine) : (steps : Nat) → State → Option State
  | 0, s => some s
  | steps + 1, s =>
    match s.step m false with
    | .running s' => s'.after m steps
    | _ => none

theorem State.run_of_after {m : Machine} {steps : Nat} {s t : State} (h : s.after m steps = some t) (fuel : Nat) :
    s.run m false (steps + fuel) = t.run m false fuel := by
  induction steps generalizing s with
  | zero =>
    obtain rfl := Option.some.inj h
    rw [Nat.zero_add]
  | succ steps ih =>
    rw [Nat.add_right_comm, State.run]
    unfold State.after at h
    cases hs : s.step m false with
    | running s' =>
      simp only [hs] at h
      exact ih h
    | finished out => simp [hs] at h
    | failed out e => simp [hs] at h

/-- The innermost call is one of a method, and has yet to do anything for its object. -/
def State.isStartOf (mc : MethodCode) (s : State) : Bool :=
  match s.frames with
  | f :: _ => f.method = mc && f.pc = 0 && f.stack = [] && f.locals[0]?.any (!·.isNull)
  | [] => false

theorem State.isAt_of_isStartOf {mc : MethodCode} {s : State} (h : s.isStartOf mc = true) :
    ∃ callers a this, s.IsAt mc callers a ∧ a.pc = 0 ∧ a.stack = [] ∧ a.locals[0]? = some this ∧ this.isNull = false := by
  obtain ⟨frames, heap, out⟩ := s
  cases frames with
  | nil => cases h
  | cons f fs =>
    simp only [isStartOf, Bool.and_eq_true, decide_eq_true_eq, Option.any_eq_true, Bool.not_eq_true'] at h
    obtain ⟨⟨⟨hmethod, hpc⟩, hstack⟩, this, hthis, hnull⟩ := h
    exact ⟨⟨fs, f.pushesResult⟩, ⟨f.pc, f.stack, f.locals, heap, out⟩, this, ⟨f, ⟨hmethod, rfl, rfl, rfl, rfl⟩, rfl⟩, hpc,
      hstack, hthis, hnull⟩

namespace OwnParent

open Sample Yaml

/-- A class that is its own parent, and two that are not. -/
def source : String :=
  "classes: [{class: Main, constructor: {locals: [{c: C}], body: [{assign: [c, {new: [C]}]}, {print: 1}]}}, {class: A, extends: B}, {class: B, fields: [{x: int}]}, {class: C, extends: C}]"

def root : Node :=
  entry 1 [word "classes" 1, row 10 [
    entry 11 [word "class" 12, word "Main" 19, word "constructor" 25, entry 38 [
      word "locals" 39, row 47 [entry 48 [word "c" 49, word "C" 52]],
      word "body" 57, row 63 [
        entry 64 [word "assign" 65, row 73 [word "c" 74, entry 77 [word "new" 78, row 83 [word "C" 84]]]],
        entry 91 [word "print" 92, ⟨.scalar, "!!int", .plain, "1", 1, 99, []⟩]]]],
    entry 106 [word "class" 107, word "A" 114, word "extends" 117, word "B" 126],
    entry 130 [word "class" 131, word "B" 138, word "fields" 141, row 149 [entry 150 [word "x" 151, word "int" 154]]],
    entry 162 [word "class" 163, word "C" 170, word "extends" 173, word "C" 182]]]

def main : ClassDecl where
  token := ⟨.classDecl, "Main", 1, 11⟩
  name := name "Main" 19
  constructor := some {
    token := ⟨.constructor, "", 1, 38⟩
    name := ⟨⟨.constructor, "", 1, 38⟩, "Main"⟩
    locals := [⟨⟨.var, "c", 1, 49⟩, name "c" 49, .cls "C"⟩]
    body := [
      .assign ⟨token (.binary .assign) 65, .ident (name "c" 74), .new (token .new 78) (name "C" 84) []⟩,
      .print (token .print 92) (.int ⟨.intLit, "1", 1, 99⟩ 1)] }

def child : ClassDecl where
  token := ⟨.classDecl, "A", 1, 106⟩
  name := name "A" 114
  parent := some (name "B" 126)

def parent : ClassDecl where
  token := ⟨.classDecl, "B", 1, 130⟩
  name := name "B" 138
  fields := [⟨⟨.field, "x", 1, 151⟩, name "x" 151, .int⟩]

def circle : ClassDecl where
  token := ⟨.classDecl, "C", 1, 162⟩
  name := name "C" 170
  parent := some (name "C" 182)

def program : Program := { file := "sample", classes := [main, child, parent, circle] }

theorem parse_int : Ty.parse "int" = .ok .int := by rfl

theorem parse_class : Ty.parse "C" = .ok (.cls "C") := by rfl

theorem int?_one : Numeral.int? 32 ['1'] = some 1 := by rfl

theorem ofNode_root : Program.ofNode "sample" root = .ok program := by
  simp [Program.ofNode, root, entry, row, word, Decoder.classLists, Decoder.classDecl, Decoder.entries,
    Decoder.classParts, Decoder.name, Decoder.constructor, Decoder.methodParts, Decoder.stmtList, Decoder.stmts,
    Decoder.stmt, Decoder.expr, Decoder.exprs, Decoder.assignment, Decoder.scalar, Decoder.vars, Decoder.var, Decoder.type,
    Node.isNull, bind, Except.bind, pure, Except.pure, parse_int, parse_class, int?_one]
  rfl

set_option maxRecDepth 1500 in
theorem decode_source : Program.decode "sample" source = .ok program :=
  Program.decode_of_read (by decide +kernel) ofNode_root

theorem accepted : (program.check "Main").issues = [] := by decide

theorem compiled : ∃ files, Program.compile {} (program.check "Main").decl (program.check "Main").decl = .ok files := by
  have hc : (Program.compile {} (program.check "Main").decl (program.check "Main").decl).toOption.isSome := by decide
  cases hf : Program.compile {} (program.check "Main").decl (program.check "Main").decl with
  | error e => simp [hf, Except.toOption] at hc
  | ok files => exact ⟨files, rfl⟩

theorem lineage_child : program.Lineage child [child, parent] := .child ⟨by decide, rfl⟩ (.root rfl)

theorem circles_circle : program.Circles circle := ⟨circle, .refl, .single ⟨by decide, rfl⟩⟩

end OwnParent

theorem accepted_construction_ends_child : ∃ files,
    Program.compile {} (OwnParent.program.check "Main").decl (OwnParent.program.check "Main").decl = .ok files ∧
      ∃ n < 2, (Machine.load files).GetsBack [default] (Heap.HasInstance (.ref 0) "A") n
        ⟨[Frame.enter "A" (OwnParent.child.defaultConstructor {}) [.ref 0] false, default], #[.inst "A" []], ""⟩ := by
  obtain ⟨files, hf⟩ := OwnParent.compiled
  obtain ⟨-, hlineage, -⟩ := accepted_construction_ends (o := {}) OwnParent.accepted hf (c := OwnParent.child) (by simp [OwnParent.program])
  obtain ⟨-, -, hback⟩ := hlineage _ OwnParent.lineage_child
  refine ⟨files, hf, hback ?_ ?_ default [] "A" (.ref 0) "A" #[.inst "A" []] "" (by decide) ⟨[], rfl⟩⟩
  · simp [ClassDecl.DeclaresPlain, OwnParent.child, OwnParent.parent]
  · simp [MethodCode.Holds, ClassDecl.startNeed, needOfFields, needOfDefault, OwnParent.child, OwnParent.parent,
      ClassDecl.defaultConstructor, CompileOptions.method]

/-- The parents of an accepted class come round again, and the creation of an object of it never returns. -/
theorem construction_never_returns : ∃ files n out e,
    Program.decode "sample" OwnParent.source = .ok OwnParent.program ∧ (OwnParent.program.check "Main").issues = [] ∧
      Program.compile {} (OwnParent.program.check "Main").decl (OwnParent.program.check "Main").decl = .ok files ∧
      OwnParent.circle ∈ OwnParent.program.classes ∧ (¬∃ ds, OwnParent.program.Lineage OwnParent.circle ds) ∧
      (Machine.load files).run false n "Main" = .failed out e ∧ e.cause = .callDepth := by
  have hrun : (Program.compile {} (OwnParent.program.check "Main").decl
      (OwnParent.program.check "Main").decl).toOption.bind (fun files =>
        ((Machine.load files).start "Main").toOption.bind fun s =>
          (s.after (Machine.load files) 9).map (State.isStartOf (OwnParent.circle.defaultConstructor {}))) = some true := by
    decide +kernel
  obtain ⟨files, hc, hrun⟩ := exists_ok_of_bind hrun
  obtain ⟨s, hs, hrun⟩ := exists_ok_of_bind hrun
  obtain ⟨t, ht, hstart⟩ := Option.map_eq_some_iff.1 hrun
  obtain ⟨callers, a, this, hat, hpc, hstack, hlocal, hnull⟩ := State.isAt_of_isStartOf hstart
  have hfiles := Program.compile_ok hc
  rw [(Program.check_clean OwnParent.accepted).1] at hfiles
  obtain ⟨n, e, hfails, he⟩ := OwnParent.circles_circle.fails hfiles (by unfold Unqualified; decide) (OwnParent.circle.constructs_default {})
    hnull hat hpc hstack hlocal
  refine ⟨files, 9 + n, a.out, e, OwnParent.decode_source, OwnParent.accepted, hc, by simp [OwnParent.program],
    fun ⟨_, hl⟩ => hl.not_circles OwnParent.circles_circle, ?_, he⟩
  rw [Machine.run, show (if "Main".isEmpty then "Main" else "Main") = "Main" from rfl, hs]
  exact (State.run_of_after ht n).trans hfails

end ClassCompiler
