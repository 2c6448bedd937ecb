import ClassCompiler.Proofs.Machine.Arity
import ClassCompiler.Proofs.Machine.Returns
import ClassCompiler.Proofs.Stack.Methods

namespace ClassCompiler

namespace Heap

/-- A value refers to an object that came after the first `old` ones. -/
def HasNew (h : Heap) (old : Nat) (v : Value) (o : Object) : Prop := ∃ a, old ≤ a ∧ v = .ref a ∧ h[a]? = some o

mutual

/-- The value that a variable of the type starts with, of which all objects are new. -/
def IsDefault (h : Heap) (old : Nat) : Ty → Value → Prop
  | .int, v => h.HasNew old v (.integer 0)
  | .bool, v => h.HasNew old v (.boolean false)
  | .string, v => v = .str ""
  | .list es, v => ∃ vs, h.HasNew old v (.list vs) ∧ AreDefaults h old es vs
  | _, v => v = .null

def AreDefaults (h : Heap) (old : Nat) : List (String × Ty) → List Value → Prop
  | [], vs => vs = []
  | (_, t) :: es, vs => ∃ w ws, vs = w :: ws ∧ IsDefault h old t w ∧ AreDefaults h old es ws

end

/-- What a slot holds after the defaults were stored: that of the local that is kept there last, if one is, and
otherwise what it held before. -/
def HoldsDefault (h : Heap) (old : Nat) (kept : Option VarDecl) (before after : Option Value) : Prop :=
  match kept with
  | some v => ∃ w, after = some w ∧ h.IsDefault old v.type w
  | none => after = before

section

variable {h h' : Heap} {old old' : Nat}

theorem HasNew.mono {v : Value} {o : Object} (hv : h.HasNew old' v o) (hold : old ≤ old')
    (hh : ∀ a o, old' ≤ a → h[a]? = some o → h'[a]? = some o) : h'.HasNew old v o := by
  obtain ⟨a, ha, hv, ho⟩ := hv
  exact ⟨a, Nat.le_trans hold ha, hv, hh a o ha ho⟩

mutual

theorem IsDefault.mono (t : Ty) {v : Value} (hv : h.IsDefault old' t v) (hold : old ≤ old')
    (hh : ∀ a o, old' ≤ a → h[a]? = some o → h'[a]? = some o) : h'.IsDefault old t v := by
  match t with
  | .int | .bool => exact HasNew.mono hv hold hh
  | .string | .null | .void | .noType | .cls _ | .fptr _ _ => exact hv
  | .list es =>
    obtain ⟨vs, hlist, hvs⟩ := hv
    exact ⟨vs, hlist.mono hold hh, AreDefaults.mono es hvs hold hh⟩

theorem AreDefaults.mono (es : List (String × Ty)) {vs : List Value} (hvs : h.AreDefaults old' es vs) (hold : old ≤ old')
    (hh : ∀ a o, old' ≤ a → h[a]? = some o → h'[a]? = some o) : h'.AreDefaults old es vs := by
  match es with
  | [] => exact hvs
  | (_, t) :: es =>
    obtain ⟨w, ws, rfl, hw, hws⟩ := hvs
    exact ⟨w, ws, rfl, IsDefault.mono t hw hold hh, AreDefaults.mono es hws hold hh⟩

end

theorem Grows.getElem? (hg : h.Grows h') {a : Nat} {o : Object} (ha : h[a]? = some o) : h'[a]? = some o :=
  hg (.ref a) o ha

theorem Grows.size_le (hg : h.Grows h') : h.size ≤ h'.size := by
  by_contra hlt
  have hlt : h'.size < h.size := by omega
  have hget := hg.getElem? (Array.getElem?_eq_getElem hlt)
  exact Nat.lt_irrefl _ (Array.getElem?_eq_some_iff.1 hget).1

end

end Heap

namespace Ends

variable {m : Machine} {mc : MethodCode} {callers : Outer} {stop : Nat} {Q : Spot → State → Prop}
  {rest : List Instr} {c : Spot} {s : State} {line : Int}

mutual

theorem defaultValue (t : Ty) {rest : List Instr} {c : Spot} {s : State}
    (h : ∀ d v s', d.stack = v :: c.stack → d.locals = c.locals → c.heap.Grows d.heap →
      d.heap.IsDefault c.heap.size t v → m.Passes callers.frames stop s s' → Ends m mc callers stop Q rest d s') :
    Ends m mc callers stop Q (onLine line (ClassCompiler.defaultValue t) ++ rest) c s := by
  match t with
  | .int | .bool =>
    refine .pushInt fun s₁ hp₁ => .invokeStatic rfl fun s₂ hp₂ => ?_
    exact h _ _ s₂ rfl rfl (Heap.Grows.push _ _) ⟨c.heap.size, Nat.le_refl _, rfl, Array.getElem?_push_size⟩
      (hp₁.trans hp₂)
  | .string => exact .pushString fun s₁ hp₁ => h _ _ s₁ rfl rfl .refl rfl hp₁
  | .null | .void | .noType | .cls _ | .fptr _ _ => exact .pushNull fun s₁ hp₁ => h _ _ s₁ rfl rfl .refl rfl hp₁
  | .list es =>
    rw [ClassCompiler.defaultValue, onLine_append, onLine_append, List.append_assoc, List.append_assoc]
    refine .newList fun d s₁ hstack hlocals hheap hp₁ => ?_
    have hlist : d.heap[c.heap.size]? = some (.list []) := by
      rw [hheap]
      exact (Heap.Grows.push _ _).getElem? Array.getElem?_push_size
    have harray : d.heap[c.heap.size + 1]? = some (.arrayList []) := by
      rw [hheap, ← Array.size_push (Object.list [])]
      exact Array.getElem?_push_size
    have hsize : d.heap.size = c.heap.size + 2 := by simp [hheap]
    refine .defaultElements es hstack harray (Nat.lt_succ_self _) (Nat.le_of_eq hsize.symm)
      fun e ys s₂ hes hel hey hkeep hdefaults hp₂ => ?_
    refine .invokeSpecial [.ref (c.heap.size + 1)] (hes.trans hstack) rfl fun heap s₃ hrun hp₃ => ?_
    obtain ⟨o, elems, ho, hselect, rfl⟩ := fillList_eq_ok hrun
    obtain rfl : elems = ys := by
      rw [show argument [Value.ref (c.heap.size + 1)] 0 = .ref (c.heap.size + 1) from rfl, Heap.get?, hey] at ho
      obtain rfl := Option.some.inj ho
      simpa [Object.arrayListElems?] using hselect.symm
    have hlist' : e.heap[c.heap.size]? = some (.list []) := hkeep _ _ (by omega) hlist
    -- The objects of the elements came after the list and the array list.
    have hset : ∀ a o, c.heap.size ≠ a → e.heap[a]? = some o → (e.heap.set (.ref c.heap.size) (.list elems))[a]? = some o :=
      fun a o hne ho => (Array.getElem?_setIfInBounds_ne hne).trans ho
    refine h _ (.ref c.heap.size) s₃ rfl (hel.trans hlocals) ?_ ⟨elems, ?_, ?_⟩ ((hp₁.trans hp₂).trans hp₃)
    · intro v o hv
      obtain ⟨a, rfl⟩ := Heap.ref_of_get? hv
      have hlt := Heap.lt_size_of_get? hv
      refine hset a o (by omega) (hkeep a o (by omega) ?_)
      rw [hheap]
      exact ((Heap.Grows.push _ _).trans (Heap.Grows.push _ _)).getElem? hv
    · exact ⟨_, Nat.le_refl _, rfl, Heap.get?_set_self (h := e.heap) (v := .ref c.heap.size) hlist'⟩
    · exact Heap.AreDefaults.mono es hdefaults (Nat.le_add_right _ 2) fun a o ha ho => hset a o (by omega) ho

theorem defaultElements (es : List (String × Ty)) {rest : List Instr} {c : Spot} {s : State} {a old : Nat}
    {xs vs : List Value} (hs : c.stack = .ref a :: vs) (ho : c.heap[a]? = some (.arrayList xs)) (ha : a < old)
    (hold : old ≤ c.heap.size)
    (h : ∀ d ys s', d.stack = c.stack → d.locals = c.locals → d.heap[a]? = some (.arrayList (xs ++ ys)) →
      (∀ b o, b ≠ a → c.heap[b]? = some o → d.heap[b]? = some o) → d.heap.AreDefaults old es ys →
      m.Passes callers.frames stop s s' → Ends m mc callers stop Q rest d s') :
    Ends m mc callers stop Q (onLine line (ClassCompiler.defaultElements es) ++ rest) c s := by
  match es with
  | [] => exact h c [] s rfl rfl (by simpa using ho) (fun _ _ _ => id) rfl .refl
  | (_, t) :: es =>
    simp only [ClassCompiler.defaultElements, onLine_cons, onLine_append, List.cons_append, List.append_assoc]
    refine .dup hs fun s₁ hp₁ => .defaultValue t fun d v s₂ hds hdl hdg hdv hp₂ => ?_
    refine .addElement hds (hdg.getElem? ho) fun e s₃ hes hel heh hp₃ => ?_
    have hother : ∀ b o, b ≠ a → d.heap[b]? = some o → e.heap[b]? = some o := fun b o hb hget => by
      rw [heh]
      exact (Array.getElem?_setIfInBounds_ne (Ne.symm hb)).trans hget
    have harray : e.heap[a]? = some (.arrayList (xs ++ [v])) := by
      rw [heh]
      exact Heap.get?_set_self (h := d.heap) (v := .ref a) (hdg.getElem? ho)
    have hsize : e.heap.size = d.heap.size := by simp [heh, Heap.set]
    have hle : c.heap.size ≤ d.heap.size := hdg.size_le
    have hdv : d.heap.IsDefault c.heap.size t v := hdv
    have hs' : e.stack = .ref a :: vs := hes
    refine .defaultElements es hs' harray ha (show old ≤ e.heap.size by omega)
      fun f ys s₄ hfs hfl hfa hkeep hdefaults hp₄ => ?_
    refine h f (v :: ys) s₄ (hfs.trans (hs'.trans hs.symm)) (hfl.trans (hel.trans hdl)) (by simpa using hfa)
      (fun b o hb hget => hkeep b o hb (hother b o hb (hdg.getElem? hget))) ⟨v, ys, rfl, ?_, hdefaults⟩
      (((hp₁.trans hp₂).trans hp₃).trans hp₄)
    refine Heap.IsDefault.mono t hdv (show old ≤ c.heap.size from hold) fun b o hb hget => ?_
    exact hkeep b o (by omega) (hother b o (by omega) hget)

end

/-- Each local gets its default; of several that are kept in one slot the last. -/
theorem localDefaults (slot : VarDecl → Nat) (vs : List VarDecl) {rest : List Instr} {c : Spot} {s : State} {old : Nat}
    (hold : old ≤ c.heap.size)
    (h : ∀ d s', d.stack = c.stack → c.heap.Grows d.heap →
      (∀ n, d.heap.HoldsDefault old (vs.reverse.find? fun v => slot v = n) c.locals[n]? d.locals[n]?) →
      m.Passes callers.frames stop s s' → Ends m mc callers stop Q rest d s') :
    Ends m mc callers stop Q ((vs.flatMap fun v =>
      onLine v.token.pos.line (ClassCompiler.defaultValue v.type ++ [.store .ref (slot v)])) ++ rest) c s := by
  induction vs generalizing c s with
  | nil => exact h c s rfl .refl (fun n => rfl) .refl
  | cons v vs ih =>
    rw [List.flatMap_cons, onLine_append, List.append_assoc, List.append_assoc]
    refine .defaultValue v.type fun d w s₁ hds hdl hdg hdw hp₁ => .store hds fun s₂ hn hp₂ => ?_
    refine ih (Nat.le_trans hold hdg.size_le) fun e s₃ hes heg hslots hp₃ => ?_
    refine h e s₃ hes (hdg.trans heg) (fun n => ?_) ((hp₁.trans hp₂).trans hp₃)
    have hlast := hslots n
    rw [List.reverse_cons, List.find?_append]
    cases hfind : vs.reverse.find? fun v => slot v = n with
    | some u =>
      rw [hfind] at hlast
      exact hlast
    | none =>
      rw [hfind] at hlast
      rw [Option.none_or, List.find?_singleton]
      by_cases hslot : slot v = n
      · subst hslot
        simp only [decide_true, if_true]
        refine ⟨w, hlast.trans ?_, Heap.IsDefault.mono v.type hdw hold fun a o _ ho => heg.getElem? ho⟩
        rw [Array.getElem?_setIfInBounds_self, if_pos hn]
      · simp only [hslot, decide_false, Bool.false_eq_true, if_false]
        exact hlast.trans ((Array.getElem?_setIfInBounds_ne hslot).trans (by rw [hdl]))

end Ends

/-- A step of a run starts a call of a method with some arguments, the receiver first among them. -/
inductive Machine.Invokes (m : Machine) (mc : MethodCode) (args : List Value) (callers : Outer) : State → State → Prop
  | call {canceled : Bool} {f g : Frame} {fs : List Frame} {heap heap' : Heap} {out cls : String} {i : Instr}
      (hi : f.method.code[f.pc]? = some i)
      (he : m.exec { f with pc := f.pc + 1, steps := f.steps + 1 } heap i.op = .ok (.call g heap' cls mc args callers.pushes))
      (hc : callers.frames = g :: fs)
      (hs : State.step m canceled ⟨f :: fs, heap, out⟩ =
        .running ⟨Frame.enter cls mc args callers.pushes :: callers.frames, heap', out⟩) :
      Invokes m mc args callers ⟨f :: fs, heap, out⟩
        ⟨Frame.enter cls mc args callers.pushes :: callers.frames, heap', out⟩

section

variable {o : CompileOptions} {p : Program} {c : ClassDecl} {d : MethodDecl} {mc : MethodCode} {k : Nat}

/-- Where in its code the body of a method or of a constructor begins. -/
inductive BodyAt (o : CompileOptions) (p : Program) (c : ClassDecl) : MethodDecl → MethodCode → Nat → Prop
  | method {d : MethodDecl} {mc : MethodCode} (hd : d ∈ c.methods) (h : MethodOf o p c d mc) :
    BodyAt o p c d mc d.localDefaults.length
  | constructor {d : MethodDecl} {mc : MethodCode} (hd : c.constructor = some d) (h : ConstructorOf o p c d mc) :
    BodyAt o p c d mc ((c.prologue d.token.pos.line).length + d.localDefaults.length)

/-- The local that is kept in a slot; of several the last. -/
def MethodDecl.lastLocalAt (d : MethodDecl) (n : Nat) : Option VarDecl :=
  d.locals.reverse.find? fun v => d.localSlot v = n

/-- A call that was given some arguments comes to its body. Every slot to which a local's name leads has the
default of the last such local, and the other slots of parameters have the arguments. -/
structure MethodDecl.Entered (d : MethodDecl) (args : List Value) (old : Nat) (e : Spot) : Prop where
  arity : args.length = d.args.length + 1
  params : ∀ i < d.args.length, d.lastLocalAt (i + 1) = none → e.locals[i + 1]? = args[i + 1]?
  locals : ∀ n v, d.lastLocalAt n = some v → ∃ w, e.locals[n]? = some w ∧ e.heap.IsDefault old v.type w

theorem GeneratedFor.bodyAt {gives : Bool} (h : GeneratedFor o p c d mc gives) : ∃ k, BodyAt o p c d mc k := by
  cases h with
  | method hd h => exact ⟨_, .method hd h⟩
  | constructor hd h => exact ⟨_, .constructor hd h⟩

theorem BodyAt.mem_bodies (h : BodyAt o p c d mc k) : d ∈ c.bodies := by
  cases h with
  | method hd => exact List.mem_append_right _ hd
  | constructor hd => simp [ClassDecl.bodies, hd]

theorem BodyAt.argCount (h : BodyAt o p c d mc k) (hw : d.Written) : argCount mc.desc = d.args.length := by
  cases h with
  | method _ h =>
    obtain ⟨code, -, rfl⟩ := h
    exact hw.argCount _
  | constructor _ h =>
    obtain ⟨code, -, rfl⟩ := h
    exact hw.argCount _

/-- What a call finds in its code: something before the defaults of the locals, and the body after them. -/
theorem BodyAt.code (h : BodyAt o p c d mc k) : ∃ start s stmts s' sp, k = start.length + d.localDefaults.length ∧
    CodeAt mc.code 0 (start ++ d.localDefaults) ∧ CodeAt mc.code k stmts ∧
    Emits ⟨p, c.name.name, d⟩ (.stmts none d.body) s stmts s' sp ∧ LabelsOnce mc.code ∧
    depthFlow.Admits (depthClaim ⟨p, c.name.name, d⟩) (fun _ _ => False) start [] 0 0 ∧
    ∀ i ∈ slotsOf (start.map Instr.op), i = 0 := by
  have hbody : ∀ {code : List Instr} (start : List Instr) (b : BodyCode p c d code), mc.code = (start ++ code).toArray →
      (∀ l, labelCount start l = 0) → CodeAt mc.code 0 (start ++ d.localDefaults) ∧
        CodeAt mc.code (start.length + d.localDefaults.length) b.stmts ∧ LabelsOnce mc.code := by
    intro code start b hmc hl
    have hlist : mc.code.toList = [] ++ ((start ++ d.localDefaults) ++ (b.stmts ++
        (if d.endsWithReturn then [] else onLine d.token.pos.line [.ret]))) ++ [] := by
      have hcode : mc.code.toList = start ++ code := by rw [hmc]
      rw [hcode]
      simp [b.code_eq]
    have hall := CodeAt.of_eq hlist
    obtain ⟨hstart, hrest⟩ := CodeAt.append_iff.1 hall
    refine ⟨hstart, ?_, fun l => ?_⟩
    · have hstmts := (CodeAt.append_iff.1 hrest).1
      rwa [List.length_nil, Nat.zero_add, List.length_append] at hstmts
    · simpa [hmc] using b.labelCount_le_one hl l
  cases h with
  | method _ h =>
    obtain ⟨code, ⟨b, -⟩, rfl⟩ := h
    obtain ⟨hstart, hstmts, hl⟩ := hbody [] b rfl fun _ => rfl
    exact ⟨[], _, b.stmts, _, b.spans, by simp, hstart, by simpa using hstmts, b.emits, hl, Flow.admits_nil, by simp⟩
  | constructor _ h =>
    obtain ⟨code, ⟨b, -⟩, rfl⟩ := h
    obtain ⟨hstart, hstmts, hl⟩ := hbody _ b rfl (c.labelCount_prologue _)
    exact ⟨_, _, b.stmts, _, b.spans, rfl, hstart, hstmts, b.emits, hl, c.depth_prologue _, c.slotsOf_prologue _⟩

theorem BodyAt.slots {m : Machine} {callers : Outer} {a e : Spot} {s t : State} (h : BodyAt o p c d mc k)
    (ha : a.Hidden ∅) (hpc : a.pc = 0) (hs : s.IsAt mc callers a) (hp : m.Passes callers.frames k s t)
    (ht : t.IsAt mc callers e) (he : e.pc = k) :
    ∀ n ≠ 0, e.heap.HoldsDefault a.heap.size (d.lastLocalAt n) a.locals[n]? e.locals[n]? := by
  obtain ⟨start, _, _, _, _, hk, hat, -, -, hl, hdepth, hslots⟩ := h.code
  have hends : Ends m mc callers k (fun e _ => ∀ n ≠ 0,
      e.heap.HoldsDefault a.heap.size (d.lastLocalAt n) a.locals[n]? e.locals[n]?) (start ++ d.localDefaults) a s := by
    refine .through hdepth hslots hl ha fun b s₁ hgoes _ => ?_
    rw [← List.append_nil d.localDefaults]
    refine .localDefaults d.localSlot d.locals hgoes.keeps.size fun e s₂ _ _ hlast _ => .nil fun n hn => ?_
    rw [← hgoes.same n (by omega)]
    exact hlast n
  exact hends (hpc ▸ hat) (by simp [hpc, hk]) hs e t ht he hp

theorem Machine.Invokes.arity {m : Machine} {args : List Value} {callers : Outer} {s s' : State}
    (h : m.Invokes mc args callers s s') : args.length = argCount mc.desc + 1 := by
  cases h with
  | @call canceled f g fs heap heap' out cls i hi he =>
    have harity := m.exec_arity { f with pc := f.pc + 1, steps := f.steps + 1 } heap i.op
    rw [he] at harity
    exact harity

/-- A call starts at the first operation, with its arguments in the first slots. -/
theorem Machine.Invokes.starts {m : Machine} {args : List Value} {callers : Outer} {s s' : State}
    (h : m.Invokes mc args callers s s') : ∃ canceled a, s.step m canceled = .running s' ∧ s'.IsAt mc callers a ∧
      a.pc = 0 ∧ a.heap = s'.heap ∧ ∀ i < args.length, a.locals[i]? = args[i]? := by
  cases h with
  | @call canceled f g fs heap heap' out cls i hi he hc hs =>
    refine ⟨canceled, ⟨0, [], _, heap', out⟩, hs, ⟨_, ⟨rfl, rfl, rfl, rfl, rfl⟩, rfl⟩, rfl, rfl, fun i hi => ?_⟩
    simp [Frame.enter, Array.getElem?_append, hi]

/-- A call comes to its body with the arguments and the defaults in their slots. -/
theorem BodyAt.entered {m : Machine} {args : List Value} {callers : Outer} {e : Spot} {entry : String} {s s' t : State}
    (h : BodyAt o p c d mc k) (hw : d.Written) (hs : m.Reaches entry s) (hcall : m.Invokes mc args callers s s')
    (hp : m.Passes callers.frames k s' t) (ht : t.IsAt mc callers e) (he : e.pc = k) :
    d.Entered args s'.heap.size e := by
  obtain ⟨canceled, a, hstep, ha, hpc, hheap, hargs⟩ := hcall.starts
  have hslots := h.slots ((hs.step hstep).bounded.hidden ha) hpc ha hp ht he
  have harity : args.length = d.args.length + 1 := by rw [hcall.arity, h.argCount hw]
  refine ⟨harity, fun i hi hnone => ?_, fun n v hv => ?_⟩
  · have hslot := hslots (i + 1) (Nat.succ_ne_zero i)
    rw [hnone] at hslot
    exact hslot.trans (hargs (i + 1) (by omega))
  · have hmem : v ∈ d.locals := List.mem_reverse.1 (List.mem_of_find?_eq_some hv)
    have hn : d.localSlot v = n := by simpa using List.find?_some hv
    have hslot := hslots n (by have := MethodDecl.localSlot_pos hmem; omega)
    rw [hv, hheap] at hslot
    exact hslot

/-- Where all names are different, each local has a slot of its own after those of the parameters. -/
theorem MethodDecl.localSlot_of_nodup (hd : ((d.args ++ d.locals).map fun v => v.name.name).Nodup) {i : Nat}
    {v : VarDecl} (hv : d.locals[i]? = some v) : d.localSlot v = 1 + d.args.length + i := by
  have hzip : ∀ (vs : List VarDecl) (n : Nat), (vs.zipIdx n).map (fun x => x.1.name.name) = vs.map fun v => v.name.name :=
    fun vs n => by
      conv_rhs => rw [← List.zipIdx_map_fst n vs, List.map_map]
      rfl
  have hnames : (d.symbols.map Symbol.name).Nodup := by
    simpa [symbols, Function.comp_def, Symbol.name, hzip] using hd
  have hmem : Symbol.localVar (1 + d.args.length + i) v ∈ d.symbols :=
    List.mem_append_right _ (List.mem_map.2 ⟨(v, _), List.mk_add_mem_zipIdx_iff_getElem?.2 hv, rfl⟩)
  have hfind : d.symbol? v.name.name = some (.localVar (1 + d.args.length + i) v) :=
    find?_eq_some_of_nodup Symbol.name hnames hmem
  rw [localSlot, hfind]
  rfl

/-- Where all names are different, every parameter has its argument and every local its default. -/
theorem MethodDecl.Entered.of_nodup {args : List Value} {old : Nat} {e : Spot} (h : d.Entered args old e)
    (hd : ((d.args ++ d.locals).map fun v => v.name.name).Nodup) :
    (∀ i < d.args.length, e.locals[i + 1]? = args[i + 1]?) ∧
      ∀ v ∈ d.locals, ∃ w, e.locals[d.localSlot v]? = some w ∧ e.heap.IsDefault old v.type w := by
  have hslot : ∀ v ∈ d.locals, ∃ i, d.locals[i]? = some v ∧ d.localSlot v = 1 + d.args.length + i := fun v hv => by
    obtain ⟨i, hi⟩ := List.mem_iff_getElem?.1 hv
    exact ⟨i, hi, MethodDecl.localSlot_of_nodup hd hi⟩
  refine ⟨fun i hi => h.params i hi ?_, fun v hv => h.locals _ v ?_⟩
  · refine List.find?_eq_none.2 fun v hv => ?_
    obtain ⟨k, -, hk⟩ := hslot v (List.mem_reverse.1 hv)
    simp only [decide_eq_true_eq]
    omega
  · obtain ⟨u, hu⟩ : ∃ u, d.lastLocalAt (d.localSlot v) = some u :=
      Option.isSome_iff_exists.1 (List.find?_isSome.2 ⟨v, List.mem_reverse.2 hv, by simp⟩)
    obtain ⟨i, hi, hi'⟩ := hslot v hv
    obtain ⟨j, hj, hj'⟩ := hslot u (List.mem_reverse.1 (List.mem_of_find?_eq_some hu))
    have hsame : d.localSlot u = d.localSlot v := by simpa using List.find?_some hu
    obtain rfl : j = i := by omega
    rw [hu, Option.some.inj (hj.symm.trans hi)]

/-- What the slots of a call hold when it comes to the first statement of the body of a method or constructor. The
defaults are stored where the names of the locals lead, so a local that has the name of a parameter takes its slot,
and of two locals of one name the last counts. -/
theorem accepted_method_entry {files : List ClassFile} (hw : p.Written)
    (ha : (p.check o.entry).issues = [])
    (hc : Program.compile o (p.check o.entry).decl (p.check o.entry).decl = .ok files) :
    (∀ mc, (Machine.load files).HasMethod mc → ∃ c ∈ p.classes, Made o c mc ∨ ∃ d k, BodyAt o p c d mc k) ∧
      ∀ c ∈ p.classes, ∀ d mc k, BodyAt o p c d mc k →
        (∃ s stmts s' sp, Emits ⟨p, c.name.name, d⟩ (.stmts none d.body) s stmts s' sp ∧ CodeAt mc.code k stmts) ∧
        ∀ entry callers args s s' t e, (Machine.load files).Reaches entry s →
          (Machine.load files).Invokes mc args callers s s' → (Machine.load files).Passes callers.frames k s' t →
          t.IsAt mc callers e → e.pc = k →
            d.Entered args s'.heap.size e ∧ (((d.args ++ d.locals).map fun v => v.name.name).Nodup →
              (∀ i < d.args.length, e.locals[i + 1]? = args[i + 1]?) ∧
              ∀ v ∈ d.locals, ∃ w, e.locals[d.localSlot v]? = some w ∧ e.heap.IsDefault s'.heap.size v.type w) := by
  obtain ⟨hdecl, -⟩ := Program.check_clean ha
  rw [hdecl] at hc
  refine ⟨fun mc ⟨f, hf, hmc⟩ => ?_, fun c hmem d mc k hbody => ⟨?_, ?_⟩⟩
  · obtain ⟨c, hmem, hcf⟩ := exists_mem_of_forall₂ (Program.compile_ok hc) (List.mem_reverse.1 hf)
    refine ⟨c, hmem, (hcf.generated hmc).imp_right fun ⟨d, gives, hgen⟩ => ?_⟩
    obtain ⟨k, hk⟩ := hgen.bodyAt
    exact ⟨d, k, hk⟩
  · obtain ⟨_, s, stmts, s', sp, -, -, hat, hemits, -⟩ := hbody.code
    exact ⟨s, stmts, s', sp, hemits, hat⟩
  · intro entry callers args s s' t e hs hcall hpass ht he
    have hentered := hbody.entered ((hw c hmem).bodies d hbody.mem_bodies) hs hcall hpass ht he
    exact ⟨hentered, hentered.of_nodup⟩

end

namespace ShadowedParameter

open Sample Yaml

/-- A method has a local with the name of its parameter. -/
def source : String :=
  "classes: [{class: Main, constructor: {body: [{call: [{dot: [this, m]}, 5]}]}, methods: [{name: m, args: [{x: int}], locals: [{x: int}], body: [{print: x}]}]}]"

def root : Node :=
  entry 1 [word "classes" 1, row 10 [
    entry 11 [word "class" 12, word "Main" 19,
      word "constructor" 25, entry 38 [word "body" 39, row 45 [
        entry 46 [word "call" 47, row 53 [
          entry 54 [word "dot" 55, row 60 [word "this" 61, word "m" 67]],
          ⟨.scalar, "!!int", .plain, "5", 1, 72, []⟩]]]],
      word "methods" 79, row 88 [entry 89 [word "name" 90, word "m" 96,
        word "args" 99, row 105 [entry 106 [word "x" 107, word "int" 110]],
        word "locals" 117, row 125 [entry 126 [word "x" 127, word "int" 130]],
        word "body" 137, row 143 [entry 144 [word "print" 145, word "x" 152]]]]]]]

def program : Program where
  file := "sample"
  classes := [{
    token := ⟨.classDecl, "Main", 1, 11⟩
    name := name "Main" 19
    constructor := some {
      token := ⟨.constructor, "", 1, 38⟩
      name := ⟨⟨.constructor, "", 1, 38⟩, "Main"⟩
      body := [.call (token .paren 47) (.member (token .dot 55) (.this (token .this 61)) (name "m" 67))
        [.int ⟨.intLit, "5", 1, 72⟩ 5]] }
    methods := [{
      token := ⟨.method, "m", 1, 89⟩
      name := name "m" 96
      args := [⟨⟨.var, "x", 1, 107⟩, name "x" 107, .int⟩]
      locals := [⟨⟨.var, "x", 1, 127⟩, name "x" 127, .int⟩]
      returnType := some .void
      body := [.print (token .print 145) (.ident (name "x" 152))] }] }]

theorem parse_int : Ty.parse "int" = .ok .int := by rfl

theorem int?_five : Numeral.int? 32 ['5'] = some 5 := by rfl

theorem ofNode_root : Program.ofNode "sample" root = .ok program := by
  simp [Program.ofNode, root, entry, row, word, Decoder.classLists, Decoder.classDecl, Decoder.entries,
    Decoder.classParts, Decoder.name, Decoder.constructor, Decoder.method, Decoder.methodParts, Decoder.stmtList,
    Decoder.stmts, Decoder.stmt, Decoder.expr, Decoder.exprs, Decoder.callParts, Decoder.scalar, Decoder.vars,
    Decoder.var, Decoder.type, Node.isNull, bind, Except.bind, pure, Except.pure, parse_int, int?_five]
  rfl

set_option maxRecDepth 1500 in
theorem decode_source : Program.decode "sample" source = .ok program :=
  Program.decode_of_read (by decide +kernel) ofNode_root

theorem accepted : (program.check "Main").issues = [] := by decide

theorem compiled : ∃ files, Program.compile {} (program.check "Main").decl (program.check "Main").decl = .ok files := by
  have hc : (Program.compile {} (program.check "Main").decl (program.check "Main").decl).toOption.isSome := by decide
  cases hf : Program.compile {} (program.check "Main").decl (program.check "Main").decl with
  | error e => simp [hf, Except.toOption] at hc
  | ok files => exact ⟨files, rfl⟩

end ShadowedParameter

theorem accepted_method_entry_shadowed : ∃ files,
    Program.compile {} (ShadowedParameter.program.check "Main").decl (ShadowedParameter.program.check "Main").decl =
        .ok files ∧
      ∀ c ∈ ShadowedParameter.program.classes, ∀ d mc k, BodyAt {} ShadowedParameter.program c d mc k →
        ∀ entry callers args s s' t e, (Machine.load files).Reaches entry s →
          (Machine.load files).Invokes mc args callers s s' → (Machine.load files).Passes callers.frames k s' t →
          t.IsAt mc callers e → e.pc = k → d.Entered args s'.heap.size e := by
  obtain ⟨files, hf⟩ := ShadowedParameter.compiled
  obtain ⟨-, hbodies⟩ := accepted_method_entry (o := {}) (Program.decode_written ShadowedParameter.decode_source) ShadowedParameter.accepted hf
  refine ⟨files, hf, fun c hc d mc k hbody entry callers args s s' t e hs hcall hpass ht he => ?_⟩
  exact ((hbodies c hc d mc k hbody).2 entry callers args s s' t e hs hcall hpass ht he).1

/-- The default of the local takes the place of the argument: what the method prints is not the 5 that it was
given. -/
theorem shadowed_argument_lost : ∃ files,
    Program.decode "sample" ShadowedParameter.source = .ok ShadowedParameter.program ∧
      (ShadowedParameter.program.check "Main").issues = [] ∧
      Program.compile {} (ShadowedParameter.program.check "Main").decl (ShadowedParameter.program.check "Main").decl =
        .ok files ∧
      (Machine.load files).run false 100 "Main" = .finished "0" := by
  obtain ⟨files, hf⟩ := ShadowedParameter.compiled
  have hrun : (Program.compile {} (ShadowedParameter.program.check "Main").decl
      (ShadowedParameter.program.check "Main").decl).toOption.bind (fun files =>
        ((Machine.load files).run false 100 "Main").printed?) = some "0" := by decide +kernel
  simp only [hf, Except.toOption, Option.bind_some] at hrun
  exact ⟨files, ShadowedParameter.decode_source, ShadowedParameter.accepted, hf, Outcome.eq_finished hrun⟩

end ClassCompiler
