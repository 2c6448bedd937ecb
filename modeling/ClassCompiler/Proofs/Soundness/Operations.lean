import ClassCompiler.Proofs.Boxing.Runs
import ClassCompiler.Proofs.Lists.Assignments
import ClassCompiler.Proofs.Machine.Links
import ClassCompiler.Proofs.Soundness.Facts

namespace ClassCompiler

/-- What a method needs and gives: a fact about the receiver, the types of the parameters and of the result, and a fact
about the receiver that is true in the end. -/
structure Contract where
  self : Fact
  params : List Ty := []
  result : Ty := .void
  left : Fact := .any

/-- The arguments of a call are as a contract needs them. -/
def Contract.Takes (k : Contract) (p : Program) (w : TypedHeap) (receiver : Value) (args : List Value) : Prop :=
  k.self.Holds p w receiver ∧ List.Forall₂ (w.Fits p) k.params args

def Contract.Gives (k : Contract) (p : Program) (w : TypedHeap) (receiver result : Value) : Prop :=
  w.Fits p k.result result ∧ k.left.Holds p w receiver

def MethodDecl.contract (d : MethodDecl) (cls : String) : Contract where
  self := .val (.cls cls)
  params := d.args.map VarDecl.type
  result := d.result

/-- The contract of a constructor: it sets all fields of a new object. -/
def constructorContract (cls : String) (params : List Ty) : Contract where
  self := .making cls []
  params
  left := .val (.cls cls)

/-- The contract under which a method of the files of a program is called. -/
inductive Offers (o : CompileOptions) (p : Program) : MethodCode → Contract → Prop where
  | method {c : ClassDecl} {d : MethodDecl} {mc : MethodCode} (hc : c ∈ p.classes) (hd : d ∈ c.methods)
      (h : MethodOf o p c d mc) : Offers o p mc (d.contract c.name.name)
  | constructor {c : ClassDecl} {d : MethodDecl} {mc : MethodCode} (hc : c ∈ p.classes) (hd : c.constructor = some d)
      (h : ConstructorOf o p c d mc) : Offers o p mc (constructorContract c.name.name (d.args.map VarDecl.type))
  | default {c : ClassDecl} (hc : c ∈ p.classes) : Offers o p (c.defaultConstructor o) (constructorContract c.name.name [])
  | entry {c : ClassDecl} {mc : MethodCode} (hc : c ∈ p.classes) (h : mc ∈ c.entryPoint o) : Offers o p mc { self := .any }

/-- An operation reads or sets a field of null, calls a method reference that is null, or calls one to a method of
null. -/
inductive Dereferences (h : Heap) : Op → List Value → Prop where
  | get {r : MemberRef} {vs : List Value} : Dereferences h (.getField r) (.null :: vs)
  | put {r : MemberRef} {v : Value} {vs : List Value} : Dereferences h (.putField r) (v :: .null :: vs)
  | call {v : Value} {vs : List Value} : Dereferences h (.invokeVirtual NativeMethod.invoke.ref) (v :: .null :: vs)
  | bound {v u : Value} {vs : List Value} {name : String} (hu : h.get? u = some (.fptr .null name)) :
    Dereferences h (.invokeVirtual NativeMethod.invoke.ref) (v :: u :: vs)

/-- What an operation of sound code may fail for: not for a value of the wrong class, or something that is missing, and
for null only where it dereferences it. -/
def Op.FailsFor (op : Op) (h : Heap) (stack : List Value) : Cause → Prop
  | .classCast => False
  | .noSuchMethod => False
  | .noSuchClass => False
  | .nullReference => Dereferences h op stack
  | _ => True

/-- A frame at the same place of the same call. -/
structure Frame.Continues (f g : Frame) : Prop where
  method : g.method = f.method
  pushesResult : g.pushesResult = f.pushesResult
  pc : g.pc = f.pc
  self : g.local? 0 = f.local? 0

section

variable (o : CompileOptions) (p : Program)

/-- What an effect may do to a frame that waits for `d` others: it leaves what is known after it, or makes a call with a
contract and leaves that after any call that keeps it. -/
def Effect.Leaves (w : TypedHeap) (d : Nat) (f : Frame) (b : Facts) : Effect → Prop
  | .next g h _ => ∃ w' : TypedHeap, w'.heap = h ∧ w'.Valid p ∧ w.Extends (fun e _ => d ≤ e) w' ∧ f.Continues g ∧
    g.Has p w' d b
  | .call g h _ mc args pushes => h = w.heap ∧ f.Continues g ∧ ∃ (k : Contract) (v : Value) (vs : List Value),
    args = v :: vs ∧ Offers o p mc k ∧ k.Takes p w v vs ∧
      ∀ w' r, w.Extends (fun e _ => d < e) w' → k.Gives p w' v r →
        Frame.Has p w' d (if pushes then { g with stack := r :: g.stack } else g) b

/-- An operation leads from what is known before it to what is known after it. -/
def Op.Leads (m : Machine) (op : Op) (a b : Facts) : Prop := ∀ (w : TypedHeap) (d : Nat) (f : Frame), w.Valid p →
  f.Has p w d a → Attempt (op.FailsFor w.heap f.stack) (Effect.Leaves o p w d f b) (m.exec f w.heap op)

end

section

variable {o : CompileOptions} {p : Program} {m : Machine} {w w' : TypedHeap} {d n : Nat} {f g : Frame}
  {a b c : Facts} {op : Op} {k : Fact} {cell cell' : Cell} {cs : List Cell} {τ : Nat → Fact} {note : Option Note}
  {h : Heap} {stack vs : List Value} {v : Value}

theorem Frame.Continues.refl (f : Frame) : f.Continues f := ⟨rfl, rfl, rfl, rfl⟩

theorem Frame.Continues.with_stack (f : Frame) (stack : List Value) : f.Continues { f with stack } := ⟨rfl, rfl, rfl, rfl⟩

theorem Effect.Leaves.weaken {e : Effect} (he : e.Leaves o p w d f b) (hb : b.Entails p c) : e.Leaves o p w d f c := by
  cases e with
  | next g h printed =>
    obtain ⟨w', hh, hw, hx, hg, hhas⟩ := he
    exact ⟨w', hh, hw, hx, hg, hb w' d g hhas⟩
  | call g h cls mc args pushes =>
    obtain ⟨hh, hg, k, v, vs, ha, ho, ht, hafter⟩ := he
    exact ⟨hh, hg, k, v, vs, ha, ho, ht, fun w' r hx hr => hb w' d _ (hafter w' r hx hr)⟩

theorem Op.Leads.before (h : op.Leads o p m a b) (hb : b.Entails p c) : op.Leads o p m a c :=
  fun w d f hw hf => (h w d f hw hf).imp fun _ he => he.weaken hb

theorem Op.Leads.after (h : op.Leads o p m b c) (ha : a.Entails p b) : op.Leads o p m a c :=
  fun w d f hw hf => h w d f hw (ha w d f hf)

theorem slot_within (hs : op.FailsFor h stack .invalidLocalSlot) (f : Frame) (n : Nat) :
    Attempt (op.FailsFor h stack) (fun i => i = n ∧ n < f.locals.size) (f.slot n) := by
  unfold Frame.slot
  split
  · next hi =>
    simp only [Bool.and_eq_true, decide_eq_true_eq, Int.toNat_natCast] at hi
    exact ⟨rfl, hi.2⟩
  · exact hs

theorem leaves_push (w' : TypedHeap) {r : Frame → Effect} {printed : String} (hr : r = fun g => .next g w'.heap printed)
    (hg : f.Continues g) (hw : w'.Valid p) (hx : w.Extends (fun e _ => d ≤ e) w')
    (hhas : Frame.Has p w' d { g with stack := v :: g.stack } b) :
    Attempt (op.FailsFor h stack) (Effect.Leaves o p w d f b) (r <$> g.push v) := by
  subst hr
  have hpush : Attempt (op.FailsFor h stack) (· = { g with stack := v :: g.stack }) (g.push v) :=
    (g.push_attempt v).allow fun _ hc => hc ▸ trivial
  refine hpush.map fun g' hg' => ?_
  subst hg'
  exact ⟨w', rfl, hw, hx, ⟨hg.method, hg.pushesResult, hg.pc, hg.self⟩, hhas⟩

theorem leaves_quiet_push (hg : f.Continues g) (hw : w.Valid p)
    (hhas : Frame.Has p w d { g with stack := v :: g.stack } b) :
    Attempt (op.FailsFor h stack) (Effect.Leaves o p w d f b) (Effect.quiet w.heap <$> g.push v) :=
  leaves_push w rfl hg hw (.refl w) hhas

theorem leaves_quiet (hw : w.Valid p) (hhas : Frame.Has p w d { f with stack := vs } b) :
    Attempt (op.FailsFor h stack) (Effect.Leaves o p w d f b) (.ok (.quiet w.heap { f with stack := vs })) :=
  ⟨w, rfl, hw, .refl w, .with_stack f vs, hhas⟩

theorem local?_setLocal_eq (hn : n < f.locals.size) (v : Value) :
    (f.setLocal n v).local? = fun i => if i = n then v else f.local? i :=
  funext fun i => Frame.HasKinds.local?_setLocal hn v i

theorem Frame.Has.setLocal (hf : f.Has p w d ⟨cs, τ, none⟩) (hn : n < f.locals.size) (hcs : Cell.slot n ∉ cs)
    (hv : k.Holds p w v) : (f.setLocal n v).Has p w d ⟨cs, Function.update τ n k, none⟩ := by
  have hlocal := local?_setLocal_eq (f := f) hn v
  refine ⟨hlocal ▸ hf.stack.update hcs v, fun i => ?_, by simp⟩
  rw [hlocal]
  simp only [Function.update_apply]
  split
  · exact hv
  · exact hf.slots i

theorem continues_setLocal {stack : List Value} (hn : 0 < n) (hsize : n < f.locals.size) (v : Value) :
    f.Continues (Frame.setLocal { f with stack } n v) := by
  refine ⟨rfl, rfl, rfl, ?_⟩
  rw [local?_setLocal_eq (f := { f with stack }) hsize]
  exact if_neg (Nat.ne_of_lt hn)

theorem leads_of_push {u : Value} (he : ∀ f h, m.exec f h op = Effect.quiet h <$> f.push u) :
    op.Leads o p m ⟨cs, τ, none⟩ ⟨.known (.is u) :: cs, τ, none⟩ := by
  intro w d f hw hf
  rw [he]
  exact leaves_quiet_push (.refl f) hw (hf.push (.known (.is u)) rfl)

theorem leads_pushInt (i : Int) :
    (Op.pushInt i).Leads o p m ⟨cs, τ, none⟩ ⟨.known (.is (.int (Int32.ofInt i))) :: cs, τ, none⟩ :=
  leads_of_push fun _ _ => rfl

theorem leads_pushString (s : String) :
    (Op.pushString s).Leads o p m ⟨cs, τ, none⟩ ⟨.known (.is (.str s)) :: cs, τ, none⟩ := leads_of_push fun _ _ => rfl

theorem leads_pushNull : Op.pushNull.Leads o p m ⟨cs, τ, none⟩ ⟨.known (.is .null) :: cs, τ, none⟩ :=
  leads_of_push fun _ _ => rfl

theorem leads_getStatic : (Op.getStatic outField).Leads o p m ⟨cs, τ, none⟩ ⟨.known (.is .stream) :: cs, τ, none⟩ :=
  leads_of_push fun _ _ => by simp [Machine.exec]

theorem leads_load {kind : SlotKind} (n : Nat) :
    (Op.load kind n).Leads o p m ⟨cs, τ, none⟩ ⟨.slot n :: cs, τ, none⟩ := by
  intro w d f hw hf
  unfold Machine.exec
  refine (slot_within trivial f n).bind fun i ⟨hi, _⟩ => ?_
  subst hi
  exact leaves_quiet_push (.refl f) hw (hf.push (.slot i) rfl)

theorem leads_store {kind : SlotKind} (hn : 0 < n) (hcs : Cell.slot n ∉ cs) :
    (Op.store kind n).Leads o p m ⟨.known k :: cs, τ, note⟩ ⟨cs, Function.update τ n k, none⟩ := by
  intro w d f hw hf
  obtain ⟨v, vs, hs, hv, hf'⟩ := hf.uncons
  unfold Machine.exec
  refine (slot_within trivial f n).bind fun i ⟨hi, hsize⟩ => ?_
  subst hi
  simp only [Frame.pop, hs]
  exact ⟨w, rfl, hw, .refl w, continues_setLocal hn hsize v, hf'.setLocal hsize hcs hv⟩

/-- A slot of which the same is known before and after a value is stored in it. -/
theorem leads_store_known {kind : SlotKind} (hn : 0 < n) (hcs : Cell.slot n ∉ cs) (hτ : τ n = k) :
    (Op.store kind n).Leads o p m ⟨.known k :: cs, τ, note⟩ ⟨cs, τ, none⟩ := by
  have hstore : (Op.store kind n).Leads o p m ⟨.known k :: cs, τ, note⟩ ⟨cs, Function.update τ n k, none⟩ :=
    leads_store hn hcs
  subst hτ
  rwa [Function.update_eq_self] at hstore

theorem leads_store_again {kind : SlotKind} (hn : 0 < n) (hcs : Cell.slot n ∉ cs) :
    (Op.store kind n).Leads o p m ⟨.again :: .known k :: cs, τ, note⟩ ⟨.slot n :: cs, Function.update τ n k, none⟩ := by
  intro w d f hw hf
  obtain ⟨v, vs, hs, hv, hf'⟩ := hf.uncons
  obtain ⟨u, us, rfl, hu, hf''⟩ := hf'.uncons
  obtain rfl : u = v := Option.some.inj hv
  unfold Machine.exec
  refine (slot_within trivial f n).bind fun i ⟨hi, hsize⟩ => ?_
  subst hi
  simp only [Frame.pop, hs]
  have hset := hf''.setLocal hsize hcs hu
  refine ⟨w, rfl, hw, .refl w, continues_setLocal hn hsize u, ⟨⟨?_, hset.stack⟩, hset.slots, by simp⟩⟩
  rw [local?_setLocal_eq (f := { f with stack := u :: us }) hsize]
  exact (if_pos rfl).symm

theorem leads_increment {i : Int} (hn : 0 < n) (hcs : Cell.slot n ∉ cs) (hτ : τ n = .any) :
    (Op.increment n i).Leads o p m ⟨cs, τ, none⟩ ⟨cs, τ, none⟩ := by
  intro w d f hw hf
  unfold Machine.exec
  refine (slot_within trivial f n).bind fun j ⟨hj, hsize⟩ => ?_
  subst hj
  have hset := hf.setLocal hsize hcs (k := .any) (v := .int ((f.local? j).toInt32 + Int32.ofInt i)) trivial
  rw [← hτ, Function.update_eq_self] at hset
  exact ⟨w, rfl, hw, .refl w, continues_setLocal hn hsize _, hset⟩

theorem leads_dup : Op.dup.Leads o p m ⟨cell :: cs, τ, none⟩ ⟨.again :: cell :: cs, τ, none⟩ := by
  intro w d f hw hf
  obtain ⟨v, vs, hs, hv, hf'⟩ := hf.uncons
  have hpush : Attempt (Op.dup.FailsFor w.heap f.stack) (· = f) (Frame.push { f with stack := vs } v) :=
    ((Frame.push_attempt { f with stack := vs } v).allow fun c hc => hc ▸ trivial).imp fun g hg => by rw [hg, ← hs]
  unfold Machine.exec
  simp only [Frame.pop, hs]
  rw [hs] at hpush
  refine hpush.bind fun g hg => ?_
  rw [hg]
  exact leaves_quiet_push (.refl f) hw (hf.push .again (by rw [hs]; rfl))

theorem leads_pop : Op.pop.Leads o p m ⟨cell :: cs, τ, note⟩ ⟨cs, τ, none⟩ := by
  intro w d f hw hf
  obtain ⟨v, vs, hs, -, hf'⟩ := hf.uncons
  unfold Machine.exec
  simp only [Frame.pop, hs]
  exact leaves_quiet hw hf'

theorem leads_arith (op : ArithOp) :
    (Op.arith op).Leads o p m ⟨cell :: cell' :: cs, τ, note⟩ ⟨.known .any :: cs, τ, none⟩ := by
  intro w d f hw hf
  obtain ⟨v, vs, hs, -, hf'⟩ := hf.uncons
  obtain ⟨u, us, rfl, -, hf''⟩ := hf'.uncons
  unfold Machine.exec
  simp only [Frame.popTwo, hs]
  change Attempt _ _ (op.apply u.toInt32 v.toInt32 >>= fun r =>
    Effect.quiet w.heap <$> Frame.push { f with stack := us } (.int r))
  refine Attempt.bind (P := fun _ => True) ?_ fun r _ =>
    leaves_quiet_push (.with_stack f us) hw (hf''.push (.known .any) trivial)
  cases op <;> simp only [ArithOp.apply] <;> (try split) <;> trivial

theorem leads_neg : Op.neg.Leads o p m ⟨cell :: cs, τ, note⟩ ⟨.known .any :: cs, τ, none⟩ := by
  intro w d f hw hf
  obtain ⟨v, vs, hs, -, hf'⟩ := hf.uncons
  unfold Machine.exec
  simp only [Frame.pop, hs]
  exact leaves_quiet_push (.with_stack f vs) hw (hf'.push (.known .any) trivial)

theorem leads_label (l : String) : (Op.label l).Leads o p m a a :=
  fun w _ f hw hf => ⟨w, rfl, hw, .refl w, .refl f, hf⟩

theorem leads_of_new {cls : String} (obj : Object) (ho : m.allocate cls = .ok obj) (mark : Nat → Nat → Option Mark)
    (hm : ∀ (w : TypedHeap) d n k, mark d n = some k → w.Allows p k obj)
    (hf : ∀ (w : TypedHeap) c fs, obj = .inst c fs → w.FieldsFit p c fs)
    (hc : ∀ (w : TypedHeap) d (locals : Nat → Value) vs, cell.Holds p (w.add obj (mark d vs.length)) d locals vs (.ref w.heap.size)) :
    (Op.new cls).Leads o p m ⟨cs, τ, none⟩ ⟨cell :: cs, τ, none⟩ := by
  intro w d f hw hhas
  have hx {sites : Nat → Nat → Prop} : w.Extends sites (w.add obj (mark d f.stack.length)) := hw.extends_add _ _
  change Attempt _ _ (m.allocate cls >>= fun x => f.push (.ref w.heap.size) >>= fun g => pure (Effect.next g (w.heap.push x) ""))
  rw [ho]
  refine leaves_push (w.add obj (mark d f.stack.length)) rfl (.refl f) (hw.add (hm w d _) (hf w)) hx ?_
  exact (hhas.later hx).push cell (hc w d _ _)

theorem get?_add (obj : Object) (mark : Option Mark) : (w.add obj mark).heap.get? (.ref w.heap.size) = some obj :=
  (TypedHeap.getElem?_add w.heap.size mark).trans (if_pos rfl)

theorem mark?_add (obj : Object) (mark : Option Mark) : (w.add obj mark).mark? (.ref w.heap.size) = mark := if_pos rfl

theorem leads_newList (es : List (String × Ty)) :
    (Op.new listClass).Leads o p m ⟨cs, τ, none⟩ ⟨.known (.val (.list es)) :: cs, τ, none⟩ := by
  refine leads_of_new (.list []) (by simp [Machine.allocate]) (fun _ _ => some (.typed (Ty.list es).unnamed))
    (fun w d n k hk => ?_) (fun _ _ _ he => by cases he) fun w d _ vs => mark?_add _ _
  obtain rfl := Option.some.inj hk
  exact fun i v hv => by simp at hv

theorem leads_newFptr (ps : List Ty) (r : Ty) :
    (Op.new fptrClass).Leads o p m ⟨cs, τ, none⟩ ⟨.known (.made (.fptr ps r)) :: cs, τ, none⟩ := by
  refine leads_of_new (.fptr .null "") (by simp [Machine.allocate, listClass, fptrClass])
    (fun _ _ => some (.typed (Ty.fptr ps r).unnamed)) (fun w d n k hk => ?_) (fun _ _ _ he => by cases he)
    fun w d _ vs => ⟨by simp, .inr (mark?_add _ _)⟩
  obtain rfl := Option.some.inj hk
  exact .inl rfl

theorem leads_newArrayList : (Op.new arrayListClass).Leads o p m ⟨cs, τ, none⟩ ⟨.adds [] :: cs, τ, none⟩ := by
  refine leads_of_new (.arrayList []) (by simp [Machine.allocate, listClass, fptrClass, arrayListClass])
    (fun d n => some (.filled d n)) (fun w d n k hk => ?_) (fun _ _ _ he => by cases he)
    fun w d _ vs => ⟨_, [], rfl, mark?_add _ _, get?_add _ _, .nil⟩
  obtain rfl := Option.some.inj hk
  trivial

/-- A value that fits a type can be narrowed to the class of the type. -/
theorem TypedHeap.Fits.isInstance {files : List ClassFile} {t : Ty} (hv : w.Fits p t v) (hw : w.Valid p)
    (hfiles : FilesOf o p files) (hnames : ∀ c ∈ p.classes, Unqualified c.name.name) (ht : t.Solid p.hasClass) :
    v = .null ∨ v.isReference = true ∧ (Machine.load files).isInstance w.heap v t.classRef = true := by
  have hobject : ∀ {o : Object}, w.heap.get? v = some o → (∀ c fs, o ≠ .inst c fs) → t.classRef = o.className →
      v.isReference = true ∧ (Machine.load files).isInstance w.heap v t.classRef = true := by
    intro o ho hne hc
    cases v with
    | ref a => cases o <;> simp_all [Machine.isInstance, Heap.className, Value.isReference]
    | _ => cases ho
  cases t with
  | noType | null => exact ht.elim
  | void => exact .inl hv
  | string =>
    obtain ⟨s, rfl⟩ := hv
    exact .inr ⟨rfl, by simp [Machine.isInstance, Heap.get?, Heap.className, Ty.classRef]⟩
  | int =>
    obtain ⟨n, hn⟩ := hv
    exact .inr (hobject hn (by simp) rfl)
  | bool =>
    obtain ⟨b, hb⟩ := hv
    exact .inr (hobject hb (by simp) rfl)
  | cls c =>
    obtain rfl | ⟨fs, ho, -⟩ := hv
    · exact .inl rfl
    · refine .inr ⟨?_, ?_⟩
      · cases v with
        | ref a => rfl
        | _ => cases ho
      · rw [show (Ty.cls c).classRef = c from rfl, hfiles.isInstance hnames ho ht]
        simp [Program.hasAncestor]
  | fptr ps r =>
    by_cases hne : v = .null
    · exact .inl hne
    · obtain ⟨a, u, name, rfl, -, ho, -⟩ := hw.fptr hv hne
      exact .inr (hobject ho (by simp) rfl)
  | list es =>
    obtain ⟨a, vs, rfl, -, ho, -⟩ := hw.list hv
    exact .inr (hobject ho (by simp) rfl)

theorem leads_of_cast {cls : String} (hv : ∀ (w : TypedHeap) v, w.Valid p → k.Holds p w v →
      v = .null ∨ v.isReference = true ∧ m.isInstance w.heap v cls = true) :
    (Op.cast cls).Leads o p m ⟨.known k :: cs, τ, none⟩ ⟨.known k :: cs, τ, none⟩ := by
  intro w d f hw hf
  obtain ⟨v, vs, hs, hk, -⟩ := hf.uncons
  have hcast : (v.isNull || v.isReference && m.isInstance w.heap v cls) = true := by
    obtain rfl | ⟨hr, hi⟩ := hv w v hw hk
    · rfl
    · simp [hr, hi]
  unfold Machine.exec
  simp only [hs, hcast, if_true]
  exact ⟨w, rfl, hw, .refl w, .refl f, hf⟩

theorem leads_cast {files : List ClassFile} {t : Ty} (hfiles : FilesOf o p files)
    (hnames : ∀ c ∈ p.classes, Unqualified c.name.name) (ht : t.Solid p.hasClass) :
    (Op.cast t.classRef).Leads o p (Machine.load files) ⟨.known (.val t) :: cs, τ, none⟩
      ⟨.known (.val t) :: cs, τ, none⟩ :=
  leads_of_cast fun _ _ hw hv => TypedHeap.Fits.isInstance hv hw hfiles hnames ht

theorem leads_cast_null (cls : String) : (Op.cast cls).Leads o p m ⟨.known (.val .null) :: cs, τ, none⟩
    ⟨.known (.val .null) :: cs, τ, none⟩ := leads_of_cast fun _ _ _ hv => .inl hv

end

end ClassCompiler
