import ClassCompiler.Proofs.Soundness.Lists

namespace ClassCompiler

/-- The files of a program without inheritance, of which no class or method has a name of the runtime's. -/
structure Installed (o : CompileOptions) (p : Program) (files : List ClassFile) : Prop where
  files : FilesOf o p files
  written : p.Written
  flat : p.Flat
  solid : p.Solid
  names : ∀ c ∈ p.classes, Unqualified c.name.name
  own : ∀ c ∈ p.classes, c.name.name ≠ listClass ∧ c.name.name ≠ fptrClass
  methods : ∀ c ∈ p.classes, ∀ d ∈ c.methods, d.name.name ≠ initName

def Cell.values (ts : List Ty) : List Cell := ts.reverse.map fun t => .known (.val t)

/-- No class of a program has a constructor of a runtime class. -/
theorem NativeConstructor.ofRef?_eq_none {c desc : String} (hc : '/' ∉ c.toList) (hl : c ≠ listClass)
    (hf : c ≠ fptrClass) : NativeConstructor.ofRef? ⟨c, initName, desc⟩ = none := by
  have hkey : ∀ n : NativeConstructor,
      (MemberRef.constructorKey ⟨c, initName, desc⟩ == n.ref.constructorKey) = false := by
    intro n
    refine beq_eq_false_iff_ne.2 fun h => ?_
    have howner : ∀ (s rest : String), '/' ∉ s.toList → (s ++ "/" ++ rest).toList.takeWhile (· ≠ '/') = s.toList := by
      intro s rest hs
      have hall : ∀ x ∈ s.toList, decide (x ≠ '/') = true := fun x hx =>
        decide_eq_true fun he => hs (he ▸ hx)
      simp only [String.toList_append, List.append_assoc, List.takeWhile_append_of_pos hall]
      simp
    have hstart := congrArg (fun s : String => s.toList.takeWhile (· ≠ '/')) h
    simp only [MemberRef.constructorKey] at hstart
    rw [howner _ _ hc, howner _ _ (by cases n <;> decide), String.toList_inj] at hstart
    cases n
    · exact hl hstart
    · exact hl hstart
    · exact hf hstart
  simp [ofRef?, byKey, all, List.lookup_cons, hkey]

section

variable {o : CompileOptions} {p : Program} {m : Machine} {w w' : TypedHeap} {d n : Nat} {f g : Frame}
  {a b : Facts} {op : Op} {k : Fact} {cell : Cell} {cs : List Cell} {τ : Nat → Fact} {note : Option Note}
  {h : Heap} {vs : List Value} {u v : Value} {t : Ty} {ts : List Ty} {es es' : List (String × Ty)}
  {files : List ClassFile} {c : ClassDecl}

theorem TypedHeap.fits_all_below (h : List.Forall₂ (w.Fits p) ts vs) {us : List Ty} (hb : List.Forall₂ Ty.Below ts us) :
    List.Forall₂ (w.Fits p) us vs := by
  induction hb generalizing vs with
  | nil => exact h
  | cons hab _ ih =>
    cases h with
    | cons hv hvs => exact .cons (hv.below hab) (ih hvs)

theorem leaves_native {nc : NativeConstructor} (args : List Value) (hs : f.stack = args.reverse ++ u :: vs)
    (hn : args.length = nc.arity) (hu : u ≠ .null)
    (hrun : Attempt ((Op.invokeSpecial nc.ref).FailsFor w.heap f.stack) (fun h => ∃ w' : TypedHeap, w'.heap = h ∧
      w'.Valid p ∧ w.Extends (fun e _ => d ≤ e) w' ∧ Frame.Has p w' d { f with stack := vs } b) (nc.run w.heap u args)) :
    Attempt ((Op.invokeSpecial nc.ref).FailsFor w.heap f.stack) (Effect.Leaves o p w d f b)
      (m.exec f w.heap (.invokeSpecial nc.ref)) := by
  have hpop : f.popMany (argCount nc.ref.desc + 1) = .ok (u :: args, { f with stack := vs }) :=
    Moves.popMany_eq (by simp [hs]) (by simp [hn])
  unfold Machine.exec
  simp only [Machine.invokeSpecial, NativeConstructor.ref_name, ne_eq, not_true_eq_false, if_false, hpop, bind,
    Except.bind, argument, List.getElem?_cons_zero, Option.getD_some, Value.isNull, hu, decide_false,
    NativeConstructor.ofRef?_ref, List.tail_cons, Bool.false_eq_true]
  cases hr : nc.run w.heap u args with
  | error e =>
    rw [hr] at hrun
    exact hrun
  | ok h' =>
    rw [hr] at hrun
    obtain ⟨w', rfl, hw, hx, hhas⟩ := hrun
    exact ⟨w', rfl, hw, hx, .with_stack f vs, hhas⟩

/-- A new list, of which there is another reference on the stack, gets its elements. -/
theorem leads_fill {nc : NativeConstructor} (select : Object → Option (List Value)) (ha : nc.arity = 1)
    (hrun : ∀ h u args, nc.run h u args = NativeConstructor.run.fillList h u args {} select)
    (hfill : ∀ (w : TypedHeap) d (f : Frame) v vs, w.Valid p →
      f.Has p w d ⟨cell :: .again :: .known (.val (.list es)) :: cs, τ, note⟩ → f.stack = v :: vs →
      ∃ (i : Nat) (xs : List Value), v = .ref i ∧ (w.heap.get? v).bind select = some xs ∧
        ∀ (i : Nat) (x : Value), xs[i]? = some x → ∃ e, es[i]? = some e ∧ w.Fits p e.2 x) :
    (Op.invokeSpecial nc.ref).Leads o p m ⟨cell :: .again :: .known (.val (.list es)) :: cs, τ, note⟩
      ⟨.known (.val (.list es)) :: cs, τ, none⟩ := by
  intro w d f hw hf
  obtain ⟨v, vs, hs, -, hf'⟩ := hf.uncons
  obtain ⟨u, us, rfl, hagain, hf''⟩ := hf'.uncons
  obtain ⟨u', us, rfl, hu, -⟩ := hf''.uncons
  obtain rfl : u' = u := Option.some.inj hagain
  obtain ⟨i, xs, rfl, hxs, hfits⟩ := hfill w d f v _ hw hf hs
  obtain ⟨j, ys, rfl, hm, ho, -⟩ := hw.list hu
  refine leaves_native [.ref i] hs (by simp [ha]) (by simp) ?_
  have hget : w.heap.get? (.ref j) = some (.list ys) := ho
  obtain ⟨hvalid, hext⟩ := hw.fill ho hm hfits
  simp only [hrun, NativeConstructor.run.fillList, hget, elementsOf, argument, List.getElem?_cons_zero,
    Option.getD_some, Value.isNull, reduceCtorEq, decide_false, Bool.false_eq_true, if_false, hxs]
  exact ⟨_, rfl, hvalid, hext, hf''.later hext⟩

theorem leads_listOfArrayList (hts : List.Forall₂ Ty.Below ts (es.map Prod.snd)) :
    (Op.invokeSpecial NativeConstructor.listOfArrayList.ref).Leads o p m
      ⟨.adds ts :: .again :: .known (.val (.list es)) :: cs, τ, note⟩ ⟨.known (.val (.list es)) :: cs, τ, none⟩ := by
  refine leads_fill Object.arrayListElems? rfl (fun _ _ _ => rfl) fun w d f v vs hw hf hs => ?_
  obtain ⟨v', vs', hs', ⟨i, xs, hi, -, ho, hxs⟩, -⟩ := hf.uncons
  obtain ⟨rfl, rfl⟩ := List.cons.inj (hs.symm.trans hs')
  subst hi
  have hget : w.heap.get? (.ref i) = some (.arrayList xs) := ho
  refine ⟨i, xs, rfl, by simp [hget, Object.arrayListElems?], fun j x hx => ?_⟩
  obtain ⟨hj, rfl⟩ := List.getElem?_eq_some_iff.1 hx
  have hlen : j < ts.length := hxs.length_eq ▸ hj
  have hes : j < es.length := by simpa [hts.length_eq] using hlen
  have hbelow : ts[j].Below es[j].2 := by simpa using hts.get (i := j) hlen (by simpa using hes)
  exact ⟨es[j], List.getElem?_eq_getElem hes, (hxs.get hlen hj).below hbelow⟩

theorem leads_listCopy (he : (Ty.list es').unnamed = (Ty.list es).unnamed) :
    (Op.invokeSpecial NativeConstructor.listCopy.ref).Leads o p m
      ⟨.known (.val (.list es')) :: .again :: .known (.val (.list es)) :: cs, τ, note⟩
      ⟨.known (.val (.list es)) :: cs, τ, none⟩ := by
  refine leads_fill Object.listElems? rfl (fun _ _ _ => rfl) fun w d f v vs hw hf hs => ?_
  obtain ⟨v', vs', hs', hv, -⟩ := hf.uncons
  obtain ⟨rfl, rfl⟩ := List.cons.inj (hs.symm.trans hs')
  obtain ⟨i, xs, rfl, -, ho, hxs⟩ := hw.list (TypedHeap.Fits.of_unnamed_eq (show w.Fits p (.list es') v from hv) he)
  have hget : w.heap.get? (.ref i) = some (.list xs) := ho
  exact ⟨i, xs, rfl, by simp [hget, Object.listElems?], hxs⟩

theorem leads_bind {name : String} {cls : String} {r : String × MethodDecl} (hr : p.method? cls name = some r) :
    (Op.invokeSpecial NativeConstructor.fptrBind.ref).Leads o p m
      ⟨.known (.is (.str name)) :: .known (.val (.cls cls)) :: .again :: .known (.made r.2.functionType) :: cs, τ, note⟩
      ⟨.known (.val r.2.functionType) :: cs, τ, none⟩ := by
  intro w d f hw hf
  obtain ⟨v, vs, hs, hv, hf1⟩ := hf.uncons
  obtain ⟨x, xs, rfl, hx, hf2⟩ := hf1.uncons
  obtain ⟨u, us, rfl, hagain, hf3⟩ := hf2.uncons
  obtain ⟨u', us, rfl, hu, -⟩ := hf3.uncons
  obtain rfl : u' = u := Option.some.inj hagain
  obtain rfl : v = .str name := hv
  obtain ⟨i, y, old, rfl, hm, ho, -⟩ := hw.fptr hu.2 hu.1
  have hext : ∀ {sites : Nat → Nat → Prop}, w.Extends sites (w.put (.ref i) (.fptr x name)) :=
    TypedHeap.Extends.put ho trivial fun d n he => by cases hm.symm.trans he
  have hvalid : (w.put (.ref i) (.fptr x name)).Valid p := by
    refine hw.put ho (hext : w.Extends (fun _ _ => False) _) (fun k hk => ?_) fun _ _ he => by cases he
    obtain rfl := Option.some.inj (hm.symm.trans hk)
    exact .inr ⟨cls, r, hr, rfl, hx⟩
  refine leaves_native [x, .str name] hs rfl (by simp) ?_
  have hget : w.heap.get? (.ref i) = some (.fptr y old) := ho
  simp only [NativeConstructor.run, hget, argument, List.getElem?_cons_succ, List.getElem?_cons_zero, Option.getD_some]
  exact ⟨_, rfl, hvalid, hext, Facts.Entails.top Fact.implies_of_made _ _ _
    (hf3.later hext)⟩

/-- The constructor of the root class and that of array lists do nothing. -/
theorem leads_init {cls : String} (hcls : cls = rootClass ∨ cls = arrayListClass)
    (hne : ∀ (w : TypedHeap) d (f : Frame) v vs, f.Has p w d ⟨cell :: cs, τ, none⟩ → f.stack = v :: vs → v ≠ .null) :
    (Op.invokeSpecial ⟨cls, initName, "()V"⟩).Leads o p m ⟨cell :: cs, τ, none⟩ ⟨cs, τ, none⟩ := by
  intro w d f hw hf
  obtain ⟨v, vs, hs, -, hf'⟩ := hf.uncons
  have hpop : f.popMany (argCount "()V" + 1) = .ok ([v], { f with stack := vs }) :=
    Moves.popMany_eq (by simp [hs]) (by simp)
  have hplain : (decide (cls = rootClass) || decide (cls = arrayListClass)) = true := by simpa using hcls
  unfold Machine.exec
  simp only [Machine.invokeSpecial, ne_eq, not_true_eq_false, if_false, hpop, bind, Except.bind, argument,
    List.getElem?_cons_zero, Option.getD_some, Value.isNull, hne w d f v vs hf hs, decide_false,
    NativeConstructor.ofRef?_noParams, Bool.false_eq_true, hplain, if_true]
  exact leaves_quiet hw hf'

theorem leads_initArrayList : (Op.invokeSpecial ⟨arrayListClass, initName, "()V"⟩).Leads o p m
    ⟨.again :: .adds ts :: cs, τ, none⟩ ⟨.adds ts :: cs, τ, none⟩ := by
  refine leads_init (.inr rfl) fun w d f v vs hf hs => ?_
  obtain ⟨v', vs', hs', hagain, hf'⟩ := hf.uncons
  obtain ⟨rfl, rfl⟩ := List.cons.inj (hs.symm.trans hs')
  obtain ⟨u, us, rfl, ⟨i, xs, rfl, -⟩, -⟩ := hf'.uncons
  obtain rfl : Value.ref i = v := Option.some.inj hagain
  simp

theorem leads_initRoot {cls : String} {names : List String} (hτ : τ 0 = .making cls names) :
    (Op.invokeSpecial ⟨rootClass, initName, "()V"⟩).Leads o p m ⟨.slot 0 :: cs, τ, none⟩ ⟨cs, τ, none⟩ := by
  refine leads_init (.inl rfl) fun w d f v vs hf hs => ?_
  obtain ⟨v', vs', hs', hv, -⟩ := hf.uncons
  obtain ⟨rfl, rfl⟩ := List.cons.inj (hs.symm.trans hs')
  have hself := hf.slots 0
  simp only [hτ] at hself
  obtain ⟨fs, ho, -⟩ := hself
  exact (show v = f.local? 0 from hv) ▸ ne_null_of_get? ho

theorem Installed.class? (hi : Installed o p files) (hc : c ∈ p.classes) : p.class? c.name.name = some c :=
  find?_eq_some_of_nodup (fun c : ClassDecl => c.name.name) hi.files.distinct hc

theorem Installed.leads_new (hi : Installed o p files) (hc : c ∈ p.classes) :
    (Op.new c.name.name).Leads o p (Machine.load files) ⟨cs, τ, none⟩
      ⟨.known (.making c.name.name []) :: cs, τ, none⟩ := by
  obtain ⟨file, hfile, -⟩ := hi.files.file hc
  have ho : (Machine.load files).allocate c.name.name = .ok (.inst c.name.name []) := by
    simp [Machine.allocate, hi.own c hc, (hi.names c hc).ne_arrayListClass, hfile]
  refine leads_of_new _ ho (fun _ _ => none) (by simp) (fun w cls fs he => ?_) fun w d _ vs => ?_
  · obtain ⟨-, rfl⟩ := Object.inst.inj he
    exact fun name x _ y hy => by simp at hy
  · exact ⟨[], get?_add _ _, by simp⟩

/-- A constructor of a file is one that makes objects of the class. -/
theorem FileOf.offers_constructor {file : ClassFile} (h : FileOf o p c file) (hw : p.Written) (hc : c ∈ p.classes)
    (hn : ∀ d ∈ c.methods, d.name.name ≠ initName) {desc : String} {mc : MethodCode}
    (hm : file.method? initName desc = some mc) :
    ∃ params : List Ty, Offers o p mc (constructorContract c.name.name params) ∧ params.length = argCount desc ∧
      (params = [] ∨ ∃ d, c.constructor = some d ∧ params = d.args.map VarDecl.type) := by
  obtain ⟨ks, ms, hks, hms, hmethods⟩ := h.methods
  have hmem := List.mem_of_find?_eq_some hm
  obtain ⟨hname, rfl⟩ : mc.name = initName ∧ mc.desc = desc := by simpa using List.find?_some hm
  have hdefault : mc = c.defaultConstructor o → ∃ params : List Ty,
      Offers o p mc (constructorContract c.name.name params) ∧ params.length = argCount mc.desc ∧
        (params = [] ∨ ∃ d, c.constructor = some d ∧ params = d.args.map VarDecl.type) := by
    rintro rfl
    exact ⟨[], .default hc, by simp [ClassDecl.defaultConstructor, CompileOptions.method], .inl rfl⟩
  have hdeclared : ∀ {d}, c.constructor = some d → ConstructorOf o p c d mc → ∃ params : List Ty,
      Offers o p mc (constructorContract c.name.name params) ∧ params.length = argCount mc.desc ∧
        (params = [] ∨ ∃ d, c.constructor = some d ∧ params = d.args.map VarDecl.type) := by
    intro d hd hk
    refine ⟨d.args.map VarDecl.type, .constructor hc hd hk, ?_, .inr ⟨d, hd, rfl⟩⟩
    obtain ⟨code, -, rfl⟩ := hk
    have hwd : d.Written := (hw c hc).bodies d (by simp [ClassDecl.bodies, hd])
    exact (List.length_map _).trans (hwd.argCount _).symm
  rw [hmethods, List.append_assoc, List.mem_append, List.mem_append] at hmem
  rcases hmem with hmem | hmem | hmem
  · unfold ClassDecl.entryPoint at hmem
    split at hmem
    · obtain rfl := List.mem_singleton.1 hmem
      exact absurd hname (show mainName ≠ initName by decide)
    · cases hmem
  · cases hks with
    | none => exact hdefault (List.mem_singleton.1 hmem)
    | plain hd _ hk => exact hdeclared hd (List.mem_singleton.1 hmem ▸ hk)
    | withArgs hd _ hk =>
      rcases List.mem_cons.1 hmem with rfl | hmem
      · exact hdefault rfl
      · exact hdeclared hd (List.mem_singleton.1 hmem ▸ hk)
  · obtain ⟨d, hd, hmethod⟩ := exists_mem_of_forall₂ hms hmem
    exact absurd (hmethod.name.1.symm.trans hname) (hn d hd)

theorem Frame.Has.uncons_values (hf : f.Has p w d ⟨Cell.values ts ++ cs, τ, none⟩) : ∃ args vs,
    f.stack = args.reverse ++ vs ∧ List.Forall₂ (w.Fits p) ts args ∧ Frame.Has p w d { f with stack := vs } ⟨cs, τ, none⟩ := by
  have hall : ∀ (us : List Ty) (f : Frame), f.Has p w d ⟨us.map (fun t => .known (.val t)) ++ cs, τ, none⟩ →
      ∃ xs vs, f.stack = xs ++ vs ∧ List.Forall₂ (w.Fits p) us xs ∧
        Frame.Has p w d { f with stack := vs } ⟨cs, τ, none⟩ := by
    intro us
    induction us with
    | nil => exact fun f hf => ⟨[], f.stack, rfl, .nil, hf⟩
    | cons t us ih =>
      intro f hf
      obtain ⟨v, vs, hs, hv, hf'⟩ := hf.uncons
      obtain ⟨xs, ws, hws, hxs, hrest⟩ := ih _ hf'
      exact ⟨v :: xs, ws, by rw [hs, show vs = xs ++ ws from hws]; rfl, .cons hv hxs, hrest⟩
  obtain ⟨xs, vs, hs, hxs, hrest⟩ := hall ts.reverse f hf
  refine ⟨xs.reverse, vs, by rw [List.reverse_reverse, hs], ?_, hrest⟩
  simpa using List.rel_reverse hxs

/-- A constructor is called for a new object of a class, of which there is another reference on the stack. -/
theorem Installed.leads_construct (hi : Installed o p files) (ts : List Ty) (hc : c ∈ p.classes) {desc : String}
    (hdesc : ∀ file, FileOf o p c file → (file.method? initName desc).isSome) (hlen : ts.length = argCount desc)
    (hts : ∀ params : List Ty, params.length = argCount desc →
      (params = [] ∨ ∃ d, c.constructor = some d ∧ params = d.args.map VarDecl.type) → List.Forall₂ Ty.Below ts params)
    {cs' : List Cell} (hcs : ∀ w d (f : Frame) v vs, f.Has p w d ⟨cell :: cs, τ, none⟩ → f.stack = v :: vs →
      (∃ fs : FieldValues, w.heap.get? v = some (.inst c.name.name fs)) ∧ ∀ w', w.Extends (fun e _ => d < e) w' →
        w'.Fits p (.cls c.name.name) v → Frame.Has p w' d { f with stack := vs } ⟨cs', τ, none⟩) :
    (Op.invokeSpecial ⟨c.name.name, initName, desc⟩).Leads o p (Machine.load files)
      ⟨Cell.values ts ++ cell :: cs, τ, none⟩ ⟨cs', τ, none⟩ := by
  intro w d f hw hf
  obtain ⟨args, vs, hs, hargs, hf'⟩ := hf.uncons_values
  obtain ⟨v, vs, rfl, -, -⟩ := hf'.uncons
  obtain ⟨⟨fs, ho⟩, hafter⟩ := hcs w d _ v vs hf' rfl
  obtain ⟨file, hfile, hof⟩ := hi.files.file hc
  obtain ⟨mc, hmc⟩ := Option.isSome_iff_exists.1 (hdesc file hof)
  obtain ⟨params, hoffers, hparams, hor⟩ := hof.offers_constructor hi.written hc (hi.methods c hc) hmc
  have hpop : f.popMany (argCount desc + 1) = .ok (v :: args, { f with stack := vs }) :=
    Moves.popMany_eq (by simp [hs]) (by simp [← hlen, hargs.length_eq])
  have hnone : NativeConstructor.ofRef? ⟨c.name.name, initName, desc⟩ = none :=
    NativeConstructor.ofRef?_eq_none (hi.names c hc).2 (hi.own c hc).1 (hi.own c hc).2
  have hplain : (decide (c.name.name = rootClass) || decide (c.name.name = arrayListClass)) = false := by
    simp [(hi.names c hc).ne_rootClass, (hi.names c hc).ne_arrayListClass]
  unfold Machine.exec
  simp only [Machine.invokeSpecial, ne_eq, not_true_eq_false, if_false, hpop, bind, Except.bind, argument,
    List.getElem?_cons_zero, Option.getD_some, Value.isNull, ne_null_of_get? ho, decide_false, Bool.false_eq_true,
    hnone, hplain, hfile, hmc]
  refine ⟨rfl, .with_stack f vs, _, v, args, rfl, hoffers, ⟨⟨fs, ho, by simp⟩, ?_⟩,
    fun w' r hx hr => hafter w' hx hr.2⟩
  exact TypedHeap.fits_all_below hargs (hts params hparams hor)

/-- The constructor is called that the descriptor of a class names. -/
theorem Installed.leads_constructor (hi : Installed o p files) {cls : String} (hcls : p.hasClass cls = true)
    (hts : List.Forall₂ Ty.Below ts (p.constructorParams cls)) :
    (Op.invokeSpecial ⟨cls, initName, p.constructorDescriptor cls⟩).Leads o p (Machine.load files)
      ⟨Cell.values ts ++ .again :: .known (.making cls []) :: cs, τ, none⟩ ⟨.known (.val (.cls cls)) :: cs, τ, none⟩ := by
  obtain ⟨c, hc⟩ := Option.isSome_iff_exists.1 hcls
  obtain ⟨hmem, rfl⟩ := findClass?_name hc
  have hcount := hi.written.argCount_constructorDescriptor c.name.name
  have hconstructor : p.constructor? c.name.name = c.constructor := by rw [Program.constructor?, hc]; rfl
  refine hi.leads_construct _ hmem (fun file hfile => ?_) (hts.length_eq.trans hcount.symm) (fun params hlen hparams => ?_)
    fun w d f v vs hf hs => ?_
  · rw [Program.constructorDescriptor, hconstructor]
    cases hd : c.constructor with
    | none => exact hfile.provides.1
    | some d => exact hfile.provides.2 d hd
  · have hsame : params = p.constructorParams c.name.name := by
      rw [hcount] at hlen
      rw [Program.constructorParams, hconstructor] at hlen ⊢
      rcases hparams with rfl | ⟨d, hd, rfl⟩
      · exact (List.length_eq_zero_iff.1 hlen.symm).symm
      · rw [hd]
    exact hsame ▸ hts
  · obtain ⟨v', vs', hs', hagain, hf'⟩ := hf.uncons
    obtain ⟨rfl, rfl⟩ := List.cons.inj (hs.symm.trans hs')
    obtain ⟨u, us, rfl, hu, hrest⟩ := hf'.uncons
    obtain rfl : u = v := Option.some.inj hagain
    obtain ⟨fs, ho, -⟩ := hu
    exact ⟨⟨fs, ho⟩, fun w' hx hv =>
      (hrest.mono hx fun _ _ => Nat.lt_irrefl d).push (.known (.val (.cls c.name.name))) hv⟩

theorem Installed.leads_entry (hi : Installed o p files) (hc : c ∈ p.classes) :
    (Op.invokeSpecial ⟨c.name.name, initName, "()V"⟩).Leads o p (Machine.load files)
      ⟨[.known (.making c.name.name [])], τ, none⟩ ⟨[], τ, none⟩ := by
  refine hi.leads_construct [] hc (fun file hfile => hfile.provides.1) rfl (fun params hlen _ => ?_)
    fun w d f v vs hf hs => ?_
  · obtain rfl : params = [] := List.length_eq_zero_iff.1 hlen
    exact .nil
  · obtain ⟨v', vs', hs', ⟨fs, ho, -⟩, hrest⟩ := hf.uncons
    obtain ⟨rfl, rfl⟩ := List.cons.inj (hs.symm.trans hs')
    exact ⟨⟨fs, ho⟩, fun w' hx _ => hrest.mono hx fun _ _ => Nat.lt_irrefl d⟩

/-- A bound method is called with the arguments in an array list. -/
theorem Installed.leads_invoke (hi : Installed o p files) {ps : List Ty} {r : Ty} (hts : List.Forall₂ Ty.Below ts ps) :
    (Op.invokeVirtual NativeMethod.invoke.ref).Leads o p (Machine.load files)
      ⟨.adds ts :: .known (.val (.fptr ps r)) :: cs, τ, note⟩ ⟨.known (.val r) :: cs, τ, none⟩ := by
  intro w d f hw hf
  obtain ⟨v, vs, hs, ⟨i, args, rfl, -, hi', hargs⟩, hf'⟩ := hf.uncons
  obtain ⟨u, us, rfl, hu, hrest⟩ := hf'.uncons
  by_cases hnull : u = .null
  · subst hnull
    have hpop : f.popMany (argCount NativeMethod.invoke.ref.desc + 1) = .ok ([.null, .ref i], { f with stack := us }) :=
      Moves.popMany_eq (by simp [hs]) rfl
    unfold Machine.exec
    simp only [Machine.invokeVirtual, hpop, bind, Except.bind, argument, List.getElem?_cons_zero, Option.getD_some,
      Value.isNull, decide_true, if_true]
    rw [hs]
    exact .call
  obtain ⟨j, recv, name, rfl, hm, ho, hbinds⟩ := hw.fptr hu hnull
  have hget : w.heap.get? (.ref j) = some (.fptr recv name) := ho
  have helems : elementsOf w.heap Object.arrayListElems? (.ref i) " to ArrayList" = .ok args := by
    simp [elementsOf, Value.isNull, Heap.get?, hi', Object.arrayListElems?]
  refine leaves_method [.ref i] hs rfl hnull ?_
  simp only [NativeMethod.run, hget, argument, List.getElem?_cons_zero, Option.getD_some]
  rw [helems]
  change Attempt _ _ ((Machine.load files).dispatch w.heap recv name args)
  obtain rfl | ⟨cls, rd, hrd, htype, hrecv⟩ := hbinds
  · rw [hs]
    exact .bound hget
  obtain rfl | ⟨fs, hrecv', hset⟩ := hrecv
  · rw [hs]
    exact .bound hget
  obtain ⟨owner, dm⟩ := rd
  obtain ⟨c, hc, rfl, hdm⟩ := hi.flat.method?_eq_some hrd
  have hmem := (findClass?_name hc).1
  have hdmem : dm ∈ c.methods := List.mem_of_find?_eq_some hdm
  obtain rfl : dm.name.name = name := by simpa using List.find?_some hdm
  have hdispatch := hi.files.dispatch hi.written hrecv' (hi.methods c hmem dm hdmem) args
  rw [hrd] at hdispatch
  obtain ⟨mc, ⟨c', hc', hname', hdm', s, s', hcompiled⟩, hanswer⟩ := hdispatch
  simp only [MethodDecl.functionType, Ty.unnamed, Ty.fptr.injEq] at htype
  have hparams : List.Forall₂ (w.Fits p) (dm.args.map VarDecl.type) args :=
    TypedHeap.fits_all_below (TypedHeap.fits_all_below hargs hts) (Ty.forall₂_below_of_unnamedAll_eq htype.1.symm)
  have hlen : dm.args.length = args.length := by simpa using hparams.length_eq
  rw [if_pos hlen] at hanswer
  rw [hanswer]
  refine ⟨rfl, .refl _, _, recv, args, rfl, .method hc' (List.mem_of_find?_eq_some hdm') (compileMethod_ok hcompiled),
    ⟨?_, hparams⟩, fun w' x hx hr => ?_⟩
  · rw [hname']
    exact .inr ⟨fs, hrecv', hset⟩
  · exact (hrest.mono hx fun _ _ => Nat.lt_irrefl d).push (.known (.val r)) (hr.1.of_unnamed_eq htype.2)

end

end ClassCompiler
