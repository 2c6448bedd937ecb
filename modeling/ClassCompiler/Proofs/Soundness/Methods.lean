import ClassCompiler.Proofs.Machine.Entry
import ClassCompiler.Proofs.Soundness.Sites
import ClassCompiler.Proofs.Soundness.Statements

namespace ClassCompiler

/-- What is known of slots in which there are a receiver and then values of types. -/
def slotFacts (self : Fact) (ts : List Ty) : Nat → Fact
  | 0 => self
  | n + 1 => (ts[n]?.map Fact.val).getD .any

def Contract.start (k : Contract) : Facts := ⟨[], slotFacts k.self k.params, none⟩

def Facts.Creates (a : Facts) (op : Op) : Prop := ∃ (r : MemberRef) (t : Ty) (cls : String) (names : List String),
  op = .putField r ∧ a.stack = [.known (.val t), .slot 0] ∧ a.slots 0 = .making cls names

/-- What is known in the code of a method that is called under a contract. Outside of the code of expressions, no object
is needed but a new one. -/
structure Contract.Governs (k : Contract) (o : CompileOptions) (p : Program) (m : Machine) (mc : MethodCode)
    (st : Nat → Facts) : Prop extends (typeFlow o p m k).Solves mc.code st where
  entry : st 0 = k.start
  needs {j : Nat} {i : Instr} (hi : mc.code[j]? = some i) (hd : i.op.dereferences = true) :
    (st j).Creates i.op ∨ mc.DereferencesAt o p j

/-- What is known in code outside of bodies, which needs no object but a new one. -/
def startFlow (o : CompileOptions) (p : Program) (m : Machine) (k : Contract) : Flow Facts where
  falls op a b := (typeFlow o p m k).falls op a b ∧ (op.dereferences = true → a.Creates op)
  jumps := (typeFlow o p m k).jumps

section

variable {o : CompileOptions} {p : Program} {m : Machine} {w : TypedHeap} {d : Nat} {k : Contract} {self self' : Fact}
  {ts : List Ty} {t : Ty} {v : Value} {vs : List Value} {a b : Facts} {os : List Op} {files : List ClassFile}
  {c : ClassDecl} {K : Claim Facts} {T : Targets Facts} {own : String → Option Facts}

theorem slotFacts_snoc : Function.update (slotFacts self ts) (ts.length + 1) (.val t) = slotFacts self (ts ++ [t]) := by
  funext n
  cases n with
  | zero => rfl
  | succ n =>
    simp only [Function.update_apply, Nat.add_right_cancel_iff, slotFacts, List.getElem?_append, List.getElem?_singleton]
    grind

theorem update_slotFacts : Function.update (slotFacts self ts) 0 self' = slotFacts self' ts := by
  funext n
  cases n <;> rfl

theorem Frame.local?_enter {cls : String} {mc : MethodCode} {args : List Value} {pushes : Bool} {n : Nat}
    (hn : n < args.length) : (Frame.enter cls mc args pushes).local? n = args[n] := by
  simp only [Frame.local?, Frame.enter]
  rw [Array.getElem?_append_left (by simpa using hn), List.getElem?_toArray, List.getElem?_eq_getElem hn, Option.getD_some]

/-- A call finds its receiver and its arguments in its slots. -/
theorem Contract.Takes.has (h : k.Takes p w v vs) {cls : String} {mc : MethodCode} {pushes : Bool} :
    Frame.Has p w d (Frame.enter cls mc (v :: vs) pushes) k.start := by
  refine ⟨trivial, fun n => ?_, by simp [start]⟩
  cases n with
  | zero =>
    rw [Frame.local?_enter (Nat.succ_pos _)]
    exact h.1
  | succ n =>
    simp only [start, slotFacts]
    cases ht : k.params[n]? with
    | none => trivial
    | some t =>
      obtain ⟨hlt, rfl⟩ := List.getElem?_eq_some_iff.1 ht
      have hlt' : n < vs.length := h.2.length_eq ▸ hlt
      rw [Frame.local?_enter (Nat.succ_lt_succ hlt')]
      exact h.2.get hlt hlt'

theorem MethodDecl.symbols_getElem? {d : MethodDecl} {i : Nat} {sym : Symbol} (h : d.symbols[i]? = some sym) :
    sym.slot = i + 1 ∧ ∃ x, (d.args ++ d.locals)[i]? = some x ∧ x.type = sym.type ∧ x.name.name = sym.name := by
  simp only [symbols, List.getElem?_append, List.length_map, List.length_zipIdx, List.getElem?_map,
    List.getElem?_zipIdx, Option.map_map] at h ⊢
  split at h
  · next hlt =>
    obtain ⟨x, hx, rfl⟩ := Option.map_eq_some_iff.1 h
    exact ⟨Nat.add_comm 1 i, x, by rw [if_pos hlt, hx], rfl, rfl⟩
  · next hlt =>
    obtain ⟨x, hx, rfl⟩ := Option.map_eq_some_iff.1 h
    exact ⟨by simp [Symbol.slot]; omega, x, by rw [if_neg hlt, hx], rfl, rfl⟩

theorem MethodDecl.slotFacts_symbol {d : MethodDecl} {name : String} {sym : Symbol} (h : d.symbol? name = some sym) :
    slotFacts self ((d.args ++ d.locals).map VarDecl.type) sym.slot = .val sym.type := by
  obtain ⟨i, hi⟩ := List.mem_iff_getElem?.1 (List.mem_of_find?_eq_some h)
  obtain ⟨hslot, x, hx, htype, -⟩ := symbols_getElem? hi
  rw [hslot, slotFacts, List.getElem?_map, hx]
  simp [htype]

theorem Row.admits (h : Row o p m os a b) (hne : os ≠ []) (line : Int) :
    (typeFlow o p m k).Admits K T (onLine line os) [] a b := by
  have hpath : (typeFlow o p m k).Path T (fun _ => none) os a b := path_of_row h fun he => absurd he hne
  exact hpath.admits line

theorem admits_ret {cs : List Cell} {τ : Nat → Fact} (line : Int) (hk : (τ 0).Implies p k.left) :
    (typeFlow o p m k).Admits K T (onLine line [.ret]) [] ⟨cs, τ, none⟩ b := by
  have hpath : (typeFlow o p m k).Path T (fun _ => none) [.ret] ⟨cs, τ, none⟩ b := typeFlow_ret hk
  exact hpath.admits line

/-- The locals are set to the values that variables of their types start with. -/
theorem MethodDecl.admits_localDefaults {d : MethodDecl} (hn : ((d.args ++ d.locals).map (·.name.name)).Nodup) :
    (typeFlow o p m k).Admits K T d.localDefaults [] ⟨[], slotFacts self (d.args.map VarDecl.type), none⟩
      ⟨[], slotFacts self ((d.args ++ d.locals).map VarDecl.type), none⟩ := by
  have hrest : ∀ vs done, d.locals = done ++ vs → (typeFlow o p m k).Admits K T
      (vs.flatMap fun v => onLine v.token.pos.line (defaultValue v.type ++ [.store .ref (d.localSlot v)])) []
      ⟨[], slotFacts self ((d.args ++ done).map VarDecl.type), none⟩
      ⟨[], slotFacts self ((d.args ++ d.locals).map VarDecl.type), none⟩ := by
    intro vs
    induction vs with
    | nil =>
      intro done h
      rw [h, List.append_nil]
      exact Flow.admits_nil
    | cons x vs ih =>
      intro done h
      have hslot : (d.args ++ done).length + 1 = d.localSlot x := by
        rw [MethodDecl.localSlot_of_nodup hn (i := done.length) (by simp [h]), List.length_append]
        omega
      have hstore : (Op.store .ref (d.localSlot x)).Leads o p m
          ⟨[.known (.val x.type)], slotFacts self ((d.args ++ done).map VarDecl.type), none⟩
          ⟨[], slotFacts self ((d.args ++ done).map VarDecl.type ++ [x.type]), none⟩ := by
        rw [← slotFacts_snoc, List.length_map, hslot]
        exact leads_store (hslot ▸ Nat.succ_pos _) (by simp)
      have hrow := ((row_defaultValue x.type []).append (.single rfl hstore)).admits (k := k) (K := K) (T := T)
        (by simp) x.token.pos.line
      have hrest := ih (done ++ [x]) (by simp [h])
      simp only [List.map_append, List.map_cons, List.map_nil, List.append_assoc] at hrow hrest ⊢
      exact hrow.append hrest
  unfold localDefaults
  simpa only [List.append_nil] using hrest d.locals [] rfl

/-- A constructor of an object of which all fields are set has made one of its class. -/
theorem ClassDecl.making_implies (hc : p.class? c.name.name = some c) {names : List String}
    (hn : ∀ f ∈ c.fields, f.name.name ∈ names) :
    (Fact.making c.name.name names).Implies p (.val (.cls c.name.name)) := by
  rintro w v ⟨fs, ho, hset⟩
  refine .inr ⟨fs, ho, fun name x ⟨c', hc', hx⟩ => hset name ?_⟩
  obtain rfl := Option.some.inj (hc.symm.trans hc')
  have hname : x.name.name = name := by simpa using List.find?_some hx
  exact hname ▸ hn x (List.mem_of_find?_eq_some hx)

theorem startFlow_path (h : (typeFlow o p m k).Path T own os a b) (hn : ∀ op ∈ os, op.dereferences = false) :
    (startFlow o p m k).Path T own os a b := by
  induction os generalizing a with
  | nil => exact h
  | cons op os ih =>
    obtain ⟨x, ⟨⟨hfalls, hjumps⟩, hl⟩, hrest⟩ := h
    obtain ⟨hop, hos⟩ := List.forall_mem_cons.1 hn
    exact ⟨x, ⟨⟨⟨hfalls, by simp [hop]⟩, hjumps⟩, hl⟩, ih hrest hos⟩

theorem startFlow_path_before (h : (startFlow o p m k).Path T own os a b) (hs : straight os = true) (hne : os ≠ [])
    {x : Facts} (hb : b.Entails p x) : (startFlow o p m k).Path T own os a x := by
  induction os generalizing a with
  | nil => exact absurd rfl hne
  | cons op os ih =>
    obtain ⟨c, ⟨⟨⟨hfalls, hneeds⟩, hjumps⟩, hl⟩, hrest⟩ := h
    obtain ⟨hop, hos⟩ : op.isStraight = true ∧ straight os = true := by simpa [straight] using hs
    cases os with
    | nil =>
      obtain rfl := hrest
      refine ⟨x, ⟨⟨⟨?_, hneeds⟩, hjumps⟩, hl⟩, rfl⟩
      cases op <;> first | exact Op.Leads.before hfalls hb | cases hop
    | cons op' os => exact ⟨c, ⟨⟨⟨hfalls, hneeds⟩, hjumps⟩, hl⟩, ih hrest hos (by simp)⟩

/-- Every constructor first sets all fields to the values that they start with. -/
theorem Installed.path_prologue (hi : Installed o p files) (hc : c ∈ p.classes)
    (hfields : (c.fields.map (·.name.name)).Nodup) : (startFlow o p m k).Path T (fun _ => none)
      ([.load .ref 0, .invokeSpecial ⟨c.superName, initName, "()V"⟩] ++ c.fields.flatMap c.fieldDefault)
      ⟨[], slotFacts (.making c.name.name []) ts, none⟩ ⟨[], slotFacts (.val (.cls c.name.name)) ts, none⟩ := by
  have hsuper : c.superName = rootClass := by simp [ClassDecl.superName, hi.flat.roots c hc]
  have hinit : (startFlow o p m k).Path T (fun _ => none) [.load .ref 0, .invokeSpecial ⟨c.superName, initName, "()V"⟩]
      ⟨[], slotFacts (.making c.name.name []) ts, none⟩ ⟨[], slotFacts (.making c.name.name []) ts, none⟩ := by
    rw [hsuper]
    exact startFlow_path (path_of_row (.cons rfl (leads_load 0) (.single rfl (leads_initRoot rfl))) (by simp)) (by
      simp [Op.dereferences, Op.isCall])
  have hset : ∀ (fs : List VarDecl) names, (∀ f ∈ fs, f ∈ c.fields) → (startFlow o p m k).Path T (fun _ => none)
      (fs.flatMap c.fieldDefault) ⟨[], slotFacts (.making c.name.name names) ts, none⟩
      ⟨[], slotFacts (.making c.name.name ((fs.map (·.name.name)).reverse ++ names)) ts, none⟩ := by
    intro fs
    induction fs with
    | nil => exact fun names _ => rfl
    | cons f fs ih =>
      intro names hfs
      obtain ⟨hf, hfs⟩ := List.forall_mem_cons.1 hfs
      have hown : p.OwnField c.name.name f.name.name f :=
        ⟨c, hi.class? hc, find?_eq_some_of_nodup (fun f : VarDecl => f.name.name) hfields hf⟩
      have hput : (Op.putField ⟨c.name.name, f.name.name, f.type.descriptor⟩).Leads o p m
          ⟨[.known (.val f.type), .slot 0], slotFacts (.making c.name.name names) ts, none⟩
          ⟨[], Function.update (slotFacts (.making c.name.name names) ts) 0 (.making c.name.name (f.name.name :: names)), none⟩ :=
        leads_putField_self hown rfl
      rw [update_slotFacts] at hput
      have hvalue : (startFlow o p m k).Path T (fun _ => none) (.load .ref 0 :: defaultValue f.type)
          ⟨[], slotFacts (.making c.name.name names) ts, none⟩
          ⟨[.known (.val f.type), .slot 0], slotFacts (.making c.name.name names) ts, none⟩ :=
        startFlow_path (path_of_row (.cons rfl (leads_load 0) (row_defaultValue f.type _)) (by simp))
          (dereferences_eq_false (by simp) (by simp [Op.isCall]))
      have hrest := ih (f.name.name :: names) hfs
      rw [List.map_cons, List.reverse_cons, List.append_assoc]
      refine Flow.path_append.2 ⟨_, Flow.path_append.2 ⟨_, hvalue, _, ⟨⟨⟨hput, fun _ => ?_⟩, by simp⟩, by simp⟩, rfl⟩, hrest⟩
      exact ⟨_, f.type, c.name.name, names, rfl, rfl, rfl⟩
  refine startFlow_path_before (Flow.path_append.2 ⟨_, hinit, hset c.fields [] fun f hf => hf⟩) c.straight_prologue
    (by simp) (.slots fun n => ?_)
  cases n with
  | zero => exact c.making_implies (hi.class? hc) fun f hf => by simpa using ⟨f, hf, rfl⟩
  | succ n => exact .refl _

theorem Flow.Traced.of_startFlow {code : List Instr} {st : Nat → Facts} (h : (startFlow o p m k).Traced T code st) :
    (typeFlow o p m k).Traced T code st := fun j i hi => ⟨(h j i hi).1.1, (h j i hi).2⟩

/-- What is known in code outside of bodies and then in other code. -/
theorem Flow.Admits.governs {K' : Claim Facts} {start code : List Instr} {sp sp' : List Span} {mc : MethodCode}
    (hs : (startFlow o p m k).Admits K (fun _ _ => False) start sp k.start a)
    (h : (typeFlow o p m k).Admits K' (fun _ _ => False) code sp' a b) (hmc : mc.code = (start ++ code).toArray)
    (hl : ∀ l, labelCount (start ++ code) l ≤ 1)
    (hn : ∀ j i, (start ++ code)[j]? = some i → i.op.dereferences = true → j < start.length ∨ mc.DereferencesAt o p j) :
    ∃ st, k.Governs o p m mc st := by
  obtain ⟨f, f0, fn, ft, -⟩ := hs
  obtain ⟨g, g0, gn, gt, -⟩ := h
  have hjoin : f start.length = g 0 := fn.trans g0.symm
  have ht : (typeFlow o p m k).Traced (fun _ _ => False) (start ++ code) (splice start.length f g) :=
    Flow.Traced.append ft.of_startFlow gt hjoin
  refine ⟨splice start.length f g, ⟨hmc ▸ ht.solves hl, ?_, fun {j i} hi hd => ?_⟩⟩
  · rw [splice_left hjoin (Nat.zero_le _), f0]
  · rw [hmc, List.getElem?_toArray] at hi
    refine (hn j i hi hd).imp_left fun hj => ?_
    rw [splice_left hjoin (Nat.le_of_lt hj)]
    rw [List.getElem?_append_left hj] at hi
    exact (ft j i hi).1.2 hd

end

/-- A body that the checker admits, of which the variables have different names and no list literal has an element of
type `null`. -/
structure MethodDecl.Typable (p : Program) (cls : String) (d : MethodDecl) : Prop where
  admitted : d.Admitted p cls
  plain : Context.AllPlain ⟨p, cls, d⟩ d.subterms
  names : ((d.args ++ d.locals).map (·.name.name)).Nodup
  returns : d.result.isVoid = false → d.hasReturn = true

/-- The files of a program of which all bodies are typable and the fields of each class have different names. -/
structure Typable (o : CompileOptions) (p : Program) (files : List ClassFile) : Prop extends Installed o p files where
  bodies : ∀ c ∈ p.classes, ∀ d ∈ c.bodies, d.Typable p c.name.name
  fields : ∀ c ∈ p.classes, (c.fields.map (·.name.name)).Nodup

section

variable {o : CompileOptions} {p : Program} {files : List ClassFile} {c : ClassDecl} {d : MethodDecl} {k : Contract}
  {mc : MethodCode}

theorem Typable.sound (h : Typable o p files) (hc : c ∈ p.classes) (hd : d ∈ c.bodies) :
    Context.Sound ⟨p, c.name.name, d⟩ where
  flat := h.flat
  known := (h.bodies c hc d hd).admitted.known
  solid := ⟨h.solid, h.solid.vars c hc d hd, h.solid.results c hc d hd, by simp [Program.hasClass, h.class? hc]⟩

/-- The code of a body, after code that sets what the contract of its method needs. -/
theorem Typable.governs_body (h : Typable o p files) (hc : c ∈ p.classes) (hd : d ∈ c.bodies) {code : List Instr}
    (b : BodyCode p c d code) (start : List Instr) (hcode : CodeFor o p c d mc)
    (hmc : mc.code = (start ++ code).toArray) (hk : k.Serves ⟨p, c.name.name, d⟩)
    (hs : (startFlow o p (Machine.load files) k).Admits (typeClaim ⟨p, c.name.name, d⟩) (fun _ _ => False) start []
      k.start ⟨[], slotFacts (.val (.cls c.name.name)) (d.args.map VarDecl.type), none⟩)
    (hl : ∀ l, labelCount start l = 0) : ∃ st, k.Governs o p (Machine.load files) mc st := by
  let ctx : Context := ⟨p, c.name.name, d⟩
  obtain ⟨hadmitted, hplain, hnames, -⟩ := h.bodies c hc d hd
  let vars : Facts := ⟨[], slotFacts (.val (.cls c.name.name)) ((d.args ++ d.locals).map VarDecl.type), none⟩
  have hready : ctx.Ready ⟨b.labels, d.slotCount⟩ vars := by
    refine ⟨Nat.le_refl _, rfl, rfl, fun name sym hsym => d.slotFacts_symbol hsym, fun n hn => ?_, by simp [vars]⟩
    simp only [MethodDecl.slotCount] at hn
    obtain ⟨i, rfl⟩ : ∃ i, n = i + 1 := ⟨n - 1, by omega⟩
    have hnone : ((d.args ++ d.locals).map VarDecl.type)[i]? = none := by
      rw [List.getElem?_eq_none_iff, List.length_map, List.length_append]
      omega
    simp only [vars, slotFacts, hnone, Option.map_none, Option.getD_none]
  have hbody : (ctx.typeFlow o files k).Admits (typeClaim ctx) (fun _ _ => False) b.stmts b.spans vars vars :=
    (ctx.typeFlow_sound h.toInstalled (h.sound hc hd) hk).holds b.emits
      ⟨⟨hadmitted.piece, hplain⟩, hready, rfl, by simp [Facts.LoopEnters]⟩
  have hend : (ctx.typeFlow o files k).Admits (typeClaim ctx) (fun _ _ => False)
      (if d.endsWithReturn then [] else onLine d.token.pos.line [.ret]) [] vars vars := by
    split
    · exact Flow.admits_nil
    · exact admits_ret _ hk.left
  have hall := (MethodDecl.admits_localDefaults hnames).append hbody |>.append hend
  rw [← b.code_eq] at hall
  exact hs.governs hall hmc (b.labelCount_le_one hl) fun j i hj hi => b.dereferencesAt hc hd hcode hmc hadmitted hj hi

/-- Every method of the files keeps the contract under which it is called. -/
theorem Typable.governs (h : Typable o p files) (hk : Offers o p mc k) : ∃ st, k.Governs o p (Machine.load files) mc st := by
  have hprologue : ∀ {c : ClassDecl} {K T} {line : Int} {params : List Ty}, c ∈ p.classes →
      (startFlow o p (Machine.load files) (constructorContract c.name.name params)).Admits K T (c.prologue line) []
        (constructorContract c.name.name params).start ⟨[], slotFacts (.val (.cls c.name.name)) params, none⟩ :=
    fun hc => (h.path_prologue hc (h.fields _ hc)).admits _
  -- Code outside of bodies that ends with a return needs nothing after its start.
  have hret : ∀ {start : List Instr} {line : Int} {j : Nat} {i : Instr}, (start ++ onLine line [.ret])[j]? = some i →
      i.op.dereferences = true → j < start.length ∨ mc.DereferencesAt o p j := by
    intro start line j i hj hi
    rw [List.getElem?_append] at hj
    split at hj
    · exact .inl ‹_›
    · simp only [onLine, List.map_cons, List.map_nil, List.getElem?_singleton, Option.ite_none_right_eq_some] at hj
      rw [← Option.some.inj hj.2] at hi
      cases hi
  cases hk with
  | @method c d _ hc hd hm =>
    have hcode : CodeFor o p c d mc := .inl hm
    obtain ⟨code, ⟨b, -⟩, rfl⟩ := hm
    exact h.governs_body hc (by simp [ClassDecl.bodies, hd]) b [] hcode rfl ⟨Fact.implies_any, rfl⟩ Flow.admits_nil
      fun _ => rfl
  | @constructor c d _ hc hd hm =>
    have hcode : CodeFor o p c d mc := .inr hm
    obtain ⟨code, ⟨b, -⟩, rfl⟩ := hm
    have hvoid : d.result = .void := by simp [MethodDecl.result, (h.written c hc).constructor d hd, Ty.resultOfOption]
    exact h.governs_body hc (by simp [ClassDecl.bodies, hd]) b _ hcode rfl ⟨.refl _, hvoid.symm⟩ (hprologue hc)
      (c.labelCount_prologue _)
  | @default c hc =>
    exact (hprologue (K := fun _ _ _ _ _ => True) hc).governs
      (admits_ret (K := fun _ _ _ _ _ => True) (b := ⟨[], fun _ => .any, none⟩) c.token.pos.line (.refl _)) rfl
      (fun l => by simp [c.labelCount_prologue]) fun j i hj hi => hret hj hi
  | @entry c mc hc hm =>
    unfold ClassDecl.entryPoint at hm
    split at hm
    · obtain rfl := List.mem_singleton.1 hm
      have hcreate : (startFlow o p (Machine.load files) { self := .any }).Path (fun _ _ => False) (fun _ => none)
          [.new c.name.name, .invokeSpecial ⟨c.name.name, initName, "()V"⟩] (Contract.start { self := .any })
          ⟨[], slotFacts .any [], none⟩ :=
        startFlow_path (path_of_row (.cons rfl (h.leads_new hc) (.single rfl (h.leads_entry hc))) (by simp))
          (by simp [Op.dereferences, Op.isCall])
      exact (hcreate.admits (K := fun _ _ _ _ _ => True) c.token.pos.line).governs
        (admits_ret (K := fun _ _ _ _ _ => True) (b := ⟨[], fun _ => .any, none⟩) c.token.pos.line Fact.implies_any) rfl
        (fun l => by simp) fun j i hj hi => hret hj hi
    · cases hm

end

end ClassCompiler
