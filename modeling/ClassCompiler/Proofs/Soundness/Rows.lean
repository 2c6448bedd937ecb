import ClassCompiler.Proofs.Soundness.Calls

namespace ClassCompiler

/-- What is known of the value that an expression of a type leaves: raw numbers are not followed. -/
def Ty.held (t : Ty) : Fact := if t.isPrimitive then .any else .val t

/-- Operations in a row lead from what is known before them to what is known after them. -/
def Row (o : CompileOptions) (p : Program) (m : Machine) : List Op → Facts → Facts → Prop
  | [], a, b => a.Entails p b
  | op :: os, a, b => ∃ c, op.isStraight = true ∧ op.Leads o p m a c ∧ Row o p m os c b

section

variable {o : CompileOptions} {p : Program} {m : Machine} {n : Nat} {a b c : Facts} {op : Op} {os os' : List Op}
  {k : Fact} {cell : Cell} {cs : List Cell} {τ : Nat → Fact} {t u : Ty} {ts : List Ty} {es : List (String × Ty)}
  {i : Index} {files : List ClassFile}

namespace Row

theorem nil (a : Facts) : Row o p m [] a a := .refl a

theorem cons (hs : op.isStraight = true) (h : op.Leads o p m a b) (ho : Row o p m os b c) :
    Row o p m (op :: os) a c := ⟨b, hs, h, ho⟩

theorem single (hs : op.isStraight = true) (h : op.Leads o p m a b) : Row o p m [op] a b := cons hs h (.refl b)

theorem after (h : Row o p m os b c) (ha : a.Entails p b) : Row o p m os a c := by
  cases os with
  | nil => exact ha.trans h
  | cons op os =>
    obtain ⟨x, hs, hl, hr⟩ := h
    exact ⟨x, hs, hl.after ha, hr⟩

theorem before (h : Row o p m os a b) (hb : b.Entails p c) : Row o p m os a c := by
  induction os generalizing a with
  | nil => exact h.trans hb
  | cons op os ih =>
    obtain ⟨x, hs, hl, hr⟩ := h
    exact ⟨x, hs, hl, ih hr⟩

theorem append (h : Row o p m os a b) (h' : Row o p m os' b c) : Row o p m (os ++ os') a c := by
  induction os generalizing a with
  | nil => exact h'.after h
  | cons op os ih =>
    obtain ⟨x, hs, hl, hr⟩ := h
    exact ⟨x, hs, hl, ih hr⟩

end Row

theorem Ty.held_of_not_isPrimitive (h : t.isPrimitive = false) : t.held = .val t := if_neg (by simp [h])

theorem row_box (h : t.isPrimitive = true ∨ k = .val t) :
    Row o p m (box t) ⟨.known k :: cs, τ, none⟩ ⟨.known (.val t) :: cs, τ, none⟩ := by
  cases t with
  | int => exact Row.single rfl (leads_box .integerValueOf (.inl ⟨rfl, rfl⟩))
  | bool => exact Row.single rfl (leads_box .booleanValueOf (.inr ⟨rfl, rfl⟩))
  | _ =>
    obtain rfl := h.resolve_left (by simp [Ty.isPrimitive])
    exact .nil _

theorem row_unbox : Row o p m (unbox t) ⟨.known (.val t) :: cs, τ, none⟩ ⟨.known t.held :: cs, τ, none⟩ := by
  cases t with
  | int => exact Row.single rfl (leads_unbox .intValue (t := .int) (.inl ⟨rfl, rfl⟩))
  | bool => exact Row.single rfl (leads_unbox .booleanValue (t := .bool) (.inr ⟨rfl, rfl⟩))
  | _ => exact .nil _

theorem Installed.row_narrow (hi : Installed o p files) (ht : t.Solid p.hasClass) : Row o p (Machine.load files)
    (narrow t) ⟨.known (.val t) :: cs, τ, none⟩ ⟨.known t.held :: cs, τ, none⟩ := by
  have hcast : (Op.cast t.classRef).Leads o p (Machine.load files) ⟨.known (.val t) :: cs, τ, none⟩
      ⟨.known (.val t) :: cs, τ, none⟩ := leads_cast hi.files hi.names ht
  cases t with
  | null | noType => exact ht.elim
  | void => exact .nil _
  | _ => exact .cons rfl hcast row_unbox

theorem row_newArrayList : Row o p m newArrayList ⟨cs, τ, none⟩ ⟨.adds [] :: cs, τ, none⟩ :=
  .cons rfl leads_newArrayList (.cons rfl leads_dup (.single rfl leads_initArrayList))

theorem row_addElement :
    Row o p m addElement ⟨.known (.val t) :: .again :: .adds ts :: cs, τ, none⟩ ⟨.adds (ts ++ [t]) :: cs, τ, none⟩ :=
  .cons rfl leads_add (.single rfl leads_pop)

theorem Installed.row_castElement (hi : Installed o p files) (ht : t.Solid p.hasClass) : Row o p (Machine.load files)
    (castElement t) ⟨.known (.val t) :: cs, τ, none⟩ ⟨.known (.val t) :: cs, τ, none⟩ := by
  unfold castElement
  split
  · exact .nil _
  · exact .single rfl (leads_cast hi.files hi.names ht)

/-- The result of a call of a bound method is narrowed to its type. -/
theorem Installed.row_call (hi : Installed o p files) {ps : List Ty} {r : Ty} (hts : List.Forall₂ Ty.Below ts ps)
    (hr : r.Solid p.hasClass) : Row o p (Machine.load files)
    (.invokeVirtual NativeMethod.invoke.ref :: Context.callResultOps (.fptr ps r))
    ⟨.adds ts :: .known (.val (.fptr ps r)) :: cs, τ, none⟩
    ⟨.known (if r.isVoid then Ty.noType else r).held :: cs, τ, none⟩ := by
  refine .cons rfl (hi.leads_invoke hts) ?_
  simp only [Context.callResultOps]
  split
  · exact Facts.Entails.top fun _ _ _ => trivial
  · exact hi.row_narrow hr

theorem leads_index : i.op.Leads o p m ⟨cs, τ, none⟩ ⟨i.cell :: cs, τ, none⟩ := by
  cases i with
  | const j => exact leads_pushInt j
  | slot n => exact leads_load n

theorem Index.isStraight_op (i : Index) : i.op.isStraight = true := by cases i <;> rfl

theorem Facts.Entails.index (i : Index) {note : Option Note} :
    Facts.Entails p ⟨i.cell :: cs, τ, note⟩ ⟨.known (i.fact τ) :: cs, τ, none⟩ := by
  cases i with
  | const j => exact .forget
  | slot n => exact .slot

/-- A slot that is loaded holds what is known of it. -/
theorem leads_load_known {kind : SlotKind} (hτ : τ n = k) :
    (Op.load kind n).Leads o p m ⟨cs, τ, none⟩ ⟨.known k :: cs, τ, none⟩ := hτ ▸ (leads_load n).before .slot

/-- The number on the stack is changed; the old number or the new one is kept in a slot of which nothing is known. -/
theorem row_changeBy (delta : Int) (isPre : Bool) (hn : 0 < n) (hcs : Cell.slot n ∉ cs) (hτ : τ n = .any) :
    Row o p m (changeBy delta isPre n) ⟨.known .any :: cs, τ, none⟩ ⟨.known .any :: cs, τ, none⟩ := by
  have hkeep : Row o p m [Op.dup, Op.store .int (n : Int)] ⟨.known .any :: cs, τ, none⟩ ⟨.known .any :: cs, τ, none⟩ :=
    .cons rfl (leads_dup.before .again) (.single rfl (leads_store_known hn (by simpa using hcs) hτ))
  have hadd : Row o p m [Op.pushInt delta, Op.arith .add] ⟨.known .any :: cs, τ, none⟩ ⟨.known .any :: cs, τ, none⟩ :=
    .cons rfl (leads_pushInt delta) (.single rfl (leads_arith .add))
  unfold changeBy
  split
  · exact hadd.append hkeep
  · exact hkeep.append hadd

theorem row_changeVariable (op : UnOp) (hn : 0 < n) (hcs : Cell.slot n ∉ cs) (hτ : τ n = .val .int) :
    Row o p m (changeVariable n op) ⟨cs, τ, none⟩ ⟨.known .any :: cs, τ, none⟩ := by
  unfold changeVariable
  refine .cons rfl (leads_load_known hτ) (.append (.append (.append (row_unbox (t := .int)) ?_)
    (row_box (k := .any) (t := .int) (.inl rfl))) (.single rfl (leads_store_known hn (by simpa using hcs) hτ)))
  split
  · exact .cons rfl (leads_pushInt _) (.cons rfl (leads_arith .add) (.single rfl (leads_dup.before .again)))
  · exact .cons rfl (leads_dup.before .again) (.cons rfl (leads_pushInt _) (.single rfl (leads_arith .add)))

/-- The element of a list that is kept in a slot is changed. -/
theorem Installed.row_changeElement (hi : Installed o p files) (op : UnOp) {list val : Nat}
    (hlist : τ list = .val (.list es)) (hpick : (i.fact τ).Picks es .int) (hv : 0 < val) (hcs : Cell.slot val ∉ cs)
    (hval : τ val = .any) : Row o p (Machine.load files) (changeElement list val i.op op) ⟨cs, τ, none⟩
      ⟨.known .any :: cs, τ, none⟩ := by
  have helement : ∀ cs, Row o p (Machine.load files) [Op.load .ref (list : Int), i.op] ⟨cs, τ, none⟩
      ⟨.known (i.fact τ) :: .known (.val (.list es)) :: cs, τ, none⟩ := fun cs =>
    .cons rfl (leads_load_known hlist) (.single i.isStraight_op (leads_index.before (.index i)))
  unfold changeElement
  refine .append (.append (.append (.append (.append (helement cs) (helement _)) (.cons rfl (leads_getElement hpick)
    (hi.row_narrow (t := .int) trivial))) (row_changeBy _ _ hv (by simpa using hcs) hval))
    (row_box (k := .any) (t := .int) (.inl rfl))) (.cons rfl (leads_setElement hpick) (.single rfl (leads_load_known hval)))

/-- A field of the object that is kept in a slot is changed. -/
theorem row_changeField (op : UnOp) {obj val : Nat} {cls : String} {field : MemberRef} {x : VarDecl}
    (hobj : τ obj = .val (.cls cls)) (hx : p.OwnField cls field.name x) (hxt : x.type = .int) (hv : 0 < val)
    (hcs : Cell.slot val ∉ cs) (hval : τ val = .any) :
    Row o p m (changeField obj val field op) ⟨cs, τ, none⟩ ⟨.known .any :: cs, τ, none⟩ := by
  have hobject : ∀ cs, (Op.load .ref (obj : Int)).Leads o p m ⟨cs, τ, none⟩ ⟨.known (.val (.cls cls)) :: cs, τ, none⟩ :=
    fun cs => leads_load_known hobj
  have hget : ∀ cs, (Op.getField field).Leads o p m ⟨.known (.val (.cls cls)) :: cs, τ, none⟩
      ⟨.known (.val .int) :: cs, τ, none⟩ := fun cs => hxt ▸ leads_getField hx
  have hput : (Op.putField field).Leads o p m ⟨.known (.val .int) :: .known (.val (.cls cls)) :: cs, τ, none⟩
      ⟨cs, τ, none⟩ := leads_putField hx (hxt ▸ .refl _)
  unfold changeField
  exact .append (.append (.append (.append (.cons rfl (hobject _) (.cons rfl (hobject _) (.single rfl (hget _))))
    (row_unbox (t := .int))) (row_changeBy _ _ hv (by simpa using hcs) hval))
    (row_box (k := .any) (t := .int) (.inl rfl))) (.cons rfl hput (.single rfl (leads_load_known hval)))

/-- What stands below a value that is copied: the new list, twice. -/
def Cell.copied (t u : Ty) : List Cell := if t.isList && u.isList then [.again, .known (.val u)] else []

theorem Cell.copied_of_copyBegin (h : copyBegin t u = []) : Cell.copied t u = [] := by
  unfold copyBegin at h
  unfold copied
  split <;> simp_all

theorem copyBegin_of_copyEnd (h : copyEnd t u = []) : copyBegin t u = [] := by
  unfold copyEnd at h
  unfold copyBegin
  split <;> simp_all

theorem Ty.exists_list_of_isList (h : u.isList = true) : ∃ es, u = .list es := by
  cases u <;> simp_all [isList]

theorem row_copyBegin : Row o p m (copyBegin t u) ⟨cs, τ, none⟩ ⟨Cell.copied t u ++ cs, τ, none⟩ := by
  unfold copyBegin Cell.copied
  split
  · next h =>
    obtain ⟨es, rfl⟩ := Ty.exists_list_of_isList (Bool.and_eq_true_iff.1 h).2
    exact .cons rfl (leads_newList es) (.single rfl leads_dup)
  · exact .nil _

theorem row_copyEnd (hk : u.isPrimitive = true ∨ k = .val u) :
    Row o p m (copyEnd t u) ⟨.known k :: (Cell.copied t u ++ cs), τ, none⟩ ⟨.known k :: cs, τ, none⟩ := by
  unfold copyEnd Cell.copied
  split
  · next h =>
    obtain ⟨es, rfl⟩ := Ty.exists_list_of_isList (Bool.and_eq_true_iff.1 h).2
    obtain rfl := hk.resolve_left (by simp [Ty.isPrimitive])
    exact .single rfl (leads_listCopy rfl)
  · exact .nil _

theorem Fact.Picks.congr (h : k.Picks es t) (ht : t.unnamed = u.unnamed) : k.Picks es u := by
  obtain hall | ⟨i, e, hi, hk, he, het⟩ := h
  · exact .inl fun e he => (hall e he).trans ht
  · exact .inr ⟨i, e, hi, hk, he, het.trans ht⟩

/-- Null stands only for what can be null, and other values for what differs in names only. -/
theorem Ty.Below.cases {hasClass : String → Bool} (h : u.Below t) (ht : t.Solid hasClass) :
    u = .null ∧ t.isNullable = true ∨ u.isNull = false ∧ u.unnamed = t.unnamed := by
  obtain h | h := h
  · refine .inr ⟨?_, h⟩
    cases u <;> cases t <;> simp_all [Ty.isNull, Ty.unnamed, Ty.Solid]
  · exact .inl h

theorem row_narrow_null (ht : t.isNullable = true) : Row o p m (narrow t) ⟨.known (.val .null) :: cs, τ, none⟩
    ⟨.known (.val .null) :: cs, τ, none⟩ := by
  cases t with
  | cls c => exact .single rfl (leads_cast_null _)
  | fptr ps r => exact .single rfl (leads_cast_null _)
  | null => exact .nil _
  | _ => simp [Ty.isNullable] at ht

theorem Installed.row_storeElementOps (hi : Installed o p files) (hb : u.Below t) (ht : t.Solid p.hasClass)
    (hu : u = .null ∨ u.Solid p.hasClass) (hpick : (i.fact τ).Picks es t) (hk : u.isPrimitive = true ∨ k = .val u) :
    Row o p (Machine.load files) (storeElementOps t u i.op)
      ⟨.known k :: i.cell :: .again :: .known (.val (.list es)) :: cs, τ, none⟩ ⟨.known u.held :: cs, τ, none⟩ := by
  have hstore : Row o p (Machine.load files)
      [Op.invokeVirtual NativeMethod.setElement.ref, i.op, .invokeVirtual NativeMethod.getElement.ref]
      ⟨.known (.val u) :: i.cell :: .again :: .known (.val (.list es)) :: cs, τ, none⟩
      ⟨.known (.val u) :: cs, τ, none⟩ := by
    obtain ⟨rfl, hn⟩ | ⟨-, hn⟩ := hb.cases ht
    · exact .cons rfl (leads_setElement_null hpick hn) (.cons i.isStraight_op leads_index_null (.single rfl leads_getElement_null))
    · have hpick := hpick.congr hn.symm
      have hstart : Facts.Entails p ⟨.known (.val u) :: i.cell :: .again :: .known (.val (.list es)) :: cs, τ, none⟩
          ⟨.known (.val u) :: .known (i.fact τ) :: .known (.val (.list es)) :: .known (.val (.list es)) :: cs, τ, none⟩ :=
        ((Facts.Entails.index i).trans (Facts.Entails.again.push _)).push _
      exact .cons rfl ((leads_setElement hpick).after hstart) (.cons i.isStraight_op (leads_index.before (.index i))
        (.single rfl (leads_getElement hpick)))
  have hnarrow : Row o p (Machine.load files) (narrow (if u.isNull then t else u)) ⟨.known (.val u) :: cs, τ, none⟩
      ⟨.known u.held :: cs, τ, none⟩ := by
    obtain ⟨rfl, hn⟩ | ⟨hne, -⟩ := hb.cases ht
    · exact row_narrow_null hn
    · rw [if_neg (by simp [hne])]
      exact hi.row_narrow (hu.resolve_left fun h => by simp [h, Ty.isNull] at hne)
  exact .append (.append (row_box hk) hstore) hnarrow

theorem row_unbox_congr (h : u.unnamed = t.unnamed) :
    Row o p m (unbox t) ⟨.known (.val u) :: cs, τ, none⟩ ⟨.known u.held :: cs, τ, none⟩ := by
  have hsame : unbox t = unbox u := by cases t <;> cases u <;> simp_all [unbox, Ty.unnamed]
  exact hsame ▸ row_unbox

theorem row_storeField {cls : String} {field : MemberRef} {x : VarDecl} (hx : p.OwnField cls field.name x)
    (hxt : x.type = t) (hb : u.Below t) (ht : t.Solid p.hasClass) (hk : u.isPrimitive = true ∨ k = .val u) :
    Row o p m (storeField t u field) ⟨.known k :: .again :: .known (.val (.cls cls)) :: cs, τ, none⟩
      ⟨.known u.held :: cs, τ, none⟩ := by
  subst hxt
  have hstore : Row o p m [Op.putField field, .getField field]
      ⟨.known (.val u) :: .again :: .known (.val (.cls cls)) :: cs, τ, none⟩ ⟨.known (.val u) :: cs, τ, none⟩ := by
    obtain ⟨rfl, hn⟩ | ⟨-, hn⟩ := hb.cases ht
    · exact .cons rfl (leads_putField_null hx hn) (.single rfl (leads_getField_null rfl))
    · exact .cons rfl ((leads_putField hx hb).after (Facts.Entails.again.push _))
        (.single rfl ((leads_getField hx).before (.top (Fact.implies_of_below (.inl hn.symm)))))
  have hunbox : Row o p m (unbox x.type) ⟨.known (.val u) :: cs, τ, none⟩ ⟨.known u.held :: cs, τ, none⟩ := by
    obtain ⟨rfl, hn⟩ | ⟨-, hn⟩ := hb.cases ht
    · have hnone : unbox x.type = [] := by cases hxt : x.type <;> simp_all [Ty.isNullable, unbox]
      rw [hnone]
      exact .nil _
    · exact row_unbox_congr hn
  exact .append (.append (row_box hk) hstore) hunbox

mutual

/-- The value that a variable starts with is of its type. -/
theorem row_defaultValue (t : Ty) (cs : List Cell) :
    Row o p m (defaultValue t) ⟨cs, τ, none⟩ ⟨.known (.val t) :: cs, τ, none⟩ := by
  have hnull : ∀ t : Ty, (∀ w : TypedHeap, w.Fits p t .null) → Row o p m [Op.pushNull] ⟨cs, τ, none⟩
      ⟨.known (.val t) :: cs, τ, none⟩ := fun t ht => .single rfl (leads_pushNull.before (.top (Fact.implies_of_is ht)))
  match t with
  | .int => exact .cons rfl (leads_pushInt 0) (row_box (t := .int) (.inl rfl))
  | .bool => exact .cons rfl (leads_pushInt 0) (row_box (t := .bool) (.inl rfl))
  | .string => exact .single rfl ((leads_pushString "").before (.top (Fact.implies_of_is fun _ => ⟨"", rfl⟩)))
  | .null => exact hnull _ fun _ => rfl
  | .void => exact hnull _ fun _ => rfl
  | .noType => exact hnull _ fun _ => trivial
  | .cls _ => exact hnull _ fun _ => .inl rfl
  | .fptr _ _ => exact hnull _ fun _ => .inl rfl
  | .list es =>
    refine .append (.append (.append (.cons rfl (leads_newList es) (.single rfl leads_dup)) row_newArrayList)
      (row_defaultElements es [] _)) (.single rfl (leads_listOfArrayList ?_))
    exact List.forall₂_same.2 fun t _ => .refl t

theorem row_defaultElements (es : List (String × Ty)) (ts : List Ty) (cs : List Cell) : Row o p m (defaultElements es)
    ⟨.adds ts :: cs, τ, none⟩ ⟨.adds (ts ++ es.map Prod.snd) :: cs, τ, none⟩ := by
  match es with
  | [] =>
    simp only [defaultElements, List.map_nil, List.append_nil]
    exact .nil _
  | (_, t) :: es =>
    have hrest := row_defaultElements es (ts ++ [t]) cs
    rw [List.append_assoc] at hrest
    exact .append (.append (.cons rfl leads_dup (row_defaultValue t _)) row_addElement) hrest

end

end

end ClassCompiler
