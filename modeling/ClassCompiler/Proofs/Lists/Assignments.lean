import ClassCompiler.Proofs.Machine.Ends

namespace ClassCompiler

/-- Which value of an object: an element of a list or a field of an instance. -/
inductive Key where
  | index (i : Nat)
  | name (s : String)

theorem lookup_setFieldValue (fields : List (String × Value)) (name : String) (v : Value) :
    (setFieldValue fields name v).lookup name = some v := by
  induction fields with
  | nil => simp [setFieldValue]
  | cons f fs ih =>
    obtain ⟨n, w⟩ := f
    unfold setFieldValue
    split
    · next hn => simp [hn]
    · next hn =>
      rw [List.lookup_cons, beq_eq_false_iff_ne.2 (Ne.symm hn)]
      exact ih

theorem lookup_setFieldValue_ne {name other : String} (h : name ≠ other) (fields : List (String × Value)) (v : Value) :
    (setFieldValue fields name v).lookup other = fields.lookup other := by
  induction fields with
  | nil => simp [setFieldValue, List.lookup_cons, beq_eq_false_iff_ne.2 (Ne.symm h)]
  | cons f fs ih =>
    obtain ⟨n, w⟩ := f
    unfold setFieldValue
    split
    · next hn =>
      subst hn
      simp [List.lookup_cons, beq_eq_false_iff_ne.2 (Ne.symm h)]
    · rw [List.lookup_cons, List.lookup_cons, ih]

namespace Object

def get? : Object → Key → Option Value
  | .list es, .index i => es[i]?
  | .inst _ fields, .name n => fields.lookup n
  | _, _ => none

def put (v : Value) : Key → Object → Object
  | .index i, .list es => .list (es.set i v)
  | .name n, .inst cls fields => .inst cls (setFieldValue fields n v)
  | _, o => o

theorem get?_put_of_ne {k j : Key} (h : k ≠ j) (v : Value) (o : Object) : (o.put v k).get? j = o.get? j := by
  cases o with
  | list es =>
    cases k with
    | name n => rfl
    | index i =>
      cases j with
      | name n => rfl
      | index j =>
        have hij : i ≠ j := fun he => h (by rw [he])
        exact List.getElem?_set_ne hij
  | inst cls fields =>
    cases k with
    | index i => rfl
    | name n =>
      cases j with
      | index j => rfl
      | name n' =>
        have hne : n ≠ n' := fun he => h (by rw [he])
        exact lookup_setFieldValue_ne hne fields v
  | _ => cases k <;> rfl

end Object

/-- Where a value is kept: in a slot of the call or in an object. -/
inductive Location where
  | slot (n : Nat)
  | inside (obj : Nat) (key : Key)

namespace Location

def get? (c : Spot) : Location → Option Value
  | .slot n => c.locals[n]?
  | .inside a k => c.heap[a]?.bind (Object.get? · k)

def put (v : Value) (c : Spot) : Location → Spot
  | .slot n => { c with locals := c.locals.setIfInBounds n v }
  | .inside a k => { c with heap := Array.modify c.heap a (Object.put v k) }

theorem put_inside {c : Spot} {a : Nat} {o : Object} (ho : c.heap[a]? = some o) (k : Key) (v : Value) :
    ((inside a k).put v c).heap = c.heap.setIfInBounds a (o.put v k) := by
  refine Array.ext_getElem? fun i => ?_
  simp only [put, Array.getElem?_modify, Array.getElem?_setIfInBounds]
  split
  · next hi =>
    subst hi
    rw [ho, if_pos (Array.getElem?_eq_some_iff.1 ho).1]
    rfl
  · rfl

theorem get?_put_of_ne {p q : Location} (h : p ≠ q) (v : Value) (c : Spot) : q.get? (p.put v c) = q.get? c := by
  cases p with
  | slot n =>
    cases q with
    | inside b j => rfl
    | slot k => exact Array.getElem?_setIfInBounds_ne fun he => h (by rw [he])
  | inside a k =>
    cases q with
    | slot n => rfl
    | inside b j =>
      simp only [get?, put, Array.getElem?_modify]
      split
      · next hab =>
        subst hab
        have hkj : k ≠ j := fun he => h (by rw [he])
        cases c.heap[a]? with
        | none => rfl
        | some o => exact Object.get?_put_of_ne hkj v o
      · rfl

/-- The place that an expression names, where the value to be stored there is on the stack: the list and the
index, or the object, are below it. -/
inductive Named (ctx : Context) (c : Spot) : Expr → Location → Prop
  | ident {id : Ident} {sym : Symbol} (hs : ctx.method.symbol? id.name = some sym) :
    Named ctx c (.ident id) (.slot sym.slot)
  | index {t : Token} {x i : Expr} {v n : Value} {a k : Nat} {below : List Value}
      (hc : c.stack = v :: n :: .ref a :: below) (hk : n.toInt32.toInt = k) :
    Named ctx c (.index t x i) (.inside a (.index k))
  | position {t : Token} {x : Expr} {id : Ident} {es : List (String × Ty)} {v n : Value} {a k : Nat}
      {below : List Value} (ht : ctx.typeOf x = .list es) (hc : c.stack = v :: n :: .ref a :: below)
      (hk : n.toInt32.toInt = k) : Named ctx c (.member t x id) (.inside a (.index k))
  | field {t : Token} {x : Expr} {id : Ident} {cls : String} {v : Value} {a : Nat} {below : List Value}
      (ht : ctx.typeOf x = .cls cls) (hc : c.stack = v :: .ref a :: below) :
    Named ctx c (.member t x id) (.inside a (.name id.name))

end Location

theorem box_of_isPrimitive {t : Ty} (h : t.isPrimitive = false) : box t = [] := by
  cases t <;> simp_all [Ty.isPrimitive, box]

theorem unbox_of_isPrimitive {t : Ty} (h : t.isPrimitive = false) : unbox t = [] := by
  cases t <;> simp_all [Ty.isPrimitive, unbox]

theorem narrow_of_isPrimitive {t : Ty} (h : t.isPrimitive = false) : narrow t = [] ∨ narrow t = [.cast t.classRef] := by
  cases t <;> simp_all [Ty.isPrimitive, narrow, unbox]

/-- The place that an expression names has been found: `below` is what is kept of it on the stack, and `post`
is the code that stores a value there. -/
inductive Aimed (ctx : Context) (left right : Ty) (own : Int → Prop) (c : Spot) : Expr → List Value → List Instr → Prop
  | ident {id : Ident} {sym : Symbol} {line : Int} (hs : ctx.method.symbol? id.name = some sym) :
    Aimed ctx left right own c (.ident id) [] (onLine line (.dup :: box right ++ [.store .ref sym.slot]))
  | index {t : Token} {x i : Expr} {line : Int} {temp : Nat} {n w : Value} (hn : c.locals[temp]? = some n)
      (htemp : ¬own temp) : Aimed ctx left right own c (.index t x i) [n, w, w]
        (onLine line (storeElementOps left right (.load .int temp)))
  | position {t : Token} {x : Expr} {id : Ident} {es : List (String × Ty)} {line i : Int} {w : Value}
      (ht : ctx.typeOf x = .list es) : Aimed ctx left right own c (.member t x id) [.int (Int32.ofInt i), w, w]
        (onLine line (storeElementOps left right (.pushInt i)))
  | field {t : Token} {x : Expr} {id : Ident} {cls owner desc : String} {line : Int} {w : Value}
      (ht : ctx.typeOf x = .cls cls) : Aimed ctx left right own c (.member t x id) [w, w]
        (onLine line (storeField left right ⟨owner, id.name, desc⟩))

namespace Ends

variable {m : Machine} {mc : MethodCode} {callers : Outer} {stop : Nat} {Q : Spot → State → Prop}
  {rest : List Instr} {c : Spot} {s : State} {D : Set Nat} {ctx : Context}

/-- The code of an assignment up to that of the value. -/
theorem aim {t : Token} {l r : Expr} {q q' : Supply} {code : List Instr} {sp : List Span}
    (he : Emits ctx (.expr (.binary t .assign l r)) q code q' sp)
    (hclean : (Piece.expr (.binary t .assign l r)).Clean ctx)
    (hn : ∀ cls, argCount (ctx.table.constructorDescriptor cls) = (ctx.table.constructorParams cls).length)
    (hl : LabelsOnce mc.code) (hslots : ctx.method.slotCount ≤ q.slots) (hc : c.Hidden D)
    (h : ∀ c' s' more rc u u' rs post, Emits ctx (.expr r) u rc u' rs → (Piece.expr r).Clean ctx →
      q.slots ≤ u.slots → u'.slots ≤ q'.slots → c.Goes D (OwnSlot ctx.method.slotCount q q') more c' →
      Aimed ctx (ctx.typeOf l) (ctx.typeOf r) (OwnSlot ctx.method.slotCount u u') c' l more post →
      m.Passes callers.frames stop s s' →
      Ends m mc callers stop Q (onLine r.line (copyBegin (ctx.typeOf l) (ctx.typeOf r)) ++
        (rc ++ (onLine r.line (copyEnd (ctx.typeOf l) (ctx.typeOf r)) ++ (post ++ rest)))) c' s') :
    Ends m mc callers stop Q (code ++ rest) c s := by
  cases he with
  | intro hr hp hcode hg =>
  subst hcode
  have hparts := Parts.iff_forall_mem.2 hp
  have hcleans := hr.clean hclean
  have hmono := Parts.iff_forall_mem.2 fun q t c t' sp hm => (hp q t c t' sp hm).slots_mono
  cases hr with
  | assignIdent hs =>
    simp at hparts hcleans hmono
    have haim := h c s [] _ _ _ _ (onLine t.pos.line _) hparts hcleans (Nat.le_refl _) (Nat.le_refl _) (.refl hc)
      (.ident hs) .refl
    simpa [codeOf_cons, Item.code] using haim
  | @assignIndex _ _ _ _ _ _ s₁ _ _ _ s₂ _ _ _ _ _ hl' =>
    subst hl'
    simp at hparts hcleans hmono
    obtain ⟨hx, hi, hrc⟩ := hparts
    simp only [codeOf_cons, codeOf_nil, Item.code, onLine_cons, onLine_nil, List.append_assoc, List.cons_append,
      List.nil_append]
    refine .part hx hcleans.1 hn hl hc (.anyhow _) fun d₁ v s₁' hg₁ _ hp₁ => ?_
    have hg₁ := hg₁.mono fun i hi => hi.mono (Nat.le_refl _) (show s₁.slots ≤ q'.slots by omega)
    refine .dup hg₁.stack fun s₂' hp₂ => ?_
    have hv := hg₁.clear v (by simp)
    have hg₂ := hg₁.next (show ∀ w ∈ [v, v], w.Clear D d₁.heap.size by simpa using hv)
    refine .part hi hcleans.2.1 hn hl hg₂.hidden (.anyhow _) fun d₃ n s₃' hg₃ _ hp₃ => ?_
    have hg₃ := hg₂.trans (hg₃.mono fun i hi => hi.mono hmono.1 (show s₂.slots ≤ q'.slots by omega))
    refine .dup hg₃.stack fun s₄' hp₄ => ?_
    have hg₄ := hg₃.next (show ∀ w ∈ [n, n, v, v], w.Clear D d₃.heap.size by simpa using hg₃.clear)
    have hown : OwnSlot ctx.method.slotCount q q' s₂.slots := by
      unfold OwnSlot
      omega
    refine .store rfl fun s₅' htemp hp₅ => ?_
    have hg₅ := hg₄.store hown
    -- The code of the value may use slots of its own, so the index has to sit in one that it does not reach.
    have htemp : ({ d₃.next ([n, v, v] ++ c.stack) with
        locals := d₃.locals.setIfInBounds s₂.slots n } : Spot).locals[s₂.slots]? = some n := by
      rw [Array.getElem?_setIfInBounds_self]
      exact if_pos htemp
    have hnot : ¬OwnSlot ctx.method.slotCount (s₂.take 0 1) q' (s₂.slots : Nat) := by
      unfold OwnSlot
      simp only [Supply.take_slots]
      omega
    exact h _ s₅' _ _ _ _ _ _ hrc hcleans.2.2 (by simp only [Supply.take_slots]; omega) (Nat.le_refl _) hg₅
      (.index htemp hnot) (((((hp₁.trans hp₂).trans hp₃).trans hp₄)).trans hp₅)
  | @assignElement _ _ _ k _ _ _ _ s₁ _ _ _ _ _ _ hl' ht hi =>
    subst hl'
    simp at hparts hcleans hmono
    obtain ⟨hx, hrc⟩ := hparts
    simp only [codeOf_cons, codeOf_nil, Item.code, onLine_cons, onLine_nil, List.append_assoc, List.cons_append,
      List.nil_append]
    refine .part hx hcleans.1 hn hl hc (.anyhow _) fun d₁ v s₁' hg₁ _ hp₁ => ?_
    have hg₁ := hg₁.mono fun i hi => hi.mono (Nat.le_refl _) hmono.2
    refine .dup hg₁.stack fun s₂' hp₂ => ?_
    have hg₂ := hg₁.next (show ∀ w ∈ [v, v], w.Clear D d₁.heap.size by simpa using hg₁.clear)
    refine .pushInt fun s₃' hp₃ => ?_
    have hg₃ := hg₂.next (show ∀ w ∈ [.int (Int32.ofInt k), v, v], w.Clear D d₁.heap.size by simpa using hg₁.clear)
    exact h _ s₃' _ _ _ _ _ _ hrc hcleans.2 hmono.1 (Nat.le_refl _) hg₃ (.position ht) ((hp₁.trans hp₂).trans hp₃)
  | @assignField _ _ _ _ _ _ _ _ _ s₁ _ _ _ _ _ _ hl' ht hf =>
    subst hl'
    simp at hparts hcleans hmono
    obtain ⟨hx, hrc⟩ := hparts
    simp only [codeOf_cons, codeOf_nil, Item.code, onLine_cons, onLine_nil, List.append_assoc, List.cons_append,
      List.nil_append]
    refine .part hx hcleans.1 hn hl hc (.anyhow _) fun d₁ v s₁' hg₁ _ hp₁ => ?_
    have hg₁ := hg₁.mono fun i hi => hi.mono (Nat.le_refl _) hmono.2
    refine .dup hg₁.stack fun s₂' hp₂ => ?_
    have hg₂ := hg₁.next (show ∀ w ∈ [v, v], w.Clear D d₁.heap.size by simpa using hg₁.clear)
    exact h _ s₂' _ _ _ _ _ _ hrc hcleans.2 hmono.1 (Nat.le_refl _) hg₂ (.field ht) (hp₁.trans hp₂)
  | logical ho => simp [BinOp.shortcut?] at ho
  | arith ho => simp [BinOp.arith?] at ho
  | compare ho => simp [BinOp.isComparison] at ho

theorem getElement {n w : Value} {vs : List Value} {line : Int} (hs : c.stack = n :: w :: vs)
    (h : ∀ a es (k : Nat) v s', w = .ref a → c.heap[a]? = some (.list es) → n.toInt32.toInt = k → es[k]? = some v →
      m.Passes callers.frames stop s s' → Ends m mc callers stop Q rest (c.next (v :: vs)) s') :
    Ends m mc callers stop Q (⟨.invokeVirtual NativeMethod.getElement.ref, line⟩ :: rest) c s := by
  refine .op (.getElement hs (fun _ => trivial) (fun _ _ => trivial) (fun _ _ _ => trivial) fun _ => trivial) ?_ ?_
  · rintro _ ⟨_, _, _, _, _, _, _, _, rfl⟩
    rfl
  · rintro _ s' ⟨a, es, k, x, hw, ho, hk, hx, rfl⟩ hp
    exact h a es k x s' hw ho hk hx hp

theorem setElement {v n w : Value} {vs : List Value} {line : Int} (hs : c.stack = v :: n :: w :: vs)
    (h : ∀ a es (k : Nat) s', w = .ref a → c.heap[a]? = some (.list es) → n.toInt32.toInt = k → k < es.length →
      m.Passes callers.frames stop s s' → Ends m mc callers stop Q rest
        { c.next vs with heap := c.heap.setIfInBounds a (.list (es.set k v)) } s') :
    Ends m mc callers stop Q (⟨.invokeVirtual NativeMethod.setElement.ref, line⟩ :: rest) c s := by
  refine .op (.setElement hs (fun _ => trivial) (fun _ _ => trivial) (fun _ _ _ => trivial) fun _ => trivial) ?_ ?_
  · rintro _ ⟨_, _, _, _, _, _, _, rfl⟩
    rfl
  · rintro _ s' ⟨a, es, k, hw, ho, hk, hlt, rfl⟩ hp
    exact h a es k s' hw ho hk hlt hp

theorem narrow {t : Ty} {line : Int} (ht : t.isPrimitive = false)
    (h : ∀ d s', d.stack = c.stack → d.locals = c.locals → d.heap = c.heap → m.Passes callers.frames stop s s' →
      Ends m mc callers stop Q rest d s') :
    Ends m mc callers stop Q (onLine line (ClassCompiler.narrow t) ++ rest) c s := by
  rcases narrow_of_isPrimitive ht with ht | ht
  · rw [ht]
    exact h c s rfl rfl rfl .refl
  · rw [ht]
    exact .cast fun s' hp => h _ s' rfl rfl rfl hp

/-- A value is stored into a list, and read back; the index is still known. -/
theorem storeElement {v n w : Value} {vs : List Value} {left right : Ty} {index : Op} {line : Int}
    (hs : c.stack = v :: n :: w :: w :: vs) (hleft : left.isPrimitive = false) (hright : right.isPrimitive = false)
    (hindex : ∀ {is e s'}, e.locals = c.locals → (∀ s'', m.Passes callers.frames stop s' s'' →
      Ends m mc callers stop Q is (e.next (n :: e.stack)) s'') → Ends m mc callers stop Q (⟨index, line⟩ :: is) e s')
    (h : ∀ d s' a k, w = .ref a → n.toInt32.toInt = (k : Nat) → d.stack = v :: vs →
      d.locals = ((Location.inside a (.index k)).put v c).locals → d.heap = ((Location.inside a (.index k)).put v c).heap →
      (Location.inside a (.index k)).get? d = some v → m.Passes callers.frames stop s s' →
      Ends m mc callers stop Q rest d s') :
    Ends m mc callers stop Q (onLine line (storeElementOps left right index) ++ rest) c s := by
  have hread : Ty.isPrimitive (if right.isNull then left else right) = false := by split <;> assumption
  simp only [storeElementOps, box_of_isPrimitive hright, onLine_cons, List.cons_append, List.nil_append]
  refine .setElement hs fun a es k s₁ hw ho hk hlt hp₁ => ?_
  have hget : (c.heap.setIfInBounds a (.list (es.set k v)))[a]? = some (.list (es.set k v)) := by
    rw [Array.getElem?_setIfInBounds_self, if_pos (Array.getElem?_eq_some_iff.1 ho).1]
  refine hindex rfl fun s₂ hp₂ => .getElement rfl fun a' es' k' v' s₃ hw' ho' hk' hv' hp₃ => ?_
  obtain rfl := Value.ref.inj (hw.symm.trans hw')
  obtain rfl := Object.list.inj (Option.some.inj (hget.symm.trans ho'))
  obtain rfl : k = k' := by omega
  obtain rfl : v = v' := by simpa [List.getElem?_set_self hlt] using hv'
  refine .narrow hread fun d s₄ hd hl hh hp₄ => ?_
  refine h d s₄ a k hw hk hd hl (hh.trans (Location.put_inside ho (.index k) v).symm) ?_
    (((hp₁.trans hp₂).trans hp₃).trans hp₄)
  have hheap : d.heap[a]? = some (.list (es.set k v)) := by
    rw [hh]
    exact hget
  simp [Location.get?, hheap, Object.get?, List.getElem?_set_self hlt]

/-- A value is stored in the place that was found. -/
theorem put {l : Expr} {more below : List Value} {post : List Instr} {left right : Ty} {own : Int → Prop}
    {c' : Spot} {v : Value} (ha : Aimed ctx left right own c' l more post) (hs : c.stack = v :: more ++ below)
    (hsame : ∀ i : Nat, ¬own i → c.locals[i]? = c'.locals[i]?) (hleft : left.isPrimitive = false)
    (hright : right.isPrimitive = false)
    (h : ∀ d s' p, Location.Named ctx c l p → d.stack = v :: below → d.locals = (p.put v c).locals →
      d.heap = (p.put v c).heap → p.get? d = some v → m.Passes callers.frames stop s s' →
      Ends m mc callers stop Q rest d s') : Ends m mc callers stop Q (post ++ rest) c s := by
  cases ha with
  | ident hsym =>
    simp only [box_of_isPrimitive hright, onLine_cons, onLine_nil, List.cons_append, List.nil_append] at hs ⊢
    refine .dup hs fun s₁ hp₁ => .store rfl fun s₂ hn hp₂ => ?_
    refine h _ s₂ (.slot _) (.ident hsym) rfl rfl rfl ?_ (hp₁.trans hp₂)
    rw [Location.get?, Array.getElem?_setIfInBounds_self]
    exact if_pos hn
  | @index _ _ _ _ temp n w hn htemp =>
    refine .storeElement hs hleft hright (fun he hk => .load fun x s'' hx hp => ?_)
      fun d s' a k hw hk hd hl hh hg hp => ?_
    · obtain rfl : n = x := by
        rw [he, hsame temp htemp, hn] at hx
        exact Option.some.inj hx
      exact hk s'' hp
    · subst hw
      exact h d s' _ (.index hs hk) hd hl hh hg hp
  | position ht =>
    refine .storeElement hs hleft hright (fun he hk => .pushInt fun s'' hp => hk s'' hp)
      fun d s' a k hw hk hd hl hh hg hp => ?_
    subst hw
    exact h d s' _ (.position ht hs hk) hd hl hh hg hp
  | @field _ _ id _ _ _ _ _ ht =>
    simp only [storeField, box_of_isPrimitive hright, unbox_of_isPrimitive hleft, List.nil_append, List.append_nil,
      onLine_cons, onLine_nil, List.cons_append] at hs ⊢
    refine .putField hs fun cls fields s₁ ho hp₁ => ?_
    obtain ⟨a, rfl⟩ := Heap.ref_of_get? ho
    have hget : (c.heap.set (.ref a) (.inst cls (setFieldValue fields id.name v)))[a]? =
        some (.inst cls (setFieldValue fields id.name v)) := by
      rw [Heap.set, Array.getElem?_setIfInBounds_self, if_pos (Array.getElem?_eq_some_iff.1 ho).1]
    refine .getField rfl fun cls' fields' s₂ ho' hp₂ => ?_
    obtain ⟨rfl, rfl⟩ := Object.inst.inj (Option.some.inj (hget.symm.trans ho'))
    have hv := lookup_setFieldValue fields id.name v
    refine h _ s₂ (.inside a (.name id.name)) (.field ht hs) ?_ rfl (Location.put_inside ho (.name id.name) v).symm ?_
      (hp₁.trans hp₂)
    · simp [Spot.next, fieldValue, hv]
    · simp only [Location.get?, Spot.next, hget, Option.bind_some]
      exact hv

end Ends

end ClassCompiler
