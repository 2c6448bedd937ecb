import ClassCompiler.Proofs.Lists.Assignments
import ClassCompiler.Proofs.Machine.Construction

namespace ClassCompiler

/-- A value on the stack is of a type. Null is of all types that objects have but those of lists. -/
def Machine.Fits (m : Machine) (h : Heap) : Ty → Value → Prop
  | .int, v => ∃ n, v = .int n
  | .bool, v => ∃ b, v = .ofBool b
  | .string, v => v = .null ∨ ∃ s, v = .str s
  | .list _, v => ∃ es, h.get? v = some (.list es)
  | .fptr _ _, v => v = .null ∨ ∃ recv name, h.get? v = some (.fptr recv name)
  | .cls c, v => v = .null ∨ ∃ d fields, h.get? v = some (.inst d fields) ∧ (m.chain d).any (·.name = c)
  | _, v => v = .null

namespace Heap

/-- Where the stack has a value of a type, a place keeps another: the object that a number or a truth value is boxed
in. -/
def Boxes (h : Heap) : Ty → Value → Value → Prop
  | .int, v, w => ∃ n, v = .int n ∧ h.get? w = some (.integer n)
  | .bool, v, w => ∃ b, v = .ofBool b ∧ h.get? w = some (.boolean b)
  | _, v, w => w = v

/-- An object is like another of which only the elements or the fields differ. -/
inductive Alike : Object → Object → Prop
  | refl {o : Object} : Alike o o
  | inst {cls : String} {fields fields' : List (String × Value)} : Alike (.inst cls fields) (.inst cls fields')
  | list {es es' : List Value} : Alike (.list es) (.list es')

theorem Alike.trans {o p q : Object} (h : Alike o p) (h' : Alike p q) : Alike o q := by
  cases h <;> cases h' <;> constructor

def Retains (h h' : Heap) : Prop := ∀ v o, h.get? v = some o → ∃ o', h'.get? v = some o' ∧ Alike o o'

/-- All objects but one stay what they are; new ones may come. -/
def SameBut (copy : Option Nat) (h h' : Heap) : Prop := ∀ a o, copy ≠ some a → h[a]? = some o → h'[a]? = some o

section

variable {h h' h'' : Heap} {v w : Value} {o o' : Object} {copy : Option Nat}

theorem Grows.retains (hg : h.Grows h') : h.Retains h' := fun v o hv => ⟨o, hg v o hv, .refl⟩

theorem Retains.trans (hr : h.Retains h') (hr' : h'.Retains h'') : h.Retains h'' := fun v o hv => by
  obtain ⟨p, hp, hop⟩ := hr v o hv
  obtain ⟨q, hq, hpq⟩ := hr' v p hp
  exact ⟨q, hq, hop.trans hpq⟩

theorem Retains.set (hv : h.get? v = some o) (ho : Alike o o') : h.Retains (h.set v o') := fun w p hw => by
  by_cases hwv : w = v
  · subst hwv
    obtain rfl := Option.some.inj (hv.symm.trans hw)
    exact ⟨o', get?_set_self hv, ho⟩
  · exact ⟨p, (get?_set_ne hwv).trans hw, .refl⟩

theorem SameBut.refl : SameBut copy h h := fun _ _ _ => id

theorem Grows.sameBut (hg : h.Grows h') : SameBut copy h h' := fun a o _ => hg (.ref a) o

theorem SameBut.trans (hs : SameBut copy h h') (hs' : SameBut copy h' h'') : SameBut copy h h'' :=
  fun a o ha ho => hs' a o ha (hs a o ha ho)

theorem Boxes.retains {t : Ty} (hb : h.Boxes t v w) (hr : h.Retains h') : h'.Boxes t v w := by
  cases t with
  | int =>
    obtain ⟨n, rfl, hw⟩ := hb
    obtain ⟨o, ho, hlike⟩ := hr w _ hw
    cases hlike
    exact ⟨n, rfl, ho⟩
  | bool =>
    obtain ⟨b, rfl, hw⟩ := hb
    obtain ⟨o, ho, hlike⟩ := hr w _ hw
    cases hlike
    exact ⟨b, rfl, ho⟩
  | _ => exact hb

end

end Heap

section

variable {m : Machine} {h h' : Heap} {t : Ty} {v w : Value}

theorem Machine.Fits.retains (hv : m.Fits h t v) (hr : h.Retains h') : m.Fits h' t v := by
  cases t with
  | list _ =>
    obtain ⟨es, hv⟩ := hv
    obtain ⟨o, ho, hlike⟩ := hr v _ hv
    cases hlike <;> exact ⟨_, ho⟩
  | fptr _ _ =>
    refine hv.imp_right fun ⟨recv, name, hv⟩ => ?_
    obtain ⟨o, ho, hlike⟩ := hr v _ hv
    cases hlike
    exact ⟨recv, name, ho⟩
  | cls c =>
    refine hv.imp_right fun ⟨d, fields, hv, hc⟩ => ?_
    obtain ⟨o, ho, hlike⟩ := hr v _ hv
    cases hlike <;> exact ⟨d, _, ho, hc⟩
  | _ => exact hv

/-- What a place keeps for a value of a type can be cast to the class of the type. -/
theorem Machine.Fits.casts (hv : m.Fits h t v) (hw : h.Boxes t v w) :
    (w.isNull || w.isReference && m.isInstance h w t.classRef) = true := by
  have hinst : ∀ {o : Object} (cls : String), h.get? w = some o →
      (∀ c fs, o = .inst c fs → (m.chain c).any (·.name = cls) = true) →
      ((∀ c fs, o ≠ .inst c fs) → o.className = cls) → (w.isReference && m.isInstance h w cls) = true := by
    intro o cls ho hchain hname
    obtain ⟨a, rfl⟩ := Heap.ref_of_get? ho
    cases o <;> simp_all [Value.isReference, Machine.isInstance, Heap.className]
  cases t with
  | int =>
    obtain ⟨n, -, hw⟩ := hw
    simp [hinst Ty.int.classRef hw (by simp) fun _ => rfl]
  | bool =>
    obtain ⟨b, -, hw⟩ := hw
    simp [hinst Ty.bool.classRef hw (by simp) fun _ => rfl]
  | string =>
    obtain rfl : w = v := hw
    obtain rfl | ⟨s, rfl⟩ := hv
    · rfl
    · simp [Value.isReference, Machine.isInstance, Heap.get?, Heap.className, Ty.classRef]
  | list es =>
    obtain rfl : w = v := hw
    obtain ⟨es', hv⟩ := hv
    simp [hinst (Ty.list es).classRef hv (by simp) fun _ => rfl]
  | fptr ps r =>
    obtain rfl : w = v := hw
    obtain rfl | ⟨recv, name, hv⟩ := hv
    · rfl
    · simp [hinst (Ty.fptr ps r).classRef hv (by simp) fun _ => rfl]
  | cls c =>
    obtain rfl : w = v := hw
    obtain rfl | ⟨d, fields, hv, hc⟩ := hv
    · rfl
    · simp [hinst (Ty.cls c).classRef hv (by rintro _ _ ⟨⟩; exact hc) fun hno => absurd rfl (hno _ _)]
  | _ =>
    obtain rfl : w = v := hw
    obtain rfl : w = .null := hv
    rfl

end

/-- Why an element of a list is not there. -/
inductive NoElement (recv n : Value) (es : List Value) : Cause → Prop
  | null (h : recv = .null) : NoElement recv n es .nullReference
  | range (hne : recv ≠ .null) (h : ¬(0 ≤ n.toInt32.toInt ∧ n.toInt32.toInt < es.length)) :
    NoElement recv n es .indexOutOfRange

namespace Crosses

variable {m : Machine} {mc : MethodCode} {callers : Outer} {lo hi : Nat} {E : Spot → Cause → Prop}
  {Q : Spot → State → Prop} {rest : List Instr} {c : Spot} {s : State} {line : Int} {t : Ty} {v w : Value}
  {below : List Value} {full : Nat}

theorem box (hs : c.stack = v :: below) (hv : m.Fits c.heap t v) (hfull : mc.Full below.length → E c .stackOverflow)
    (h : ∀ d w s', d.stack = w :: below → d.locals = c.locals → c.heap.Grows d.heap → d.heap.Boxes t v w →
      Crosses m mc callers lo hi E Q rest d s') :
    Crosses m mc callers lo hi E Q (onLine line (ClassCompiler.box t) ++ rest) c s := by
  cases t with
  | int =>
    obtain ⟨n, rfl⟩ := hv
    refine .step (by simp) (.invokeStatic (n := .integerValueOf) hs hfull) rfl fun s₁ => ?_
    exact h _ _ s₁ rfl rfl (Heap.Grows.push _ _) ⟨n, rfl, Heap.get?_push _ _⟩
  | bool =>
    obtain ⟨b, rfl⟩ := hv
    refine .step (by simp) (.invokeStatic (n := .booleanValueOf) hs hfull) rfl fun s₁ => ?_
    refine h _ _ s₁ rfl rfl (Heap.Grows.push _ _) ⟨b, rfl, (Heap.get?_push _ _).trans ?_⟩
    rw [argument, List.getElem?_cons_zero, Option.getD_some, Value.toBool_ofBool]
  | _ => exact h c v s hs rfl .refl rfl

theorem unbox (hs : c.stack = w :: below) (hw : c.heap.Boxes t v w) (hfull : mc.Full below.length → E c .stackOverflow)
    (h : ∀ d s', d.stack = v :: below → d.locals = c.locals → d.heap = c.heap →
      Crosses m mc callers lo hi E Q rest d s') :
    Crosses m mc callers lo hi E Q (onLine line (ClassCompiler.unbox t) ++ rest) c s := by
  have hcall : ∀ {n : NativeMethod} {x : Value}, n.arity = 0 → n.answers = true → w.isNull = false →
      n.run m c.heap w [] = .ok (.value x c.heap "") → x = v →
      Crosses m mc callers lo hi E Q (⟨.invokeVirtual n.ref, line⟩ :: rest) c s := by
    rintro n x hn hanswers hnull hrun rfl
    refine .op (by simp) (.invokeVirtual [] hs hn.symm (fun hw => by simp [hnull] at hw) (fun _ e he => by simp [hrun] at he)
      (fun r hr => ⟨_, _, Except.ok.inj (hr.symm.trans hrun)⟩) hfull) ?_ ?_
    · rintro _ ⟨_, _, -, rfl⟩
      rfl
    · rintro _ s₁ ⟨y, heap, hy, rfl⟩
      obtain ⟨rfl, rfl, -⟩ := Reply.value.inj (Except.ok.inj (hrun.symm.trans hy))
      exact h _ s₁ (by simp [hanswers, Spot.next]) rfl rfl
  cases t with
  | int =>
    obtain ⟨n, rfl, hw⟩ := hw
    exact hcall (n := .intValue) rfl rfl (Heap.isNull_of_get? hw) (by simp only [NativeMethod.run, hw]) rfl
  | bool =>
    obtain ⟨b, rfl, hw⟩ := hw
    exact hcall (n := .booleanValue) rfl rfl (Heap.isNull_of_get? hw) (by simp only [NativeMethod.run, hw]) rfl
  | _ =>
    obtain rfl : w = v := hw
    exact h c s hs rfl rfl

/-- A value that was kept for one of a type is cast and unboxed. -/
theorem narrow (hs : c.stack = w :: below) (hv : m.Fits c.heap t v) (hw : c.heap.Boxes t v w)
    (hfull : ∀ d, mc.Full below.length → E d .stackOverflow)
    (h : ∀ d s', d.stack = v :: below → d.locals = c.locals → d.heap = c.heap →
      Crosses m mc callers lo hi E Q rest d s') :
    Crosses m mc callers lo hi E Q (onLine line (ClassCompiler.narrow t) ++ rest) c s := by
  have hcast : Crosses m mc callers lo hi E Q (onLine line (.cast t.classRef :: ClassCompiler.unbox t) ++ rest) c s := by
    refine .step (by simp) (.cast (fun hnil => by simp [hs] at hnil) fun x xs hx hfits => ?_) rfl fun s₁ => ?_
    · obtain ⟨rfl, -⟩ := List.cons.inj (hs.symm.trans hx)
      rw [hv.casts hw] at hfits
      cases hfits
    · exact .unbox hs hw (hfull _) h
  cases t with
  | null | noType | void =>
    obtain rfl : w = v := hw
    exact h c s hs rfl rfl
  | _ => exact hcast

/-- What was stored is read back as a value of the type of the right side, or of the place where that is null. -/
theorem readBack {left right : Ty} (hs : c.stack = w :: below) (hv : m.Fits c.heap right v)
    (hw : c.heap.Boxes right v w) (hnull : right.isNull = true → left.isPrimitive = false)
    (hfull : ∀ d, mc.Full below.length → E d .stackOverflow)
    (h : ∀ d s', d.stack = v :: below → d.locals = c.locals → d.heap = c.heap →
      Crosses m mc callers lo hi E Q rest d s') :
    Crosses m mc callers lo hi E Q (onLine line (ClassCompiler.narrow (if right.isNull then left else right)) ++ rest) c s := by
  cases hright : right.isNull with
  | false => exact .narrow hs hv hw hfull h
  | true =>
    obtain rfl : right = .null := by cases right <;> simp_all [Ty.isNull]
    obtain rfl : w = v := hw
    obtain rfl : w = .null := hv
    rw [if_pos rfl]
    rcases narrow_of_isPrimitive (hnull hright) with hleft | hleft
    · rw [hleft]
      exact h c s hs rfl rfl
    · rw [hleft]
      refine .step (by simp) (.cast (fun hnil => by simp [hs] at hnil) fun x xs hx hfits => ?_) rfl fun s₁ => ?_
      · obtain ⟨rfl, -⟩ := List.cons.inj (hs.symm.trans hx)
        cases hfits
      · exact h _ s₁ hs rfl rfl

/-- The stack has a new list for the copy of a value twice, if there is to be one. -/
def copyRefs : Option Nat → List Value
  | some b => [.ref b, .ref b]
  | none => []

/-- The list that a value about to be stored is copied to: the next object, if lists are stored as lists. -/
def copyOf (left right : Ty) (h : Heap) : Option Nat := if left.isList && right.isList then some h.size else none

theorem copyBegin {left right : Ty} (hfull : ∀ d, mc.Full (c.stack.length + 1) → E d .stackOverflow)
    (h : ∀ d s', d.stack = copyRefs (copyOf left right c.heap) ++ c.stack → d.locals = c.locals →
      d.heap = (if left.isList && right.isList then c.heap.push (.list []) else c.heap) →
      Crosses m mc callers lo hi E Q rest d s') :
    Crosses m mc callers lo hi E Q (onLine line (ClassCompiler.copyBegin left right) ++ rest) c s := by
  unfold ClassCompiler.copyBegin copyOf at *
  split
  · next hlists =>
    simp only [hlists, if_true] at h
    refine .step (by simp) (.new m.allocate_list fun hf => hfull _ (hf.mono (Nat.le_succ _))) rfl fun s₁ => ?_
    exact .step (by simp) (.dup rfl (hfull _)) rfl fun s₂ => h _ s₂ rfl rfl rfl
  · next hlists =>
    simp only [hlists] at h
    exact h c s rfl rfl rfl

/-- The value is copied to the list that is there for it, or stored as it is. -/
theorem copyEnd {left right : Ty} {copy : Option Nat} (hs : c.stack = v :: copyRefs copy ++ below)
    (hcopy : copy.isSome = (left.isList && right.isList)) (hb : ∀ b ∈ copy, c.heap[b]? = some (.list []))
    (hv : m.Fits c.heap right v)
    (h : ∀ d new s', d.stack = new :: below → d.locals = c.locals → Heap.SameBut copy c.heap d.heap → c.heap.Retains d.heap →
      (copy = none ∧ new = v ∨ ∃ b es, copy = some b ∧ new = .ref b ∧ c.heap.get? v = some (.list es) ∧
        d.heap[b]? = some (.list es)) → m.Fits d.heap right new → Crosses m mc callers lo hi E Q rest d s') :
    Crosses m mc callers lo hi E Q (onLine line (ClassCompiler.copyEnd left right) ++ rest) c s := by
  unfold ClassCompiler.copyEnd
  cases copy with
  | none =>
    rw [if_neg (by simp [← hcopy])]
    exact h c v s hs rfl .refl (Heap.Grows.refl).retains (.inl ⟨rfl, rfl⟩) hv
  | some b =>
    have hlists : (left.isList && right.isList) = true := hcopy.symm
    rw [if_pos hlists]
    obtain ⟨ts, rfl⟩ : ∃ ts, right = .list ts := by
      cases right <;> simp_all [Ty.isList]
    obtain ⟨es, hes⟩ := hv
    have hempty : c.heap.get? (.ref b) = some (.list []) := hb b rfl
    have hrun : NativeConstructor.listCopy.run c.heap (.ref b) [v] = .ok (c.heap.set (.ref b) (.list es)) := by
      simp [NativeConstructor.run, NativeConstructor.run.fillList, hempty, elementsOf, argument, hes,
        Heap.isNull_of_get? hes, Object.listElems?, bind, Except.bind, pure, Except.pure]
    refine .op (by simp) (.invokeSpecial [v] hs rfl (by simp [Value.isNull]) fun e he => by simp [hrun] at he) ?_ ?_
    · rintro _ ⟨_, -, rfl⟩
      rfl
    · rintro _ s₁ ⟨heap, hheap, rfl⟩
      obtain rfl := Except.ok.inj (hrun.symm.trans hheap)
      have hset : (c.heap.set (.ref b) (.list es)).get? (.ref b) = some (.list es) := Heap.get?_set_self hempty
      refine h _ (.ref b) s₁ rfl rfl (fun a o ha ho => ?_) (.set hempty .list) (.inr ⟨b, es, rfl, rfl, hes, hset⟩)
        ⟨es, hset⟩
      exact (Array.getElem?_setIfInBounds_ne fun he => ha (congrArg some he)).trans ho

theorem store {k : SlotKind} {slot : Nat} (hs : c.stack = v :: below) (hslot : slot < c.locals.size)
    (h : ∀ s', Crosses m mc callers lo hi E Q rest
      { c.next below with locals := c.locals.setIfInBounds slot v } s') :
    Crosses m mc callers lo hi E Q (⟨.store k slot, line⟩ :: rest) c s := by
  refine .op (by simp) (.store hs fun hle => absurd hslot (Nat.not_lt.2 hle)) ?_ ?_
  · rintro _ ⟨_, rfl⟩
    rfl
  · rintro _ s₁ ⟨-, rfl⟩
    exact h s₁

/-- The value is stored to a variable, and stays on the stack. -/
theorem storeVariable {n : Nat} (hs : c.stack = v :: below) (hv : m.Fits c.heap t v) (hn : n < c.locals.size)
    (hfull : ∀ d, mc.Full (below.length + 1) → E d .stackOverflow)
    (h : ∀ d w s', d.stack = v :: below → d.locals = c.locals.setIfInBounds n w → c.heap.Grows d.heap →
      d.heap.Boxes t v w → Crosses m mc callers lo hi E Q rest d s') :
    Crosses m mc callers lo hi E Q (onLine line (.dup :: ClassCompiler.box t ++ [.store .ref n]) ++ rest) c s := by
  simp only [onLine_cons, onLine_append, onLine_nil, List.cons_append, List.nil_append, List.append_assoc]
  refine .step (by simp) (.dup hs (hfull c)) rfl fun s₁ => ?_
  refine .box rfl hv (hfull _) fun d w s₂ hds hdl hdg hdb => ?_
  exact .store hds (hdl ▸ hn) fun s₃ => h _ w s₃ rfl (congrArg (·.setIfInBounds n w) hdl) hdg hdb

theorem getElement {n recv : Value} {es : List Value} (hs : c.stack = n :: recv :: below)
    (hrecv : recv = .null ∨ c.heap.get? recv = some (.list es)) (hfull : mc.Full below.length → E c .stackOverflow)
    (hmiss : ∀ cause, NoElement recv n es cause → E c cause)
    (h : ∀ a k v s', recv = .ref a → n.toInt32.toInt = (k : Nat) → k < es.length → es[k]? = some v →
      Crosses m mc callers lo hi E Q rest (c.next (v :: below)) s') :
    Crosses m mc callers lo hi E Q (⟨.invokeVirtual NativeMethod.getElement.ref, line⟩ :: rest) c s := by
  have hlist : ∀ es', c.heap.get? recv = some (.list es') → es' = es := fun es' hes => by
    rcases hrecv with rfl | hes'
    · cases hes
    · exact Object.list.inj (Option.some.inj (hes.symm.trans hes'))
  refine .op (by simp) (.getElement hs (fun hn => hmiss _ (.null (of_decide_eq_true hn))) (fun hn hl => ?_)
    (fun es' hes hr => hmiss _ (.range (by rintro rfl; cases hes) (hlist es' hes ▸ hr))) hfull) ?_ ?_
  · rcases hrecv with rfl | hes
    · cases hn
    · exact absurd hes (hl es)
  · rintro _ ⟨_, _, _, _, _, _, _, _, rfl⟩
    rfl
  · rintro _ s₁ ⟨a, es', k, v, rfl, hes, hk, hv, rfl⟩
    obtain rfl := hlist es' hes
    exact h a k v s₁ rfl hk (List.getElem?_eq_some_iff.1 hv).1 hv

theorem setElement {n recv : Value} {es : List Value} (hs : c.stack = w :: n :: recv :: below)
    (hrecv : recv = .null ∨ c.heap.get? recv = some (.list es)) (hfull : mc.Full below.length → E c .stackOverflow)
    (hmiss : ∀ cause, NoElement recv n es cause → E c cause)
    (h : ∀ a k s', recv = .ref a → n.toInt32.toInt = (k : Nat) → k < es.length →
      Crosses m mc callers lo hi E Q rest { c.next below with heap := c.heap.set recv (.list (es.set k w)) } s') :
    Crosses m mc callers lo hi E Q (⟨.invokeVirtual NativeMethod.setElement.ref, line⟩ :: rest) c s := by
  have hlist : ∀ es', c.heap.get? recv = some (.list es') → es' = es := fun es' hes => by
    rcases hrecv with rfl | hes'
    · cases hes
    · exact Object.list.inj (Option.some.inj (hes.symm.trans hes'))
  refine .op (by simp) (.setElement hs (fun hn => hmiss _ (.null (of_decide_eq_true hn))) (fun hn hl => ?_)
    (fun es' hes hr => hmiss _ (.range (by rintro rfl; cases hes) (hlist es' hes ▸ hr))) hfull) ?_ ?_
  · rcases hrecv with rfl | hes
    · cases hn
    · exact absurd hes (hl es)
  · rintro _ ⟨_, _, _, _, _, _, _, rfl⟩
    rfl
  · rintro _ s₁ ⟨a, es', k, rfl, hes, hk, hlt, rfl⟩
    obtain rfl := hlist es' hes
    exact h a k s₁ rfl hk hlt

section

variable {recv : Value} {cls : String} {fields : List (String × Value)} {r : MemberRef}

theorem cause_of_asInstance (hrecv : recv = .null ∨ c.heap.get? recv = some (.inst cls fields))
    (hmiss : recv = .null → E c .nullReference) {e : Fault} (he : asInstance c.heap recv = .error e) : E c e.cause := by
  rcases asInstance_eq_error he with ⟨hn, he⟩ | ⟨hn, ho, -⟩
  · rw [he]
    exact hmiss (of_decide_eq_true hn)
  · rcases hrecv with rfl | hinst
    · cases hn
    · exact absurd hinst (ho _ _)

theorem eq_of_instance (hrecv : recv = .null ∨ c.heap.get? recv = some (.inst cls fields)) {cls' : String}
    {fields' : List (String × Value)} (h : c.heap.get? recv = some (.inst cls' fields')) : cls' = cls ∧ fields' = fields := by
  rcases hrecv with rfl | hinst
  · cases h
  · exact Object.inst.inj (Option.some.inj (h.symm.trans hinst))

theorem getField (hs : c.stack = recv :: below) (hrecv : recv = .null ∨ c.heap.get? recv = some (.inst cls fields))
    (hfull : mc.Full below.length → E c .stackOverflow) (hmiss : recv = .null → E c .nullReference)
    (h : ∀ a s', recv = .ref a → Crosses m mc callers lo hi E Q rest (c.next (fieldValue fields r.name :: below)) s') :
    Crosses m mc callers lo hi E Q (⟨.getField r, line⟩ :: rest) c s := by
  refine .op (by simp) (.getField hs (fun e => cause_of_asInstance hrecv hmiss) hfull) ?_ ?_
  · rintro _ ⟨_, _, _, rfl⟩
    rfl
  · rintro _ s₁ ⟨cls', fields', hinst, rfl⟩
    obtain ⟨rfl, rfl⟩ := eq_of_instance hrecv hinst
    obtain ⟨a, rfl⟩ := Heap.ref_of_get? hinst
    exact h a s₁ rfl

theorem putField (hs : c.stack = w :: recv :: below) (hrecv : recv = .null ∨ c.heap.get? recv = some (.inst cls fields))
    (hmiss : recv = .null → E c .nullReference)
    (h : ∀ a s', recv = .ref a → Crosses m mc callers lo hi E Q rest
      { c.next below with heap := c.heap.set recv (.inst cls (setFieldValue fields r.name w)) } s') :
    Crosses m mc callers lo hi E Q (⟨.putField r, line⟩ :: rest) c s := by
  refine .op (by simp) (.putField hs fun e => cause_of_asInstance hrecv hmiss) ?_ ?_
  · rintro _ ⟨_, _, _, rfl⟩
    rfl
  · rintro _ s₁ ⟨cls', fields', hinst, rfl⟩
    obtain ⟨rfl, rfl⟩ := eq_of_instance hrecv hinst
    obtain ⟨a, rfl⟩ := Heap.ref_of_get? hinst
    exact h a s₁ rfl

end

/-- A value is stored to an element of a list, and read back. -/
theorem storeElement {n recv : Value} {es : List Value} {left right : Ty} {index : Op}
    (hs : c.stack = v :: n :: recv :: recv :: below) (hv : m.Fits c.heap right v)
    (hnull : right.isNull = true → left.isPrimitive = false) (hrecv : recv = .null ∨ c.heap.get? recv = some (.list es))
    (hindex : ∀ {is e s'}, e.locals = c.locals → e.stack = recv :: below →
      (∀ s'', Crosses m mc callers lo hi E Q is (e.next (n :: e.stack)) s'') →
      Crosses m mc callers lo hi E Q (⟨index, line⟩ :: is) e s')
    (hfull : ∀ d, mc.Full (below.length + 3) → E d .stackOverflow)
    (hmiss : ∀ d cause, c.heap.Grows d.heap → NoElement recv n es cause → E d cause)
    (h : ∀ d w heap a k s', recv = .ref a → n.toInt32.toInt = (k : Nat) → k < es.length → d.stack = v :: below →
      d.locals = c.locals → c.heap.Grows heap → d.heap = heap.set recv (.list (es.set k w)) → d.heap.Boxes right v w →
      Crosses m mc callers lo hi E Q rest d s') :
    Crosses m mc callers lo hi E Q (onLine line (storeElementOps left right index) ++ rest) c s := by
  simp only [storeElementOps, onLine_append, onLine_cons, List.cons_append, List.nil_append, List.append_assoc]
  refine .box hs hv (fun hf => hfull c (hf.mono (by simp))) fun d w s₁ hds hdl hdg hdb => ?_
  refine .setElement hds (hrecv.imp_right (hdg recv _)) (fun hf => hfull d (hf.mono (by simp)))
    (fun cause => hmiss d cause hdg) fun a k s₂ ha hk hlt => ?_
  subst ha
  have hes : d.heap.get? (.ref a) = some (.list es) := hdg _ _ (hrecv.resolve_left (by simp))
  have hretains : d.heap.Retains (d.heap.set (.ref a) (.list (es.set k w))) := .set hes .list
  refine hindex hdl rfl fun s₃ => ?_
  refine .getElement rfl (.inr (Heap.get?_set_self hes)) (fun hf => hfull _ (hf.mono (by simp))) (fun cause hno => ?_)
    fun a' k' x s₄ _ hk' _ hx => ?_
  · -- The element is there, as it was when it was stored.
    cases hno with
    | null h => cases h
    | range _ h =>
      rw [List.length_set] at h
      omega
  obtain rfl : k = k' := by omega
  obtain rfl : w = x := by simpa [List.getElem?_set_self hlt] using hx
  refine .readBack rfl ((hv.retains hdg.retains).retains hretains) (hdb.retains hretains) hnull
    (fun e hf => hfull e (hf.mono (by simp))) fun e s₅ hes hel heh => ?_
  exact h e w d.heap a k s₅ rfl hk hlt hes (hel.trans hdl) hdg heh (heh ▸ hdb.retains hretains)

theorem storeField {recv : Value} {cls : String} {fields : List (String × Value)} {left right : Ty} {r : MemberRef}
    (hs : c.stack = v :: recv :: recv :: below) (hv : m.Fits c.heap right v)
    (hprim : left.isPrimitive = right.isPrimitive) (hleft : left.isPrimitive = true → left = right)
    (hrecv : recv = .null ∨ c.heap.get? recv = some (.inst cls fields))
    (hfull : ∀ d, mc.Full (below.length + 3) → E d .stackOverflow)
    (hmiss : ∀ d, c.heap.Grows d.heap → recv = .null → E d .nullReference)
    (h : ∀ d w heap a s', recv = .ref a → d.stack = v :: below → d.locals = c.locals → c.heap.Grows heap →
      d.heap = heap.set recv (.inst cls (setFieldValue fields r.name w)) → d.heap.Boxes right v w →
      Crosses m mc callers lo hi E Q rest d s') :
    Crosses m mc callers lo hi E Q (onLine line (ClassCompiler.storeField left right r) ++ rest) c s := by
  simp only [ClassCompiler.storeField, onLine_append, onLine_cons, List.cons_append, List.nil_append, List.append_assoc]
  refine .box hs hv (fun hf => hfull c (hf.mono (by simp))) fun d w s₁ hds hdl hdg hdb => ?_
  refine .putField hds (hrecv.imp_right (hdg recv _)) (hmiss d hdg) fun a s₂ ha => ?_
  subst ha
  have hinst : d.heap.get? (.ref a) = some (.inst cls fields) := hdg _ _ (hrecv.resolve_left (by simp))
  have hretains : d.heap.Retains (d.heap.set (.ref a) (.inst cls (setFieldValue fields r.name w))) := .set hinst .inst
  refine .getField rfl (.inr (Heap.get?_set_self hinst)) (fun hf => hfull _ (hf.mono (by simp))) (fun hn => by cases hn)
    fun a' s₃ _ => ?_
  have hboxes : Heap.Boxes (d.heap.set (.ref a) (.inst cls (setFieldValue fields r.name w))) left v w := by
    have hright := hdb.retains hretains
    cases hp : left.isPrimitive with
    | true => exact hleft hp ▸ hright
    | false =>
      have hpr := hprim.symm.trans hp
      have hvw : w = v := by cases right <;> first | exact hright | cases hpr
      cases left <;> first | exact hvw | cases hp
  refine .unbox (by rw [fieldValue, lookup_setFieldValue]; rfl) hboxes (fun hf => hfull _ (hf.mono (by simp)))
    fun e s₄ hes hel heh => ?_
  exact h e w d.heap a s₄ rfl hes (hel.trans hdl) hdg heh (heh ▸ hdb.retains hretains)

/-- A constant is added to the number on the stack. -/
theorem addTo {n : Int32} {delta : Int} (hs : c.stack = .int n :: below)
    (hfull : ∀ d, mc.Full (below.length + 1) → E d .stackOverflow)
    (h : ∀ d s', d.stack = .int (n + Int32.ofInt delta) :: below → d.locals = c.locals → d.heap = c.heap →
      Crosses m mc callers lo hi E Q rest d s') :
    Crosses m mc callers lo hi E Q (onLine line [.pushInt delta, .arith .add] ++ rest) c s := by
  refine .step (by simp) (.pushInt fun hf => hfull c (hf.mono (by simp [hs]))) rfl fun s₁ => ?_
  rw [hs]
  refine .op (by simp) (.arith rfl (fun _ he => by cases he) fun hf => hfull _ (hf.mono (by simp))) ?_ ?_
  · rintro _ ⟨_, _, rfl⟩
    rfl
  · rintro _ s₂ ⟨r, hr, rfl⟩
    obtain rfl : r = n + Int32.ofInt delta := (Except.ok.inj hr).symm
    exact h _ s₂ rfl rfl rfl

/-- The value on the stack is kept in a slot, too. -/
theorem keepIn {k : SlotKind} {slot : Nat} (hs : c.stack = v :: below) (hslot : slot < c.locals.size)
    (hfull : ∀ d, mc.Full (below.length + 1) → E d .stackOverflow)
    (h : ∀ d s', d.stack = v :: below → d.locals = c.locals.setIfInBounds slot v → d.heap = c.heap →
      Crosses m mc callers lo hi E Q rest d s') :
    Crosses m mc callers lo hi E Q (onLine line [.dup, .store k slot] ++ rest) c s := by
  refine .step (by simp) (.dup hs (hfull c)) rfl fun s₁ => ?_
  exact .store rfl hslot fun s₂ => h _ s₂ rfl rfl rfl

/-- The number on the stack is changed, and the old or the new one is kept in a slot. -/
theorem changeBy {n : Int32} {delta : Int} {isPre : Bool} {slot : Nat} (hs : c.stack = .int n :: below)
    (hslot : slot < c.locals.size) (hfull : ∀ d, mc.Full (below.length + 1) → E d .stackOverflow)
    (h : ∀ d s', d.stack = .int (n + Int32.ofInt delta) :: below →
      d.locals = c.locals.setIfInBounds slot (.int (if isPre then n + Int32.ofInt delta else n)) → d.heap = c.heap →
      Crosses m mc callers lo hi E Q rest d s') :
    Crosses m mc callers lo hi E Q (onLine line (ClassCompiler.changeBy delta isPre slot) ++ rest) c s := by
  unfold ClassCompiler.changeBy
  cases isPre with
  | true =>
    rw [if_pos rfl, onLine_append, List.append_assoc]
    refine .addTo hs hfull fun d s₁ hds hdl hdh => ?_
    exact .keepIn hds (hdl ▸ hslot) hfull fun e s₂ hes hel heh => h e s₂ hes (hdl ▸ hel) (heh.trans hdh)
  | false =>
    rw [if_neg (by simp), onLine_append, List.append_assoc]
    refine .keepIn hs hslot hfull fun d s₁ hds hdl hdh => ?_
    exact .addTo hds hfull fun e s₂ hes hel heh => h e s₂ hes (hel.trans hdl) (heh.trans hdh)

theorem load {k : SlotKind} {slot : Nat} (hv : c.locals[slot]? = some v)
    (hfull : mc.Full c.stack.length → E c .stackOverflow)
    (h : ∀ s', Crosses m mc callers lo hi E Q rest (c.next (v :: c.stack)) s') :
    Crosses m mc callers lo hi E Q (⟨.load k slot, line⟩ :: rest) c s := by
  refine .op (by simp) (.load (fun hle => absurd (Array.getElem?_eq_some_iff.1 hv).1 (Nat.not_lt.2 hle)) hfull) ?_ ?_
  · rintro _ ⟨_, _, rfl⟩
    rfl
  · rintro _ s₁ ⟨x, hx, rfl⟩
    obtain rfl := Option.some.inj (hv.symm.trans hx)
    exact h s₁

theorem changeVariable {slot : Nat} {op : UnOp} {n : Int32} (hw : c.locals[slot]? = some w)
    (hn : c.heap.get? w = some (.integer n)) (hfull : ∀ d, mc.Full (c.stack.length + 2) → E d .stackOverflow)
    (h : ∀ d w' s', d.stack = .int (if op.isPre then n + Int32.ofInt op.delta else n) :: c.stack →
      d.locals = c.locals.setIfInBounds slot w' → c.heap.Grows d.heap →
      d.heap.get? w' = some (.integer (n + Int32.ofInt op.delta)) → Crosses m mc callers lo hi E Q rest d s') :
    Crosses m mc callers lo hi E Q (onLine line (ClassCompiler.changeVariable slot op) ++ rest) c s := by
  have hslot : slot < c.locals.size := (Array.getElem?_eq_some_iff.1 hw).1
  -- The new number is boxed and stored above the result.
  have hstore : ∀ {e : Spot} {s' : State} {below : List Value}, e.stack = .int (n + Int32.ofInt op.delta) :: below →
      below.length ≤ c.stack.length + 2 → e.locals = c.locals → e.heap = c.heap →
      (∀ d w' s', d.stack = below → d.locals = c.locals.setIfInBounds slot w' → c.heap.Grows d.heap →
        d.heap.get? w' = some (.integer (n + Int32.ofInt op.delta)) → Crosses m mc callers lo hi E Q rest d s') →
      Crosses m mc callers lo hi E Q (onLine line (ClassCompiler.box .int ++ [.store .ref slot]) ++ rest) e s' := by
    intro e s' below hes hlen hel heh hnext
    rw [onLine_append, List.append_assoc]
    refine .box (t := .int) hes ⟨_, rfl⟩ (fun hf => hfull e (hf.mono hlen)) fun d w' s₁ hds hdl hdg ⟨i, hi, hw'⟩ => ?_
    obtain rfl := Value.int.inj hi
    have hlocals : d.locals = c.locals := hdl.trans hel
    exact .store hds (hlocals ▸ hslot) fun s₂ => hnext _ w' s₂ rfl (by rw [hlocals]) (heh ▸ hdg) hw'
  simp only [ClassCompiler.changeVariable, List.append_assoc, onLine_cons, List.cons_append]
  refine .load hw (fun hf => hfull c (hf.mono (by simp))) fun s₁ => ?_
  rw [onLine_append, List.append_assoc]
  refine .unbox (t := .int) rfl ⟨n, rfl, hn⟩ (fun hf => hfull _ (hf.mono (by simp))) fun d s₂ hds hdl hdh => ?_
  rw [onLine_append, List.append_assoc]
  cases hpre : op.isPre with
  | true =>
    simp only [hpre, if_true] at h ⊢
    rw [onLine_append, List.append_assoc]
    refine .addTo hds (fun e hf => hfull e (hf.mono (by simp))) fun e s₃ hes hel heh => ?_
    refine .step (by simp) (.dup hes fun hf => hfull e (hf.mono (by simp))) rfl fun s₄ => ?_
    exact hstore rfl (by simp) (hel.trans hdl) (heh.trans hdh) h
  | false =>
    simp only [hpre] at h ⊢
    refine .step (by simp) (.dup hds fun hf => hfull d (hf.mono (by simp))) rfl fun s₃ => ?_
    refine .addTo rfl (fun e hf => hfull e (hf.mono (by simp))) fun e s₄ hes hel heh => ?_
    exact hstore hes (by simp) (hel.trans hdl) (heh.trans hdh) h

/-- The number in an element of a list is changed; the list and the index are still known. -/
theorem changeElement {nval recv : Value} {es : List Value} {list val : Nat} {index : Op} {op : UnOp}
    (hlist : c.locals[list]? = some recv) (hval : val < c.locals.size)
    (hindex : ∀ {is e s'}, e.locals = c.locals → e.stack.length ≤ c.stack.length + 3 →
      (∀ s'', Crosses m mc callers lo hi E Q is (e.next (nval :: e.stack)) s'') →
      Crosses m mc callers lo hi E Q (⟨index, line⟩ :: is) e s')
    (hrecv : recv = .null ∨ c.heap.get? recv = some (.list es))
    (hold : ∀ a k, recv = .ref a → nval.toInt32.toInt = (k : Nat) → k < es.length →
      ∃ w n, es[k]? = some w ∧ c.heap.get? w = some (.integer n))
    (hfull : ∀ d, mc.Full (c.stack.length + 3) → E d .stackOverflow)
    (hmiss : ∀ d cause, c.heap.Grows d.heap → NoElement recv nval es cause → E d cause)
    (h : ∀ d a k old n w heap s', recv = .ref a → nval.toInt32.toInt = (k : Nat) → k < es.length → es[k]? = some old →
      c.heap.get? old = some (.integer n) →
      d.stack = .int (if op.isPre then n + Int32.ofInt op.delta else n) :: c.stack →
      d.locals = c.locals.setIfInBounds val (.int (if op.isPre then n + Int32.ofInt op.delta else n)) →
      c.heap.Grows heap → d.heap = heap.set recv (.list (es.set k w)) →
      d.heap.get? w = some (.integer (n + Int32.ofInt op.delta)) → Crosses m mc callers lo hi E Q rest d s') :
    Crosses m mc callers lo hi E Q (onLine line (ClassCompiler.changeElement list val index op) ++ rest) c s := by
  simp only [ClassCompiler.changeElement, onLine_append, onLine_cons, List.cons_append, List.nil_append,
    List.append_assoc]
  refine .load hlist (fun hf => hfull c (hf.mono (by simp))) fun s₁ => hindex rfl (by simp [Spot.next]) fun s₂ => ?_
  refine .load hlist (fun hf => hfull _ (hf.mono (by simp [Spot.next]))) fun s₃ =>
    hindex rfl (by simp [Spot.next]) fun s₄ => ?_
  refine .getElement rfl hrecv (fun hf => hfull _ (hf.mono (by simp [Spot.next]))) (fun cause => hmiss _ cause .refl)
    fun a k old s₅ ha hk hlt hx => ?_
  subst ha
  have hes : c.heap.get? (.ref a) = some (.list es) := hrecv.resolve_left (by simp)
  obtain ⟨w, n, hw, hn⟩ := hold a k rfl hk hlt
  obtain rfl := Option.some.inj (hx.symm.trans hw)
  refine .narrow (t := .int) rfl ⟨n, rfl⟩ ⟨n, rfl, hn⟩ (fun e hf => hfull e (hf.mono (by simp [Spot.next])))
    fun d s₆ hds hdl hdh => ?_
  have hdl : d.locals = c.locals := hdl
  refine .changeBy hds (hdl ▸ hval) (fun e hf => hfull e (hf.mono (by simp [Spot.next]))) fun e s₇ hes' hel heh => ?_
  refine .box (t := .int) hes' ⟨_, rfl⟩ (fun hf => hfull e (hf.mono (by simp [Spot.next])))
    fun f w s₈ hfs hfl hfg hboxed => ?_
  obtain ⟨i, hi, hw'⟩ := hboxed
  obtain rfl := Value.int.inj hi
  have hgrows : c.heap.Grows f.heap := by
    rw [heh, hdh] at hfg
    exact hfg
  have hget : f.heap.get? (.ref a) = some (.list es) := hgrows _ _ hes
  refine .setElement hfs (.inr hget) (fun hf => hfull f (hf.mono (by simp))) (fun cause hno => ?_)
    fun a' k' s₉ _ hk' _ => ?_
  · cases hno with
    | null h => cases h
    | range _ h => omega
  -- The list still has its length, so the index that was read is in range for the store.
  obtain rfl : k = k' := by omega
  have hlocals : f.locals = c.locals.setIfInBounds val (.int (if op.isPre then n + Int32.ofInt op.delta else n)) := by
    rw [hfl, hel, hdl]
  refine .load (v := .int (if op.isPre then n + Int32.ofInt op.delta else n)) ?_
    (fun hf => hfull _ (hf.mono (by simp [Spot.next]))) fun s₁₀ => ?_
  · simp [hlocals, Spot.next, hval]
  · have hw' : (f.heap.set (.ref a) (.list (es.set k w))).get? w = some (.integer (n + Int32.ofInt op.delta)) := by
      rw [Heap.get?_set_ne fun he => by simp [he, hget] at hw']
      exact hw'
    exact h _ a k old n w f.heap s₁₀ rfl hk hlt hx hn rfl hlocals hgrows rfl hw'

/-- The number in a field is changed; the object is still known. -/
theorem changeField {recv : Value} {cls : String} {fields : List (String × Value)} {obj val : Nat} {r : MemberRef}
    {op : UnOp} (hobj : c.locals[obj]? = some recv) (hval : val < c.locals.size)
    (hrecv : recv = .null ∨ c.heap.get? recv = some (.inst cls fields))
    (hold : ∀ a, recv = .ref a → ∃ n, c.heap.get? (fieldValue fields r.name) = some (.integer n))
    (hfull : ∀ d, mc.Full (c.stack.length + 3) → E d .stackOverflow)
    (hmiss : ∀ d, c.heap.Grows d.heap → recv = .null → E d .nullReference)
    (h : ∀ d a n w heap s', recv = .ref a → c.heap.get? (fieldValue fields r.name) = some (.integer n) →
      d.stack = .int (if op.isPre then n + Int32.ofInt op.delta else n) :: c.stack →
      d.locals = c.locals.setIfInBounds val (.int (if op.isPre then n + Int32.ofInt op.delta else n)) →
      c.heap.Grows heap → d.heap = heap.set recv (.inst cls (setFieldValue fields r.name w)) →
      d.heap.get? w = some (.integer (n + Int32.ofInt op.delta)) → Crosses m mc callers lo hi E Q rest d s') :
    Crosses m mc callers lo hi E Q (onLine line (ClassCompiler.changeField obj val r op) ++ rest) c s := by
  simp only [ClassCompiler.changeField, onLine_append, onLine_cons, List.cons_append, List.nil_append,
    List.append_assoc]
  refine .load hobj (fun hf => hfull c (hf.mono (by simp))) fun s₁ => ?_
  refine .load hobj (fun hf => hfull _ (hf.mono (by simp [Spot.next]))) fun s₂ => ?_
  refine .getField rfl hrecv (fun hf => hfull _ (hf.mono (by simp [Spot.next]))) (hmiss _ .refl) fun a s₃ ha => ?_
  subst ha
  have hinst : c.heap.get? (.ref a) = some (.inst cls fields) := hrecv.resolve_left (by simp)
  obtain ⟨n, hn⟩ := hold a rfl
  refine .unbox (t := .int) rfl ⟨n, rfl, hn⟩ (fun hf => hfull _ (hf.mono (by simp [Spot.next])))
    fun d s₄ hds hdl hdh => ?_
  have hdl : d.locals = c.locals := hdl
  refine .changeBy hds (hdl ▸ hval) (fun e hf => hfull e (hf.mono (by simp [Spot.next]))) fun e s₅ hes' hel heh => ?_
  refine .box (t := .int) hes' ⟨_, rfl⟩ (fun hf => hfull e (hf.mono (by simp [Spot.next])))
    fun f w s₆ hfs hfl hfg hboxed => ?_
  obtain ⟨i, hi, hw'⟩ := hboxed
  obtain rfl := Value.int.inj hi
  have hgrows : c.heap.Grows f.heap := by
    rw [heh, hdh] at hfg
    exact hfg
  have hget : f.heap.get? (.ref a) = some (.inst cls fields) := hgrows _ _ hinst
  refine .putField hfs (.inr hget) (fun hn => by cases hn) fun a' s₇ _ => ?_
  have hlocals : f.locals = c.locals.setIfInBounds val (.int (if op.isPre then n + Int32.ofInt op.delta else n)) := by
    rw [hfl, hel, hdl]
  refine .load (v := .int (if op.isPre then n + Int32.ofInt op.delta else n)) ?_
    (fun hf => hfull _ (hf.mono (by simp [Spot.next]))) fun s₈ => ?_
  · simp [hlocals, Spot.next, hval]
  · have hw' : (f.heap.set (.ref a) (.inst cls (setFieldValue fields r.name w))).get? w =
        some (.integer (n + Int32.ofInt op.delta)) := by
      rw [Heap.get?_set_ne fun he => by simp [he, hget] at hw']
      exact hw'
    exact h _ a n w f.heap s₈ rfl hn rfl hlocals hgrows rfl hw'

end Crosses

end ClassCompiler
