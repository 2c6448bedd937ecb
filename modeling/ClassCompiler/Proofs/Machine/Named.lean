import ClassCompiler.Machine.Step
import ClassCompiler.Proofs.Outcome

namespace ClassCompiler

variable {p q : List (String × String)}

section Lists

variable {α β : Type} {R : α → β → Prop} {as : List α} {bs : List β}

theorem forall₂_getElem? (h : List.Forall₂ R as bs) (i : Nat) : Option.Rel R as[i]? bs[i]? := by
  induction h generalizing i with
  | nil => exact .none
  | cons hab _ ih =>
    cases i with
    | zero => exact .some hab
    | succ i => exact ih i

theorem forall₂_set (h : List.Forall₂ R as bs) {a : α} {b : β} (hab : R a b) (i : Nat) :
    List.Forall₂ R (as.set i a) (bs.set i b) := by
  induction h generalizing i with
  | nil => exact .nil
  | cons hcd hs ih =>
    cases i with
    | zero => exact .cons hab hs
    | succ i => exact .cons hcd (ih i)

end Lists

/-- A value of a machine whose strings are those of `p`, each text with its name, and the value it stands for. -/
inductive Value.Stands (p : List (String × String)) : Value → Value → Prop
  | null : Stands p .null .null
  | int (v : Int32) : Stands p (.int v) (.int v)
  | str {text name : String} (h : (text, name) ∈ p) : Stands p (.str name) (.str text)
  | stream : Stands p .stream .stream
  | ref (addr : Nat) : Stands p (.ref addr) (.ref addr)

/-- A text has one name, and a name stands for one text. -/
def OneToOne (p : List (String × String)) : Prop := ∀ a ∈ p, ∀ b ∈ p, a.2 = b.2 ↔ a.1 = b.1

def Lookup.Reads (k : Lookup) (p : List (String × String)) : Prop := ∀ a ∈ p, k.text a.2 = a.1

namespace Value.Stands

variable {v w v' w' : Value}

theorem mono (h : v.Stands p w) (hpq : p ⊆ q) : v.Stands q w := by
  cases h with
  | str h => exact .str (hpq h)
  | null => exact .null
  | int v => exact .int v
  | stream => exact .stream
  | ref a => exact .ref a

theorem isNull (h : v.Stands p w) : w.isNull = v.isNull := by
  cases h with
  | null | int | stream | ref => rfl
  | str => simp [Value.isNull]

theorem toInt32 (h : v.Stands p w) : w.toInt32 = v.toInt32 := by
  cases h <;> rfl

theorem toBool (h : v.Stands p w) : w.toBool = v.toBool := by
  rw [Value.toBool, Value.toBool, h.toInt32]

theorem isReference (h : v.Stands p w) : w.isReference = v.isReference := by
  cases h <;> rfl

theorem ofBool (b : Bool) : (Value.ofBool b).Stands p (Value.ofBool b) := .int _

/-- Strings are one object in the one machine just where they are one text in the other. -/
theorem eq_iff (hp : OneToOne p) (h : v.Stands p w) (h' : v'.Stands p w') : v = v' ↔ w = w' := by
  cases h with
  | null | int | stream | ref => cases h' <;> simp
  | str ht =>
    cases h' with
    | str ht' => simpa using hp _ ht _ ht'
    | null | int | stream | ref => simp

theorem argument {vs ws : List Value} (h : List.Forall₂ (Value.Stands p) vs ws) (i : Nat) :
    (argument vs i).Stands p (argument ws i) := by
  have hi := forall₂_getElem? h i
  unfold ClassCompiler.argument
  generalize vs[i]? = a at hi
  generalize ws[i]? = b at hi
  cases hi with
  | none => exact .null
  | some h => exact h

end Value.Stands

inductive Object.Stands (p : List (String × String)) : Object → Object → Prop
  | integer (v : Int32) : Stands p (.integer v) (.integer v)
  | boolean (b : Bool) : Stands p (.boolean b) (.boolean b)
  | inst (cls : String) {fs gs : List (String × Value)}
      (h : List.Forall₂ (fun f g => g.1 = f.1 ∧ f.2.Stands p g.2) fs gs) : Stands p (.inst cls fs) (.inst cls gs)
  | list {vs ws : List Value} (h : List.Forall₂ (Value.Stands p) vs ws) : Stands p (.list vs) (.list ws)
  | fptr {v w : Value} (h : v.Stands p w) (method : String) : Stands p (.fptr v method) (.fptr w method)
  | arrayList {vs ws : List Value} (h : List.Forall₂ (Value.Stands p) vs ws) : Stands p (.arrayList vs) (.arrayList ws)

theorem Object.Stands.mono {a b : Object} (h : a.Stands p b) (hpq : p ⊆ q) : a.Stands q b := by
  cases h with
  | integer v => exact .integer v
  | boolean v => exact .boolean v
  | inst c h => exact .inst c (h.imp fun _ _ h => ⟨h.1, h.2.mono hpq⟩)
  | list h => exact .list (h.imp fun _ _ h => h.mono hpq)
  | fptr h m => exact .fptr (h.mono hpq) m
  | arrayList h => exact .arrayList (h.imp fun _ _ h => h.mono hpq)

theorem Object.Stands.className {a b : Object} (h : a.Stands p b) : b.className = a.className := by
  cases h <;> rfl

theorem fieldValue_stands {fs gs : List (String × Value)}
    (h : List.Forall₂ (fun f g => g.1 = f.1 ∧ f.2.Stands p g.2) fs gs) (name : String) :
    (fieldValue fs name).Stands p (fieldValue gs name) := by
  unfold fieldValue
  induction h with
  | nil => exact .null
  | @cons f g _ _ hfg _ ih =>
    rw [List.lookup_cons, List.lookup_cons, hfg.1]
    cases name == f.1 with
    | true => exact hfg.2
    | false => exact ih

theorem setFieldValue_stands {fs gs : List (String × Value)}
    (h : List.Forall₂ (fun f g => g.1 = f.1 ∧ f.2.Stands p g.2) fs gs) (name : String) {v w : Value} (hv : v.Stands p w) :
    List.Forall₂ (fun f g => g.1 = f.1 ∧ f.2.Stands p g.2) (setFieldValue fs name v) (setFieldValue gs name w) := by
  induction h with
  | nil => exact .cons ⟨rfl, hv⟩ .nil
  | @cons f g _ _ hfg hs ih =>
    obtain ⟨n, _⟩ := f
    obtain ⟨_, _⟩ := g
    obtain ⟨rfl, hfg⟩ := hfg
    unfold setFieldValue
    split
    · exact .cons ⟨rfl, hv⟩ hs
    · exact .cons ⟨rfl, hfg⟩ ih

def Heap.Stands (p : List (String × String)) (h h' : Heap) : Prop :=
  List.Forall₂ (Object.Stands p) h.toList h'.toList

namespace Heap.Stands

variable {h h' : Heap} {v w : Value} {a b : Object} {k : Lookup}

theorem mono (hh : h.Stands p h') (hpq : p ⊆ q) : h.Stands q h' := List.Forall₂.imp (fun _ _ ho => ho.mono hpq) hh

theorem size_eq (hh : h.Stands p h') : h'.size = h.size := by
  simpa using (List.Forall₂.length_eq hh).symm

theorem getElem? (hh : h.Stands p h') (addr : Nat) : Option.Rel (Object.Stands p) h[addr]? h'[addr]? := by
  simpa using forall₂_getElem? hh addr

theorem get? (hh : h.Stands p h') (hv : v.Stands p w) : Option.Rel (Object.Stands p) (h.get? v) (h'.get? w) := by
  cases hv with
  | ref addr => exact hh.getElem? addr
  | null | int | str | stream => exact .none

theorem set (hh : h.Stands p h') (hv : v.Stands p w) (ho : a.Stands p b) : (h.set v a).Stands p (h'.set w b) := by
  cases hv with
  | ref addr => simpa [Heap.Stands, Heap.set] using forall₂_set hh ho addr
  | null | int | str | stream => exact hh

theorem push (hh : h.Stands p h') (ho : a.Stands p b) : Heap.Stands p (h.push a) (h'.push b) := by
  simpa [Heap.Stands] using List.rel_append hh (.cons ho .nil)

theorem className (hh : h.Stands p h') (hv : v.Stands p w) : h'.className w = h.className v := by
  cases hv with
  | str | stream => rfl
  | null | int => rfl
  | ref addr =>
    have ho := hh.getElem? addr
    simp only [Heap.className, Heap.get?]
    generalize h[addr]? = a at ho
    generalize h'[addr]? = b at ho
    cases ho with
    | none => rfl
    | some ho => simp [ho.className]

theorem textTo (hh : h.Stands p h') (hk : k.Reads p) (depth : Nat) (hv : v.Stands p w) :
    h.textTo k depth v = h'.textTo {} depth w := by
  induction depth generalizing v w with
  | zero =>
    cases hv with
    | str ht => simpa [Heap.textTo] using hk _ ht
    | null | int | stream | ref => simp [Heap.textTo]
  | succ depth ih =>
    cases hv with
    | str ht => simpa [Heap.textTo] using hk _ ht
    | null | int | stream => simp [Heap.textTo]
    | ref addr =>
      have ho := hh.getElem? addr
      simp only [Heap.textTo]
      generalize h[addr]? = a at ho
      generalize h'[addr]? = b at ho
      cases ho with
      | none => rfl
      | some ho =>
        cases ho with
        | integer | boolean | inst | fptr => rfl
        | list hs | arrayList hs => simp only [map_eq_of_forall₂ hs fun _ _ => ih]

theorem text (hh : h.Stands p h') (hk : k.Reads p) (hv : v.Stands p w) : h.text v k = h'.text w := by
  rw [Heap.text, Heap.text, hh.size_eq]
  exact hh.textTo hk _ hv

theorem castFault {α : Type} (hh : h.Stands p h') (hk : k.Reads p) (hv : v.Stands p w) (note : String → String) :
    castFault (α := α) h v k note = castFault h' w {} note := by
  rw [ClassCompiler.castFault, ClassCompiler.castFault, hh.text hk hv]

theorem isInstance (hh : h.Stands p h') (m : Machine) (hv : v.Stands p w) (cls : String) :
    m.isInstance h' w cls = m.isInstance h v cls := by
  have ho := hh.get? hv
  unfold Machine.isInstance
  rw [hh.className hv]
  generalize h.get? v = a at ho
  generalize h'.get? w = b at ho
  cases ho with
  | none => rfl
  | some ho => cases ho <;> rfl

end Heap.Stands

/-- A frame whose values stand for those of another. -/
inductive Frame.Stands (p : List (String × String)) (f : Frame) : Frame → Prop
  | mk {locals : Array Value} {stack : List Value}
      (hl : List.Forall₂ (Value.Stands p) f.locals.toList locals.toList)
      (hs : List.Forall₂ (Value.Stands p) f.stack stack) : Stands p f { f with locals, stack }

namespace Frame.Stands

variable {f g : Frame} {v w : Value} {k : Lookup}

theorem mono (h : f.Stands p g) (hpq : p ⊆ q) : f.Stands q g := by
  obtain ⟨hl, hs⟩ := h
  exact ⟨hl.imp fun _ _ h => h.mono hpq, hs.imp fun _ _ h => h.mono hpq⟩

theorem method (h : f.Stands p g) : g.method = f.method := by
  obtain ⟨-, -⟩ := h
  rfl

theorem push (h : f.Stands p g) (hv : v.Stands p w) : Matching (Frame.Stands p) (f.push v) (g.push w) := by
  obtain ⟨hl, hs⟩ := h
  unfold Frame.push
  rw [hs.length_eq]
  split
  · rfl
  · exact ⟨hl, .cons hv hs⟩

theorem pop (h : f.Stands p g) :
    Matching (fun a b => a.1.Stands p b.1 ∧ a.2.Stands p b.2) f.pop g.pop := by
  obtain ⟨hl, hs⟩ := h
  unfold Frame.pop
  generalize f.stack = vs at hs
  cases hs with
  | nil => rfl
  | cons hv hs => exact ⟨hv, ⟨hl, hs⟩⟩

theorem popTwo (h : f.Stands p g) :
    Matching (fun a b => a.1.Stands p b.1 ∧ a.2.1.Stands p b.2.1 ∧ a.2.2.Stands p b.2.2) f.popTwo g.popTwo := by
  obtain ⟨hl, hs⟩ := h
  unfold Frame.popTwo
  generalize f.stack = vs at hs
  cases hs with
  | nil => rfl
  | cons hb hs =>
    cases hs with
    | nil => rfl
    | cons ha hs => exact ⟨ha, hb, ⟨hl, hs⟩⟩

theorem popMany (h : f.Stands p g) (n : Nat) :
    Matching (fun a b => List.Forall₂ (Value.Stands p) a.1 b.1 ∧ a.2.Stands p b.2) (f.popMany n) (g.popMany n) := by
  obtain ⟨hl, hs⟩ := h
  unfold Frame.popMany
  rw [hs.length_eq]
  split
  · rfl
  · exact ⟨List.rel_reverse (List.forall₂_take n hs), ⟨hl, List.forall₂_drop n hs⟩⟩

theorem slot (h : f.Stands p g) (i : Int) : g.slot i = f.slot i := by
  obtain ⟨hl, hs⟩ := h
  have hsize := hl.length_eq
  rw [Array.length_toList, Array.length_toList] at hsize
  rw [Frame.slot, Frame.slot, hsize]

theorem local? (h : f.Stands p g) (i : Nat) : (f.local? i).Stands p (g.local? i) := by
  obtain ⟨hl, hs⟩ := h
  simpa [Frame.local?, ClassCompiler.argument] using Value.Stands.argument hl i

theorem setLocal (h : f.Stands p g) (i : Nat) (hv : v.Stands p w) : (f.setLocal i v).Stands p (g.setLocal i w) := by
  obtain ⟨hl, hs⟩ := h
  exact ⟨by simpa [Frame.setLocal] using forall₂_set hl hv i, hs⟩

theorem jumpTo (h : f.Stands p g) {label : String}
    (hk : k.label f.method.code label = f.method.code.labelOffset? label) :
    Matching (Frame.Stands p) (f.jumpTo label k) (g.jumpTo label) := by
  obtain ⟨hl, hs⟩ := h
  unfold Frame.jumpTo
  simp only [hk]
  cases f.method.code.labelOffset? label with
  | none => rfl
  | some i => exact ⟨hl, hs⟩

theorem decide (h : f.Stands p g) (hp : OneToOne p) (test : Jump) :
    Matching (fun a b => b.1 = a.1 ∧ a.2.Stands p b.2) (test.decide f) (test.decide g) := by
  cases test with
  | always => exact ⟨rfl, h⟩
  | ifZero | ifNonzero => exact h.pop.bind fun a b ⟨hv, hab⟩ => ⟨by rw [hv.toInt32], hab⟩
  | ifInts t => exact h.popTwo.bind fun a b ⟨hv, hw, hab⟩ => ⟨by rw [hv.toInt32, hw.toInt32], hab⟩
  | ifSame | ifDifferent =>
    exact h.popTwo.bind fun a b ⟨hv, hw, hab⟩ => ⟨by simp only [ne_eq, hv.eq_iff hp hw], hab⟩

theorem enter {vs ws : List Value} (h : List.Forall₂ (Value.Stands p) vs ws) (cls : String) (code : MethodCode)
    (pushes : Bool) : (Frame.enter cls code vs pushes).Stands p (Frame.enter cls code ws pushes) := by
  refine ⟨?_, .nil⟩
  have hnull : List.Forall₂ (Value.Stands p) (List.replicate (code.localsLimit.toNat - vs.length) Value.null)
      (List.replicate (code.localsLimit.toNat - ws.length) Value.null) := by
    rw [h.length_eq]
    exact List.forall₂_same.2 fun v hv => (List.eq_of_mem_replicate hv) ▸ .null
  simpa [Frame.enter] using List.rel_append h hnull

end Frame.Stands

theorem Jump.method_of_decide {test : Jump} {f g : Frame} {b : Bool} (h : test.decide f = .ok (b, g)) :
    g.method = f.method := by
  cases test with
  | always => cases h; rfl
  | ifZero | ifNonzero =>
    obtain ⟨⟨v, f'⟩, hpop, hb⟩ := bind_eq_ok.1 h
    unfold Frame.pop at hpop
    split at hpop
    · cases hpop
    · cases hpop
      cases hb
      rfl
  | ifInts | ifSame | ifDifferent =>
    obtain ⟨⟨v, w, f'⟩, hpop, hb⟩ := bind_eq_ok.1 h
    unfold Frame.popTwo at hpop
    split at hpop
    · cases hpop
      cases hb
      rfl
    · cases hpop

/-- Replies of both machines. -/
inductive Reply.Stands (p : List (String × String)) : Reply → Reply → Prop
  | value {v w : Value} {h h' : Heap} (hv : v.Stands p w) (hh : h.Stands p h') (printed : String) :
      Stands p (.value v h printed) (.value w h' printed)
  | call {h h' : Heap} (hh : h.Stands p h') (cls : String) (code : MethodCode) {vs ws : List Value}
      (hs : List.Forall₂ (Value.Stands p) vs ws) : Stands p (.call h cls code vs) (.call h' cls code ws)

/-- Effects of both machines. -/
inductive Effect.Stands (p : List (String × String)) : Effect → Effect → Prop
  | next {f g : Frame} {h h' : Heap} (hf : f.Stands p g) (hh : h.Stands p h') (printed : String) :
      Stands p (.next f h printed) (.next g h' printed)
  | call {f g : Frame} {h h' : Heap} (hf : f.Stands p g) (hh : h.Stands p h') (cls : String) (code : MethodCode)
      {vs ws : List Value} (hs : List.Forall₂ (Value.Stands p) vs ws) (pushes : Bool) :
      Stands p (.call f h cls code vs pushes) (.call g h' cls code ws pushes)

section Operations

variable {m : Machine} {h h' : Heap} {k : Lookup} {v w : Value} {vs ws : List Value} {f g : Frame}

theorem asInstance_stands (hh : h.Stands p h') (hk : k.Reads p) (hv : v.Stands p w) :
    Matching (fun a b => b.1 = a.1 ∧ List.Forall₂ (fun f g => g.1 = f.1 ∧ f.2.Stands p g.2) a.2 b.2)
      (asInstance h v k) (asInstance h' w) := by
  have ho := hh.get? hv
  unfold asInstance
  rw [hv.isNull, hh.castFault hk hv]
  split
  · rfl
  · generalize h.get? v = a at ho
    generalize h'.get? w = b at ho
    cases ho with
    | none => rfl
    | some ho =>
      cases ho with
      | inst cls hs => exact ⟨rfl, hs⟩
      | integer | boolean | list | fptr | arrayList => rfl

theorem elementsOf_stands (hh : h.Stands p h') (hk : k.Reads p) (hv : v.Stands p w)
    {select : Object → Option (List Value)}
    (hselect : ∀ a b, Object.Stands p a b → Option.Rel (List.Forall₂ (Value.Stands p)) (select a) (select b))
    (note : String) :
    Matching (List.Forall₂ (Value.Stands p)) (elementsOf h select v note k) (elementsOf h' select w note) := by
  have ho := hh.get? hv
  unfold elementsOf
  rw [hv.isNull, hh.castFault hk hv]
  split
  · rfl
  · have hes : Option.Rel (List.Forall₂ (Value.Stands p)) ((h.get? v).bind select) ((h'.get? w).bind select) := by
      generalize h.get? v = a at ho
      generalize h'.get? w = b at ho
      cases ho with
      | none => exact .none
      | some ho => exact hselect _ _ ho
    generalize (h.get? v).bind select = a at hes
    generalize (h'.get? w).bind select = b at hes
    cases hes with
    | none => rfl
    | some hes => exact hes

theorem listElems?_stands {a b : Object} (h : a.Stands p b) :
    Option.Rel (List.Forall₂ (Value.Stands p)) a.listElems? b.listElems? := by
  cases h with
  | list h => exact .some h
  | integer | boolean | inst | fptr | arrayList => exact .none

theorem arrayListElems?_stands {a b : Object} (h : a.Stands p b) :
    Option.Rel (List.Forall₂ (Value.Stands p)) a.arrayListElems? b.arrayListElems? := by
  cases h with
  | arrayList h => exact .some h
  | integer | boolean | inst | fptr | list => exact .none

theorem fillList_stands (hh : h.Stands p h') (hk : k.Reads p) (hv : v.Stands p w)
    (hs : List.Forall₂ (Value.Stands p) vs ws) {select : Object → Option (List Value)}
    (hselect : ∀ a b, Object.Stands p a b → Option.Rel (List.Forall₂ (Value.Stands p)) (select a) (select b)) :
    Matching (Heap.Stands p) (NativeConstructor.run.fillList h v vs k select)
      (NativeConstructor.run.fillList h' w ws {} select) := by
  have ho := hh.get? hv
  unfold NativeConstructor.run.fillList
  rw [hh.className hv]
  generalize h.get? v = a at ho
  generalize h'.get? w = b at ho
  cases ho with
  | none => rfl
  | some ho =>
    cases ho with
    | list _ => exact (elementsOf_stands hh hk (.argument hs 0) hselect "").bind fun _ _ hes => hh.set hv (.list hes)
    | integer | boolean | inst | fptr | arrayList => rfl

theorem constructor_stands (hh : h.Stands p h') (hk : k.Reads p) (n : NativeConstructor) (hv : v.Stands p w)
    (hs : List.Forall₂ (Value.Stands p) vs ws) : Matching (Heap.Stands p) (n.run h v vs k) (n.run h' w ws) := by
  cases n with
  | listOfArrayList => exact fillList_stands hh hk hv hs fun _ _ => arrayListElems?_stands
  | listCopy => exact fillList_stands hh hk hv hs fun _ _ => listElems?_stands
  | fptrBind =>
    have ho := hh.get? hv
    have hname : (argument vs 1).Stands p (argument ws 1) := .argument hs 1
    simp only [NativeConstructor.run, hh.className hv]
    generalize h.get? v = a at ho
    generalize h'.get? w = b at ho
    cases ho with
    | none => rfl
    | some ho =>
      cases ho with
      | fptr _ _ =>
        have hcast := hh.castFault (α := Heap) hk hname ("method name " ++ ·)
        dsimp only
        generalize argument vs 1 = x at hname hcast
        generalize argument ws 1 = y at hname hcast
        cases hname with
        | str ht =>
          simp only [hk _ ht]
          exact hh.set hv (.fptr (.argument hs 0) _)
        | null | int | stream | ref => simp only [hcast]; rfl
      | integer | boolean | inst | list | arrayList => rfl

theorem dispatch_stands (hh : h.Stands p h') (hk : k.Reads p) (hv : v.Stands p w) (name : String)
    (hs : List.Forall₂ (Value.Stands p) vs ws) :
    Matching (Reply.Stands p) (m.dispatch h v name vs k) (m.dispatch h' w name ws) := by
  have hinst := asInstance_stands hh hk hv
  unfold Machine.dispatch
  generalize asInstance h v k = a at hinst
  generalize asInstance h' w = b at hinst
  match a, b, hinst with
  | .error e, .error _, rfl => rfl
  | .ok a, .ok b, ⟨hcls, _⟩ =>
    simp only [hcls]
    cases (m.class? a.1).bind (·.table.lookup name) with
    | none => rfl
    | some owner =>
      cases hc : m.class? owner with
      | none => simp only [hc]; rfl
      | some c =>
        simp only [hc]
        cases c.methodNamed? name with
        | none => rfl
        | some code =>
          simp only [hs.length_eq]
          split
          · exact .call hh _ _ (.cons hv hs)
          · rfl

theorem position_stands (hs : List.Forall₂ (Value.Stands p) vs ws) {es fs : List Value}
    (hes : List.Forall₂ (Value.Stands p) es fs) :
    NativeMethod.run.position ws fs = NativeMethod.run.position vs es := by
  rw [NativeMethod.run.position, NativeMethod.run.position, (Value.Stands.argument hs 0).toInt32, hes.length_eq]

theorem nativeMethod_stands (hh : h.Stands p h') (hk : k.Reads p) (n : NativeMethod) (hv : v.Stands p w)
    (hs : List.Forall₂ (Value.Stands p) vs ws) :
    Matching (Reply.Stands p) (n.run m h v vs k) (n.run m h' w ws) := by
  have ho := hh.get? hv
  have hfirst : (argument vs 0).Stands p (argument ws 0) := .argument hs 0
  cases n with
  | printInt =>
    rw [NativeMethod.run, NativeMethod.run, hfirst.toInt32]
    exact Reply.Stands.value .null hh _
  | printBool =>
    rw [NativeMethod.run, NativeMethod.run, hfirst.toBool]
    exact Reply.Stands.value .null hh _
  | printString =>
    simp only [NativeMethod.run, hh.text hk hfirst, hh.castFault hk hfirst]
    split
    · exact Reply.Stands.value .null hh _
    · rfl
  | intValue =>
    simp only [NativeMethod.run, castTo, hh.className hv]
    generalize h.get? v = a at ho
    generalize h'.get? w = b at ho
    cases ho with
    | none => rfl
    | some ho =>
      cases ho with
      | integer x => exact Reply.Stands.value (.int x) hh ""
      | _ => rfl
  | booleanValue =>
    simp only [NativeMethod.run, castTo, hh.className hv]
    generalize h.get? v = a at ho
    generalize h'.get? w = b at ho
    cases ho with
    | none => rfl
    | some ho =>
      cases ho with
      | boolean b => exact Reply.Stands.value (.ofBool b) hh ""
      | _ => rfl
  | arrayListAdd =>
    simp only [NativeMethod.run, castTo, hh.className hv]
    generalize h.get? v = a at ho
    generalize h'.get? w = b at ho
    cases ho with
    | none => rfl
    | some ho =>
      cases ho with
      | arrayList hes =>
        exact Reply.Stands.value (.ofBool true)
          (hh.set hv (.arrayList (List.rel_append hes (.cons hfirst .nil)))) ""
      | _ => rfl
  | getElement =>
    simp only [NativeMethod.run, castTo, hh.className hv]
    generalize h.get? v = a at ho
    generalize h'.get? w = b at ho
    cases ho with
    | none => rfl
    | some ho =>
      cases ho with
      | list hes =>
        simp only [position_stands hs hes]
        split
        · exact Reply.Stands.value (.argument hes _) hh ""
        · rfl
      | _ => rfl
  | setElement =>
    simp only [NativeMethod.run, castTo, hh.className hv]
    generalize h.get? v = a at ho
    generalize h'.get? w = b at ho
    cases ho with
    | none => rfl
    | some ho =>
      cases ho with
      | list hes =>
        simp only [position_stands hs hes]
        split
        · exact Reply.Stands.value .null (hh.set hv (.list (forall₂_set hes (.argument hs 1) _))) ""
        · rfl
      | _ => rfl
  | invoke =>
    simp only [NativeMethod.run, castTo, hh.className hv]
    generalize h.get? v = a at ho
    generalize h'.get? w = b at ho
    cases ho with
    | none => rfl
    | some ho =>
      cases ho with
      | fptr hr name =>
        exact (elementsOf_stands hh hk hfirst (fun _ _ => arrayListElems?_stands) _).bind fun _ _ hargs =>
          dispatch_stands hh hk hr name hargs
      | _ => rfl

theorem allocate_stands (cls : String) : Matching (Object.Stands p) (m.allocate cls) (m.allocate cls) := by
  unfold Machine.allocate
  split_ifs
  · exact .list .nil
  · exact .fptr .null ""
  · exact .arrayList .nil
  · exact .inst cls .nil
  · rfl

section Frames

variable (hh : h.Stands p h') (hk : k.Reads p) (hf : f.Stands p g)

include hh hf

theorem pushes_stands (hv : v.Stands p w) :
    Matching (Effect.Stands p) (Effect.quiet h <$> f.push v) (Effect.quiet h' <$> g.push w) :=
  (hf.push hv).map fun _ _ hfg => .next hfg hh ""

include hk

theorem invokeSpecial_stands (ref : MemberRef) :
    Matching (Effect.Stands p) (m.invokeSpecial f h ref k) (m.invokeSpecial g h' ref) := by
  unfold Machine.invokeSpecial
  split
  · rfl
  · refine (hf.popMany _).bind ?_
    rintro ⟨vs, f⟩ ⟨ws, g⟩ ⟨hs, hfg⟩
    have hrecv : (argument vs 0).Stands p (argument ws 0) := .argument hs 0
    dsimp only
    rw [hrecv.isNull]
    split
    · rfl
    · split
      · next n _ =>
        have htail : List.Forall₂ (Value.Stands p) vs.tail ws.tail := by
          simpa using List.forall₂_drop 1 hs
        exact (constructor_stands hh hk n hrecv htail).bind fun _ _ hheap => .next hfg hheap ""
      · split
        · exact .next hfg hh ""
        · cases m.class? ref.owner with
          | none => rfl
          | some c =>
            dsimp only
            cases c.method? ref.name ref.desc with
            | none => rfl
            | some code => exact .call hfg hh _ _ hs _

theorem invokeVirtual_stands (ref : MemberRef) :
    Matching (Effect.Stands p) (m.invokeVirtual f h ref k) (m.invokeVirtual g h' ref) := by
  unfold Machine.invokeVirtual
  refine (hf.popMany _).bind ?_
  rintro ⟨vs, f⟩ ⟨ws, g⟩ ⟨hs, hfg⟩
  have hrecv : (argument vs 0).Stands p (argument ws 0) := .argument hs 0
  dsimp only
  rw [hrecv.isNull]
  split
  · rfl
  · split
    · next n _ =>
      have htail : List.Forall₂ (Value.Stands p) vs.tail ws.tail := by
        simpa using List.forall₂_drop 1 hs
      refine (nativeMethod_stands hh hk n hrecv htail).bind ?_
      rintro _ _ (⟨hv, hheap, printed⟩ | ⟨hheap, cls, code, hargs⟩)
      · dsimp only
        split
        · exact (hfg.push hv).bind fun _ _ hfg => .next hfg hheap printed
        · exact .next hfg hheap printed
      · exact .call hfg hheap cls code hargs _
    · refine (asInstance_stands hh hk hrecv).bind ?_
      rintro ⟨_, _⟩ ⟨cls, _⟩ ⟨rfl, _⟩
      dsimp only
      cases m.virtualMethod? cls ref.name ref.desc with
      | none => rfl
      | some found => exact .call hfg hh _ _ hs _

omit hk in
theorem invokeStatic_stands (ref : MemberRef) :
    Matching (Effect.Stands p) (Machine.invokeStatic f h ref) (Machine.invokeStatic g h' ref) := by
  unfold Machine.invokeStatic
  refine (hf.popMany _).bind ?_
  rintro ⟨vs, f⟩ ⟨ws, g⟩ ⟨hs, hfg⟩
  have hfirst : (argument vs 0).Stands p (argument ws 0) := .argument hs 0
  dsimp only
  cases NativeStatic.ofRef? ref with
  | none => rfl
  | some n =>
    cases n with
    | integerValueOf =>
      simp only [NativeStatic.run, hfirst.toInt32, Heap.alloc, hh.size_eq]
      exact (hfg.push (.ref _)).bind fun _ _ hfg => .next hfg (hh.push (.integer _)) ""
    | booleanValueOf =>
      simp only [NativeStatic.run, hfirst.toBool, Heap.alloc, hh.size_eq]
      exact (hfg.push (.ref _)).bind fun _ _ hfg => .next hfg (hh.push (.boolean _)) ""

/-- One operation does the same on both machines, if its constant has a name and its label is found right. -/
theorem exec_stands (hp : OneToOne p) (op : Op) (hname : ∀ text, op = .pushString text → (text, k.string text) ∈ p)
    (hlabel : ∀ test label f', op = .jump test label → test.decide f = .ok (true, f') →
      k.label f.method.code label = f.method.code.labelOffset? label) :
    Matching (Effect.Stands p) (m.exec f h op k) (m.exec g h' op) := by
  cases op with
  | pushInt v => exact pushes_stands hh hf (.int _)
  | pushString s => exact pushes_stands hh hf (.str (hname s rfl))
  | pushNull => exact pushes_stands hh hf .null
  | load kind i =>
    simp only [Machine.exec, hf.slot]
    refine Matching.bind (R := Eq) (.refl (fun _ => rfl) _) fun j _ hj => ?_
    subst hj
    exact pushes_stands hh hf (hf.local? j)
  | store kind i =>
    simp only [Machine.exec, hf.slot]
    refine Matching.bind (R := Eq) (.refl (fun _ => rfl) _) fun j _ hj => ?_
    subst hj
    exact hf.pop.bind fun _ _ ⟨hv, hfg⟩ => .next (hfg.setLocal j hv) hh ""
  | increment i d =>
    simp only [Machine.exec, hf.slot]
    refine Matching.bind (R := Eq) (.refl (fun _ => rfl) _) fun j _ hj => ?_
    subst hj
    rw [(hf.local? j).toInt32]
    exact .next (hf.setLocal j (.int _)) hh ""
  | dup =>
    exact hf.pop.bind fun _ _ ⟨hv, hfg⟩ => (hfg.push hv).bind fun _ _ hfg => pushes_stands hh hfg hv
  | pop => exact hf.pop.bind fun _ _ ⟨_, hfg⟩ => .next hfg hh ""
  | arith op =>
    refine hf.popTwo.bind ?_
    rintro ⟨v, w, f⟩ ⟨v', w', g⟩ ⟨hv, hw, hfg⟩
    dsimp only at hv hw ⊢
    rw [hv.toInt32, hw.toInt32]
    refine Matching.bind (R := Eq) (.refl (fun _ => rfl) _) fun n _ hn => ?_
    subst hn
    exact pushes_stands hh hfg (.int n)
  | neg =>
    refine hf.pop.bind ?_
    rintro ⟨v, f⟩ ⟨v', g⟩ ⟨hv, hfg⟩
    dsimp only at hv ⊢
    rw [hv.toInt32]
    exact pushes_stands hh hfg (.int _)
  | jump test label =>
    -- Whether the jump is taken depends on values that stand for each other; the offset is `hlabel`.
    have hdecide := hf.decide hp test
    simp only [Machine.exec]
    cases hx : test.decide f with
    | error e =>
      generalize test.decide g = y at hdecide
      rw [hx] at hdecide
      match y, hdecide with
      | .error _, rfl => rfl
    | ok a =>
      generalize test.decide g = y at hdecide
      rw [hx] at hdecide
      match a, y, hdecide with
      | (false, f'), .ok (_, g'), ⟨rfl, hfg⟩ => exact .next hfg hh ""
      | (true, f'), .ok (_, g'), ⟨rfl, hfg⟩ =>
        have hfound := hlabel test label f' rfl hx
        rw [← Jump.method_of_decide hx] at hfound
        exact (hfg.jumpTo hfound).map fun _ _ hfg => .next hfg hh ""
  | label l => exact .next hf hh ""
  | new cls =>
    refine (allocate_stands (p := p) cls).bind fun o o' ho => ?_
    simp only [Heap.alloc, hh.size_eq]
    exact (hf.push (.ref _)).bind fun _ _ hfg => .next hfg (hh.push ho) ""
  | cast cls =>
    obtain ⟨hl, hs⟩ := hf
    simp only [Machine.exec]
    generalize hvs : f.stack = vs at hs
    cases hs with
    | nil => rfl
    | cons hv hs =>
      simp only [hv.isNull, hv.isReference, hh.isInstance m hv, hh.castFault hk hv]
      split
      · exact .next ⟨hl, hvs ▸ .cons hv hs⟩ hh ""
      · rfl
  | getField ref =>
    refine hf.pop.bind ?_
    rintro ⟨v, f⟩ ⟨w, g⟩ ⟨hv, hfg⟩
    have hinst := asInstance_stands hh hk hv
    dsimp only at hinst ⊢
    generalize asInstance h v k = x at hinst
    generalize asInstance h' w = y at hinst
    match x, y, hinst with
    | .error _, .error _, rfl => rfl
    | .ok _, .ok _, ⟨_, hfields⟩ => exact pushes_stands hh hfg (fieldValue_stands hfields ref.name)
  | putField ref =>
    refine hf.popTwo.bind ?_
    rintro ⟨v, v', f⟩ ⟨w, w', g⟩ ⟨hv, hw, hfg⟩
    have hinst := asInstance_stands hh hk hv
    dsimp only at hinst ⊢
    generalize asInstance h v k = x at hinst
    generalize asInstance h' w = y at hinst
    match x, y, hinst with
    | .error _, .error _, rfl => rfl
    | .ok (cls, _), .ok (_, _), ⟨hcls, hfields⟩ =>
      dsimp only at hcls
      subst hcls
      exact .next hfg (hh.set hv (.inst _ (setFieldValue_stands hfields ref.name hw))) ""
  | getStatic ref =>
    simp only [Machine.exec]
    split
    · exact pushes_stands hh hf .stream
    · rfl
  | invokeSpecial ref => exact invokeSpecial_stands hh hk hf ref
  | invokeVirtual ref => exact invokeVirtual_stands hh hk hf ref
  | invokeStatic ref => exact invokeStatic_stands hh hf ref
  | ret | retRef | unknown => rfl

end Frames

end Operations

end ClassCompiler
