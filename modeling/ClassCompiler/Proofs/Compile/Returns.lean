import ClassCompiler.Proofs.Code.Paths

namespace ClassCompiler

/-- Operations in a row of which each goes on to the next. -/
def straight (os : List Op) : Bool := os.all Op.isStraight

@[simp] theorem straight_nil : straight [] = true := rfl

@[simp] theorem straight_cons (op : Op) (os : List Op) : straight (op :: os) = (op.isStraight && straight os) := rfl

@[simp] theorem straight_append (os os' : List Op) : straight (os ++ os') = (straight os && straight os') :=
  List.all_append

section

variable (t u : Ty)

@[simp] theorem straight_box : straight (box t) = true := by cases t <;> rfl

@[simp] theorem straight_unbox : straight (unbox t) = true := by cases t <;> rfl

@[simp] theorem straight_narrow : straight (narrow t) = true := by cases t <;> rfl

@[simp] theorem straight_newArrayList : straight newArrayList = true := rfl

@[simp] theorem straight_addElement : straight addElement = true := rfl

@[simp] theorem straight_castElement : straight (castElement t) = true := by
  unfold castElement
  split <;> rfl

@[simp] theorem straight_copyBegin : straight (copyBegin t u) = true := by
  unfold copyBegin
  split <;> rfl

@[simp] theorem straight_copyEnd : straight (copyEnd t u) = true := by
  unfold copyEnd
  split <;> rfl

@[simp] theorem straight_callResultOps : straight (Context.callResultOps t) = true := by
  cases t with
  | fptr ps r => cases h : r.isVoid <;> simp [Context.callResultOps, h]
  | _ => rfl

@[simp] theorem straight_changeBy (delta : Int) (isPre : Bool) (slot : Nat) :
    straight (changeBy delta isPre slot) = true := by cases isPre <;> rfl

@[simp] theorem straight_changeVariable (slot : Nat) (op : UnOp) : straight (changeVariable slot op) = true := by
  cases h : op.isPre <;> simp [changeVariable, h]

theorem straight_changeElement (list val : Nat) (index : Op) (op : UnOp) :
    straight (changeElement list val index op) = index.isStraight := by
  simp only [changeElement, straight_append, straight_cons, straight_narrow, straight_changeBy, straight_box,
    straight_nil]
  cases index.isStraight <;> rfl

theorem straight_changeField (obj val : Nat) (field : MemberRef) (op : UnOp) :
    straight (changeField obj val field op) = true := by
  simp [changeField]

theorem straight_storeElementOps (index : Op) : straight (storeElementOps t u index) = index.isStraight := by
  simp only [storeElementOps, straight_append, straight_cons, straight_narrow, straight_box, straight_nil]
  cases index.isStraight <;> rfl

theorem straight_storeField (field : MemberRef) : straight (storeField t u field) = true := by
  simp [storeField]

end

mutual

@[simp] theorem straight_defaultValue (t : Ty) : straight (defaultValue t) = true := by
  match t with
  | .int | .bool | .string | .null | .void | .noType | .cls _ | .fptr _ _ => simp [defaultValue]
  | .list es => simp [defaultValue, straight_defaultElements es]

@[simp] theorem straight_defaultElements (es : List (String × Ty)) : straight (defaultElements es) = true := by
  match es with
  | [] => rfl
  | (_, t) :: es => simp [defaultElements, straight_defaultValue t, straight_defaultElements es]

end

def liveFlow : Flow Bool where
  falls op a b := a = true → op.isFinal = false → b = true
  jumps _ a x := a = true → x = true

/-- A statement that is a return, or statements of which one is: what comes after is not live. -/
def Piece.returns : Piece → Bool
  | .stmt _ s => s.isReturn
  | .stmts _ ss => ss.any Stmt.isReturn
  | _ => false

def LiveAt (T : Targets Bool) (l : String) (a : Bool) : Prop := ∃ x, T l x ∧ (a = true → x = true)

/-- A piece is left where it is entered, unless it returns. -/
def liveClaim : Claim Bool := fun T p _ a b => (b = a ∨ p.returns = true ∧ b = false) ∧
  match p with
  | .test _ done _ => LiveAt T done a
  | .stmt loop _ | .stmts loop _ | .orElse loop _ => ∀ lp, loop = some lp → LiveAt T lp.next a ∧ LiveAt T lp.done a
  | _ => True

namespace Live

variable {T : Targets Bool} {own : String → Option Bool} {a b : Bool} {os : List Op} {op : Op}

theorem step_straight (h : op.isStraight = true) (hb : a = true → b = true) :
    liveFlow.Step T op a b ∧ ∀ l, op = .label l → own l = some a := by
  refine ⟨⟨fun ha _ => hb ha, ?_⟩, ?_⟩
  · rintro test l rfl
    cases h
  · rintro l rfl
    cases h

theorem step_label {l : String} (hl : own l = some a) (hb : a = true → b = true) :
    liveFlow.Step T (.label l) a b ∧ ∀ l', Op.label l = .label l' → own l' = some a :=
  ⟨⟨fun ha _ => hb ha, by simp⟩, fun l' he => by cases he; exact hl⟩

theorem step_jump {test : Jump} {l : String} (hl : LiveAt T l a) (hb : test ≠ .always → a = true → b = true) :
    liveFlow.Step T (.jump test l) a b ∧ ∀ l', Op.jump test l = .label l' → own l' = some a := by
  obtain ⟨x, hT, hx⟩ := hl
  refine ⟨⟨fun ha hf => hb (fun he => ?_) ha, fun test' l' he => ?_⟩, by simp⟩
  · subst he
    cases hf
  · cases he
    exact ⟨x, hx, hT⟩

theorem path_straight (h : straight os = true) : liveFlow.Path T own os a a := by
  induction os with
  | nil => rfl
  | cons op os ih =>
    rw [straight_cons, Bool.and_eq_true] at h
    exact ⟨a, step_straight h.1 id, ih h.2⟩

theorem path_branchMerge {s : Supply} {test : Jump} {taken : Int}
    (hT : ∀ l x, Flow.ownStates s [a, a] l = some x → T l x) :
    liveFlow.Path T (Flow.ownStates s [a, a]) (branchMerge test taken (s.label 0) (s.label 1)) a a := by
  have hl : ∀ i, i < 2 → Flow.ownStates s [a, a] (s.label i) = some a := by
    intro i hi
    rw [Flow.ownStates_label]
    match i, hi with
    | 0, _ | 1, _ => rfl
  have hlive : ∀ i, i < 2 → LiveAt T (s.label i) a := fun i hi => ⟨a, hT _ _ (hl i hi), id⟩
  exact ⟨a, step_jump (hlive 0 (by omega)) fun _ => id, a, step_straight rfl id,
    a, step_jump (hlive 1 (by omega)) fun _ => id, a, step_label (hl 0 (by omega)) id, a, step_straight rfl id,
    a, step_label (hl 1 (by omega)) id, rfl⟩

end Live

def Item.KeepsLive (T : Targets Bool) (a : Bool) : Item → Prop
  | .ops _ os => straight os = true
  | .part q t _ _ _ => liveClaim T q t a a

theorem Live.chain {T : Targets Bool} {own : String → Option Bool} {a : Bool} {items : List Item}
    (h : ∀ i ∈ items, i.KeepsLive T a) : liveFlow.Chain liveClaim T own items a a := by
  induction items with
  | nil => rfl
  | cons i is ih =>
    obtain ⟨hi, his⟩ := List.forall_mem_cons.1 h
    cases i with
    | ops line os => exact ⟨a, Live.path_straight hi, ih his⟩
    | part q t c t' sp => exact ⟨a, hi, ih his⟩

theorem liveClaim_expr {T : Targets Bool} {a : Bool} {e : Expr} {s : Supply} : liveClaim T (.expr e) s a a :=
  ⟨.inl rfl, trivial⟩

theorem LiveAt.own {T : Targets Bool} {own : String → Option Bool} {a c : Bool} {l : String} (h : own l = some a)
    (hc : c = true → a = true) : LiveAt (fun l x => T l x ∨ own l = some x) l c := ⟨a, .inr h, hc⟩

/-- What labels outside allow, they allow past a piece too, which may be less live. -/
theorem loopLive_mono {T : Targets Bool} (own : String → Option Bool) {loop : Option Loop} {a c : Bool}
    (h : ∀ lp, loop = some lp → LiveAt T lp.next a ∧ LiveAt T lp.done a) (hc : c = true → a = true) :
    ∀ lp, loop = some lp → LiveAt (fun l x => T l x ∨ own l = some x) lp.next c ∧
      LiveAt (fun l x => T l x ∨ own l = some x) lp.done c := fun lp hlp => by
  obtain ⟨⟨x, hx, hax⟩, y, hy, hay⟩ := h lp hlp
  exact ⟨⟨x, .inl hx, fun h => hax (hc h)⟩, y, .inl hy, fun h => hay (hc h)⟩

theorem liveFlow_sound {ctx : Context} : liveFlow.Sound ctx liveClaim := by
  intro p s items s' hr hslots T a b hk
  clear hslots
  obtain ⟨hb, hk⟩ := hk
  -- Where a form places labels, each gets the state that the form is entered in; the items are then taken one by one.
  cases hr
  case logical =>
    obtain rfl : b = a := by simpa [Piece.returns] using hb
    have hl := Flow.ownStates_label s [b, b] 0
    refine ⟨Flow.ownStates s [b, b], fun l x => Flow.owned_of_ownStates ?_, ?_⟩
    · simp [Flow.Owned, or_and_right, exists_or, branchMerge]
      omega
    · exact ⟨b, liveClaim_expr, b, ⟨b, Live.step_jump (.own hl id) fun _ => id, rfl⟩, b, liveClaim_expr, b,
        Live.path_branchMerge fun l x h => .inr h, rfl⟩
  case not s₁ _ =>
    obtain rfl : b = a := by simpa [Piece.returns] using hb
    refine ⟨Flow.ownStates s₁ [b, b], fun l x => Flow.owned_of_ownStates ?_, ?_⟩
    · simp [Flow.Owned, branchMerge]
      omega
    · exact ⟨b, liveClaim_expr, b, Live.path_branchMerge fun l x h => .inr h, rfl⟩
  case compare s₂ _ _ =>
    obtain rfl : b = a := by simpa [Piece.returns] using hb
    refine ⟨Flow.ownStates s₂ [b, b], fun l x => Flow.owned_of_ownStates ?_, ?_⟩
    · simp [Flow.Owned, branchMerge]
      omega
    · exact ⟨b, liveClaim_expr, b, liveClaim_expr, b, Live.path_branchMerge fun l x h => .inr h, rfl⟩
  case test =>
    obtain rfl : b = a := by simpa [Piece.returns] using hb
    refine ⟨fun _ => none, by simp, b, liveClaim_expr, b, ⟨b, Live.step_jump ?_ fun _ => id, rfl⟩, rfl⟩
    obtain ⟨x, hx, hbx⟩ := hk
    exact ⟨x, .inl hx, hbx⟩
  case cond =>
    obtain rfl : b = a := by simpa [Piece.returns, Stmt.isReturn] using hb
    have h0 := Flow.ownStates_label s [b, b] 0
    have h1 := Flow.ownStates_label s [b, b] 1
    have hloop := loopLive_mono (Flow.ownStates s [b, b]) hk id
    refine ⟨Flow.ownStates s [b, b], fun l x => Flow.owned_of_ownStates ?_, ?_⟩
    · simp [Flow.Owned, or_and_right, exists_or]
      omega
    · exact ⟨b, liveClaim_expr, b, ⟨b, Live.step_jump (.own h0 id) fun _ => id, rfl⟩, b, ⟨.inl rfl, hloop⟩, b,
        ⟨b, Live.step_jump (.own h1 id) (absurd rfl), b, Live.step_label h0 id, rfl⟩, b, ⟨.inl rfl, hloop⟩, b,
        ⟨b, Live.step_label h1 id, rfl⟩, rfl⟩
  case «for» =>
    obtain rfl : b = a := by simpa [Piece.returns, Stmt.isReturn] using hb
    have h0 := Flow.ownStates_label s [b, b, b] 0
    have h1 := Flow.ownStates_label s [b, b, b] 1
    have h2 := Flow.ownStates_label s [b, b, b] 2
    refine ⟨Flow.ownStates s [b, b, b], fun l x => Flow.owned_of_ownStates ?_, ?_⟩
    · simp [Flow.Owned, or_and_right, exists_or]
      omega
    · refine ⟨b, ⟨.inl rfl, trivial⟩, b, ⟨b, Live.step_label h0 id, rfl⟩, b, ⟨.inl rfl, .own h2 id⟩, b,
        ⟨.inl rfl, ?_⟩, b, ⟨b, Live.step_label h1 id, rfl⟩, b, ⟨.inl rfl, trivial⟩, b,
        ⟨b, Live.step_jump (.own h0 id) (absurd rfl), b, Live.step_label h2 id, rfl⟩, rfl⟩
      rintro lp ⟨⟩
      exact ⟨.own h1 id, .own h2 id⟩
  case foreach =>
    obtain rfl : b = a := by simpa [Piece.returns, Stmt.isReturn] using hb
    have h0 := Flow.ownStates_label s [b, b, b] 0
    have h1 := Flow.ownStates_label s [b, b, b] 1
    have h2 := Flow.ownStates_label s [b, b, b] 2
    refine ⟨Flow.ownStates s [b, b, b], fun l x => Flow.owned_of_ownStates ?_, ?_⟩
    · simp [Flow.Owned, or_and_right, exists_or]
      omega
    · refine ⟨b, liveClaim_expr, b, ?_, b, ⟨.inl rfl, ?_⟩, b, ⟨b, Live.step_label h1 id, b, Live.step_straight rfl id, b,
        Live.step_jump (.own h0 id) (absurd rfl), b, Live.step_label h2 id, rfl⟩, rfl⟩
      · exact ⟨b, Live.step_straight rfl id, b, Live.step_straight rfl id, b, Live.step_straight rfl id, b,
          Live.step_label h0 id, b, Live.step_straight rfl id, b, Live.step_straight rfl id, b,
          Live.step_jump (.own h2 id) fun _ => id, Live.path_straight (by simp)⟩
      · rintro lp ⟨⟩
        exact ⟨.own h1 id, .own h2 id⟩
  case ret =>
    refine ⟨fun _ => none, by simp, b, ⟨b, ⟨⟨fun _ hf => ?_, by simp⟩, by simp⟩, rfl⟩, rfl⟩
    cases hf
  case retValue =>
    refine ⟨fun _ => none, by simp, a, liveClaim_expr, b, ?_, rfl⟩
    unfold returnValue
    split
    · refine ⟨a, Live.step_straight rfl id, b, ⟨⟨fun _ hf => ?_, by simp⟩, by simp⟩, rfl⟩
      cases hf
    · refine Flow.path_append.2 ⟨a, Live.path_straight (by simp), b, ⟨⟨fun _ hf => ?_, by simp⟩, by simp⟩, rfl⟩
      cases hf
  case «break» lp _ =>
    obtain rfl : b = a := by simpa [Piece.returns, Stmt.isReturn] using hb
    obtain ⟨-, x, hx, hbx⟩ := hk lp rfl
    exact ⟨fun _ => none, by simp, b, ⟨b, Live.step_jump ⟨x, .inl hx, hbx⟩ (absurd rfl), rfl⟩, rfl⟩
  case «continue» lp _ =>
    obtain rfl : b = a := by simpa [Piece.returns, Stmt.isReturn] using hb
    obtain ⟨⟨x, hx, hbx⟩, -⟩ := hk lp rfl
    exact ⟨fun _ => none, by simp, b, ⟨b, Live.step_jump ⟨x, .inl hx, hbx⟩ (absurd rfl), rfl⟩, rfl⟩
  case stmts =>
    refine ⟨fun _ => none, by simp, ?_⟩
    have hloop : ∀ {c : Bool}, (c = true → a = true) → _ := fun hc => loopLive_mono (fun _ => none) hk hc
    -- The sequence returns where its first statement or one of the others does.
    rcases hb with rfl | ⟨hp, rfl⟩
    · exact ⟨b, ⟨.inl rfl, hloop id⟩, b, ⟨.inl rfl, hloop id⟩, rfl⟩
    · rw [Piece.returns, List.any_cons, Bool.or_eq_true] at hp
      rcases hp with hx | hxs
      · exact ⟨false, ⟨.inr ⟨hx, rfl⟩, hloop id⟩, false, ⟨.inl rfl, hloop (by simp)⟩, rfl⟩
      · exact ⟨a, ⟨.inl rfl, hloop id⟩, false, ⟨.inr ⟨hxs, rfl⟩, hloop id⟩, rfl⟩
  -- The other forms have no label and no return of their own.
  all_goals
    obtain rfl | ⟨hp, -⟩ := hb
    · refine ⟨fun _ => none, by simp, Live.chain ?_⟩
      simp only [List.forall_mem_cons, List.not_mem_nil, false_implies, implies_true, Item.KeepsLive, liveClaim,
        straight_cons, straight_append, straight_nil, straight_box, straight_unbox, straight_narrow,
        straight_newArrayList, straight_addElement, straight_copyBegin, straight_copyEnd, straight_callResultOps,
        straight_changeVariable, straight_changeElement, straight_changeField, straight_storeElementOps,
        straight_storeField, Op.isStraight, Bool.and_self, true_or, and_self, and_true, true_and, reduceCtorEq] at hk ⊢
      try exact fun lp hlp => ⟨(hk lp hlp).1.imp fun x h => ⟨.inl h.1, h.2⟩, (hk lp hlp).2.imp fun x h => ⟨.inl h.1, h.2⟩⟩
    · cases hp

def Op.isReturn : Op → Bool
  | .ret => true
  | .retRef => true
  | _ => false

def stays (os : List Op) : Bool := os.all fun op => !op.isReturn

section

variable {op : Op} {os os' : List Op}

@[simp] theorem stays_nil : stays [] = true := rfl

@[simp] theorem stays_cons : stays (op :: os) = (!op.isReturn && stays os) := rfl

@[simp] theorem stays_append : stays (os ++ os') = (stays os && stays os') := List.all_append

theorem stays_of_straight (h : straight os = true) : stays os = true := by
  induction os with
  | nil => rfl
  | cons op os ih =>
    rw [straight_cons, Bool.and_eq_true] at h
    rw [stays_cons, ih h.2]
    cases op <;> simp_all [Op.isReturn]

theorem stays_newArrayList : stays newArrayList = true := rfl

theorem stays_addElement : stays addElement = true := rfl

@[simp] theorem stays_branchMerge (test : Jump) (taken : Int) (yes after : String) :
    stays (branchMerge test taken yes after) = true := rfl

end

variable {ctx : Context} {p : Piece} {s s' : Supply} {code : List Instr} {sp : List Span}

/-- Only a return statement adds operations that leave the call. -/
theorem Rule.stays_of_ops {items : List Item} (hr : Rule ctx p s items s') (hp : ∀ loop t v, p ≠ .stmt loop (.ret t v)) :
    ∀ i ∈ items, ∀ line os, i = .ops line os → stays os = true := by
  cases hr
  case ret | retValue => exact absurd rfl (hp _ _ _)
  all_goals
    simp only [forall_ops_nil, forall_ops_cons, forall_ops_cons_part, and_true]
    try simp only [stays_nil, stays_cons, stays_append, stays_branchMerge, stays_of_straight, stays_newArrayList,
      stays_addElement, straight_box, straight_unbox, straight_narrow, straight_castElement, straight_copyBegin,
      straight_copyEnd, straight_callResultOps, straight_changeVariable, straight_changeElement, straight_changeField,
      straight_storeElementOps, straight_storeField, Op.isReturn, Op.isStraight, Bool.not_false, Bool.and_self,
      and_self]

/-- Only the last operation of a return statement leaves the call: it gives the value back, if there is one. -/
theorem returnValue_last {t : Ty} {j : Nat} {op : Op} (hj : (returnValue t)[j]? = some op) (hop : op.isReturn = true) :
    j + 1 = (returnValue t).length ∧ (op = .retRef ↔ t.isVoid = false) := by
  cases t
  all_goals
    simp only [returnValue, box, Ty.isVoid, if_true, Bool.false_eq_true, if_false, List.cons_append, List.nil_append] at hj ⊢
    rcases j with _ | _ | _ | j <;> simp at hj <;> subst hj <;> simp_all [Op.isReturn]

/-- What an operation that leaves the call does for a return statement. -/
def LeavesFor (ctx : Context) (op : Op) (v : Option Expr) : Prop :=
  op = .retRef ↔ ∃ e, v = some e ∧ (ctx.typeOf e).isVoid = false

/-- An operation that leaves the call ends the code of a return statement. -/
theorem Emits.returnSite (h : Emits ctx p s code s' sp) {j : Nat} {i : Instr} (hj : code[j]? = some i)
    (hi : i.op.isReturn = true) : ∃ x ∈ sp, ∃ loop t v, x.piece = .stmt loop (.ret t v) ∧ j + 1 = x.start + x.length ∧
      LeavesFor ctx i.op v := by
  induction h generalizing j with
  | @intro p s s' items code hr hp hc hg ih =>
    have hinner : ∀ {q t body t' xs k}, Item.part q t body t' xs ∈ items → k ≤ j → body[j - k]? = some i →
        (∀ x ∈ xs, x.shift (0 + k) ∈ spansFrom 0 items) → ∃ x ∈ ⟨p, s, 0, code.length⟩ :: spansFrom 0 items,
          ∃ loop t v, x.piece = .stmt loop (.ret t v) ∧ j + 1 = x.start + x.length ∧ LeavesFor ctx i.op v := by
      intro q t c t' xs k hm hk hcode hsp
      obtain ⟨x, hx, loop, u, v, hpiece, hend, hleaves⟩ := ih q t c t' xs hm hcode
      refine ⟨x.shift (0 + k), List.mem_cons_of_mem _ (hsp x hx), loop, u, v, hpiece, ?_, hleaves⟩
      simp only [Span.shift]
      omega
    have hlt : j < code.length := (List.getElem?_eq_some_iff.1 hj).1
    by_cases hret : ∃ loop t v, p = .stmt loop (.ret t v)
    · obtain ⟨loop, t, v, rfl⟩ := hret
      cases hr with
      | ret =>
        refine ⟨_, List.mem_cons_self, loop, t, none, rfl, ?_⟩
        subst hc
        obtain rfl : j = 0 := by simpa [Item.code, onLine] using hlt
        obtain rfl : ⟨.ret, t.pos.line⟩ = i := by simpa [Item.code, onLine] using hj
        exact ⟨by simp [Item.code, onLine], by simp [LeavesFor]⟩
      | @retValue _ _ e _ c _ xs =>
        rw [hc, codeOf_cons, Item.code, List.getElem?_append] at hj
        split at hj
        · refine hinner (k := 0) List.mem_cons_self (Nat.zero_le _) hj fun x hx => ?_
          exact List.mem_append_left _ (List.mem_map_of_mem hx)
        · refine ⟨_, List.mem_cons_self, loop, t, some e, rfl, ?_⟩
          simp only [codeOf_cons, codeOf_nil, List.append_nil, Item.code, onLine, List.getElem?_map,
            Option.map_eq_some_iff] at hj
          obtain ⟨op, hop, rfl⟩ := hj
          obtain ⟨hlast, hleaves⟩ := returnValue_last hop hi
          refine ⟨?_, by simpa [LeavesFor] using hleaves⟩
          simp only [hc, codeOf_cons, codeOf_nil, List.append_nil, Item.code, List.length_append, onLine,
            List.length_map]
          omega
    · push Not at hret
      have hcode := hj
      rw [hc] at hcode
      rcases getElem?_codeOf (n := 0) hcode with ⟨line, os, hm, hop⟩ | ⟨q, t, c, t', xs, k, hm, hk, hcode, hsp⟩
      · have hstays := List.all_eq_true.1 (hr.stays_of_ops hret _ hm line os rfl) _ hop
        simp [hi] at hstays
      · exact hinner hm hk hcode hsp

end ClassCompiler
