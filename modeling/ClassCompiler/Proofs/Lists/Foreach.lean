import ClassCompiler.Proofs.Machine.Comes
import ClassCompiler.Proofs.Machine.Evaluations

namespace ClassCompiler

/-- The parts of a `foreach` in the code of a method: the list and the body, the first of the two slots that it
takes, the slot and the type of its variable, and how many elements it counts. -/
structure Foreach where
  list : Span
  body : Span
  temp : Nat
  slot : Nat
  type : Ty
  limit : Nat

namespace Foreach

variable (w : Foreach)

def setup : Nat := w.list.start + w.list.length

def head : Nat := w.setup + 3

def read : Nat := w.head + 6

def next : Nat := w.body.start + w.body.length

def done : Nat := w.next + 3

def stop : Nat := w.done + 1

/-- How many turns the code counts: the limit as a number that the machine can hold. -/
def turns : Nat := (Int32.ofInt w.limit).toInt.toNat

def setupOps : List Op := [.store .ref w.temp, .pushInt 0, .store .int ((w.temp + 1 : Nat) : Int)]

def testOps (start done : String) : List Op :=
  [.label start, .load .int ((w.temp + 1 : Nat) : Int), .pushInt w.limit, .jump (.ifInts .ge) done]

def fetchOps : List Op :=
  [.load .ref w.temp, .load .int ((w.temp + 1 : Nat) : Int), .invokeVirtual NativeMethod.getElement.ref] ++
    castElement w.type ++ [.store .ref w.slot]

def advanceOps (start : String) (labels : Loop) : List Op :=
  [.label labels.next, .increment ((w.temp + 1 : Nat) : Int) 1, .jump .always start, .label labels.done]

@[simp] theorem length_setupOps : w.setupOps.length = 3 := rfl

@[simp] theorem length_testOps (start done : String) : (w.testOps start done).length = 4 := rfl

@[simp] theorem length_fetchOps : w.fetchOps.length = (castElement w.type).length + 4 := by
  simp [fetchOps]

@[simp] theorem length_advanceOps (start : String) (labels : Loop) : (w.advanceOps start labels).length = 4 := rfl

/-- A loop stands at the span `x` of a statement: its list and its body are among the spans of the method, and no
variable has the slots that it takes. -/
structure Placed (ctx : Context) (mc : MethodCode) (spans : List Span) (x : Span) (v : Ident) (l : Expr) (b : Stmt) :
    Prop where
  list_mem : w.list ∈ spans
  list_piece : w.list.piece = .expr l
  list_start : w.list.start = x.start
  body_mem : w.body ∈ spans
  body_piece : w.body.piece = .stmt (some x.ownLoop) b
  body_start : w.body.start = w.read + 2 + (castElement w.type).length
  stop : x.start + x.length = w.stop
  var : ∃ sym, ctx.method.symbol? v.name = some sym ∧ w.slot = sym.slot ∧ w.type = sym.type
  temps : ctx.method.slotCount ≤ w.temp
  limit : ∃ es, ctx.typeOf l = .list es ∧ w.limit = es.length
  next_label : mc.code.labelOffset? x.ownLoop.next = some w.next
  done_label : mc.code.labelOffset? x.ownLoop.done = some w.done

/-- The operations around the list and the body of a loop. -/
structure Around (mc : MethodCode) (x : Span) : Prop where
  labels : LabelsOnce mc.code
  fresh : w.temp + 2 ≤ w.body.before.slots
  setup : ∃ line, CodeAt mc.code w.setup (onLine line w.setupOps)
  test : ∃ line, CodeAt mc.code w.head (onLine line (w.testOps (x.before.label 0) x.ownLoop.done))
  fetch : ∃ line, CodeAt mc.code (w.head + 4) (onLine line w.fetchOps)
  advance : ∃ line, CodeAt mc.code w.next (onLine line (w.advanceOps (x.before.label 0) x.ownLoop))

end Foreach

/-- A label that leads out of a part of the code is not placed in that part. -/
theorem CodeAt.labelCount_eq_zero {code : Code} {pc k : Nat} {is : List Instr} {l : String} (hat : CodeAt code pc is)
    (hl : LabelsOnce code) (hk : code.labelOffset? l = some k) (hout : k < pc ∨ pc + is.length ≤ k) :
    labelCount is l = 0 := by
  by_contra hne
  obtain ⟨i, hi, hop⟩ := List.countP_pos_iff.1 (Nat.pos_of_ne_zero hne)
  obtain ⟨j, hj⟩ := List.mem_iff_getElem?.1 hi
  have hlt := (List.getElem?_eq_some_iff.1 hj).1
  have hplace := hl.offset (l := l) ⟨i.line, by rw [hat j i hj, ← of_decide_eq_true hop]⟩
  have := Option.some.inj (hk.symm.trans hplace)
  omega

theorem Span.Stands.foreach {ctx : Context} {mc : MethodCode} {spans : List Span} {x : Span} {t : Token} {v : Ident}
    {l : Expr} {b : Stmt} (h : x.Stands ctx mc spans) (hx : x.stmt? = some (.foreach t v l b)) :
    ∃ w : Foreach, w.Placed ctx mc spans x v l b ∧ w.Around mc x := by
  obtain ⟨code, after, inner, hemits, hat, hlen, hin⟩ := h.emits
  rw [Span.piece_of_stmt? hx] at hemits
  generalize x.piece.loop? = loop at hemits
  cases hemits with
  | intro hr hp hc hg =>
    cases hr
    next es sym lc s₁ ls bc bs hs ht =>
      have hlist := hp (.expr l) (x.before.take 3 2) lc s₁ ls (by simp)
      have hbody := hp (.stmt (some ⟨x.before.label 1, x.before.label 2⟩) b) s₁ bc after bs (by simp)
      let w : Foreach :=
        { list := ⟨.expr l, x.before.take 3 2, x.start, lc.length⟩
          body := ⟨.stmt (some x.ownLoop) b, s₁, x.start + (lc.length + (11 + (castElement sym.type).length)), bc.length⟩
          temp := x.before.slots
          slot := sym.slot
          type := sym.type
          limit := es.length }
      have hslots := hlist.slots_mono
      have hcode : code = lc ++ (onLine t.pos.line w.setupOps ++ (onLine t.pos.line
          (w.testOps (x.before.label 0) x.ownLoop.done) ++ (onLine t.pos.line w.fetchOps ++ (bc ++
          onLine t.pos.line (w.advanceOps (x.before.label 0) x.ownLoop))))) := by
        simp [hc, Item.code, Foreach.setupOps, Foreach.testOps, Foreach.fetchOps, Foreach.advanceOps, w, Span.ownLoop,
          onLine]
      rw [hcode] at hat hlen
      simp only [CodeAt.append_iff, length_onLine, Foreach.length_setupOps, Foreach.length_testOps,
        Foreach.length_fetchOps, List.length_append, Foreach.length_advanceOps] at hat hlen
      have hhead : w.head = x.start + lc.length + 3 := rfl
      have hnext : w.next = x.start + lc.length + 3 + 4 + ((castElement w.type).length + 4) + bc.length := by
        simp only [Foreach.next, w]
        omega
      obtain ⟨-, hsetup, htest, hfetch, -, hadvance⟩ := hat
      rw [← hnext] at hadvance
      have hspan : ∀ y ∈ spansFrom 0 _, y.shift x.start ∈ spans := fun y hy => hin y (List.mem_cons_of_mem _ hy)
      refine ⟨w, ⟨?_, rfl, rfl, ?_, rfl, ?_, ?_, ⟨sym, hs, rfl, rfl⟩, h.slots, ⟨es, ht, rfl⟩, ?_, ?_⟩, h.labels, ?_,
        ⟨t.pos.line, hsetup⟩, ⟨t.pos.line, htest⟩, ⟨t.pos.line, hfetch⟩, ⟨t.pos.line, hadvance⟩⟩
      · exact hspan ⟨.expr l, x.before.take 3 2, 0, lc.length⟩
          (mem_spansFrom_iff.2 ⟨[], _, _, _, rfl, hlist.self_mem, by simp [Span.shift]⟩)
      · refine hspan ⟨.stmt (some x.ownLoop) b, s₁, lc.length + (11 + (castElement sym.type).length), bc.length⟩
          (mem_spansFrom_iff.2 ⟨[_, _], _, _, _, rfl, hbody.self_mem, ?_⟩)
        simp [Span.shift, Span.ownLoop, Item.code, onLine]
        omega
      · simp only [w, Foreach.read, hhead]
        omega
      · simp only [Foreach.stop, Foreach.done, hnext, hlen]
        omega
      · exact h.labels.offset hadvance.opAt
      · exact h.labels.offset hadvance.tail.tail.tail.opAt
      · exact hslots

namespace Foreach

variable (w : Foreach) (m : Machine) (mc : MethodCode) (callers : Outer) (spans : List Span) (x : Span) (list : Value)
  (below : List Value)

def Keeps (k : Nat) (locals : Array Value) : Prop :=
  locals[w.temp]? = some list ∧ locals[w.temp + 1]? = some (.int (Int32.ofInt k))

/-- Why a run may stop where element `k` is read from the list or cast to the type of the variable. -/
inductive Unread (k : Nat) (c : Spot) : Cause → Prop
  | null (hpc : c.pc = w.read) (h : list.isNull = true) : Unread k c .nullReference
  | noList (hpc : c.pc = w.read) (h : list.isNull = false) (hl : ∀ es, c.heap.get? list ≠ some (.list es)) :
    Unread k c .classCast
  | missing {es : List Value} (hpc : c.pc = w.read) (hl : c.heap.get? list = some (.list es)) (hk : es.length ≤ k) :
    Unread k c .indexOutOfRange
  | misfit {es : List Value} {e : Value} (hpc : c.pc = w.read + 1) (hl : c.heap.get? list = some (.list es))
    (he : es[k]? = some e) (h : (e.isNull || e.isReference && m.isInstance c.heap e w.type.classRef) = false) :
    Unread k c .classCast

/-- The call was at a `break` of this loop, and is at the end of it now. -/
def Breaks (t u : State) : Prop :=
  ∃ y ∈ spans, ∃ tok, y.piece = .stmt (some x.ownLoop) (.break tok) ∧ y.JumpsTo mc.code x.ownLoop.done w.done ∧
    ∃ r b canceled, m.Stays callers.frames w.body.start w.next t r ∧ r.IsAt mc callers b ∧ b.pc = y.start ∧
      r.step m canceled = .running u

/-- What the body does in turn `k`: as long as the call is in it, it keeps the list and the position; then the call has
returned, or a `break` has ended the loop, or the position is advanced by one, and `rest` holds at the head. -/
structure Body (k : Nat) (rest : State → Prop) (t : State) : Prop where
  keeps : ∀ u, m.Stays callers.frames w.body.start w.next t u → u.Inside callers.frames w.body.start w.next →
    ∃ inner f, u.frames = inner ++ f :: callers.frames ∧ w.Keeps list k f.locals
  leaves : ∀ u, m.Stays callers.frames w.body.start w.next t u → ¬u.Inside callers.frames w.body.start w.next →
    u.frames.length ≤ callers.frames.length ∨
    ∃ d, u.IsAt mc callers d ∧ d.stack = below ∧ w.Keeps list k d.locals ∧
      (d.pc = w.done ∧ w.Breaks m mc callers spans x t u ∧
          m.Comes mc callers w.done w.stop (fun _ _ => False) (fun e _ => e = d.goto w.stop below) u ∨
        d.pc = w.next ∧ m.Comes mc callers w.next w.done (fun _ _ => False) (fun e v => rest v ∧ e =
          { d.goto w.head below with locals := d.locals.setIfInBounds (w.temp + 1) (.int (Int32.ofInt (k + 1 : Nat))) }) u)

/-- The turns that are left from position `k` on. In each of them the variable gets the element that is in the list
at that position then, and the body is run; after the last one the loop ends as it is. -/
def Turns : (left k : Nat) → State → Prop
  | 0, k, s => ∃ c, s.IsAt mc callers c ∧ c.pc = w.head ∧ c.stack = below ∧ w.Keeps list k c.locals ∧
      m.Comes mc callers w.head w.read (fun _ e => e = .stackOverflow ∧ mc.Full (below.length + 1)) (fun d u =>
        d = c.goto w.done below ∧
          m.Comes mc callers w.done w.stop (fun _ _ => False) (fun e _ => e = c.goto w.stop below) u) s
  | left + 1, k, s => ∃ c, s.IsAt mc callers c ∧ c.pc = w.head ∧ c.stack = below ∧ w.Keeps list k c.locals ∧
      m.Comes mc callers w.head w.body.start
        (fun d e => e = .stackOverflow ∧ mc.Full (below.length + 1) ∨ d.heap = c.heap ∧ w.Unread m list k d e) (fun d t =>
          (∃ es e, c.heap.get? list = some (.list es) ∧ es[k]? = some e ∧
            d = { c.goto w.body.start below with locals := c.locals.setIfInBounds w.slot e }) ∧
          w.Body m mc callers spans x list below k (Turns left (k + 1)) t) s

section

variable {w : Foreach} {m : Machine} {mc : MethodCode} {callers : Outer} {x : Span} {list : Value} {k : Nat} {c : Spot}
  {s : State}

theorem Keeps.lt {locals : Array Value} (h : w.Keeps list k locals) : w.temp < locals.size ∧ w.temp + 1 < locals.size :=
  ⟨(Array.getElem?_eq_some_iff.1 h.1).1, (Array.getElem?_eq_some_iff.1 h.2).1⟩

theorem toInt_position (hk : k ≤ w.turns) : (Int32.ofInt k).toInt = k := by
  have hlt := (Int32.ofInt w.limit).toInt_lt
  unfold turns at hk
  exact Int32.toInt_ofInt_of_le (by omega) (by omega)

/-- Whether the turns are over is decided by the position. -/
theorem holds_ge (hk : k ≤ w.turns) : IntTest.ge.holds (Int32.ofInt k) (Int32.ofInt w.limit) = decide (k = w.turns) := by
  rw [IntTest.holds, decide_eq_decide, Int32.le_iff_toInt_le, toInt_position hk]
  unfold turns at hk ⊢
  omega

/-- The position is advanced, and the next turn begins. -/
theorem Around.advances (h : w.Around mc x) (hs : s.IsAt mc callers c) (hc : c.pc = w.next) (hk : w.Keeps list k c.locals) :
    m.Comes mc callers w.next w.done (fun _ _ => False) (fun e _ => e = { c.goto w.head c.stack with
      locals := c.locals.setIfInBounds (w.temp + 1) (.int (Int32.ofInt (k + 1 : Nat))) }) s := by
  obtain ⟨line, hat⟩ := h.advance
  obtain ⟨line', htest⟩ := h.test
  have hstart := h.labels.offset htest.opAt
  have hdone : w.done = w.next + 3 := rfl
  rw [← hc] at hat
  refine .of_does hat.opAt (by simp) (by simp) hs (by omega) .label ?_
  rintro _ s₁ rfl hs₁
  refine .of_does hat.tail.opAt (by simp) (by simp) hs₁ (by simp only [Spot.next]; omega)
    (.increment fun hle => absurd hk.lt.2 (Nat.not_lt.2 hle)) ?_
  rintro _ s₂ ⟨v, hv, rfl⟩ hs₂
  refine .of_does hat.tail.tail.opAt (by simp) (by simp) hs₂ (by simp only [Spot.next]; omega)
    (.jump_always hstart) ?_
  rintro _ s₃ rfl hs₃
  refine .here hs₃ ?_
  obtain rfl := Option.some.inj (hk.2.symm.trans hv)
  simp [Spot.goto, Spot.next, Value.toInt32, Int32.ofInt_add]

theorem Around.tests (h : w.Around mc x) (hdone : mc.code.labelOffset? x.ownLoop.done = some w.done)
    (hs : s.IsAt mc callers c) (hc : c.pc = w.head) (hk : w.Keeps list k c.locals) (hle : k ≤ w.turns) :
    m.Comes mc callers w.head w.read (fun _ e => e = .stackOverflow ∧ mc.Full (c.stack.length + 1))
      (fun d _ => d = c.goto (if k = w.turns then w.done else w.head + 4) c.stack) s := by
  obtain ⟨line, hat⟩ := h.test
  have hread : w.read = w.head + 6 := rfl
  rw [← hc] at hat
  refine .of_does hat.opAt (by simp) (by simp) hs (by omega) .label ?_
  rintro _ s₁ rfl hs₁
  refine .of_does hat.tail.opAt (by simp) (by simp) hs₁ (by simp only [Spot.next]; omega)
    (.load (fun hle => absurd hk.lt.2 (Nat.not_lt.2 hle)) fun hfull => ⟨rfl, hfull.mono (Nat.le_succ _)⟩) ?_
  rintro _ s₂ ⟨v, hv, rfl⟩ hs₂
  obtain rfl := Option.some.inj (hk.2.symm.trans hv)
  refine .of_does hat.tail.tail.opAt (by simp) (by simp) hs₂ (by simp only [Spot.next]; omega)
    (.pushInt fun hfull => ⟨rfl, hfull⟩) ?_
  rintro _ s₃ rfl hs₃
  refine .of_does hat.tail.tail.tail.opAt (by simp) (by simp) hs₃ (by simp only [Spot.next]; omega)
    (.jump hdone fun f hf => Jump.decide_ints hf) ?_
  rintro _ s₄ rfl hs₄
  refine .here hs₄ ?_
  simp only [Value.toInt32, holds_ge hle, decide_eq_true_eq]
  split <;> simp [Spot.goto, Spot.next, hc]

/-- The element at the position is read from the list and stored in the slot of the variable. -/
theorem Around.fetches (h : w.Around mc x) (hbody : w.body.start = w.read + 2 + (castElement w.type).length)
    (hs : s.IsAt mc callers c) (hc : c.pc = w.head + 4) (hk : w.Keeps list k c.locals) (hle : k ≤ w.turns)
    (hslot : w.slot < c.locals.size) :
    m.Comes mc callers (w.head + 4) w.body.start
      (fun d e => e = .stackOverflow ∧ mc.Full (c.stack.length + 1) ∨ d.heap = c.heap ∧ w.Unread m list k d e)
      (fun d _ => ∃ es e, c.heap.get? list = some (.list es) ∧ es[k]? = some e ∧
        d = { c.goto w.body.start c.stack with locals := c.locals.setIfInBounds w.slot e }) s := by
  obtain ⟨line, hat⟩ := h.fetch
  have hread : w.read = w.head + 6 := rfl
  have hlen : (onLine line w.fetchOps).length = (castElement w.type).length + 4 := by simp [length_onLine]
  have hpos : ∀ {n : Value}, n = .int (Int32.ofInt k) → n.toInt32.toInt = k := fun hn => by
    rw [hn]
    exact toInt_position hle
  rw [← hc] at hat
  have hlands : Crosses m mc callers (w.head + 4) w.body.start
      (fun d e => e = .stackOverflow ∧ mc.Full (c.stack.length + 1) ∨ d.heap = c.heap ∧ w.Unread m list k d e)
      (fun d _ => ∃ es e, c.heap.get? list = some (.list es) ∧ es[k]? = some e ∧
        d = { c.goto d.pc c.stack with locals := c.locals.setIfInBounds w.slot e }) (onLine line w.fetchOps) c s := by
    simp only [fetchOps, List.cons_append, List.nil_append, onLine_cons]
    refine .op (by simp) (.load (fun hle => absurd hk.lt.1 (Nat.not_lt.2 hle)) fun hfull =>
      .inl ⟨rfl, hfull.mono (Nat.le_succ _)⟩) (by rintro d ⟨v, -, rfl⟩; rfl) ?_
    rintro _ s₁ ⟨v, hv, rfl⟩
    obtain rfl := Option.some.inj (hk.1.symm.trans hv)
    refine .op (by simp) (.load (fun hle => absurd hk.lt.2 (Nat.not_lt.2 hle)) fun hfull => .inl ⟨rfl, hfull⟩)
      (by rintro d ⟨v, -, rfl⟩; rfl) ?_
    rintro _ s₂ ⟨n, hn, rfl⟩
    have hn := hpos (Option.some.inj (hn.symm.trans hk.2))
    have hpc : c.pc + 1 + 1 = w.read := by omega
    refine .op (by simp) (.getElement rfl (fun hnull => .inr ⟨rfl, .null hpc hnull⟩)
      (fun hnull hl => .inr ⟨rfl, .noList hpc hnull hl⟩)
      (fun es hl hout => .inr ⟨rfl, .missing hpc hl (by omega)⟩)
      fun hfull => .inl ⟨rfl, hfull.mono (Nat.le_succ _)⟩) (by rintro d ⟨a, es, j, e, -, -, -, -, rfl⟩; rfl) ?_
    rintro _ s₃ ⟨a, es, j, e, rfl, ho, hj, he, rfl⟩
    obtain rfl : j = k := by omega
    have hstore : ∀ {pc : Nat} {t : State}, Crosses m mc callers (w.head + 4) w.body.start
        (fun d e => e = .stackOverflow ∧ mc.Full (c.stack.length + 1) ∨ d.heap = c.heap ∧ w.Unread m (.ref a) j d e)
        (fun d _ => ∃ es e, c.heap.get? (.ref a) = some (.list es) ∧ es[j]? = some e ∧
          d = { c.goto d.pc c.stack with locals := c.locals.setIfInBounds w.slot e }) (onLine line [.store .ref w.slot])
        (c.goto pc (e :: c.stack)) t := fun {pc t} => by
      refine .op (by simp) (.store rfl fun hle => absurd hslot (Nat.not_lt.2 hle)) (by rintro d ⟨-, rfl⟩; rfl) ?_
      rintro _ s₄ ⟨-, rfl⟩
      exact .nil ⟨es, e, ho, he, rfl⟩
    unfold castElement
    split
    · exact hstore
    · refine .step (by simp) (.cast (by simp [Spot.next]) fun v vs hvs hfits => .inr ⟨rfl, ?_⟩) rfl fun s₄ => hstore
      obtain ⟨rfl, -⟩ := List.cons.inj hvs
      exact .misfit (by simp only [Spot.next]; omega) ho he hfits
  refine (hlands hat (by omega) (by omega) hs).imp fun d t hd => ?_
  obtain ⟨hpc, es, e, hl, he, hd⟩ := hd
  exact ⟨es, e, hl, he, hpc ▸ hd⟩

theorem Around.ends (h : w.Around mc x) (hs : s.IsAt mc callers c) (hc : c.pc = w.done) :
    m.Comes mc callers w.done w.stop (fun _ _ => False) (fun e _ => e = c.goto w.stop c.stack) s := by
  obtain ⟨line, hat⟩ := h.advance
  have hstop : w.stop = w.done + 1 := rfl
  have hat' := hat.tail.tail.tail
  rw [show w.next + 1 + 1 + 1 = c.pc from hc.symm] at hat'
  refine .of_does hat'.opAt (by simp) (by simp) hs (by omega) .label ?_
  rintro _ s₁ rfl hs₁
  exact .here hs₁ (by simp [Spot.goto, Spot.next, hstop, hc])

end

section

variable {w : Foreach} {m : Machine} {ctx : Context} {mc : MethodCode} {callers : Outer} {spans : List Span} {x : Span}
  {v : Ident} {l : Expr} {b : Stmt} {list : Value} {below : List Value} {k : Nat} {c : Spot} {s : State} {entry : String}

/-- The labels around a body, which is left with nothing on the stack. -/
def exits (x : Span) : Targets Nat := fun l n => n = 0 ∧ (l = x.ownLoop.next ∨ l = x.ownLoop.done)

/-- Some code for the body of a loop. -/
structure BodyCodeAt (ctx : Context) (mc : MethodCode) (spans : List Span) (x : Span) (b : Stmt) (w : Foreach)
    (code : List Instr) (after : Supply) (inner : List Span) : Prop where
  emits : Emits ctx (.stmt (some x.ownLoop) b) w.body.before code after inner
  at_ : CodeAt mc.code w.body.start code
  length : w.next = w.body.start + code.length
  spans : ∀ y ∈ inner, y.shift w.body.start ∈ spans

/-- A jump out of the body to the end of the loop is that of a `break`. -/
theorem Placed.breaks {code : List Instr} {after : Supply} {inner : List Span} (hw : w.Placed ctx mc spans x v l b)
    (hspans : BodySpans ctx mc spans) (hl : LabelsOnce mc.code) (hb : w.BodyCodeAt ctx mc spans x b code after inner)
    {r t : State} {canceled : Bool} {d : Spot} {j : Nat} {i : Instr} {test : Jump}
    (hstays : m.Stays callers.frames w.body.start w.next s r) (hr : r.IsAt mc callers d) (hd : d.pc = w.body.start + j)
    (hi : code[j]? = some i) (hop : i.op = .jump test x.ownLoop.done) (hstep : r.step m canceled = .running t) :
    w.Breaks m mc callers spans x s t := by
  have hdone : w.done = w.next + 3 := rfl
  have hnext := hb.length
  have hnone : labelCount code x.ownLoop.done = 0 := hb.at_.labelCount_eq_zero hl hw.done_label (.inr (by omega))
  obtain ⟨line, e, hp⟩ | ⟨y, hy, hstart, hylen, hleaves, hloop⟩ := hb.emits.jumpSite hi hop hnone
  · cases hp
  obtain ⟨tok, hpiece⟩ : ∃ tok, y.piece = .stmt (some x.ownLoop) (.break tok) := by
    generalize hlabel : x.ownLoop.done = label at hleaves
    generalize y.piece = q at hleaves hloop
    cases hleaves with
    | «break» lp tok => exact ⟨tok, by rw [Option.some.inj hloop]⟩
    | «continue» lp tok =>
      obtain rfl : lp = x.ownLoop := Option.some.inj hloop
      simp [Span.ownLoop] at hlabel
  have hmem := hb.spans y hy
  obtain ⟨body, after', hg, hat, hlen⟩ := (hspans.covers _ hmem).codeAt (x := y.shift w.body.start) hpiece
  obtain ⟨labels, hlabels, rfl⟩ := compileStmt_break hg
  obtain rfl := Option.some.inj hlabels
  exact ⟨_, hmem, tok, hpiece, ⟨hlen, hat.opAt, hw.done_label⟩, r, d, canceled, hstays, hr,
    by rw [hd]; simp [Span.shift, hstart], hstep⟩

theorem Keeps.mono {own : Int → Prop} {D : Set Nat} {more : List Value} {d : Spot} (h : w.Keeps list k c.locals)
    (hgoes : c.Goes D own more d) (hown : ¬own w.temp ∧ ¬own (w.temp + 1 : Nat)) : w.Keeps list k d.locals :=
  ⟨(hgoes.same _ hown.1).trans h.1, (hgoes.same _ hown.2).trans h.2⟩

theorem Keeps.advance {locals : Array Value} (h : w.Keeps list k locals) :
    w.Keeps list (k + 1) (locals.setIfInBounds (w.temp + 1) (.int (Int32.ofInt (k + 1 : Nat)))) := by
  refine ⟨?_, ?_⟩
  · rw [Array.getElem?_setIfInBounds_ne (by omega)]
    exact h.1
  · simp [h.lt.2]

theorem Placed.body (hw : w.Placed ctx mc spans x v l b) (ha : w.Around mc x) (hspans : BodySpans ctx mc spans)
    (hn : ∀ cls, argCount (ctx.table.constructorDescriptor cls) = (ctx.table.constructorParams cls).length)
    (hr : m.Reaches entry s) (hs : s.IsAt mc callers c) (hc : c.pc = w.body.start) (hk : w.Keeps list k c.locals)
    {rest : State → Prop} (hrest : ∀ d u, m.Reaches entry u → u.IsAt mc callers d → d.pc = w.head → d.stack = c.stack →
      w.Keeps list (k + 1) d.locals → rest u) : w.Body m mc callers spans x list c.stack k rest s := by
  have hdone : w.done = w.next + 3 := rfl
  obtain ⟨hclean, -, -, -, code, after, inner, hemits, hat, hlen, hin⟩ := hspans.stands _ hw.body_mem
  rw [hw.body_piece] at hclean hemits
  have hb : w.BodyCodeAt ctx mc spans x b code after inner := ⟨hemits, hat, by rw [next, hlen], hin⟩
  have hnext : w.next = c.pc + code.length := by rw [hc, hb.length]
  obtain ⟨depth, hstart, hend, htraced, -⟩ := (depthFlow_sound hn).holds hemits (T := exits x) (a := 0) (b := 0)
    ⟨hclean, rfl, rfl, by rintro _ ⟨⟩; exact ⟨⟨rfl, .inl rfl⟩, ⟨rfl, .inr rfl⟩⟩⟩
  have hstretch : Stretch mc (exits x) c code depth (OwnSlot ctx.method.slotCount w.body.before after) :=
    ⟨hc ▸ hat, ha.labels, htraced, hemits.slots⟩
  have hT : ∀ l n j, exits x l n → mc.code.labelOffset? l = some j → j < c.pc ∨ c.pc + code.length ≤ j := by
    rintro l n j ⟨-, rfl | rfl⟩ hj
    · have := Option.some.inj (hw.next_label.symm.trans hj)
      omega
    · have := Option.some.inj (hw.done_label.symm.trans hj)
      omega
  have hown : ¬OwnSlot ctx.method.slotCount w.body.before after w.temp ∧
      ¬OwnSlot ctx.method.slotCount w.body.before after (w.temp + 1 : Nat) := by
    have := hw.temps
    have := ha.fresh
    simp only [OwnSlot]
    omega
  have hhidden := hr.bounded.hidden hs
  -- From the label behind the body the next turn begins.
  have hgoOn : ∀ {u : State} {d : Spot}, m.Reaches entry u → u.IsAt mc callers d → d.stack = c.stack →
      w.Keeps list k d.locals → d.pc = w.next → m.Comes mc callers w.next w.done (fun _ _ => False) (fun e v => rest v ∧
        e = { d.goto w.head c.stack with
          locals := d.locals.setIfInBounds (w.temp + 1) (.int (Int32.ofInt (k + 1 : Nat))) }) u := by
    intro u d hru hu hst hkeeps hpc
    refine ((ha.advances hu hpc hkeeps).reaches hru).bind fun e v hv hev => ?_
    obtain ⟨rfl, hrv⟩ := hev
    exact .here hv ⟨hrest _ v hrv hv rfl hst hkeeps.advance, by rw [hst]⟩
  constructor
  · intro u hu hin
    rw [← hc, hnext] at hu hin
    obtain ⟨outer, f, hframes, hsame⟩ := hstretch.keeps hT hstart hhidden hs hu hin
    exact ⟨outer, f, hframes, (hsame _ hown.1).trans hk.1, (hsame _ hown.2).trans hk.2⟩
  · intro u hu hout
    have hru := hr.stays hu
    rw [← hc, hnext] at hu hout
    rcases hstretch.exits hT hstart hhidden hs hu hout with
      ⟨d, more, hd, hgoes, hpc, hcount⟩ | ⟨stays, before, inside, jumps, op, leaves, hd, ⟨hnil, hlabel⟩, label, hgoes⟩ | ⟨hle, -⟩
    · obtain rfl := List.eq_nil_of_length_eq_zero (hcount.trans hend)
      refine .inr ⟨d, hd, hgoes.stack, hk.mono hgoes hown, .inr ⟨by rw [hnext, hpc], ?_⟩⟩
      exact hgoOn hru hd hgoes.stack (hk.mono hgoes hown) (by rw [hnext, hpc])
    · obtain rfl := List.eq_nil_of_length_eq_zero hnil
      have hkeeps := hk.mono hgoes hown
      refine .inr ⟨_, hd, hgoes.stack, hkeeps, ?_⟩
      rcases hlabel with rfl | rfl
      · have hpc := Option.some.inj (label.symm.trans hw.next_label)
        exact .inr ⟨hpc, hgoOn hru hd hgoes.stack hkeeps hpc⟩
      · have hpc := Option.some.inj (label.symm.trans hw.done_label)
        rw [hc, ← hb.length] at stays
        have hends := ha.ends (m := m) hd hpc
        rw [hgoes.stack] at hends
        exact .inl ⟨hpc, hw.breaks hspans ha.labels hb stays before (hc ▸ inside) jumps op leaves, hends⟩
    · exact .inl hle

theorem Placed.turns {left : Nat} (hw : w.Placed ctx mc spans x v l b) (ha : w.Around mc x) (hspans : BodySpans ctx mc spans)
    (hn : ∀ cls, argCount (ctx.table.constructorDescriptor cls) = (ctx.table.constructorParams cls).length)
    (hslot : ∀ u d, m.Reaches entry u → u.IsAt mc callers d → w.slot < d.locals.size)
    (hr : m.Reaches entry s) (hs : s.IsAt mc callers c) (hc : c.pc = w.head) (hk : w.Keeps list k c.locals)
    (hleft : k + left = w.turns) : w.Turns m mc callers spans x list c.stack left k s := by
  have hslots : w.slot ≠ w.temp ∧ w.slot ≠ w.temp + 1 := by
    obtain ⟨sym, hsym, hslot, -⟩ := hw.var
    have := (MethodDecl.symbol?_slot_lt hsym).2
    have := hw.temps
    omega
  induction left generalizing k c s with
  | zero =>
    refine ⟨c, hs, hc, rfl, hk, (ha.tests hw.done_label hs hc hk (by omega)).bind fun d u hu hd => ?_⟩
    rw [if_pos (by omega)] at hd
    subst hd
    have hends := ha.ends (m := m) hu rfl
    exact .here hu ⟨rfl, hends⟩
  | succ left ih =>
    have hbody := hw.body_start
    have hread : w.read = w.head + 6 := rfl
    refine ⟨c, hs, hc, rfl, hk, ?_⟩
    refine (((ha.tests hw.done_label hs hc hk (by omega)).reaches hr).mono le_rfl (by omega) fun d e he => .inl he).bind
      fun d u hu ⟨hd, hru⟩ => ?_
    rw [if_neg (by omega)] at hd
    subst hd
    refine (((ha.fetches hbody hu rfl hk (by omega) (hslot u _ hru hu)).reaches hru).mono (by omega) le_rfl fun _ _ he => he).bind
      fun e t ht ⟨⟨es, y, hes, hy, he⟩, hrt⟩ => ?_
    subst he
    have hkeeps : w.Keeps list k (c.locals.setIfInBounds w.slot y) := by
      refine ⟨?_, ?_⟩
      · rw [Array.getElem?_setIfInBounds_ne hslots.1]
        exact hk.1
      · rw [Array.getElem?_setIfInBounds_ne hslots.2]
        exact hk.2
    refine .here ht ⟨⟨es, y, hes, hy, rfl⟩, ?_⟩
    refine hw.body ha hspans hn hrt ht rfl hkeeps fun d u hru hu hpc hst hkeeps => ?_
    have hrest := ih hru hu hpc hkeeps (by omega)
    rwa [hst] at hrest

theorem Around.slots {o : CompileOptions} (ha : w.Around mc x) (hm : ∀ mc, m.HasMethod mc → ∃ n, FrameOf o n mc)
    (hr : m.Reaches entry s) (hs : s.IsAt mc callers c) : w.temp + 1 < c.locals.size ∧ w.slot < c.locals.size := by
  obtain ⟨_, hsetup⟩ := ha.setup
  obtain ⟨_, hfetch⟩ := ha.fetch
  exact ⟨hr.slots hm hs hsetup.tail.tail.opAt rfl, hr.slots hm hs (CodeAt.onLine_append_iff.1 hfetch).2.opAt rfl⟩

end

end Foreach

namespace LostField

open Sample Yaml

/-- A class is declared twice, and only its first declaration has the field whose elements the second one walks along. -/
def source : String :=
  "classes: [{class: Main, fields: [{f: list(int)}], constructor: {body: []}}, {class: Main, constructor: {locals: [{i: int}], body: [{foreach: {var: i, in: {dot: [this, f]}, body: []}}]}}]"

def root : Node :=
  entry 1 [word "classes" 1, row 10 [
    entry 11 [word "class" 12, word "Main" 19, word "fields" 25, row 33 [entry 34 [word "f" 35, word "list(int)" 38]],
      word "constructor" 51, entry 64 [word "body" 65, row 71 []]],
    entry 77 [word "class" 78, word "Main" 85, word "constructor" 91, entry 104 [
      word "locals" 105, row 113 [entry 114 [word "i" 115, word "int" 118]],
      word "body" 125, row 131 [entry 132 [word "foreach" 133, entry 142 [
        word "var" 143, word "i" 148,
        word "in" 151, entry 155 [word "dot" 156, row 161 [word "this" 162, word "f" 168]],
        word "body" 173, row 179 []]]]]]]]

def program : Program where
  file := "sample"
  classes := [{
    token := ⟨.classDecl, "Main", 1, 11⟩
    name := name "Main" 19
    fields := [⟨⟨.field, "f", 1, 35⟩, name "f" 35, .list [("", .int)]⟩]
    constructor := some {
      token := ⟨.constructor, "", 1, 64⟩
      name := ⟨⟨.constructor, "", 1, 64⟩, "Main"⟩
      body := [] } }, {
    token := ⟨.classDecl, "Main", 1, 77⟩
    name := name "Main" 85
    constructor := some {
      token := ⟨.constructor, "", 1, 104⟩
      name := ⟨⟨.constructor, "", 1, 104⟩, "Main"⟩
      locals := [⟨⟨.var, "i", 1, 115⟩, name "i" 115, .int⟩]
      body := [.foreach (token .foreach 133) (name "i" 148)
        (.member (token .dot 156) (.this (token .this 162)) (name "f" 168)) (.block (token .block 179) [])] } }]

theorem parse_int : Ty.parse "int" = .ok .int := by rfl

theorem parse_list : Ty.parse "list(int)" = .ok (.list [("", .int)]) := by rfl

theorem ofNode_root : Program.ofNode "sample" root = .ok program := by
  simp [Program.ofNode, root, entry, row, word, Decoder.classLists, Decoder.classDecl, Decoder.entries,
    Decoder.classParts, Decoder.name, Decoder.constructor, Decoder.methodParts, Decoder.stmtList, Decoder.stmts,
    Decoder.stmt, Decoder.body, Decoder.foreachParts, Decoder.expr, Decoder.scalar, Decoder.vars, Decoder.var, Decoder.type,
    Node.isNull, bind, Except.bind, pure, Except.pure, parse_int, parse_list]
  rfl

set_option maxRecDepth 1500 in
theorem decode_source : Program.decode "sample" source = .ok program :=
  Program.decode_of_read (by decide +kernel) ofNode_root

theorem accepted : (program.check "Main").issues = [] := by decide

theorem compiled : ∃ files, Program.compile {} (program.check "Main").decl (program.check "Main").decl = .ok files := by
  have hc : (Program.compile {} (program.check "Main").decl (program.check "Main").decl).toOption.isSome := by decide
  cases hf : Program.compile {} (program.check "Main").decl (program.check "Main").decl with
  | error e => simp [hf, Except.toOption] at hc
  | ok files => exact ⟨files, rfl⟩

/-- The cause for which a run of the program ends if stacks have room for so many values. -/
def cause? (stack : Int) (fuel : Nat) : Option Cause :=
  (Program.compile { limits := { stack } } (program.check "Main").decl (program.check "Main").decl).toOption.bind
    fun files => ((Machine.load files).run false fuel "Main").cause?

end LostField

end ClassCompiler
