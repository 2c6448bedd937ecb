import ClassCompiler.Proofs.Compile.Admitted
import ClassCompiler.Proofs.Lists.Places
import ClassCompiler.Proofs.Machine.Evaluations

namespace ClassCompiler

/-- The place that an expression stores to, and the right side of an assignment. -/
def Expr.store? : Expr → Option (Expr × Option Expr)
  | .unary _ op x => if op.isIncDec then some (x, none) else none
  | .binary _ .assign l r => some (l, some r)
  | _ => none

/-- The expressions that find a place, in the order in which they are evaluated. -/
def Expr.finders : Expr → List Expr
  | .index _ x i => [x, i]
  | .member _ x _ => [x]
  | _ => []

/-- The place that an expression names where its finders have some values. -/
inductive Location.Addressed (ctx : Context) (h : Heap) : Expr → List Value → Location → Prop
  | ident {id : Ident} {sym : Symbol} (hs : ctx.method.symbol? id.name = some sym) :
    Addressed ctx h (.ident id) [] (.slot sym.slot)
  | index {t : Token} {x i : Expr} {n : Value} {a k : Nat} {es : List Value} (ho : h[a]? = some (.list es))
      (hk : n.toInt32.toInt = k) (hlt : k < es.length) : Addressed ctx h (.index t x i) [.ref a, n] (.inside a (.index k))
  | element {t : Token} {x : Expr} {id : Ident} {ts : List (String × Ty)} {i a k : Nat} {es : List Value}
      (ht : ctx.typeOf x = .list ts) (hi : Ty.position? ts id.name = some i) (ho : h[a]? = some (.list es))
      (hk : (Int32.ofInt i).toInt = k) (hlt : k < es.length) :
    Addressed ctx h (.member t x id) [.ref a] (.inside a (.index k))
  | field {t : Token} {x : Expr} {id : Ident} {cls c : String} {a : Nat} {fields : List (String × Value)}
      (ht : ctx.typeOf x = .cls cls) (ho : h[a]? = some (.inst c fields)) :
    Addressed ctx h (.member t x id) [.ref a] (.inside a (.name id.name))

/-- Why there is no such place: the list or the object is null, or the list has no element there. -/
inductive Unaddressed (ctx : Context) (h : Heap) : Expr → List Value → Cause → Prop
  | null {target : Expr} {rest : List Value} : Unaddressed ctx h target (.null :: rest) .nullReference
  | index {t : Token} {x i : Expr} {n : Value} {a : Nat} {es : List Value} (ho : h[a]? = some (.list es))
      (hn : ¬(0 ≤ n.toInt32.toInt ∧ n.toInt32.toInt < es.length)) :
    Unaddressed ctx h (.index t x i) [.ref a, n] .indexOutOfRange
  | element {t : Token} {x : Expr} {id : Ident} {ts : List (String × Ty)} {i a : Nat} {es : List Value}
      (ht : ctx.typeOf x = .list ts) (hi : Ty.position? ts id.name = some i) (ho : h[a]? = some (.list es))
      (hn : ¬(0 ≤ (Int32.ofInt i).toInt ∧ (Int32.ofInt i).toInt < es.length)) :
    Unaddressed ctx h (.member t x id) [.ref a] .indexOutOfRange

/-- The value that is stored, and the one that is left on the stack. A list is copied to the new list `copy`, and a
number is changed by one, as numbers of 32 bits are. -/
inductive Expr.Gives (ctx : Context) (p : Location) (d : Spot) (heap : Heap) :
    Option Nat → Expr → List Value → (stored left : Value) → Prop
  | assign {t : Token} {l r : Expr} {v : Value} (h : ((ctx.typeOf l).isList && (ctx.typeOf r).isList) = false) :
    Gives ctx p d heap none (.binary t .assign l r) [v] v v
  | copy {t : Token} {l r : Expr} {v : Value} {b : Nat} {es : List Value}
      (h : ((ctx.typeOf l).isList && (ctx.typeOf r).isList) = true) (hv : d.heap.get? v = some (.list es))
      (hb : heap[b]? = some (.list es)) : Gives ctx p d heap (some b) (.binary t .assign l r) [v] (.ref b) (.ref b)
  | change {t : Token} {op : UnOp} {x : Expr} {w : Value} {n n' : Int32} (hw : p.get? d = some w)
      (hn : d.heap.get? w = some (.integer n)) (hn' : n'.toInt = (n.toInt + op.delta).bmod (2 ^ 32)) :
    Gives ctx p d heap none (.unary t op x) [] (.int n') (.int (if op.isPre then n' else n))

section

variable (m : Machine) (mc : MethodCode) (callers : Outer) (ctx : Context) (copy : Option Nat)

/-- The place `p` has got what the expression stores, and all else that was there is as it was: the slots but `temps`,
and the objects but the copy of a list. -/
inductive Machine.HasStored (e : Expr) (temps : List Nat) (vs : List Value) (c d : Spot) (p : Location) (f : Spot) : Prop
  | intro {heap : Heap} {stored left w : Value} (gives : e.Gives ctx p d heap copy vs stored left)
      (stack : f.stack = left :: c.stack) (fits : m.Fits f.heap (ctx.typeOf e) left)
      (fresh : Heap.SameBut copy d.heap heap) (objects : f.heap = (p.put w { d with heap := heap }).heap)
      (slots : ∀ i, i ∉ temps → f.locals[i]? = (p.put w d).locals[i]?) (holds : p.get? f = some w)
      (boxes : f.heap.Boxes (ctx.typeOf e) stored w) : HasStored e temps vs c d p f

/-- Why a store stops: there is no such place, and nothing is stored, or the stack has no room for four values more. -/
def Machine.StoreFails (target : Expr) (found : List Value) (c d f : Spot) (cause : Cause) : Prop :=
  cause = .stackOverflow ∧ mc.Full (c.stack.length + 4) ∨
    Unaddressed ctx d.heap target found cause ∧ Heap.SameBut copy d.heap f.heap

def Machine.Puts (e target : Expr) (temps : List Nat) (found stored : List Value) (c d f : Spot) : Prop :=
  ∃ p, Location.Addressed ctx d.heap target found p ∧ m.HasStored ctx copy e temps stored c d p f

/-- The call runs the code of some expressions, one after another and once each, as far as they complete. Before each it
comes through code that writes to the slots `temps` only and changes no object; the expression keeps these slots. `Q`
holds in the end, with the values that were left. -/
def Machine.RunsParts (full : Nat) (temps : List Nat) (Q : List Value → Spot → State → Prop) :
    List Span → List Value → Spot → State → Prop
  | [], vs, c, s => Q vs c s
  | y :: ys, vs, c, s => m.Comes mc callers c.pc y.start (fun _ e => e = .stackOverflow ∧ mc.Full full) (fun d t =>
      d.pc = y.start ∧ (∀ i, i ∉ temps → d.locals[i]? = c.locals[i]?) ∧ c.heap.Grows d.heap ∧
        m.After mc callers y.start (y.start + y.length) (fun e u => e.pc = y.start + y.length ∧
          (∀ i ∈ temps, e.locals[i]? = d.locals[i]?) ∧
            ∃ v, e.stack = v :: d.stack ∧ RunsParts full temps Q ys (vs ++ [v]) e u) t) s

/-- How a store ends where its parts have left the values `vs`: if these are of their types, though the list or the object
may be null, and if a number that is changed is one, then the place gets its value, or the run stops and nothing is
stored. -/
def Machine.Finishes (x : Span) (e target : Expr) (right : Option Expr) (temps : List Nat) (c : Spot) (vs : List Value)
    (d : Spot) (t : State) : Prop :=
  ∃ copy : Option Nat, (∀ b ∈ copy, c.heap.size ≤ b ∧ d.Hidden {b}) ∧ ∀ found stored, vs = found ++ stored →
    List.Forall₂ (fun y v => v = .null ∨ m.Fits d.heap (ctx.typeOf y) v) target.finders found →
    List.Forall₂ (fun y v => m.Fits d.heap (ctx.typeOf y) v) right.toList stored →
    (right = none → ∀ p, Location.Addressed ctx d.heap target found p →
      ∃ w n, p.get? d = some w ∧ d.heap.get? w = some (.integer n)) →
    m.Comes mc callers d.pc (x.start + x.length) (Machine.StoreFails mc ctx copy target found c d) (fun f _ =>
      f.pc = x.start + x.length ∧ m.Puts ctx copy e target temps found stored c d f) t

/-- A store at a span: its parts are run, and then it ends as it should. -/
def Machine.Stores (x : Span) (parts : List Span) (e target : Expr) (right : Option Expr) (temps : List Nat) (c : Spot)
    (s : State) : Prop :=
  m.RunsParts mc callers (c.stack.length + 4) temps (m.Finishes mc callers ctx x e target right temps c) parts [] c s

end

/-- The code of a clean piece stands in the code of a method. -/
structure Piece.StandsAt (ctx : Context) (mc : MethodCode) (q : Piece) (u : Supply) (code : List Instr) (u' : Supply)
    (k : Nat) : Prop where
  clean : q.Clean ctx
  emits : ∃ sp, Emits ctx q u code u' sp
  placed : CodeAt mc.code k code

/-- Items stand in a row in the code of a method, and the spans of their parts are among those of the method. -/
def ItemsAt (ctx : Context) (mc : MethodCode) (spans : List Span) : Nat → List Item → Prop
  | _, [] => True
  | k, .ops line os :: is => CodeAt mc.code k (onLine line os) ∧ ItemsAt ctx mc spans (k + os.length) is
  | k, .part q u code u' _ :: is => q.StandsAt ctx mc u code u' k ∧ (⟨q, u, k, code.length⟩ : Span) ∈ spans ∧
      ItemsAt ctx mc spans (k + code.length) is

section

variable {ctx : Context} {mc : MethodCode} {spans : List Span} {x : Span}

theorem Span.Stands.itemsAt (h : x.Stands ctx mc spans) : ∃ items after, Rule ctx x.piece x.before items after ∧
    ItemsAt ctx mc spans x.start items ∧ x.length = (codeOf items).length := by
  obtain ⟨code, after, inner, hemits, hat, hlen, hin⟩ := h.emits
  cases hemits with
  | @intro _ _ _ items _ hr hp hc hg =>
  subst hc
  have hclean := Parts.iff_forall_mem.1 (hr.clean h.clean)
  refine ⟨items, after, hr, ?_, hlen⟩
  have hsuffix : ∀ rest first : List Item, items = first ++ rest →
      ItemsAt ctx mc spans (x.start + (codeOf first).length) rest := by
    intro rest
    induction rest with
    | nil => exact fun _ _ => trivial
    | cons i rest ih =>
      intro first hitems
      have hnext := ih (first ++ [i]) (by simp [hitems])
      have hcode : CodeAt mc.code (x.start + (codeOf first).length) i.code := by
        have hall : codeOf items = codeOf first ++ (i.code ++ codeOf rest) := by simp [hitems, codeOf]
        rw [hall] at hat
        exact (CodeAt.append_iff.1 (CodeAt.append_iff.1 hat).2).1
      cases i with
      | ops line os => exact ⟨hcode, by simpa [codeOf, Item.code, length_onLine, Nat.add_assoc] using hnext⟩
      | part q u code u' sp =>
        have hemits := hp q u code u' sp (by simp [hitems])
        refine ⟨⟨hclean q u code u' sp (by simp [hitems]), ⟨sp, hemits⟩, hcode⟩, ?_,
          by simpa [codeOf, Item.code, Nat.add_assoc] using hnext⟩
        refine hin ⟨q, u, (codeOf first).length, code.length⟩ (List.mem_cons_of_mem _ (mem_spansFrom_iff.2
          ⟨first, _, rest, _, hitems, hemits.self_mem, by simp [Span.shift]⟩))
  simpa using hsuffix items [] rfl

end

/-- The spans of a body, of whose pieces each is admitted. -/
theorem CodeFor.admittedSpans {o : CompileOptions} {p : Program} {c : ClassDecl} {d : MethodDecl} {mc : MethodCode}
    (h : CodeFor o p c d mc) (hw : d.Written) (hd : d.BodyClean p c.name.name) (hadm : d.Admitted p c.name.name) :
    ∃ spans : List Span, BodySpans ⟨p, c.name.name, d⟩ mc spans ∧ ∀ x ∈ spans, x.piece.Admitted ⟨p, c.name.name, d⟩ := by
  have hpieces : ∀ {code : List Instr} (b : BodyCode p c d code) (start : List Instr),
      ∀ x ∈ b.spansAfter start, x.piece.Admitted ⟨p, c.name.name, d⟩ := by
    intro code b start x hx
    obtain ⟨y, hy, rfl⟩ := List.mem_map.1 hx
    exact b.emits.forall_of_mem (P := fun q _ => q.Admitted _) hadm.piece (fun hr _ hq => hr.admitted hq) y hy
  rcases h with ⟨code, ⟨b, -⟩, rfl⟩ | ⟨code, ⟨b, -⟩, rfl⟩
  · have hcode : (o.method d.name.name d.descriptor false code).code = ([] ++ code).toArray := rfl
    exact ⟨_, b.bodySpans hcode hw hd fun _ => rfl, hpieces b []⟩
  · exact ⟨_, b.bodySpans rfl hw hd (c.labelCount_prologue _), hpieces b _⟩

section

variable {m : Machine} {ctx : Context} {mc : MethodCode} {callers : Outer} {entry : String} {spans : List Span} {x : Span}
  {c : Spot} {s : State} {full : Nat} {temps : List Nat} {Q : List Value → Spot → State → Prop}

/-- The next part is run, after the code before it. -/
theorem Machine.RunsParts.next {P : Spot → Prop} {D : Set Nat} {e : Expr} {u u' : Supply} {code glue : List Instr} {k : Nat}
    {ys : List Span} {vs : List Value} (he : (Piece.expr e).StandsAt ctx mc u code u' k)
    (hn : ∀ cls, argCount (ctx.table.constructorDescriptor cls) = (ctx.table.constructorParams cls).length)
    (hl : LabelsOnce mc.code) (hr : m.Reaches entry s) (hs : s.IsAt mc callers c)
    (hglue : CodeAt mc.code c.pc glue) (hk : k = c.pc + glue.length)
    (hcross : Crosses m mc callers c.pc k (fun _ e => e = .stackOverflow ∧ mc.Full full) (fun d _ => P d) glue c s)
    (hP : ∀ d, P d → d.Hidden D ∧ (∀ i, i ∉ temps → d.locals[i]? = c.locals[i]?) ∧ c.heap.Grows d.heap)
    (htemps : ∀ i : Nat, i ∈ temps → ¬OwnSlot ctx.method.slotCount u u' i)
    (h : ∀ d f v t, P d → d.Goes D (OwnSlot ctx.method.slotCount u u') [v] f → m.Reaches entry t → t.IsAt mc callers f →
      f.pc = k + code.length → m.RunsParts mc callers full temps Q ys (vs ++ [v]) f t) :
    m.RunsParts mc callers full temps Q (⟨.expr e, u, k, code.length⟩ :: ys) vs c s := by
  obtain ⟨hclean, ⟨sp, hemits⟩, hat⟩ := he
  refine ((hcross hglue hk le_rfl hs).reaches hr).bind fun d t ht ⟨⟨hpc, hd⟩, hrt⟩ => .here ht ?_
  obtain ⟨hhidden, hlocals, hgrows⟩ := hP d hd
  refine ⟨hpc, hlocals, hgrows, fun v hv hout => ?_⟩
  subst hpc
  obtain ⟨f, hf, hfpc, w, hgoes⟩ := Machine.After.part hemits hclean hn hl hhidden hat ht v hv hout
  exact ⟨f, hf, hfpc, fun i hi => hgoes.same i (htemps i hi), w, hgoes.stack,
    h d f w v hd hgoes (hrt.stays hv) hf hfpc⟩

theorem Machine.RunsParts.first {e : Expr} {u u' : Supply} {code : List Instr} {k : Nat} {ys : List Span} {vs : List Value}
    (he : (Piece.expr e).StandsAt ctx mc u code u' k)
    (hn : ∀ cls, argCount (ctx.table.constructorDescriptor cls) = (ctx.table.constructorParams cls).length)
    (hl : LabelsOnce mc.code) (hr : m.Reaches entry s) (hs : s.IsAt mc callers c) (hpc : c.pc = k)
    (htemps : ∀ i : Nat, i ∈ temps → ¬OwnSlot ctx.method.slotCount u u' i)
    (h : ∀ f v t, c.Goes ∅ (OwnSlot ctx.method.slotCount u u') [v] f → m.Reaches entry t → t.IsAt mc callers f →
      f.pc = k + code.length → m.RunsParts mc callers full temps Q ys (vs ++ [v]) f t) :
    m.RunsParts mc callers full temps Q (⟨.expr e, u, k, code.length⟩ :: ys) vs c s := by
  refine .next (P := fun d => d = c) (D := ∅) he hn hl hr hs .nil (by simp [hpc]) (.nil rfl) ?_ htemps ?_
  · rintro _ rfl
    exact ⟨hr.bounded.hidden hs, fun _ _ => rfl, .refl⟩
  · rintro _ f v t rfl
    exact h f v t

end

theorem Object.alike_put (o : Object) (k : Key) (v : Value) : Heap.Alike o (o.put v k) := by
  cases o <;> cases k <;> constructor

namespace Machine.HasStored

variable {m : Machine} {ctx : Context} {copy : Option Nat} {e : Expr} {temps : List Nat} {vs : List Value} {c d f : Spot}
  {heap : Heap} {stored left w : Value}

theorem inside {a : Nat} {k : Key} {o : Object} (ho : heap[a]? = some o) (hget : (o.put w k).get? k = some w)
    (hgives : e.Gives ctx (.inside a k) d heap copy vs stored left) (hstack : f.stack = left :: c.stack)
    (hfits : m.Fits heap (ctx.typeOf e) left) (hfresh : Heap.SameBut copy d.heap heap)
    (hheap : f.heap = heap.set (.ref a) (o.put w k)) (hlocals : ∀ i, i ∉ temps → f.locals[i]? = d.locals[i]?)
    (hboxes : f.heap.Boxes (ctx.typeOf e) stored w) : m.HasStored ctx copy e temps vs c d (.inside a k) f := by
  have hat : f.heap[a]? = some (o.put w k) := hheap ▸ Heap.get?_set_self (v := .ref a) ho
  refine ⟨hgives, hstack, ?_, hfresh, ?_, hlocals, ?_, hboxes⟩
  · exact hheap ▸ hfits.retains (.set (v := .ref a) ho (o.alike_put k w))
  · rw [Location.put_inside (c := { d with heap }) ho, hheap]
    rfl
  · simp only [Location.get?, hat, Option.bind_some, hget]

theorem slot {n : Nat} (hgives : e.Gives ctx (.slot n) d heap copy vs stored left) (hstack : f.stack = left :: c.stack)
    (hfits : m.Fits f.heap (ctx.typeOf e) left) (hfresh : Heap.SameBut copy d.heap heap) (hheap : f.heap = heap)
    (hn : n < d.locals.size) (hlocals : f.locals = d.locals.setIfInBounds n w)
    (hboxes : f.heap.Boxes (ctx.typeOf e) stored w) : m.HasStored ctx copy e temps vs c d (.slot n) f := by
  refine ⟨hgives, hstack, hfits, hfresh, hheap, fun i _ => by rw [hlocals]; rfl, ?_, hboxes⟩
  simp [Location.get?, hlocals, hn]

end Machine.HasStored

/-- Values of one type are kept in places of another. -/
structure Ty.Takes (left right : Ty) : Prop where
  prim : left.isPrimitive = right.isPrimitive
  same : left.isPrimitive = true → left = right
  null : right.isNull = true → left.isPrimitive = false

/-- The place of an assignment is known while the value is computed: it was found with the values `found`, and `more` is
kept on the stack, and an index in a slot, too. The operations store a value there and leave it. -/
inductive Found (ctx : Context) (left right : Ty) (locals : Array Value) :
    Expr → (found more : List Value) → (ops : List Op) → Prop
  | ident {id : Ident} {sym : Symbol} (hs : ctx.method.symbol? id.name = some sym) (hlt : sym.slot < locals.size) :
    Found ctx left right locals (.ident id) [] [] (.dup :: box right ++ [.store .ref sym.slot])
  | index {t : Token} {x i : Expr} {ts : List (String × Ty)} {temp : Nat} {n w : Value} (ht : ctx.typeOf x = .list ts)
      (hn : locals[temp]? = some n) :
    Found ctx left right locals (.index t x i) [w, n] [n, w, w] (storeElementOps left right (.load .int temp))
  | element {t : Token} {x : Expr} {id : Ident} {ts : List (String × Ty)} {i : Nat} {w : Value}
      (ht : ctx.typeOf x = .list ts) (hi : Ty.position? ts id.name = some i) :
    Found ctx left right locals (.member t x id) [w] [.int (Int32.ofInt i), w, w]
      (storeElementOps left right (.pushInt i))
  | field {t : Token} {x : Expr} {id : Ident} {cls owner desc : String} {w : Value} (ht : ctx.typeOf x = .cls cls) :
    Found ctx left right locals (.member t x id) [w] [w, w] (storeField left right ⟨owner, id.name, desc⟩)

section

variable {m : Machine} {mc : MethodCode} {callers : Outer} {ctx : Context} {copy : Option Nat} {t : Token} {l r : Expr}
  {found more : List Value} {ops : List Op} {v : Value} {temps : List Nat} {c d : Spot} {s : State} {hi : Nat}
  {line line' : Int}

theorem Machine.Fits.list_or_null {h : Heap} {x : Expr} {ts : List (String × Ty)} (ht : ctx.typeOf x = .list ts)
    (hv : v = .null ∨ m.Fits h (ctx.typeOf x) v) : ∃ es, v = .null ∨ h.get? v = some (.list es) := by
  rcases hv with rfl | hv
  · exact ⟨[], .inl rfl⟩
  · rw [ht] at hv
    obtain ⟨es, hes⟩ := hv
    exact ⟨es, .inr hes⟩

theorem Machine.Fits.inst_or_null {h : Heap} {x : Expr} {cls : String} (ht : ctx.typeOf x = .cls cls)
    (hv : v = .null ∨ m.Fits h (ctx.typeOf x) v) : ∃ c fields, v = .null ∨ h.get? v = some (.inst c fields) := by
  rcases hv with rfl | hv
  · exact ⟨"", [], .inl rfl⟩
  · rw [ht] at hv
    rcases hv with rfl | ⟨c, fields, hinst, -⟩
    · exact ⟨"", [], .inl rfl⟩
    · exact ⟨c, fields, .inr hinst⟩

/-- A list that has no such element is no place to store to. -/
theorem NoElement.unaddressed {h : Heap} {recv n : Value} {es : List Value} {cause : Cause} {target : Expr} {rest : List Value}
    (hno : NoElement recv n es cause) (hes : recv = .null ∨ h.get? recv = some (.list es))
    (hrange : ∀ a, h[a]? = some (.list es) → ¬(0 ≤ n.toInt32.toInt ∧ n.toInt32.toInt < es.length) →
      Unaddressed ctx h target (.ref a :: rest) .indexOutOfRange) : Unaddressed ctx h target (recv :: rest) cause := by
  cases hno with
  | null hnull => exact hnull ▸ .null
  | range hne hno =>
    obtain ⟨a, rfl⟩ := Heap.ref_of_get? (hes.resolve_left hne)
    exact hrange a (hes.resolve_left hne) hno

/-- An assignment ends: the value, or a copy of it, is stored. -/
theorem Found.puts (hf : Found ctx (ctx.typeOf l) (ctx.typeOf r) d.locals l found more ops)
    (htype : ctx.typeOf (.binary t .assign l r) = ctx.typeOf r) (htakes : Ty.Takes (ctx.typeOf l) (ctx.typeOf r))
    (hs : d.stack = v :: Crosses.copyRefs copy ++ (more ++ c.stack))
    (hcopy : copy.isSome = ((ctx.typeOf l).isList && (ctx.typeOf r).isList))
    (hb : ∀ b ∈ copy, d.heap[b]? = some (.list []) ∧ .ref b ∉ found)
    (hfound : List.Forall₂ (fun y v => v = .null ∨ m.Fits d.heap (ctx.typeOf y) v) l.finders found)
    (hv : m.Fits d.heap (ctx.typeOf r) v) :
    Crosses m mc callers d.pc hi (Machine.StoreFails mc ctx copy l found c d)
      (fun f _ => m.Puts ctx copy (.binary t .assign l r) l temps found [v] c d f)
      (onLine line (copyEnd (ctx.typeOf l) (ctx.typeOf r)) ++ onLine line' ops) d s := by
  refine .copyEnd hs hcopy (fun b hb' => (hb b hb').1) hv
    fun d₁ new s₁ hst hloc hsame hret hnew hfits => ?_
  -- What was found is not the copy, so it is still what it was.
  have hkeeps : ∀ w ∈ found, ∀ o, d.heap.get? w = some o → d₁.heap.get? w = some o := by
    intro w hw o ho
    obtain ⟨a, rfl⟩ := Heap.ref_of_get? ho
    exact hsame a o (fun ha => (hb a ha).2 hw) ho
  have hgives : ∀ {p : Location} {heap : Heap}, d₁.heap.Grows heap →
      Expr.Gives ctx p d heap copy (.binary t .assign l r) [v] new new := by
    intro p heap hg
    rcases hnew with ⟨rfl, rfl⟩ | ⟨b, es, rfl, rfl, hes, hbs⟩
    · exact .assign hcopy.symm
    · exact .copy hcopy.symm hes (hg (.ref b) _ hbs)
  have hfresh : ∀ {heap : Heap}, d₁.heap.Grows heap → Heap.SameBut copy d.heap heap := fun hg => hsame.trans hg.sameBut
  have hfull : ∀ {n : Nat} (e : Spot), n ≤ c.stack.length + 4 → mc.Full n →
      Machine.StoreFails mc ctx copy l found c d e .stackOverflow := fun e hn hf => .inl ⟨rfl, hf.mono hn⟩
  have hput : ∀ {f : Spot} {heap : Heap} {a : Nat} {k : Key} {o : Object} {w : Value}, .ref a ∈ found →
      d.heap.get? (.ref a) = some o → Location.Addressed ctx d.heap l found (.inside a k) →
      (o.put w k).get? k = some w → f.stack = new :: c.stack → f.locals = d₁.locals → d₁.heap.Grows heap →
      f.heap = heap.set (.ref a) (o.put w k) → f.heap.Boxes (ctx.typeOf r) new w →
      m.Puts ctx copy (.binary t .assign l r) l temps found [v] c d f := by
    intro f heap a k o w ha ho haddressed hget hfs hfl hg hheap hboxes
    exact ⟨_, haddressed, .inside (hg _ _ (hkeeps _ ha o ho)) hget (hgives hg) hfs (htype ▸ hfits.retains hg.retains)
      (hfresh hg) hheap (fun i _ => by rw [hfl, hloc]) (htype ▸ hboxes)⟩
  rw [← List.append_nil (onLine line' ops)]
  cases hf with
  | @ident id sym hsym hlt =>
    refine .storeVariable hst hfits (hloc ▸ hlt) (fun e => hfull e (by simp)) fun f w s₂ hfs hfl hfg hfb => .nil ?_
    exact ⟨_, .ident hsym, .slot (hgives hfg) hfs (htype ▸ hfits.retains hfg.retains) (hfresh hfg) rfl hlt (hloc ▸ hfl)
      (htype ▸ hfb)⟩
  | @index u x i ts temp n w ht hn =>
    obtain ⟨hw, -⟩ := List.forall₂_cons.1 hfound
    obtain ⟨es, hes⟩ := Machine.Fits.list_or_null ht hw
    refine .storeElement hst hfits htakes.null (hes.imp_right (hkeeps w (by simp) _))
      (fun he hes => .load (by rw [he, hloc]; exact hn) (fun hf => hfull _ (by simp [hes]) hf))
      (fun e => hfull e (by simp)) (fun e cause hg hno => .inr ⟨hno.unaddressed hes fun a ho => .index ho, hfresh hg⟩)
      fun f w' heap a k s₂ ha hk hlt hfs hfl hg hheap hboxes => .nil ?_
    subst ha
    have ho : d.heap.get? (.ref a) = some (.list es) := hes.resolve_left (by simp)
    exact hput (by simp) ho (.index ho hk hlt) (List.getElem?_set_self hlt) hfs hfl hg hheap hboxes
  | @element u x id ts i w ht hi =>
    obtain ⟨hw, -⟩ := List.forall₂_cons.1 hfound
    obtain ⟨es, hes⟩ := Machine.Fits.list_or_null ht hw
    refine .storeElement hst hfits htakes.null (hes.imp_right (hkeeps w (by simp) _))
      (fun _ hes => .step (by simp) (.pushInt fun hf => hfull _ (by simp [hes]) hf) rfl)
      (fun e => hfull e (by simp)) (fun e cause hg hno => .inr ⟨hno.unaddressed hes fun a ho => .element ht hi ho, hfresh hg⟩)
      fun f w' heap a k s₂ ha hk hlt hfs hfl hg hheap hboxes => .nil ?_
    subst ha
    have ho : d.heap.get? (.ref a) = some (.list es) := hes.resolve_left (by simp)
    exact hput (by simp) ho (.element ht hi ho hk hlt) (List.getElem?_set_self hlt) hfs hfl hg hheap hboxes
  | @field u x id cls owner desc w ht =>
    obtain ⟨hw, -⟩ := List.forall₂_cons.1 hfound
    obtain ⟨cls', fields, hinst⟩ := Machine.Fits.inst_or_null ht hw
    refine .storeField hst hfits htakes.prim htakes.same (hinst.imp_right (hkeeps w (by simp) _))
      (fun e => hfull e (by simp)) (fun e hg hnull => .inr ⟨hnull ▸ .null, hfresh hg⟩)
      fun f w' heap a s₂ ha hfs hfl hg hheap hboxes => .nil ?_
    subst ha
    have ho : d.heap.get? (.ref a) = some (.inst cls' fields) := hinst.resolve_left (by simp)
    exact hput (by simp) ho (.field ht ho) (lookup_setFieldValue fields id.name w') hfs hfl hg hheap hboxes

theorem UnOp.toInt_changed (op : UnOp) (n : Int32) :
    (n + Int32.ofInt op.delta).toInt = (n.toInt + op.delta).bmod (2 ^ 32) := by
  have hdelta : (Int32.ofInt op.delta).toInt = op.delta := by cases op <;> rfl
  rw [Int32.toInt_add, hdelta]

section

variable {op : UnOp} {target : Expr} {w : Value} {e : Spot}

theorem putsVariable {id : Ident} {sym : Symbol} {n : Int32} (hsym : ctx.method.symbol? id.name = some sym)
    (htype : ctx.typeOf (.unary t op (.ident id)) = .int) (hw : c.locals[sym.slot]? = some w)
    (hn : c.heap.get? w = some (.integer n)) :
    Crosses m mc callers c.pc hi (Machine.StoreFails mc ctx none (.ident id) [] c c)
      (fun f _ => m.Puts ctx none (.unary t op (.ident id)) (.ident id) [] [] [] c c f)
      (onLine line (changeVariable sym.slot op)) c s := by
  rw [← List.append_nil (onLine line _)]
  refine .changeVariable hw hn (fun _ hf => .inl ⟨rfl, hf.mono (by simp)⟩) fun f w' s₁ hfs hfl hfg hw' => .nil ?_
  refine ⟨_, .ident hsym, .slot (.change hw hn (op.toInt_changed n)) hfs ?_ hfg.sameBut rfl
    (Array.getElem?_eq_some_iff.1 hw).1 hfl ?_⟩
  · rw [htype]
    exact ⟨_, rfl⟩
  · rw [htype]
    exact ⟨_, rfl, hw'⟩

/-- The number in an element of a list is changed; the list and the index are still known. -/
theorem putsElement {recv : Value} {es : List Value} {list val : Nat} {index : Op} {lo : Nat} (nval : Value)
    (htype : ctx.typeOf (.unary t op target) = .int) (hes : recv = .null ∨ d.heap.get? recv = some (.list es))
    (haddressed : ∀ a k, recv = .ref a → nval.toInt32.toInt = (k : Nat) → k < es.length →
      Location.Addressed ctx d.heap target found (.inside a (.index k)))
    (hmiss : ∀ cause, NoElement recv nval es cause → Unaddressed ctx d.heap target found cause)
    (hold : ∀ p, Location.Addressed ctx d.heap target found p →
      ∃ w n, p.get? d = some w ∧ d.heap.get? w = some (.integer n))
    (hst : e.stack = c.stack) (hheap : e.heap = d.heap) (hlocals : ∀ i, i ∉ temps → e.locals[i]? = d.locals[i]?)
    (hlist : e.locals[list]? = some recv) (hval : val < e.locals.size) (htemp : val ∈ temps)
    (hindex : ∀ {is f s'}, f.locals = e.locals → f.stack.length ≤ c.stack.length + 3 →
      (∀ s'', Crosses m mc callers lo hi (Machine.StoreFails mc ctx none target found c d)
        (fun f _ => m.Puts ctx none (.unary t op target) target temps found [] c d f) is (f.next (nval :: f.stack)) s'') →
      Crosses m mc callers lo hi (Machine.StoreFails mc ctx none target found c d)
        (fun f _ => m.Puts ctx none (.unary t op target) target temps found [] c d f) (⟨index, line⟩ :: is) f s') :
    Crosses m mc callers lo hi (Machine.StoreFails mc ctx none target found c d)
      (fun f _ => m.Puts ctx none (.unary t op target) target temps found [] c d f)
      (onLine line (changeElement list val index op)) e s := by
  rw [← List.append_nil (onLine line _)]
  refine .changeElement hlist hval (fun he hlen hk => hindex he (hst ▸ hlen) hk) (hheap ▸ hes) (fun a k ha hk hlt => ?_)
    (fun _ hf => .inl ⟨rfl, hf.mono (by simp [hst])⟩)
    (fun f cause hg hno => .inr ⟨hmiss cause hno, Heap.Grows.sameBut (hheap ▸ hg)⟩)
    fun f a k old n w heap s₁ ha hk hlt hx hn hfs hfl hg hfh hw => .nil ?_
  · subst ha
    obtain ⟨w, n, hw, hn⟩ := hold _ (haddressed a k rfl hk hlt)
    have ho : d.heap[a]? = some (.list es) := hes.resolve_left (by simp)
    simp only [Location.get?, ho, Option.bind_some] at hw
    exact ⟨w, n, hw, hheap ▸ hn⟩
  · subst ha
    have ho : d.heap[a]? = some (.list es) := hes.resolve_left (by simp)
    have hg : d.heap.Grows heap := hheap ▸ hg
    have hget : heap[a]? = some (.list es) := hg (.ref a) _ ho
    have hold : (Location.inside a (.index k)).get? d = some old := by
      simp only [Location.get?, ho, Option.bind_some]
      exact hx
    refine ⟨_, haddressed a k rfl hk hlt, .inside hget (List.getElem?_set_self hlt)
      (.change hold (hheap ▸ hn) (op.toInt_changed n)) (hst ▸ hfs) ?_ hg.sameBut hfh (fun i hi => ?_) ?_⟩
    · rw [htype]
      exact ⟨_, rfl⟩
    · have hne : val ≠ i := fun he => hi (he ▸ htemp)
      rw [hfl, Array.getElem?_setIfInBounds_ne hne, hlocals i hi]
    · rw [htype]
      exact ⟨_, rfl, hw⟩

/-- The number in a field is changed; the object is still known. -/
theorem putsField {u : Token} {x : Expr} {id : Ident} {cls cls' : String} {fields : List (String × Value)} {recv : Value}
    {obj val lo : Nat} {owner desc : String} (htype : ctx.typeOf (.unary t op (.member u x id)) = .int)
    (hx : ctx.typeOf x = .cls cls) (hinst : recv = .null ∨ d.heap.get? recv = some (.inst cls' fields))
    (hold : ∀ p, Location.Addressed ctx d.heap (.member u x id) [recv] p →
      ∃ w n, p.get? d = some w ∧ d.heap.get? w = some (.integer n))
    (hst : e.stack = c.stack) (hheap : e.heap = d.heap) (hlocals : ∀ i, i ∉ temps → e.locals[i]? = d.locals[i]?)
    (hobj : e.locals[obj]? = some recv) (hval : val < e.locals.size) (htemp : val ∈ temps) :
    Crosses m mc callers lo hi (Machine.StoreFails mc ctx none (.member u x id) [recv] c d)
      (fun f _ => m.Puts ctx none (.unary t op (.member u x id)) (.member u x id) temps [recv] [] c d f)
      (onLine line (changeField obj val ⟨owner, id.name, desc⟩ op)) e s := by
  rw [← List.append_nil (onLine line _)]
  refine .changeField hobj hval (hheap ▸ hinst) (fun a ha => ?_) (fun _ hf => .inl ⟨rfl, hf.mono (by simp [hst])⟩)
    (fun f hg hnull => .inr ⟨hnull ▸ .null, Heap.Grows.sameBut (hheap ▸ hg)⟩)
    fun f a n w heap s₁ ha hn hfs hfl hg hfh hw => .nil ?_
  · subst ha
    have ho : d.heap[a]? = some (.inst cls' fields) := hinst.resolve_left (by simp)
    obtain ⟨w, n, hw, hn⟩ := hold _ (.field hx ho)
    simp only [Location.get?, ho, Option.bind_some, Object.get?] at hw
    rw [fieldValue, hw]
    exact ⟨n, hheap ▸ hn⟩
  · subst ha
    have ho : d.heap[a]? = some (.inst cls' fields) := hinst.resolve_left (by simp)
    have hg : d.heap.Grows heap := hheap ▸ hg
    have hget : heap[a]? = some (.inst cls' fields) := hg (.ref a) _ ho
    have hold : (Location.inside a (.name id.name)).get? d = some (fieldValue fields id.name) := by
      simp only [Location.get?, ho, Option.bind_some, Object.get?]
      unfold fieldValue at hn ⊢
      cases hl : fields.lookup id.name with
      | some v => rfl
      | none =>
        rw [hl] at hn
        cases hn
    refine ⟨_, .field hx ho, .inside hget (lookup_setFieldValue fields id.name w)
      (.change hold (hheap ▸ hn) (op.toInt_changed n)) (hst ▸ hfs) ?_ hg.sameBut hfh (fun i hi => ?_) ?_⟩
    · rw [htype]
      exact ⟨_, rfl⟩
    · have hne : val ≠ i := fun he => hi (he ▸ htemp)
      rw [hfl, Array.getElem?_setIfInBounds_ne hne, hlocals i hi]
    · rw [htype]
      exact ⟨_, rfl, hw⟩

end

end

end ClassCompiler
