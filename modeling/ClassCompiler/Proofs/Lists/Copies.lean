import ClassCompiler.Proofs.Lists.Assignments
import ClassCompiler.Proofs.Machine.Defaults
import ClassCompiler.Proofs.Machine.Evaluations

namespace ClassCompiler

/-- The spot where the copy of the list `a` has come about as the new list `b`, with the same elements. -/
structure Spot.Copied (u : Spot) (a b : Nat) (elems below : List Value) (w : Spot) : Prop where
  before : u.stack = .ref a :: .ref b :: .ref b :: below
  source : u.heap[a]? = some (.list elems)
  other : a ≠ b
  after : w = { u.next (.ref b :: below) with heap := u.heap.setIfInBounds b (.list elems) }

theorem Spot.Copied.pc {u w : Spot} {a b : Nat} {elems below : List Value} (h : u.Copied a b elems below w) :
    w.pc = u.pc + 1 := by
  rw [h.after]
  rfl

theorem Ends.copied {m : Machine} {ctx : Context} {mc : MethodCode} {callers : Outer} {stop : Nat} {D : Set Nat}
    {Q : Spot → State → Prop} {rest rc : List Instr} {c : Spot} {s : State} {r : Expr} {left right : Ty} {line : Int}
    {q q' : Supply} {sp : List Span} (he : Emits ctx (.expr r) q rc q' sp) (hclean : (Piece.expr r).Clean ctx)
    (hn : ∀ cls, argCount (ctx.table.constructorDescriptor cls) = (ctx.table.constructorParams cls).length)
    (hl : LabelsOnce mc.code) (hc : c.Hidden D) (hleft : left.isList = true) (hright : right.isList = true)
    (h : ∀ (y : Span) u su w sw a elems, y.expr? = some r → y.Covers ctx mc.code.toList →
      u.pc = y.start + y.length → OpAt mc.code u.pc (.invokeSpecial NativeConstructor.listCopy.ref) →
      m.Passes callers.frames stop s su → su.IsAt mc callers u → u.Copied a c.heap.size elems c.stack w →
      m.Passes callers.frames stop su sw → sw.IsAt mc callers w → w.Hidden (insert c.heap.size D) →
      c.Goes D (OwnSlot ctx.method.slotCount q q') [.ref c.heap.size] w →
      Ends m mc callers stop Q rest w sw) :
    Ends m mc callers stop Q (onLine line (copyBegin left right) ++ (rc ++ (onLine line (copyEnd left right) ++ rest)))
      c s := by
  simp only [copyBegin, copyEnd, hleft, hright, Bool.and_self, if_true, onLine_cons, onLine_nil, List.cons_append,
    List.nil_append]
  refine .new m.allocate_list fun s₁ hp₁ => .dup rfl fun s₂ hp₂ => ?_
  -- The new list, which the code of the value cannot reach.
  set b := c.heap.size
  set c₂ : Spot := Spot.next { c.next (.ref b :: c.stack) with heap := c.heap.push (.list []) }
    (.ref b :: .ref b :: c.stack) with hc₂
  have hhides : c₂.heap.Hides (insert b D) := hc.heap.push_hidden _
  have hsize : c₂.heap.size = b + 1 := by simp [hc₂, Spot.next, b]
  have hlocals : ∀ v ∈ c₂.locals, v.Clear (insert b D) c₂.heap.size := fun v hv => by
    rw [hsize]
    exact (hc.locals v hv).insert_size
  refine .at_ fun hat₂ _ _ => ?_
  refine .part he hclean hn hl ⟨hhides, hlocals⟩ (.anyhow _) fun u v su hu hpc hp₃ => ?_
  refine .at_ fun hat₃ _ hsu => ?_
  have hop : OpAt mc.code u.pc (.invokeSpecial NativeConstructor.listCopy.ref) := ⟨line, hat₃ 0 _ rfl⟩
  refine .invokeSpecial [v] hu.stack rfl fun heap sw hrun hp₄ => ?_
  obtain ⟨o, elems, ho, hselect, hheap⟩ := Ends.fillList_eq_ok hrun
  obtain ⟨a, rfl⟩ := Heap.ref_of_get? ho
  obtain rfl : o = .list elems := by
    cases o with
    | list es => exact congrArg Object.list (Option.some.inj hselect)
    | _ => cases hselect
  have hclear := hu.clear (.ref a) List.mem_cons_self
  have hab : a ≠ b := fun he => (hclear a rfl).2 (he ▸ Set.mem_insert _ _)
  have hkeeps : c.heap.Keeps D heap := hheap ▸ Heap.Keeps.fill hc.heap hu.keeps fun x hx =>
    (hu.keeps.hides.get? hclear ho x hx).subset (Set.subset_insert _ _)
  have hhides' : heap.Hides (insert b D) := hheap ▸ hu.keeps.hides.set_hidden (Set.mem_insert _ _) _
  have hlocals' : ∀ x ∈ u.locals, x.Clear (insert b D) heap.size := fun x hx => by
    simpa [hheap, Heap.set] using hu.locals x hx
  have hb : (Value.ref b).Clear D heap.size := fun x hx => by
    obtain rfl := Value.ref.inj hx
    exact ⟨hhides'.bound b (Set.mem_insert _ _), fun hD => Nat.lt_irrefl _ (hc.heap.bound b hD)⟩
  have hcovers : Span.Covers ctx mc.code.toList ⟨.expr r, q, c₂.pc, rc.length⟩ := by
    obtain ⟨line', hline⟩ := hop
    have hlt := (Array.getElem?_eq_some_iff.1 hline).1
    exact he.covers_at (CodeAt.append_iff.1 hat₂).1 (by omega)
  refine .at_ fun _ _ hsw => ?_
  refine h _ u su _ sw a elems rfl hcovers hpc hop (((hp₁.trans hp₂)).trans hp₃) hsu ⟨hu.stack, ho, hab, ?_⟩ hp₄ hsw
    ⟨hhides', hlocals'⟩ ⟨rfl, by simpa using hb, hkeeps, fun x hx => (hlocals' x hx).subset (Set.subset_insert _ _), hu.same⟩
  rw [hheap]
  rfl

/-- Between two states a list was assigned. The list `source`, which the code at `value` left, was copied to the
new list `copy`. Nothing referred to that, and then the location that `l` names did. -/
inductive Machine.AssignsList (m : Machine) (ctx : Context) (mc : MethodCode) (callers : Outer) (l : Expr) (value : Span)
    (source copy : Nat) (c : Spot) (s : State) (d : Spot) (t : State) : Prop
  | intro {u w : Spot} {su sw : State} {elems below : List Value} {p : Location}
      (before : m.Passes callers.frames d.pc s su) (value_at : su.IsAt mc callers u)
      (value_pc : u.pc = value.start + value.length)
      (copies : OpAt mc.code u.pc (.invokeSpecial NativeConstructor.listCopy.ref))
      (copied : u.Copied source copy elems below w) (passes : m.Passes callers.frames d.pc su sw)
      (copied_at : sw.IsAt mc callers w) (fresh : c.heap.size ≤ copy) (hidden : w.Hidden {copy})
      (below_clear : ∀ v ∈ below, v.Clear {copy} w.heap.size)
      (callers_clear : ∀ f ∈ callers.frames, f.ClearIn {copy} w.heap.size)
      (named : p.Named ctx w l) (after : m.Passes callers.frames d.pc sw t)
      (stack : d.stack = .ref copy :: c.stack) (locals : d.locals = (p.put (.ref copy) w).locals)
      (heap : d.heap = (p.put (.ref copy) w).heap) (holds : p.get? d = some (.ref copy)) :
      AssignsList m ctx mc callers l value source copy c s d t

theorem Value.Clear.of_le {n k b : Nat} {v : Value} (h : v.Clear ∅ n) (hn : n ≤ b) (hk : b ≤ k) : v.Clear {b} k :=
  fun a ha => by
    obtain ⟨hlt, -⟩ := h a ha
    exact ⟨by omega, fun hb => by rw [Set.mem_singleton_iff.1 hb] at hlt; omega⟩

theorem Frame.ClearIn.of_le {n k b : Nat} {f : Frame} (h : f.ClearIn ∅ n) (hn : n ≤ b) (hk : b ≤ k) : f.ClearIn {b} k :=
  ⟨fun v hv => (h.stack v hv).of_le hn hk, fun v hv => (h.locals v hv).of_le hn hk⟩

theorem Ty.isPrimitive_of_isList {t : Ty} (h : t.isList = true) : t.isPrimitive = false := by
  cases t <;> simp_all [Ty.isList, Ty.isPrimitive]

theorem Ends.assignsList {m : Machine} {ctx : Context} {mc : MethodCode} {callers : Outer} {stop : Nat} {code : List Instr}
    {c : Spot} {s : State} {tok : Token} {l r : Expr} {q q' : Supply} {sp : List Span}
    (he : Emits ctx (.expr (.binary tok .assign l r)) q code q' sp)
    (hclean : (Piece.expr (.binary tok .assign l r)).Clean ctx)
    (hn : ∀ cls, argCount (ctx.table.constructorDescriptor cls) = (ctx.table.constructorParams cls).length)
    (hl : LabelsOnce mc.code) (hslots : ctx.method.slotCount ≤ q.slots) (hb : s.Bounded) (hc : c.Hidden ∅)
    (hleft : (ctx.typeOf l).isList = true) (hright : (ctx.typeOf r).isList = true) :
    Ends m mc callers stop (fun d t => ∃ value source copy, value.expr? = some r ∧ value.Covers ctx mc.code.toList ∧
      m.AssignsList ctx mc callers l value source copy c s d t) code c s := by
  refine .at_ fun _ hstop hsc => ?_
  rw [← List.append_nil code]
  refine .aim he hclean hn hl hslots hc fun c' s' more rc u u' rs post hrc hclean' _ _ hgoes haimed hp₁ => ?_
  refine .copied hrc hclean' hn hl hgoes.hidden hleft hright fun y e se w sw a elems hy hcovers hpc hop hp₂ hse hcopied
    hp₃ hsw hhidden hgoes' => ?_
  have hstack : w.stack = .ref c'.heap.size :: more ++ c.stack := by
    rw [hgoes'.stack, hgoes.stack]
    rfl
  refine .put haimed hstack hgoes'.same (Ty.isPrimitive_of_isList hleft) (Ty.isPrimitive_of_isList hright)
    fun d t p hnamed hd hlocals hheap hholds hp₄ => ?_
  refine .at_ fun _ hstop' _ => .nil ⟨y, a, c'.heap.size, hy, hcovers, ?_⟩
  obtain rfl : stop = d.pc := hstop'
  obtain ⟨f, ⟨-, -, hfstack, -, -⟩, rfl⟩ := hsc
  have hle : c.heap.size ≤ c'.heap.size := hgoes.keeps.size
  have hle' : c'.heap.size ≤ w.heap.size := hgoes'.keeps.size
  have hbelow : ∀ v ∈ c'.stack, v.Clear {c'.heap.size} w.heap.size := by
    rw [hgoes.stack]
    refine List.forall_mem_append.2 ⟨fun v hv => (hgoes.clear v hv).of_le (Nat.le_refl _) hle', fun v hv => ?_⟩
    exact ((hb.frames f List.mem_cons_self).stack v (hfstack ▸ hv)).of_le hle hle'
  have hcallers : ∀ g ∈ callers.frames, g.ClearIn {c'.heap.size} w.heap.size := fun g hg =>
    (hb.frames g (List.mem_cons_of_mem _ hg)).of_le hle hle'
  rw [insert_empty_eq] at hhidden
  exact .intro (hp₁.trans hp₂) hse hpc hop hcopied hp₃ hsw hle hhidden hbelow hcallers hnamed hp₄ hd hlocals hheap hholds

/-- Every assignment of a list in an accepted program stores a new list with the elements of the value, and
nothing else refers to it: what is stored in elements of one of the two lists is never read from the other. -/
theorem accepted_list_assignment_copies {o : CompileOptions} {p : Program}
    {files : List ClassFile} (hw : p.Written) (ha : (p.check o.entry).issues = [])
    (hc : Program.compile o (p.check o.entry).decl (p.check o.entry).decl = .ok files) :
    (∀ mc, (Machine.load files).HasMethod mc →
        ∃ c ∈ p.classes, Made o c mc ∨ ∃ d ∈ c.bodies, CodeFor o p c d mc) ∧
      ∀ c ∈ p.classes, ∀ d ∈ c.bodies, ∀ mc, CodeFor o p c d mc →
        ∃ spans : List Span, spans.filterMap Span.expr? = Stmt.evaluatedAll d.body ∧
          (∀ x ∈ spans, x.Covers ⟨p, c.name.name, d⟩ mc.code.toList) ∧
          ∀ x ∈ spans, ∀ tok l r, x.expr? = some (.binary tok .assign l r) →
            (Context.typeOf ⟨p, c.name.name, d⟩ l).isList = true →
            (Context.typeOf ⟨p, c.name.name, d⟩ r).isList = true →
            ∀ entry callers a s b t, (Machine.load files).Reaches entry s →
              (Machine.load files).Evaluates mc callers x a s b t →
              ∃ value source copy, value.expr? = some r ∧ value.Covers ⟨p, c.name.name, d⟩ mc.code.toList ∧
                (Machine.load files).AssignsList ⟨p, c.name.name, d⟩ mc callers l value source copy a s b t ∧
                ∀ (e : Spot) (v : Value) (i k : Nat),
                  (Location.inside source (.index k)).get? ((Location.inside copy (.index i)).put v e) =
                      (Location.inside source (.index k)).get? e ∧
                    (Location.inside copy (.index k)).get? ((Location.inside source (.index i)).put v e) =
                      (Location.inside copy (.index k)).get? e := by
  obtain ⟨hdecl, hclean⟩ := Program.check_clean ha
  rw [hdecl] at hc
  refine ⟨fun mc hmc => HasMethod.origin (Program.compile_ok hc) hmc, fun c hmem d hd mc hcode => ?_⟩
  obtain ⟨spans, hexprs, hcovers, hsites⟩ := hcode.sites ((hw c hmem).bodies d hd) (hclean.bodyClean hmem hd)
  refine ⟨spans, hexprs, hcovers, fun x hx tok l r he hleft hright entry callers a s b t hs heval => ?_⟩
  have hsite := hsites x hx _ he
  obtain ⟨value, source, copy, hvalue, hat, hassigns⟩ := heval.ends_of hs hsite fun code after sp hemits hb hc =>
    Ends.assignsList hemits hsite.clean hw.argCount_constructorDescriptor hsite.labels hsite.slots hb hc hleft hright
  refine ⟨value, source, copy, hvalue, hat, hassigns, fun e v i k => ?_⟩
  have hother : source ≠ copy := by
    cases hassigns with
    | intro _ _ _ _ copied => exact copied.other
  exact ⟨Location.get?_put_of_ne (fun he => hother (Location.inside.inj he).1.symm) v e,
    Location.get?_put_of_ne (fun he => hother (Location.inside.inj he).1) v e⟩

namespace SharedLists

open Sample Yaml

/-- A list of lists is assigned, and then an element of its element. -/
def source : String :=
  "classes: [{class: Main,constructor: {locals: [{a: list(list(int))},{b: list(list(int))}],body: [{assign: [b,a]},{assign: [{idx: [{idx: [b,0]},0]},7]},{print: {idx: [{idx: [a,0]},0]}}]}}]"

def number (text : String) (column : Nat) : Node := ⟨.scalar, "!!int", .plain, text, 1, column, []⟩

def root : Node :=
  entry 1 [word "classes" 1, row 10 [
    entry 11 [word "class" 12, word "Main" 19, word "constructor" 24, entry 37 [
      word "locals" 38, row 46 [
        entry 47 [word "a" 48, word "list(list(int))" 51], entry 68 [word "b" 69, word "list(list(int))" 72]],
      word "body" 90, row 96 [
        entry 97 [word "assign" 98, row 106 [word "b" 107, word "a" 109]],
        entry 113 [word "assign" 114, row 122 [
          entry 123 [word "idx" 124, row 129 [
            entry 130 [word "idx" 131, row 136 [word "b" 137, number "0" 139]], number "0" 143]],
          number "7" 147]],
        entry 151 [word "print" 152, entry 159 [word "idx" 160, row 165 [
          entry 166 [word "idx" 167, row 172 [word "a" 173, number "0" 175]], number "0" 179]]]]]]]]

def lists : Ty := .list [("", .list [("", .int)])]

def int (text : String) (v : Int) (column : Int) : Expr := .int ⟨.intLit, text, 1, column⟩ v

def first (list : String) (outer inner var i j : Int) : Expr :=
  .index (token .bracket outer) (.index (token .bracket inner) (.ident (name list var)) (int "0" 0 i)) (int "0" 0 j)

def program : Program where
  file := "sample"
  classes := [{
    token := ⟨.classDecl, "Main", 1, 11⟩
    name := name "Main" 19
    constructor := some {
      token := ⟨.constructor, "", 1, 37⟩
      name := ⟨⟨.constructor, "", 1, 37⟩, "Main"⟩
      locals := [⟨⟨.var, "a", 1, 48⟩, name "a" 48, lists⟩, ⟨⟨.var, "b", 1, 69⟩, name "b" 69, lists⟩]
      body := [
        .assign ⟨token (.binary .assign) 98, .ident (name "b" 107), .ident (name "a" 109)⟩,
        .assign ⟨token (.binary .assign) 114, first "b" 124 131 137 139 143, int "7" 7 147⟩,
        .print (token .print 152) (first "a" 160 167 173 175 179)] } }]

theorem parse_lists : Ty.parse "list(list(int))" = .ok lists := by rfl

theorem int?_zero : Numeral.int? 32 ['0'] = some 0 := by rfl

theorem int?_seven : Numeral.int? 32 ['7'] = some 7 := by rfl

theorem ofNode_root : Program.ofNode "sample" root = .ok program := by
  simp [Program.ofNode, root, entry, row, word, number, Decoder.classLists, Decoder.classDecl, Decoder.entries,
    Decoder.classParts, Decoder.name, Decoder.constructor, Decoder.methodParts, Decoder.stmtList, Decoder.stmts,
    Decoder.stmt, Decoder.expr, Decoder.scalar, Decoder.assignment, Decoder.vars, Decoder.var, Decoder.type,
    Node.isNull, bind, Except.bind, pure, Except.pure, parse_lists, int?_zero, int?_seven]
  rfl

set_option maxRecDepth 1500 in
theorem decode_source : Program.decode "sample" source = .ok program :=
  Program.decode_of_read (by decide +kernel) ofNode_root

theorem accepted : (program.check "Main").issues = [] := by decide

theorem compiled : ∃ files, Program.compile {} (program.check "Main").decl (program.check "Main").decl = .ok files := by
  have hc : (Program.compile {} (program.check "Main").decl (program.check "Main").decl).toOption.isSome := by decide
  cases hf : Program.compile {} (program.check "Main").decl (program.check "Main").decl with
  | error e => simp [hf, Except.toOption] at hc
  | ok files => exact ⟨files, rfl⟩

end SharedLists

theorem accepted_list_assignment_copies_shared : ∃ files,
    Program.compile {} (SharedLists.program.check "Main").decl (SharedLists.program.check "Main").decl = .ok files ∧
      ∀ c ∈ SharedLists.program.classes, ∀ d ∈ c.bodies, ∀ mc, CodeFor {} SharedLists.program c d mc →
        ∃ spans : List Span, spans.filterMap Span.expr? = Stmt.evaluatedAll d.body ∧
          ∀ x ∈ spans, ∀ tok l r, x.expr? = some (.binary tok .assign l r) →
            (Context.typeOf ⟨SharedLists.program, c.name.name, d⟩ l).isList = true →
            (Context.typeOf ⟨SharedLists.program, c.name.name, d⟩ r).isList = true →
            ∀ entry callers a s b t, (Machine.load files).Reaches entry s →
              (Machine.load files).Evaluates mc callers x a s b t → ∃ value source copy,
                (Machine.load files).AssignsList ⟨SharedLists.program, c.name.name, d⟩ mc callers l value source copy
                  a s b t := by
  obtain ⟨files, hf⟩ := SharedLists.compiled
  obtain ⟨-, hbodies⟩ := accepted_list_assignment_copies (o := {}) (Program.decode_written SharedLists.decode_source) SharedLists.accepted hf
  refine ⟨files, hf, fun c hc d hd mc hcode => ?_⟩
  obtain ⟨spans, hexprs, -, hassigns⟩ := hbodies c hc d hd mc hcode
  refine ⟨spans, hexprs, fun x hx tok l r he hleft hright entry callers a s b t hs heval => ?_⟩
  obtain ⟨value, source, copy, -, -, h, -⟩ := hassigns x hx tok l r he hleft hright entry callers a s b t hs heval
  exact ⟨value, source, copy, h⟩

/-- The elements are not copied. What is stored in an element of an element of the one list is printed as that
of the other, which is never assigned. -/
theorem list_assignment_shares_elements : ∃ files,
    Program.decode "sample" SharedLists.source = .ok SharedLists.program ∧
      (SharedLists.program.check "Main").issues = [] ∧
      Program.compile {} (SharedLists.program.check "Main").decl (SharedLists.program.check "Main").decl = .ok files ∧
      (Machine.load files).run false 100 "Main" = .finished "7" := by
  obtain ⟨files, hf⟩ := SharedLists.compiled
  have hrun : (Program.compile {} (SharedLists.program.check "Main").decl
      (SharedLists.program.check "Main").decl).toOption.bind (fun files =>
        ((Machine.load files).run false 100 "Main").printed?) = some "7" := by decide +kernel
  simp only [hf, Except.toOption, Option.bind_some] at hrun
  exact ⟨files, SharedLists.decode_source, SharedLists.accepted, hf, Outcome.eq_finished hrun⟩

end ClassCompiler
