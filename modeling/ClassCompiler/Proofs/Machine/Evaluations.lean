import ClassCompiler.Proofs.Compile.Loops
import ClassCompiler.Proofs.Machine.Ends

namespace ClassCompiler

/-- What holds of a piece and of the parts of every piece that it holds of, holds of all pieces inside. -/
theorem Emits.forall_of_mem {ctx : Context} {P : Piece → Supply → Prop} {q : Piece} {s s' : Supply} {code : List Instr}
    {sp : List Span} (h : Emits ctx q s code s' sp) (hq : P q s)
    (hP : ∀ {q s items s'}, Rule ctx q s items s' → Parts (fun _ t _ t' _ => t.slots ≤ t'.slots) items → P q s →
      Parts (fun r t _ _ _ => P r t) items) : ∀ x ∈ sp, P x.piece x.before := by
  induction h with
  | @intro q s s' items code hr hp hc hg ih =>
    intro x hx
    rcases List.mem_cons.1 hx with rfl | hx
    · exact hq
    · have hmono := Parts.iff_forall_mem.2 fun q t c t' sp hm => (hp q t c t' sp hm).slots_mono
      obtain ⟨first, i, rest, y, rfl, hy, rfl⟩ := mem_spansFrom_iff.1 hx
      cases i with
      | ops line os => simp [Item.spans] at hy
      | part r t c t' sp =>
        have hmem : Item.part r t c t' sp ∈ first ++ Item.part r t c t' sp :: rest := by simp
        exact ih r t c t' sp hmem (Parts.iff_forall_mem.1 (hP hr hmono hq) r t c t' sp hmem) y hy

theorem Emits.self_mem {ctx : Context} {p : Piece} {u u' : Supply} {code : List Instr} {sp : List Span}
    (h : Emits ctx p u code u' sp) : ⟨p, u, 0, code.length⟩ ∈ sp := by
  cases h
  exact List.mem_cons_self

/-- The code of a clean expression stands at a span of a method. -/
structure Span.Site (ctx : Context) (mc : MethodCode) (x : Span) (e : Expr) : Prop where
  clean : (Piece.expr e).Clean ctx
  written : AllWritten e.subterms
  slots : ctx.method.slotCount ≤ x.before.slots
  labels : LabelsOnce mc.code
  emits : ∃ code after sp, Emits ctx (.expr e) x.before code after sp ∧ CodeAt mc.code x.start code ∧
    x.length = code.length

/-- Wherever the code of a piece stands, a span covers it. -/
theorem Emits.covers_at {ctx : Context} {q : Piece} {s s' : Supply} {is : List Instr} {sp : List Span} {code : Code}
    {k : Nat} (h : Emits ctx q s is s' sp) (hat : CodeAt code k is) (hk : k ≤ code.size) :
    Span.Covers ctx code.toList ⟨q, s, k, is.length⟩ := by
  have hprefix : is <+: code.toList.drop k := by
    refine List.prefix_iff_getElem?.2 fun i hi => ?_
    rw [List.getElem?_drop, Array.getElem?_toList]
    exact hat i _ (List.getElem?_eq_getElem hi)
  obtain ⟨rest, hrest⟩ := hprefix
  cases h with
  | intro _ _ _ hg =>
    refine ⟨code.toList.take k, is, rest, s', ?_, by simp [hk], rfl, hg⟩
    rw [List.append_assoc, hrest, List.take_append_drop]

/-- The code of a clean piece stands at a span of a method, and the spans inside are among those of the method. -/
structure Span.Stands (ctx : Context) (mc : MethodCode) (spans : List Span) (x : Span) : Prop where
  clean : x.piece.Clean ctx
  written : AllWritten x.piece.subterms
  slots : ctx.method.slotCount ≤ x.before.slots
  labels : LabelsOnce mc.code
  emits : ∃ code after inner, Emits ctx x.piece x.before code after inner ∧ CodeAt mc.code x.start code ∧
    x.length = code.length ∧ ∀ y ∈ inner, y.shift x.start ∈ spans

/-- The spans of a body in the code of its method. -/
structure BodySpans (ctx : Context) (mc : MethodCode) (spans : List Span) : Prop where
  exprs : spans.filterMap Span.expr? = Stmt.evaluatedAll ctx.method.body
  covers : ∀ x ∈ spans, x.Covers ctx mc.code.toList
  exits : ExitsLead ctx ctx.method.body mc.code (stmtSpans spans)
  stands : ∀ x ∈ spans, x.Stands ctx mc spans

theorem BodyCode.bodySpans {p : Program} {c : ClassDecl} {d : MethodDecl} {code start : List Instr} {mc : MethodCode}
    (b : BodyCode p c d code) (hmc : mc.code = (start ++ code).toArray) (hw : d.Written) (hd : d.BodyClean p c.name.name)
    (hl : ∀ l, labelCount start l = 0) : BodySpans ⟨p, c.name.name, d⟩ mc (b.spansAfter start) := by
  refine ⟨?_, by simpa [hmc] using b.covers_spansAfter start, by simpa [hmc] using b.exitsLead hl, fun x hx => ?_⟩
  · rw [b.filterMap_spansAfter start Span.shift_expr?]
    exact b.emits.evaluated
  obtain ⟨y, hy, rfl⟩ := List.mem_map.1 hx
  obtain ⟨⟨hclean, hwritten⟩, hslots⟩ := b.emits.forall_of_mem
    (P := fun q s => (q.Clean _ ∧ AllWritten q.subterms) ∧ d.slotCount ≤ s.slots)
    ⟨⟨hd.body, hw.terms⟩, Nat.le_refl _⟩ (fun hr hmono hq => by
      have hclean := Parts.iff_forall_mem.1 (hr.clean hq.1.1)
      have hwritten := Parts.iff_forall_mem.1 (hr.forall_subterms (fun _ _ _ => trivial) hq.1.2)
      refine Parts.iff_forall_mem.2 fun r t c t' sp hm => ⟨⟨hclean r t c t' sp hm, hwritten r t c t' sp hm⟩, ?_⟩
      exact Nat.le_trans hq.2 (hr.slots hmono _ hm).1) y hy
  obtain ⟨before, inner, rest, after, xs, hcode, hstart, hlen, hemits, hin⟩ := b.emits.built y hy
  refine ⟨hclean, hwritten, hslots, fun l => ?_, inner, after, xs, hemits, ?_, hlen, fun z hz => ?_⟩
  · simpa [hmc] using b.labelCount_le_one hl l
  · have hall : mc.code.toList = start ++ d.localDefaults ++ before ++ inner ++
        (rest ++ if d.endsWithReturn then [] else onLine d.token.pos.line [.ret]) := by
      simp only [hmc, b.code_eq, hcode, List.append_assoc]
    simpa [Span.shift, hstart, Nat.add_assoc] using CodeAt.of_eq hall
  · exact List.mem_map.2 ⟨_, hin z hz, by simp [Span.shift, Nat.add_assoc]⟩

theorem CodeFor.bodySpans {o : CompileOptions} {p : Program} {c : ClassDecl} {d : MethodDecl} {mc : MethodCode}
    (h : CodeFor o p c d mc) (hw : d.Written) (hd : d.BodyClean p c.name.name) :
    ∃ spans : List Span, BodySpans ⟨p, c.name.name, d⟩ mc spans := by
  rcases h with ⟨code, ⟨b, -⟩, rfl⟩ | ⟨code, ⟨b, -⟩, rfl⟩
  · have hcode : (o.method d.name.name d.descriptor false code).code = ([] ++ code).toArray := rfl
    exact ⟨_, b.bodySpans hcode hw hd fun _ => rfl⟩
  · exact ⟨_, b.bodySpans rfl hw hd (c.labelCount_prologue _)⟩

theorem Span.Stands.site {ctx : Context} {mc : MethodCode} {spans : List Span} {x : Span} {e : Expr}
    (h : x.Stands ctx mc spans) (he : x.expr? = some e) : x.Site ctx mc e := by
  have hpiece : x.piece = .expr e := by
    cases hp : x.piece <;> simp_all [Span.expr?, Piece.expr?]
  obtain ⟨hclean, hwritten, hslots, hlabels, code, after, inner, hemits, hat, hlen, -⟩ := h
  rw [hpiece] at hclean hwritten hemits
  exact ⟨hclean, hwritten, hslots, hlabels, code, after, inner, hemits, hat, hlen⟩

/-- Every evaluated expression of a body has its site. -/
theorem CodeFor.sites {o : CompileOptions} {p : Program} {c : ClassDecl} {d : MethodDecl} {mc : MethodCode}
    (h : CodeFor o p c d mc) (hw : d.Written) (hd : d.BodyClean p c.name.name) :
    ∃ spans : List Span, spans.filterMap Span.expr? = Stmt.evaluatedAll d.body ∧
      (∀ x ∈ spans, x.Covers ⟨p, c.name.name, d⟩ mc.code.toList) ∧
      ∀ x ∈ spans, ∀ e, x.expr? = some e → x.Site ⟨p, c.name.name, d⟩ mc e := by
  obtain ⟨spans, hspans⟩ := h.bodySpans hw hd
  exact ⟨spans, hspans.exprs, hspans.covers, fun x hx e he => (hspans.stands x hx).site he⟩

/-- A call evaluates the expression at a span, from one state to another. -/
structure Machine.Evaluates (m : Machine) (mc : MethodCode) (callers : Outer) (x : Span) (c : Spot) (s : State)
    (d : Spot) (t : State) : Prop where
  begins : s.IsAt mc callers c
  start : c.pc = x.start
  passes : m.Passes callers.frames (x.start + x.length) s t
  ends : t.IsAt mc callers d
  stop : d.pc = x.start + x.length

theorem State.Bounded.hidden {mc : MethodCode} {callers : Outer} {c : Spot} {s : State} (h : s.Bounded)
    (hs : s.IsAt mc callers c) : c.Hidden ∅ := by
  obtain ⟨f, ⟨-, -, -, hlocals, -⟩, rfl⟩ := hs
  exact ⟨h.heap, fun v hv => (h.frames f List.mem_cons_self).locals v (hlocals ▸ hv)⟩

/-- What the code of an expression is seen to do is what its evaluations do. -/
theorem Machine.Evaluates.ends_of {m : Machine} {ctx : Context} {mc : MethodCode} {callers : Outer} {x : Span} {e : Expr}
    {entry : String} {c d : Spot} {s t : State} {Q : Spot → State → Prop} (h : m.Evaluates mc callers x c s d t)
    (hs : m.Reaches entry s) (hx : x.Site ctx mc e)
    (hQ : ∀ code after sp, Emits ctx (.expr e) x.before code after sp → s.Bounded → c.Hidden ∅ →
      Ends m mc callers (c.pc + code.length) Q code c s) : Q d t := by
  obtain ⟨code, after, sp, hemits, hat, hlen⟩ := hx.emits
  have hb := hs.bounded
  exact hQ code after sp hemits hb (hb.hidden h.begins) (h.start ▸ hat) rfl h.begins d t h.ends
    (by rw [h.stop, h.start, hlen]) (by rw [h.start, ← hlen]; exact h.passes)

end ClassCompiler
