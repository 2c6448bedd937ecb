import ClassCompiler.Proofs.Soundness.Expressions

namespace ClassCompiler

/-- A contract as the body of a method keeps it. -/
structure Contract.Serves (k : Contract) (ctx : Context) : Prop where
  left : (Fact.val (.cls ctx.className)).Implies ctx.table k.left
  result : k.result = ctx.method.result

section

variable {ctx : Context} {o : CompileOptions} {files : List ClassFile} {k : Contract} {s s' : Supply}
  {items : List Item} {loop : Option Loop}

namespace Rule

theorem upholds_update {u : Option Assign} (hr : Rule ctx (.update u) s items s')
    (hslots : Parts (fun _ t _ t' _ => t.slots ≤ t'.slots) items) (hq : (Piece.update u).Typable ctx) :
    Upholds ctx o files k (.update u) s items := by
  have hparts := hr.typable hq hslots
  rintro T ⟨cs, τ, note⟩ b ⟨-, hready, rfl⟩
  obtain rfl : note = none := hready.note
  refine ⟨fun _ => none, by simp, ?_⟩
  cases hr
  case noUpdate => rfl
  case update =>
    simp only [Parts.part_iff, Parts.ops_iff, Parts.nil_iff] at hparts
    exact ⟨_, typeClaim_expr hparts.1.1 hready, chain_row (.single rfl leads_pop) (by simp) rfl⟩

theorem upholds_test {line : Int} {done : String} {e : Option Expr} (hr : Rule ctx (.test line done e) s items s')
    (hslots : Parts (fun _ t _ t' _ => t.slots ≤ t'.slots) items) (hq : (Piece.test line done e).Typable ctx) :
    Upholds ctx o files k (.test line done e) s items := by
  have hparts := hr.typable hq hslots
  rintro T ⟨cs, τ, note⟩ b ⟨-, hready, rfl, hdone⟩
  obtain rfl : note = none := hready.note
  refine ⟨fun _ => none, by simp, ?_⟩
  cases hr
  case noTest => rfl
  case test =>
    simp only [Parts.part_iff, Parts.ops_iff, Parts.nil_iff] at hparts
    exact ⟨_, typeClaim_expr hparts.1.1 hready, _, ⟨_, ⟨typeFlow_jump .ifZero
      (hdone.mono (fun l x h => .inl h) (.refl _)) Facts.drops_one fun _ => rfl, by simp⟩, rfl⟩, rfl⟩

theorem upholds_stmts {ss : List Stmt} (hr : Rule ctx (.stmts loop ss) s items s')
    (hslots : Parts (fun _ t _ t' _ => t.slots ≤ t'.slots) items) (hq : (Piece.stmts loop ss).Typable ctx) :
    Upholds ctx o files k (.stmts loop ss) s items := by
  have hparts := hr.typable hq hslots
  rintro T a b ⟨-, hready, rfl, hloop⟩
  have hloop := hloop.mono (U := fun l x => T l x ∨ none = some x) (fun l x h => .inl h) (.refl _)
  refine ⟨fun _ => none, by simp, ?_⟩
  cases hr
  case noStmts => rfl
  case stmts =>
    simp only [Parts.part_iff, Parts.nil_iff] at hparts
    exact ⟨_, ⟨hparts.1.1, hready, rfl, hloop⟩, _, ⟨hparts.2.1.1, hready.mono hparts.1.2, rfl, hloop⟩, rfl⟩

theorem upholds_orElse {x : Option Stmt} (hr : Rule ctx (.orElse loop x) s items s')
    (hslots : Parts (fun _ t _ t' _ => t.slots ≤ t'.slots) items) (hq : (Piece.orElse loop x).Typable ctx) :
    Upholds ctx o files k (.orElse loop x) s items := by
  have hparts := hr.typable hq hslots
  rintro T a b ⟨-, hready, rfl, hloop⟩
  have hloop := hloop.mono (U := fun l x => T l x ∨ none = some x) (fun l x h => .inl h) (.refl _)
  refine ⟨fun _ => none, by simp, ?_⟩
  cases hr
  case noElse => rfl
  case orElse =>
    simp only [Parts.part_iff, Parts.nil_iff] at hparts
    exact ⟨_, ⟨hparts.1.1, hready, rfl, hloop⟩, rfl⟩

/-- Both ways of a conditional lead behind it with what was known before it. -/
theorem upholds_cond {t : Token} {e : Expr} {y : Stmt} {n : Option Stmt}
    (hr : Rule ctx (.stmt loop (.cond t e y n)) s items s') (hslots : Parts (fun _ t _ t' _ => t.slots ≤ t'.slots) items)
    (hq : (Piece.stmt loop (.cond t e y n)).Typable ctx) : Upholds ctx o files k (.stmt loop (.cond t e y n)) s items := by
  have hparts := hr.typable hq hslots
  rintro T ⟨cs, τ, note⟩ b ⟨-, hready, rfl, hloop⟩
  obtain rfl : note = none := hready.note
  cases hr
  case cond ec s₁ es yc s₂ ys nc ns =>
    simp only [Parts.part_iff, Parts.ops_iff, Parts.nil_iff, Supply.take_slots] at hparts
    obtain ⟨he, hy, hn, -⟩ := hparts
    let states : List Facts := List.replicate 2 ⟨cs, τ, none⟩
    refine ⟨Flow.ownStates s states, fun l x => Flow.owned_of_ownStates ?_, ?_⟩
    · simp [states, Flow.Owned, or_and_right, exists_or]
      omega
    · have hno := Flow.ownStates_label s states 0
      have hafter := Flow.ownStates_label s states 1
      have hloop := hloop.mono (U := fun l x => T l x ∨ Flow.ownStates s states l = some x) (fun l x h => .inl h) (.refl _)
      exact ⟨_, typeClaim_expr he.1 (hready.mono (by simp)),
        _, ⟨_, ⟨typeFlow_jump .ifZero (Facts.enters_own hno (.refl _)) Facts.drops_one fun _ => rfl, by simp⟩, rfl⟩,
        _, ⟨hy.1, hready.mono (by omega), rfl, hloop⟩,
        _, ⟨⟨cs, τ, none⟩, ⟨typeFlow_jump .always (Facts.enters_own hafter (.refl _)) (Facts.drops_nothing _)
          (absurd rfl), by simp⟩, _, typeFlow_label hno, rfl⟩,
        _, ⟨hn.1, hready.mono (by omega), rfl, hloop⟩,
        _, ⟨_, typeFlow_label hafter, rfl⟩, rfl⟩

/-- What is known before a loop holds wherever its three labels stand. -/
theorem upholds_for {t : Token} {i u : Option Assign} {c : Option Expr} {y : Stmt}
    (hr : Rule ctx (.stmt loop (.for t i c u y)) s items s') (hslots : Parts (fun _ t _ t' _ => t.slots ≤ t'.slots) items)
    (hq : (Piece.stmt loop (.for t i c u y)).Typable ctx) : Upholds ctx o files k (.stmt loop (.for t i c u y)) s items := by
  have hparts := hr.typable hq hslots
  rintro T ⟨cs, τ, note⟩ b ⟨-, hready, rfl, hloop⟩
  obtain rfl : note = none := hready.note
  cases hr
  case «for» ic s₁ is cc s₂ us yc s₃ ys uc vs =>
    simp only [Parts.part_iff, Parts.ops_iff, Parts.nil_iff, Supply.take_slots] at hparts
    obtain ⟨hinit, htest, hbody, hupdate, -⟩ := hparts
    let states : List Facts := List.replicate 3 ⟨cs, τ, none⟩
    refine ⟨Flow.ownStates s states, fun l x => Flow.owned_of_ownStates ?_, ?_⟩
    · simp [states, Flow.Owned, or_and_right, exists_or]
      omega
    · have hstart := Flow.ownStates_label s states 0
      have hnext := Flow.ownStates_label s states 1
      have hdone := Flow.ownStates_label s states 2
      -- The body goes on at the update and leaves behind the loop; no loop around it matters.
      have henters : Facts.LoopEnters ctx.table (fun l x => T l x ∨ Flow.ownStates s states l = some x)
          (some ⟨s.label 1, s.label 2⟩) ⟨cs, τ, none⟩ := by
        rintro lp ⟨⟩
        exact ⟨Facts.enters_own hnext (.refl _), Facts.enters_own hdone (.refl _)⟩
      exact ⟨_, ⟨hinit.1, hready.mono (by simp), rfl⟩, _, ⟨_, typeFlow_label hstart, rfl⟩,
        _, ⟨htest.1, hready.mono (by omega), rfl, Facts.enters_own hdone (.refl _)⟩,
        _, ⟨hbody.1, hready.mono (by omega), rfl, henters⟩, _, ⟨_, typeFlow_label hnext, rfl⟩,
        _, ⟨hupdate.1, hready.mono (by omega), rfl⟩,
        _, ⟨⟨cs, τ, none⟩, ⟨typeFlow_jump .always (Facts.enters_own hstart (.refl _)) (Facts.drops_nothing _)
          (absurd rfl), by simp⟩, _, typeFlow_label hdone, rfl⟩, rfl⟩

/-- A loop over a list has the list and the index in slots of its own, which are free again behind it. -/
theorem upholds_foreach {t : Token} {v : Ident} {l : Expr} {y : Stmt} (hi : Installed o ctx.table files) (hs : ctx.Sound)
    (hr : Rule ctx (.stmt loop (.foreach t v l y)) s items s') (hslots : Parts (fun _ t _ t' _ => t.slots ≤ t'.slots) items)
    (hq : (Piece.stmt loop (.foreach t v l y)).Typable ctx) : Upholds ctx o files k (.stmt loop (.foreach t v l y)) s items := by
  have hparts := hr.typable hq hslots
  rintro T ⟨cs, τ, note⟩ b ⟨-, hready, rfl, hloop⟩
  obtain rfl : note = none := hready.note
  cases hr
  case «foreach» es sym lc s₁ ls yc ys hsym ht =>
    simp only [Parts.part_iff, Parts.ops_iff, Parts.nil_iff, Supply.take_slots] at hparts
    obtain ⟨hl, hbody, -⟩ := hparts
    have hclean := hq.admitted.clean
    simp only [Piece.Clean, Context.stmtIssues, List.append_eq_nil_iff] at hclean
    have ha : ctx.Admits false l := ⟨hl.1.admitted.filled, hl.1.admitted.written, by
      have hhead := hclean.1
      simp only [Context.foreachIssues, List.append_eq_nil_iff] at hhead
      exact hhead.1.2⟩
    have helems := ha.foreach_elements hs hl.1.plain ht hsym hclean.1
    obtain ⟨hpos, hlt⟩ := MethodDecl.symbol?_slot_lt hsym
    have hcount : ctx.method.slotCount ≤ s.slots := hready.count
    have hfree : ∀ n, s.slots ≤ n → τ n = .any := hready.free
    have hmem : ∀ n, n < ctx.method.slotCount ∨ s.slots ≤ n → Cell.slot n ∉ cs := fun n hn => hready.not_mem hn
    have hinside : ctx.Ready s₁ (loopFacts s es cs τ) := hready.take (Nat.le_refl _) (by omega)
    -- Behind the loop nothing is known of its two slots, as before it.
    have hleave : Facts.Entails ctx.table (loopFacts s es cs τ) ⟨cs, τ, none⟩ :=
      hready.forget fun n hn => Function.update_of_ne (by omega) _ _
    let states : List Facts := [loopFacts s es cs τ, loopFacts s es cs τ, ⟨cs, τ, none⟩]
    refine ⟨Flow.ownStates s states, fun l x => Flow.owned_of_ownStates ?_, ?_⟩
    · simp [states, Flow.Owned, or_and_right, exists_or]
      omega
    · have hstart := Flow.ownStates_label s states 0
      have hnext := Flow.ownStates_label s states 1
      have hdone := Flow.ownStates_label s states 2
      have henters : Facts.LoopEnters ctx.table (fun l x => T l x ∨ Flow.ownStates s states l = some x)
          (some ⟨s.label 1, s.label 2⟩) (loopFacts s es cs τ) := by
        rintro lp ⟨⟩
        exact ⟨Facts.enters_own hnext (.refl _), Facts.enters_own hdone hleave⟩
      have hindex : Function.update τ s.slots (Fact.val (.list es)) (s.slots + 1) = .any := by
        rw [Function.update_of_ne (by omega), hfree _ (by omega)]
      refine ⟨_, typeClaim_expr hl.1 (hready.mono (by simp)), ?_⟩
      rw [Context.held_of_type ht rfl]
      exact ⟨_, hi.path_foreachHead hready.pos ⟨hmem _ (.inr (Nat.le_refl _)), hmem _ (.inr (by omega)), hmem _ (.inl hlt)⟩
          (hfree _ (by omega)) ⟨hpos, by omega, hready.vars _ sym hsym⟩ (hs.symbol hsym) helems hstart
          (Facts.enters_own hdone hleave),
        _, ⟨hbody.1, hinside, rfl, henters⟩,
        _, ⟨_, typeFlow_label hnext, _, typeFlow_step rfl (leads_increment (by omega) (hmem _ (.inr (by omega))) hindex),
          ⟨cs, τ, none⟩, ⟨typeFlow_jump .always (Facts.enters_own hstart (.refl _)) (Facts.drops_nothing _)
            (absurd rfl), by simp⟩, _, typeFlow_label hdone, rfl⟩, rfl⟩

theorem upholds_stmt {x : Stmt} (hi : Installed o ctx.table files) (hs : ctx.Sound) (hk : k.Serves ctx)
    (hr : Rule ctx (.stmt loop x) s items s') (hslots : Parts (fun _ t _ t' _ => t.slots ≤ t'.slots) items)
    (hq : (Piece.stmt loop x).Typable ctx) : Upholds ctx o files k (.stmt loop x) s items := by
  have hparts := hr.typable hq hslots
  rintro T ⟨cs, τ, note⟩ b ⟨-, hready, rfl, hloop⟩
  obtain rfl : note = none := hready.note
  have hself : (τ 0).Implies ctx.table k.left := (show τ 0 = _ from hready.self) ▸ hk.left
  have hwhole := hr
  cases hr
  case cond => exact upholds_cond hwhole hslots hq ⟨hq, hready, rfl, hloop⟩
  case «for» => exact upholds_for hwhole hslots hq ⟨hq, hready, rfl, hloop⟩
  case «foreach» => exact upholds_foreach hi hs hwhole hslots hq ⟨hq, hready, rfl, hloop⟩
  case assign | callStmt =>
    simp only [Parts.part_iff, Parts.ops_iff, Parts.nil_iff] at hparts
    exact ⟨fun _ => none, by simp, _, typeClaim_expr hparts.1.1 hready, chain_row (.single rfl leads_pop) (by simp) rfl⟩
  case block =>
    simp only [Parts.part_iff, Parts.nil_iff] at hparts
    exact ⟨fun _ => none, by simp, _, ⟨hparts.1.1, hready, rfl, hloop.mono (fun l x h => .inl h) (.refl _)⟩, rfl⟩
  case print x p c xs hp =>
    simp only [Parts.part_iff, Parts.ops_iff, Parts.nil_iff] at hparts
    exact ⟨fun _ => none, by simp, chain_row (.single rfl leads_getStatic) (by simp)
      ⟨_, typeClaim_expr hparts.1.1 hready.known, chain_row (.single rfl (leads_print hp (ctx.isPrimitive_or_held _))) (by simp) rfl⟩⟩
  case ret => exact ⟨fun _ => none, by simp, _, typeFlow_ret hself, rfl⟩
  case retValue e c xs =>
    simp only [Parts.part_iff, Parts.ops_iff, Parts.nil_iff] at hparts
    have hclean : ctx.returnIssues _ (some e) = [] := hq.admitted.clean
    have ha : ctx.Admits false e := ⟨hparts.1.1.admitted.filled, hparts.1.1.admitted.written, by
      simp only [Context.returnIssues, List.append_eq_nil_iff] at hclean
      exact hclean.1⟩
    exact ⟨fun _ => none, by simp, _, typeClaim_expr hparts.1.1 hready, _, path_returnOf hself
      (ctx.isPrimitive_or_held e) (hk.result ▸ ha.return_below hs hparts.1.1.plain hclean), rfl⟩
  case «break» lp t =>
    exact ⟨fun _ => none, by simp, _, ⟨_, ⟨typeFlow_jump .always ((hloop lp rfl).2.mono (fun l x h => .inl h) (.refl _))
      (Facts.drops_nothing _) (absurd rfl), by simp⟩, rfl⟩, rfl⟩
  case «continue» lp t =>
    exact ⟨fun _ => none, by simp, _, ⟨_, ⟨typeFlow_jump .always ((hloop lp rfl).1.mono (fun l x h => .inl h) (.refl _))
      (Facts.drops_nothing _) (absurd rfl), by simp⟩, rfl⟩, rfl⟩

end Rule

/-- What is known fits all code that is generated for an admitted body. -/
theorem Context.typeFlow_sound (hi : Installed o ctx.table files) (hs : ctx.Sound) (hk : k.Serves ctx) :
    (ctx.typeFlow o files k).Sound ctx (typeClaim ctx) := by
  intro q s items s' hr hslots T a b hclaim
  have hq : q.Typable ctx := hclaim.1
  have hupholds : Upholds ctx o files k q s items := by
    cases q with
    | expr e => exact hr.upholds_expr hi hs hslots hq
    | elements line es => exact hr.upholds_elements hslots hq
    | args es => exact hr.upholds_args hslots hq
    | update u => exact hr.upholds_update hslots hq
    | test line done e => exact hr.upholds_test hslots hq
    | stmt loop x => exact hr.upholds_stmt hi hs hk hslots hq
    | stmts loop ss => exact hr.upholds_stmts hslots hq
    | orElse loop x => exact hr.upholds_orElse hslots hq
  exact hupholds hclaim

end

end ClassCompiler
