import ClassCompiler.Files.Store
import ClassCompiler.Proofs.Build.Keys
import ClassCompiler.Proofs.Build.Renders
import ClassCompiler.Proofs.Tree.Written

namespace ClassCompiler

section

variable {σ : Type}

def beside {α : Type} (g : StateM σ α) : StateM (σ × Cache) α := fun s => ((g s.1).1, ((g s.1).2, s.2))

theorem bind_beside {α β : Type} {g : StateM σ α} {k : α → StateM σ β} {k' : α → StateM (σ × Cache) β}
    (hk : ∀ a, k' a = beside (k a)) : (beside g >>= k') = beside (g >>= k) := by
  rw [show k' = fun a => beside (k a) from funext hk]
  rfl

namespace Host

def withCache (h : Host (StateM σ)) : Host (StateM (σ × Cache)) where
  read path := beside (h.read path)
  isPresent path := beside (h.isPresent path)
  absolute path := beside (h.absolute path)
  makeDirs path := beside (h.makeDirs path)
  write path text := beside (h.write path text)
  openCache _ := fun s => (.ok s.2, s)
  saveCache _ c := fun s => (.ok (), (s.1, c))
  print s := beside (h.print s)
  report line := beside (h.report line)
  likesColor := beside h.likesColor
  run files entry := beside (h.run files entry)

variable (h : Host (StateM σ))

theorem withCache_writeEach (dir : String) (files : List (String × String)) :
    h.withCache.writeEach dir files = beside (h.writeEach dir files) := by
  induction files with
  | nil => rfl
  | cons f files ih =>
    refine bind_beside fun r => ?_
    cases r with
    | error e => rfl
    | ok u => exact ih

theorem withCache_writeFiles (dir : String) (files : List (String × String)) :
    h.withCache.writeFiles dir files = beside (h.writeFiles dir files) := by
  refine bind_beside fun r => ?_
  cases r with
  | error e => rfl
  | ok u => exact h.withCache_writeEach dir files

theorem withCache_reports (ds : List Diagnostic) (color : Bool) :
    (ds.forM fun d => h.withCache.report (d.rendered color)) = beside (ds.forM fun d => h.report (d.rendered color)) := by
  induction ds with
  | nil => rfl
  | cons d ds ih => exact bind_beside fun _ => ih

theorem withCache_conclude (p : Project) (b : Build) : h.withCache.conclude p b = beside (h.conclude p b) := by
  have hreports (color : Bool) : (do
      b.errors.forM fun d => h.withCache.report (d.rendered color)
      return .error (.diagnostics b.file b.errors.length) : StateM (σ × Cache) (Except CommandError Build)) =
      beside (do
        b.errors.forM fun d => h.report (d.rendered color)
        return .error (.diagnostics b.file b.errors.length)) := by
    rw [withCache_reports]
    exact bind_beside fun _ => rfl
  unfold conclude
  split
  · cases b.error <;> rfl
  · cases p.color with
    | none => exact bind_beside hreports
    | some c => exact hreports c

/-- What a compilation does with a source that was read. -/
def compileSource (p : Project) (tree source : String) (keep : List (String × String) → ExceptT FileError (StateM σ) Unit) :
    StateM σ (Except CommandError Unit) :=
  let b := Build.made p tree source
  if b.delivers then do
    match ← h.writeFiles p.output (renderFiles b.files) with
    | .ok _ =>
      match ← (keep (renderFiles b.files)).run with
      | .ok _ => return .ok ()
      | .error e => return .error (.build tree (.file ((e.within "cache units").within "writer")))
    | .error e => return .error (.build tree (.file (e.within "writer")))
  else do
    let r ← h.conclude p b
    return r.map fun _ => ()

theorem conclude_of_errors_nil {p : Project} {b : Build} (hb : b.errors = []) : h.conclude p b =
    pure (match b.error with
      | none => .ok b
      | some e => .error (.build b.file e)) := by
  unfold conclude
  simp only [hb, List.isEmpty_nil, if_true]
  cases b.error <;> rfl

/-- A source that could not be read, or what a compilation does with it. -/
def compileRead (p : Project) (tree : String) (keep : List (String × String) → ExceptT FileError (StateM σ) Unit) :
    Except FileError String → StateM σ (Except CommandError Unit)
  | .error e => return .error (.file (e.within ("read " ++ tree)))
  | .ok text => h.compileSource p tree text keep

theorem compileAnew_eq (p : Project) (tree : String) (keep : List (String × String) → ExceptT FileError (StateM σ) Unit) :
    h.compileAnew p tree keep = h.read tree >>= h.compileRead p tree keep := by
  unfold compileAnew buildTree
  rw [bind_assoc]
  refine congrArg _ (funext fun r => ?_)
  cases r with
  | error e => rfl
  | ok text =>
    have hfile := Build.made_file p tree text
    have hstages : h.stages [.decode, .check, .generate, .write p.output keep]
        (Build.start tree (Octets.toUnicode text) (some p)) = h.stage (.write p.output keep) (Build.made p tree text) := by
      simp only [stages, stage, pure_bind, bind_pure]
      rfl
    have hdir : (Build.made p tree text).outputDir p.output = p.output := by
      simp only [Build.outputDir, Build.made_project]
      split <;> rfl
    simp only [compileRead, compileSource, hstages, stage, hdir, writeBuild]
    generalize Build.made p tree text = b at hfile ⊢
    cases hdel : b.delivers with
    | false => simp [hdel]
    | true =>
      obtain ⟨herror, herrors⟩ := Build.delivers_clean hdel
      simp only [if_true, bind_assoc]
      refine congrArg _ (funext fun r => ?_)
      cases r with
      | error e =>
        simp [Build.delivers, Build.failed, conclude_of_errors_nil, herrors, hfile]
        rfl
      | ok u =>
        simp only [hdel, pure_bind, if_true, bind_assoc]
        refine congrArg _ (funext fun r => ?_)
        cases r <;> simp [conclude_of_errors_nil, herrors, herror, hfile] <;> rfl

/-- The name of the cache makes no difference to what is compiled. -/
theorem compileSource_project {p q : Project} (hq : q.options = p.options) (ho : q.output = p.output)
    (hc : q.color = p.color) (tree source : String) (keep : List (String × String) → ExceptT FileError (StateM σ) Unit) :
    h.compileSource q tree source keep = h.compileSource p tree source keep := by
  unfold compileSource
  rw [Build.made_congr hq, ho]
  generalize Build.made p tree source = b
  have hconclude : (do let r ← h.conclude q (b.withProject q); return r.map fun _ => ()) =
      (do let r ← h.conclude p b; return r.map fun _ => () : StateM σ (Except CommandError Unit)) := by
    unfold conclude Build.withProject
    rw [hc]
    cases b.errors.isEmpty with
    | true => cases b.error <;> rfl
    | false => cases p.color <;> simp
  exact if_congr Iff.rfl rfl hconclude

/-- With a cache beside it a host compiles the same, and may change the cache after it delivered. -/
theorem withCache_compileSource (p : Project) (tree source : String) (change : List (String × String) → Cache → Cache)
    (w : σ) (c : Cache) :
    ∃ c', (c' = c ∨ (Build.made p tree source).delivers = true ∧
        c' = change (renderFiles (Build.made p tree source).files) c) ∧
      h.withCache.compileSource p tree source (fun files s => (.ok (), (s.1, change files s.2))) (w, c) =
        ((h.compileSource p tree source (fun _ => pure ()) w).1, ((h.compileSource p tree source (fun _ => pure ()) w).2, c')) := by
  unfold compileSource
  generalize Build.made p tree source = b
  cases hdel : b.delivers with
  | false =>
    refine ⟨c, .inl rfl, ?_⟩
    rw [withCache_conclude]
    rfl
  | true =>
    simp only [if_true, withCache_writeFiles, bind, StateT.bind, beside]
    rcases h.writeFiles p.output (renderFiles b.files) w with ⟨r, w'⟩
    cases r with
    | error e => exact ⟨c, .inl rfl, rfl⟩
    | ok u => exact ⟨_, .inr ⟨trivial, rfl⟩, rfl⟩

end Host

/-- Every entry was rendered from one of the sources that were asked for, under its settings. -/
def Cache.Holds (asked : List (Project × String)) (c : Cache) : Prop :=
  ∀ e ∈ c.entries, ∃ r ∈ asked, ∃ tree, e.1 = r.1.digest (Octets.toBytes r.2) ∧ Renders r.1 tree r.2 e.2.files

theorem Cache.Holds.put {asked : List (Project × String)} {c : Cache} (h : c.Holds asked) {p : Project}
    {tree source : String} (hr : (p, source) ∈ asked) {files : List (String × String)} (hf : Renders p tree source files) :
    (c.put (p.digest (Octets.toBytes source)) files).Holds asked := by
  intro e he
  have hothers : e ∈ c.entries.filter (·.1 ≠ p.digest (Octets.toBytes source)) →
      ∃ r ∈ asked, ∃ tree, e.1 = r.1.digest (Octets.toBytes r.2) ∧ Renders r.1 tree r.2 e.2.files :=
    fun hm => h e (List.mem_filter.1 hm).1
  unfold Cache.put at he
  dsimp only at he
  split at he
  · exact hothers he
  · rcases List.mem_append.1 he with he | he
    · exact hothers he
    · obtain rfl := List.mem_singleton.1 he
      exact ⟨_, hr, tree, rfl, hf⟩

theorem Cache.Holds.get? {asked : List (Project × String)} {c : Cache} (h : c.Holds asked) {digest : String}
    {files : List (String × String)} (hg : c.get? digest = some files) :
    ∃ r ∈ asked, ∃ tree, digest = r.1.digest (Octets.toBytes r.2) ∧ Renders r.1 tree r.2 files := by
  obtain ⟨b, hb, rfl⟩ := Option.map_eq_some_iff.1 hg
  obtain ⟨before, after, he, -⟩ := List.lookup_eq_some_iff.1 hb
  exact h (digest, b) (by rw [he]; simp)

/-- Sources of octets other than zero, under settings in octets, no two of which have one digest unless they
give the same octets to hash. -/
structure Distinct (asked : List (Project × String)) : Prop where
  sources : ∀ r ∈ asked, Octets.IsSource r.2
  entries : ∀ r ∈ asked, Octets.IsText r.1.entry
  digests : ∀ r ∈ asked, ∀ s ∈ asked, Sha256.hexDigest (r.1.keyOctets r.2) = Sha256.hexDigest (s.1.keyOctets s.2) →
    r.1.keyOctets r.2 = s.1.keyOctets s.2

/-- What is found under the digest of a source is what the source renders to. -/
theorem Cache.Holds.renders {asked : List (Project × String)} {c : Cache} (h : c.Holds asked) (hd : Distinct asked)
    {p : Project} {source : String} (hr : (p, source) ∈ asked) {files : List (String × String)}
    (hg : c.get? (p.digest (Octets.toBytes source)) = some files) (tree : String) : Renders p tree source files := by
  obtain ⟨⟨q, source'⟩, hs, tree', hdigest, hf⟩ := h.get? hg
  have hkey := hd.digests _ hr _ hs hdigest
  obtain ⟨rfl, he, hst, hl⟩ := Project.keyOctets_inj (hd.sources _ hr) (hd.sources _ hs) (hd.entries _ hr) (hd.entries _ hs) hkey
  exact hf.congr tree he hst hl

def Project.uncached (p : Project) : Project := { p with cache := "" }

/-- Ends that differ in the notes on a file that could not be written at most. -/
inductive SameEnd : Except CommandError Unit → Except CommandError Unit → Prop
  | same (r : Except CommandError Unit) : SameEnd r r
  | unwritten (tree : String) (e : FileError) :
    SameEnd (.error (.build tree (.file (e.within "writer")))) (.error (.file e))

theorem Host.compileTree_uncached (h : Host (StateM σ)) (p : Project) (tree : String) :
    h.compileTree p.uncached tree = h.read tree >>= h.compileRead p tree fun _ => pure () := by
  have hread : h.compileRead p.uncached tree (fun _ => pure ()) = h.compileRead p tree fun _ => pure () := by
    funext r
    cases r with
    | error e => rfl
    | ok text =>
      simp only [compileRead]
      exact h.compileSource_project (p := p) (q := p.uncached) rfl rfl rfl tree text _
  rw [← hread, ← compileAnew_eq, compileTree]
  exact if_pos rfl

/-- Files that a source renders to are written as a compilation of the source writes them. -/
theorem Host.writeFiles_of_renders (h : Host (StateM σ)) {p : Project} {tree source : String}
    {files : List (String × String)} (hf : Renders p tree source files) (w : σ) :
    (h.compileSource p tree source (fun _ => pure ()) w).2 = (h.writeFiles p.output files w).2 ∧
      SameEnd (h.compileSource p tree source (fun _ => pure ()) w).1
        (match (h.writeFiles p.output files w).1 with
          | .ok _ => .ok ()
          | .error e => .error (.file e)) := by
  obtain ⟨hdel, hfiles⟩ := Build.delivers_of_renders hf
  unfold compileSource
  rw [hfiles]
  generalize Build.made p tree source = b at hdel
  simp only [hdel, if_true, bind, StateT.bind]
  rcases h.writeFiles p.output files w with ⟨r, w'⟩
  cases r with
  | ok u => exact ⟨rfl, .same _⟩
  | error e => exact ⟨rfl, .unwritten tree e⟩

/-- A compilation with a cache reads the source, and then writes what it finds or compiles anew. -/
theorem Host.compileTree_lookup {h : Host (StateM σ)} (hread : ∀ path w, (h.read path w).2 = w) {p : Project}
    (hp : p.cache.isEmpty = false) (tree : String) (w : σ) (c : Cache) :
    h.withCache.compileTree p tree (w, c) = match (h.read tree w).1 with
      | .error e => (.error (.file (e.within ("read " ++ tree))), (w, c))
      | .ok text =>
        match c.get? (p.digest (Octets.toBytes text)) with
        | some files => ((match (h.writeFiles p.output files w).1 with
            | .ok _ => .ok ()
            | .error e => .error (.file e)), ((h.writeFiles p.output files w).2, c))
        | none => h.withCache.compileAnew p tree (fun files s =>
            (.ok (), (s.1, c.put (p.digest (Octets.toBytes text)) files))) (w, c) := by
  have hopen {α : Type} (k : Except FileError Cache → StateM (σ × Cache) α) :
      (h.withCache.openCache p.cache >>= k) (w, c) = k (.ok c) (w, c) := rfl
  have hbind {α : Type} (k : Except FileError String → StateM (σ × Cache) α) :
      (h.withCache.read tree >>= k) (w, c) = k (h.read tree w).1 (w, c) :=
    congrArg (fun w' => k (h.read tree w).1 (w', c)) (hread tree w)
  unfold compileTree
  rw [if_neg (by simp [hp]), hopen]
  dsimp only
  rw [hbind]
  cases (h.read tree w).1 with
  | error e => rfl
  | ok text =>
    dsimp only
    cases c.get? (p.digest (Octets.toBytes text)) with
    | none => rfl
    | some files =>
      simp only [withCache_writeFiles, bind, StateT.bind, beside]
      cases (h.writeFiles p.output files w).1 <;> rfl

/-- A compilation with a cache does to the world what it does without, and the cache stays right. -/
theorem Host.compileTree_withCache {h : Host (StateM σ)} (hread : ∀ path w, (h.read path w).2 = w)
    {asked : List (Project × String)} (hd : Distinct asked) {c : Cache} (hc : c.Holds asked) (p : Project)
    (tree : String) (w : σ) (hr : p.cache.isEmpty = false → ∀ text, (h.read tree w).1 = .ok text → (p, text) ∈ asked) :
    ∃ r c', h.withCache.compileTree p tree (w, c) = (r, ((h.compileTree p.uncached tree w).2, c')) ∧
      SameEnd (h.compileTree p.uncached tree w).1 r ∧ c'.Holds asked := by
  have hplain : h.compileTree p.uncached tree w = h.compileRead p tree (fun _ => pure ()) (h.read tree w).1 w := by
    rw [compileTree_uncached]
    exact congrArg (h.compileRead p tree (fun _ => pure ()) (h.read tree w).1) (hread tree w)
  -- a compilation anew, which may change the cache
  have hanew (change : List (String × String) → Cache → Cache)
      (hchange : ∀ text, (h.read tree w).1 = .ok text → ∀ files, Renders p tree text files → (change files c).Holds asked) :
      ∃ r c', h.withCache.compileAnew p tree (fun files s => (.ok (), (s.1, change files s.2))) (w, c) =
        (r, ((h.compileTree p.uncached tree w).2, c')) ∧ SameEnd (h.compileTree p.uncached tree w).1 r ∧ c'.Holds asked := by
    have hrun : h.withCache.compileAnew p tree (fun files s => (.ok (), (s.1, change files s.2))) (w, c) =
        h.withCache.compileRead p tree (fun files s => (.ok (), (s.1, change files s.2))) (h.read tree w).1 (w, c) := by
      rw [compileAnew_eq]
      exact congrArg (fun w' => h.withCache.compileRead p tree (fun files s => (.ok (), (s.1, change files s.2)))
        (h.read tree w).1 (w', c)) (hread tree w)
    rw [hrun, hplain]
    cases hs : (h.read tree w).1 with
    | error e => exact ⟨_, c, rfl, .same _, hc⟩
    | ok text =>
      obtain ⟨c', hc', hs'⟩ := h.withCache_compileSource p tree text change w c
      refine ⟨_, c', hs', .same _, ?_⟩
      rcases hc' with rfl | ⟨hdel, rfl⟩
      · exact hc
      · exact hchange text hs _ (Build.renders_of_delivers hdel)
  cases hp : p.cache.isEmpty with
  | true =>
    have hnone : h.withCache.compileTree p tree = h.withCache.compileAnew p tree fun files s => (.ok (), (s.1, s.2)) := by
      unfold compileTree
      rw [if_pos hp]
      rfl
    rw [hnone]
    exact hanew (fun _ c => c) fun _ _ _ _ => hc
  | false =>
    rw [compileTree_lookup hread hp]
    cases hs : (h.read tree w).1 with
    | error e =>
      rw [hplain, hs]
      exact ⟨_, c, rfl, .same _, hc⟩
    | ok text =>
      simp only
      cases hg : c.get? (p.digest (Octets.toBytes text)) with
      | none =>
        refine hanew (fun files _ => c.put (p.digest (Octets.toBytes text)) files) fun text' ht files hf => ?_
        obtain rfl := Except.ok.inj (hs.symm.trans ht)
        exact hc.put (hr hp text hs) hf
      | some files =>
        obtain ⟨hw, hend⟩ := h.writeFiles_of_renders (hc.renders hd (hr hp text hs) hg tree) w
        rw [hplain, hs]
        exact ⟨_, c, congrArg (fun w' => (_, (w', c))) hw.symm, hend, hc⟩

/-- A compilation of a tree, before which something may happen to the world. -/
structure Job (σ : Type) where
  edit : σ → σ
  project : Project
  tree : String

def Job.uncached (j : Job σ) : Job σ := { j with project := j.project.uncached }

def Job.beside (j : Job σ) : Job (σ × Cache) := { j with edit := fun s => (j.edit s.1, s.2) }

/-- How each of several compilations ends, and what it leaves. -/
def Host.compileJobs (h : Host (StateM σ)) : List (Job σ) → σ → List (Except CommandError Unit × σ)
  | [], _ => []
  | j :: js, w =>
    let r := h.compileTree j.project j.tree (j.edit w)
    r :: h.compileJobs js r.2

/-- The sources that are looked up in the cache, each with its settings. -/
def Host.asked (h : Host (StateM σ)) : List (Job σ) → σ → List (Project × String)
  | [], _ => []
  | j :: js, w =>
    (match j.project.cache.isEmpty, (h.read j.tree (j.edit w)).1 with
      | false, .ok text => [(j.project, text)]
      | _, _ => []) ++ h.asked js (h.compileTree j.project.uncached j.tree (j.edit w)).2

theorem Host.compileJobs_withCache {h : Host (StateM σ)} (hread : ∀ path w, (h.read path w).2 = w)
    {asked : List (Project × String)} (hd : Distinct asked) {c : Cache} (hc : c.Holds asked) (jobs : List (Job σ)) (w : σ)
    (hr : ∀ r ∈ h.asked jobs w, r ∈ asked) :
    List.Forall₂ (fun plain cached => cached.2.1 = plain.2 ∧ SameEnd plain.1 cached.1 ∧ cached.2.2.Holds asked)
      (h.compileJobs (jobs.map Job.uncached) w) (h.withCache.compileJobs (jobs.map Job.beside) (w, c)) := by
  induction jobs generalizing w c with
  | nil => exact .nil
  | cons j js ih =>
    have hhead : j.project.cache.isEmpty = false → ∀ text, (h.read j.tree (j.edit w)).1 = .ok text →
        (j.project, text) ∈ asked := fun hp text ht => hr _ (by simp [Host.asked, hp, ht])
    obtain ⟨r, c', hrun, hend, hc'⟩ := compileTree_withCache hread hd hc j.project j.tree (j.edit w) hhead
    have htail := ih hc' (h.compileTree j.project.uncached j.tree (j.edit w)).2 fun r hm => hr r (by simp [Host.asked, hm])
    have hstep : h.withCache.compileJobs ((j :: js).map Job.beside) (w, c) =
        (r, ((h.compileTree j.project.uncached j.tree (j.edit w)).2, c')) ::
          h.withCache.compileJobs (js.map Job.beside) ((h.compileTree j.project.uncached j.tree (j.edit w)).2, c') := by
      rw [List.map_cons, compileJobs]
      simp only [Job.beside, hrun]
    rw [hstep]
    exact .cons ⟨rfl, hend, hc'⟩ htail

/-- Compilations that share a cache, empty at first, do to the world what they do without it: they write the same
files with the same texts, or fail. At any time the cache holds what accepted sources render to, each under its
digest; what is hashed tells the source, the entry class and the limits; and nothing else that a build is given
makes a difference to what is generated. -/
theorem cache_transparent {h : Host (StateM σ)} (hread : ∀ path w, (h.read path w).2 = w) (jobs : List (Job σ)) (w : σ)
    (hd : Distinct (h.asked jobs w)) :
    List.Forall₂ (fun plain cached => cached.2.1 = plain.2 ∧ SameEnd plain.1 cached.1 ∧
        cached.2.2.Holds (h.asked jobs w))
      (h.compileJobs (jobs.map Job.uncached) w) (h.withCache.compileJobs (jobs.map Job.beside) (w, {})) ∧
    (∀ (p q : Project) (s t : String), Octets.IsSource s → Octets.IsSource t → Octets.IsText p.entry →
      Octets.IsText q.entry → p.keyOctets s = q.keyOctets t →
        s = t ∧ p.entry = q.entry ∧ p.stack = q.stack ∧ p.locals = q.locals) ∧
    ∀ (p q : Project) (source tree tree' : String) (units : List ClassFile), q.entry = p.entry → q.stack = p.stack →
      q.locals = p.locals → (Generates p tree source units ↔ Generates q tree' source units) := by
  refine ⟨Host.compileJobs_withCache hread hd (fun e he => by cases he) jobs w fun _ hr => hr, ?_, ?_⟩
  · exact fun p q s t hs ht hp hq => Project.keyOctets_inj hs ht hp hq
  · exact fun p q source tree tree' units he hs hl =>
      ⟨fun hg => hg.congr tree' he hs hl, fun hg => hg.congr tree he.symm hs.symm hl.symm⟩

end

namespace Sample

def world : World := { store := { entries := [(["sample"], .text source)] } }

/-- A compilation of the file with a cache, wherever the world has come to. -/
def job : Job World := { edit := fun _ => world, project := { cache := "units.db" }, tree := "sample" }

theorem read_world : ((World.host 0).read "sample" world).1 = .ok source := by decide +kernel

end Sample

theorem cache_transparent_sample :
    (World.host 0).asked [Sample.job, Sample.job] Sample.world =
      [(Sample.job.project, Sample.source), (Sample.job.project, Sample.source)] ∧
    List.Forall₂ (fun plain cached => cached.2.1 = plain.2 ∧ SameEnd plain.1 cached.1 ∧
        cached.2.2.Holds [(Sample.job.project, Sample.source), (Sample.job.project, Sample.source)])
      ((World.host 0).compileJobs ([Sample.job, Sample.job].map Job.uncached) Sample.world)
      ((World.host 0).withCache.compileJobs ([Sample.job, Sample.job].map Job.beside) (Sample.world, {})) := by
  have hone (w : World) : ((World.host 0).read Sample.job.tree (Sample.job.edit w)).1 = .ok Sample.source := Sample.read_world
  have hcache : Sample.job.project.cache.isEmpty = false := by decide
  have hasked : (World.host 0).asked [Sample.job, Sample.job] Sample.world =
      [(Sample.job.project, Sample.source), (Sample.job.project, Sample.source)] := by
    simp only [Host.asked, hone, hcache]
    rfl
  have hd : Distinct ((World.host 0).asked [Sample.job, Sample.job] Sample.world) := by
    rw [hasked]
    have hpair {r : Project × String} (hr : r ∈ [(Sample.job.project, Sample.source), (Sample.job.project, Sample.source)]) :
        r = (Sample.job.project, Sample.source) := by simpa using hr
    refine ⟨fun r hr => ?_, fun r hr => ?_, fun r hr s hs _ => ?_⟩
    · rw [hpair hr]
      decide +kernel
    · rw [hpair hr]
      decide
    · rw [hpair hr, hpair hs]
  have h := (cache_transparent (h := World.host 0) (fun _ _ => rfl) [Sample.job, Sample.job] Sample.world hd).1
  exact ⟨hasked, by rwa [hasked] at h⟩

end ClassCompiler
