import VmToHack.Lowering.Job
import VmToHack.Files.Disk
set_option autoImplicit false

/-!
# Runs: computations over a disk

A computation that only looks at a disk leaves it as it is (`Looks`), and what it gives is a
function of the disk (`outcome`).  Translating the sources is such a computation.  So it does
not matter in which order the workers of a pool take their steps: a source that has been taken
some steps gives what it would have given at once (`Task.Sound`), no step changes that
(`run_advanceNth`), and so the pool gives what one pass over the sources gives
(`run_translateAll`).
-/

namespace VmToHack

/-! ## Results and what is left -/

section

variable {σ ε ε' α β : Type} {x : ExceptT ε (StateM σ) α} {k : α → ExceptT ε (StateM σ) β}
variable {s s' : σ}

theorem run_bind (x : ExceptT ε (StateM σ) α) (k : α → ExceptT ε (StateM σ) β) (s : σ) :
    (x >>= k).run.run s =
      match x.run.run s with
      | (.ok a, s') => (k a).run.run s'
      | (.error e, s') => (.error e, s') := by
  simp only [ExceptT.run_bind, StateT.run_bind]
  rcases x.run.run s with ⟨r, _⟩
  cases r <;> rfl

theorem run_bind_of_ok {a : α} (h : x.run.run s = (.ok a, s')) :
    (x >>= k).run.run s = (k a).run.run s' := by
  rw [run_bind, h]

theorem run_bind_of_error {e : ε} (h : x.run.run s = (.error e, s')) :
    (x >>= k).run.run s = (.error e, s') := by
  rw [run_bind, h]

theorem run_bind_state (y : StateM σ α) (k : α → StateM σ β) (s : σ) :
    (y >>= k).run s = (k (y.run s).1).run (y.run s).2 := rfl

theorem run_tryCatch (x : ExceptT ε (StateM σ) α) (handle : ε → ExceptT ε (StateM σ) α) (s : σ) :
    (tryCatch x handle).run.run s =
      match x.run.run s with
      | (.ok a, s') => (.ok a, s')
      | (.error e, s') => (handle e).run.run s' := by
  have h : (tryCatch x handle).run.run s =
      (match (x.run.run s).1 with
        | .ok a => (pure (.ok a) : StateM σ (Except ε α))
        | .error e => (handle e).run).run (x.run.run s).2 := rfl
  rw [h]
  rcases x.run.run s with ⟨r, _⟩
  cases r <;> rfl

/-- A failure that is answered with a failure stays one. -/
theorem run_tryCatch_eq_ok_iff {handle : ε → ExceptT ε (StateM σ) α} {a : α}
    (hfails : ∀ e s₁, (handle e).run.run s₁ ≠ (.ok a, s')) :
    (tryCatch x handle).run.run s = (.ok a, s') ↔ x.run.run s = (.ok a, s') := by
  rw [run_tryCatch]
  rcases x.run.run s with ⟨r, s₁⟩
  cases r with
  | ok b => exact Iff.rfl
  | error e => exact iff_of_false (hfails e s₁) (by rintro ⟨⟩)

end

section

variable {ε ε' α β : Type}

/-- The computation leaves the disk as it is. -/
def Looks (x : ExceptT ε (StateM Disk) α) : Prop := ∀ d, (x.run.run d).2 = d

/-- What a computation gives on a disk. -/
def outcome (x : ExceptT ε (StateM Disk) α) (d : Disk) : Except ε α := (x.run.run d).1

variable {x : ExceptT ε (StateM Disk) α} {k : α → ExceptT ε (StateM Disk) β}

theorem Looks.run_eq (h : Looks x) (d : Disk) : x.run.run d = (outcome x d, d) :=
  Prod.ext rfl (h d)

theorem looks_pure (a : α) : Looks (pure a : ExceptT ε (StateM Disk) α) := fun _ => rfl

theorem looks_throw (e : ε) : Looks (throw e : ExceptT ε (StateM Disk) α) := fun _ => rfl

theorem run_adapt (x : ExceptT ε (StateM Disk) α) (f : ε → ε') (d : Disk) :
    (x.adapt f).run.run d = ((x.run.run d).1.mapError f, (x.run.run d).2) := rfl

theorem looks_adapt (h : Looks x) (f : ε → ε') : Looks (x.adapt f) := h

theorem run_lift (y : StateM Disk α) (d : Disk) :
    (liftM y : ExceptT ε (StateM Disk) α).run.run d = (.ok (y.run d).1, (y.run d).2) := rfl

theorem looks_lift {y : StateM Disk α} (h : ∀ d, (y.run d).2 = d) :
    Looks (liftM y : ExceptT ε (StateM Disk) α) := h

theorem Looks.bind (hx : Looks x) (hk : ∀ a, Looks (k a)) : Looks (x >>= k) := by
  intro d
  cases h : outcome x d with
  | ok a =>
    rw [run_bind_of_ok ((hx.run_eq d).trans (by rw [h]))]
    exact hk a d
  | error e => rw [run_bind_of_error ((hx.run_eq d).trans (by rw [h]))]

theorem outcome_bind (hx : Looks x) (d : Disk) :
    outcome (x >>= k) d = outcome x d >>= fun a => outcome (k a) d := by
  unfold outcome
  cases h : outcome x d with
  | ok a => rw [run_bind_of_ok ((hx.run_eq d).trans (by rw [h])), hx.run_eq, h]; rfl
  | error e => rw [run_bind_of_error ((hx.run_eq d).trans (by rw [h])), hx.run_eq, h]; rfl

theorem outcome_bind_of_ok (hx : Looks x) {d : Disk} {a : α} (h : outcome x d = .ok a) :
    outcome (x >>= k) d = outcome (k a) d := by
  rw [outcome_bind hx, h]
  rfl

theorem outcome_adapt (x : ExceptT ε (StateM Disk) α) (f : ε → ε') (d : Disk) :
    outcome (x.adapt f) d = (outcome x d).mapError f := rfl

theorem outcome_adapt_of_ok {d : Disk} {a : α} (h : outcome x d = .ok a) (f : ε → ε') :
    outcome (x.adapt f) d = .ok a := by
  rw [outcome_adapt, h]
  rfl

theorem eq_ok_of_adapt {f : ε → ε'} {d : Disk} {a : α} (h : outcome (x.adapt f) d = .ok a) :
    outcome x d = .ok a := by
  rw [outcome_adapt] at h
  cases hx : outcome x d with
  | error e => rw [hx] at h; cases h
  | ok b => rw [hx] at h; cases h; rfl

theorem exists_of_bind_eq_ok {r : Except ε α} {f : α → Except ε β} {b : β}
    (h : r >>= f = .ok b) : ∃ a, r = .ok a ∧ f a = .ok b := by
  cases r with
  | error e => cases h
  | ok a => exact ⟨a, rfl, h⟩

end

/-- The operations that do not write only look at the disk. -/
structure FileSystem.LooksOnly (fs : FileSystem (StateM Disk)) : Prop where
  status : ∀ path, Looks (fs.status path)
  list : ∀ path d, ((fs.list path).run d).2 = d
  read : ∀ path, Looks (fs.read path)
  resolve : ∀ path d, ((fs.resolve path).run d).2 = d

theorem run_get_bind {α ε : Type} (k : Disk → ExceptT ε (StateM Disk) α) (d : Disk) :
    (get >>= k).run.run d = (k d).run.run d :=
  run_bind_of_ok rfl

theorem run_change (operation : Disk → Except FileFault Disk) (d : Disk) :
    (Disk.change operation).run.run d =
      match operation d with
      | .ok d' => (.ok (), d')
      | .error f => (.error f, d) := by
  rw [Disk.change, run_get_bind]
  cases operation d <;> rfl

theorem run_write (d : Disk) (path : String) (contents : List UInt8) :
    (Disk.fileSystem.write path contents).run.run d =
      match d.write path contents with
      | .ok d' => (.ok (), d')
      | .error f => (.error f, d) :=
  run_change _ d

theorem run_rename (d : Disk) (source target : String) :
    (Disk.fileSystem.rename source target).run.run d =
      match d.rename source target with
      | .ok d' => (.ok (), d')
      | .error f => (.error f, d) :=
  run_change _ d

theorem looksOnly_fragile (x : Mishaps) (stray : Text.Utf8.StandIns := []) :
    (Disk.fragile x stray).LooksOnly where
  status path d := by
    rw [Disk.fragile, run_get_bind]
    cases x.status d path <;> rfl
  list _ _ := rfl
  read path d := by
    rw [Disk.fragile, run_get_bind]
    cases x.read d path <;> rfl
  resolve _ _ := rfl

theorem outcome_status (d : Disk) (path : String) :
    outcome (Disk.fileSystem.status path) d = d.status path := rfl

theorem outcome_read (d : Disk) (path : String) :
    outcome (Disk.fileSystem.read path) d = d.read path := rfl

theorem looksOnly_fileSystem : Disk.fileSystem.LooksOnly :=
  Disk.fragile_none ▸ looksOnly_fragile {}

/-! ## Looking for the sources and the output -/

section

variable {fs : FileSystem (StateM Disk)} (hfs : fs.LooksOnly)
include hfs

theorem looks_fileNames (directory : Path) (names : List String) :
    Looks (fileNames fs directory names) := by
  induction names with
  | nil => exact looks_pure _
  | cons name names ih =>
    exact (hfs.status _).bind fun _ => ih.bind fun _ => looks_pure _

theorem looks_collectSources (input : Path) : Looks (collectSources fs input) := by
  refine (hfs.status _).bind fun status => ?_
  split
  · exact (looks_lift (hfs.list _)).bind fun _ =>
      (looks_fileNames hfs _ _).bind fun _ => looks_pure _
  · exact looks_pure _

theorem looks_outputPath (input : Path) : Looks (outputPath fs input) := by
  refine (hfs.status _).bind fun status => ?_
  split
  · exact (looks_lift (hfs.resolve _)).bind fun _ => looks_pure _
  · exact looks_pure _

theorem looks_target (job : Job) : Looks (job.target fs) := by
  unfold Job.target
  split
  · exact looks_pure _
  · exact looks_outputPath hfs _

end

/-! ## Translating the sources -/

/-- What a source contributes when it is read from a disk. -/
def contribution (fs : FileSystem (StateM Disk)) (d : Disk) (source : Path) :
    Except JobFault Part :=
  Part.ofContents source.name (outcome (fs.read source.text) d)

/-- What is known already is taken over into a computation. -/
theorem run_liftExcept (r : Except JobFault Part) (d : Disk) :
    (liftM r : ExceptT JobFault (StateM Disk) Part).run.run d = (r, d) := by
  cases r <;> rfl

section

variable {fs : FileSystem (StateM Disk)} (hfs : fs.LooksOnly)

/-- The steps that a task has taken were the right ones: it gives what its source contributes. -/
def Task.Sound (fs : FileSystem (StateM Disk)) (d : Disk) (t : Task) : Prop :=
  (t.result fs).run d = (contribution fs d t.source, d)

include hfs

theorem run_liftRead (path : String) (d : Disk) :
    (liftM (fs.read path).run : ExceptT JobFault (StateM Disk) _).run.run d =
      (.ok (outcome (fs.read path) d), d) :=
  congrArg (Prod.mk _) (hfs.read path d)

theorem run_translateSources (d : Disk) (sources : List Path) :
    (translateSources fs sources).run.run d = (sources.mapM (contribution fs d), d) := by
  induction sources with
  | nil => rfl
  | cons source sources ih =>
    have hpart : (liftM (Part.ofContents source.name (outcome (fs.read source.text) d)) :
        ExceptT JobFault (StateM Disk) Part).run.run d = (contribution fs d source, d) :=
      run_liftExcept _ d
    rw [translateSources, run_bind_of_ok (run_liftRead hfs _ d), List.mapM_cons]
    cases h : contribution fs d source with
    | error f =>
      rw [h] at hpart
      exact run_bind_of_error hpart
    | ok part =>
      rw [h] at hpart
      refine (run_bind_of_ok hpart).trans ?_
      cases hparts : sources.mapM (contribution fs d) with
      | error f => exact run_bind_of_error (by rw [ih, hparts])
      | ok parts => exact run_bind_of_ok (by rw [ih, hparts])

/-! ## Workers -/

theorem Task.sound_waiting (d : Disk) (source : Path) : Task.Sound fs d { source } := by
  have hread : ((fs.read source.text).run).run d = (outcome (fs.read source.text) d, d) :=
    (hfs.read _).run_eq d
  rw [Task.Sound, Task.result, StateT.run_bind, hread]
  rfl

/-- A step leaves the disk as it is, and the task gives what it would have given. -/
theorem Task.run_advance {d : Disk} {t : Task} (h : t.Sound fs d) :
    ∃ t', (t.advance fs).run d = (t', d) ∧ t'.source = t.source ∧ t'.Sound fs d := by
  obtain ⟨source, stage⟩ := t
  cases stage with
  | waiting =>
    have hread : ((fs.read source.text).run).run d = (outcome (fs.read source.text) d, d) :=
      (hfs.read _).run_eq d
    refine ⟨⟨source, .fetched (outcome (fs.read source.text) d)⟩, ?_, rfl, rfl⟩
    rw [Task.advance, StateT.run_bind, hread]
    rfl
  | fetched contents => exact ⟨_, rfl, rfl, h⟩
  | finished result => exact ⟨_, rfl, rfl, h⟩

/-- The tasks for some sources, each of them sound. -/
structure SoundTasks (fs : FileSystem (StateM Disk)) (d : Disk) (sources : List Path)
    (ts : List Task) : Prop where
  sources : ts.map Task.source = sources
  sound : ∀ t ∈ ts, t.Sound fs d

theorem run_advanceNth {d : Disk} {sources : List Path} {ts : List Task}
    (h : SoundTasks fs d sources ts) (worker : Nat) :
    ∃ ts', (advanceNth fs worker ts).run d = (ts', d) ∧ SoundTasks fs d sources ts' := by
  induction ts generalizing worker sources with
  | nil => exact ⟨[], rfl, h⟩
  | cons t ts ih =>
    obtain ⟨rfl, hsound⟩ := h
    obtain ⟨ht, hts⟩ := List.forall_mem_cons.mp hsound
    have hrest (worker : Nat) := ih ⟨rfl, hts⟩ worker
    -- the task itself is passed over or it takes a step
    have hpass (worker : Nat) : ∃ ts',
        ((advanceNth fs worker ts >>= fun ts => pure (t :: ts) : StateM Disk (List Task))).run d =
          (ts', d) ∧ SoundTasks fs d ((t :: ts).map Task.source) ts' := by
      obtain ⟨ts', hrun, hsources, hsound'⟩ := hrest worker
      refine ⟨t :: ts', ?_, by rw [List.map_cons, hsources]; rfl,
        List.forall_mem_cons.mpr ⟨ht, hsound'⟩⟩
      rw [StateT.run_bind, hrun]
      rfl
    cases worker with
    | zero =>
      rw [advanceNth]
      split
      · exact hpass 0
      · obtain ⟨t', hrun, hsource, ht'⟩ := Task.run_advance hfs ht
        refine ⟨t' :: ts, ?_, by rw [List.map_cons, hsource]; rfl,
          List.forall_mem_cons.mpr ⟨ht', hts⟩⟩
        rw [StateT.run_bind, hrun]
        rfl
    | succ worker =>
      rw [advanceNth]
      split
      · exact hpass (worker + 1)
      · exact hpass worker

/-- Whatever turns the workers take, the tasks stay sound. -/
theorem run_takeTurns {d : Disk} {sources : List Path} {ts : List Task}
    (h : SoundTasks fs d sources ts) (workers : Int) (turns : List Nat) :
    ∃ ts', (takeTurns fs workers turns ts).run d = (ts', d) ∧ SoundTasks fs d sources ts' := by
  induction turns generalizing ts with
  | nil => exact ⟨ts, rfl, h⟩
  | cons worker turns ih =>
    rw [takeTurns]
    split
    · obtain ⟨ts', hrun, h'⟩ := run_advanceNth hfs h worker
      obtain ⟨ts'', hruns, h''⟩ := ih h'
      refine ⟨ts'', ?_, h''⟩
      rw [StateT.run_bind, hrun]
      exact hruns
    · exact ih h

omit hfs in
theorem run_collectResults {d : Disk} {sources : List Path} {ts : List Task}
    (h : SoundTasks fs d sources ts) :
    (collectResults fs ts).run.run d = (sources.mapM (contribution fs d), d) := by
  induction ts generalizing sources with
  | nil =>
    obtain ⟨rfl, -⟩ := h
    rfl
  | cons t ts ih =>
    obtain ⟨rfl, hsound⟩ := h
    obtain ⟨ht, hts⟩ := List.forall_mem_cons.mp hsound
    have hrest := ih ⟨rfl, hts⟩
    have hresult : (ExceptT.mk (t.result fs)).run.run d = (contribution fs d t.source, d) := ht
    rw [collectResults, List.map_cons, List.mapM_cons]
    cases hpart : contribution fs d t.source with
    | error f => exact run_bind_of_error (by rw [hresult, hpart])
    | ok part =>
      refine (run_bind_of_ok (by rw [hresult, hpart])).trans ?_
      cases hparts : (ts.map Task.source).mapM (contribution fs d) with
      | error f => exact run_bind_of_error (by rw [hrest, hparts])
      | ok parts => exact run_bind_of_ok (by rw [hrest, hparts])

/-- The parts do not depend on the number of workers nor on their turns. -/
theorem run_translateAll (d : Disk) (workers : Int) (turns : List Nat) (sources : List Path) :
    (translateAll fs workers turns sources).run.run d =
      (sources.mapM (contribution fs d), d) := by
  unfold translateAll
  split
  · have hwaiting : SoundTasks fs d sources (sources.map fun source => { source }) := by
      refine ⟨by simp [Function.comp_def], fun t ht => ?_⟩
      obtain ⟨source, -, rfl⟩ := List.mem_map.mp ht
      exact Task.sound_waiting hfs d source
    obtain ⟨ts, hturns, hts⟩ := run_takeTurns hfs hwaiting workers turns
    have hlift : (liftM (takeTurns fs workers turns (sources.map fun source => { source })) :
        ExceptT JobFault (StateM Disk) (List Task)).run.run d = (.ok ts, d) := by
      rw [run_lift, hturns]
    rw [translatePooled]
    exact (run_bind_of_ok hlift).trans (run_collectResults hts)
  · exact run_translateSources hfs d sources

end

end VmToHack
