import VmToHack.Proofs.DirectoryOutput
set_option autoImplicit false

/-!
# Job outcomes: when a job saves, and when it fails

Mishaps can keep a look at the disk from succeeding, but not make it see something else
(`collectSources_of_fragile`).  An output is saved exactly if no mishap happens and the disk takes
it (`run_save_eq_ok_iff`).  In front of that, a job with sources and an output only fails for a
numeral, a name or a path that is none (`draft_fault`).  Neither the number of workers nor their
turns make a difference (`run_job_eq`).
-/

namespace VmToHack

open VmToHack.Text

/-! ## Looking at a disk on which mishaps happen -/

section

variable {x : Mishaps} {d : Disk}

/-- What two computations give that only look, if each step of the first one that succeeds is
one of the second one. -/
theorem outcome_bind_eq_ok_mono {ε α β : Type} {y y' : ExceptT ε (StateM Disk) α}
    {k k' : α → ExceptT ε (StateM Disk) β} (hy : Looks y) (hy' : Looks y')
    (hfirst : ∀ a, outcome y d = .ok a → outcome y' d = .ok a)
    (hrest : ∀ a b, outcome (k a) d = .ok b → outcome (k' a) d = .ok b) {b : β}
    (h : outcome (y >>= k) d = .ok b) : outcome (y' >>= k') d = .ok b := by
  rw [outcome_bind hy] at h
  obtain ⟨a, ha, hb⟩ := exists_of_bind_eq_ok h
  rw [outcome_bind hy', hfirst a ha]
  exact hrest a b hb

theorem status_of_fragile {path : String} {kind : Option EntryKind}
    (h : outcome ((Disk.fragile x).status path) d = .ok kind) : d.status path = .ok kind := by
  rw [Disk.fragile, outcome, run_get_bind] at h
  cases hmishap : x.status d path with
  | some cause => rw [hmishap] at h; cases h
  | none => rw [hmishap] at h; exact h

theorem fileNames_of_fragile {directory : Path} {names files : List String}
    (h : outcome (fileNames (Disk.fragile x) directory names) d = .ok files) :
    outcome (fileNames Disk.fileSystem directory names) d = .ok files := by
  have hfs := looksOnly_fragile x
  have hfs' := looksOnly_fileSystem
  induction names generalizing files with
  | nil => exact h
  | cons name names ih =>
    refine outcome_bind_eq_ok_mono (hfs.status _) (hfs'.status _) (fun _ => status_of_fragile)
      (fun kind _ => ?_) h
    exact outcome_bind_eq_ok_mono (looks_fileNames hfs _ _) (looks_fileNames hfs' _ _)
      (fun _ => ih) fun _ _ hfiles => hfiles

theorem collectSources_of_fragile {input : Path} {sources : List Path}
    (h : outcome (collectSources (Disk.fragile x) input) d = .ok sources) :
    outcome (collectSources Disk.fileSystem input) d = .ok sources := by
  have hfs := looksOnly_fragile x
  have hfs' := looksOnly_fileSystem
  refine outcome_bind_eq_ok_mono (hfs.status _) (hfs'.status _) (fun _ => status_of_fragile)
    (fun kind _ => ?_) h
  split
  · refine outcome_bind_eq_ok_mono (looks_lift (hfs.list _)) (looks_lift (hfs'.list _))
      (fun _ hnames => hnames) fun names _ => ?_
    exact outcome_bind_eq_ok_mono (looks_fileNames hfs _ _) (looks_fileNames hfs' _ _)
      (fun _ => fileNames_of_fragile) fun _ _ hsources => hsources
  · exact id

theorem outputPath_of_fragile {input output : Path}
    (h : outcome (outputPath (Disk.fragile x) input) d = .ok output) :
    outcome (outputPath Disk.fileSystem input) d = .ok output := by
  refine outcome_bind_eq_ok_mono ((looksOnly_fragile x).status _) (looksOnly_fileSystem.status _)
    (fun _ => status_of_fragile) (fun kind _ hrest => ?_) h
  split at hrest <;> exact hrest

theorem outcome_read_fragile (x : Mishaps) (d : Disk) (path : String) :
    outcome ((Disk.fragile x).read path) d =
      match x.read d path with
      | some cause => .error (.os ⟨cause, path, none⟩)
      | none => d.read path := by
  rw [Disk.fragile, outcome, run_get_bind]
  cases x.read d path <;> rfl

end

/-! ## Saving -/

/-- A file is written: no mishap happens, and the disk takes it. -/
structure Writes (x : Mishaps) (d : Disk) (path : String) (contents : List UInt8) (d' : Disk) :
    Prop where
  mishap : x.write d path contents = none
  written : d.write path contents = .ok d'

/-- A file is moved: no mishap happens, and the disk allows it. -/
structure Moves (x : Mishaps) (d : Disk) (source target : String) (d' : Disk) : Prop where
  mishap : x.rename d source target = none
  moved : d.rename source target = .ok d'

/-- An output is written under its pending name and then moved to its own. -/
def SavesOutput (x : Mishaps) (d : Disk) (output : Path) (text : String) (d' : Disk) : Prop :=
  ∃ d₁, Writes x d output.pending.text (Utf8.encode text) d₁ ∧
    Moves x d₁ output.pending.text output.text d'

section

variable {x : Mishaps} {d d' : Disk}

theorem run_write_eq_ok_iff {path : String} {contents : List UInt8} :
    ((Disk.fragile x).write path contents).run.run d = (.ok (), d') ↔
      Writes x d path contents d' := by
  rw [Disk.fragile, run_get_bind]
  cases hmishap : x.write d path contents with
  | none =>
    dsimp only
    rw [run_write]
    cases hwrite : d.write path contents with
    | error f => exact iff_of_false (by rintro ⟨⟩) fun h => by simpa [hwrite] using h.written
    | ok d₁ =>
      constructor
      · rintro ⟨⟩
        exact ⟨hmishap, hwrite⟩
      · rintro ⟨-, hwritten⟩
        rw [Except.ok.inj (hwrite.symm.trans hwritten)]
  | some mishap =>
    refine iff_of_false ?_ fun h => by simpa [hmishap] using h.mishap
    obtain ⟨written, cause⟩ := mishap
    cases written with
    | none => rintro ⟨⟩
    | some written =>
      dsimp only
      rw [run_bind, run_write]
      cases d.write path written <;> rintro ⟨⟩

theorem run_rename_eq_ok_iff {source target : String} :
    ((Disk.fragile x).rename source target).run.run d = (.ok (), d') ↔
      Moves x d source target d' := by
  rw [Disk.fragile, run_get_bind]
  cases hmishap : x.rename d source target with
  | none =>
    dsimp only
    rw [run_rename]
    cases hrename : d.rename source target with
    | error f => exact iff_of_false (by rintro ⟨⟩) fun h => by simpa [hrename] using h.moved
    | ok d₁ =>
      constructor
      · rintro ⟨⟩
        exact ⟨hmishap, hrename⟩
      · rintro ⟨-, hmoved⟩
        rw [Except.ok.inj (hrename.symm.trans hmoved)]
  | some cause => exact iff_of_false (by rintro ⟨⟩) fun h => by simpa [hmishap] using h.mishap

theorem run_save_eq_ok_iff {p : Path} {texts : List String} :
    (save (Disk.fragile x) p.pending p texts).run.run d = (.ok (), d') ↔
      SavesOutput x d p (String.join texts) d' := by
  rw [save, run_tryCatch_eq_ok_iff (fun f d₁ => by cases f <;> rintro ⟨⟩), run_bind,
    run_writeTexts_fragile]
  rcases hwrite : ((Disk.fragile x).write p.pending.text
    (Utf8.encode (String.join texts))).run.run d with ⟨r, d₁⟩
  cases r with
  | error f =>
    refine iff_of_false (by rintro ⟨⟩) ?_
    rintro ⟨d₂, hwrites, -⟩
    rw [run_write_eq_ok_iff.mpr hwrites] at hwrite
    cases hwrite
  | ok u =>
    dsimp only
    have hwrites := run_write_eq_ok_iff.mp hwrite
    rw [run_rename_eq_ok_iff]
    constructor
    · exact fun hmoves => ⟨d₁, hwrites, hmoves⟩
    · rintro ⟨d₂, hwrites', hmoves⟩
      rwa [Except.ok.inj (hwrites.written.symm.trans hwrites'.written)]

/-- What the saving of an output leaves is determined. -/
theorem SavesOutput.unique {d₁ d₂ : Disk} {p : Path} {text : String}
    (h : SavesOutput x d p text d₁) (h' : SavesOutput x d p text d₂) : d₁ = d₂ := by
  obtain ⟨e, hwrites, hmoves⟩ := h
  obtain ⟨e', hwrites', hmoves'⟩ := h'
  obtain rfl : e = e' := Except.ok.inj (hwrites.written.symm.trans hwrites'.written)
  exact Except.ok.inj (hmoves.moved.symm.trans hmoves'.moved)

end

/-! ## Drafting -/

/-- A source only fails to contribute for causes that end a run outright. -/
theorem contribution_fault {fs : FileSystem (StateM Disk)} {d : Disk} {source : Path}
    {f : JobFault} (h : contribution fs d source = .error f) :
    (∃ o, f = .overlong o) ∨ ∃ g, f = .file g ∧ ∀ e, g ≠ .os e := by
  unfold contribution Part.ofContents at h
  split at h
  · cases h
  · next g hos _ =>
    cases h
    exact .inr ⟨g, rfl, hos⟩
  · next bytes _ =>
    split at h
    · cases h
    · next text _ =>
      cases htext : Part.ofText source.name (normalizeBreaks text) with
      | ok part => rw [htext] at h; cases h
      | error o =>
        rw [htext] at h
        cases h
        exact .inl ⟨o, rfl⟩

theorem exists_of_mapM_eq_error {α β ε : Type} {f : α → Except ε β} {as : List α} {e : ε}
    (h : as.mapM f = .error e) : ∃ a ∈ as, f a = .error e := by
  induction as with
  | nil => cases h
  | cons a as ih =>
    rw [List.mapM_cons] at h
    cases hfirst : f a with
    | error e' =>
      rw [hfirst] at h
      cases h
      exact ⟨a, List.mem_cons_self, hfirst⟩
    | ok b =>
      rw [hfirst] at h
      cases hrest : as.mapM f with
      | ok bs => rw [hrest] at h; cases h
      | error e' =>
        rw [hrest] at h
        cases h
        obtain ⟨a', hmem, hfault⟩ := ih hrest
        exact ⟨a', List.mem_cons_of_mem _ hmem, hfault⟩

section

variable {fs : FileSystem (StateM Disk)} (hfs : fs.LooksOnly)
include hfs

/-- A job with sources and an output only fails before it writes for causes that end a run
outright. -/
theorem draft_fault {d : Disk} {job : Job} {workers : Int} {turns : List Nat} {f : JobFault}
    (h : outcome (job.draft fs workers turns) d = .error f) {sources : List Path}
    {kind : Option EntryKind} {output : Path}
    (hsources : outcome (collectSources fs job.input) d = .ok sources) (hnonempty : sources ≠ [])
    (hstatus : outcome (fs.status job.input.text) d = .ok kind)
    (htarget : outcome (job.target fs) d = .ok output) :
    (∃ o, f = .overlong o) ∨ f = .nameless output ∨ ∃ g, f = .file g ∧ ∀ e, g ≠ .os e := by
  have hrequired : outcome (requireSources fs job.input) d = .ok sources := by
    rw [requireSources, outcome_bind_of_ok (looks_adapt (looks_collectSources hfs _) _)
      (outcome_adapt_of_ok hsources _), if_neg (by simpa using hnonempty)]
    rfl
  have hparts : outcome (translateAll fs workers turns sources) d =
      sources.mapM (contribution fs d) :=
    congrArg Prod.fst (run_translateAll hfs d workers turns sources)
  rw [Job.draft, outcome_bind_of_ok (looks_requireSources hfs _) hrequired,
    outcome_bind_of_ok (looks_adapt (hfs.status _) _) (outcome_adapt_of_ok hstatus _),
    outcome_bind_of_ok (looks_adapt (looks_target hfs _) _) (outcome_adapt_of_ok htarget _),
    outcome_bind (looks_translateAll hfs _ _ _), hparts] at h
  cases htranslated : sources.mapM (contribution fs d) with
  | error f' =>
    rw [htranslated] at h
    cases h
    obtain ⟨source, -, hfault⟩ := exists_of_mapM_eq_error htranslated
    exact (contribution_fault hfault).imp_right .inr
  | ok parts =>
    rw [htranslated] at h
    replace h : outcome (if output.name = "" then throw (.nameless output) else pure _) d =
      .error f := h
    split at h
    · cases h
      exact .inr (.inl rfl)
    · cases h

/-- A job does the same with any number of workers, whatever turns they take. -/
theorem run_job_eq (job : Job) (workers workers' : Int) (turns turns' : List Nat) :
    job.run fs workers turns = job.run fs workers' turns' := by
  have hparts (sources : List Path) :
      translateAll fs workers turns sources = translateAll fs workers' turns' sources := by
    refine ExceptT.ext (StateT.ext fun d => ?_)
    exact (run_translateAll hfs d workers turns sources).trans
      (run_translateAll hfs d workers' turns' sources).symm
  unfold Job.run Job.draft
  simp only [hparts]

end

end VmToHack
