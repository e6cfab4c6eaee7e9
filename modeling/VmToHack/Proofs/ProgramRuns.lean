import VmToHack.Proofs.ProgramPlans
import VmToHack.Proofs.Reading
set_option autoImplicit false

/-!
# Program runs: what the exit code of the translator tells

A run does what its plan says (`run_translateWith`).  If there is something to translate, it saves
the complete translation and then writes the issues, and it tells with its exit code how far it has
come (`reported_of_carryOut`).  So the exit code, the error stream and the files agree.  They do
not depend on the number of workers nor on the quiet option (`sameEffects_translateWith`).  Both is
said in `exit_code_tells_outcome`.
-/

namespace VmToHack.CommandLine

open VmToHack.Text VmToHack.Hack

/-! ## What a run leaves -/

/-- The file for the issues is not the output. -/
def TranslateSettings.ErrorsApart (s : TranslateSettings) (d : Disk) : Prop :=
  ∀ errors loc, nonempty? s.errors = some errors →
    d.locate (Path.ofString errors).text = .ok loc → d.locate (s.outputOn d).text ≠ .ok loc

/-- Issues are written to the file that the settings name for them, if they do. -/
def SavesIssues (x : Mishaps) (s : TranslateSettings) (d : Disk) (issues : List Issue)
    (d' : Disk) : Prop :=
  match nonempty? s.errors with
  | none => d' = d
  | some errors =>
    Writes x d (Path.ofString errors).text (Utf8.encode (issueText (issues.map Issue.format))) d'

/-- What a finished run has left: the output is the complete translation, and its issues stand on
the error stream, in the file for them and in the exit code. -/
structure Completed (s : TranslateSettings) (d : Disk) (text : String) (issues : List Issue)
    (t : Transcript) (code : Nat) (d' : Disk) : Prop where
  output : d'.read (s.outputOn d).text = .ok (Utf8.encode text)
  err : t.err = issues.map Issue.format
  errors : ∀ errors, nonempty? s.errors = some errors →
    d'.read (Path.ofString errors).text = .ok (Utf8.encode (issueText (issues.map Issue.format)))
  code : code = if issues.isEmpty then 0 else 1

/-- Nothing on a disk has changed but the pending file of an output. -/
structure OnlyPendingChanged (d d' : Disk) (output : Path) : Prop where
  current : d'.current = d.current
  others : ∀ loc, d.locate output.pending.text ≠ .ok loc → d'.find? loc = d.find? loc

/-- What a run has done that had a translation to write: it exits with the code 3 exactly if the
output or the issues could not be written, and it is complete otherwise. -/
structure Reported (x : Mishaps) (s : TranslateSettings) (d : Disk) (text : String)
    (issues : List Issue) (t : Transcript) (code : Nat) (d' : Disk) : Prop where
  failed : code = 3 ↔
    ¬∃ d₁ d₂, SavesOutput x d (s.outputOn d) text d₁ ∧ SavesIssues x s d₁ issues d₂
  kept : (¬∃ d₁, SavesOutput x d (s.outputOn d) text d₁) →
    OnlyPendingChanged d d' (s.outputOn d)
  completed : code ≠ 3 → Completed s d text issues t code d'

theorem onlyPendingChanged_of_saveResult {d d' : Disk} {p : Path} {texts : List String}
    {stray : Utf8.StandIns} {f : FileFault} (h : SaveResult stray d p texts (.error f) d') :
    OnlyPendingChanged d d' p := by
  cases h with
  | unopened => exact ⟨rfl, fun _ _ => rfl⟩
  | removed hhere hfile =>
    refine ⟨rfl, fun loc hloc => ?_⟩
    rw [Disk.find?_erase d (Disk.ne_nil_of_find?_ne hfile), if_neg]
    rintro rfl
    exact hloc hhere
  | left _ hhere hfile =>
    refine ⟨rfl, fun loc hloc => ?_⟩
    rw [Disk.find?_insert d (Disk.ne_nil_of_find?_ne hfile), if_neg]
    rintro rfl
    exact hloc hhere

/-- A run that has a translation to write does not exit with the code 2. -/
theorem Reported.code_ne_two {x : Mishaps} {s : TranslateSettings} {d d' : Disk} {text : String}
    {issues : List Issue} {t : Transcript} {code : Nat}
    (h : Reported x s d text issues t code d') : code ≠ 2 := by
  by_cases hcode : code = 3
  · omega
  · rw [(h.completed hcode).code]
    split <;> decide

/-! ## Carrying out a plan -/

/-- What a run leaves whose job has failed. -/
def jobTranscript (plan : Plan) (out : List String) : JobFault → Transcript
  | .overlong o => { out, ending := .failure (.overlong o) }
  | .nameless path => { out, ending := .failure (.nameless path) }
  | .file .embeddedNull => { out, ending := .failure (.file .embeddedNull) }
  | .file (.unencodable f) => { out, ending := .failure (.file (.unencodable f)) }
  | f => { out, err := [unwritable plan.output.text f.message], ending := .exit 3 }

section

variable {fs : FileSystem (StateM Disk)} {s s' : TranslateSettings} {d d₁ : Disk} {input : Path}
variable {plan : Plan} {turns : List Nat} {jobs : Int}

theorem run_carryOut_of_error (hjobs : s.jobs = some jobs) {f : JobFault}
    (hjob : ((Job.mk input (some plan.output) s.bootstrap).run fs (max 1 jobs) turns).run.run d =
      (.error f, d₁)) :
    ∃ out, (carryOut fs s input plan turns).run d = (jobTranscript plan out f, d₁) := by
  unfold carryOut
  rw [hjobs]
  dsimp only
  rw [run_bind_state, hjob]
  rcases f with _ | _ | _ | (_ | _ | _) <;> exact ⟨_, rfl⟩

theorem run_carryOut_of_ok (hjobs : s.jobs = some jobs) {report : Report}
    (hjob : ((Job.mk input (some plan.output) s.bootstrap).run fs (max 1 jobs) turns).run.run d =
      (.ok report, d₁)) :
    ∃ out, (carryOut fs s input plan turns).run d = (concludeReport fs s out report).run d₁ := by
  unfold carryOut
  rw [hjobs]
  dsimp only
  rw [run_bind_state, hjob]
  exact ⟨_, rfl⟩

/-- A run that carries out its plan and exits has a number of workers. -/
theorem exists_jobs_of_exit {input : Path} {plan : Plan} {t : Transcript} {d' : Disk} {code : Nat}
    (hrun : (carryOut fs s input plan turns).run d = (t, d')) (hexit : t.ending = .exit code) :
    ∃ jobs, s.jobs = some jobs := by
  cases hjobs : s.jobs with
  | some jobs => exact ⟨jobs, rfl⟩
  | none =>
    unfold carryOut at hrun
    rw [hjobs] at hrun
    cases hrun
    cases hexit

end

/-! ## Reporting -/

section

variable {x : Mishaps} {d d₁ d₂ d' : Disk} {s : TranslateSettings} {text : String}
variable {issues : List Issue} {t : Transcript} {code : Nat}

/-- Issues that are written elsewhere leave the output complete. -/
theorem completed_of_write {errors : String} (herrors : nonempty? s.errors = some errors)
    (hapart : s.ErrorsApart d) (hsame : Disk.SameDirectories d d₁)
    (houtput : d₁.read (s.outputOn d).text = .ok (Utf8.encode text))
    (hwrite : d₁.write (Path.ofString errors).text
      (Utf8.encode (issueText (issues.map Issue.format))) = .ok d₂)
    (herr : t.err = issues.map Issue.format) :
    Completed s d text issues t (if issues.isEmpty then 0 else 1) d₂ where
  output := by
    obtain ⟨-, loc, hloc, -⟩ := Disk.read_eq_ok_iff.mp houtput
    have hne : d₁.locate (Path.ofString errors).text ≠ .ok loc := fun hhere =>
      hapart errors loc herrors (hsame.locate_eq_ok_iff.mp hhere) (hsame.locate_eq_ok_iff.mp hloc)
    rw [Disk.read_of_write_of_ne hwrite hloc hne, houtput]
  err := herr
  errors errors' h := by
    rw [herrors] at h
    cases h
    exact Disk.read_of_write hwrite
  code := rfl

/-- A run that has saved everything is complete. -/
theorem reported_of_completed (hsaves : SavesOutput x d (s.outputOn d) text d₁)
    (hissues : SavesIssues x s d₁ issues d₂) (h : Completed s d text issues t code d') :
    Reported x s d text issues t code d' where
  failed := by
    have hcode : code ≠ 3 := by
      rw [h.code]
      split <;> decide
    exact iff_of_false hcode (not_not.mpr ⟨d₁, d₂, hsaves, hissues⟩)
  kept hnone := absurd ⟨d₁, hsaves⟩ hnone
  completed _ := h

/-- A run that has saved its output but not its issues exits with the code 3. -/
theorem reported_of_issues_unsaved (hsaves : SavesOutput x d (s.outputOn d) text d₁)
    (hissues : ∀ d₂, ¬SavesIssues x s d₁ issues d₂) : Reported x s d text issues t 3 d' where
  failed := by
    refine iff_of_true rfl ?_
    rintro ⟨d₂, d₃, hsaves', hissues'⟩
    rw [hsaves'.unique hsaves] at hissues'
    exact hissues d₃ hissues'
  kept hnone := absurd ⟨d₁, hsaves⟩ hnone
  completed hcode := absurd rfl hcode

/-- A run that has not saved its output exits with the code 3 and keeps everything else. -/
theorem reported_of_unsaved {f : FileFault} {texts : List String}
    (hsave : (save (Disk.fragile x) (s.outputOn d).pending (s.outputOn d) texts).run.run d =
      (.error f, d'))
    (hresult : SaveResult [] d (s.outputOn d) texts (.error f) d') :
    Reported x s d (String.join texts) issues t 3 d' where
  failed := by
    refine iff_of_true rfl ?_
    rintro ⟨d₂, d₃, hsaves, -⟩
    rw [run_save_eq_ok_iff.mpr hsaves] at hsave
    cases hsave
  kept _ := onlyPendingChanged_of_saveResult hresult
  completed hcode := absurd rfl hcode

/-- What a run reports whose output is saved. -/
theorem reported_of_concludeReport (hd : d.find? d.current = some .directory)
    (hnormal : (s.outputOn d).IsNormal) (hname : (s.outputOn d).name ≠ "")
    (hapart : s.ErrorsApart d) {texts : List String}
    (hsaves : SavesOutput x d (s.outputOn d) (String.join texts) d₁)
    (hresult : SaveResult [] d (s.outputOn d) texts (.ok ()) d₁)
    {out : List String} {report : Report}
    (hrun : (concludeReport (Disk.fragile x) s out report).run d₁ = (t, d'))
    (hexit : t.ending = .exit code) :
    Reported x s d (String.join texts) report.issues t code d' := by
  have houtput := (outputWritten_of_saved hd hnormal hname hresult).written
  have hresolve : ((Disk.fragile x).resolve report.output.text).run d₁ =
    (d₁.resolve report.output.text, d₁) := rfl
  rw [concludeReport, run_bind_state, hresolve] at hrun
  dsimp only [translateReport] at hrun
  cases herrors : nonempty? s.errors with
  | none =>
    rw [herrors] at hrun
    cases hrun
    cases hexit
    have hissues : SavesIssues x s d₁ report.issues d₁ := by simp only [SavesIssues, herrors]
    refine reported_of_completed hsaves hissues ⟨houtput, rfl, fun errors h => ?_, rfl⟩
    rw [herrors] at h
    cases h
  | some errors =>
    rw [herrors] at hrun
    dsimp only at hrun
    rcases hwrite : ((Disk.fragile x).write (Path.ofString errors).text
        (Utf8.encode (issueText (report.issues.map Issue.format)))).run.run d₁ with ⟨r, d₂⟩
    have hissues (d₃ : Disk) :
        SavesIssues x s d₁ report.issues d₃ ↔ (r, d₂) = (.ok (), d₃) := by
      rw [← hwrite, run_write_eq_ok_iff]
      simp only [SavesIssues, herrors]
    have hjoin : String.join [issueText (report.issues.map Issue.format)] =
        issueText (report.issues.map Issue.format) := by simp [String.join]
    rw [run_bind_state, run_writeTexts_fragile, hjoin, hwrite] at hrun
    rcases r with (_ | _ | e) | u
    case ok =>
      cases hrun
      cases hexit
      exact reported_of_completed hsaves ((hissues d₂).mpr rfl)
        (completed_of_write herrors hapart hresult.sameDirectories houtput
          (run_write_eq_ok_iff.mp hwrite).written rfl)
    case error.embeddedNull =>
      cases hrun
      cases hexit
    case error.unencodable =>
      cases hrun
      cases hexit
    case error.os =>
      cases hrun
      cases hexit
      exact reported_of_issues_unsaved hsaves fun d₃ h => by cases (hissues d₃).mp h

end

section

variable {x : Mishaps} {d d' : Disk} {s : TranslateSettings} {turns : List Nat}
variable {t : Transcript} {code : Nat}

/-- A job that has no draft ends the run outright. -/
theorem not_exit_of_draft_fault {plan : Plan} {kind : Option EntryKind}
    (hsources : outcome (collectSources (Disk.fragile x) s.inputPath) d = .ok plan.sources)
    (hnonempty : plan.sources ≠ [])
    (hstatus : outcome ((Disk.fragile x).status s.inputPath.text) d = .ok kind)
    {jobs : Int} (hjobs : s.jobs = some jobs) {f : JobFault}
    (hdraft : outcome (Job.draft (Disk.fragile x) ⟨s.inputPath, some plan.output, s.bootstrap⟩
      (max 1 jobs) turns) d = .error f)
    (hrun : (carryOut (Disk.fragile x) s s.inputPath plan turns).run d = (t, d')) :
    t.ending ≠ .exit code := by
  have hfs := looksOnly_fragile x
  have hjob : ((Job.mk s.inputPath (some plan.output) s.bootstrap).run (Disk.fragile x)
      (max 1 jobs) turns).run.run d = (.error f, d) :=
    run_bind_of_error (((looks_draft hfs _ _ _).run_eq d).trans (by rw [hdraft]))
  obtain ⟨out, hrun'⟩ := run_carryOut_of_error hjobs hjob
  rw [hrun'] at hrun
  obtain ⟨o, rfl⟩ | rfl | ⟨g, rfl, hos⟩ := draft_fault hfs hdraft hsources hnonempty hstatus rfl
  case inr.inr =>
    cases g with
    | os e => exact absurd rfl (hos e)
    | _ =>
      cases hrun
      exact nofun
  all_goals
    cases hrun
    exact nofun

/-- What a run does that carries out what its plan has found. -/
theorem reported_of_carryOut (hd : d.IsTree) {plan : Plan} {kind : EntryKind}
    (hstatus : outcome ((Disk.fragile x).status s.inputPath.text) d = .ok (some kind))
    (hsources : outcome (collectSources (Disk.fragile x) s.inputPath) d = .ok plan.sources)
    (hnonempty : plan.sources ≠ []) (houtput : plan.output = s.outputOn d)
    (hnormal : plan.output.IsNormal) (hapart : s.ErrorsApart d)
    (hrun : (carryOut (Disk.fragile x) s s.inputPath plan turns).run d = (t, d'))
    (hexit : t.ending = .exit code) :
    ∃ text issues, IsTranslation x d s.inputPath s.bootstrap text issues ∧
      Reported x s d text issues t code d' := by
  have hfs := looksOnly_fragile x
  obtain ⟨jobs, hjobs⟩ := exists_jobs_of_exit hrun hexit
  cases hdraft : outcome (Job.draft (Disk.fragile x)
      ⟨s.inputPath, some plan.output, s.bootstrap⟩ (max 1 jobs) turns) d with
  | error f =>
    exact absurd hexit
      (not_exit_of_draft_fault hsources hnonempty hstatus hjobs hdraft hrun)
  | ok draft =>
    obtain ⟨sources, kind', parts, hisDraft⟩ := Job.isDraft_of_outcome hfs hdraft
    obtain rfl := Except.ok.inj (hstatus.symm.trans hisDraft.status)
    have htranslation := isTranslation_of_isDraft hd (Path.isNormal_ofString _) hisDraft
    have htarget : draft.report.output = s.outputOn d :=
      (Except.ok.inj hisDraft.target).symm.trans houtput
    refine ⟨draft.text, draft.report.issues, htranslation, ?_⟩
    obtain ⟨r, d₁, hsave, hresult⟩ : ∃ r d₁, (save (Disk.fragile x) draft.report.output.pending
        draft.report.output draft.texts).run.run d = (r, d₁) ∧
        SaveResult [] d draft.report.output draft.texts r d₁ :=
      run_save_cases x d hisDraft.named draft.texts
    have hjob := run_job_of_draft x hdraft hsave
    have hname := hisDraft.named
    rw [htarget] at hsave hresult hname
    rw [houtput] at hnormal
    cases r with
    | error f =>
      obtain ⟨out, hrun'⟩ := run_carryOut_of_error hjobs hjob
      rw [hrun'] at hrun
      cases f with
      | embeddedNull =>
        cases hrun
        cases hexit
      | unencodable e =>
        cases hrun
        cases hexit
      | os e =>
        cases hrun
        cases hexit
        exact reported_of_unsaved hsave hresult
    | ok u =>
      obtain ⟨out, hrun'⟩ := run_carryOut_of_ok hjobs hjob
      rw [hrun'] at hrun
      exact reported_of_concludeReport hd.current hnormal hname hapart
        (run_save_eq_ok_iff.mp hsave) hresult hrun hexit

end

/-! ## Options without effect -/

/-- Two runs agree but for what they print on the output stream. -/
structure SameEffects (a b : Transcript × Disk) : Prop where
  err : a.1.err = b.1.err
  ending : a.1.ending = b.1.ending
  disk : a.2 = b.2

/-- Two settings ask for the same, be it with other workers or without a word. -/
structure TranslateSettings.SameTask (s s' : TranslateSettings) : Prop where
  input : s.input = s'.input
  output : s.output = s'.output
  bootstrap : s.bootstrap = s'.bootstrap
  errors : s.errors = s'.errors

section

variable {fs : FileSystem (StateM Disk)} {d : Disk} {s s' : TranslateSettings}

/-- What a report says on the error stream and with the exit code does not depend on whether the
run is quiet. -/
theorem sameEffects_concludeReport (herrors : s.errors = s'.errors) (out out' : List String)
    (report : Report) :
    SameEffects ((concludeReport fs s out report).run d)
      ((concludeReport fs s' out' report).run d) := by
  unfold concludeReport translateReport
  rw [herrors, run_bind_state, run_bind_state]
  dsimp only
  cases nonempty? s'.errors with
  | none => exact ⟨rfl, rfl, rfl⟩
  | some errors =>
    dsimp only
    rw [run_bind_state, run_bind_state]
    rcases StateT.run (ExceptT.run (fs.writeTexts _ _)) _ with ⟨r, d₁⟩
    rcases r with (_ | _ | _) | _ <;> exact ⟨rfl, rfl, rfl⟩

variable (hfs : fs.LooksOnly) {turns turns' : List Nat}
include hfs

/-- Neither the number of workers nor their turns nor the quiet option makes a difference to what
is done. -/
theorem sameEffects_carryOut {jobs jobs' : Int} (hjobs : s.jobs = some jobs)
    (hjobs' : s'.jobs = some jobs') (hbootstrap : s.bootstrap = s'.bootstrap)
    (herrors : s.errors = s'.errors) (turns turns' : List Nat) (input : Path) (plan : Plan)
    (d : Disk) :
    SameEffects ((carryOut fs s input plan turns).run d)
      ((carryOut fs s' input plan turns').run d) := by
  rcases hjob : ((Job.mk input (some plan.output) s.bootstrap).run fs (max 1 jobs) turns).run.run d
    with ⟨r, d₁⟩
  have hjob' := hjob
  rw [run_job_eq hfs _ (max 1 jobs) (max 1 jobs') turns turns', hbootstrap] at hjob'
  cases r with
  | error f =>
    obtain ⟨out, hrun⟩ := run_carryOut_of_error hjobs hjob
    obtain ⟨out', hrun'⟩ := run_carryOut_of_error hjobs' hjob'
    rw [hrun, hrun']
    rcases f with _ | _ | _ | (_ | _ | _) <;> exact ⟨rfl, rfl, rfl⟩
  | ok report =>
    obtain ⟨out, hrun⟩ := run_carryOut_of_ok hjobs hjob
    obtain ⟨out', hrun'⟩ := run_carryOut_of_ok hjobs' hjob'
    rw [hrun, hrun']
    exact sameEffects_concludeReport herrors out out' report

theorem looks_translatePlan (s : TranslateSettings) (input : Path) :
    Looks (translatePlan fs s input) := by
  refine (hfs.status _).bind fun kind => ?_
  cases kind with
  | none => exact looks_pure _
  | some kind =>
    dsimp only
    split
    · exact looks_pure _
    · refine (looks_collectSources hfs _).bind fun sources => ?_
      split
      · exact looks_pure _
      · split
        · exact looks_pure _
        · exact (looks_outputPath hfs _).bind fun _ => looks_pure _

/-- A run does what its plan says. -/
theorem run_translateWith (d : Disk) (s : TranslateSettings) (turns : List Nat) :
    (translateWith fs s turns).run d =
      match outcome (translatePlan fs s s.inputPath) d with
      | .error f => ({ ending := .failure (.file f) }, d)
      | .ok (.error obstacle) =>
        ({ err := ["[vmtranslate] ERROR: " ++ obstacle], ending := .exit 2 }, d)
      | .ok (.ok plan) => (carryOut fs s s.inputPath plan turns).run d := by
  have hplan : (translatePlan fs s (Path.ofString (s.input.getD ""))).run.run d =
      (outcome (translatePlan fs s s.inputPath) d, d) :=
    (looks_translatePlan hfs s s.inputPath).run_eq d
  rw [translateWith, run_bind_state, hplan]
  rcases outcome (translatePlan fs s s.inputPath) d with f | (obstacle | plan) <;> rfl

theorem sameEffects_translateWith (hsame : s.SameTask s') {t t' : Transcript} {d₁ d₁' : Disk}
    (hrun : (translateWith fs s turns).run d = (t, d₁))
    (hrun' : (translateWith fs s' turns').run d = (t', d₁'))
    (hexit : ∃ code, t.ending = .exit code)
    (hexit' : s'.jobs.isSome ∨ ∃ code, t'.ending = .exit code) :
    SameEffects (t, d₁) (t', d₁') := by
  rw [run_translateWith hfs] at hrun hrun'
  have hinput : s'.inputPath = s.inputPath := by
    unfold TranslateSettings.inputPath
    rw [hsame.input]
  have hplan : outcome (translatePlan fs s' s'.inputPath) d =
      outcome (translatePlan fs s s.inputPath) d := by
    unfold translatePlan
    rw [hinput, hsame.output]
  rw [hplan] at hrun'
  rcases hfound : outcome (translatePlan fs s s.inputPath) d with f | (obstacle | plan) <;>
    rw [hfound] at hrun hrun' <;> dsimp only at hrun hrun'
  · cases hrun
    obtain ⟨code, hexit⟩ := hexit
    cases hexit
  · cases hrun
    cases hrun'
    exact ⟨rfl, rfl, rfl⟩
  · obtain ⟨code, hexit⟩ := hexit
    obtain ⟨jobs, hjobs⟩ := exists_jobs_of_exit hrun hexit
    have hjobs' : ∃ jobs', s'.jobs = some jobs' := by
      rcases hexit' with hsome | ⟨code', hexit'⟩
      · exact Option.isSome_iff_exists.mp hsome
      · exact exists_jobs_of_exit hrun' hexit'
    obtain ⟨jobs', hjobs'⟩ := hjobs'
    have heffects := sameEffects_carryOut hfs hjobs hjobs' hsame.bootstrap hsame.errors turns
      turns' s.inputPath plan d
    rw [hinput] at hrun'
    rwa [hrun, hrun'] at heffects

end

/-! ## Exit codes -/

/-- What the exit code of a run tells. -/
structure ExitTells (x : Mishaps) (s : TranslateSettings) (d : Disk) (t : Transcript)
    (code : Nat) (d' : Disk) : Prop where
  nothing : code = 2 ↔ NothingToTranslate d s.inputPath
  untouched : code = 2 → d' = d
  something : code ≠ 2 → ∃ text issues, IsTranslation x d s.inputPath s.bootstrap text issues ∧
    Reported x s d text issues t code d'

theorem exitTells_translateWith {x : Mishaps} {d d' : Disk} (hd : d.IsTree)
    {s : TranslateSettings} {turns : List Nat} (hapart : s.ErrorsApart d) {t : Transcript}
    {code : Nat} (hrun : (translateWith (Disk.fragile x) s turns).run d = (t, d'))
    (hexit : t.ending = .exit code) : ExitTells x s d t code d' := by
  rw [run_translateWith (looksOnly_fragile x)] at hrun
  cases hfound : outcome (translatePlan (Disk.fragile x) s s.inputPath) d with
  | error f =>
    rw [hfound] at hrun
    cases hrun
    cases hexit
  | ok found =>
    rw [hfound] at hrun
    cases plan_cases hd hfound with
    | nothing hnothing =>
      cases hrun
      cases hexit
      exact ⟨iff_of_true rfl hnothing, fun _ => rfl, fun hcode => absurd rfl hcode⟩
    | something hnothing hstatus hsources hnonempty houtput hnormal =>
      obtain ⟨text, issues, htranslation, hreported⟩ := reported_of_carryOut hd hstatus hsources
        hnonempty houtput hnormal hapart hrun hexit
      have hcode := hreported.code_ne_two
      exact ⟨iff_of_false hcode hnothing, fun h => absurd h hcode,
        fun _ => ⟨text, issues, htranslation, hreported⟩⟩

/-- The exit code of a run, its error stream and its files agree; and another run does the same
whose arguments only differ in the quiet option and in the number of workers, whatever turns these
take. -/
theorem exit_code_tells_outcome (x : Mishaps) {d d' : Disk} (hd : d.IsTree)
    {arguments : List String} {turns : List Nat} {s : TranslateSettings}
    (hs : TranslateSettings.ofArguments arguments = .ok s) (hhelp : s.help = false)
    (hapart : s.ErrorsApart d) {t : Transcript} {code : Nat}
    (hrun : (translateProgram (Disk.fragile x) arguments turns).run d = (t, d'))
    (hexit : t.ending = .exit code) :
    ExitTells x s d t code d' ∧
    ∀ (arguments' : List String) (turns' : List Nat) (s' : TranslateSettings) (t' : Transcript)
      (d'' : Disk), TranslateSettings.ofArguments arguments' = .ok s' →
      s' = { s with quiet := s'.quiet, jobs := s'.jobs } →
      (translateProgram (Disk.fragile x) arguments' turns').run d = (t', d'') →
      s'.jobs.isSome ∨ (∃ code', t'.ending = .exit code') →
      t'.err = t.err ∧ t'.ending = t.ending ∧ d'' = d' := by
  have hwith {arguments : List String} {turns : List Nat} {s : TranslateSettings}
      (hs : TranslateSettings.ofArguments arguments = .ok s) (hhelp : s.help = false) :
      translateProgram (Disk.fragile x) arguments turns =
        translateWith (Disk.fragile x) s turns := by
    unfold translateProgram
    rw [hs]
    dsimp only
    rw [hhelp]
    rfl
  rw [hwith hs hhelp] at hrun
  refine ⟨exitTells_translateWith hd hapart hrun hexit, ?_⟩
  intro arguments' turns' s' t' d'' hs' hsettings hrun' hreturns
  have hsame : s.SameTask s' := by
    rw [hsettings]
    exact ⟨rfl, rfl, rfl, rfl⟩
  have hhelp' : s'.help = false := by
    rw [hsettings]
    exact hhelp
  rw [hwith hs' hhelp'] at hrun'
  obtain ⟨herr, hending, hdisk⟩ := sameEffects_translateWith (looksOnly_fragile x) hsame hrun hrun'
    ⟨code, hexit⟩ hreturns
  exact ⟨herr.symm, hending.symm, hdisk.symm⟩

theorem exit_code_tells_outcome_work :
    let arguments := ["-q", "--errors", "issues.txt", "."]
    let arguments' := ["-j", "2", "--errors", "issues.txt", "."]
    ∃ s t d', workDisk.IsTree ∧ TranslateSettings.ofArguments arguments = .ok s ∧
      s.help = false ∧ s.ErrorsApart workDisk ∧
      (translateProgram (Disk.fragile {}) arguments).run workDisk = (t, d') ∧
      t.ending = .exit 1 ∧ ExitTells {} s workDisk t 1 d' ∧
      ∃ t', (translateProgram (Disk.fragile {}) arguments' [1, 0]).run workDisk = (t', d') ∧
        t'.err = t.err ∧ t'.ending = t.ending := by
  intro arguments arguments'
  let s : TranslateSettings := { input := some ".", errors := some "issues.txt", quiet := true }
  let s' : TranslateSettings := { s with quiet := false, jobs := some 2 }
  have hs : TranslateSettings.ofArguments arguments = .ok s :=
    eq_ok_of_toOption (by decide +kernel)
  have hs' : TranslateSettings.ofArguments arguments' = .ok s' :=
    eq_ok_of_toOption (by decide +kernel)
  have hapart : s.ErrorsApart workDisk := by
    have hne : workDisk.locate (Path.ofString "issues.txt").text ≠
        workDisk.locate (s.outputOn workDisk).text := by decide +kernel
    rintro errors loc herrors hloc hloc'
    obtain rfl : "issues.txt" = errors := Option.some.inj herrors
    exact hne (hloc.trans hloc'.symm)
  have hexit : ((translateProgram (Disk.fragile {}) arguments).run workDisk).1.ending =
      .exit 1 := by decide +kernel
  rcases hrun : (translateProgram (Disk.fragile {}) arguments).run workDisk with ⟨t, d'⟩
  rcases hrun' : (translateProgram (Disk.fragile {}) arguments' [1, 0]).run workDisk with ⟨t', d''⟩
  rw [hrun] at hexit
  obtain ⟨htells, hother⟩ := exit_code_tells_outcome {} isTree_workDisk hs rfl hapart hrun hexit
  obtain ⟨herr, hending, rfl⟩ := hother _ _ _ _ _ hs' rfl hrun' (.inl rfl)
  exact ⟨s, t, d'', isTree_workDisk, hs, rfl, hapart, rfl, hexit, htells, t', rfl, herr, hending⟩

end VmToHack.CommandLine
