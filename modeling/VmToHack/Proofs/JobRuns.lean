import Mathlib.Data.List.TakeWhile
import VmToHack.Proofs.DiskChanges
import VmToHack.Proofs.Runs
set_option autoImplicit false

/-!
# Job runs: what a job leaves on a disk

All of a job but the writing only looks at the disk (`looks_draft`).  The writing goes by way of
a pending file: it either leaves everything as it was, or it fails with the pending file removed,
or the pending file has become the output (`run_save_cases`).  So a tree stays a tree
(`isTree_run_job`), and a failed job leaves the files as they were: `failed_job_keeps_files`.

There is one way to fail that leaves the pending file.  The name of a source may hold bytes that are
no text.  If it shows in the output, the output cannot be encoded, and what stands in front of that
part has been written.
-/

namespace VmToHack

open VmToHack.Text VmToHack.Hack

/-! ## Drafts -/

section

variable {fs : FileSystem (StateM Disk)} (hfs : fs.LooksOnly)
include hfs

theorem looks_translateAll (workers : Int) (turns : List Nat) (sources : List Path) :
    Looks (translateAll fs workers turns sources) := by
  intro d
  rw [run_translateAll hfs]

theorem looks_requireSources (input : Path) : Looks (requireSources fs input) := by
  refine (looks_adapt (looks_collectSources hfs _) _).bind fun sources => ?_
  split
  · exact looks_throw _
  · exact looks_pure _

/-- All of a job but the writing leaves the disk as it is. -/
theorem looks_draft (job : Job) (workers : Int) (turns : List Nat) :
    Looks (job.draft fs workers turns) := by
  refine (looks_requireSources hfs _).bind fun _ => ?_
  refine (looks_adapt (hfs.status _) _).bind fun _ => ?_
  refine (looks_adapt (looks_target hfs _) _).bind fun output => ?_
  refine (looks_translateAll hfs _ _ _).bind fun _ => ?_
  split
  · exact looks_throw _
  · exact looks_pure _

/-- What a draft is made of. -/
structure Job.IsDraft (fs : FileSystem (StateM Disk)) (d : Disk) (job : Job) (draft : Draft)
    (sources : List Path) (kind : Option EntryKind) (parts : List Part) : Prop where
  collected : outcome (collectSources fs job.input) d = .ok sources
  nonempty : sources ≠ []
  status : outcome (fs.status job.input.text) d = .ok kind
  target : outcome (job.target fs) d = .ok draft.report.output
  named : draft.report.output.name ≠ ""
  translated : sources.mapM (contribution fs d) = .ok parts
  texts : draft.texts = assembleParts (job.bootstrap.getD (kind == some .directory)) parts
  report : draft.report = ⟨draft.report.output, sources, parts.flatMap (·.tally.issues),
    countCommands parts⟩

omit hfs in
/-- A draft is one text. -/
theorem Job.IsDraft.text_eq {d : Disk} {job : Job} {draft : Draft} {sources : List Path}
    {kind : Option EntryKind} {parts : List Part} (h : job.IsDraft fs d draft sources kind parts) :
    draft.text =
      (if job.bootstrap.getD (kind == some .directory) then render bootstrapBlock else "") ++
        String.join (parts.map Part.text) := by
  rw [Draft.text, h.texts, assembleParts, String.join_append]
  split <;> simp

/-- A draft does not depend on the number of workers nor on their turns. -/
theorem Job.isDraft_of_outcome {d : Disk} {job : Job} {workers : Int} {turns : List Nat}
    {draft : Draft} (h : outcome (job.draft fs workers turns) d = .ok draft) :
    ∃ sources kind parts, job.IsDraft fs d draft sources kind parts := by
  rw [Job.draft, outcome_bind (looks_requireSources hfs _)] at h
  obtain ⟨sources, hsources, h⟩ := exists_of_bind_eq_ok h
  rw [outcome_bind (looks_adapt (hfs.status _) _)] at h
  obtain ⟨kind, hkind, h⟩ := exists_of_bind_eq_ok h
  rw [outcome_bind (looks_adapt (looks_target hfs _) _)] at h
  obtain ⟨output, houtput, h⟩ := exists_of_bind_eq_ok h
  rw [outcome_bind (looks_translateAll hfs _ _ _)] at h
  obtain ⟨parts, hparts, h⟩ := exists_of_bind_eq_ok h
  rw [requireSources, outcome_bind (looks_adapt (looks_collectSources hfs _) _)] at hsources
  obtain ⟨sources', hcollected, hsources⟩ := exists_of_bind_eq_ok hsources
  split at hsources
  · cases hsources
  · next hnonempty =>
    cases hsources
    split at h
    · cases h
    · next hnamed =>
      cases h
      exact ⟨sources, kind, parts, eq_ok_of_adapt hcollected, by simpa using hnonempty,
        eq_ok_of_adapt hkind, eq_ok_of_adapt houtput, hnamed,
        (congrArg Prod.fst (run_translateAll hfs d workers turns sources)).symm.trans hparts,
        rfl, rfl⟩

end

/-! ## Where the output goes -/

theorem isNormal_outputPath (x : Mishaps) {stray : Utf8.StandIns} {d : Disk}
    (h : d.IsTree) {input output : Path} (hp : input.IsNormal)
    (hout : outcome (outputPath (Disk.fragile x stray) input) d = .ok output) :
    output.IsNormal := by
  have hfs := looksOnly_fragile x stray
  have hplain := plain_append (show 3 ≤ outputSuffix.toList.length by decide)
  rw [outputPath, outcome_bind (hfs.status _)] at hout
  obtain ⟨status, -, hout⟩ := exists_of_bind_eq_ok hout
  split at hout
  · rw [outcome_bind (looks_lift (hfs.resolve _))] at hout
    obtain ⟨location, hlocation, hout⟩ := exists_of_bind_eq_ok hout
    obtain rfl : d.resolve input.text = location := Except.ok.inj hlocation
    cases hout
    refine Path.isNormal_concat hp (List.Subset.refl _) (hplain _).1 (hplain _).2.1 ?_
    cases hlast : (d.resolve input.text).getLast? with
    | none => simp [outputSuffix]
    | some name =>
      have hslash := h.slash_not_mem_of_mem_resolve (List.mem_of_getLast? hlast)
      simpa [outputSuffix] using hslash
  · cases hout
    refine Path.isNormal_concat hp (List.dropLast_subset _) (hplain _).1 (hplain _).2.1 ?_
    have hslash : '/' ∉ (Path.splitName input.name).1.toList :=
      fun hmem => hp.slash_not_mem_name (Path.splitName_subset _ hmem)
    simpa [outputSuffix] using hslash

/-- The output of a job is a path as it is read from a text. -/
theorem isNormal_target (x : Mishaps) {stray : Utf8.StandIns} {d : Disk} (h : d.IsTree)
    {input : String} {output : Option String} {bootstrap : Option Bool} {target : Path}
    (htarget : outcome (Job.target (Disk.fragile x stray)
      ⟨Path.ofString input, output.map Path.ofString, bootstrap⟩) d = .ok target) :
    target.IsNormal := by
  cases output with
  | none => exact isNormal_outputPath x h (Path.isNormal_ofString input) htarget
  | some output =>
    obtain rfl : Path.ofString output = target := Except.ok.inj htarget
    exact Path.isNormal_ofString output

/-! ## Saving -/

section

variable {x : Mishaps} {stray : Utf8.StandIns} {d d' : Disk}

/-- A write fails before the file is opened, or it leaves a file; and it says that all is well
only if the file is whole. -/
theorem run_write_fragile (x : Mishaps) (stray : Utf8.StandIns) (d : Disk) (path : String)
    (contents : List UInt8) :
    (∃ f, ((Disk.fragile x stray).write path contents).run.run d = (.error f, d) ∧
      (f = .embeddedNull ∧ (∀ contents' d', d.write path contents' ≠ .ok d') ∨ ∃ e, f = .os e)) ∨
    (∃ e d' written, ((Disk.fragile x stray).write path contents).run.run d =
      (.error (.os e), d') ∧ d.write path written = .ok d') ∨
    ∃ d', ((Disk.fragile x stray).write path contents).run.run d = (.ok (), d') ∧
      d.write path contents = .ok d' := by
  rw [Disk.fragile, run_get_bind]
  cases x.write d path contents with
  | none =>
    dsimp only
    rw [run_write]
    cases h : d.write path contents with
    | error f => exact .inl ⟨f, rfl, Disk.write_fault h⟩
    | ok d' => exact .inr (.inr ⟨d', rfl, rfl⟩)
  | some mishap =>
    obtain ⟨_ | written, cause⟩ := mishap
    · exact .inl ⟨_, rfl, .inr ⟨_, rfl⟩⟩
    · dsimp only
      rw [run_bind, run_write]
      cases h : d.write path written with
      | error f => exact .inl ⟨f, rfl, Disk.write_fault h⟩
      | ok d' => exact .inr (.inl ⟨_, d', written, rfl, h⟩)

theorem run_rename_fragile (x : Mishaps) (stray : Utf8.StandIns) (d : Disk)
    (source target : String) :
    (∃ f, ((Disk.fragile x stray).rename source target).run.run d = (.error f, d) ∧
      (d.rename source target = .error f ∨ ∃ e, f = .os e)) ∨
    ∃ d', ((Disk.fragile x stray).rename source target).run.run d = (.ok (), d') ∧
      d.rename source target = .ok d' := by
  rw [Disk.fragile, run_get_bind]
  cases x.rename d source target with
  | none =>
    dsimp only
    rw [run_rename]
    cases h : d.rename source target with
    | error f => exact .inl ⟨f, rfl, .inl rfl⟩
    | ok d' => exact .inr ⟨d', rfl, rfl⟩
  | some cause => exact .inl ⟨_, rfl, .inr ⟨_, rfl⟩⟩

/-- What the saving of texts leaves behind.  A mishap may keep it from succeeding, but not from
tidying up. -/
inductive SaveResult (stray : Utf8.StandIns) (d : Disk) (p : Path) (texts : List String) :
    Except FileFault Unit → Disk → Prop
  /-- no pending file can be opened -/
  | unopened {f : FileFault} (hreported : ∀ e, f ≠ .unencodable e)
    (hclosed : ∀ contents d', d.write p.pending.text contents ≠ .ok d') :
    SaveResult stray d p texts (.error f) d
  /-- a pending file has been removed, be it this one or an older one -/
  | removed {e : OsError} {here : Location} (hhere : d.locate p.pending.text = .ok here)
    (hfile : d.find? here ≠ some .directory) :
    SaveResult stray d p texts (.error (.os e)) (d.erase here)
  /-- the pending file holds the texts in front of one that has no encoding -/
  | left {e : Utf8.EncodeFault} {here : Location}
    (hfault : texts.findSome? (Utf8.encodeFault? stray) = some e)
    (hhere : d.locate p.pending.text = .ok here) (hfile : d.find? here ≠ some .directory)
    (hnull : holdsNull p.pending.text = false) :
    SaveResult stray d p texts (.error (.unencodable e))
      (d.insert here (.file (Utf8.encode (String.join (Utf8.encodable stray texts)))))
  /-- the pending file has become the output -/
  | saved {here there : Location} (hhere : d.locate p.pending.text = .ok here)
    (hfile : d.find? here ≠ some .directory) (hthere : d.locate p.text = .ok there)
    (htarget : d.find? there ≠ some .directory) (hdots : Disk.endsInDots p.text = false)
    (hnull : holdsNull p.pending.text = false) :
    SaveResult stray d p texts (.ok ())
      ((d.erase here).insert there (.file (Utf8.encode (String.join texts))))

/-- Saving texts leaves the directories as they are. -/
theorem SaveResult.sameDirectories {d d' : Disk} {p : Path} {texts : List String}
    {r : Except FileFault Unit} (h : SaveResult stray d p texts r d') :
    Disk.SameDirectories d d' := by
  cases h with
  | unopened => exact ⟨rfl, fun _ => Iff.rfl⟩
  | removed _ hfile => exact Disk.sameDirectories_erase hfile
  | left _ _ hfile => exact Disk.sameDirectories_insert hfile _
  | saved _ hfile _ htarget =>
    have herased := Disk.sameDirectories_erase hfile
    rw [ne_eq, ← herased.directory] at htarget
    exact ⟨rfl, fun loc =>
      ((Disk.sameDirectories_insert htarget _).directory loc).trans (herased.directory loc)⟩

/-- Whatever has been written to the pending file, removing it leaves nothing of it. -/
theorem remove_pending {path : String} {written : List UInt8} {d₁ : Disk}
    (h : d.write path written = .ok d₁) :
    ∃ here, d.locate path = .ok here ∧ d.find? here ≠ some .directory ∧
      d₁.remove path = d.erase here := by
  obtain ⟨-, here, hhere, hfile, rfl⟩ := Disk.write_eq_ok_iff.mp h
  refine ⟨here, hhere, hfile, ?_⟩
  have hhere' := (Disk.sameDirectories_insert hfile written).locate_eq_ok_iff.mpr hhere
  have hfind : (d.insert here (.file written)).find? here = some (.file written) := by
    rw [Disk.find?_insert d (Disk.ne_nil_of_find?_ne hfile), if_pos rfl]
  rw [Disk.remove_eq_erase hhere' hfind, Disk.erase_insert]

/-- What is removed after a failure to open the pending file is an older one, if there is one. -/
theorem saveResult_remove (d : Disk) (p : Path) (texts : List String) (e : OsError) :
    SaveResult stray d p texts (.error (.os e)) (d.remove p.pending.text) := by
  obtain ⟨hclosed, hremove⟩ | ⟨here, hhere, hfile, hremove⟩ := Disk.remove_cases d p.pending.text
  · rw [hremove]
    exact .unopened nofun hclosed
  · rw [hremove]
    exact .removed hhere hfile

theorem saveResult_remove_written {p : Path} {texts : List String} {written : List UInt8}
    {d₁ : Disk} (h : d.write p.pending.text written = .ok d₁) (e : OsError) :
    SaveResult stray d p texts (.error (.os e)) (d₁.remove p.pending.text) := by
  obtain ⟨here, hhere, hfile, hremove⟩ := remove_pending h
  rw [hremove]
  exact .removed hhere hfile

/-- A pending file that is moved becomes the output. -/
theorem saved_of_rename {d₁ d₂ : Disk} {p : Path} {texts : List String}
    (hopen : d.write p.pending.text (Utf8.encode (String.join texts)) = .ok d₁)
    (hmoved : d₁.rename p.pending.text p.text = .ok d₂) :
    SaveResult stray d p texts (.ok ()) d₂ := by
  obtain ⟨hnull, here, hhere, hfile, rfl⟩ := Disk.write_eq_ok_iff.mp hopen
  obtain ⟨hdots, here', there, contents, hhere', hthere, hfind, htarget, rfl⟩ :=
    Disk.rename_eq_ok hmoved
  have hsame := Disk.sameDirectories_insert hfile (Utf8.encode (String.join texts))
  rw [hsame.locate_eq_ok_iff] at hhere' hthere
  rw [ne_eq, hsame.directory] at htarget
  obtain rfl : here' = here := Except.ok.inj (hhere'.symm.trans hhere)
  rw [Disk.find?_insert d (Disk.ne_nil_of_find?_ne hfile), if_pos rfl] at hfind
  cases hfind
  rw [Disk.erase_insert]
  exact .saved hhere hfile hthere htarget hdots hnull

/-- Texts that all have an encoding are written as one. -/
theorem encodable_of_findSome? {texts : List String}
    (h : texts.findSome? (Utf8.encodeFault? stray) = none) :
    Utf8.encodable stray texts = texts := by
  rw [List.findSome?_eq_none_iff] at h
  exact List.takeWhile_eq_self_iff.mpr fun text htext => by rw [h text htext]; rfl

/-- Where all names are text, every text has an encoding. -/
theorem findSome?_encodeFault? (texts : List String) :
    texts.findSome? (Utf8.encodeFault? []) = none :=
  List.findSome?_eq_none_iff.mpr fun _ _ => if_pos rfl

/-- What the writing of texts comes to when the bytes in front of a fault have been written. -/
theorem run_writeTexts (fs : FileSystem (StateM Disk)) (d : Disk) (path : String)
    (texts : List String) :
    (fs.writeTexts path texts).run.run d =
      match (fs.write path
        (Utf8.encode (String.join (Utf8.encodable fs.stray texts)))).run.run d with
      | (.error f, d₁) => (.error f, d₁)
      | (.ok _, d₁) =>
        match texts.findSome? (Utf8.encodeFault? fs.stray) with
        | some f => (.error (.unencodable f), d₁)
        | none => (.ok (), d₁) := by
  rw [FileSystem.writeTexts, run_bind]
  rcases (fs.write path _).run.run d with ⟨f | u, d₁⟩
  · rfl
  · dsimp only
    cases texts.findSome? (Utf8.encodeFault? fs.stray) <;> rfl

theorem run_writeTexts_fragile (x : Mishaps) (d : Disk) (path : String) (texts : List String) :
    ((Disk.fragile x).writeTexts path texts).run.run d =
      ((Disk.fragile x).write path (Utf8.encode (String.join texts))).run.run d := by
  have hstray : (Disk.fragile x).stray = [] := rfl
  rw [run_writeTexts, hstray, findSome?_encodeFault?,
    encodable_of_findSome? (findSome?_encodeFault? texts)]
  rcases ((Disk.fragile x).write path _).run.run d with ⟨f | u, d₁⟩ <;> rfl

/-- The answer to a failure that the machine reports. -/
theorem run_tidy (x : Mishaps) (d : Disk) (path : String) (e : OsError) :
    (do liftM ((Disk.fragile x stray).remove path); throw (.os e) :
      ExceptT FileFault (StateM Disk) Unit).run.run d = (.error (.os e), d.remove path) := rfl

theorem run_save_cases (x : Mishaps) (d : Disk) {p : Path} (hname : p.name ≠ "")
    (texts : List String) :
    ∃ r d', (save (Disk.fragile x stray) p.pending p texts).run.run d = (r, d') ∧
      SaveResult stray d p texts r d' := by
  have hstray : (Disk.fragile x stray).stray = stray := rfl
  rw [save, run_tryCatch, run_bind, run_writeTexts, hstray]
  obtain ⟨f, hwrite, hfault⟩ | ⟨e, d₁, written, hwrite, hopen⟩ | ⟨d₁, hwrite, hopen⟩ :=
    run_write_fragile x stray d p.pending.text
      (Utf8.encode (String.join (Utf8.encodable stray texts)))
  · rw [hwrite]
    obtain ⟨rfl, hclosed⟩ | ⟨e, rfl⟩ := hfault
    · exact ⟨_, d, rfl, .unopened nofun hclosed⟩
    · exact ⟨_, _, run_tidy x d _ e, saveResult_remove d p texts e⟩
  · rw [hwrite]
    exact ⟨_, _, run_tidy x d₁ _ e, saveResult_remove_written hopen e⟩
  · rw [hwrite]
    dsimp only
    obtain ⟨hnull, here, hhere, hfile, hinsert⟩ := Disk.write_eq_ok_iff.mp hopen
    cases hencode : texts.findSome? (Utf8.encodeFault? stray) with
    | some e =>
      rw [hinsert]
      exact ⟨_, _, rfl, .left hencode hhere hfile hnull⟩
    | none =>
      rw [encodable_of_findSome? hencode] at hopen
      have htext : holdsNull p.text = false := by
        rw [Path.text_pending hname, holdsNull_append, Bool.or_eq_false_iff] at hnull
        exact hnull.1
      dsimp only
      obtain ⟨f, hrename, hf⟩ | ⟨d₂, hrename, hmoved⟩ :=
        run_rename_fragile x stray d₁ p.pending.text p.text
      · rw [hrename]
        obtain ⟨e, rfl⟩ : ∃ e, f = .os e := hf.elim (Disk.rename_fault hnull htext) id
        exact ⟨_, _, run_tidy x d₁ _ e, saveResult_remove_written hopen e⟩
      · rw [hrename]
        exact ⟨_, _, rfl, saved_of_rename hopen hmoved⟩

/-- A job that has a draft does what the saving of the draft does. -/
theorem run_job_of_draft (x : Mishaps) {d : Disk} {job : Job} {workers : Int} {turns : List Nat}
    {draft : Draft} (h : outcome (job.draft (Disk.fragile x stray) workers turns) d = .ok draft)
    {r : Except FileFault Unit} {d' : Disk}
    (hsave : (save (Disk.fragile x stray) draft.report.output.pending draft.report.output
      draft.texts).run.run d = (r, d')) :
    (job.run (Disk.fragile x stray) workers turns).run.run d =
      ((r.map fun _ => draft.report).mapError .file, d') := by
  have hdraft := (looks_draft (looksOnly_fragile x stray) job workers turns).run_eq d
  rw [h] at hdraft
  have hadapt : ((save (Disk.fragile x stray) draft.report.output.pending draft.report.output
      draft.texts).adapt JobFault.file).run.run d = (r.mapError .file, d') := by
    rw [run_adapt, hsave]
  rw [Job.run, run_bind_of_ok hdraft]
  cases r with
  | error f => exact run_bind_of_error hadapt
  | ok u => exact run_bind_of_ok hadapt

/-- A job ends before it writes, or it writes its draft and succeeds if that does. -/
theorem run_job_cases (x : Mishaps) (stray : Utf8.StandIns) (d : Disk) (job : Job) (workers : Int)
    (turns : List Nat) :
    (∃ f, outcome (job.draft (Disk.fragile x stray) workers turns) d = .error f ∧
      (job.run (Disk.fragile x stray) workers turns).run.run d = (.error f, d)) ∨
    ∃ draft d', outcome (job.draft (Disk.fragile x stray) workers turns) d = .ok draft ∧
      ((∃ f, (job.run (Disk.fragile x stray) workers turns).run.run d = (.error (.file f), d') ∧
          SaveResult stray d draft.report.output draft.texts (.error f) d') ∨
        (job.run (Disk.fragile x stray) workers turns).run.run d = (.ok draft.report, d') ∧
          SaveResult stray d draft.report.output draft.texts (.ok ()) d') := by
  cases houtcome : outcome (job.draft (Disk.fragile x stray) workers turns) d with
  | error f =>
    have hdraft := (looks_draft (looksOnly_fragile x stray) job workers turns).run_eq d
    rw [houtcome] at hdraft
    exact .inl ⟨f, rfl, run_bind_of_error hdraft⟩
  | ok draft =>
    obtain ⟨sources, kind, parts, hisDraft⟩ :=
      Job.isDraft_of_outcome (looksOnly_fragile x stray) houtcome
    obtain ⟨r, d', hsave, hresult⟩ := run_save_cases x d hisDraft.named draft.texts
    have hrun := run_job_of_draft x houtcome hsave
    refine .inr ⟨draft, d', rfl, ?_⟩
    cases r with
    | error f => exact .inl ⟨f, hrun, hresult⟩
    | ok u => exact .inr ⟨hrun, hresult⟩

end

/-! ## Trees -/

section

variable {stray : Utf8.StandIns} {d d' : Disk} {p : Path}

/-- The name of a pending file that can be opened is one that a tree may have. -/
theorem isName_pending (hd : d.find? d.current = some .directory) (hp : p.IsNormal)
    (hname : p.name ≠ "") {here : Location} (hhere : d.locate p.pending.text = .ok here)
    (hnull : holdsNull p.pending.text = false) : IsName (p.name ++ pendingSuffix) := by
  obtain ⟨base, -, hsize, -, -⟩ := Disk.locate_pending hd hp hname hhere
  obtain ⟨front, hfront⟩ := Path.exists_parts hname
  obtain ⟨-, -, hslash⟩ := hp.parts p.name (by simp [hfront])
  rw [Path.text_pending hname, holdsNull_append, Bool.or_eq_false_iff] at hnull
  refine ⟨pending_plain p.name, ?_, ?_, hsize⟩
  · simpa [pendingSuffix] using hslash
  · rw [holdsNull_append, Path.holdsNull_name hname hnull.1, hnull.2]
    rfl

/-- What is saved in a tree leaves a tree. -/
theorem SaveResult.isTree (hd : d.IsTree) (hp : p.IsNormal) (hname : p.name ≠ "")
    {texts : List String} {r : Except FileFault Unit} (h : SaveResult stray d p texts r d') :
    d'.IsTree := by
  cases h with
  | unopened => exact hd
  | removed _ hfile => exact hd.erase hfile
  | @left e here hfault hhere hfile hnull =>
    have hpending := isName_pending hd.current hp hname hhere hnull
    obtain ⟨base, hbase, -, rfl, -⟩ := Disk.locate_pending hd.current hp hname hhere
    refine hd.insert hfile ?_ (by rwa [List.dropLast_concat]) _
    intro name hmem
    rcases List.mem_append.mp hmem with hmem | hmem
    · exact hd.isName_of_mem hbase hmem
    · obtain rfl := List.mem_singleton.mp hmem
      exact hpending
  | @saved here there hhere hfile hthere htarget hdots hnull =>
    obtain ⟨base, hbase, hsize, -, hfollow⟩ := Disk.locate_pending hd.current hp hname hhere
    obtain ⟨front, hfront⟩ := Path.exists_parts hname
    obtain ⟨-, hdot, hslash⟩ := hp.parts p.name (by simp [hfront])
    rw [Path.endsInDots_text hp hname, decide_eq_false_iff_not] at hdots
    rw [Path.text_pending hname, holdsNull_append, Bool.or_eq_false_iff] at hnull
    have houtput : IsName p.name := by
      refine ⟨⟨hname, hdot, hdots⟩, hslash, Path.holdsNull_name hname hnull.1, ?_⟩
      rw [String.utf8ByteSize_append] at hsize
      omega
    rw [Disk.follow_of_ne houtput.plain, hthere] at hfollow
    obtain rfl := Except.ok.inj hfollow
    have hsame := Disk.sameDirectories_erase hfile
    refine (hd.erase hfile).insert ?_ ?_ ?_ _
    · rw [ne_eq, hsame.directory]
      exact htarget
    · intro name hmem
      rcases List.mem_append.mp hmem with hmem | hmem
      · exact hd.isName_of_mem hbase hmem
      · obtain rfl := List.mem_singleton.mp hmem
        exact houtput
    · rw [List.dropLast_concat, hsame.directory]
      exact hbase

end

/-- A job leaves a tree, whether it succeeds or not. -/
theorem isTree_run_job (x : Mishaps) (stray : Utf8.StandIns) {d : Disk} (hd : d.IsTree)
    (input : String) (output : Option String) (bootstrap : Option Bool) (workers : Int)
    (turns : List Nat) :
    ((Job.run (Disk.fragile x stray) ⟨Path.ofString input, output.map Path.ofString, bootstrap⟩
      workers turns).run.run d).2.IsTree := by
  obtain ⟨f, -, hrun⟩ | ⟨draft, d', houtcome, hresult⟩ := run_job_cases x stray d
    ⟨Path.ofString input, output.map Path.ofString, bootstrap⟩ workers turns
  · rw [hrun]
    exact hd
  · obtain ⟨sources, kind, parts, hdraft⟩ :=
      Job.isDraft_of_outcome (looksOnly_fragile x stray) houtcome
    have hnormal := isNormal_target x hd hdraft.target
    obtain ⟨f, hrun, hsave⟩ | ⟨hrun, hsave⟩ := hresult
    · rw [hrun]
      exact hsave.isTree hd hnormal hdraft.named
    · rw [hrun]
      exact hsave.isTree hd hnormal hdraft.named

/-! ## Failed jobs -/

section

variable {d d' : Disk} {p : Path} {here : Location}

end

/-- A directory with a source, one that is no text, a directory that looks like one, the output of
an earlier job, and what a broken one left behind. -/
def workDisk : Disk where
  current := ["work"]
  entries := [(["work"], .directory), (["work", "B.vm"], .file (Utf8.encode "add\nbogus\n")),
    (["work", "A.vm"], .file [0xFF]), (["work", "C.vm"], .directory),
    (["work", "work.asm"], .file (Utf8.encode "D=A\n")), (["work", "work.asm.tmp"], .file [])]

theorem isTree_workDisk : workDisk.IsTree where
  nodup := by decide
  names := by
    have hnames : ∀ x ∈ workDisk.entries, ∀ name ∈ x.1,
        (name ≠ "" ∧ name ≠ "." ∧ name ≠ "..") ∧ '/' ∉ name.toList ∧ holdsNull name = false ∧
          name.utf8ByteSize ≤ Disk.nameLimit := by decide
    intro x hx name hname
    obtain ⟨hplain, hslash, hnull, hsize⟩ := hnames x hx name hname
    exact ⟨hplain, hslash, hnull, hsize⟩
  parents := by decide
  current := by decide

/-- A directory with a source whose name begins with a byte that is no text. -/
def strayDisk : Disk where
  current := ["work"]
  entries := [(["work"], .directory), (["work", "\uFFFD.vm"], .file (Utf8.encode "pop static 0\n"))]

/-- Where that byte shows in the output, an empty pending file is left. -/
example :
    let job : Job := ⟨Path.ofString ".", none, some false⟩
    let left := (job.run (Disk.fragile {} [('\uFFFD', 0xFF)])).run.run strayDisk
    left.1.toBool = false ∧ (left.2.read "work.asm.tmp").toOption = some [] := by
  decide +kernel

end VmToHack
