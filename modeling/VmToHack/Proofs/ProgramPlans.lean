import VmToHack.CommandLine.Translate
import VmToHack.Proofs.JobOutcomes
set_option autoImplicit false

/-!
# Program plans: what the translator finds to do

Before it does anything the translator looks at its input, and it says that there is nothing to
translate exactly if that is so (`plan_cases`).  The job that it then does looks at the input
again.  As it sees the same, what it drafts is the complete translation of what the plan has found
(`isTranslation_of_isDraft`).
-/

namespace VmToHack.CommandLine

open VmToHack.Text VmToHack.Hack

/-! ## What there is to do -/

/-- The input that the settings name. -/
def TranslateSettings.inputPath (s : TranslateSettings) : Path := Path.ofString (s.input.getD "")

/-- Where the settings want the output to go. -/
def TranslateSettings.outputOn (s : TranslateSettings) (d : Disk) : Path :=
  match nonempty? s.output with
  | some output => Path.ofString output
  | none =>
    if d.status s.inputPath.text = .ok (some .directory) then
      s.inputPath.child ((d.resolve s.inputPath.text).getLast?.getD "" ++ outputSuffix)
    else s.inputPath.withSuffix outputSuffix

/-- There is nothing to translate at an input. -/
inductive NothingToTranslate (d : Disk) (input : Path) : Prop
  | missing (hstatus : d.status input.text = .ok none)
  | otherFile (hstatus : d.status input.text = .ok (some .file))
      (hsuffix : input.suffix ≠ sourceSuffix)
  | noSources {loc : Location} (hstatus : d.status input.text = .ok (some .directory))
      (hloc : d.locate input.text = .ok loc)
      (hnone : ∀ name bytes, d.find? (loc ++ [name]) = some (.file bytes) →
        (Path.splitName name).2 ≠ sourceSuffix)

/-- What a source contributes.  If the machine does not read it, that is an issue. -/
inductive SourcePart (x : Mishaps) (d : Disk) (source : Path) : Part → Prop
  | read {bytes : List UInt8} {part : Part} (hmishap : x.read d source.text = none)
      (hread : d.read source.text = .ok bytes) (hpart : Contributes source.name bytes part) :
      SourcePart x d source part
  | unread {cause : OsCause} (hmishap : x.read d source.text = some cause) :
      SourcePart x d source (.unreadable source.name (OsError.message ⟨cause, source.text, none⟩))

/-- The complete translation of an input, with its issues in order: for a file what it
contributes, and for a directory what its sources contribute one by one, behind the block that
starts a program. -/
inductive IsTranslation (x : Mishaps) (d : Disk) (input : Path) (bootstrap : Option Bool) :
    String → List Issue → Prop
  | file {part : Part} (hstatus : d.status input.text = .ok (some .file))
      (hpart : SourcePart x d input part) :
      IsTranslation x d input bootstrap
        ((if bootstrap.getD false then render bootstrapBlock else "") ++ part.text)
        part.tally.issues
  | directory {loc : Location} {names : List String} {parts : List Part}
      (hstatus : d.status input.text = .ok (some .directory))
      (hloc : d.locate input.text = .ok loc) (hlisting : IsListing d loc names)
      (hparts : List.Forall₂ (fun name part => SourcePart x d (input.child name) part)
        names parts) :
      IsTranslation x d input bootstrap
        ((if bootstrap.getD true then render bootstrapBlock else "") ++
          String.join (parts.map Part.text))
        (parts.flatMap fun part => part.tally.issues)

section

variable {x : Mishaps} {d : Disk} {p : Path}

theorem exists_isDirectoryAt (hd : d.IsTree) (hp : p.IsNormal)
    (hstatus : d.status p.text = .ok (some .directory)) : ∃ loc, IsDirectoryAt d p loc := by
  obtain ⟨hplain, loc, hloc, hdirectory⟩ := Disk.status_eq_directory_iff.mp hstatus
  exact ⟨loc, hd, hp, hplain, hloc, hdirectory⟩

/-- An input that is no directory is its own source. -/
theorem eq_of_collectSources {kind : Option EntryKind} {sources : List Path}
    (hstatus : d.status p.text = .ok kind) (hkind : kind ≠ some .directory)
    (h : outcome (collectSources Disk.fileSystem p) d = .ok sources) : sources = [p] := by
  rw [collectSources, outcome_bind (looksOnly_fileSystem.status _), outcome_status, hstatus] at h
  cases kind with
  | none => cases h; rfl
  | some kind =>
    cases kind with
    | file => cases h; rfl
    | directory => exact absurd rfl hkind

/-- The sources of an input are wanting exactly if there is nothing to translate, unless it is
missing or a file of another kind. -/
theorem sources_eq_nil_iff (hd : d.IsTree) (hp : p.IsNormal) {kind : EntryKind}
    {sources : List Path} (hstatus : d.status p.text = .ok (some kind))
    (hfile : kind = .file → p.suffix = sourceSuffix)
    (h : outcome (collectSources Disk.fileSystem p) d = .ok sources) :
    sources = [] ↔ NothingToTranslate d p := by
  cases kind with
  | file =>
    obtain rfl := eq_of_collectSources hstatus (by decide) h
    refine iff_of_false (List.cons_ne_nil _ _) fun hnothing => ?_
    cases hnothing with
    | missing hstatus' => rw [hstatus] at hstatus'; cases hstatus'
    | otherFile _ hsuffix => exact hsuffix (hfile rfl)
    | noSources hstatus' => rw [hstatus] at hstatus'; cases hstatus'
  | directory =>
    obtain ⟨loc, hat⟩ := exists_isDirectoryAt hd hp hstatus
    obtain ⟨names, rfl, hlisting, -⟩ := isListing_of_collectSources hat h
    rw [List.map_eq_nil_iff]
    constructor
    · rintro rfl
      refine .noSources hstatus hat.located fun name bytes hfind hsuffix => ?_
      exact List.not_mem_nil ((hlisting.files name).mpr ⟨⟨bytes, hfind⟩, hsuffix⟩)
    · intro hnothing
      cases hnothing with
      | missing hstatus' => rw [hstatus] at hstatus'; cases hstatus'
      | otherFile hstatus' => rw [hstatus] at hstatus'; cases hstatus'
      | noSources _ hloc hnone =>
        obtain rfl := Except.ok.inj (hat.located.symm.trans hloc)
        refine List.eq_nil_iff_forall_not_mem.mpr fun name hname => ?_
        obtain ⟨⟨bytes, hfind⟩, hsuffix⟩ := (hlisting.files name).mp hname
        exact hnone name bytes hfind hsuffix

end

/-- What the plan of a run has found: that there is nothing to translate, or the sources, and
where their output goes. -/
inductive PlanFinds (x : Mishaps) (d : Disk) (s : TranslateSettings) : Except String Plan → Prop
  | nothing {obstacle : String} (hnothing : NothingToTranslate d s.inputPath) :
      PlanFinds x d s (.error obstacle)
  | something {plan : Plan} {kind : EntryKind} (hnothing : ¬NothingToTranslate d s.inputPath)
      (hstatus : outcome ((Disk.fragile x).status s.inputPath.text) d = .ok (some kind))
      (hsources : outcome (collectSources (Disk.fragile x) s.inputPath) d = .ok plan.sources)
      (hnonempty : plan.sources ≠ []) (houtput : plan.output = s.outputOn d)
      (hnormal : plan.output.IsNormal) : PlanFinds x d s (.ok plan)

/-- Without an output of its own the plan takes the one that goes with the input. -/
theorem eq_outputOn_of_outputPath {x : Mishaps} {d : Disk} {s : TranslateSettings} {output : Path}
    (hnone : nonempty? s.output = none)
    (h : outcome (outputPath (Disk.fragile x) s.inputPath) d = .ok output) :
    output = s.outputOn d := by
  replace h := outputPath_of_fragile h
  unfold TranslateSettings.outputOn
  rw [hnone]
  dsimp only
  split
  · next hdirectory =>
    rw [outcome_outputPath hdirectory] at h
    exact (Except.ok.inj h).symm
  · next hother =>
    rw [outputPath, outcome_bind (looksOnly_fileSystem.status _), outcome_status] at h
    obtain ⟨kind, hkind, h⟩ := exists_of_bind_eq_ok h
    split at h
    · exact absurd hkind hother
    · cases h
      rfl

theorem plan_cases {x : Mishaps} {d : Disk} (hd : d.IsTree) {s : TranslateSettings}
    {r : Except String Plan}
    (h : outcome (translatePlan (Disk.fragile x) s s.inputPath) d = .ok r) : PlanFinds x d s r := by
  have hfs := looksOnly_fragile x
  rw [translatePlan, outcome_bind (hfs.status _)] at h
  obtain ⟨kind, hkind, h⟩ := exists_of_bind_eq_ok h
  have hstatus : d.status s.inputPath.text = .ok kind := status_of_fragile hkind
  cases kind with
  | none =>
    cases h
    exact .nothing (.missing hstatus)
  | some kind =>
    dsimp only at h
    split at h
    · next hother =>
      simp only [Bool.and_eq_true, decide_eq_true_eq] at hother
      obtain ⟨rfl, hsuffix⟩ := hother
      cases h
      exact .nothing (.otherFile hstatus hsuffix)
    · next hother =>
      simp only [Bool.and_eq_true, decide_eq_true_eq, not_and, not_not] at hother
      rw [outcome_bind (looks_collectSources hfs _)] at h
      obtain ⟨sources, hsources, h⟩ := exists_of_bind_eq_ok h
      have hnil := sources_eq_nil_iff hd (Path.isNormal_ofString _) hstatus hother
        (collectSources_of_fragile hsources)
      split at h
      · next hempty =>
        cases h
        exact .nothing (hnil.mp (List.isEmpty_iff.mp hempty))
      · next hempty =>
        rw [List.isEmpty_iff] at hempty
        have hsome := mt hnil.mpr hempty
        split at h
        · next output houtput =>
          cases h
          refine .something hsome hkind hsources hempty ?_ (Path.isNormal_ofString _)
          simp only [TranslateSettings.outputOn, houtput]
        · next houtput =>
          rw [outcome_bind (looks_outputPath hfs _)] at h
          obtain ⟨output, hpath, h⟩ := exists_of_bind_eq_ok h
          cases h
          exact .something hsome hkind hsources hempty (eq_outputOn_of_outputPath houtput hpath)
            (isNormal_outputPath x hd (Path.isNormal_ofString _) hpath)

/-! ## Translations -/

theorem sourcePart_of_contribution {x : Mishaps} {d : Disk} {source : Path} {part : Part}
    {bytes : List UInt8} (hread : d.read source.text = .ok bytes)
    (h : contribution (Disk.fragile x) d source = .ok part) : SourcePart x d source part := by
  rw [contribution, outcome_read_fragile] at h
  cases hmishap : x.read d source.text with
  | none =>
    rw [hmishap] at h
    dsimp only at h
    rw [hread] at h
    exact .read hmishap hread (contributes_of_ofContents h)
  | some cause =>
    rw [hmishap] at h
    cases h
    exact .unread hmishap

theorem exists_read_of_status {d : Disk} {path : String}
    (hstatus : d.status path = .ok (some .file)) : ∃ bytes, d.read path = .ok bytes := by
  unfold Disk.status at hstatus
  split at hstatus
  · cases hstatus
  · next hnull =>
    split at hstatus
    · next loc hloc =>
      cases hfind : d.find? loc with
      | none => rw [hfind] at hstatus; cases hstatus
      | some e =>
        cases e with
        | directory => rw [hfind] at hstatus; cases hstatus
        | file bytes =>
          exact ⟨bytes, Disk.read_eq_ok_iff.mpr ⟨by simpa using hnull, loc, hloc, hfind⟩⟩
    · split at hstatus <;> cases hstatus

/-- What a job drafts for an input that is there is its complete translation. -/
theorem isTranslation_of_isDraft {x : Mishaps} {d : Disk} (hd : d.IsTree) {job : Job}
    (hp : job.input.IsNormal) {draft : Draft} {sources : List Path} {kind : EntryKind}
    {parts : List Part}
    (h : job.IsDraft (Disk.fragile x) d draft sources (some kind) parts) :
    IsTranslation x d job.input job.bootstrap draft.text draft.report.issues := by
  have hstatus : d.status job.input.text = .ok (some kind) := status_of_fragile h.status
  have hsources := collectSources_of_fragile h.collected
  have hparts := forall₂_of_mapM_eq_ok h.translated
  rw [h.text_eq, h.report]
  cases kind with
  | file =>
    obtain rfl := eq_of_collectSources hstatus (by decide) hsources
    obtain ⟨part, _, hpart, hnil, rfl⟩ := List.forall₂_cons_left_iff.mp hparts
    obtain rfl := List.forall₂_nil_left_iff.mp hnil
    obtain ⟨bytes, hread⟩ := exists_read_of_status hstatus
    have hjoin : String.join ([part].map Part.text) = part.text := by simp [String.join]
    rw [hjoin, List.flatMap_singleton]
    exact .file hstatus (sourcePart_of_contribution hread hpart)
  | directory =>
    obtain ⟨loc, hat⟩ := exists_isDirectoryAt hd hp hstatus
    obtain ⟨names, rfl, hlisting, hlocated⟩ := isListing_of_collectSources hat hsources
    rw [List.forall₂_map_left_iff] at hparts
    refine .directory hstatus hat.located hlisting ?_
    have hread : ∀ name ∈ names, ∃ bytes, d.read (job.input.child name).text = .ok bytes := by
      intro name hname
      obtain ⟨⟨bytes, hfind⟩, -⟩ := (hlisting.files name).mp hname
      have hnull := holdsNull_child hat.plain (Disk.isName_of_find? hd hfind).noNull
      exact ⟨bytes, Disk.read_eq_ok_iff.mpr ⟨hnull, _, hlocated name hname, hfind⟩⟩
    refine ((List.forall₂_and_left names parts).mpr ⟨hread, hparts⟩).imp ?_
    rintro name part ⟨⟨bytes, hread⟩, hpart⟩
    exact sourcePart_of_contribution hread hpart

end VmToHack.CommandLine
