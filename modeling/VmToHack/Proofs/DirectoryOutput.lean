import Mathlib.Algebra.GroupWithZero.Nat
import Mathlib.Data.List.Forall2
import VmToHack.Proofs.JobRuns
import VmToHack.Proofs.Program
set_option autoImplicit false

/-!
# Directory output: the outputs of the files, in order

The sources of a directory are the files in it that bear the suffix, in the order of their names
(`isListing_of_collectSources`).  What each of them contributes depends on its name and its bytes
alone (`contributes_of_contribution`): it is translated with names of its own.  So the output of
a directory is the outputs of its files in a row, behind the block that starts a program, and
nothing else on the disk changes but for a pending file that was there: `directory_output`.
-/

namespace VmToHack

open VmToHack.Text VmToHack.Hack

/-! ## The names in a directory -/

theorem mem_sourceNames {names : List String} {name : String} :
    name ∈ sourceNames names ↔ name ∈ names ∧ (Path.splitName name).2 = sourceSuffix := by
  unfold sourceNames
  rw [(sortTexts_perm _).mem_iff, List.mem_filter, beq_iff_eq]

namespace Disk

variable {d : Disk} {loc : Location} {path name : String}

/-- An entry has its name in its directory. -/
theorem eq_concat_of_name {x : Location × Entry}
    (h : (if x.1.dropLast = loc then x.1.getLast? else none) = some name) :
    x.1 = loc ++ [name] := by
  split at h
  · next hfront =>
    obtain ⟨front, hlocation⟩ := List.getLast?_eq_some_iff.mp h
    rw [hlocation, List.dropLast_concat] at hfront
    rw [hlocation, hfront]
  · cases h

theorem mem_list_iff (hloc : d.locate path = .ok loc) :
    name ∈ d.list path ↔ ∃ e, (loc ++ [name], e) ∈ d.entries := by
  unfold list
  rw [hloc]
  dsimp only
  rw [List.mem_filterMap]
  constructor
  · rintro ⟨x, hmem, hname⟩
    exact ⟨x.2, eq_concat_of_name hname ▸ hmem⟩
  · rintro ⟨e, hmem⟩
    exact ⟨_, hmem, by simp⟩

theorem nodup_list (hd : d.IsTree) (hloc : d.locate path = .ok loc) : (d.list path).Nodup := by
  unfold list
  rw [hloc]
  refine (List.pairwise_map.mp hd.nodup).filterMap _ ?_
  rintro x y hne name hname name' hname' rfl
  exact hne ((eq_concat_of_name hname).trans (eq_concat_of_name hname').symm)

/-- Every name that stands in a directory is one that can. -/
theorem isName_of_find? (hd : d.IsTree) {e : Entry} (h : d.find? (loc ++ [name]) = some e) :
    IsName name :=
  hd.names _ (mem_entries_of_find? h (by simp)) name (by simp)

end Disk

/-! ## Sources of a directory -/

section

variable {d : Disk} {p : Path} {loc : Location} {name : String}

/-- A directory that is found, and where. -/
structure IsDirectoryAt (d : Disk) (p : Path) (loc : Location) : Prop where
  tree : d.IsTree
  normal : p.IsNormal
  plain : holdsNull p.text = false
  located : d.locate p.text = .ok loc
  directory : d.find? loc = some .directory

theorem holdsNull_child (hp : holdsNull p.text = false) (hname : holdsNull name = false) :
    holdsNull (p.child name).text = false := by
  by_cases hparts : p.parts = []
  · rw [Path.text_child_of_parts_eq_nil hparts, holdsNull_append, hname, Bool.or_false]
    rw [Path.text_of_parts_eq_nil hparts] at hp
    split at hp
    · next hroot => rw [hroot]; rfl
    · exact hp
  · rw [Path.text_child hparts, holdsNull_append, holdsNull_append, hp, hname]
    rfl

/-- What the status of a name in a directory says, if it says anything. -/
theorem status_child (h : IsDirectoryAt d p loc) (hname : IsName name) {kind : Option EntryKind}
    (hstatus : d.status (p.child name).text = .ok kind) :
    d.locate (p.child name).text = .ok (loc ++ [name]) ∧
      kind = (d.find? (loc ++ [name])).map Entry.kind := by
  have hlocate := Disk.locate_child h.tree.current h.normal hname h.located h.directory
  unfold Disk.status at hstatus
  rw [holdsNull_child h.plain hname.noNull, hlocate] at hstatus
  split at hlocate
  · next hlong =>
    rw [if_pos hlong] at hstatus
    cases hstatus
  · next hshort =>
    rw [if_neg hshort] at hstatus
    exact ⟨hlocate, (Except.ok.inj hstatus).symm⟩

/-- The names that are kept are those of files, and the others were looked at as well. -/
theorem fileNames_eq {names files : List String}
    (h : outcome (fileNames Disk.fileSystem p names) d = .ok files) :
    files = names.filter (fun name => d.status (p.child name).text = .ok (some .file)) ∧
      ∀ name ∈ names, ∃ kind, d.status (p.child name).text = .ok kind := by
  have hfs := looksOnly_fileSystem
  induction names generalizing files with
  | nil =>
    cases h
    exact ⟨rfl, fun _ hname => absurd hname List.not_mem_nil⟩
  | cons name names ih =>
    rw [fileNames, outcome_bind (hfs.status _)] at h
    obtain ⟨kind, hkind, h⟩ := exists_of_bind_eq_ok h
    rw [outcome_bind (looks_fileNames hfs _ _)] at h
    obtain ⟨rest, hrest, h⟩ := exists_of_bind_eq_ok h
    obtain ⟨rfl, hall⟩ := ih hrest
    rw [outcome_status] at hkind
    refine ⟨?_, List.forall_mem_cons.mpr ⟨⟨kind, hkind⟩, hall⟩⟩
    cases h
    by_cases hfile : kind = some .file
    · rw [if_pos hfile, List.filter_cons_of_pos (by simp [hkind, hfile])]
    · rw [if_neg hfile, List.filter_cons_of_neg (by simp [hkind, hfile])]

/-- The sources of a directory, in order. -/
structure IsListing (d : Disk) (loc : Location) (names : List String) : Prop where
  files : ∀ name, name ∈ names ↔
    (∃ bytes, d.find? (loc ++ [name]) = some (.file bytes)) ∧
      (Path.splitName name).2 = sourceSuffix
  increasing : names.Pairwise fun a b => a < b

/-- The sources of a directory are made of its list of names, all of which were looked at. -/
theorem collectSources_eq_ok (h : IsDirectoryAt d p loc) {sources : List Path}
    (hsources : outcome (collectSources Disk.fileSystem p) d = .ok sources) :
    sources = (sourceNames ((d.list p.text).filter fun name =>
        d.status (p.child name).text = .ok (some .file))).map p.child ∧
      ∀ name ∈ d.list p.text, ∃ kind, d.status (p.child name).text = .ok kind := by
  have hfs := looksOnly_fileSystem
  have hdirectory : d.status p.text = .ok (some .directory) :=
    Disk.status_eq_directory_iff.mpr ⟨h.plain, loc, h.located, h.directory⟩
  rw [collectSources, outcome_bind (hfs.status _), outcome_status, hdirectory] at hsources
  replace hsources : outcome (liftM (Disk.fileSystem.list p.text) >>= fun names =>
      fileNames Disk.fileSystem p names >>= fun files =>
        pure ((sourceNames files).map p.child)) d = .ok sources := hsources
  rw [outcome_bind (looks_lift (hfs.list _))] at hsources
  obtain ⟨names, hnames, hsources⟩ := exists_of_bind_eq_ok hsources
  obtain rfl : d.list p.text = names := Except.ok.inj hnames
  rw [outcome_bind (looks_fileNames hfs _ _)] at hsources
  obtain ⟨files, hfiles, hsources⟩ := exists_of_bind_eq_ok hsources
  cases hsources
  obtain ⟨rfl, hall⟩ := fileNames_eq hfiles
  exact ⟨rfl, hall⟩

/-- What stands in a directory whose names could all be looked at is listed, and its path is not
too long to lead there. -/
theorem standing_of_find? (h : IsDirectoryAt d p loc)
    (hall : ∀ name ∈ d.list p.text, ∃ kind, d.status (p.child name).text = .ok kind) {e : Entry}
    (hfind : d.find? (loc ++ [name]) = some e) :
    name ∈ d.list p.text ∧ d.locate (p.child name).text = .ok (loc ++ [name]) ∧
      d.status (p.child name).text = .ok (some e.kind) := by
  have hmem : name ∈ d.list p.text :=
    (Disk.mem_list_iff h.located).mpr ⟨e, Disk.mem_entries_of_find? hfind (by simp)⟩
  obtain ⟨kind, hkind⟩ := hall name hmem
  obtain ⟨hlocate, rfl⟩ := status_child h (Disk.isName_of_find? h.tree hfind) hkind
  rw [hfind] at hkind
  exact ⟨hmem, hlocate, hkind⟩

/-- A name in a directory is listed with the status of a file exactly if a file stands there. -/
theorem status_eq_file_iff (h : IsDirectoryAt d p loc)
    (hall : ∀ name ∈ d.list p.text, ∃ kind, d.status (p.child name).text = .ok kind) :
    name ∈ d.list p.text ∧ d.status (p.child name).text = .ok (some .file) ↔
      ∃ bytes, d.find? (loc ++ [name]) = some (.file bytes) := by
  constructor
  · rintro ⟨hmem, hstatus⟩
    obtain ⟨e, hentry⟩ := (Disk.mem_list_iff h.located).mp hmem
    obtain ⟨e', hfind⟩ := Option.isSome_iff_exists.mp (Disk.isSome_find?_of_mem hentry)
    obtain ⟨-, -, hkind⟩ := standing_of_find? h hall hfind
    rw [hstatus] at hkind
    cases e' with
    | file bytes => exact ⟨bytes, hfind⟩
    | directory => cases hkind
  · rintro ⟨bytes, hfind⟩
    obtain ⟨hmem, -, hstatus⟩ := standing_of_find? h hall hfind
    exact ⟨hmem, hstatus⟩

theorem isListing_of_collectSources (h : IsDirectoryAt d p loc) {sources : List Path}
    (hsources : outcome (collectSources Disk.fileSystem p) d = .ok sources) :
    ∃ names, sources = names.map p.child ∧ IsListing d loc names ∧
      ∀ name ∈ names, d.locate (p.child name).text = .ok (loc ++ [name]) := by
  obtain ⟨rfl, hall⟩ := collectSources_eq_ok h hsources
  have hmem (name : String) : name ∈ sourceNames ((d.list p.text).filter fun name =>
      d.status (p.child name).text = .ok (some .file)) ↔
        (∃ bytes, d.find? (loc ++ [name]) = some (.file bytes)) ∧
          (Path.splitName name).2 = sourceSuffix := by
    rw [mem_sourceNames, List.mem_filter, decide_eq_true_eq, status_eq_file_iff h hall]
  refine ⟨_, rfl, ⟨hmem, ?_⟩, fun name hname => ?_⟩
  · exact pairwise_sortTexts (((Disk.nodup_list h.tree h.located).filter _).filter _)
  · obtain ⟨⟨bytes, hfind⟩, -⟩ := (hmem name).mp hname
    exact (standing_of_find? h hall hfind).2.1

end

/-! ## Contributions -/

/-- What a file of a directory contributes under its name: what its text is translated to on its
own, or one issue if its bytes are no text. -/
inductive Contributes (name : String) (bytes : List UInt8) : Part → Prop
  | translated {text : List Char} {w : Writer} {tally : Tally}
    (hdecode : Utf8.decode bytes = .ok text)
    (htranslate : translateSource (normalizeBreaks text) name {} = (w, .ok tally)) :
    Contributes name bytes ⟨w.output.text, tally⟩
  | unreadable {f : Utf8.Fault} (hdecode : Utf8.decode bytes = .error f) :
    Contributes name bytes
      ⟨"", ⟨0, [⟨.io, name, 0, "cannot read source: " ++ f.message, ""⟩]⟩⟩

/-- An output without an end is never closed. -/
theorem translateLines_ne_closed (file : String) (n : Naming) (blocks : Array (List Line))
    (lines : List SourceLine) :
    (translateLines file ⟨n, ⟨none, blocks⟩⟩ lines).2 ≠ .error .closed := by
  induction lines generalizing n blocks with
  | nil => exact nofun
  | cons line lines ih =>
    have hmap {n : Naming} {blocks : Array (List Line)} (f : Tally → Tally) :
        (translateLines file ⟨n, ⟨none, blocks⟩⟩ lines).2.map f ≠ .error .closed := by
      intro h
      cases hresult : (translateLines file ⟨n, ⟨none, blocks⟩⟩ lines).2 with
      | ok tally => rw [hresult] at h; cases h
      | error a =>
        rw [hresult] at h
        cases h
        exact ih n blocks hresult
    rw [translateLines]
    split
    · exact nofun
    · exact ih n blocks
    · exact hmap _
    · next c _ =>
      rw [write_unbounded]
      cases (c.block n).refusal with
      | none => exact hmap _
      | some r => exact hmap _

theorem contributes_of_ofContents {name : String} {bytes : List UInt8} {part : Part}
    (h : Part.ofContents name (.ok bytes) = .ok part) : Contributes name bytes part := by
  unfold Part.ofContents at h
  dsimp only at h
  split at h
  · next f hdecode =>
    cases h
    exact .unreadable hdecode
  · next text hdecode =>
    unfold Part.ofText at h
    split at h
    · next w tally htranslate =>
      cases h
      exact .translated hdecode htranslate
    · cases h
    · next w htranslate =>
      exact absurd (congrArg Prod.snd htranslate) (translateLines_ne_closed name _ _ _)

theorem forall₂_of_mapM_eq_ok {α β ε : Type} {f : α → Except ε β} {as : List α} {bs : List β}
    (h : as.mapM f = .ok bs) : List.Forall₂ (fun a b => f a = .ok b) as bs := by
  induction as generalizing bs with
  | nil =>
    cases h
    exact .nil
  | cons a as ih =>
    rw [List.mapM_cons] at h
    obtain ⟨b, hb, h⟩ := exists_of_bind_eq_ok h
    obtain ⟨rest, hrest, h⟩ := exists_of_bind_eq_ok h
    cases h
    exact .cons hb (ih hrest)

/-- What a file of a directory contributes is told by its name and its bytes. -/
theorem contributes_of_contribution {d : Disk} {p : Path} {loc : Location} {name : String}
    {bytes : List UInt8} {part : Part} (h : IsDirectoryAt d p loc)
    (hfind : d.find? (loc ++ [name]) = some (.file bytes))
    (hlocate : d.locate (p.child name).text = .ok (loc ++ [name]))
    (hpart : contribution Disk.fileSystem d (p.child name) = .ok part) :
    Contributes name bytes part := by
  have hnull := holdsNull_child h.plain (Disk.isName_of_find? h.tree hfind).noNull
  have hread : d.read (p.child name).text = .ok bytes :=
    Disk.read_eq_ok_iff.mpr ⟨hnull, _, hlocate, hfind⟩
  rw [contribution, outcome_read, hread, Path.name_child] at hpart
  exact contributes_of_ofContents hpart

/-- Each file of a directory contributes one part, in order. -/
theorem forall₂_contributes {d : Disk} {p : Path} {loc : Location} {names : List String}
    {parts : List Part} (h : IsDirectoryAt d p loc) (hlisting : IsListing d loc names)
    (hlocated : ∀ name ∈ names, d.locate (p.child name).text = .ok (loc ++ [name]))
    (hparts : (names.map p.child).mapM (contribution Disk.fileSystem d) = .ok parts) :
    List.Forall₂ (fun name part => ∃ bytes, d.find? (loc ++ [name]) = some (.file bytes) ∧
      Contributes name bytes part) names parts := by
  have hsources := forall₂_of_mapM_eq_ok hparts
  rw [List.forall₂_map_left_iff] at hsources
  have hstanding : ∀ name ∈ names, (∃ bytes, d.find? (loc ++ [name]) = some (.file bytes)) ∧
      d.locate (p.child name).text = .ok (loc ++ [name]) :=
    fun name hname => ⟨((hlisting.files name).mp hname).1, hlocated name hname⟩
  refine ((List.forall₂_and_left names parts).mpr ⟨hstanding, hsources⟩).imp ?_
  rintro name part ⟨⟨⟨bytes, hfind⟩, hlocate⟩, hpart⟩
  exact ⟨bytes, hfind, contributes_of_contribution h hfind hlocate hpart⟩

/-! ## The output of a directory -/

/-- What a job leaves that has written a text to its output: the output holds the text, a pending
file that was there is gone, and everything else is as it was. -/
structure OutputWritten (d d' : Disk) (output : Path) (text : String) : Prop where
  current : d'.current = d.current
  written : d'.read output.text = .ok (Utf8.encode text)
  others : ∃ here there, d.locate output.pending.text = .ok here ∧
    d.locate output.text = .ok there ∧ d'.find? here = none ∧
    ∀ loc, loc ≠ here → loc ≠ there → d'.find? loc = d.find? loc

theorem outputWritten_of_saved {d d' : Disk} (hd : d.find? d.current = some .directory) {p : Path}
    (hp : p.IsNormal) (hname : p.name ≠ "") {stray : Utf8.StandIns} {texts : List String}
    (h : SaveResult stray d p texts (.ok ()) d') : OutputWritten d d' p (String.join texts) := by
  cases h with
  | @saved here there hhere hfile hthere htarget hdots hnull =>
  obtain ⟨base, -, -, rfl, hbase⟩ := Disk.locate_pending hd hp hname hhere
  have hne : there ≠ base ++ [p.name ++ pendingSuffix] := by
    obtain rfl : there = Disk.follow base p.name := Except.ok.inj (hthere.symm.trans hbase)
    exact Disk.follow_ne_pending _ _
  have herased := Disk.sameDirectories_erase hfile
  have htarget' : (d.erase (base ++ [p.name ++ pendingSuffix])).find? there ≠ some .directory := by
    rw [ne_eq, herased.directory]
    exact htarget
  have hinserted := Disk.sameDirectories_insert htarget' (Utf8.encode (String.join texts))
  have hthere_ne := Disk.ne_nil_of_find?_ne htarget
  have hhere_ne := Disk.ne_nil_of_find?_ne hfile
  refine ⟨rfl, Disk.read_eq_ok_iff.mpr ⟨?null, there, ?located, ?found⟩, _, there, hhere, hthere,
    ?pending, ?frame⟩
  case null =>
    rw [Path.text_pending hname, holdsNull_append, Bool.or_eq_false_iff] at hnull
    exact hnull.1
  case located => rwa [hinserted.locate_eq_ok_iff, herased.locate_eq_ok_iff]
  case found => rw [Disk.find?_insert _ hthere_ne, if_pos rfl]
  case pending =>
    rw [Disk.find?_insert _ hthere_ne, if_neg hne.symm, Disk.find?_erase _ hhere_ne, if_pos rfl]
  case frame =>
    intro loc hloc hloc'
    rw [Disk.find?_insert _ hthere_ne, if_neg hloc', Disk.find?_erase _ hhere_ne, if_neg hloc]

/-- The output of a directory is made of its files: their names, and what each contributes. -/
structure IsDirectoryOutput (d d' : Disk) (input : Path) (loc : Location) (start : Bool)
    (report : Report) (names : List String) (parts : List Part) : Prop where
  listing : IsListing d loc names
  sources : report.sources = names.map input.child
  contributed : List.Forall₂
    (fun name part => ∃ bytes, d.find? (loc ++ [name]) = some (.file bytes) ∧
      Contributes name bytes part) names parts
  written : OutputWritten d d' report.output
    ((if start then render bootstrapBlock else "") ++ String.join (parts.map Part.text))
  issues : report.issues = parts.flatMap fun part => part.tally.issues
  commands : report.commands = (parts.map fun part => part.tally.commands).sum

/-- By default the output of a directory stands in it under the directory's own name. -/
theorem outcome_outputPath {d : Disk} {p : Path}
    (h : d.status p.text = .ok (some .directory)) :
    outcome (outputPath Disk.fileSystem p) d =
      .ok (p.child ((d.resolve p.text).getLast?.getD "" ++ outputSuffix)) := by
  rw [outputPath, outcome_bind (looksOnly_fileSystem.status _), outcome_status, h]
  rfl

theorem countCommands_eq (parts : List Part) :
    countCommands parts = (parts.map fun part => part.tally.commands).sum := by
  induction parts with
  | nil => rfl
  | cons part parts ih => rw [countCommands, ih, List.map_cons, List.sum_cons]

/-- If the job of a directory succeeds, its output is what the files of the directory are
translated to one by one, in the order of their names. -/
theorem directory_output {d d' : Disk} (hd : d.IsTree) (input : String) (output : Option String)
    (bootstrap : Option Bool) (workers : Int) (turns : List Nat) {report : Report}
    (hinput : d.status (Path.ofString input).text = .ok (some .directory))
    (h : (Job.run Disk.fileSystem ⟨Path.ofString input, output.map Path.ofString, bootstrap⟩
      workers turns).run.run d = (.ok report, d')) :
    ∃ loc names parts, d.locate (Path.ofString input).text = .ok loc ∧ names ≠ [] ∧
      report.output = (output.map Path.ofString).getD
        ((Path.ofString input).child ((d.resolve (Path.ofString input).text).getLast?.getD "" ++
          outputSuffix)) ∧
      IsDirectoryOutput d d' (Path.ofString input) loc (bootstrap.getD true) report names
        parts := by
  have hp := Path.isNormal_ofString input
  obtain ⟨hplain, loc, hloc, hdirectory⟩ := Disk.status_eq_directory_iff.mp hinput
  have hat : IsDirectoryAt d (Path.ofString input) loc := ⟨hd, hp, hplain, hloc, hdirectory⟩
  obtain ⟨f, -, hrun⟩ | ⟨draft, d₁, houtcome, ⟨f, hrun, -⟩ | ⟨hrun, hresult⟩⟩ :=
    run_job_cases {} [] d ⟨Path.ofString input, output.map Path.ofString, bootstrap⟩ workers turns
  · rw [Disk.fragile_none, h] at hrun
    cases hrun
  · rw [Disk.fragile_none, h] at hrun
    cases hrun
  rw [Disk.fragile_none, h] at hrun
  obtain ⟨hreport, rfl⟩ := Prod.mk.inj hrun
  obtain rfl := Except.ok.inj hreport
  rw [Disk.fragile_none] at houtcome
  obtain ⟨sources, kind, parts, hdraft⟩ := Job.isDraft_of_outcome looksOnly_fileSystem houtcome
  have hkind := hdraft.status
  rw [outcome_status, hinput] at hkind
  obtain rfl := Except.ok.inj hkind
  obtain ⟨names, rfl, hlisting, hlocated⟩ := isListing_of_collectSources hat hdraft.collected
  have hreport := hdraft.report
  refine ⟨loc, names, parts, hloc, ?nonempty, ?target, hlisting, ?sources, ?contributed, ?written,
    ?issues, ?commands⟩
  case nonempty => simpa using hdraft.nonempty
  case target =>
    have htarget := hdraft.target
    cases output with
    | some output => exact (Except.ok.inj htarget).symm
    | none => exact (Except.ok.inj ((outcome_outputPath hinput).symm.trans htarget)).symm
  case sources => rw [hreport]
  case contributed => exact forall₂_contributes hat hlisting hlocated hdraft.translated
  case written =>
    have htext : draft.text = (if bootstrap.getD true then render bootstrapBlock else "") ++
        String.join (parts.map Part.text) := hdraft.text_eq
    rw [← htext]
    have hnormal := isNormal_target {} hd hdraft.target
    exact outputWritten_of_saved hd.current hnormal hdraft.named hresult
  case issues => rw [hreport]
  case commands => rw [hreport, countCommands_eq]

theorem directory_output_work :
    workDisk.IsTree ∧ workDisk.status (Path.ofString ".").text = .ok (some .directory) ∧
    ∃ report d',
      (Job.run Disk.fileSystem ⟨Path.ofString ".", none, none⟩ 2 [1, 0, 0]).run.run workDisk =
        (.ok report, d') ∧
      ∃ loc names parts, workDisk.locate (Path.ofString ".").text = .ok loc ∧ names ≠ [] ∧
        report.output = (none : Option Path).getD
          ((Path.ofString ".").child
            ((workDisk.resolve (Path.ofString ".").text).getLast?.getD "" ++ outputSuffix)) ∧
        IsDirectoryOutput workDisk d' (Path.ofString ".") loc true report names parts := by
  have hstatus : workDisk.status (Path.ofString ".").text = .ok (some .directory) := by decide
  have hsucceeds : ((Job.run Disk.fileSystem ⟨Path.ofString ".", none, none⟩ 2
      [1, 0, 0]).run.run workDisk).1.toBool = true := by decide +kernel
  refine ⟨isTree_workDisk, hstatus, ?_⟩
  rcases hrun : (Job.run Disk.fileSystem ⟨Path.ofString ".", none, none⟩ 2
      [1, 0, 0]).run.run workDisk with ⟨r, d'⟩
  rw [hrun] at hsucceeds
  cases r with
  | error f => cases hsucceeds
  | ok report =>
    exact ⟨report, d', rfl,
      directory_output isTree_workDisk "." none none 2 [1, 0, 0] hstatus hrun⟩

end VmToHack
