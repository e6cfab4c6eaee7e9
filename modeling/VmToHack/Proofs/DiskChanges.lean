import VmToHack.Proofs.Locations
set_option autoImplicit false

/-!
# Disk changes: what file operations do to a disk

Files come and go while the directories stay; so a path that is located before is located at the
same place afterwards (`SameDirectories.locate_eq_ok_iff`).  What a write, a rename and a removal
leave is said with `insert` and `erase`, and what stands where after these with `find?`.
-/

namespace VmToHack

namespace Disk

variable {d d' : Disk} {loc : Location}

/-! ## What stands where -/

theorem lookup_filter_ne (entries : List (Location × Entry)) (here loc : Location) :
    (entries.filter fun x => x.1 ≠ here).lookup loc =
      if loc = here then none else entries.lookup loc := by
  induction entries with
  | nil => simp
  | cons x entries ih =>
    obtain ⟨there, e⟩ := x
    by_cases hthere : there = here
    · rw [List.filter_cons_of_neg (by simp [hthere]), ih, List.lookup_cons, hthere]
      by_cases hloc : loc = here
      · simp [hloc]
      · simp [hloc, beq_false_of_ne hloc]
    · rw [List.filter_cons_of_pos (by simp [hthere]), List.lookup_cons, List.lookup_cons, ih]
      by_cases hloc : loc = there
      · simp [hloc, hthere]
      · rw [beq_false_of_ne hloc]

theorem find?_of_ne_nil (d : Disk) (h : loc ≠ []) : d.find? loc = d.entries.lookup loc :=
  if_neg h

theorem find?_erase (d : Disk) {here : Location} (h : here ≠ []) (loc : Location) :
    (d.erase here).find? loc = if loc = here then none else d.find? loc := by
  by_cases hloc : loc = []
  · subst hloc
    rw [find?_root, find?_root, if_neg h.symm]
  · rw [find?_of_ne_nil _ hloc, find?_of_ne_nil _ hloc]
    exact lookup_filter_ne d.entries here loc

theorem find?_insert (d : Disk) {here : Location} (h : here ≠ []) (e : Entry) (loc : Location) :
    (d.insert here e).find? loc = if loc = here then some e else d.find? loc := by
  by_cases hloc : loc = []
  · subst hloc
    rw [find?_root, find?_root, if_neg h.symm]
  · rw [find?_of_ne_nil _ hloc, find?_of_ne_nil _ hloc, insert, List.lookup_cons,
      lookup_filter_ne]
    by_cases hhere : loc = here
    · simp [hhere]
    · simp [hhere, beq_false_of_ne hhere]

theorem erase_insert (d : Disk) (here : Location) (e : Entry) :
    (d.insert here e).erase here = d.erase here := by
  simp [insert, erase]

theorem isSome_find?_of_mem {e : Entry} (h : (loc, e) ∈ d.entries) : (d.find? loc).isSome := by
  by_cases hloc : loc = []
  · subst hloc
    simp [find?_root]
  · rw [find?_of_ne_nil d hloc, Option.isSome_iff_ne_none]
    intro hnone
    exact absurd (List.lookup_eq_none_iff.mp hnone _ h) (by simp)

theorem erase_of_find?_eq_none (h : d.find? loc = none) : d.erase loc = d := by
  have hentries : d.entries.filter (fun x => x.1 ≠ loc) = d.entries := by
    rw [List.filter_eq_self]
    intro x hx
    rw [decide_eq_true_eq]
    rintro rfl
    exact absurd (isSome_find?_of_mem hx) (by simp [h])
  rw [erase, hentries]

theorem ne_nil_of_find?_ne (h : d.find? loc ≠ some .directory) : loc ≠ [] := by
  rintro rfl
  exact h d.find?_root

/-- The entries of a disk form a tree: no location has two, each stands in a directory under a
name, and so does the current directory. -/
structure IsTree (d : Disk) : Prop where
  nodup : (d.entries.map Prod.fst).Nodup
  names : ∀ x ∈ d.entries, ∀ name ∈ x.1, IsName name
  parents : ∀ x ∈ d.entries, d.find? x.1.dropLast = some .directory
  current : d.find? d.current = some .directory

/-- What stands somewhere has an entry, unless it is the root. -/
theorem mem_entries_of_find? {e : Entry} (h : d.find? loc = some e) (hloc : loc ≠ []) :
    (loc, e) ∈ d.entries := by
  rw [find?_of_ne_nil d hloc] at h
  obtain ⟨before, after, hentries, -⟩ := List.lookup_eq_some_iff.mp h
  simp [hentries]

/-! ## The same directories -/

/-- Two disks with the same directories, of which the same one is the current one. -/
structure SameDirectories (d d' : Disk) : Prop where
  current : d'.current = d.current
  directory : ∀ loc, d'.find? loc = some .directory ↔ d.find? loc = some .directory

/-- What is located on one of the disks is located at the same place on the other one. -/
theorem SameDirectories.locate_eq_ok_iff (h : SameDirectories d d') {path : String} :
    d'.locate path = .ok loc ↔ d.locate path = .ok loc := by
  have hwalk (parts : List String) (start : Location) :
      parts.foldlM d'.walk start = .ok loc ↔ parts.foldlM d.walk start = .ok loc := by
    induction parts generalizing start with
    | nil => exact Iff.rfl
    | cons part parts ih =>
      rw [List.foldlM_cons, List.foldlM_cons]
      cases hstep : d.walk start part with
      | ok next =>
        have hstep' : d'.walk start part = .ok next := by
          rw [walk_eq_ok_iff] at hstep ⊢
          rwa [h.directory]
        rw [hstep']
        exact ih next
      | error cause =>
        cases hstep' : d'.walk start part with
        | error cause' => exact iff_of_false nofun nofun
        | ok next =>
          rw [walk_eq_ok_iff, h.directory, ← walk_eq_ok_iff, hstep] at hstep'
          cases hstep'
  have horigin : d'.origin path = d.origin path := by
    unfold origin
    rw [h.current]
  unfold locate
  rw [horigin]
  split
  · exact Iff.rfl
  · split
    · exact Iff.rfl
    · exact hwalk _ _

theorem sameDirectories_erase (h : d.find? loc ≠ some .directory) :
    SameDirectories d (d.erase loc) where
  current := rfl
  directory there := by
    rw [find?_erase d (ne_nil_of_find?_ne h)]
    split
    · next hthere => exact iff_of_false nofun (hthere ▸ h)
    · exact Iff.rfl

theorem sameDirectories_insert (h : d.find? loc ≠ some .directory) (contents : List UInt8) :
    SameDirectories d (d.insert loc (.file contents)) where
  current := rfl
  directory there := by
    rw [find?_insert d (ne_nil_of_find?_ne h)]
    split
    · next hthere => exact iff_of_false nofun (hthere ▸ h)
    · exact Iff.rfl

/-! ## Trees -/

theorem IsTree.erase (h : d.IsTree) (hfile : d.find? loc ≠ some .directory) :
    (d.erase loc).IsTree where
  nodup := h.nodup.sublist (List.filter_sublist.map _)
  names x hx := h.names x (List.mem_of_mem_filter hx)
  parents x hx := by
    rw [(sameDirectories_erase hfile).directory]
    exact h.parents x (List.mem_of_mem_filter hx)
  current := by
    rw [(sameDirectories_erase hfile).directory]
    exact h.current

theorem IsTree.insert (h : d.IsTree) (hfile : d.find? loc ≠ some .directory)
    (hnames : ∀ name ∈ loc, IsName name) (hparent : d.find? loc.dropLast = some .directory)
    (contents : List UInt8) : (d.insert loc (.file contents)).IsTree where
  nodup := by
    refine List.nodup_cons.mpr ⟨?_, h.nodup.sublist (List.filter_sublist.map _)⟩
    rintro hmem
    obtain ⟨x, hx, hloc⟩ := List.mem_map.mp hmem
    exact of_decide_eq_true (List.mem_filter.mp hx).2 hloc
  names x hx := by
    rcases List.mem_cons.mp hx with rfl | hx
    · exact hnames
    · exact h.names x (List.mem_of_mem_filter hx)
  parents x hx := by
    rw [(sameDirectories_insert hfile contents).directory]
    rcases List.mem_cons.mp hx with rfl | hx
    · exact hparent
    · exact h.parents x (List.mem_of_mem_filter hx)
  current := by
    rw [(sameDirectories_insert hfile contents).directory]
    exact h.current

theorem IsTree.isName_of_mem (h : d.IsTree) (hloc : d.find? loc = some .directory) {name : String}
    (hname : name ∈ loc) : IsName name :=
  h.names _ (mem_entries_of_find? hloc (List.ne_nil_of_mem hname)) name hname

/-- No name on the way to a place holds a slash. -/
theorem IsTree.slash_not_mem_of_mem_resolve (h : d.IsTree) {path name : String}
    (hname : name ∈ d.resolve path) : '/' ∉ name.toList := by
  rcases mem_of_mem_foldl_follow hname with hmem | hmem
  · unfold origin at hmem
    split at hmem
    · cases hmem
    · exact (h.isName_of_mem h.current hmem).noSlash
  · exact slash_not_mem_of_mem_components hmem

/-! ## Operations -/

theorem write_eq_ok_iff {path : String} {contents : List UInt8} :
    d.write path contents = .ok d' ↔
      holdsNull path = false ∧ ∃ loc, d.locate path = .ok loc ∧
        d.find? loc ≠ some .directory ∧ d' = d.insert loc (.file contents) := by
  unfold write
  split
  · next hnull => simp [hnull]
  · next hnull =>
    split
    · next hloc => simp [hloc]
    · next loc hloc =>
      split
      · next hfind => simp [hloc, hfind]
      · next hfind =>
        have hfile : d.find? loc ≠ some .directory := hfind
        simp only [hnull, hloc, Except.ok.injEq, true_and, exists_eq_left', hfile, ne_eq,
          not_false_eq_true]
        exact ⟨Eq.symm, Eq.symm⟩

/-- A path that is none is so whatever is written to it, and all else is reported by the machine. -/
theorem write_fault {path : String} {contents : List UInt8} {f : FileFault}
    (h : d.write path contents = .error f) :
    f = .embeddedNull ∧ (∀ contents' d', d.write path contents' ≠ .ok d') ∨ ∃ e, f = .os e := by
  unfold write at h
  split at h
  · next hnull =>
    cases h
    refine .inl ⟨rfl, fun contents' d' h' => ?_⟩
    rw [(write_eq_ok_iff.mp h').1] at hnull
    cases hnull
  · repeat' split at h
    all_goals cases h
    all_goals exact .inr ⟨_, rfl⟩

/-- What stands at a path after its removal is nothing, unless no file can stand there. -/
theorem remove_cases (d : Disk) (path : String) :
    (∀ contents d', d.write path contents ≠ .ok d') ∧ d.remove path = d ∨
    ∃ loc, d.locate path = .ok loc ∧ d.find? loc ≠ some .directory ∧
      d.remove path = d.erase loc := by
  unfold remove
  split
  · next cause hloc =>
    refine .inl ⟨fun contents d' h => ?_, rfl⟩
    obtain ⟨-, loc, hloc', -⟩ := write_eq_ok_iff.mp h
    rw [hloc] at hloc'
    cases hloc'
  · next loc hloc =>
    cases hfind : d.find? loc with
    | none => exact .inr ⟨loc, hloc, by simp [hfind], (erase_of_find?_eq_none hfind).symm⟩
    | some e =>
      cases e with
      | file contents => exact .inr ⟨loc, hloc, by simp [hfind], rfl⟩
      | directory =>
        refine .inl ⟨fun contents d' h => ?_, rfl⟩
        obtain ⟨-, loc', hloc', hfile, -⟩ := write_eq_ok_iff.mp h
        obtain rfl : loc = loc' := Except.ok.inj (hloc.symm.trans hloc')
        exact hfile hfind

theorem remove_eq_erase {path : String} {contents : List UInt8} (hloc : d.locate path = .ok loc)
    (hfind : d.find? loc = some (.file contents)) : d.remove path = d.erase loc := by
  simp [remove, hloc, hfind]

theorem rename_eq_ok {source target : String} (h : d.rename source target = .ok d') :
    endsInDots target = false ∧ ∃ here there contents, d.locate source = .ok here ∧
      d.locate target = .ok there ∧ d.find? here = some (.file contents) ∧
      d.find? there ≠ some .directory ∧ d' = (d.erase here).insert there (.file contents) := by
  unfold rename at h
  dsimp only at h
  split at h
  · cases h
  · split at h
    · cases h
    · cases h
    · next here there hhere hthere =>
      split at h
      · cases h
      · next hdots =>
        rw [Bool.not_eq_true] at hdots
        refine ⟨hdots, here, there, ?_⟩
        split at h
        · cases h
        · next contents hfind hnone =>
          cases h
          exact ⟨contents, hhere, hthere, hfind, by simp [hnone], rfl⟩
        · next contents _ hfind hfile =>
          cases h
          exact ⟨contents, hhere, hthere, hfind, by simp [hfile], rfl⟩
        · cases h

/-- A path with a null character is the only thing that is not reported by the machine. -/
theorem rename_fault {source target : String} (hsource : holdsNull source = false)
    (htarget : holdsNull target = false) {f : FileFault}
    (h : d.rename source target = .error f) : ∃ e, f = .os e := by
  unfold rename at h
  dsimp only at h
  rw [hsource, htarget, if_neg (by decide)] at h
  repeat' split at h
  all_goals cases h
  all_goals exact ⟨_, rfl⟩

theorem read_eq_ok_iff {path : String} {contents : List UInt8} :
    d.read path = .ok contents ↔
      holdsNull path = false ∧ ∃ loc, d.locate path = .ok loc ∧
        d.find? loc = some (.file contents) := by
  unfold read
  split
  · next hnull => simp [hnull]
  · next hnull =>
    split
    · next hloc => simp [hloc]
    · next loc hloc => split <;> simp_all

/-- A file that is located at the same place with the same contents reads the same. -/
theorem SameDirectories.read_eq (h : SameDirectories d d') {path : String}
    (hloc : d.locate path = .ok loc) (hfind : d'.find? loc = d.find? loc) :
    d'.read path = d.read path := by
  have hloc' := h.locate_eq_ok_iff.mpr hloc
  simp only [read, hloc, hloc', hfind]

/-- What has been written is read again. -/
theorem read_of_write {path : String} {contents : List UInt8}
    (h : d.write path contents = .ok d') : d'.read path = .ok contents := by
  obtain ⟨hnull, loc, hloc, hfile, rfl⟩ := write_eq_ok_iff.mp h
  have hloc' := (sameDirectories_insert hfile contents).locate_eq_ok_iff.mpr hloc
  refine read_eq_ok_iff.mpr ⟨hnull, loc, hloc', ?_⟩
  rw [find?_insert d (ne_nil_of_find?_ne hfile), if_pos rfl]

/-- A write leaves alone what stands elsewhere. -/
theorem read_of_write_of_ne {path path' : String} {contents : List UInt8}
    (h : d.write path contents = .ok d') (hloc : d.locate path' = .ok loc)
    (hne : d.locate path ≠ .ok loc) : d'.read path' = d.read path' := by
  obtain ⟨-, here, hhere, hfile, rfl⟩ := write_eq_ok_iff.mp h
  refine (sameDirectories_insert hfile contents).read_eq hloc ?_
  rw [find?_insert d (ne_nil_of_find?_ne hfile), if_neg]
  rintro rfl
  exact hne hhere

theorem status_eq_directory_iff {path : String} :
    d.status path = .ok (some .directory) ↔
      holdsNull path = false ∧ ∃ loc, d.locate path = .ok loc ∧
        d.find? loc = some .directory := by
  unfold status
  split
  · next hnull => simp [hnull]
  · next hnull =>
    split
    · next loc hloc =>
      cases hfind : d.find? loc with
      | none => simp [hloc, hfind]
      | some e => cases e <;> simp [hnull, hloc, hfind, Entry.kind]
    · next hloc => split <;> simp [hloc]

end Disk

end VmToHack
