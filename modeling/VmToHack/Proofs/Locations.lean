import Mathlib.Data.List.Basic
import VmToHack.Lowering.Job
import VmToHack.Files.Disk
set_option autoImplicit false

/-!
# Locations: where written paths lead

A path is written as a text, and a disk walks along the components of this text.  For a path
that has been read from a text the two agree (`components_text`): nothing is lost in writing it
but empty components, which lead nowhere.  So the walk goes along the parts (`locate_text`), a
child is located in the directory (`locate_child`), and a pending output beside the output
(`locate_pending`).
-/

namespace VmToHack

/-! ## Normal paths -/

/-- A path as it is read from a text. -/
structure Path.IsNormal (p : Path) : Prop where
  root : p.root = "" ∨ p.root = "/" ∨ p.root = "//"
  parts : ∀ part ∈ p.parts, part ≠ "" ∧ part ≠ "." ∧ '/' ∉ part.toList

theorem slash_not_mem_of_mem_splitSlashes {cs piece : List Char} (h : piece ∈ splitSlashes cs) :
    '/' ∉ piece := by
  induction cs generalizing piece with
  | nil =>
    obtain rfl := List.mem_singleton.mp h
    exact List.not_mem_nil
  | cons c cs ih =>
    rw [splitSlashes] at h
    split at h
    · rcases List.mem_cons.mp h with rfl | h
      · exact List.not_mem_nil
      · exact ih h
    · next hc =>
      split at h
      · obtain rfl := List.mem_singleton.mp h
        simpa using Ne.symm hc
      · next first rest hsplit =>
        rw [hsplit] at ih
        rcases List.mem_cons.mp h with rfl | h
        · simpa using ⟨Ne.symm hc, ih List.mem_cons_self⟩
        · exact ih (List.mem_cons_of_mem _ h)

theorem slash_not_mem_of_mem_components {part path : String} (h : part ∈ components path) :
    '/' ∉ part.toList := by
  obtain ⟨piece, hpiece, rfl⟩ := List.mem_map.mp h
  simpa using slash_not_mem_of_mem_splitSlashes hpiece

theorem Path.isNormal_ofString (s : String) : (Path.ofString s).IsNormal := by
  constructor
  · unfold Path.ofString
    dsimp only
    split <;> simp
  · intro part hpart
    obtain ⟨hmem, hkeep⟩ := List.mem_filter.mp hpart
    simp only [Bool.and_eq_true, decide_eq_true_eq] at hkeep
    exact ⟨hkeep.1, hkeep.2, slash_not_mem_of_mem_components hmem⟩

/-! ## Components of a text -/

theorem splitSlashes_of_not_mem {piece : List Char} (h : '/' ∉ piece) :
    splitSlashes piece = [piece] := by
  induction piece with
  | nil => rfl
  | cons c cs ih =>
    simp only [List.mem_cons, not_or] at h
    obtain ⟨hc, hcs⟩ := h
    rw [splitSlashes, if_neg (Ne.symm hc), ih hcs]

/-- A slash ends a piece. -/
theorem splitSlashes_append_slash {piece : List Char} (h : '/' ∉ piece) (rest : List Char) :
    splitSlashes (piece ++ '/' :: rest) = piece :: splitSlashes rest := by
  induction piece with
  | nil => rw [List.nil_append, splitSlashes, if_pos rfl]
  | cons c cs ih =>
    simp only [List.mem_cons, not_or] at h
    obtain ⟨hc, hcs⟩ := h
    rw [List.cons_append, splitSlashes, if_neg (Ne.symm hc), ih hcs]

/-- Pieces with slashes between them fall apart into these pieces. -/
theorem splitSlashes_intercalate {pieces : List (List Char)} (hne : pieces ≠ [])
    (h : ∀ piece ∈ pieces, '/' ∉ piece) :
    splitSlashes (['/'].intercalate pieces) = pieces := by
  induction pieces with
  | nil => exact absurd rfl hne
  | cons piece pieces ih =>
    obtain ⟨hpiece, hpieces⟩ := List.forall_mem_cons.mp h
    cases pieces with
    | nil => rw [List.intercalate_singleton, splitSlashes_of_not_mem hpiece]
    | cons next pieces =>
      rw [List.intercalate_cons_cons, List.append_assoc, List.singleton_append,
        splitSlashes_append_slash hpiece, ih (List.cons_ne_nil _ _) hpieces]

theorem components_slash_append (s : String) : components ("/" ++ s) = "" :: components s := by
  unfold components
  rw [String.toList_append]
  exact congrArg (List.map String.ofList)
    (splitSlashes_append_slash List.not_mem_nil s.toList)

namespace Path

/-- The components with which a path begins that starts at the root. -/
def rootComponents (p : Path) : List String := List.replicate p.root.length ""

variable {p : Path}

theorem components_root_append (hp : p.IsNormal) (s : String) :
    components (p.root ++ s) = p.rootComponents ++ components s := by
  unfold rootComponents
  rcases hp.root with h | h | h <;> rw [h]
  · simp
  · exact components_slash_append s
  · have htwo : "//" ++ s = "/" ++ ("/" ++ s) := by rw [← String.append_assoc]; rfl
    rw [htwo, components_slash_append, components_slash_append]
    rfl

/-- A path with parts is written with these parts. -/
theorem components_text (hp : p.IsNormal) (hparts : p.parts ≠ []) :
    components p.text = p.rootComponents ++ p.parts := by
  have hwritten : p.text = p.root ++ "/".intercalate p.parts := by simp [text, hparts]
  have hsplit : splitSlashes (['/'].intercalate (p.parts.map String.toList)) =
      p.parts.map String.toList := by
    refine splitSlashes_intercalate (by simpa using hparts) fun piece hpiece => ?_
    obtain ⟨part, hpart, rfl⟩ := List.mem_map.mp hpiece
    exact (hp.parts part hpart).2.2
  rw [hwritten, components_root_append hp, components, String.toList_intercalate]
  simp [show "/".toList = ['/'] from rfl, hsplit, Function.comp_def]

/-- The path without parts is written as a dot, or as the slashes with which it starts. -/
theorem text_of_parts_eq_nil (hparts : p.parts = []) :
    p.text = if p.root = "" then "." else p.root := by
  unfold text
  simp only [hparts, List.isEmpty_nil, Bool.and_true, decide_eq_true_eq]
  split <;> simp

theorem text_of_root_ne_empty (hroot : p.root ≠ "") :
    p.text = p.root ++ "/".intercalate p.parts := by
  simp [text, hroot]

theorem text_of_parts_ne_nil (hparts : p.parts ≠ []) :
    p.text = p.root ++ "/".intercalate p.parts := by
  simp [text, hparts]

theorem text_ne_empty (hp : p.IsNormal) : p.text ≠ "" := by
  intro htext
  by_cases hparts : p.parts = []
  · rw [text_of_parts_eq_nil hparts] at htext
    rcases hp.root with h | h | h <;> simp [h] at htext
  · obtain ⟨part, hpart⟩ := List.exists_mem_of_ne_nil _ hparts
    have hmem : part ∈ components p.text := by
      rw [components_text hp hparts]
      exact List.mem_append_right _ hpart
    rw [htext] at hmem
    exact (hp.parts part hpart).1 (List.mem_singleton.mp hmem)

/-- A name is written behind the directory in which it stands. -/
theorem text_child (hparts : p.parts ≠ []) (name : String) :
    (p.child name).text = p.text ++ "/" ++ name := by
  rw [text_of_parts_ne_nil hparts, text_of_parts_ne_nil (by simp [child])]
  simp [child, String.intercalate_append_of_ne_nil hparts, String.append_assoc]

theorem text_child_of_parts_eq_nil (hparts : p.parts = []) (name : String) :
    (p.child name).text = p.root ++ name := by
  rw [text_of_parts_ne_nil (by simp [child])]
  simp [child, hparts]

theorem exists_parts (hname : p.name ≠ "") : ∃ front, p.parts = front ++ [p.name] := by
  unfold Path.name at hname ⊢
  cases hlast : p.parts.getLast? with
  | none => simp [hlast] at hname
  | some last =>
    obtain ⟨front, hfront⟩ := List.getLast?_eq_some_iff.mp hlast
    exact ⟨front, hfront⟩

theorem IsNormal.slash_not_mem_name (hp : p.IsNormal) : '/' ∉ p.name.toList := by
  by_cases hname : p.name = ""
  · rw [hname]
    exact List.not_mem_nil
  · obtain ⟨front, hfront⟩ := exists_parts hname
    exact (hp.parts p.name (by simp [hfront])).2.2

/-- In front of its suffix a name has no other characters. -/
theorem splitName_subset (name : String) : (splitName name).1.toList ⊆ name.toList := by
  unfold splitName
  dsimp only
  split
  · next c cs hdrop =>
    split
    · exact List.Subset.refl _
    · intro x hx
      have hmem : x ∈ name.toList.reverse.dropWhile (· ≠ '.') := by
        rw [hdrop]
        refine List.mem_cons_of_mem _ ?_
        rwa [String.toList_ofList, List.mem_reverse] at hx
      simpa using (List.dropWhile_suffix _).subset hmem
  · exact List.Subset.refl _

/-- A pending output is written as the output with the suffix behind it. -/
theorem text_pending (hname : p.name ≠ "") : p.pending.text = p.text ++ pendingSuffix := by
  obtain ⟨front, hfront⟩ := exists_parts hname
  have hparts : p.parts ≠ [] := by simp [hfront]
  have hpending : p.pending.parts = front ++ [p.name ++ pendingSuffix] := by
    simp [pending, withName, hfront]
  rw [text_of_parts_ne_nil hparts, text_of_parts_ne_nil (by simp [hpending]), hpending, hfront]
  by_cases hempty : front = []
  · simp [hempty, pending, withName, String.append_assoc]
  · simp [String.intercalate_append_of_ne_nil hempty, pending, withName, String.append_assoc]

end Path

/-! ## Walking -/

namespace Disk

variable {d : Disk} {p : Path} {loc : Location}

/-- Where a path starts. -/
def startOf (d : Disk) (p : Path) : Location := if p.root = "" then d.current else []

/-- Where the parts of a path lead. -/
def reach (d : Disk) (p : Path) : Except OsCause Location := p.parts.foldlM d.walk (d.startOf p)

theorem walk_empty (h : d.find? loc = some .directory) : d.walk loc "" = .ok loc := by
  simp [walk, h, follow, nameLimit]

theorem walk_dot (h : d.find? loc = some .directory) : d.walk loc "." = .ok loc := by
  unfold walk
  rw [h]
  rfl

theorem walk_replicate_empty (h : d.find? loc = some .directory) (n : Nat) :
    (List.replicate n "").foldlM d.walk loc = .ok loc := by
  induction n with
  | zero => rfl
  | succ n ih =>
    rw [List.replicate_succ, List.foldlM_cons, walk_empty h]
    exact ih

theorem find?_root (d : Disk) : d.find? [] = some .directory := by simp [find?]

theorem find?_startOf (hd : d.find? d.current = some .directory) (p : Path) :
    d.find? (d.startOf p) = some .directory := by
  unfold startOf
  split
  · exact hd
  · exact d.find?_root

/-- A path starts at the root exactly if its text starts with a slash. -/
theorem head?_text (hp : p.IsNormal) : p.text.toList.head? = some '/' ↔ p.root ≠ "" := by
  constructor
  · intro hhead hroot
    by_cases hparts : p.parts = []
    · rw [Path.text_of_parts_eq_nil hparts, if_pos hroot] at hhead
      cases hhead
    · -- a slash in front would make the first part empty
      obtain ⟨rest, hrest⟩ := List.head?_eq_some_iff.mp hhead
      have hfirst : "" ∈ components p.text := by
        rw [components, hrest, splitSlashes, if_pos rfl]
        exact List.mem_cons_self
      rw [Path.components_text hp hparts, Path.rootComponents, hroot] at hfirst
      exact (hp.parts _ hfirst).1 rfl
  · intro hroot
    rw [Path.text_of_root_ne_empty hroot, String.toList_append]
    rcases hp.root with h | h | h
    · exact absurd h hroot
    · rw [h]; rfl
    · rw [h]; rfl

theorem origin_text (d : Disk) (hp : p.IsNormal) : d.origin p.text = d.startOf p := by
  unfold origin startOf
  by_cases hroot : p.root = ""
  · rw [if_pos hroot, if_neg (fun h => (head?_text hp).mp h hroot)]
  · rw [if_neg hroot, if_pos ((head?_text hp).mpr hroot)]

/-- The walk along a text leads where the parts of the path lead. -/
theorem walk_components_text (hd : d.find? d.current = some .directory) (hp : p.IsNormal) :
    (components p.text).foldlM d.walk (d.startOf p) = d.reach p := by
  have hstart := find?_startOf hd p
  unfold reach
  by_cases hparts : p.parts = []
  · rw [hparts, List.foldlM_nil]
    by_cases hroot : p.root = ""
    · have hdot : components "." = ["."] := by decide
      rw [Path.text_of_parts_eq_nil hparts, if_pos hroot, hdot, List.foldlM_cons, walk_dot hstart]
      rfl
    · have hnone : components ("/".intercalate []) = [""] := by decide
      rw [Path.text_of_root_ne_empty hroot, Path.components_root_append hp, hparts, hnone,
        Path.rootComponents, ← List.replicate_succ']
      exact walk_replicate_empty hstart _
  · rw [Path.components_text hp hparts, List.foldlM_append, Path.rootComponents,
      walk_replicate_empty hstart]
    rfl

theorem locate_text (hd : d.find? d.current = some .directory) (hp : p.IsNormal) :
    d.locate p.text = if pathLimit < p.text.utf8ByteSize then .error .tooLong else d.reach p := by
  rw [locate, if_neg (Path.text_ne_empty hp), origin_text d hp, walk_components_text hd hp]

theorem walk_eq_ok_iff {component : String} {loc' : Location} :
    d.walk loc component = .ok loc' ↔
      d.find? loc = some .directory ∧ component.utf8ByteSize ≤ nameLimit ∧
        follow loc component = loc' := by
  unfold walk
  split
  · next h => simp [h]
  · next h => simp [h]
  · next h =>
    rw [h]
    by_cases hsize : component.utf8ByteSize ≤ nameLimit <;> simp [hsize]

theorem follow_of_ne {name : String} (h : name ≠ "" ∧ name ≠ "." ∧ name ≠ "..") (loc : Location) :
    follow loc name = loc ++ [name] := by
  simp [follow, h.1, h.2.1, h.2.2]

theorem mem_of_mem_follow {part name : String} (h : name ∈ follow loc part) :
    name ∈ loc ∨ name = part := by
  unfold follow at h
  split at h
  · exact .inl h
  · split at h
    · exact .inl (List.dropLast_subset _ h)
    · simpa using h

/-- The names on the way to a place come from where the way begins and from the path. -/
theorem mem_of_mem_foldl_follow {parts : List String} {name : String}
    (h : name ∈ parts.foldl follow loc) : name ∈ loc ∨ name ∈ parts := by
  induction parts generalizing loc with
  | nil => exact .inl h
  | cons part parts ih =>
    rcases ih h with hmem | hmem
    · rcases mem_of_mem_follow hmem with hmem | rfl
      · exact .inl hmem
      · exact .inr List.mem_cons_self
    · exact .inr (List.mem_cons_of_mem _ hmem)

/-- The last part of a path is looked for where the other ones lead. -/
theorem reach_of_parts_eq {front : List String} {name : String} (h : p.parts = front ++ [name]) :
    d.reach p = front.foldlM d.walk (d.startOf p) >>= fun base => d.walk base name := by
  rw [reach, h, List.foldlM_append]
  simp

theorem reach_child (p : Path) (name : String) :
    d.reach (p.child name) = d.reach p >>= fun base => d.walk base name :=
  reach_of_parts_eq rfl

/-- Where a path leads, if it is not too long. -/
theorem locate_eq_ok_iff (hd : d.find? d.current = some .directory) (hp : p.IsNormal) :
    d.locate p.text = .ok loc ↔ p.text.utf8ByteSize ≤ pathLimit ∧ d.reach p = .ok loc := by
  rw [locate_text hd hp]
  split
  · next hlong => exact iff_of_false nofun fun h => Nat.not_lt_of_le h.1 hlong
  · next hshort => simp [Nat.le_of_not_lt hshort]

end Disk

/-! ## Names in directories -/

/-- A name that can stand in a directory. -/
structure IsName (name : String) : Prop where
  plain : name ≠ "" ∧ name ≠ "." ∧ name ≠ ".."
  noSlash : '/' ∉ name.toList
  noNull : holdsNull name = false
  size : name.utf8ByteSize ≤ Disk.nameLimit

theorem holdsNull_append (s t : String) : holdsNull (s ++ t) = (holdsNull s || holdsNull t) := by
  simp [holdsNull]

/-- A name with a suffix is not one of those that lead elsewhere. -/
theorem plain_append {suffix : String} (h : 3 ≤ suffix.toList.length) (name : String) :
    name ++ suffix ≠ "" ∧ name ++ suffix ≠ "." ∧ name ++ suffix ≠ ".." := by
  have hlength : 3 ≤ (name ++ suffix).toList.length := by
    rw [String.toList_append, List.length_append]
    omega
  refine ⟨?_, ?_, ?_⟩ <;> intro h <;> rw [h] at hlength <;> exact absurd hlength (by decide)

theorem pending_plain (name : String) :
    name ++ pendingSuffix ≠ "" ∧ name ++ pendingSuffix ≠ "." ∧ name ++ pendingSuffix ≠ ".." :=
  plain_append (by decide) name

namespace Path

variable {p : Path}

/-- A path is normal that goes the way of a normal one, or a part of it, and then to a name. -/
theorem isNormal_concat (hp : p.IsNormal) {front : List String} (hfront : front ⊆ p.parts)
    {name : String} (hname : name ≠ "") (hdot : name ≠ ".") (hslash : '/' ∉ name.toList) :
    IsNormal ⟨p.root, front ++ [name]⟩ where
  root := hp.root
  parts part hpart := by
    rcases List.mem_append.mp hpart with h | h
    · exact hp.parts part (hfront h)
    · obtain rfl := List.mem_singleton.mp h
      exact ⟨hname, hdot, hslash⟩

theorem IsNormal.pending (hp : p.IsNormal) (hname : p.name ≠ "") : p.pending.IsNormal := by
  obtain ⟨front, hfront⟩ := exists_parts hname
  have hslash := (hp.parts p.name (by simp [hfront])).2.2
  refine isNormal_concat hp (List.dropLast_subset _) (pending_plain _).1 (pending_plain _).2.1 ?_
  simpa [pendingSuffix] using hslash

theorem holdsNull_name (hname : p.name ≠ "") (htext : holdsNull p.text = false) :
    holdsNull p.name = false := by
  obtain ⟨front, hfront⟩ := exists_parts hname
  have hnull : (holdsNull (p.root ++ "/".intercalate (front ++ [p.name]))) = false := by
    rw [← hfront, ← text_of_parts_ne_nil (by simp [hfront])]
    exact htext
  by_cases hempty : front = []
  · rw [hempty, List.nil_append, String.intercalate_singleton, holdsNull_append,
      Bool.or_eq_false_iff] at hnull
    exact hnull.2
  · rw [String.intercalate_append_of_ne_nil hempty (by simp), String.intercalate_singleton,
      holdsNull_append, holdsNull_append, Bool.or_eq_false_iff, Bool.or_eq_false_iff] at hnull
    exact hnull.2.2

/-- Only `..` ends in dots among the paths with a name. -/
theorem endsInDots_text (hp : p.IsNormal) (hname : p.name ≠ "") :
    Disk.endsInDots p.text = decide (p.name = "..") := by
  obtain ⟨front, hfront⟩ := exists_parts hname
  have hdot := (hp.parts p.name (by simp [hfront])).2.1
  have hlast : (components p.text).getLast? = some p.name := by
    rw [components_text hp (by simp [hfront]), hfront]
    simp
  simp [Disk.endsInDots, hlast, hdot]

end Path

namespace Disk

variable {d : Disk} {p : Path} {loc : Location}

/-- A name in a directory is located there. -/
theorem locate_child (hd : d.find? d.current = some .directory) (hp : p.IsNormal) {name : String}
    (hname : IsName name) (hloc : d.locate p.text = .ok loc)
    (hdirectory : d.find? loc = some .directory) :
    d.locate (p.child name).text =
      if pathLimit < (p.child name).text.utf8ByteSize then .error .tooLong
      else .ok (loc ++ [name]) := by
  obtain ⟨-, hreach⟩ := (locate_eq_ok_iff hd hp).mp hloc
  have hwalk : d.walk loc name = .ok (loc ++ [name]) :=
    walk_eq_ok_iff.mpr ⟨hdirectory, hname.size, follow_of_ne hname.plain loc⟩
  have hchild : (p.child name).IsNormal := Path.isNormal_concat hp (List.Subset.refl _)
    hname.plain.1 hname.plain.2.1 hname.noSlash
  rw [locate_text hd hchild, reach_child, hreach]
  split
  · rfl
  · exact hwalk

/-- The pending output never stands where the output does. -/
theorem follow_ne_pending (base : Location) (name : String) :
    follow base name ≠ base ++ [name ++ pendingSuffix] := by
  intro h
  unfold follow at h
  split at h
  · simpa using congrArg List.length h
  · split at h
    · have := congrArg List.length h
      simp at this
    · have hname : name = name ++ pendingSuffix := by simpa using h
      have := congrArg (fun s => s.toList.length) hname
      simp [pendingSuffix] at this

/-- A pending output is located beside the output. -/
theorem locate_pending (hd : d.find? d.current = some .directory) (hp : p.IsNormal)
    (hname : p.name ≠ "") (hloc : d.locate p.pending.text = .ok loc) :
    ∃ base, d.find? base = some .directory ∧
      (p.name ++ pendingSuffix).utf8ByteSize ≤ nameLimit ∧
      loc = base ++ [p.name ++ pendingSuffix] ∧ d.locate p.text = .ok (follow base p.name) := by
  obtain ⟨front, hfront⟩ := Path.exists_parts hname
  have hpending : p.pending.parts = front ++ [p.name ++ pendingSuffix] := by
    simp [Path.pending, Path.withName, hfront]
  obtain ⟨hsize, hreach⟩ := (locate_eq_ok_iff hd (hp.pending hname)).mp hloc
  rw [reach_of_parts_eq hpending] at hreach
  rw [Path.text_pending hname, String.utf8ByteSize_append] at hsize
  cases hbase : front.foldlM d.walk (d.startOf p) with
  | error cause =>
    have : front.foldlM d.walk (d.startOf p.pending) = .error cause := hbase
    rw [this] at hreach
    cases hreach
  | ok base =>
    have hstart : front.foldlM d.walk (d.startOf p.pending) = .ok base := hbase
    rw [hstart] at hreach
    obtain ⟨hdirectory, hlong, rfl⟩ := walk_eq_ok_iff.mp hreach
    refine ⟨base, hdirectory, hlong, follow_of_ne (pending_plain _) base, ?_⟩
    rw [String.utf8ByteSize_append] at hlong
    refine (locate_eq_ok_iff hd hp).mpr ⟨by omega, ?_⟩
    rw [reach_of_parts_eq hfront, hbase]
    exact walk_eq_ok_iff.mpr ⟨hdirectory, by omega, rfl⟩

end Disk

end VmToHack
