import VmToHack.Text.Lines
import VmToHack.Text.Utf8
set_option autoImplicit false

/-!
# Files: fetching a text in blocks

A reader asks for a text in portions of so many characters.  How many bytes that
takes is not known beforehand, so the number is estimated: the characters that a
portion still lacks, times the bytes for a character in the block before.  At least
`leastBlock` bytes are fetched.

The estimate has 53 significant binary digits.  One that no machine word holds counts
for nothing, and one that memory does not hold ends the reading.

What the text is does not depend on the size of the portions (`decode_of_fetch`).  Only
the positions in a fault do, which count from the start of a block, and whether
memory is enough.
-/

namespace VmToHack

open VmToHack.Text

/-! ## Rounding -/

/-- The number nearest to a quotient; of two that are equally near, the even one. -/
def roundQuotient (p q : Nat) : Nat :=
  match compare (2 * (p % q)) q with
  | .lt => p / q
  | .eq => p / q + p / q % 2
  | .gt => p / q + 1

/-- A ratio of two numbers, the second of which is positive. -/
structure Ratio where
  num : Nat
  den : Nat
  deriving DecidableEq, Repr, Inhabited

namespace Ratio

/-- The ratio of a number to one. -/
def ofNat (n : Nat) : Ratio := ⟨n, 1⟩

/-- The product of two ratios. -/
def mul (x y : Ratio) : Ratio := ⟨x.num * y.num, x.den * y.den⟩

/-- The whole number in a ratio. -/
def floor (x : Ratio) : Nat := x.num / x.den

/-- The number of binary digits that a measured ratio has behind the first one. -/
def precision : Nat := 52

/-- The nearest ratio with as many binary digits, for a ratio that is not below one. -/
def rounded (x : Ratio) : Ratio :=
  let digits := x.floor.log2
  if digits ≤ precision then
    let scale := 1 <<< (precision - digits)
    ⟨roundQuotient (x.num * scale) x.den, scale⟩
  else
    let scale := 1 <<< (digits - precision)
    ofNat (roundQuotient x.num (x.den * scale) * scale)

end Ratio

/-! ## The size of a block -/

/-- The least number of bytes that are fetched at a time. -/
def leastBlock : Nat := 8192

/-- One more than the greatest number that a signed machine word holds. -/
def wordBound : Nat := 9223372036854775808

/-- The least number of bytes that do not fit into memory as one block: the machine has
32 GiB, of which its system keeps a part. -/
def memoryBound : Nat := 33731792840

/-- The bytes for a character in a block; one byte if the block gave no characters or
more of them than it had bytes. -/
def density (bytes chars : Nat) : Ratio :=
  if chars = 0 || bytes ≤ chars then Ratio.ofNat 1 else ⟨bytes, chars⟩

/-- The estimate of the bytes for a number of characters. -/
def estimate (density : Ratio) (wanted : Nat) : Nat :=
  (density.rounded.mul (Ratio.ofNat wanted).rounded).rounded.floor

/-- The number of bytes to fetch for a number of characters, if memory holds them. -/
def blockSize? (density : Ratio) (wanted : Nat) : Option Nat :=
  let bytes := estimate density wanted
  if wordBound ≤ bytes then some leastBlock
  else if memoryBound ≤ bytes then none
  else some (max leastBlock bytes)

theorem leastBlock_le_of_blockSize? {density : Ratio} {wanted size : Nat}
    (h : blockSize? density wanted = some size) : leastBlock ≤ size := by
  simp only [blockSize?] at h
  split at h
  · cases h
    exact Nat.le_refl leastBlock
  · split at h
    · cases h
    · cases h
      exact Nat.le_max_left leastBlock _

/-! ## Reading -/

/-- Why a text cannot be read. -/
inductive FetchFault where
  /-- the bytes are not text -/
  | undecodable (f : Utf8.Fault)
  /-- a block that memory does not hold -/
  | memory
  deriving DecidableEq, Repr, Inhabited

/-- The words for a fault.  There are none for a want of memory. -/
def FetchFault.message : FetchFault → String
  | .undecodable f => f.message
  | .memory => ""

/-- How many characters a block hands out, line ends counted as one character each, and
whether it holds a carriage return back: one at its end may belong with a line feed that
is still to come.  `held` says that the block before held one back. -/
def handOut (held : Bool) (cs : List Char) : Nat × Bool :=
  if cs.isEmpty then (0, held)
  else
    let text := if held then '\r' :: cs else cs
    if text.getLast? = some '\r' then ((normalizeBreaks text.dropLast).length, true)
    else ((normalizeBreaks text).length, false)

/-- How far the reading of a text has come. -/
structure Progress where
  decoder : Utf8.Decoder := {}
  /-- A carriage return is held back. -/
  held : Bool := false
  /-- The number of characters handed out. -/
  given : Nat := 0
  /-- The bytes for a character in the last block. -/
  density : Ratio := Ratio.ofNat 1
  deriving DecidableEq, Repr, Inhabited

/-- The characters that the current portion still lacks. -/
def Progress.wanted (p : Progress) (size : Nat) : Nat := size - p.given % size

/-- The progress behind a block of so many bytes that gives some characters. -/
def Progress.pass (p : Progress) (decoder : Utf8.Decoder) (bytes : Nat) (cs : List Char) :
    Progress :=
  let (count, held) := handOut p.held cs
  ⟨decoder, held, p.given + count, VmToHack.density bytes count⟩

/-- The progress behind a carriage return that was held back to the end. -/
def Progress.release (p : Progress) : Progress :=
  { p with held := false, given := p.given + 1, density := Ratio.ofNat 1 }

/-- What is left to do when all bytes are fetched. -/
def finishFetch (size : Nat) (p : Progress) : Except FetchFault (List Char) :=
  match p.decoder.rebase.finish with
  | .error f => .error (.undecodable f)
  | .ok () =>
    if p.held && (blockSize? p.release.density (p.release.wanted size)).isNone then
      .error .memory
    else .ok []

/-- Reads the rest of a text, of which the bytes are given, in portions of `size`
characters. -/
def fetchFrom (size : Nat) (p : Progress) (bytes : List UInt8) : Except FetchFault (List Char) :=
  match _hb : blockSize? p.density (p.wanted size) with
  | none => .error .memory
  | some block =>
    if bytes = [] then finishFetch size p
    else
      match Utf8.decodeBlock p.decoder (bytes.take block) with
      | .error f => .error (.undecodable f)
      | .ok (decoder, cs) =>
        (fetchFrom size (p.pass decoder (bytes.take block).length cs) (bytes.drop block)).map
          (cs ++ ·)
termination_by bytes.length
decreasing_by
  have hl : leastBlock ≤ block := leastBlock_le_of_blockSize? _hb
  have hne : bytes.length ≠ 0 := by simpa using ‹¬bytes = []›
  simp only [List.length_drop, leastBlock] at hl ⊢
  omega

/-- The text that bytes encode, when a reader asks for portions of `size` characters. -/
def fetch (size : Nat) (bytes : List UInt8) : Except FetchFault (List Char) :=
  fetchFrom size {} bytes

/-- Decoding bytes as a whole gives the text that is read from them in portions. -/
theorem decodeFrom_of_fetchFrom {size : Nat} {p : Progress} {bytes : List UInt8}
    {text : List Char} (h : fetchFrom size p bytes = .ok text) {e : Utf8.Decoder}
    (he : p.decoder.begun = e.begun) (acc : List Char) :
    Utf8.decodeFrom e acc bytes = .ok (acc.reverse ++ text) := by
  fun_induction fetchFrom size p bytes generalizing text e acc with
  | case1 => cases h
  | case2 p block _ =>
    unfold finishFetch at h
    have hf : e.begun = none := by
      rw [← he]
      cases hp : p.decoder.begun with
      | none => rfl
      | some g => simp [Utf8.Decoder.finish, Utf8.Decoder.rebase, hp] at h
    have ht : text = [] := by
      split at h
      · cases h
      · split at h
        · cases h
        · cases h
          rfl
    simp [Utf8.decodeFrom, Utf8.Decoder.finish, hf, ht, Except.map]
  | case3 => cases h
  | case4 p bytes block _ _ decoder cs hd ih =>
    cases hr : fetchFrom size (p.pass decoder (bytes.take block).length cs) (bytes.drop block) with
    | error f => rw [hr] at h; cases h
    | ok rest =>
      rw [hr] at h
      cases h
      obtain ⟨new, e', hcs, he', happ⟩ := Utf8.decodeFrom_append_of_block hd
        (show p.decoder.rebase.begun = e.begun from he)
      have hsplit := happ acc (bytes.drop block)
      rw [List.take_append_drop] at hsplit
      rw [hsplit, ih hr he']
      simp [hcs]

/-- The text does not depend on the size of the portions. -/
theorem decode_of_fetch {size : Nat} {bytes : List UInt8} {text : List Char}
    (h : fetch size bytes = .ok text) : Utf8.decode bytes = .ok text :=
  decodeFrom_of_fetchFrom h rfl []

end VmToHack
