set_option autoImplicit false

/-!
# Text: strict UTF-8

A decoder that reads a byte at a time and stops at the first byte that cannot
continue the character begun.  Its state is the character begun, if any: the
bytes read of it, how many it still owes, and the range in which the next one
must lie.  The range does all the work that strictness asks for: it excludes
overlong forms after `E0` and `F0`, surrogates after `ED`, and everything above
the last code point after `F4`.

A fault names the bytes that are bad, that is the longest run that could still
have begun a character, and where they stand.  A file may be decoded in blocks; a
position then counts from the start of the block, bytes carried over included.  At
the end of a block a character begun is carried over, and so are the first two bytes
of a surrogate, whose fault shows only in the next block.

Every text has an encoding.  But a name that a machine gives for a file may hold bytes that are no
text, and then characters of the name stand for these bytes.  Such a character is encoded nowhere
else, so a text into which the name is copied has no encoding.
-/

namespace VmToHack.Text.Utf8

/-- Why bytes are no character. -/
inductive Reason where
  /-- no character starts with the byte -/
  | start
  /-- the byte that follows cannot continue the character -/
  | continuation
  /-- the bytes end in the middle of a character -/
  | truncated
  deriving DecidableEq, Repr, Inhabited

/-- The words for a reason. -/
def Reason.text : Reason → String
  | .start => "invalid start byte"
  | .continuation => "invalid continuation byte"
  | .truncated => "unexpected end of data"

/-- Bytes that are no character. -/
structure Fault where
  /-- Where the first bad byte stands, counted from zero. -/
  position : Nat
  /-- The bad bytes. -/
  bytes : List UInt8
  reason : Reason
  deriving DecidableEq, Repr, Inhabited

/-- A byte as two hexadecimal digits. -/
def hexByte (b : UInt8) : String :=
  String.ofList [Nat.digitChar (b.toNat / 16), Nat.digitChar (b.toNat % 16)]

/-- One bad byte is shown, several are given by their positions. -/
def Fault.message (f : Fault) : String :=
  match f.bytes with
  | [b] => s!"'utf-8' codec can't decode byte 0x" ++ hexByte b ++
      s!" in position {f.position}: {f.reason.text}"
  | bytes => s!"'utf-8' codec can't decode bytes in position {f.position}-" ++
      s!"{f.position + bytes.length - 1}: {f.reason.text}"

/-- A character of which some bytes are read. -/
structure Begun where
  /-- The bytes read, in order. -/
  bytes : List UInt8
  /-- How many bytes must follow. -/
  owed : Nat
  /-- The least next byte. -/
  low : UInt8
  /-- The greatest next byte. -/
  high : UInt8
  /-- The code point as far as it is known. -/
  code : Nat
  deriving DecidableEq, Repr, Inhabited

/-- The decoder between two bytes. -/
structure Decoder where
  /-- The position of the next byte. -/
  position : Nat := 0
  /-- The character begun, if the next byte does not start one. -/
  begun : Option Begun := none
  deriving DecidableEq, Repr, Inhabited

/-- What a first byte opens: a character of one byte, or one that owes more. -/
def opening (b : UInt8) : Option (Char ⊕ Begun) :=
  let n := b.toNat
  if n ≤ 0x7F then some (.inl (Char.ofNat n))
  else if 0xC2 ≤ n && n ≤ 0xDF then some (.inr ⟨[b], 1, 0x80, 0xBF, n - 0xC0⟩)
  else if n == 0xE0 then some (.inr ⟨[b], 2, 0xA0, 0xBF, 0⟩)
  else if n == 0xED then some (.inr ⟨[b], 2, 0x80, 0x9F, n - 0xE0⟩)
  else if 0xE1 ≤ n && n ≤ 0xEF then some (.inr ⟨[b], 2, 0x80, 0xBF, n - 0xE0⟩)
  else if n == 0xF0 then some (.inr ⟨[b], 3, 0x90, 0xBF, 0⟩)
  else if 0xF1 ≤ n && n ≤ 0xF3 then some (.inr ⟨[b], 3, 0x80, 0xBF, n - 0xF0⟩)
  else if n == 0xF4 then some (.inr ⟨[b], 3, 0x80, 0x8F, n - 0xF0⟩)
  else none

/-- A character begun, with one more byte: complete, or still owing. -/
def Begun.push (g : Begun) (b : UInt8) : Char ⊕ Begun :=
  let code := 64 * g.code + (b.toNat - 0x80)
  if g.owed ≤ 1 then .inl (Char.ofNat code)
  else .inr ⟨g.bytes ++ [b], g.owed - 1, 0x80, 0xBF, code⟩

/-- The decoder after a byte, and the character that the byte completes. -/
def Decoder.step (d : Decoder) (b : UInt8) : Except Fault (Decoder × Option Char) :=
  let after : Char ⊕ Begun → Decoder × Option Char
    | .inl c => (⟨d.position + 1, none⟩, some c)
    | .inr g => (⟨d.position + 1, some g⟩, none)
  match d.begun with
  | none =>
    match opening b with
    | some next => .ok (after next)
    | none => .error ⟨d.position, [b], .start⟩
  | some g =>
    if g.low ≤ b && b ≤ g.high then .ok (after (g.push b))
    else .error ⟨d.position - g.bytes.length, g.bytes, .continuation⟩

/-- Bytes may end only between two characters. -/
def Decoder.finish (d : Decoder) : Except Fault Unit :=
  match d.begun with
  | none => .ok ()
  | some g => .error ⟨d.position - g.bytes.length, g.bytes, .truncated⟩

/-- The decoder at the start of a block: only the bytes carried over lie behind it. -/
def Decoder.rebase (d : Decoder) : Decoder :=
  { d with position := (d.begun.map fun g => g.bytes.length).getD 0 }

/-- Decodes bytes from a given state, in front of characters already decoded, which
are held in reverse. -/
def decodeFrom (d : Decoder) (done : List Char) : List UInt8 → Except Fault (List Char)
  | [] => (d.finish).map fun _ => done.reverse
  | b :: bytes =>
    match d.step b with
    | .error f => .error f
    | .ok (d', c) => decodeFrom d' (c.toList ++ done) bytes

/-- The text that a whole run of bytes encodes. -/
def decode (bytes : List UInt8) : Except Fault (List Char) := decodeFrom {} [] bytes

/-- The byte would make the character begun a surrogate. -/
def Decoder.meetsSurrogate (d : Decoder) (b : UInt8) : Bool :=
  match d.begun with
  | some g => g.bytes == [0xED] && 0xA0 ≤ b && b ≤ 0xBF
  | none => false

/-- The fault of a byte, which may be the last of its block.  A surrogate that begins
at the end of a block is carried over, so its fault is at the start of the next. -/
def Decoder.shift (d : Decoder) (b : UInt8) (isLast : Bool) (f : Fault) : Fault :=
  if isLast && d.meetsSurrogate b then { f with position := 0 } else f

/-- Decodes the bytes of a block from a given state, in front of characters already
decoded, which are held in reverse.  A character begun may be left over. -/
def decodeBlockFrom (d : Decoder) (done : List Char) :
    List UInt8 → Except Fault (Decoder × List Char)
  | [] => .ok (d, done.reverse)
  | b :: bytes =>
    match d.step b with
    | .error f => .error (d.shift b bytes.isEmpty f)
    | .ok (d', c) => decodeBlockFrom d' (c.toList ++ done) bytes

/-- The characters that a block completes, and the decoder behind it. -/
def decodeBlock (d : Decoder) (bytes : List UInt8) : Except Fault (Decoder × List Char) :=
  decodeBlockFrom d.rebase [] bytes

/-- What a byte does to a decoder depends on the position in a fault only. -/
theorem step_of_begun_eq {d e d' : Decoder} {b : UInt8} {c : Option Char}
    (h : d.begun = e.begun) (hs : d.step b = .ok (d', c)) :
    ∃ e', e.step b = .ok (e', c) ∧ d'.begun = e'.begun := by
  unfold Decoder.step at hs ⊢
  rw [← h]
  cases hd : d.begun with
  | none =>
    rw [hd] at hs
    cases ho : opening b with
    | none => simp [ho] at hs
    | some next =>
      cases next <;>
        simp only [ho, Except.ok.injEq, Prod.mk.injEq] at hs <;>
        obtain ⟨rfl, rfl⟩ := hs <;>
        exact ⟨_, rfl, rfl⟩
  | some g =>
    rw [hd] at hs
    dsimp only at hs ⊢
    split at hs
    · cases hp : g.push b <;>
        simp only [hp, Except.ok.injEq, Prod.mk.injEq] at hs <;>
        obtain ⟨rfl, rfl⟩ := hs <;>
        simp_all
    · cases hs

/-- A block may be decoded apart from what follows it. -/
theorem decodeFrom_append_of_block {d d' e : Decoder} {done cs : List Char} {bytes : List UInt8}
    (h : decodeBlockFrom d done bytes = .ok (d', cs)) (he : d.begun = e.begun) :
    ∃ new e', cs = done.reverse ++ new ∧ d'.begun = e'.begun ∧
      ∀ acc rest, decodeFrom e acc (bytes ++ rest) = decodeFrom e' (new.reverse ++ acc) rest := by
  induction bytes generalizing d e done with
  | nil =>
    cases h
    exact ⟨[], e, by simp, he, by simp⟩
  | cons b bytes ih =>
    unfold decodeBlockFrom at h
    cases hs : d.step b with
    | error f => rw [hs] at h; cases h
    | ok next =>
      obtain ⟨d₁, c⟩ := next
      rw [hs] at h
      obtain ⟨e₁, he₁, hb⟩ := step_of_begun_eq he hs
      obtain ⟨new, e', hcs, he', hrest⟩ := ih h hb
      refine ⟨c.toList ++ new, e', ?_, he', ?_⟩
      · rw [hcs]
        cases c <;> simp
      · intro acc rest
        rw [List.cons_append, decodeFrom, he₁]
        dsimp only
        rw [hrest]
        cases c <;> simp

/-- The bytes that encode a text. -/
def encode (text : String) : List UInt8 := text.toUTF8.toList

/-- Characters that stand for stray bytes, in a text that is to be encoded. -/
structure EncodeFault where
  /-- Where the first of them stands, counted from zero. -/
  position : Nat
  /-- The bytes that they stand for. -/
  bytes : List UInt8
  deriving DecidableEq, Repr, Inhabited

/-- One such character is shown, several are given by their positions. -/
def EncodeFault.message (f : EncodeFault) : String :=
  match f.bytes with
  | [b] => "'utf-8' codec can't encode character '\\udc" ++ hexByte b ++ "' in position " ++
      toString f.position ++ ": surrogates not allowed"
  | bytes => "'utf-8' codec can't encode characters in position " ++ toString f.position ++ "-" ++
      toString (f.position + bytes.length - 1) ++ ": surrogates not allowed"

/-- The characters that stand for stray bytes, each with its byte. -/
abbrev StandIns : Type := List (Char × UInt8)

/-- The first characters of a text that stand for stray bytes, if any do. -/
def encodeFault? (stray : StandIns) (text : String) : Option EncodeFault :=
  if stray = [] then none
  else
    let ahead := text.toList.takeWhile fun c => (stray.lookup c).isNone
    match (text.toList.drop ahead.length).takeWhile fun c => (stray.lookup c).isSome with
    | [] => none
    | found => some ⟨ahead.length, found.filterMap fun c => stray.lookup c⟩

/-- The texts in front of the first that has no encoding. -/
def encodable (stray : StandIns) (texts : List String) : List String :=
  texts.takeWhile fun text => (encodeFault? stray text).isNone

end VmToHack.Text.Utf8
