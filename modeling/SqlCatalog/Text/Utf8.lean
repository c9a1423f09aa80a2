/-!
# Bytes read as characters

A schema dump is a byte string, and nothing promises that it is well-formed
UTF-8: a dump of a Latin-1 database is not. Reading it must therefore lose
nothing, and this file reads bytes into *glyphs*
(`SqlCatalog.Text.Glyph`): a character, or a piece of the input that is no
character and keeps its bytes.

## How an ill-formed piece ends

`SqlCatalog.Text.following` lists, for a lead byte, the ranges in which the
bytes after it must lie; a byte that can lead nothing has no list. A piece of
the input is read as far as the ranges allow
(`SqlCatalog.Text.takeRanges`). Reaching the end of the list gives a
character, and stopping short gives one stray piece: the longest beginning of
a character that stands there, or the single byte that begins none.

Two readings come out of the same pieces:

* `SqlCatalog.Text.decode` keeps the stray bytes, so that
  `SqlCatalog.Text.encode` writes the input back;
* `SqlCatalog.Text.lossy` puts one replacement character in the place of each
  stray piece.
-/

namespace SqlCatalog

namespace Text

/-- **A glyph**: one character of the input, or bytes that form none. -/
inductive Glyph where
  /-- A well-formed character. -/
  | char (c : Char)
  /-- An ill-formed piece of the input, byte for byte. -/
  | stray (bytes : List UInt8)
deriving DecidableEq, Repr, Inhabited

/-! ### The byte ranges of a character -/

/-- The bytes that may stand anywhere but first in a character. -/
def continuation : UInt8 × UInt8 := (0x80, 0xBF)

/-- **The ranges after a lead byte**, one for each byte that completes the
character; `none` for a byte that cannot lead. The second byte is narrowed
where the full range would spell a character too long, a surrogate or a number
past the last character. -/
def following (lead : UInt8) : Option (List (UInt8 × UInt8)) :=
  if lead < 0x80 then some []
  -- continuation bytes, and the leads of what one byte can spell
  else if lead < 0xC2 then none
  else if lead < 0xE0 then some [continuation]
  else if lead = 0xE0 then some [(0xA0, 0xBF), continuation]
  -- the upper half of this range would be the surrogates
  else if lead = 0xED then some [(0x80, 0x9F), continuation]
  else if lead < 0xF0 then some [continuation, continuation]
  else if lead = 0xF0 then some [(0x90, 0xBF), continuation, continuation]
  else if lead < 0xF4 then some [continuation, continuation, continuation]
  else if lead = 0xF4 then some [(0x80, 0x8F), continuation, continuation]
  else none

/-- The longest beginning of `bytes` whose bytes lie in the given ranges, one
range a byte, and what follows it. -/
def takeRanges : List (UInt8 × UInt8) → List UInt8 → List UInt8 × List UInt8
  | [], bytes => ([], bytes)
  | _ :: _, [] => ([], [])
  | (low, high) :: ranges, b :: bytes =>
    if low ≤ b ∧ b ≤ high then
      let (taken, rest) := takeRanges ranges bytes
      (b :: taken, rest)
    else ([], b :: bytes)

theorem takeRanges_append (ranges : List (UInt8 × UInt8)) (bytes : List UInt8) :
    (takeRanges ranges bytes).1 ++ (takeRanges ranges bytes).2 = bytes := by
  induction ranges generalizing bytes with
  | nil => simp [takeRanges]
  | cons r ranges ih =>
    cases bytes with
    | nil => simp [takeRanges]
    | cons b bytes =>
      simp only [takeRanges]
      split
      · simpa using ih bytes
      · simp

theorem length_takeRanges_snd_le (ranges : List (UInt8 × UInt8)) (bytes : List UInt8) :
    (takeRanges ranges bytes).2.length ≤ bytes.length := by
  have h := congrArg List.length (takeRanges_append ranges bytes)
  rw [List.length_append] at h
  omega

/-! ### One glyph -/

/-- The bits of the character that the lead byte carries, when `n` bytes
follow it. -/
def leadBits (lead : UInt8) (n : Nat) : Nat :=
  match n with
  | 0 => lead.toNat
  | 1 => lead.toNat % 32
  | 2 => lead.toNat % 16
  | _ => lead.toNat % 8

/-- The character of a lead byte and the bytes that complete it: six more bits
come from each of them. -/
def assemble (lead : UInt8) (tail : List UInt8) : Char :=
  Char.ofNat (tail.foldl (fun n b => n * 64 + b.toNat % 64) (leadBits lead tail.length))

/-- **The first glyph** of an input that begins with `lead`, and what follows
it. -/
def readGlyph (lead : UInt8) (bytes : List UInt8) : Glyph × List UInt8 :=
  match following lead with
  | none => (.stray [lead], bytes)
  | some ranges =>
    let (tail, rest) := takeRanges ranges bytes
    if tail.length = ranges.length then (.char (assemble lead tail), rest)
    else (.stray (lead :: tail), rest)

theorem length_readGlyph_snd_le (lead : UInt8) (bytes : List UInt8) :
    (readGlyph lead bytes).2.length ≤ bytes.length := by
  unfold readGlyph
  split
  · exact Nat.le_refl _
  · have h := length_takeRanges_snd_le
    dsimp only
    split <;> exact h _ _

/-! ### The whole input -/

/-- **The glyphs of an input**, in order. -/
def decode : List UInt8 → List Glyph
  | [] => []
  | lead :: bytes =>
    (readGlyph lead bytes).1 :: decode (readGlyph lead bytes).2
termination_by bytes => bytes.length
decreasing_by
  have := length_readGlyph_snd_le lead bytes
  simp only [List.length_cons]
  omega

/-- The bytes of one glyph. -/
def Glyph.bytes : Glyph → List UInt8
  | .char c => String.utf8EncodeChar c
  | .stray bytes => bytes

/-- **The bytes of a text**: what `SqlCatalog.Text.decode` read it from. -/
def encode (text : List Glyph) : List UInt8 :=
  text.flatMap Glyph.bytes

@[simp] theorem encode_nil : encode [] = [] := rfl

@[simp] theorem encode_cons (g : Glyph) (text : List Glyph) :
    encode (g :: text) = g.bytes ++ encode text := rfl

@[simp] theorem encode_append (a b : List Glyph) : encode (a ++ b) = encode a ++ encode b := by
  simp [encode]

/-- The character that stands for what cannot be read. -/
def replacement : Char := '\uFFFD'

/-- A glyph as a character, a stray piece being replaced. -/
def Glyph.toChar : Glyph → Char
  | .char c => c
  | .stray _ => replacement

/-- **The readable form of an input**: each ill-formed piece becomes one
replacement character. -/
def lossy (bytes : List UInt8) : List Char :=
  (decode bytes).map Glyph.toChar

end Text

end SqlCatalog
