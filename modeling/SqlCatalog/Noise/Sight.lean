import SqlCatalog.Text.Utf8
import SqlCatalog.Text.Word

/-!
# Word boundaries

A keyword begins only at a *word boundary*, a place with no word character in
front of it. What is in front of a place is looked for in the last four bytes,
as many as a character can have, and the last character that begins there
counts. Stray bytes of the kind that may continue a character do not hide it:
they are passed over, until four bytes are used up. Any other stray piece does,
and so does a character that is no word character.

| in front of the place | the place |
|---|---|
| a word character | no boundary |
| a word character and stray continuation bytes, four bytes in all at most | no boundary |
| the same, five bytes or more | a boundary |
| anything else, or nothing | a boundary |

What a pass over the input has to remember for this is its *sight*
(`SqlCatalog.Noise.Sight`): whether a word character is in sight, and how far
it stays so. Noise is part of the input, and it is passed over like the rest
(`SqlCatalog.Noise.Sight.passAll`): a comment that stops at a stray byte can end
in a word, which is then in sight behind that byte.
-/

namespace SqlCatalog

namespace Noise

open Text

/-- **What is in sight in front of a place.** -/
inductive Sight where
  /-- No word character. -/
  | clear
  /-- A word character, which stays in sight behind `reach` continuation bytes
  more. -/
  | word (reach : Nat)
deriving DecidableEq, Repr

/-- The bytes of the longest character, which is how far back anything is in
sight. -/
def sightBytes : Nat := 4

/-- Whether a byte may stand anywhere but first in a character. -/
def isContinuation (b : UInt8) : Bool :=
  continuation.1 ≤ b && b ≤ continuation.2

namespace Sight

/-- **The sight behind a glyph**, from the sight in front of it. -/
def pass : Sight → Glyph → Sight
  | _, .char c => if isWord c then .word (sightBytes - c.utf8Size) else .clear
  | .word (reach + 1), .stray [b] => if isContinuation b then .word reach else .clear
  | _, .stray _ => .clear

/-- **The sight behind a text**, from the sight in front of it. -/
def passAll (sight : Sight) (text : List Glyph) : Sight :=
  text.foldl pass sight

/-- **A word boundary**: no word character is in sight. -/
def atBoundary : Sight → Bool
  | .clear => true
  | .word _ => false

@[simp] theorem passAll_nil (sight : Sight) : sight.passAll [] = sight := rfl

@[simp] theorem passAll_cons (sight : Sight) (g : Glyph) (text : List Glyph) :
    sight.passAll (g :: text) = (sight.pass g).passAll text := rfl

@[simp] theorem passAll_append (sight : Sight) (a b : List Glyph) :
    sight.passAll (a ++ b) = (sight.passAll a).passAll b :=
  List.foldl_append

/-- Behind a character it is that character alone which counts. -/
theorem atBoundary_pass_char (sight : Sight) (c : Char) :
    (sight.pass (.char c)).atBoundary = !isWord c := by
  rw [pass]
  split
  · next h => simp [atBoundary, h]
  · next h => simp [atBoundary, h]

/-- A stray piece brings no word into sight. -/
theorem atBoundary_pass_stray (bytes : List UInt8) :
    (clear.pass (.stray bytes)).atBoundary = true := by
  simp [pass, atBoundary]

end Sight

end Noise

end SqlCatalog
