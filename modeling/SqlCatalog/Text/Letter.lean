/-!
# Letter case

Two ways of forgetting the case of a letter. Names and tokens are lower-cased
in the ASCII range only (`SqlCatalog.Text.lower`, and
`SqlCatalog.Text.lowerByte` on bytes), and every other character stays as it
is. Keywords are recognised up to *simple case folding*
(`SqlCatalog.Text.fold`), under which two characters past the ASCII range
count as ASCII letters too: the long s and the Kelvin sign.
-/

namespace SqlCatalog

namespace Text

/-- The ASCII lower-case form of a byte; a byte that is no upper-case letter
stays. -/
def lowerByte (b : UInt8) : UInt8 :=
  if 0x41 ≤ b ∧ b ≤ 0x5A then b + 0x20 else b

/-- **The ASCII lower-case form of a text.** -/
def lower (text : List Char) : List Char :=
  text.map Char.toLower

/-- **Simple case folding** of the characters that fold to ASCII: upper-case
ASCII letters, the long s and the Kelvin sign. -/
def fold (c : Char) : Char :=
  if c = '\u017F' then 's'
  else if c = '\u212A' then 'k'
  else c.toLower

end Text

end SqlCatalog
