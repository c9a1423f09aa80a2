/-!
# White space

Two notions of white space meet in a dump. Words are separated by the five
*ASCII blanks* (`SqlCatalog.Text.isAsciiBlank`), which are bytes; a keyword is
separated from the name after it by any character with the Unicode property
White_Space (`SqlCatalog.Text.isBlank`), and the same characters are dropped
from both ends of a message. The vertical tab and the no-break space are blank
only in the second sense.
-/

namespace SqlCatalog

namespace Text

/-- **An ASCII blank**: space, tab, line feed, form feed or carriage return. -/
def isAsciiBlank (b : UInt8) : Bool :=
  b == 0x20 || b == 0x09 || b == 0x0A || b == 0x0C || b == 0x0D

/-- **White space**: a character with the Unicode property White_Space. -/
def isBlank (c : Char) : Bool :=
  let n := c.toNat
  (0x09 ≤ n && n ≤ 0x0D) || n == 0x20 || n == 0x85 || n == 0xA0 || n == 0x1680
    || (0x2000 ≤ n && n ≤ 0x200A) || n == 0x2028 || n == 0x2029 || n == 0x202F
    || n == 0x205F || n == 0x3000

/-- The text without the white space at its two ends. -/
def trim (text : List Char) : List Char :=
  ((text.dropWhile isBlank).reverse.dropWhile isBlank).reverse

/-- Every blank of the ASCII sense is white space. -/
theorem isBlank_of_isAsciiBlank {b : UInt8} (h : isAsciiBlank b = true) :
    isBlank (Char.ofNat b.toNat) = true := by
  simp only [isAsciiBlank, Bool.or_eq_true, beq_iff_eq] at h
  rcases h with (((rfl | rfl) | rfl) | rfl) | rfl <;> decide

end Text

end SqlCatalog
