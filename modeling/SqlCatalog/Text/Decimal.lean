/-!
# Decimal numbers

The number that a run of decimal digits writes (`SqlCatalog.Text.decimal`).
Leading zeros do not change it.
-/

namespace SqlCatalog

namespace Text

/-- **The number that some digits write**, the most significant digit first. -/
def decimal (digits : List Char) : Nat :=
  digits.foldl (fun n c => n * 10 + (c.toNat - '0'.toNat)) 0

end Text

end SqlCatalog
