import SqlCatalog.Proofs.Catalog.Names
import SqlCatalog.Proofs.ColumnType
import SqlCatalog.Proofs.LetterCase.Bytes

/-!
# Names in normal form

A name that a user gives is cut down to its normal form: the part behind the last period,
without double quotes, in lower case. A name is *in normal form* when there is nothing left
to cut (`SqlCatalog.IsNormal`), as every normal form is (`SqlCatalog.isNormal_normalize`).

The names that a reader looks up in the options are of two kinds, and both are in normal
form without being cut down for it.

| looked up | is in normal form because |
|---|---|
| the type of the elements of a token | it is a part of a normal form (`SqlCatalog.isNormal_elementOf`) |
| the name of a table | it is a plain identifier (`SqlCatalog.Table.IsNamed.isNormal`) |

So it makes no difference to them that a name is also looked up as it is stored
(`SqlCatalog.NameSet.covers_iff_of_isNormal`).
-/

namespace SqlCatalog

open Identifier Text

/-! ### Normal forms -/

/-- **A name in normal form**: no period, no double quote and no upper-case letter stands in
it. -/
def IsNormal (name : String) : Prop :=
  ∀ c ∈ name.toList, c ≠ '.' ∧ c ≠ doubleQuote ∧ c.toLower = c

instance (name : String) : Decidable (IsNormal name) :=
  inferInstanceAs (Decidable (∀ c ∈ name.toList, _))

variable {name stored token : String} {set : NameSet}

/-- **Normal forms are in normal form.** -/
theorem isNormal_normalize (name : String) : IsNormal (normalize name) := by
  intro c hc
  rw [Identifier.normalize, String.toList_ofList] at hc
  obtain ⟨d, hd, rfl⟩ := List.mem_map.mp hc
  obtain ⟨hd, hquote⟩ := List.mem_filter.mp hd
  have hperiod : (d != '.') = true :=
    List.all_eq_true.mp List.all_takeWhile d (List.mem_reverse.mp hd)
  rw [bne_iff_ne] at hperiod hquote
  exact ⟨mt (toLower_eq_iff (by decide)).mp hperiod, mt (toLower_eq_iff (by decide)).mp hquote,
    toLower_toLower d⟩

/-- **A name in normal form is its own.** -/
theorem normalize_of_isNormal (h : IsNormal name) : normalize name = name := by
  have hperiod : '.' ∉ name.toList := fun hmem => (h _ hmem).1 rfl
  have hquote : doubleQuote ∉ name.toList := fun hmem => (h _ hmem).2.1 rfl
  have hlower : lower name.toList = name.toList :=
    (List.map_congr_left fun c hc => (h c hc).2.2).trans (List.map_id _)
  rw [Identifier.normalize, afterLast_of_not_mem hperiod, dropQuotes_of_not_mem hquote, hlower,
    String.ofList_toList]

theorem normalize_normalize (name : String) : normalize (normalize name) = normalize name :=
  normalize_of_isNormal (isNormal_normalize name)

/-- A plain identifier is in normal form. -/
theorem isNormal_of_isPlain (h : isPlain name.toList = true) : IsNormal name := by
  have hascii : ∀ n < 0x80, isRest (Char.ofNat n) = true →
      (Char.ofNat n).toLower = Char.ofNat n := by decide
  intro c hc
  have hrest : isRest c = true := by
    rw [← Bool.not_eq_false]
    exact fun hnot => not_mem_of_isPlain h hnot hc
  refine ⟨?_, ?_, ?_⟩
  · rintro rfl
    exact not_mem_of_isPlain h rfl hc
  · rintro rfl
    exact not_mem_of_isPlain h rfl hc
  · by_cases hn : c.toNat < 0x80
    · have hlower := hascii c.toNat hn
      rw [Char.ofNat_toNat] at hlower
      exact hlower hrest
    · exact toLower_of_le (Nat.le_of_not_lt hn)

/-- The name of a table that is declared is in normal form. -/
theorem Table.IsNamed.isNormal {table : Table} (h : table.IsNamed) : IsNormal table.name :=
  isNormal_of_isPlain h.spells.2.2

/-! ### Types of elements -/

namespace ColumnType

/-- **The type of the elements** of the type that a token names. -/
def elementOf (token : String) : String :=
  ArrayMark.element (normalize (cutModifier token).1)

/-- The type that a token gives is settled by its elements. -/
theorem ofToken?_eq (options : Options) (token : String) :
    ofToken? options token =
      (family? options (elementOf token) (cutModifier token).2).map fun family =>
        ⟨normalize (cutModifier token).1, (cutModifier token).2, family⟩ := rfl

end ColumnType

/-- **The type of the elements is in normal form.** -/
theorem isNormal_elementOf (token : String) : IsNormal (ColumnType.elementOf token) := by
  obtain ⟨n, hmarks⟩ := ArrayMark.exists_marks (normalize (ColumnType.cutModifier token).1)
  intro c hc
  refine isNormal_normalize (ColumnType.cutModifier token).1 c ?_
  rw [hmarks, String.toList_append]
  exact List.mem_append_left _ hc

/-! ### Looking up names -/

/-- **A name is looked up** as it is stored and in normal form. -/
theorem NameSet.covers_iff :
    set.covers name = true ↔ name ∈ set.toList ∨ ∃ stored ∈ set.toList, normalize stored = name := by
  rw [covers, Bool.or_eq_true, contains_iff, List.any_eq_true]
  simp only [beq_iff_eq]

/-- **A name in normal form is looked up in normal form only**: if it is stored, it is stored
in normal form. -/
theorem NameSet.covers_iff_of_isNormal (h : IsNormal name) :
    set.covers name = true ↔ ∃ stored ∈ set.toList, normalize stored = name := by
  rw [covers_iff, or_iff_right_iff_imp]
  exact fun hmem => ⟨name, hmem, normalize_of_isNormal h⟩

/-- A name is added in normal form. -/
theorem NameSet.covers_insert_normalize (set : NameSet) (name type : String) :
    (set.insert (normalize name)).covers type = (set.covers type || normalize name == type) := by
  rw [Bool.eq_iff_iff, covers_iff, Bool.or_eq_true, covers_iff, beq_iff_eq]
  simp only [mem_toList_insert, exists_eq_or_imp, normalize_normalize]
  constructor
  · rintro ((rfl | h) | (h | h))
    · exact Or.inr rfl
    · exact Or.inl (Or.inl h)
    · exact Or.inr h
    · exact Or.inl (Or.inr h)
  · rintro ((h | h) | h)
    · exact Or.inl (Or.inr h)
    · exact Or.inr (Or.inr h)
    · exact Or.inr (Or.inl h)

end SqlCatalog
