import SqlCatalog.ColumnType

/-!
# What is a type

A token is a type of a column when the name of its elements is in the list of scalar types, is
one of four words that more tokens may follow, or is a type of the user
(`SqlCatalog.isElement_of_ofToken?`). The name is that of the elements and some array marks,
and nothing else (`SqlCatalog.ArrayMark.exists_marks`).

The tokens that end an entry or a statement are no types as long as the user does not make
them one (`SqlCatalog.ofToken?_mark`).
-/

namespace SqlCatalog

/-! ### Array marks -/

namespace ArrayMark

/-- Array marks, one behind the other. -/
def marks (n : Nat) : String :=
  String.ofList (List.replicate n mark).flatten

theorem exists_reverse_eq (text : List Char) :
    ∃ n, text.reverse = (dropMarks text).reverse ++ (List.replicate n mark).flatten := by
  induction text using dropMarks.induct with
  | case1 => exact ⟨0, rfl⟩
  | case2 c => exact ⟨0, rfl⟩
  | case3 c d text h ih =>
    obtain ⟨rfl, rfl⟩ := h
    obtain ⟨n, ih⟩ := ih
    refine ⟨n + 1, ?_⟩
    have hmark : (']' :: '[' :: text).reverse = text.reverse ++ mark := by simp [mark]
    rw [hmark, ih, dropMarks, if_pos ⟨rfl, rfl⟩, List.replicate_succ', List.flatten_append,
      List.flatten_singleton, List.append_assoc]
  | case4 c d text h =>
    refine ⟨0, ?_⟩
    rw [dropMarks, if_neg h]
    exact (List.append_nil _).symm

/-- **A type is its elements and some array marks.** -/
theorem exists_marks (type : String) : ∃ n, type = element type ++ marks n := by
  obtain ⟨n, h⟩ := exists_reverse_eq type.toList.reverse
  rw [List.reverse_reverse] at h
  refine ⟨n, ?_⟩
  rw [element, marks, ← String.ofList_append, ← h, String.ofList_toList]

end ArrayMark

/-! ### Elements -/

variable {options : Options} {element modifier token mark : String} {family : TypeFamily}
  {type : ColumnType}

/-- **The types of elements**: those of one token, the first words of the others, and those of
the user. -/
def IsElement (options : Options) (element : String) : Prop :=
  element ∈ scalarTypes ∨ element ∈ ["character", "timestamp", "time", "double"] ∨
    options.accepts element = true

theorem isElement_of_family? (h : ColumnType.family? options element modifier = some family) :
    IsElement options element := by
  rw [ColumnType.family?] at h
  split at h
  next hcharacter =>
    obtain rfl := hcharacter
    exact Or.inr (Or.inl (by decide))
  next =>
    split at h
    next hclock => rcases hclock with rfl | rfl <;> exact Or.inr (Or.inl (by decide))
    next =>
      split at h
      next hdouble =>
        obtain ⟨rfl, -⟩ := hdouble
        exact Or.inr (Or.inl (by decide))
      next =>
        split at h
        next hknown =>
          rw [Bool.or_eq_true, List.contains_iff_mem] at hknown
          exact hknown.imp_right Or.inr
        next => cases h

/-- **The type that a token gives** is known by its elements. -/
theorem isElement_of_ofToken? (h : ColumnType.ofToken? options token = some type) :
    IsElement options (ArrayMark.element type.name) := by
  simp only [ColumnType.ofToken?, Option.map_eq_some_iff] at h
  obtain ⟨family, hfamily, rfl⟩ := h
  exact isElement_of_family? hfamily

/-- **A comma, a bracket and a semicolon** are types only of the user. -/
theorem ofToken?_mark (hmark : mark ∈ [",", ")", ";"]) (haccepts : options.accepts mark = false) :
    ColumnType.ofToken? options mark = none := by
  simp only [List.mem_cons, List.not_mem_nil, or_false] at hmark
  have hfamily : ColumnType.family? options mark "" = none := by
    rcases hmark with rfl | rfl | rfl <;> rw [ColumnType.family?, haccepts] <;> rfl
  rcases hmark with rfl | rfl | rfl <;> exact congrArg (Option.map _) hfamily

end SqlCatalog
