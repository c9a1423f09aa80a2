import Mathlib.Data.List.FinRange
import SqlCatalog.Proofs.Options.Normal
import SqlCatalog.Proofs.Selection

/-!
# Which tables survive

The selection goes through the tables once and remembers the names that are in. This file says
which tables it keeps without telling how: a table is *eligible* when neither of the first two
reasons to leave it out stands (`SqlCatalog.Table.IsEligible`), and a place in the list *survives*
when the table in it is eligible and no eligible table of its name stands in front of it
(`SqlCatalog.Survives`). Only eligible tables can be in the way, so a table of migrations or one
without a key hides no other.

The selection is this list of places, read in order, and its warnings are about all other places,
read in order (`SqlCatalog.select_eq`). Its laws follow without looking at the pass again:

| law | because |
|---|---|
| nothing is lost without a warning | a place survives or does not |
| the selection from a selection is the same | all its places survive |
| a table that is ignored could as well not be there | it is not eligible, and in nobody's way |

The pass is followed for tables that stand behind others, whose names are in
(`SqlCatalog.Stands`).
-/

namespace SqlCatalog

open Identifier

variable {options : Options} {seen seen' : List String} {table : Table} {tables : List Table}
  {name : String}

/-! ### Members at places -/

section Members

variable {α : Type} {x : α} {xs : List α}

/-- **The members of a list at some of its places**, in their order. -/
def membersAt (xs : List α) (p : Fin xs.length → Prop) [DecidablePred p] : List α :=
  ((List.finRange xs.length).filter p).map xs.get

/-- The place of the head comes first. -/
theorem membersAt_cons (p : Fin (x :: xs).length → Prop) [DecidablePred p] :
    membersAt (x :: xs) p =
      if p (0 : Fin (xs.length + 1)) then x :: membersAt xs (fun i => p i.succ)
      else membersAt xs (fun i => p i.succ) := by
  have hplaces : List.finRange (x :: xs).length = 0 :: (List.finRange xs.length).map Fin.succ :=
    List.finRange_succ
  have htail : (((List.finRange xs.length).map Fin.succ).filter p).map (x :: xs).get =
      membersAt xs (fun i => p i.succ) := by
    rw [List.filter_map, List.map_map]
    rfl
  rw [membersAt, hplaces, List.filter_cons]
  simp only [decide_eq_true_eq]
  split
  next => rw [List.map_cons, htail]; rfl
  next => exact htail

/-- The places are all that matters. -/
theorem membersAt_congr {p q : Fin xs.length → Prop} [DecidablePred p] [DecidablePred q]
    (h : ∀ i, p i ↔ q i) : membersAt xs p = membersAt xs q := by
  simp only [membersAt, h]

/-- The members at all places are the list. -/
theorem membersAt_eq_self {p : Fin xs.length → Prop} [DecidablePred p] (h : ∀ i, p i) :
    membersAt xs p = xs := by
  have hall : (List.finRange xs.length).filter p = List.finRange xs.length :=
    List.filter_eq_self.mpr fun i _ => decide_eq_true (h i)
  rw [membersAt, hall, List.map_get_finRange]

/-- **A member is at some place or at another**, not at both. -/
theorem length_membersAt_add_length (p : Fin xs.length → Prop) [DecidablePred p] :
    (membersAt xs p).length + (membersAt xs (¬p ·)).length = xs.length := by
  have hlength := List.length_eq_length_filter_add (l := List.finRange xs.length) (p ·)
  simp only [membersAt, List.length_map, decide_not]
  rw [← hlength, List.length_finRange]

end Members

/-! ### Eligible tables and surviving places -/

/-- **A table is eligible** when it keeps no books of other tools, the options do not name it, and
it has a primary key. -/
def Table.IsEligible (options : Options) (table : Table) : Prop :=
  table.name ∉ systemTables ∧ options.ignores table.name = false ∧ table.hasPrimaryKey = true

instance (options : Options) (table : Table) : Decidable (table.IsEligible options) :=
  inferInstanceAs (Decidable (_ ∧ _ ∧ _))

/-- **A place survives** when its table is eligible and the first eligible one of its name. -/
def Survives (options : Options) (tables : List Table) (i : Fin tables.length) : Prop :=
  tables[i].IsEligible options ∧
    ∀ j < i, tables[j].IsEligible options → tables[j].name ≠ tables[i].name

instance (options : Options) (tables : List Table) (i : Fin tables.length) :
    Decidable (Survives options tables i) :=
  inferInstanceAs (Decidable (_ ∧ ∀ _, _))

/-- **Why a table does not survive.** Only an eligible one can be out for its name. -/
def Table.dropReason (options : Options) (table : Table) : SkipReason :=
  if table.name ∈ systemTables ∨ options.ignores table.name = true then .systemTable
  else if table.hasPrimaryKey = false then .noPrimaryKey
  else .duplicateName

/-- The warning about a table that does not survive. -/
def Table.dropEvent (options : Options) (table : Table) : Event :=
  .skipped (table.dropReason options) table.rawIdentifier

/-! ### The reasons -/

/-- A table goes in if it is eligible and its name is not in. -/
theorem skipReason?_eq_none_iff_isEligible :
    skipReason? options seen table = none ↔ table.IsEligible options ∧ table.name ∉ seen := by
  rw [skipReason?_eq_none_iff, Table.IsEligible, Bool.or_eq_false_iff, ← Bool.not_eq_true,
    List.contains_iff_mem, and_assoc, and_assoc, and_assoc]

/-- **The reason does not depend on the names that are in**, if there is one. -/
theorem eq_dropReason_of_skipReason? {reason : SkipReason}
    (h : skipReason? options seen table = some reason) : reason = table.dropReason options := by
  simp only [skipReason?, Bool.or_eq_true, List.contains_iff_mem, Bool.not_eq_true'] at h
  simp only [Table.dropReason]
  by_cases hsystem : table.name ∈ systemTables ∨ options.ignores table.name = true
  · rw [if_pos hsystem] at h ⊢
    exact (Option.some.inj h).symm
  · rw [if_neg hsystem] at h ⊢
    by_cases hkey : table.hasPrimaryKey = false
    · rw [if_pos hkey] at h ⊢
      exact (Option.some.inj h).symm
    · rw [if_neg hkey] at h ⊢
      split at h <;> cases h
      rfl

/-! ### The pass -/

/-- **A place stands** behind tables of the names `seen` when it survives and its name is not one
of them. -/
def Stands (options : Options) (seen : List String) (tables : List Table)
    (i : Fin tables.length) : Prop :=
  Survives options tables i ∧ tables[i].name ∉ seen

instance (options : Options) (seen : List String) (tables : List Table) (i : Fin tables.length) :
    Decidable (Stands options seen tables i) :=
  inferInstanceAs (Decidable (_ ∧ _))

/-- In front of the first place there is nothing. -/
theorem stands_zero :
    Stands options seen (table :: tables) (0 : Fin (tables.length + 1)) ↔
      skipReason? options seen table = none := by
  rw [skipReason?_eq_none_iff_isEligible, Stands, Survives]
  exact and_congr_left fun _ => and_iff_left fun j hj => absurd hj (Fin.not_lt_zero j)

/-- A place behind the first one survives if it does so without it and the first table is not in
its way. -/
theorem survives_succ {i : Fin tables.length} :
    Survives options (table :: tables) i.succ ↔
      Survives options tables i ∧
        (table.IsEligible options → table.name ≠ tables[i].name) := by
  constructor
  · rintro ⟨heligible, hfirst⟩
    exact ⟨⟨heligible, fun j hj => hfirst j.succ (Fin.succ_lt_succ_iff.mpr hj)⟩,
      hfirst 0 (Fin.succ_pos i)⟩
  · rintro ⟨⟨heligible, hfirst⟩, hne⟩
    refine ⟨heligible, fun j hj => ?_⟩
    cases j using Fin.cases with
    | zero => exact hne
    | succ j => exact hfirst j (Fin.succ_lt_succ_iff.mp hj)

/-- Behind a table that is left out the same names are in. -/
theorem stands_succ_of_skipped (h : skipReason? options seen table ≠ none)
    {i : Fin tables.length} :
    Stands options seen (table :: tables) i.succ ↔ Stands options seen tables i := by
  rw [Ne, skipReason?_eq_none_iff_isEligible, not_and_not_right] at h
  rw [Stands, Stands, survives_succ]
  constructor
  · rintro ⟨⟨hsurvives, -⟩, hfresh⟩
    exact ⟨hsurvives, hfresh⟩
  · rintro ⟨hsurvives, hfresh⟩
    exact ⟨⟨hsurvives, fun heligible hname => hfresh (hname ▸ h heligible)⟩, hfresh⟩

/-- Behind a table that goes in its name is in too. -/
theorem stands_succ_of_kept (h : skipReason? options seen table = none) {i : Fin tables.length} :
    Stands options seen (table :: tables) i.succ ↔
      Stands options (table.name :: seen) tables i := by
  obtain ⟨heligible, -⟩ := skipReason?_eq_none_iff_isEligible.mp h
  rw [Stands, Stands, survives_succ, imp_iff_right heligible, List.mem_cons, not_or, and_assoc,
    ne_comm]
  rfl

/-- **The pass behind tables of the names `seen`** keeps the places that stand, and warns of the
others. -/
theorem selectFrom_eq (options : Options) (seen : List String) (tables : List Table) :
    selectFrom options seen tables =
      ⟨membersAt tables (Stands options seen tables),
        (membersAt tables (¬Stands options seen tables ·)).map (Table.dropEvent options)⟩ := by
  induction tables generalizing seen with
  | nil => rfl
  | cons table tables ih =>
    rw [selectFrom, membersAt_cons, membersAt_cons]
    cases hskip : skipReason? options seen table with
    | some reason =>
      have hne : skipReason? options seen table ≠ none := by simp [hskip]
      rw [if_neg (mt stands_zero.mp hne), if_pos (mt stands_zero.mp hne),
        membersAt_congr fun i => stands_succ_of_skipped hne,
        membersAt_congr fun i => not_congr (stands_succ_of_skipped hne), List.map_cons,
        Table.dropEvent, ← eq_dropReason_of_skipReason? hskip, ih]
    | none =>
      have hzero := (@stands_zero options seen table tables).mpr hskip
      rw [if_pos hzero, if_neg (not_not_intro hzero),
        membersAt_congr fun i => stands_succ_of_kept hskip,
        membersAt_congr fun i => not_congr (stands_succ_of_kept hskip), ih (table.name :: seen)]

/-- **The selection from a catalog**: the places that survive are kept, and the others are warned
of. -/
theorem select_eq (options : Options) (catalog : Catalog) :
    catalog.select options =
      ⟨membersAt catalog.tables (Survives options catalog.tables),
        (membersAt catalog.tables (¬Survives options catalog.tables ·)).map
          (Table.dropEvent options)⟩ := by
  have hstands : ∀ i, Stands options [] catalog.tables i ↔ Survives options catalog.tables i :=
    fun i => and_iff_left List.not_mem_nil
  rw [Catalog.select, selectFrom_eq, membersAt_congr hstands,
    membersAt_congr fun i => not_congr (hstands i)]

/-! ### Selecting again -/

/-- Tables that are selected are eligible. -/
theorem isEligible_of_mem_kept (h : table ∈ (selectFrom options seen tables).kept) :
    table.IsEligible options := by
  rw [selectFrom_eq] at h
  obtain ⟨i, hi, rfl⟩ := List.mem_map.mp h
  exact (of_decide_eq_true (List.mem_filter.mp hi).2).1.1

/-- **Eligible tables with names of their own all survive.** -/
theorem finalize_eq_self {catalog : Catalog}
    (heligible : ∀ table ∈ catalog.tables, table.IsEligible options)
    (hnodup : (catalog.tables.map (·.name)).Nodup) : catalog.finalize options = catalog := by
  have hsurvives : ∀ i, Survives options catalog.tables i := by
    refine fun i => ⟨heligible _ (List.getElem_mem _), fun j hj _ hname => ?_⟩
    have hinj := List.nodup_iff_injective_get.mp hnodup
    have := @hinj (j.cast (List.length_map _).symm) (i.cast (List.length_map _).symm)
      (by simpa using hname)
    exact absurd (Fin.ext (Fin.ext_iff.mp this)) (Fin.ne_of_lt hj)
  rw [Catalog.finalize, select_eq, membersAt_eq_self hsurvives]

/-- **Selecting again changes nothing.** -/
theorem finalize_finalize (options : Options) (catalog : Catalog) :
    (catalog.finalize options).finalize options = catalog.finalize options :=
  finalize_eq_self (fun _ => isEligible_of_mem_kept) (nodup_names_finalize options catalog)

/-! ### Ignoring a table -/

/-- **The catalog without the tables of a name**, which is given in any form. -/
def Catalog.without (catalog : Catalog) (name : String) : Catalog :=
  ⟨catalog.tables.filter (·.name ≠ normalize name)⟩

/-- A table that is ignored is skipped. -/
theorem skipReason?_ignoreTable_of_eq (h : table.name = normalize name) :
    skipReason? (options.ignoreTable name) seen table = some .systemTable := by
  have hignores : (options.ignoreTable name).ignores table.name = true := by
    rw [Options.ignores, Options.ignoreTable, NameSet.covers_insert_normalize, h, beq_self_eq_true,
      Bool.or_true]
  rw [skipReason?, hignores, Bool.or_true, if_pos rfl]

/-- Nothing changes for the others. -/
theorem skipReason?_ignoreTable_of_ne (h : table.name ≠ normalize name) :
    skipReason? (options.ignoreTable name) seen table = skipReason? options seen table := by
  have hignores : (options.ignoreTable name).ignores table.name = options.ignores table.name := by
    rw [Options.ignores, Options.ignoreTable, NameSet.covers_insert_normalize,
      beq_eq_false_iff_ne.mpr h.symm, Bool.or_false]
    rfl
  rw [skipReason?, skipReason?, hignores]

/-- **Ignoring a table is leaving it out in advance.** -/
theorem kept_ignoreTable (options : Options) (name : String) (seen : List String)
    (tables : List Table) :
    (selectFrom (options.ignoreTable name) seen tables).kept =
      (selectFrom options seen (tables.filter (·.name ≠ normalize name))).kept := by
  induction tables generalizing seen with
  | nil => rfl
  | cons table tables ih =>
    by_cases hname : table.name = normalize name
    · rw [selectFrom, skipReason?_ignoreTable_of_eq hname,
        List.filter_cons_of_neg (by simp [hname])]
      exact ih seen
    · rw [selectFrom, skipReason?_ignoreTable_of_ne hname,
        List.filter_cons_of_pos (by simp [hname]), selectFrom]
      cases skipReason? options seen table with
      | some reason => exact ih seen
      | none => exact congrArg (table :: ·) (ih _)

/-- **It is leaving it out afterwards too**, since its name stands in the way of no other. -/
theorem kept_filter_name (options : Options) (name : String) (tables : List Table)
    (hseen : ∀ other ≠ name, other ∈ seen ↔ other ∈ seen') :
    (selectFrom options seen (tables.filter (·.name ≠ name))).kept =
      (selectFrom options seen' tables).kept.filter (·.name ≠ name) := by
  induction tables generalizing seen seen' with
  | nil => rfl
  | cons table tables ih =>
    by_cases hname : table.name = name
    · rw [List.filter_cons_of_neg (by simp [hname]), selectFrom]
      cases skipReason? options seen' table with
      | some reason => exact ih hseen
      | none =>
        -- the name that goes in is the one that is left out
        rw [List.filter_cons_of_neg (by simp [hname])]
        refine ih fun other hother => ?_
        rw [List.mem_cons, hseen other hother, or_iff_right (hname ▸ hother)]
    · have hskip : skipReason? options seen table = skipReason? options seen' table := by
        simp only [skipReason?, List.contains_eq_mem, hseen _ hname]
      rw [List.filter_cons_of_pos (by simp [hname]), selectFrom, selectFrom, hskip]
      cases skipReason? options seen' table with
      | some reason => exact ih hseen
      | none =>
        rw [List.filter_cons_of_pos (by simp [hname])]
        refine congrArg (table :: ·) (ih fun other hother => ?_)
        rw [List.mem_cons, List.mem_cons, hseen other hother]

/-! ### The selection in full -/

/-- **The selection, place by place.** It keeps the tables in the places that survive, in order and
as they are, and has one warning for each other place, in order, so nothing is lost without one.
The tables that are kept have names of their own, and selecting from them again changes nothing. To
ignore a table is to have it left out of the catalog, before the selection or behind it. -/
theorem selection_is_exact (options : Options) (catalog : Catalog) :
    (catalog.finalize options).tables =
        membersAt catalog.tables (Survives options catalog.tables) ∧
      (catalog.select options).warnings =
        (membersAt catalog.tables (¬Survives options catalog.tables ·)).map
          (Table.dropEvent options) ∧
      (catalog.finalize options).size + (catalog.select options).warnings.length = catalog.size ∧
      ((catalog.finalize options).tables.map (·.name)).Nodup ∧
      (catalog.finalize options).finalize options = catalog.finalize options ∧
      ∀ name, catalog.finalize (options.ignoreTable name) =
          (catalog.without name).finalize options ∧
        catalog.finalize (options.ignoreTable name) = (catalog.finalize options).without name := by
  refine ⟨by rw [Catalog.finalize, select_eq], by rw [select_eq], ?_,
    nodup_names_finalize options catalog, finalize_finalize options catalog, fun name => ?_⟩
  · rw [Catalog.finalize, Catalog.size, select_eq, List.length_map, length_membersAt_add_length]
    rfl
  · have hbefore : catalog.finalize (options.ignoreTable name) =
        (catalog.without name).finalize options :=
      congrArg Catalog.mk (kept_ignoreTable options name [] catalog.tables)
    refine ⟨hbefore, hbefore.trans ?_⟩
    exact congrArg Catalog.mk
      (kept_filter_name options (normalize name) catalog.tables fun _ _ => Iff.rfl)

/-- A table without a key is in nobody's way, and one that has a key is. -/
example :
    let key : Column := { name := "id", dataType := "integer", isPrimaryKey := true }
    let keyless := Table.ofIdentifier "public.t"
    let first : Table := { Table.ofIdentifier "a.t" with columns := [key] }
    let second : Table := { Table.ofIdentifier "b.t" with columns := [key] }
    (Catalog.mk [keyless, first, second]).select {} =
      ⟨[first], [.skipped .noPrimaryKey "public.t", .skipped .duplicateName "b.t"]⟩ := by
  decide

end SqlCatalog
