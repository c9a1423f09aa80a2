/-!
# Sets of names

A finite set of names, kept as the list of its members in strictly increasing
order. The order is by character number, so a set has one form and lists its
members the same way however it was built.
-/

namespace SqlCatalog

/-- **A set of names.** -/
structure NameSet where
  /-- The members, in strictly increasing order. -/
  toList : List String
  /-- The order. -/
  sorted : toList.Pairwise (· < ·)
deriving DecidableEq

namespace NameSet

/-- The set without members. -/
def empty : NameSet := ⟨[], .nil⟩

instance : Inhabited NameSet := ⟨empty⟩

/-- A name put in its place in an increasing list, unless it is there. -/
def place (name : String) : List String → List String
  | [] => [name]
  | x :: xs =>
    if name < x then name :: x :: xs
    else if x < name then x :: place name xs
    else x :: xs

theorem mem_place {name x : String} {xs : List String} :
    x ∈ place name xs ↔ x = name ∨ x ∈ xs := by
  induction xs with
  | nil => simp [place]
  | cons y ys ih =>
    simp only [place]
    split
    · simp
    · next hlt =>
      split
      · simp only [List.mem_cons, ih, or_left_comm]
      · next hgt =>
        have : name = y := String.le_antisymm (String.not_lt.1 hgt) (String.not_lt.1 hlt)
        subst this
        simp

theorem pairwise_place {name : String} {xs : List String} (h : xs.Pairwise (· < ·)) :
    (place name xs).Pairwise (· < ·) := by
  induction xs with
  | nil => simp [place]
  | cons y ys ih =>
    obtain ⟨hy, hys⟩ := List.pairwise_cons.1 h
    simp only [place]
    split
    · next hlt =>
      refine List.pairwise_cons.2 ⟨fun z hz => ?_, h⟩
      rcases List.mem_cons.1 hz with rfl | hz
      · exact hlt
      · exact String.lt_trans hlt (hy z hz)
    · split
      · next hgt =>
        refine List.pairwise_cons.2 ⟨fun z hz => ?_, ih hys⟩
        rcases mem_place.1 hz with rfl | hz
        · exact hgt
        · exact hy z hz
      · exact h

/-- **The set with one more member.** -/
def insert (name : String) (set : NameSet) : NameSet :=
  ⟨place name set.toList, pairwise_place set.sorted⟩

/-- Whether a name is a member. -/
def contains (set : NameSet) (name : String) : Bool :=
  set.toList.contains name

/-- The set of the names in a list. -/
def ofList (names : List String) : NameSet :=
  names.foldl (fun set name => set.insert name) empty

@[simp] theorem mem_toList_insert {set : NameSet} {name x : String} :
    x ∈ (set.insert name).toList ↔ x = name ∨ x ∈ set.toList :=
  mem_place

@[simp] theorem contains_iff {set : NameSet} {name : String} :
    set.contains name = true ↔ name ∈ set.toList := by
  simp [contains]

end NameSet

end SqlCatalog
