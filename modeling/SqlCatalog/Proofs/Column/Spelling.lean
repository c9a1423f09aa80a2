import SqlCatalog.Proofs.Options.Normal
import SqlCatalog.Proofs.Schema.TypeReading
import SqlCatalog.Proofs.Text.Ends

/-!
# Type words and modifiers as they are written

A type is written with *type words* (`SqlCatalog.IsTypeWord`), and behind a word a modifier in
brackets may stand (`SqlCatalog.bracketed`). What matters of the inside of a modifier is whether a
break stands in it, a comma or a blank: a modifier without one is a word, and one with a break is
cut into tokens of its own.

| written | the modifier is a word | the modifier is cut |
|---|---|---|
| the modifier touches the type word | one token | `(` and the like are tokens |
| a blank stands between them | two tokens | the same |

So a modifier that is cut has the same tokens wherever it stands
(`SqlCatalog.Token.ofText_append_bracketed_of_cut`), and one that is a word stays with its type word
or does not. Either way the name in the token that begins the type is that of the type word
(`SqlCatalog.ColumnType.ofToken?_typeWord`), and so is its family, but for the two words that
take no modifier in their token (`SqlCatalog.ColumnType.of_family?`).
-/

namespace SqlCatalog

open Text Token Identifier

/-! ### Words and modifiers -/

/-- **A type word**: a word without brackets. -/
def IsTypeWord (word : List Char) : Prop :=
  word ≠ [] ∧ ∀ c ∈ word, isBreak c = false ∧ c ≠ '(' ∧ c ≠ ')'

instance (word : List Char) : Decidable (IsTypeWord word) :=
  inferInstanceAs (Decidable (_ ∧ ∀ c ∈ word, _))

/-- **The inside of a modifier**: a text without brackets and semicolons. -/
def IsInside (inner : List Char) : Prop :=
  inner ≠ [] ∧ ∀ c ∈ inner, c ∉ [';', '(', ')']

instance (inner : List Char) : Decidable (IsInside inner) :=
  inferInstanceAs (Decidable (_ ∧ ∀ c ∈ inner, _))

/-- **A modifier**: its inside in brackets. -/
def bracketed (inner : List Char) : List Char :=
  '(' :: (inner ++ [')'])

/-- The token of a word. -/
def wordToken (word : List Char) : String :=
  String.ofList (lower word)

variable {word inner : List Char} {options : Options} {element modifier : String}
  {family : TypeFamily}

/-- A modifier begins with a bracket. -/
theorem head?_bracketed (inner : List Char) : ∀ c ∈ (bracketed inner).head?, c = '(' :=
  fun _ hc => (Option.some.inj hc).symm

/-- Letter case leaves a modifier its brackets. -/
theorem lower_bracketed (inner : List Char) :
    lower (bracketed inner) = bracketed (lower inner) := by
  have happend : lower (inner ++ [')']) = lower inner ++ [')'] := List.map_append
  rw [bracketed, bracketed, ← happend]
  rfl

@[simp] theorem wordToken_nil : wordToken [] = "" := rfl

theorem toList_wordToken (word : List Char) : (wordToken word).toList = lower word :=
  String.toList_ofList

namespace IsTypeWord

variable (h : IsTypeWord word)
include h

theorem isWord : IsWord word := fun c hc => (h.2 c hc).1

theorem depth? (depth : Nat) : Text.depth? depth word = some depth := by
  refine depth?_of_plain fun c hc => ?_
  obtain ⟨hbreak, hopen, hclose⟩ := h.2 c hc
  have hne : ∀ d, isBreak d = true → c ≠ d := by
    rintro d hd rfl
    rw [hbreak] at hd
    cases hd
  simp [hopen, hclose, hne ';' rfl, hne ',' rfl]

theorem isPaired : IsPaired word := h.depth? 0

/-- **A type word is a token.** -/
theorem ofText_eq : ofText word = [wordToken word] :=
  ofText_paired h.isWord h.1 h.isPaired

theorem open_not_mem : '(' ∉ lower word := by
  intro hmem
  obtain ⟨c, hc, hlower⟩ := List.mem_map.mp hmem
  exact (h.2 c hc).2.1 ((toLower_eq_iff (by decide)).mp hlower)

end IsTypeWord

/-! ### Tokens -/

/-- A modifier without breaks is part of a word. -/
theorem isWord_bracketed (h : IsWord inner) : IsWord (bracketed inner) :=
  isWord_cons.mpr ⟨rfl, isWord_append.mpr ⟨h, isWord_cons.mpr ⟨rfl, isWord_nil⟩⟩⟩

namespace IsInside

variable (h : IsInside inner)
include h

theorem depth? (depth : Nat) : Text.depth? (depth + 1) inner = some (depth + 1) := by
  have hplain := h.2
  clear h
  induction inner with
  | nil => rfl
  | cons c inner ih =>
    obtain ⟨hc, hplain⟩ := List.forall_mem_cons.mp hplain
    simp only [List.mem_cons, List.not_mem_nil, or_false, not_or] at hc
    rw [Text.depth?, if_neg (by simp [hc]), if_neg hc.2.1, if_neg hc.2.2, ih hplain]

/-- The brackets of a modifier pair up. -/
theorem depth?_bracketed (depth : Nat) : Text.depth? depth (bracketed inner) = some depth := by
  rw [bracketed, Text.depth?, if_neg (by simp), if_pos rfl, depth?_append, h.depth? depth,
    Option.bind_some, Text.depth?, if_neg (by simp), if_neg (by decide), if_pos rfl,
    Nat.add_sub_cancel, Text.depth?]

theorem surplus_eq_zero : surplus inner = 0 := by
  have hclose : ∀ c ∈ inner, c ≠ ')' := by
    rintro c hc rfl
    exact h.2 _ hc (by decide)
  clear h
  induction inner with
  | nil => rfl
  | cons c inner ih =>
    obtain ⟨hc, hclose⟩ := List.forall_mem_cons.mp hclose
    rw [surplus, if_neg hc, ih hclose]
    split <;> rfl

end IsInside

namespace Token

/-- **A modifier that is cut** has the tokens of its inside between two brackets, whatever text
stands in front of it and behind it. -/
theorem ofText_append_bracketed_of_cut (h : IsInside inner) (hcut : ¬IsWord inner)
    (front rest : List Char) :
    ofText (front ++ bracketed inner ++ rest) =
      ofText front ++ "(" :: (ofText inner ++ ")" :: ofText rest) := by
  -- the inside up to its first break
  have hsplit : ∃ v c tail, inner = v ++ c :: tail ∧ IsWord v ∧ isBreak c = true := by
    clear h
    induction inner with
    | nil => exact absurd isWord_nil hcut
    | cons c inner ih =>
      cases hc : isBreak c with
      | true => exact ⟨[], c, inner, rfl, isWord_nil, hc⟩
      | false =>
        obtain ⟨v, d, tail, rfl, hv, hd⟩ := ih fun hw => hcut (isWord_cons.mpr ⟨hc, hw⟩)
        exact ⟨c :: v, d, tail, rfl, isWord_cons.mpr ⟨hc, hv⟩, hd⟩
  obtain ⟨v, c, tail, hinner, hv, hc⟩ := hsplit
  have hfirst : IsInside inner → surplus v = 0 := by
    intro h
    have hle := surplus_le_append v (c :: tail)
    rw [← hinner, h.surplus_eq_zero] at hle
    exact Nat.le_zero.mp hle
  have hopen := ofText_append_open hv (hfirst h) hc front (tail ++ ')' :: rest)
  have hclose := ofText_append_close_of_plain h.2 rest
  have htext : v ++ c :: (tail ++ ')' :: rest) = inner ++ ')' :: rest := by rw [hinner]; simp
  rw [htext, hclose] at hopen
  rw [← hopen, bracketed]
  simp

end Token

/-! ### The first token of a type -/

namespace ColumnType

/-- A word is cut in front of its modifier. -/
theorem cutModifier_wordToken (h : IsTypeWord word) (suffix : List Char)
    (hsuffix : ∀ c ∈ suffix.head?, c = '(') :
    cutModifier (wordToken (word ++ suffix)) = (wordToken word, wordToken suffix) := by
  have hlower : lower (word ++ suffix) = lower word ++ lower suffix := List.map_append
  rw [wordToken, hlower]
  refine cutModifier_ofList h.open_not_mem fun c hc => ?_
  rw [lower, List.head?_map] at hc
  obtain ⟨d, hd, rfl⟩ := Option.map_eq_some_iff.mp hc
  rw [hsuffix d hd]
  rfl

/-- **The type that a type word gives**, with a modifier in its token or without one. -/
theorem ofToken?_typeWord (options : Options) (h : IsTypeWord word) (suffix : List Char)
    (hsuffix : ∀ c ∈ suffix.head?, c = '(') :
    ofToken? options (wordToken (word ++ suffix)) =
      (family? options (elementOf (wordToken word)) (wordToken suffix)).map fun family =>
        ⟨normalize (wordToken word), wordToken suffix, family⟩ := by
  have hcut := cutModifier_wordToken h suffix hsuffix
  have hbare := cutModifier_wordToken h [] nofun
  rw [List.append_nil] at hbare
  have helement : elementOf (wordToken (word ++ suffix)) = elementOf (wordToken word) := by
    rw [elementOf, elementOf, hcut, hbare]
  rw [ofToken?_eq, helement, hcut]

/-- **Families with a modifier and without one.** A type that is known with a modifier in its token
is known without one. It is of the same family, or it is `character` or a type of the user that is
called `double`, and then more tokens have to follow. -/
theorem of_family? (hmodifier : modifier ≠ "")
    (h : family? options element modifier = some family) :
    (element = "character" ∧ family = .scalar ∧ family? options element "" = some .character) ∨
      (element = "double" ∧ family = .scalar ∧ family? options element "" = some .double) ∨
      (element ∈ ["timestamp", "time"] ∧ family = .clock ∧
        family? options element "" = some .clock) ∨
      (element ∉ ["character", "double", "timestamp", "time"] ∧ family = .scalar ∧
        family? options element "" = some .scalar) := by
  by_cases hcharacter : element = "character"
  · subst hcharacter
    rw [family?, if_pos rfl, if_neg hmodifier] at h
    exact Or.inl ⟨rfl, (Option.some.inj h).symm, rfl⟩
  by_cases hclock : element = "timestamp" ∨ element = "time"
  · have hbare : ∀ text, family? options element text = some .clock := fun text => by
      rw [family?, if_neg hcharacter, if_pos hclock]
    refine Or.inr (Or.inr (Or.inl ⟨by simpa using hclock, ?_, hbare ""⟩))
    exact (Option.some.inj ((hbare modifier).symm.trans h)).symm
  rw [family?, if_neg hcharacter, if_neg hclock, if_neg fun hd => hmodifier hd.2] at h
  split at h
  next hknown =>
    have hfamily := (Option.some.inj h).symm
    by_cases hdouble : element = "double"
    · refine Or.inr (Or.inl ⟨hdouble, hfamily, ?_⟩)
      rw [family?, if_neg hcharacter, if_neg hclock, if_pos ⟨hdouble, rfl⟩]
    · refine Or.inr (Or.inr (Or.inr ⟨?_, hfamily, ?_⟩))
      · simp [hcharacter, hdouble, not_or.mp hclock]
      · rw [family?, if_neg hcharacter, if_neg hclock, if_neg fun hd => hdouble hd.1, if_pos hknown]
  next => cases h

end ColumnType

end SqlCatalog
