import SqlCatalog.Proofs.Noise.Form

/-!
# What stands open behind a text

Where a mark stands in a dump, be it the quote of a literal or the hyphens of a
comment, its meaning depends on the text in front of it: a rule may have begun
there that has not come to its end. This file says what a rule can make of a text
without quotes, dollar signs and hyphens (`SqlCatalog.Noise.IsUnmarked`), whatever
mark follows it.

The rules read on without looking ahead, so the text in front of the mark decides
what stands open behind it (`SqlCatalog.Noise.Course`):

| the text is | the mark is read |
|---|---|
| no beginning of noise, or noise and more | by another rule |
| the name of a volatile function and an open group | in the group |
| a clause, or a clause and an open group in its tail | in the tail, or in the group |
| the keyword of a clause and white space | as the end of the white space |
| the letter of an escape literal | behind the letter |

A group that is not closed is no group. In a tail it ends the tail, so there the
mark decides whether the tail goes up to it or stops in front of the group.
-/

namespace SqlCatalog

open Text

namespace Noise

open Identifier (doubleQuote)

/-! ### Texts and marks -/

/-- **A text without marks**: no quote, dollar sign or hyphen stands in it. -/
def IsUnmarked (text : List Char) : Prop :=
  ∀ c ∈ text, c ∉ [quote, '$', '-']

instance (text : List Char) : Decidable (IsUnmarked text) :=
  inferInstanceAs (Decidable (∀ c ∈ text, c ∉ [quote, '$', '-']))

/-- **What follows a text without marks**: a quote, a hyphen or the end of the
line. -/
def IsStop (rest : List Char) : Prop :=
  ∃ c tail, rest = c :: tail ∧ c ∈ [quote, '-', '\n']

section Scanners

variable {a b text rest : List Char} {c : Char} {atBoundary : Bool} {depth level : Nat}

namespace IsUnmarked

theorem of_append_right (h : IsUnmarked (a ++ b)) : IsUnmarked b :=
  fun c hc => h c (List.mem_append_right _ hc)

theorem of_cons (h : IsUnmarked (c :: text)) : IsUnmarked text :=
  fun d hd => h d (List.mem_cons_of_mem _ hd)

theorem quote_not_mem (h : IsUnmarked text) : quote ∉ text :=
  fun hq => h quote hq List.mem_cons_self

/-- No literal begins at the head of such a text, unless the letter of an escape
literal is all of it. -/
theorem literal?_eq_none (h : IsUnmarked (c :: text))
    (hletter : atBoundary = true → fold c = 'e' → text ≠ []) (gs : List Glyph) :
    literal? atBoundary (.char c :: (text.map .char ++ gs)) = none := by
  refine Noise.literal?_eq_none (fun hc => h.quote_not_mem (hc ▸ List.mem_cons_self))
    fun hb he hq => ?_
  obtain ⟨d, text, rfl⟩ := List.exists_cons_of_ne_nil (hletter hb he)
  cases hq
  exact h.quote_not_mem (List.mem_cons_of_mem _ List.mem_cons_self)

end IsUnmarked

/-! ### An open group -/

/-- **The course of a group over a text**, whatever follows the text. -/
inductive GroupCourse (depth level : Nat) (text : List Char) : Prop where
  /-- The group is closed in the text. -/
  | closed (a b : List Char) (htext : text = a ++ b)
    (h : ∀ gs, closeGroup depth level false (text.map .char ++ gs) =
      some ⟨a.map .char, b.map .char ++ gs⟩)
  /-- It is no group. -/
  | failed (h : ∀ gs, closeGroup depth level false (text.map .char ++ gs) = none)
  /-- Some of its brackets are open behind the text. -/
  | standing (l : Nat) (hpos : 1 ≤ l) (hdeep : l ≤ depth)
    (h : ∀ gs, closeGroup depth level false (text.map .char ++ gs) =
      (closeGroup depth l false gs).map (Span.before (text.map .char)))

/-- A character that does not end the reading, in front of a course. -/
theorem GroupCourse.cons {level' : Nat} (h : GroupCourse depth level' text)
    (hone : ∀ gs, closeGroup depth level false (.char c :: gs) =
      (closeGroup depth level' false gs).map (Span.cons (.char c))) :
    GroupCourse depth level (c :: text) := by
  cases h with
  | closed a b htext h =>
    refine .closed (c :: a) b (congrArg (c :: ·) htext) fun gs => ?_
    rw [List.map_cons, List.cons_append, hone, h]
    rfl
  | failed h =>
    refine .failed fun gs => ?_
    rw [List.map_cons, List.cons_append, hone, h, Option.map_none]
  | standing l hpos hdeep h =>
    refine .standing l hpos hdeep fun gs => ?_
    rw [List.map_cons, List.cons_append, hone, h, Span.map_cons_map_before]

/-- **A text without quotes settles the course of a group.** -/
theorem groupCourse (hquote : quote ∉ text) (hpos : 1 ≤ level) (hdeep : level ≤ depth) :
    GroupCourse depth level text := by
  induction text generalizing level with
  | nil =>
    refine .standing level hpos hdeep fun gs => ?_
    rw [List.map_nil, List.nil_append]
    cases closeGroup depth level false gs <;> rfl
  | cons c text ih =>
    obtain ⟨hc, hquote'⟩ := not_or.mp fun hq => hquote (List.mem_cons.mpr hq)
    by_cases hopen : c = '('
    · subst hopen
      by_cases hlevel : level < depth
      · refine (ih hquote' (Nat.succ_pos level) hlevel).cons fun gs => ?_
        rw [closeGroup, if_neg (Ne.symm hc), if_pos rfl, if_pos hlevel]
      · refine .failed fun gs => ?_
        rw [List.map_cons, List.cons_append, closeGroup, if_neg (Ne.symm hc), if_pos rfl,
          if_neg hlevel]
    · by_cases hclose : c = ')'
      · subst hclose
        by_cases hlast : level ≤ 1
        · refine .closed [')'] text rfl fun gs => ?_
          rw [List.map_cons, List.cons_append, closeGroup, if_neg (Ne.symm hc), if_neg hopen,
            if_pos rfl, if_pos hlast]
          rfl
        · have hfewer : 1 ≤ level - 1 ∧ level - 1 ≤ depth := by omega
          refine (ih hquote' hfewer.1 hfewer.2).cons fun gs => ?_
          rw [closeGroup, if_neg (Ne.symm hc), if_neg hopen, if_pos rfl, if_neg hlast]
      · refine (ih hquote' hpos hdeep).cons fun gs => ?_
        rw [closeGroup, if_neg (Ne.symm hc), if_neg hopen, if_neg hclose]

/-! ### An open tail -/

/-- What a tail makes of a group that may be closed behind the text: it goes on
behind the group, or stops in front of it. -/
def tailAcross (text front : List Glyph) (inside : List Glyph) (group : Option Span) : Span :=
  match group with
  | some s => (clauseTail true s.rest).before (text ++ s.text)
  | none => ⟨front, inside⟩

/-- **The course of a tail over a text**, whatever follows the text. -/
inductive TailCourse (atBoundary : Bool) (text : List Char) : Prop where
  /-- The tail ends in the text. -/
  | ended (a b : List Char) (htext : text = a ++ b)
    (h : ∀ gs, clauseTail atBoundary (text.map .char ++ gs) = ⟨a.map .char, b.map .char ++ gs⟩)
  /-- It goes on behind the text, of which the letter of an escape literal may be
  left. -/
  | standing (a letter : List Char) (atEnd : Bool) (htext : text = a ++ letter)
    (hletter : ∀ c ∈ letter, fold c = 'e' ∧ atEnd = true) (hone : letter.length ≤ 1)
    (h : ∀ gs, clauseTail atBoundary (text.map .char ++ gs) =
      (clauseTail atEnd (letter.map .char ++ gs)).before (a.map .char))
  /-- A group of the tail is open behind the text. -/
  | inGroup (a b : List Char) (l : Nat) (htext : text = a ++ '(' :: b) (hpos : 1 ≤ l)
    (hdeep : l ≤ maxNesting)
    (h : ∀ gs, clauseTail atBoundary (text.map .char ++ gs) =
      tailAcross (text.map .char) (a.map .char) (('(' :: b).map .char ++ gs)
        (closeGroup maxNesting l false gs))

/-- A part that is read in front of a course. -/
theorem TailCourse.append {atEnd : Bool} (h : TailCourse atEnd b)
    (hread : ∀ gs, clauseTail atBoundary ((a ++ b).map .char ++ gs) =
      (clauseTail atEnd (b.map .char ++ gs)).before (a.map .char)) :
    TailCourse atBoundary (a ++ b) := by
  cases h with
  | ended x y htext h =>
    refine .ended (a ++ x) y (by rw [htext, List.append_assoc]) fun gs => ?_
    rw [hread, h]
    simp [Span.before]
  | standing x letter atEnd htext hletter hone h =>
    refine .standing (a ++ x) letter atEnd (by rw [htext, List.append_assoc]) hletter hone
      fun gs => ?_
    rw [hread, h]
    simp [Span.before]
  | inGroup x y l htext hpos hdeep h =>
    refine .inGroup (a ++ x) y l (by rw [htext, List.append_assoc]) hpos hdeep fun gs => ?_
    rw [hread, h]
    cases closeGroup maxNesting l false gs <;> simp [tailAcross, Span.before]

/-- **The course of a tail at an open bracket** is that of the group there. Behind a group that
is closed the tail goes on, and what it makes of the rest is known. -/
theorem tailCourse_open (hquote : quote ∉ text)
    (hpart : ∀ gs, tailPart? atBoundary (.char '(' :: (text.map .char ++ gs)) =
      group maxNesting (.char '(' :: (text.map .char ++ gs)))
    (hbehind : ∀ a b, text = a ++ b → TailCourse true b) :
    TailCourse atBoundary ('(' :: text) := by
  have hends : endsTail '(' = true := rfl
  have hcourse : GroupCourse maxNesting 1 text :=
    groupCourse hquote (Nat.le_refl 1) (by decide)
  cases hcourse with
  | closed a b htext hgroup =>
    have hb := hbehind a b htext
    subst htext
    refine hb.append (a := '(' :: a) fun gs => ?_
    have hsome := (hpart gs).trans (group_open _ _)
    rw [hgroup, Option.map_some] at hsome
    rw [List.cons_append, List.map_cons, List.cons_append, clauseTail_of_part hsome]
    rfl
  | failed hgroup =>
    refine .ended [] ('(' :: text) rfl fun gs => ?_
    have hnone := (hpart gs).trans (group_open _ _)
    rw [hgroup, Option.map_none] at hnone
    rw [List.map_cons, List.cons_append, clauseTail_of_char hnone, if_pos hends]
    rfl
  | standing l hpos hdeep hgroup =>
    refine .inGroup [] text l rfl hpos hdeep fun gs => ?_
    have hread := (hpart gs).trans (group_open _ _)
    rw [hgroup] at hread
    rw [List.map_cons, List.cons_append]
    cases hclose : closeGroup maxNesting l false gs with
    | none =>
      rw [hclose] at hread
      rw [clauseTail_of_char hread, if_pos hends]
      rfl
    | some s =>
      rw [hclose] at hread
      rw [clauseTail_of_part hread]
      rfl

/-- **A text without marks settles the course of a tail.** -/
theorem tailCourse (h : IsUnmarked text) (atBoundary : Bool) : TailCourse atBoundary text := by
  -- a group is taken off as a whole
  generalize hn : text.length = n
  induction n using Nat.strongRecOn generalizing text atBoundary with
  | ind n ih =>
  cases text with
  | nil => exact .standing [] [] atBoundary rfl nofun (Nat.zero_le _) fun gs => rfl
  | cons c text =>
    have hshorter : text.length < n := by
      rw [← hn]
      exact Nat.lt_succ_self _
    by_cases hescape : atBoundary = true ∧ fold c = 'e' ∧ text = []
    · obtain ⟨rfl, hc, rfl⟩ := hescape
      refine .standing [] [c] true rfl (fun d hd => ?_) (Nat.le_refl _) fun gs => rfl
      rw [List.mem_singleton.mp hd]
      exact ⟨hc, rfl⟩
    have hpart : ∀ gs, tailPart? atBoundary (.char c :: (text.map .char ++ gs)) =
        group maxNesting (.char c :: (text.map .char ++ gs)) := fun gs =>
      tailPart?_of_none (h.literal?_eq_none (fun hb he hnil => hescape ⟨hb, he, hnil⟩) gs)
    by_cases hopen : c = '('
    · subst hopen
      refine tailCourse_open h.of_cons.quote_not_mem hpart ?_
      rintro a b rfl
      exact ih b.length (Nat.lt_of_le_of_lt (by simp) hshorter) h.of_cons.of_append_right true rfl
    · have hchar := fun gs => clauseTail_of_char ((hpart gs).trans (group_of_ne hopen))
      cases hends : endsTail c with
      | true =>
        refine .ended [] (c :: text) rfl fun gs => ?_
        rw [List.map_cons, List.cons_append, hchar, hends, if_pos rfl]
        rfl
      | false =>
        refine (ih _ hshorter h.of_cons (!isWord c) rfl).append (a := [c]) fun gs => ?_
        rw [List.singleton_append, List.map_cons, List.cons_append, hchar, hends,
          if_neg Bool.false_ne_true]
        rfl

/-! ### Keywords and names -/

/-- **A text settles a reading** in front of a stop: how far it goes in the text does
not depend on what follows. -/
def Settles (read : List Glyph → Span) (text : List Char) : Prop :=
  ∃ a b, text = a ++ b ∧ ∀ rest, IsStop rest →
    read ((text ++ rest).map .char) = ⟨a.map .char, (b ++ rest).map .char⟩

/-- A stop is no part of a name. -/
theorem IsStop.endsName (h : IsStop rest) : ∀ c ∈ rest.head?, EndsName c := by
  obtain ⟨c, tail, rfl, hc⟩ := h
  have hmarks : ∀ c ∈ [quote, '-', '\n'], EndsName c := by decide
  exact fun d hd => Option.some.inj hd ▸ hmarks c hc

/-- Nor does it open a bracket. -/
theorem IsStop.group_eq_none (h : IsStop rest) : group depth (rest.map .char) = none := by
  obtain ⟨c, tail, rfl, hc⟩ := h
  refine group_of_ne ?_
  rintro rfl
  exact absurd hc (by decide)

theorem settles_takeChars {p : Char → Bool} (hp : ∀ c ∈ [quote, '-', '\n'], ¬p c)
    (text : List Char) : Settles (takeChars p) text := by
  induction text with
  | nil =>
    refine ⟨[], [], rfl, ?_⟩
    rintro rest ⟨c, tail, rfl, hc⟩
    exact if_neg (hp c hc)
  | cons c text ih =>
    by_cases hc : p c
    · obtain ⟨a, b, rfl, h⟩ := ih
      refine ⟨c :: a, b, rfl, fun rest hrest => ?_⟩
      rw [List.cons_append, List.map_cons, takeChars, if_pos hc, h rest hrest]
      rfl
    · refine ⟨[], c :: text, rfl, fun rest _ => ?_⟩
      rw [List.cons_append, List.map_cons, takeChars, if_neg hc]
      rfl

theorem settles_optionalChar (text : List Char) : Settles (optionalChar doubleQuote) text := by
  cases text with
  | nil =>
    refine ⟨[], [], rfl, fun rest hrest => ?_⟩
    obtain ⟨c, tail, rfl, -⟩ := id hrest
    exact if_neg fun hc => (hrest.endsName c rfl).2 (Glyph.char.inj hc)
  | cons c text =>
    by_cases hc : c = doubleQuote
    · refine ⟨[c], text, rfl, fun rest _ => ?_⟩
      rw [List.cons_append, List.map_cons, optionalChar, if_pos (congrArg Glyph.char hc)]
      rfl
    · refine ⟨[], c :: text, rfl, fun rest _ => ?_⟩
      rw [List.cons_append, List.map_cons, optionalChar, if_neg fun he => hc (Glyph.char.inj he)]
      rfl

/-- **A text settles the name at its head**, if there is one. -/
theorem constraintName_cases (text : List Char) :
    (∀ rest, IsStop rest → constraintName ((text ++ rest).map .char) = none) ∨
      ∃ a b, text = a ++ b ∧ ∀ rest, IsStop rest →
        constraintName ((text ++ rest).map .char) =
          some ⟨a.map .char, (b ++ rest).map .char⟩ := by
  obtain ⟨a₁, b₁, rfl, h₁⟩ := settles_optionalChar text
  obtain ⟨a₂, b₂, rfl, h₂⟩ := settles_takeChars (p := isNameChar) (by decide) b₁
  obtain ⟨a₃, b₃, rfl, h₃⟩ := settles_optionalChar b₂
  have hread : ∀ rest, IsStop rest →
      constraintName ((a₁ ++ (a₂ ++ (a₃ ++ b₃)) ++ rest).map .char) =
        if a₂ = [] then none
        else some ⟨(a₁ ++ (a₂ ++ a₃)).map .char, (b₃ ++ rest).map .char⟩ := by
    intro rest hrest
    rw [constraintName, h₁ rest hrest]
    dsimp only
    rw [h₂ rest hrest]
    dsimp only
    rw [h₃ rest hrest]
    simp [Span.before]
  by_cases hname : a₂ = []
  · exact Or.inl fun rest hrest => by rw [hread rest hrest, if_pos hname]
  · refine Or.inr ⟨a₁ ++ (a₂ ++ a₃), b₃, by simp, fun rest hrest => ?_⟩
    rw [hread rest hrest, if_neg hname]

/-- No name begins at a stop. -/
theorem IsStop.constraintName_eq_none (h : IsStop rest) :
    constraintName (rest.map .char) = none := by
  obtain ⟨c, tail, rfl, -⟩ := id h
  obtain ⟨hname, hquote⟩ := h.endsName c rfl
  have hbefore : optionalChar doubleQuote ((c :: tail).map .char) =
      Span.nothing ((c :: tail).map .char) := if_neg fun he => hquote (Glyph.char.inj he)
  have hrun : takeChars isNameChar ((c :: tail).map .char) =
      Span.nothing ((c :: tail).map .char) := if_neg (Bool.eq_false_iff.mp hname)
  rw [constraintName, hbefore, Span.rest_nothing, hrun]
  exact if_pos rfl

/-- A name has a character. -/
theorem text_ne_nil_of_constraintName {gs : List Glyph} {s : Span}
    (h : constraintName gs = some s) : s.text ≠ [] := by
  unfold constraintName at h
  dsimp only at h
  split at h
  · cases h
  · next hname =>
    cases h
    rw [Span.text_before, Span.text_before]
    exact List.append_ne_nil_of_right_ne_nil _ (List.append_ne_nil_of_left_ne_nil hname _)

/-- **A text settles whether a keyword stands at its head.** -/
theorem keyword_cases {word : List Char} (hword : ∀ c ∈ word, isWord c) (text : List Char) :
    (∃ a b, text = a ++ b ∧ a.map fold = word) ∨
      ∀ rest, IsStop rest → keyword word ((text ++ rest).map .char) = none := by
  by_cases hp : word <+: text.map fold
  · obtain ⟨tail, htail⟩ := hp
    obtain ⟨a, b, rfl, ha, -⟩ := List.map_eq_append_iff.mp htail.symm
    exact Or.inl ⟨a, b, rfl, ha⟩
  · refine Or.inr fun rest hrest => Option.eq_none_iff_forall_ne_some.mpr fun s hs => ?_
    obtain ⟨x, y, htext, hx, -⟩ := of_keyword hs
    obtain ⟨c, tail, rfl, hc⟩ := hrest
    -- the keyword does not go on behind the text
    rcases List.append_eq_append_iff.mp htext with ⟨z, rfl, hz⟩ | ⟨z, rfl, -⟩
    · cases z with
      | nil =>
        rw [List.append_nil] at hx
        exact hp (hx ▸ List.prefix_rfl)
      | cons d z =>
        obtain rfl : c = d := (List.cons.inj hz).1
        have hmark : isWord c = false ∧ fold c = c := by
          have hmarks : ∀ c ∈ [quote, '-', '\n'], isWord c = false ∧ fold c = c := by decide
          exact hmarks c hc
        have hmem : fold c ∈ word :=
          hx ▸ List.mem_map_of_mem (List.mem_append_right _ List.mem_cons_self)
        have hcw := hword _ hmem
        rw [hmark.2, hmark.1] at hcw
        cases hcw
    · refine hp ⟨z.map fold, ?_⟩
      rw [← hx, List.map_append]

/-! ### Open noise -/

/-- **What stands open behind a text** at whose head a rule may have begun, in
front of a stop. -/
inductive Course (atBoundary : Bool) (text : List Char) : Prop where
  /-- No rule applies. -/
  | silent (h : ∀ rest, IsStop rest → noise? atBoundary ((text ++ rest).map .char) = none)
  /-- Noise ends in the text. -/
  | ended (kind : Kind) (a b : List Char) (htext : text = a ++ b)
    (h : ∀ rest, IsStop rest → noise? atBoundary ((text ++ rest).map .char) =
      some (kind, ⟨a.map .char, (b ++ rest).map .char⟩))
  /-- The group of a call is open. -/
  | call (l : Nat) (hpos : 1 ≤ l) (hdeep : l ≤ maxNesting)
    (h : ∀ rest, IsStop rest → noise? atBoundary ((text ++ rest).map .char) =
      (closeGroup maxNesting l false (rest.map .char)).map fun s =>
        (.call, s.before (text.map .char)))
  /-- The tail of a clause goes on, and the letter of an escape literal may be left of
  the text. -/
  | tail (name : List Glyph) (front letter : List Char) (atEnd : Bool)
    (htext : text = front ++ letter) (hletter : ∀ c ∈ letter, fold c = 'e' ∧ atEnd = true)
    (hone : letter.length ≤ 1)
    (h : ∀ rest, IsStop rest → noise? atBoundary ((text ++ rest).map .char) =
      some (.clause name,
        (clauseTail atEnd ((letter ++ rest).map .char)).before (front.map .char)))
  /-- A group in the tail of a clause is open. -/
  | tailGroup (name : List Glyph) (front inside : List Char) (l : Nat)
    (htext : text = front ++ '(' :: inside) (hpos : 1 ≤ l) (hdeep : l ≤ maxNesting)
    (h : ∀ rest, IsStop rest → noise? atBoundary ((text ++ rest).map .char) =
      some (.clause name, tailAcross (text.map .char) (front.map .char)
        (('(' :: inside ++ rest).map .char) (closeGroup maxNesting l false (rest.map .char))))
  /-- The keyword of a clause and white space, which more white space would carry on to
  the name. -/
  | gap (keyword blanks : List Char) (htext : text = keyword ++ blanks)
    (hkeyword : keyword.map fold = clauseKeyword) (hblanks : ∀ c ∈ blanks, isBlank c)
    (h : ∀ rest, IsStop rest → (∀ c ∈ rest.head?, ¬isBlank c) →
      noise? atBoundary ((text ++ rest).map .char) = none)
    (hnamed : ∀ rest, IsStop rest → ∀ kind s,
      noise? atBoundary ((text ++ rest).map .char) = some (kind, s) →
        (∃ name, kind = .clause name) ∧ text.length < s.text.length)
  /-- The letter of an escape literal. -/
  | letter (c : Char) (htext : text = [c]) (hc : fold c = 'e') (hb : atBoundary = true)

/-- At a character that is no mark there is a call or a clause, if there is
anything. -/
theorem noise?_of_unmarked {gs : List Glyph} (hc : c ∉ [quote, '$', '-'])
    (hliteral : literal? atBoundary (.char c :: gs) = none) :
    noise? atBoundary (.char c :: gs) =
      match call? atBoundary (.char c :: gs) with
      | some s => some (.call, s)
      | none => (clause? atBoundary (.char c :: gs)).map fun c => (.clause c.name, c.span) := by
  obtain ⟨-, hdollar, hhyphen⟩ : c ≠ quote ∧ c ≠ '$' ∧ c ≠ '-' := by simpa using hc
  rw [noise?, hliteral, comment?_of_ne fun h => hhyphen ((fold_eq_iff rfl).mp h),
    dollarBody?_of_ne fun h => hdollar ((fold_eq_iff rfl).mp h)]
  dsimp only
  cases call? atBoundary (.char c :: gs) with
  | some s => rfl
  | none => cases clause? atBoundary (.char c :: gs) <;> rfl

/-- **The course of a call.** -/
theorem course_call {name : List Char} (h : IsUnmarked text)
    (hread : ∀ rest, IsStop rest → noise? atBoundary ((name ++ text ++ rest).map .char) =
      ((group maxNesting ((text ++ rest).map .char)).map
        (Span.before (name.map .char))).map fun s => (.call, s)) :
    Course atBoundary (name ++ text) := by
  have hsilent : (∀ rest, IsStop rest → group maxNesting ((text ++ rest).map .char) = none) →
      Course atBoundary (name ++ text) := fun hgroup =>
    .silent fun rest hrest => by rw [hread rest hrest, hgroup rest hrest]; rfl
  cases text with
  | nil => exact hsilent fun rest hrest => hrest.group_eq_none
  | cons c text =>
    by_cases hopen : c = '('
    · subst hopen
      have hcourse : GroupCourse maxNesting 1 text :=
        groupCourse h.of_cons.quote_not_mem (Nat.le_refl 1) (by decide)
      cases hcourse with
      | closed a b htext hgroup =>
        subst htext
        refine .ended .call (name ++ '(' :: a) b (by simp) fun rest hrest => ?_
        have hclose := hgroup (rest.map .char)
        rw [hread rest hrest, List.cons_append, List.map_cons, group_open, List.map_append, hclose]
        simp [Span.before, Span.cons]
      | failed hgroup =>
        refine hsilent fun rest _ => ?_
        rw [List.cons_append, List.map_cons, group_open, List.map_append, hgroup, Option.map_none]
      | standing l hpos hdeep hgroup =>
        refine .call l hpos hdeep fun rest hrest => ?_
        rw [hread rest hrest, List.cons_append, List.map_cons, group_open, List.map_append, hgroup]
        cases closeGroup maxNesting l false (rest.map .char) <;> simp [Span.before, Span.cons]
    · exact hsilent fun rest _ => group_of_ne hopen

/-- **The course of a clause** whose name is read. -/
theorem course_clause {front : List Char} (name : List Glyph) (h : IsUnmarked text)
    (hread : ∀ rest, IsStop rest → noise? atBoundary ((front ++ text ++ rest).map .char) =
      some (.clause name, (clauseTail true ((text ++ rest).map .char)).before
        (front.map .char))) :
    Course atBoundary (front ++ text) := by
  cases tailCourse h true with
  | ended a b htext htail =>
    refine .ended (.clause name) (front ++ a) b (by simp [htext]) fun rest hrest => ?_
    have hended := htail (rest.map .char)
    rw [hread rest hrest, List.map_append, hended]
    simp [Span.before]
  | standing a letter atEnd htext hletter hone htail =>
    refine .tail name (front ++ a) letter atEnd (by simp [htext]) hletter hone fun rest hrest => ?_
    have hstanding := htail (rest.map .char)
    rw [hread rest hrest, List.map_append, hstanding, List.map_append]
    simp [Span.before]
  | inGroup a b l htext hpos hdeep htail =>
    refine .tailGroup name (front ++ a) b l (by simp [htext]) hpos hdeep fun rest hrest => ?_
    have hgroup := htail (rest.map .char)
    rw [hread rest hrest, List.map_append, hgroup]
    cases closeGroup maxNesting l false (rest.map .char) <;> simp [tailAcross, Span.before]

/-- A clause goes on behind its keyword and white space. -/
theorem length_lt_of_clause? {keyword blanks : List Char} {clause : Clause}
    (hkeyword : keyword.map fold = clauseKeyword) (hblanks : ∀ c ∈ blanks, isBlank c)
    (h : clause? atBoundary ((keyword ++ blanks ++ rest).map .char) = some clause) :
    (keyword ++ blanks).length < clause.span.text.length := by
  rw [clause?] at h
  split at h
  · rw [List.append_assoc, keyword_append hkeyword, Option.bind_some, List.map_append,
      takeChars_before hblanks] at h
    dsimp only at h
    split at h
    · cases h
    · obtain ⟨name, hname, rfl⟩ := Option.map_eq_some_iff.mp h
      have hpos := List.length_pos_iff.mpr (text_ne_nil_of_constraintName hname)
      simp only [Span.text_before, List.length_append, List.length_map]
      omega
  · cases h

/-- **The course of what may be a clause**, behind its keyword. -/
theorem course_keyword {keyword : List Char} (h : IsUnmarked text)
    (hkeyword : keyword.map fold = clauseKeyword)
    (hread : ∀ rest, IsStop rest → noise? true ((keyword ++ text ++ rest).map .char) =
      (clause? true ((keyword ++ text ++ rest).map .char)).map fun c =>
        (.clause c.name, c.span)) :
    Course true (keyword ++ text) := by
  obtain ⟨blanks, name, rfl, hblanks, hname⟩ : ∃ blanks name, text = blanks ++ name ∧
      (∀ c ∈ blanks, isBlank c) ∧ ∀ c ∈ name.head?, ¬isBlank c := by
    refine ⟨text.takeWhile isBlank, text.dropWhile isBlank,
      List.takeWhile_append_dropWhile.symm, List.all_eq_true.mp List.all_takeWhile, ?_⟩
    rintro c hc
    have hnot := List.head?_dropWhile_not isBlank text
    rw [hc] at hnot
    simpa using hnot
  have hclause : ∀ rest, IsStop rest → (∀ c ∈ (name ++ rest).head?, ¬isBlank c) →
      noise? true ((keyword ++ (blanks ++ name) ++ rest).map .char) =
        if blanks = [] then none
        else (constraintName ((name ++ rest).map .char)).map fun n => (.clause n.text,
          ((((clauseTail true n.rest).before n.text).before (blanks.map .char)).before
            (keyword.map .char))) := by
    intro rest hrest hhead
    rw [hread rest hrest, List.append_assoc, List.append_assoc,
      clause?_append hkeyword hblanks hhead]
    split
    · rfl
    · rw [Option.map_map]
      rfl
  cases name with
  | nil =>
    rw [List.append_nil] at hread hclause ⊢
    refine .gap keyword blanks rfl hkeyword hblanks (fun rest hrest hhead => ?_)
      fun rest hrest kind s hs => ?_
    · rw [hclause rest hrest hhead]
      split
      · rfl
      · rw [List.nil_append, hrest.constraintName_eq_none, Option.map_none]
    · rw [hread rest hrest] at hs
      obtain ⟨clause, hclause, he⟩ := Option.map_eq_some_iff.mp hs
      cases he
      exact ⟨⟨_, rfl⟩, length_lt_of_clause? hkeyword hblanks hclause⟩
  | cons x xs =>
    have hhead : ∀ rest : List Char, ∀ c ∈ (x :: xs ++ rest).head?, ¬isBlank c := fun _ => hname
    by_cases hgap : blanks = []
    · exact .silent fun rest hrest => by rw [hclause rest hrest (hhead rest), if_pos hgap]
    rcases constraintName_cases (x :: xs) with hnone | ⟨n, t, hnt, hsome⟩
    · exact .silent fun rest hrest => by
        rw [hclause rest hrest (hhead rest), if_neg hgap, hnone rest hrest, Option.map_none]
    · rw [hnt] at h hclause hsome hhead ⊢
      have hfront : keyword ++ (blanks ++ (n ++ t)) = keyword ++ (blanks ++ n) ++ t := by simp
      rw [hfront] at hclause ⊢
      refine course_clause (n.map .char) h.of_append_right.of_append_right fun rest hrest => ?_
      rw [hclause rest hrest (hhead rest), if_neg hgap, hsome rest hrest, Option.map_some]
      simp [Span.before]

/-- No call begins in a text at whose head no name of a volatile function stands. -/
theorem call?_eq_none_of_stop
    (hname : ¬∃ name tail, text = name ++ tail ∧ name.map fold ∈ volatileCalls)
    (hrest : IsStop rest) : call? atBoundary ((text ++ rest).map .char) = none := by
  rw [call?]
  split
  · rw [List.findSome?_eq_none_iff]
    intro word hword
    have hwords : ∀ name ∈ volatileCalls, ∀ c ∈ name, isWord c := by decide
    rcases keyword_cases (hwords word hword) text with ⟨a, b, hab, ha⟩ | hnone
    · exact absurd ⟨a, b, hab, ha ▸ hword⟩ hname
    · rw [opened, hnone rest hrest, Option.bind_none]
  · rfl

/-- No clause begins where the name of a volatile function stands. -/
theorem clause?_eq_none_of_call {name : List Char} (h : name.map fold ∈ volatileCalls)
    (rest : List Char) : clause? atBoundary ((name ++ rest).map .char) = none := by
  have hheads : ∀ word ∈ volatileCalls, word.head? ≠ some 'c' ∧ word ≠ [] := by decide
  obtain ⟨hhead, hne⟩ := hheads _ h
  cases name with
  | nil => exact absurd rfl hne
  | cons x xs => exact clause?_of_ne fun hx => hhead (congrArg some hx)

/-- **A text without marks settles what stands open behind it.** -/
theorem course (h : IsUnmarked text) (hne : text ≠ []) (atBoundary : Bool) :
    Course atBoundary text := by
  obtain ⟨c, tail, htext⟩ := List.exists_cons_of_ne_nil hne
  by_cases hescape : atBoundary = true ∧ fold c = 'e' ∧ tail = []
  · obtain ⟨hb, hc, rfl⟩ := hescape
    exact .letter c htext hc hb
  have hnoise : ∀ rest : List Char, noise? atBoundary ((text ++ rest).map .char) =
      match call? atBoundary ((text ++ rest).map .char) with
      | some s => some (.call, s)
      | none => (clause? atBoundary ((text ++ rest).map .char)).map fun c =>
          (.clause c.name, c.span) := by
    subst htext
    intro rest
    have hliteral := h.literal?_eq_none (fun hb he hnil => hescape ⟨hb, he, hnil⟩)
      (rest.map .char)
    rw [← List.map_append] at hliteral
    exact noise?_of_unmarked (h c List.mem_cons_self) hliteral
  have hsilent : (∀ rest, IsStop rest → call? atBoundary ((text ++ rest).map .char) = none) →
      (∀ rest, IsStop rest → clause? atBoundary ((text ++ rest).map .char) = none) →
      Course atBoundary text := fun hcall hclause =>
    .silent fun rest hrest => by rw [hnoise, hcall rest hrest, hclause rest hrest]; rfl
  cases atBoundary with
  | false => exact hsilent (fun _ _ => rfl) fun _ _ => rfl
  | true =>
    by_cases hname : ∃ name tail, text = name ++ tail ∧ name.map fold ∈ volatileCalls
    · obtain ⟨name, tail', rfl, hname⟩ := hname
      refine course_call h.of_append_right fun rest hrest => ?_
      rw [hnoise, List.append_assoc, clause?_eq_none_of_call hname, call?_append hname]
      cases group maxNesting ((tail' ++ rest).map .char) <;> rfl
    have hcall : ∀ rest, IsStop rest → call? true ((text ++ rest).map .char) = none :=
      fun _ => call?_eq_none_of_stop hname
    have hwords : ∀ c ∈ clauseKeyword, isWord c := by decide
    rcases keyword_cases hwords text with ⟨k, r, rfl, hk⟩ | hnone
    · have hread : ∀ rest, IsStop rest → noise? true ((k ++ r ++ rest).map .char) =
          (clause? true ((k ++ r ++ rest).map .char)).map fun c => (.clause c.name, c.span) :=
        fun rest hrest => by rw [hnoise, hcall rest hrest]
      exact course_keyword h.of_append_right hk hread
    · refine hsilent hcall fun rest hrest => ?_
      rw [clause?, if_pos rfl, hnone rest hrest, Option.bind_none]

end Scanners

end Noise

end SqlCatalog
