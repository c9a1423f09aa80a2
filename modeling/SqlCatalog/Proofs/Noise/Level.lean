import Mathlib.Algebra.Group.Nat.Even
import SqlCatalog.Proofs.Noise.Part
import SqlCatalog.Proofs.Text.Matching

/-!
# Nesting levels

How deep a place of a text is nested can be told by counting: the brackets in front of it count
that stand outside quotes, and those are the ones that have an even number of quotes in front of
them (`SqlCatalog.Noise.nestingLevel`). A *group* begins with a bracket and ends where its level is
zero again for the first time (`SqlCatalog.Noise.IsGroup`).

The scanner of groups does not count quotes. It keeps a level and whether a quote is open, and the
two are what counting gives for the text it has read. So what it reads behind a text is what the
counts say of the two put together (`SqlCatalog.Noise.closeGroup_eq_some_iff`), and what it reads
as a group is one (`SqlCatalog.Noise.group_eq_some_iff`).
-/

namespace SqlCatalog

open Text

namespace Noise

/-! ### Levels -/

/-- **How often a bracket stands outside quotes**, with an even number of quotes in front of it. -/
def unquoted (bracket : Char) (text : List Char) : Nat :=
  (List.range text.length).countP fun k =>
    text[k]? = some bracket ∧ Even ((text.take k).count quote)

/-- **The nesting level behind a text.** -/
def nestingLevel (text : List Char) : Int :=
  unquoted '(' text - unquoted ')' text

variable {front tail text : List Char} {c bracket : Char} {depth l : Nat} {quoted : Bool}
  {gs : List Glyph} {s : Span}

/-- A bracket counts behind an even number of quotes. -/
theorem unquoted_concat (bracket : Char) (text : List Char) (c : Char) :
    unquoted bracket (text ++ [c]) =
      unquoted bracket text + if c = bracket ∧ Even (text.count quote) then 1 else 0 := by
  have hbefore : ∀ k ∈ List.range text.length,
      decide ((text ++ [c])[k]? = some bracket ∧ Even (((text ++ [c]).take k).count quote)) = true ↔
        decide (text[k]? = some bracket ∧ Even ((text.take k).count quote)) = true := by
    intro k hk
    have hlt : k < text.length := List.mem_range.mp hk
    rw [List.getElem?_append_left hlt, List.take_append_of_le_length (Nat.le_of_lt hlt)]
  rw [unquoted, List.length_append, List.length_singleton, List.range_succ, List.countP_append,
    List.countP_congr hbefore, List.countP_singleton, List.take_left]
  simp [unquoted]

/-- **One character more** changes the level if it is a bracket behind an even number of quotes. -/
theorem nestingLevel_concat (text : List Char) (c : Char) :
    nestingLevel (text ++ [c]) = nestingLevel text +
      if Even (text.count quote) then if c = '(' then 1 else if c = ')' then -1 else 0 else 0 := by
  rw [nestingLevel, nestingLevel, unquoted_concat, unquoted_concat]
  by_cases heven : Even (text.count quote)
  · rw [if_pos heven]
    by_cases hopen : c = '('
    · subst hopen
      rw [if_pos ⟨rfl, heven⟩, if_neg fun h => absurd h.1 (by decide), if_pos rfl]
      omega
    rw [if_neg fun h => hopen h.1, if_neg hopen]
    by_cases hclose : c = ')'
    · subst hclose
      rw [if_pos ⟨rfl, heven⟩, if_pos rfl]
      omega
    · rw [if_neg fun h => hclose h.1, if_neg hclose]
      omega
  · rw [if_neg fun h => heven h.2, if_neg fun h => heven h.2, if_neg heven]
    omega

/-- A character that is no bracket keeps the level. -/
theorem nestingLevel_concat_of_ne (hopen : c ≠ '(') (hclose : c ≠ ')') (text : List Char) :
    nestingLevel (text ++ [c]) = nestingLevel text := by
  rw [nestingLevel_concat, if_neg hopen, if_neg hclose, ite_self, Int.add_zero]

theorem even_count_concat :
    Even ((text ++ [c]).count quote) ↔ (Even (text.count quote) ↔ c ≠ quote) := by
  rw [List.count_append, List.count_singleton, Nat.even_add]
  by_cases hc : c = quote <;> simp [hc]

/-! ### Groups -/

/-- **A bracket group** at most `depth` levels deep. -/
structure IsGroup (depth : Nat) (text : List Char) : Prop where
  /-- It begins with a bracket. -/
  begins : text.head? = some '('
  /-- Its quotes are closed. -/
  quotes : Even (text.count quote)
  /-- Its brackets are closed, -/
  closed : nestingLevel text = 0
  /-- and they are not before its end. -/
  first : ∀ front, front <+: text → front ≠ [] → front ≠ text → nestingLevel front ≠ 0
  /-- It is nowhere nested more deeply. -/
  nested : ∀ front, front <+: text → nestingLevel front ≤ depth

/-- **The rest of a group** behind a text. -/
structure ClosesBehind (depth : Nat) (front tail : List Char) : Prop where
  /-- The quotes of both are closed. -/
  quotes : Even ((front ++ tail).count quote)
  /-- The brackets of both are closed, -/
  closed : nestingLevel (front ++ tail) = 0
  /-- and they are not before the end. -/
  first : ∀ part, part <+: tail → part ≠ tail → nestingLevel (front ++ part) ≠ 0
  /-- From the end of the text on the two are nowhere nested more deeply. -/
  nested : ∀ part, part <+: tail → nestingLevel (front ++ part) ≤ depth

/-- **The rest of a group by its first character.** -/
theorem closesBehind_cons : ClosesBehind depth front (c :: tail) ↔
    nestingLevel front ≠ 0 ∧ nestingLevel front ≤ depth ∧
      ClosesBehind depth (front ++ [c]) tail := by
  have hbehind : ∀ part, front ++ c :: part = front ++ [c] ++ part := fun part => by simp
  constructor
  · rintro ⟨hquotes, hclosed, hfirst, hnested⟩
    obtain ⟨hhere, hnested⟩ := forall_prefix_cons.mp hnested
    obtain ⟨hzero, hfirst⟩ := forall_prefix_cons.mp hfirst
    rw [List.append_nil] at hhere hzero
    refine ⟨hzero (List.cons_ne_nil _ _).symm, hhere, ?_, ?_, fun part hpart hne => ?_,
      fun part hpart => ?_⟩
    · rwa [← hbehind]
    · rwa [← hbehind]
    · rw [← hbehind]
      exact hfirst part hpart fun h => hne (List.cons.inj h).2
    · rw [← hbehind]
      exact hnested part hpart
  · rintro ⟨hzero, hhere, hquotes, hclosed, hfirst, hnested⟩
    refine ⟨?_, ?_, forall_prefix_cons.mpr ⟨fun _ => ?_, fun part hpart hne => ?_⟩,
      forall_prefix_cons.mpr ⟨?_, fun part hpart => ?_⟩⟩
    · rwa [hbehind]
    · rwa [hbehind]
    · rwa [List.append_nil]
    · rw [hbehind]
      exact hfirst part hpart fun h => hne (h ▸ rfl)
    · rwa [List.append_nil]
    · rw [hbehind]
      exact hnested part hpart

/-- Where all is closed nothing is left of a group. -/
theorem closesBehind_of_closed (hquotes : Even (front.count quote))
    (hclosed : nestingLevel front = 0) : ClosesBehind depth front tail ↔ tail = [] := by
  constructor
  · intro h
    by_contra hne
    refine h.first [] List.nil_prefix (Ne.symm hne) ?_
    rwa [List.append_nil]
  · rintro rfl
    have hpart : ∀ part, part <+: ([] : List Char) → nestingLevel (front ++ part) = 0 := by
      intro part hpart
      rwa [List.prefix_nil.mp hpart, List.append_nil]
    refine ⟨by rwa [List.append_nil], hpart [] List.nil_prefix, fun part hp hne => ?_,
      fun part hp => ?_⟩
    · exact absurd (List.prefix_nil.mp hp) hne
    · rw [hpart part hp]
      exact Int.natCast_nonneg depth

/-- **A group by its first character.** -/
theorem isGroup_cons : IsGroup depth ('(' :: tail) ↔ ClosesBehind depth ['('] tail := by
  constructor
  · intro h
    refine ⟨h.quotes, h.closed, fun part hpart hne => ?_, fun part hpart => ?_⟩
    · exact h.first _ (List.cons_prefix_cons.mpr ⟨rfl, hpart⟩) (List.cons_ne_nil _ _)
        fun he => hne (List.cons.inj he).2
    · exact h.nested _ (List.cons_prefix_cons.mpr ⟨rfl, hpart⟩)
  · intro h
    refine ⟨rfl, h.quotes, h.closed, ?_, ?_⟩
    · refine forall_prefix_cons.mpr ⟨fun hne => absurd rfl hne, fun part hpart _ hne => ?_⟩
      exact h.first part hpart fun he => hne (he ▸ rfl)
    · exact forall_prefix_cons.mpr ⟨Int.natCast_nonneg depth, h.nested⟩

/-! ### Scanning -/

theorem Span.map_cons_eq_some_iff {o : Option Span} {g : Glyph} {read rest : List Glyph} :
    o.map (Span.cons g) = some ⟨g :: read, rest⟩ ↔ o = some ⟨read, rest⟩ := by
  cases o with
  | none => simp
  | some s =>
    cases s
    simp [Span.cons]

/-- What closes a group is at least a bracket. -/
theorem closeGroup_text_ne_nil (h : closeGroup depth l quoted gs = some s) : s.text ≠ [] := by
  have hcons : ∀ {c : Char} {o : Option Span}, o.map (Span.cons (.char c)) = some s →
      s.text ≠ [] := by
    intro c o h
    obtain ⟨t, -, rfl⟩ := Option.map_eq_some_iff.mp h
    exact List.cons_ne_nil _ _
  match gs, quoted with
  | [], _ => cases h
  | .stray _ :: _, _ => cases h
  | .char c :: gs, true => exact hcons h
  | .char c :: gs, false =>
    rw [closeGroup] at h
    split at h
    · exact hcons h
    split at h
    · split at h
      · exact hcons h
      · cases h
    split at h
    · split at h
      · cases h
        exact List.cons_ne_nil _ _
      · exact hcons h
    · exact hcons h

/-- **What the scanner knows behind a text** that has not closed a group: its level, and whether a
quote is open. -/
structure IsScanned (depth : Nat) (front : List Char) (l : Nat) (quoted : Bool) : Prop where
  /-- The level is that of the text. -/
  level : nestingLevel front = l
  /-- A bracket is open, -/
  pos : 1 ≤ l
  /-- but not too many. -/
  deep : l ≤ depth
  /-- A quote is open when their number is odd. -/
  quoted_iff : quoted = true ↔ ¬Even (front.count quote)

namespace IsScanned

variable (h : IsScanned depth front l false)

include h

theorem even : Even (front.count quote) := by
  by_contra hodd
  cases h.quoted_iff.mpr hodd

theorem quoted_concat (hc : c ≠ quote) :
    false = true ↔ ¬Even ((front ++ [c]).count quote) := by
  rw [even_count_concat, iff_true_left h.even]
  simp [hc]

theorem concat_quote : IsScanned depth (front ++ [quote]) l true where
  level := by rw [nestingLevel_concat_of_ne (by decide) (by decide), h.level]
  pos := h.pos
  deep := h.deep
  quoted_iff := by
    rw [even_count_concat, iff_true_left h.even]
    simp

theorem concat_open (hlt : l < depth) : IsScanned depth (front ++ ['(']) (l + 1) false where
  level := by
    rw [nestingLevel_concat, if_pos h.even, if_pos rfl, h.level]
    rfl
  pos := Nat.le_add_left 1 l
  deep := hlt
  quoted_iff := h.quoted_concat (by decide)

theorem level_concat_close : nestingLevel (front ++ [')']) = l - 1 := by
  rw [nestingLevel_concat, if_pos h.even, if_neg (by decide), if_pos rfl, h.level]
  rfl

theorem concat_close (hlt : 1 < l) : IsScanned depth (front ++ [')']) (l - 1) false where
  level := by
    rw [h.level_concat_close]
    omega
  pos := Nat.le_sub_one_of_lt hlt
  deep := Nat.le_trans (Nat.sub_le l 1) h.deep
  quoted_iff := h.quoted_concat (by decide)

theorem concat_plain (hquote : c ≠ quote) (hopen : c ≠ '(') (hclose : c ≠ ')') :
    IsScanned depth (front ++ [c]) l false where
  level := by rw [nestingLevel_concat_of_ne hopen hclose, h.level]
  pos := h.pos
  deep := h.deep
  quoted_iff := h.quoted_concat hquote

/-- A bracket that is one too many is in no group. -/
theorem not_closesBehind_open (hmax : ¬l < depth) : ¬ClosesBehind depth (front ++ ['(']) tail := by
  intro hbehind
  have hnested := hbehind.nested [] List.nil_prefix
  rw [List.append_nil, nestingLevel_concat, if_pos h.even, if_pos rfl, h.level] at hnested
  omega

/-- The bracket that closes the last one ends the group. -/
theorem closesBehind_close_iff (hlast : l ≤ 1) :
    ClosesBehind depth (front ++ [')']) tail ↔ tail = [] := by
  have hquotes : Even ((front ++ [')']).count quote) :=
    not_not.mp ((h.quoted_concat (by decide)).not.mp Bool.false_ne_true)
  have hclosed : nestingLevel (front ++ [')']) = 0 := by
    rw [h.level_concat_close, Nat.le_antisymm hlast h.pos]
    rfl
  exact closesBehind_of_closed hquotes hclosed

omit h in
theorem concat_quoted (h : IsScanned depth front l true) (c : Char) :
    IsScanned depth (front ++ [c]) l (c != quote) where
  level := by rw [nestingLevel_concat, if_neg (h.quoted_iff.mp rfl), Int.add_zero, h.level]
  pos := h.pos
  deep := h.deep
  quoted_iff := by
    rw [even_count_concat, iff_false_left (h.quoted_iff.mp rfl), not_not, bne_iff_ne]

end IsScanned

/-- **The scanner reads what is left of a group** behind the text that it has read. -/
theorem closeGroup_eq_some_iff (h : IsScanned depth front l quoted) :
    closeGroup depth l quoted (tail.map .char ++ gs) = some ⟨tail.map .char, gs⟩ ↔
      ClosesBehind depth front tail := by
  -- what has been read grows by a character, and what the scanner knows of it goes along
  induction tail generalizing front l quoted with
  | nil =>
    refine iff_of_false (fun hread => closeGroup_text_ne_nil hread rfl) fun hbehind => ?_
    have hclosed := hbehind.closed
    rw [List.append_nil, h.level] at hclosed
    exact absurd (Int.natCast_eq_zero.mp hclosed) (Nat.ne_of_gt h.pos)
  | cons c tail ih =>
    have hzero : nestingLevel front ≠ 0 := by
      rw [h.level]
      exact Int.natCast_ne_zero.mpr (Nat.ne_of_gt h.pos)
    have hhere : nestingLevel front ≤ depth := by
      rw [h.level]
      exact Int.ofNat_le.mpr h.deep
    rw [closesBehind_cons, and_iff_right hzero, and_iff_right hhere, List.map_cons,
      List.cons_append]
    cases quoted with
    | true => rw [closeGroup, Span.map_cons_eq_some_iff, ih (h.concat_quoted c)]
    | false =>
      rw [closeGroup]
      by_cases hquote : c = quote
      · subst hquote
        rw [if_pos rfl, Span.map_cons_eq_some_iff, ih h.concat_quote]
      rw [if_neg hquote]
      by_cases hopen : c = '('
      · subst hopen
        rw [if_pos rfl]
        split
        · next hlt => rw [Span.map_cons_eq_some_iff, ih (h.concat_open hlt)]
        · next hmax =>
          exact iff_of_false (fun hread => Option.some_ne_none _ hread.symm)
            (h.not_closesBehind_open hmax)
      rw [if_neg hopen]
      by_cases hclose : c = ')'
      · subst hclose
        rw [if_pos rfl]
        split
        · next hlast =>
          rw [h.closesBehind_close_iff hlast]
          constructor
          · intro hread
            cases tail with
            | nil => rfl
            | cons d tail => cases hread
          · rintro rfl
            rfl
        · next hmore =>
          rw [Span.map_cons_eq_some_iff, ih (h.concat_close (Nat.lt_of_not_le hmore))]
      · rw [if_neg hclose, Span.map_cons_eq_some_iff, ih (h.concat_plain hquote hopen hclose)]

/-- Behind the bracket of a group one bracket is open. -/
theorem isScanned_open (hpos : 1 ≤ depth) : IsScanned depth ['('] 1 false where
  level := by decide
  pos := Nat.le_refl 1
  deep := hpos
  quoted_iff := by decide

/-- **The scanner reads a group**, whatever follows, and nothing else. -/
theorem group_eq_some_iff (hpos : 1 ≤ depth) :
    group depth (text.map .char ++ gs) = some ⟨text.map .char, gs⟩ ↔ IsGroup depth text := by
  cases text with
  | nil => exact iff_of_false (fun h => (cuts_of_group h).2 rfl) fun h => nomatch h.begins
  | cons c tail =>
    by_cases hc : c = '('
    · subst hc
      rw [List.map_cons, List.cons_append, group_open, Span.map_cons_eq_some_iff,
        closeGroup_eq_some_iff (isScanned_open hpos), isGroup_cons]
    · rw [List.map_cons, List.cons_append, group_of_ne hc]
      exact iff_of_false nofun fun h => hc (Option.some.inj h.begins)

end Noise

end SqlCatalog
