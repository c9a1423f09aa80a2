import Mathlib.Computability.Language
import SqlCatalog.Proofs.Noise.Level

/-!
# The pattern of a bracket group

Bracket groups that are nested at most so deeply can be told by a regular expression. It is made
from the inside: a group in which no bracket stands, and around it, once for each level more,
groups in which groups of the level below may stand (`SqlCatalog.Noise.Pattern.bracketed`). Written
in the usual syntax, the pattern for each level holds the one for the level below
(`SqlCatalog.Noise.Pattern.written_bracketed`).

What a pattern matches is a language (`SqlCatalog.Noise.Pattern.language`). The pattern of a group
is ambiguous, since a doubled quote belongs to one literal or ends one and begins another, so a text
may be matched in several ways, and how much of an input is matched might depend on which of them
is tried first. It does not:

* what the pattern matches is what is written as a group
  (`SqlCatalog.Noise.Pattern.mem_bracketed`),
* what is written as a group is what the scanner reads
  (`SqlCatalog.Noise.exists_inner_of_closeGroup` is the way back), and the scanner knows one end,
* and where that is can be told by counting brackets and quotes
  (`SqlCatalog.Noise.Pattern.bracketed_is_exact`).
-/

namespace SqlCatalog

open Text

namespace Noise

open scoped Computability

/-- **A regular expression.** -/
inductive Pattern where
  /-- A character. -/
  | char (c : Char)
  /-- Any character but some. -/
  | except (cs : List Char)
  /-- One behind the other. -/
  | seq (p q : Pattern)
  /-- One or the other. -/
  | alt (p q : Pattern)
  /-- One any number of times, one behind the other. -/
  | many (p : Pattern)
deriving DecidableEq, Repr

namespace Pattern

/-- **What a pattern matches** in full. -/
def language : Pattern → Language Char
  | char c => {[c]}
  | except cs => {text | ∃ c, c ∉ cs ∧ text = [c]}
  | seq p q => p.language * q.language
  | alt p q => p.language + q.language
  | many p => p.language∗

/-! ### Bracket groups -/

/-- A pattern any number of times between two characters. -/
def enclosed (first : Char) (p : Pattern) (last : Char) : Pattern :=
  seq (char first) (seq (many p) (char last))

/-- **A literal**: a quote, characters and doubled quotes, and a quote. -/
def quoted : Pattern :=
  enclosed quote (alt (except [quote]) (seq (char quote) (char quote))) quote

/-- A character that is neither a bracket nor a quote. -/
def plain : Pattern :=
  except ['(', ')', quote]

/-- A group without groups in it. -/
def innermost : Pattern :=
  enclosed '(' (alt quoted plain) ')'

/-- A group in which groups of the level below may stand. -/
def wrap (inner : Pattern) : Pattern :=
  enclosed '(' (alt quoted (alt plain inner)) ')'

/-- **A bracket group** at most `depth` levels deep, for a depth of one at least. -/
def bracketed (depth : Nat) : Pattern :=
  wrap^[depth - 1] innermost

theorem bracketed_one : bracketed 1 = innermost := rfl

theorem bracketed_succ (d : Nat) : bracketed (d + 2) = wrap (bracketed (d + 1)) :=
  Function.iterate_succ_apply' wrap d innermost

/-- **A pattern in the usual syntax.** -/
def written : Pattern → String
  | char c => if c ∈ ['(', ')'] then "\\" ++ c.toString else c.toString
  | except cs => "[^" ++ String.ofList cs ++ "]"
  | seq p q => p.written ++ q.written
  | alt p q => p.written ++ "|" ++ q.written
  | many p => "(?:" ++ p.written ++ ")*"

/-- **The pattern for each level in the usual syntax.** -/
theorem written_bracketed :
    (bracketed 1).written = "\\((?:" ++ quoted.written ++ "|[^()'])*\\)" ∧
      ∀ d, (bracketed (d + 2)).written =
        "\\((?:" ++ quoted.written ++ "|[^()']|" ++ (bracketed (d + 1)).written ++ ")*\\)" := by
  refine ⟨by decide, fun d => ?_⟩
  rw [bracketed_succ, ← String.toList_inj]
  simp [wrap, enclosed, plain, written, quote]

example : quoted.written = "'(?:[^']|'')*'" := by decide

/-! ### Membership -/

variable {p q : Pattern} {l : Language Char} {text part : List Char} {first last c : Char}
  {d : Nat}

theorem append_mem_kstar (hpart : part ∈ l) (htext : text ∈ l∗) : part ++ text ∈ l∗ := by
  obtain ⟨parts, rfl, hparts⟩ := Language.mem_kstar.mp htext
  exact Language.mem_kstar.mpr ⟨part :: parts, rfl, List.forall_mem_cons.mpr ⟨hpart, hparts⟩⟩

/-- **Texts by their parts**: what holds for the empty text, and for a text with one more part in
front, holds for every text that is put together from parts. -/
theorem of_mem_kstar {P : List Char → Prop} (nil : P [])
    (append : ∀ part ∈ l, ∀ text, P text → P (part ++ text)) (h : text ∈ l∗) : P text := by
  obtain ⟨parts, rfl, hparts⟩ := Language.mem_kstar.mp h
  induction parts with
  | nil => exact nil
  | cons part parts ih =>
    obtain ⟨hpart, hparts⟩ := List.forall_mem_cons.mp hparts
    exact append part hpart _ (ih hparts (Language.join_mem_kstar hparts))

theorem mem_alt : text ∈ (alt p q).language ↔ text ∈ p.language ∨ text ∈ q.language :=
  Language.mem_add _ _ _

theorem mem_except {cs : List Char} :
    text ∈ (except cs).language ↔ ∃ c, c ∉ cs ∧ text = [c] :=
  Iff.rfl

theorem mem_enclosed : text ∈ (enclosed first p last).language ↔
    ∃ inner ∈ p.language∗, text = first :: (inner ++ [last]) := by
  constructor
  · intro h
    obtain ⟨_, hfirst, _, hrest, rfl⟩ := Language.mem_mul.mp h
    obtain ⟨inner, hinner, _, hlast, rfl⟩ := Language.mem_mul.mp hrest
    obtain rfl := hfirst
    obtain rfl := hlast
    exact ⟨inner, hinner, rfl⟩
  · rintro ⟨inner, hinner, rfl⟩
    exact Language.append_mem_mul (Set.mem_singleton [first])
      (Language.append_mem_mul hinner (Set.mem_singleton [last]))

/-- The parts of a literal are put together to the body of one. -/
theorem mem_quotedParts :
    text ∈ (alt (except [quote]) (seq (char quote) (char quote))).language∗ ↔
      IsBody false text := by
  constructor
  · refine of_mem_kstar .nil fun part hpart text htext => ?_
    rcases mem_alt.mp hpart with ⟨c, hc, rfl⟩ | hpair
    · exact .plain (by simpa using hc) nofun htext
    · obtain ⟨_, rfl, _, rfl, rfl⟩ := Language.mem_mul.mp hpair
      exact .pair htext
  · intro h
    induction h with
    | nil => exact Language.nil_mem_kstar _
    | @plain c body hc _ _ ih =>
      exact append_mem_kstar (mem_alt.mpr (Or.inl (mem_except.mpr ⟨c, by simpa using hc, rfl⟩))) ih
    | @pair body _ ih =>
      exact append_mem_kstar (mem_alt.mpr (Or.inr
        (Language.append_mem_mul (Set.mem_singleton [quote]) (Set.mem_singleton [quote])))) ih
    | escaped hescapes => cases hescapes

theorem mem_quoted :
    text ∈ quoted.language ↔ ∃ body, IsBody false body ∧ text = quote :: (body ++ [quote]) := by
  rw [quoted, mem_enclosed]
  exact exists_congr fun body => and_congr_left' mem_quotedParts

/-- **The parts of a group** are put together to the inside of one, when the groups among them are
those of the levels below. -/
theorem mem_groupParts (hl : ∀ w, w ∈ l ↔
      ∃ e inner, d = e + 1 ∧ IsInner e inner ∧ w = '(' :: (inner ++ [')'])) :
    text ∈ (quoted.language + (plain.language + l))∗ ↔ IsInner d text := by
  have hparts : ∀ w, w ∈ quoted.language + (plain.language + l) ↔
      w ∈ quoted.language ∨ w ∈ plain.language ∨ w ∈ l := fun w => Iff.rfl
  constructor
  · refine of_mem_kstar .nil fun part hpart text htext => ?_
    rcases (hparts part).mp hpart with hquoted | ⟨c, hc, rfl⟩ | hgroup
    · obtain ⟨body, hbody, rfl⟩ := mem_quoted.mp hquoted
      simpa using IsInner.literal hbody htext
    · exact .plain hc htext
    · obtain ⟨e, inner, rfl, hinner, rfl⟩ := (hl _).mp hgroup
      simpa using IsInner.group hinner htext
  · intro h
    induction h with
    | nil => exact Language.nil_mem_kstar _
    | @plain d c text hc _ ih =>
      have hplain : [c] ∈ plain.language := mem_except.mpr ⟨c, hc, rfl⟩
      exact append_mem_kstar ((hparts _).mpr (Or.inr (Or.inl hplain))) (ih hl)
    | @literal d body text hbody _ ih =>
      have hquoted := mem_quoted.mpr ⟨body, hbody, rfl⟩
      simpa using append_mem_kstar ((hparts _).mpr (Or.inl hquoted)) (ih hl)
    | @group d inner text hinner _ _ ih =>
      have hgroup := (hl _).mpr ⟨d, inner, rfl, hinner, rfl⟩
      simpa using append_mem_kstar ((hparts _).mpr (Or.inr (Or.inr hgroup))) (ih hl)

/-- **The pattern for a depth matches the groups as they are written.** -/
theorem mem_bracketed : text ∈ (bracketed (d + 1)).language ↔
    ∃ inner, IsInner d inner ∧ text = '(' :: (inner ++ [')']) := by
  induction d generalizing text with
  | zero =>
    have hparts : ∀ inner, inner ∈ (alt quoted plain).language∗ ↔ IsInner 0 inner := by
      intro inner
      have hnone : inner ∈ (quoted.language + (plain.language + 0))∗ ↔ IsInner 0 inner :=
        mem_groupParts fun w => iff_of_false (Language.notMem_zero w) nofun
      rwa [add_zero] at hnone
    rw [bracketed_one, innermost, mem_enclosed]
    exact exists_congr fun inner => and_congr_left' (hparts inner)
  | succ d ih =>
    have hbelow : ∀ w, w ∈ (bracketed (d + 1)).language ↔
        ∃ e inner, d + 1 = e + 1 ∧ IsInner e inner ∧ w = '(' :: (inner ++ [')']) := by
      intro w
      rw [ih]
      constructor
      · exact fun ⟨inner, hinner, hw⟩ => ⟨d, inner, rfl, hinner, hw⟩
      · rintro ⟨e, inner, he, hinner, hw⟩
        obtain rfl := Nat.succ_injective he
        exact ⟨inner, hinner, hw⟩
    rw [bracketed_succ, wrap, mem_enclosed]
    exact exists_congr fun inner => and_congr_left' (mem_groupParts hbelow)

end Pattern

/-! ### What is read as a group -/

variable {text : List Char} {depth l : Nat} {gs : List Glyph} {s : Span}

/-- **What closes a quotation** in a group is the body of a literal, and a quote. -/
theorem exists_body_of_closeGroup (h : closeGroup depth l true gs = some s) :
    ∃ body rest t, gs = body.map .char ++ .char quote :: rest ∧ IsBody false body ∧
      closeGroup depth l false rest = some t := by
  induction gs generalizing s with
  | nil => cases h
  | cons g gs ih =>
    cases g with
    | stray bytes => cases h
    | char c =>
      rw [closeGroup] at h
      obtain ⟨t, ht, -⟩ := Option.map_eq_some_iff.mp h
      by_cases hc : c = quote
      · subst hc
        exact ⟨[], gs, t, rfl, .nil, ht⟩
      · rw [bne_iff_ne.mpr hc] at ht
        obtain ⟨body, rest, t, rfl, hbody, ht⟩ := ih ht
        exact ⟨c :: body, rest, t, rfl, .plain hc (absurd · Bool.false_ne_true) hbody, ht⟩

/-- Behind a group inside another the scanner goes on with the other. -/
theorem IsInner.closeGroup_close {d : Nat} (h : IsInner d text) (hpos : 1 ≤ l)
    (hdeep : l + 1 + d ≤ depth) (gs : List Glyph) :
    closeGroup depth (l + 1) false (text.map .char ++ .char ')' :: gs) =
      (closeGroup depth l false gs).map (Span.before (text.map .char ++ [.char ')'])) := by
  have hgo : closeGroup depth (l + 1) false (.char ')' :: gs) =
      (closeGroup depth l false gs).map (Span.before [.char ')']) := by
    rw [closeGroup, if_neg (by decide), if_neg (by decide), if_pos rfl, if_neg (by omega)]
    rfl
  rw [h.closeGroup_append (Nat.le_add_left 1 l) hdeep, hgo, Span.map_before_map_before]

/-- **What closes a group** is the inside of one, and a bracket. -/
theorem exists_inner_of_closeGroup (hdeep : l ≤ depth) (h : closeGroup depth l false gs = some s)
    (hpos : 1 ≤ l) :
    ∃ inner rest, gs = inner.map .char ++ .char ')' :: rest ∧ IsInner (depth - l) inner := by
  -- behind a group inside this one the scanner goes on, so the input gets shorter by a group
  generalize hn : gs.length = n
  induction n using Nat.strongRecOn generalizing l gs s with
  | ind n ih =>
  match gs with
  | [] => cases h
  | .stray _ :: _ => cases h
  | .char c :: gs =>
    rw [List.length_cons] at hn
    have hbehind : gs.length < n := by omega
    rw [closeGroup] at h
    by_cases hquote : c = quote
    · subst hquote
      rw [if_pos rfl] at h
      obtain ⟨t, ht, -⟩ := Option.map_eq_some_iff.mp h
      obtain ⟨body, rest, t, rfl, hbody, ht⟩ := exists_body_of_closeGroup ht
      have hshorter : rest.length < n := by
        rw [← hn, List.length_append, List.length_cons]
        omega
      obtain ⟨inner, rest, rfl, hinner⟩ := ih _ hshorter hdeep ht hpos rfl
      exact ⟨quote :: (body ++ quote :: inner), rest, by simp, .literal hbody hinner⟩
    rw [if_neg hquote] at h
    by_cases hopen : c = '('
    · subst hopen
      rw [if_pos rfl] at h
      split at h
      · next hlt =>
        have hup : depth - l = depth - (l + 1) + 1 := by omega
        obtain ⟨t, ht, -⟩ := Option.map_eq_some_iff.mp h
        obtain ⟨group, rest, rfl, hgroup⟩ :=
          ih _ hbehind (Nat.succ_le_of_lt hlt) ht (Nat.le_add_left 1 l) rfl
        rw [hgroup.closeGroup_close hpos (by omega)] at ht
        obtain ⟨t, ht, -⟩ := Option.map_eq_some_iff.mp ht
        have hshorter : rest.length < n := by
          rw [← hn, List.length_append, List.length_cons]
          omega
        obtain ⟨inner, rest, rfl, hinner⟩ := ih _ hshorter hdeep ht hpos rfl
        rw [hup] at hinner ⊢
        exact ⟨'(' :: (group ++ ')' :: inner), rest, by simp, .group hgroup hinner⟩
      · cases h
    rw [if_neg hopen] at h
    by_cases hclose : c = ')'
    · subst hclose
      exact ⟨[], gs, rfl, .nil⟩
    · rw [if_neg hclose] at h
      obtain ⟨t, ht, -⟩ := Option.map_eq_some_iff.mp h
      obtain ⟨inner, rest, rfl, hinner⟩ := ih _ hbehind hdeep ht hpos rfl
      exact ⟨c :: inner, rest, rfl, .plain (by simp [hopen, hclose, hquote]) hinner⟩

/-! ### The pattern and the scanner -/

namespace Pattern

variable {w w' : List Char}

/-- **The scanner reads what the pattern matches**, -/
theorem group_of_mem_bracketed (hpos : 1 ≤ depth) (h : w ∈ (bracketed depth).language)
    (gs : List Glyph) : group depth (w.map .char ++ gs) = some ⟨w.map .char, gs⟩ := by
  obtain ⟨d, rfl⟩ := Nat.exists_eq_add_of_le' hpos
  obtain ⟨inner, hinner, rfl⟩ := mem_bracketed.mp h
  simpa using hinner.group_append (Nat.lt_succ_self d) gs

/-- and what it reads is matched. -/
theorem exists_mem_bracketed_of_group (hpos : 1 ≤ depth) (h : group depth gs = some s) :
    ∃ w ∈ (bracketed depth).language, s.text = w.map .char := by
  match gs with
  | [] => cases h
  | .stray _ :: _ => cases h
  | .char c :: gs =>
    have hopen : c = '(' := by
      by_contra hc
      rw [group_of_ne hc] at h
      cases h
    subst hopen
    have hclose := h
    rw [group_open] at hclose
    obtain ⟨t, ht, -⟩ := Option.map_eq_some_iff.mp hclose
    obtain ⟨inner, rest, rfl, hinner⟩ := exists_inner_of_closeGroup hpos ht (Nat.le_refl 1)
    have hdepth : depth = depth - 1 + 1 := (Nat.sub_add_cancel hpos).symm
    rw [hinner.group_append (Nat.sub_lt hpos Nat.one_pos)] at h
    obtain rfl := Option.some.inj h
    refine ⟨'(' :: (inner ++ [')']), ?_, by simp⟩
    rw [hdepth]
    exact mem_bracketed.mpr ⟨inner, hinner, rfl⟩

/-- So it matches the groups. -/
theorem mem_bracketed_iff_isGroup (hpos : 1 ≤ depth) :
    w ∈ (bracketed depth).language ↔ IsGroup depth w := by
  have hread : group depth (w.map .char ++ []) = some ⟨w.map .char, []⟩ ↔ IsGroup depth w :=
    group_eq_some_iff hpos
  rw [← hread]
  constructor
  · exact fun h => group_of_mem_bracketed hpos h []
  · intro h
    obtain ⟨w', hw', htext⟩ := exists_mem_bracketed_of_group hpos h
    rwa [map_char_inj.mp htext]

/-- A group ends with a bracket outside quotes. -/
theorem exists_eq_append_close (hpos : 1 ≤ depth) (h : IsGroup depth w) :
    ∃ inner, w = inner ++ [')'] ∧ Even (inner.count quote) := by
  obtain ⟨d, rfl⟩ := Nat.exists_eq_add_of_le' hpos
  obtain ⟨inner, -, rfl⟩ := mem_bracketed.mp ((mem_bracketed_iff_isGroup hpos).mpr h)
  have hquotes := h.quotes
  rw [← List.cons_append, List.count_append, List.count_singleton, if_neg (by decide),
    Nat.add_zero] at hquotes
  exact ⟨'(' :: inner, rfl, hquotes⟩

/-- **The pattern of a bracket group means what it says.** It matches the texts that begin with a
bracket, whose quotes are closed and whose level is zero for the first time behind their last
character and nowhere more than the depth, and that character is a bracket outside quotes. At most
one beginning of an input is matched, so no order in which matches are tried makes a difference:
where there is one, that is what the scanner reads. -/
theorem bracketed_is_exact (hpos : 1 ≤ depth) :
    (∀ w, w ∈ (bracketed depth).language ↔ IsGroup depth w) ∧
    (∀ w, IsGroup depth w → ∃ inner, w = inner ++ [')'] ∧ Even (inner.count quote)) ∧
    (∀ gs, ∀ w ∈ (bracketed depth).language, ∀ w' ∈ (bracketed depth).language,
      w.map Glyph.char <+: gs → w'.map Glyph.char <+: gs → w = w') ∧
    ∀ gs s, group depth gs = some s ↔
      s.Cuts gs ∧ ∃ w ∈ (bracketed depth).language, s.text = w.map .char := by
  refine ⟨fun w => mem_bracketed_iff_isGroup hpos, fun w => exists_eq_append_close hpos,
    fun gs w hw w' hw' hpre hpre' => ?_, fun gs s => ⟨fun h => ?_, fun ⟨hcuts, w, hw, htext⟩ => ?_⟩⟩
  · obtain ⟨rest, rfl⟩ := hpre
    obtain ⟨rest', heq⟩ := hpre'
    have hread := group_of_mem_bracketed hpos hw' rest'
    rw [heq, group_of_mem_bracketed hpos hw rest] at hread
    exact map_char_inj.mp (congrArg Span.text (Option.some.inj hread))
  · exact ⟨(cuts_of_group h).1, exists_mem_bracketed_of_group hpos h⟩
  · obtain ⟨read, rest⟩ := s
    obtain rfl : read = w.map .char := htext
    obtain rfl : w.map Glyph.char ++ rest = gs := hcuts
    exact group_of_mem_bracketed hpos hw rest

/-- A group with a literal and a group in it, in front of more text: it is the one beginning that
is matched, and none is for a depth of one. -/
theorem bracketed_is_exact_nested :
    let w := "(a 'x('')' (b))".toList
    let gs := (w ++ ", c)".toList).map .char
    w ∈ (bracketed 2).language ∧ IsGroup 2 w ∧
      (∀ w' ∈ (bracketed 2).language, w'.map Glyph.char <+: gs → w' = w) ∧
      ∀ w' ∈ (bracketed 1).language, ¬w'.map Glyph.char <+: gs := by
  intro w gs
  obtain ⟨hgroup, -, hunique, hread⟩ := bracketed_is_exact (by decide : 1 ≤ 2)
  obtain ⟨w', hw', htext⟩ := ((hread gs ⟨w.map .char, ", c)".toList.map .char⟩).mp rfl).2
  obtain rfl : w = w' := map_char_inj.mp htext
  refine ⟨hw', (hgroup w).mp hw', fun w' hw'' hpre => ?_, fun w' hw'' hpre => ?_⟩
  · exact hunique gs w' hw'' w hw' hpre (by simp [gs])
  · obtain ⟨rest, hrest⟩ := hpre
    have hnone : group 1 gs = none := rfl
    have hsome := (bracketed_is_exact (Nat.le_refl 1)).2.2.2 gs ⟨w'.map .char, rest⟩
    rw [hnone] at hsome
    exact nomatch hsome.mpr ⟨hrest, w', hw'', rfl⟩

end Pattern

end Noise

end SqlCatalog
