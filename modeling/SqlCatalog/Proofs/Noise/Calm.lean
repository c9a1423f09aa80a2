import SqlCatalog.Noise.Strip
import SqlCatalog.Proofs.Text.Words

/-!
# Calm texts

Noise begins with a few characters that open it: a quote, two hyphens, a dollar
delimiter, and at a word boundary the letter `e` and a quote, a volatile function
and a bracket, or the word `constraint` and white space
(`SqlCatalog.Noise.opens`). A text in which none of these stands is *calm*
(`SqlCatalog.Noise.calm`), and the pass over a dump leaves it as it is.

An opening can reach across the end of a text into what follows. A *seal* is a
character at which none does (`SqlCatalog.Noise.IsSeal`): it stands last in an
opening or not at all. Hence calm texts that end in a seal are left as they are
whatever follows (`SqlCatalog.Noise.IsCalm.stripFrom_append`), and they are put
together freely (`SqlCatalog.Noise.IsCalm.append`).

Without quotes, hyphens and dollar signs a text is calm unless it holds one of
the words that open noise (`SqlCatalog.Noise.calm_of_words`).
-/

namespace SqlCatalog

open Text

namespace Noise

/-! ### Keywords in texts -/

/-- **A keyword in front of an input**: the part that folds to it. -/
theorem keyword_before {word a : List Char} (h : a.map fold = word) (gs : List Glyph) :
    keyword word (a.map .char ++ gs) = some ⟨a.map .char, gs⟩ := by
  induction a generalizing word with
  | nil =>
    obtain rfl := h
    simp only [List.nil_append, List.map_nil, keyword, Span.nothing]
  | cons c a ih =>
    obtain rfl := h
    simp only [List.cons_append, List.map_cons, keyword, if_true, ih rfl, Option.map_some,
      Span.cons]

/-- **A keyword in a text.** -/
theorem keyword_append {word a b : List Char} (h : a.map fold = word) :
    keyword word ((a ++ b).map .char) = some ⟨a.map .char, b.map .char⟩ := by
  rw [List.map_append, keyword_before h]

/-- Where a keyword is read, a part of the text folds to it. -/
theorem of_keyword {word text : List Char} {s : Span}
    (h : keyword word (text.map .char) = some s) :
    ∃ a b, text = a ++ b ∧ a.map fold = word ∧ s = ⟨a.map .char, b.map .char⟩ := by
  induction word generalizing text s with
  | nil =>
    cases h
    exact ⟨[], text, rfl, rfl, rfl⟩
  | cons k word ih =>
    cases text with
    | nil => cases h
    | cons c text =>
      rw [List.map_cons, keyword] at h
      split at h
      · next hc =>
        obtain ⟨t, ht, rfl⟩ := Option.map_eq_some_iff.mp h
        obtain ⟨a, b, rfl, ha, rfl⟩ := ih ht
        exact ⟨c :: a, b, rfl, by rw [List.map_cons, hc, ha], rfl⟩
      · cases h

/-- A keyword opens nothing where nothing can close behind it. -/
theorem opened_eq_none {word text : List Char} {close : List Glyph → Option Span}
    (h : ∀ a b, text = a ++ b → a.map fold = word → close (b.map .char) = none) :
    opened word close (text.map .char) = none := by
  rw [opened, Option.bind_eq_none_iff]
  intro s hs
  obtain ⟨a, b, rfl, ha, rfl⟩ := of_keyword hs
  rw [h a b rfl ha, Option.map_none]

/-! ### Openings -/

/-- **The openings of noise** that count at any place, in lower case. -/
def openings : List (List Char) :=
  [quote] :: ['-', '-'] :: dollarTags.map delimiter

/-- **The openings of noise** that count at a word boundary. -/
def wordOpenings : List (List Char) :=
  ['e', quote] :: volatileCalls.map (· ++ ['('])

/-- The opening of a constraint clause: its keyword and white space. -/
def clauseOpening (blank : Char) : List Char :=
  clauseKeyword ++ [blank]

/-- Whether a text begins as a constraint clause does. -/
def opensClause (text : List Char) : Bool :=
  clauseKeyword.isPrefixOf text && (text.drop clauseKeyword.length).head?.any isBlank

/-- **Whether noise opens at the head of a text.** -/
def opens (atBoundary : Bool) (text : List Char) : Bool :=
  openings.any (·.isPrefixOf (text.map fold)) ||
    atBoundary && (wordOpenings.any (·.isPrefixOf (text.map fold)) || opensClause (text.map fold))

/-- **An opening**, at a word boundary or not. -/
def IsOpening (atBoundary : Bool) (opening : List Char) : Prop :=
  opening ∈ openings ∨ atBoundary = true ∧
    (opening ∈ wordOpenings ∨ ∃ blank, isBlank blank ∧ opening = clauseOpening blank)

variable {atBoundary : Bool} {a b text : List Char} {c : Char}

/-- Noise opens where one of the openings stands. -/
theorem opens_iff :
    opens atBoundary text = true ↔
      ∃ opening, IsOpening atBoundary opening ∧ opening <+: text.map fold := by
  have hclause : opensClause (text.map fold) = true ↔
      ∃ blank, isBlank blank ∧ clauseOpening blank <+: text.map fold := by
    rw [opensClause, Bool.and_eq_true, List.isPrefixOf_iff_prefix]
    constructor
    · rintro ⟨⟨rest, hrest⟩, hblank⟩
      rw [← hrest, List.drop_left] at hblank
      cases rest with
      | nil => cases hblank
      | cons k rest => exact ⟨k, hblank, rest, by rw [← hrest, clauseOpening]; simp⟩
    · rintro ⟨k, hk, rest, hrest⟩
      rw [clauseOpening, List.append_assoc] at hrest
      refine ⟨⟨_, hrest⟩, ?_⟩
      rw [← hrest, List.drop_left]
      exact hk
  simp only [opens, Bool.or_eq_true, Bool.and_eq_true, List.any_eq_true,
    List.isPrefixOf_iff_prefix, hclause, IsOpening]
  constructor
  · rintro (⟨p, hp, h⟩ | ⟨hb, ⟨p, hp, h⟩ | ⟨k, hk, h⟩⟩)
    · exact ⟨p, Or.inl hp, h⟩
    · exact ⟨p, Or.inr ⟨hb, Or.inl hp⟩, h⟩
    · exact ⟨_, Or.inr ⟨hb, Or.inr ⟨k, hk, rfl⟩⟩, h⟩
  · rintro ⟨p, hp | ⟨hb, hp | ⟨k, hk, rfl⟩⟩, h⟩
    · exact Or.inl ⟨p, hp, h⟩
    · exact Or.inr ⟨hb, Or.inl ⟨p, hp, h⟩⟩
    · exact Or.inr ⟨hb, Or.inr ⟨k, hk, h⟩⟩

/-- White space has no letter case. -/
theorem fold_of_isBlank (h : isBlank c) : fold c = c := by
  have hn : c.toNat < 0x41 ∨ 0x80 ≤ c.toNat := by
    simp only [isBlank, Bool.or_eq_true, Bool.and_eq_true, decide_eq_true_eq, beq_iff_eq] at h
    omega
  have hlower : c.toLower = c := by
    rcases hn with hn | hn
    · exact (toLower_eq_iff hn).mpr rfl
    · exact toLower_of_le hn
  rw [fold, if_neg, if_neg, hlower]
  · rintro rfl
    cases h
  · rintro rfl
    cases h

section NoOpening

variable (h : opens atBoundary text = false)
include h

theorem not_prefix_of_opens {opening : List Char} (ho : IsOpening atBoundary opening) :
    ¬opening <+: text.map fold := by
  intro hp
  rw [opens_iff.mpr ⟨opening, ho, hp⟩] at h
  cases h

/-- A keyword that is an opening is not read. -/
theorem opened_of_opens {opening : List Char} (ho : IsOpening atBoundary opening)
    (close : List Glyph → Option Span) : opened opening close (text.map .char) = none := by
  refine opened_eq_none fun a b htext ha => ?_
  exact absurd ⟨b.map fold, by rw [htext, List.map_append, ha]⟩ (not_prefix_of_opens h ho)

theorem literal?_of_opens : literal? atBoundary (text.map .char) = none := by
  rw [literal?, opened_of_opens h (Or.inl List.mem_cons_self)]
  dsimp only
  split
  · next hb => exact opened_of_opens h (Or.inr ⟨hb, Or.inl List.mem_cons_self⟩) _
  · rfl

theorem comment?_of_opens : comment? (text.map .char) = none :=
  opened_of_opens h (Or.inl (List.mem_cons_of_mem _ List.mem_cons_self)) _

theorem dollarBody?_of_opens : dollarBody? (text.map .char) = none := by
  rw [dollarBody?, List.findSome?_eq_none_iff]
  intro tag htag
  exact opened_of_opens h (Or.inl (List.mem_cons_of_mem _ (List.mem_cons_of_mem _
    (List.mem_map_of_mem htag)))) _

theorem call?_of_opens : call? atBoundary (text.map .char) = none := by
  rw [call?]
  split
  · next hb =>
    rw [List.findSome?_eq_none_iff]
    intro name hname
    -- the opening of a call is a name and the bracket behind it
    refine opened_eq_none fun a b htext ha => opened_eq_none fun x y hb' hx => ?_
    have ho : IsOpening atBoundary (name ++ ['(']) :=
      Or.inr ⟨hb, Or.inl (List.mem_cons_of_mem _ (List.mem_map_of_mem hname))⟩
    refine absurd ⟨y.map fold, ?_⟩ (not_prefix_of_opens h ho)
    rw [htext, hb', List.map_append, List.map_append, ha, hx, List.append_assoc]
  · rfl

theorem clause?_of_opens : clause? atBoundary (text.map .char) = none := by
  rw [clause?]
  split
  · next hb =>
    rw [Option.bind_eq_none_iff]
    intro s hs
    obtain ⟨a, b, rfl, ha, rfl⟩ := of_keyword hs
    -- no white space stands behind the keyword
    have hgap : (takeChars isBlank (b.map .char)).text = [] := by
      cases b with
      | nil => rfl
      | cons c b =>
        have hc : ¬isBlank c := fun hc => by
          refine not_prefix_of_opens h (Or.inr ⟨hb, Or.inr ⟨c, hc, rfl⟩⟩) ⟨b.map fold, ?_⟩
          rw [List.map_append, List.map_cons, ha, fold_of_isBlank hc, clauseOpening]
          simp
        rw [List.map_cons, takeChars, if_neg hc]
        rfl
    dsimp only
    rw [if_pos hgap]
  · rfl

/-- **There is no noise where none opens.** -/
theorem noise?_of_opens : noise? atBoundary (text.map .char) = none := by
  rw [noise?, literal?_of_opens h, comment?_of_opens h, dollarBody?_of_opens h, call?_of_opens h,
    clause?_of_opens h]

end NoOpening

/-! ### Calm texts -/

/-- **Whether no noise opens in a text**, which begins at a word boundary or
not. -/
def calm : (atBoundary : Bool) → List Char → Bool
  | _, [] => true
  | atBoundary, c :: text => !opens atBoundary (c :: text) && calm (!isWord c) text

/-- **A seal**: a character that stands in no opening but at its end. -/
def IsSeal (c : Char) : Prop :=
  isWord c = false ∧ c ≠ '-' ∧ c ≠ '$'

instance (c : Char) : Decidable (IsSeal c) :=
  inferInstanceAs (Decidable (_ ∧ _))

/-- A beginning of a text that holds a character at its end at most ends where the
character stands. -/
theorem prefix_of_not_mem_dropLast {opening : List Char} (hc : c ∉ opening.dropLast)
    (h : opening <+: a ++ c :: b) : opening <+: a ++ [c] := by
  have hshort : a ++ [c] <+: a ++ c :: b := ⟨b, by simp⟩
  by_cases hlen : opening.length ≤ (a ++ [c]).length
  · exact List.prefix_of_prefix_length_le h hshort hlen
  · obtain ⟨rest, rfl⟩ := List.prefix_of_prefix_length_le hshort h (by omega)
    have hrest : rest ≠ [] := by
      rintro rfl
      exact hlen (by simp)
    rw [List.dropLast_append_of_ne_nil hrest] at hc
    exact absurd (by simp) hc

/-- No opening reaches across a seal. -/
theorem opens_of_seal (hc : IsSeal c) (h : opens atBoundary (a ++ [c]) = false) (b : List Char) :
    opens atBoundary (a ++ c :: b) = false := by
  obtain ⟨hword, hhyphen, hdollar⟩ := hc
  have hfold : fold c = c := (isWord_fold c).2 hword
  -- the characters of an opening, but for the last, are no seals
  have hinner : ∀ opening, IsOpening atBoundary opening → c ∉ opening.dropLast := by
    have hplain : ∀ opening ∈ openings ++ (wordOpenings ++ [clauseKeyword ++ [' ']]),
        ∀ d ∈ opening.dropLast, isWord d = true ∨ d = '-' ∨ d = '$' := by decide
    have hno : ∀ opening ∈ openings ++ (wordOpenings ++ [clauseKeyword ++ [' ']]),
        c ∉ opening.dropLast := by
      intro opening ho hmem
      rcases hplain opening ho c hmem with h | h | h
      · rw [hword] at h
        cases h
      · exact hhyphen h
      · exact hdollar h
    rintro opening (ho | ⟨-, ho | ⟨blank, -, rfl⟩⟩)
    · exact hno opening (List.mem_append_left _ ho)
    · exact hno opening (List.mem_append_right _ (List.mem_append_left _ ho))
    · have hlast := hno (clauseKeyword ++ [' ']) (by simp)
      rwa [List.dropLast_concat] at hlast
  rw [← Bool.not_eq_true] at h ⊢
  refine fun hopens => h (opens_iff.mpr ?_)
  obtain ⟨opening, ho, hp⟩ := opens_iff.mp hopens
  refine ⟨opening, ho, ?_⟩
  rw [List.map_append, List.map_cons, hfold] at hp
  rw [List.map_append, List.map_singleton, hfold]
  exact prefix_of_not_mem_dropLast (hinner _ ho) hp

theorem calm_cons :
    calm atBoundary (c :: text) = true ↔
      opens atBoundary (c :: text) = false ∧ calm (!isWord c) text = true := by
  simp [calm]

/-- **A sealed calm text** in front of another calm text. -/
theorem calm_append (hc : IsSeal c) (h : calm atBoundary (a ++ [c]) = true)
    (hb : calm true b = true) : calm atBoundary (a ++ c :: b) = true := by
  induction a generalizing atBoundary with
  | nil =>
    obtain ⟨ho, -⟩ := calm_cons.mp h
    rw [List.nil_append]
    refine calm_cons.mpr ⟨opens_of_seal (a := []) hc ho b, ?_⟩
    rw [hc.1]
    exact hb
  | cons d a ih =>
    obtain ⟨ho, h⟩ := calm_cons.mp h
    exact calm_cons.mpr ⟨opens_of_seal (a := d :: a) hc ho b, ih h⟩

/-- A character that stands in no opening keeps a text calm. -/
theorem calm_concat (hfold : fold c = c)
    (hc : ∀ atBoundary opening, IsOpening atBoundary opening → c ∉ opening)
    (h : calm atBoundary text = true) : calm atBoundary (text ++ [c]) = true := by
  -- the end of an opening stands in front of the character
  have hopens : ∀ atBoundary text, opens atBoundary (text ++ [c]) = true →
      opens atBoundary text = true := by
    intro atBoundary text ho
    obtain ⟨opening, hop, hp⟩ := opens_iff.mp ho
    rw [List.map_append, List.map_singleton, hfold] at hp
    rcases List.prefix_concat_iff.mp hp with rfl | hp
    · exact absurd (by simp) (hc _ _ hop)
    · exact opens_iff.mpr ⟨opening, hop, hp⟩
  induction text generalizing atBoundary with
  | nil =>
    have hnil : ∀ atBoundary, opens atBoundary [] = false := by decide
    refine calm_cons.mpr ⟨?_, rfl⟩
    rw [← Bool.not_eq_true]
    intro ho
    exact Bool.false_ne_true ((hnil atBoundary).symm.trans (hopens atBoundary [] ho))
  | cons d text ih =>
    obtain ⟨ho, h⟩ := calm_cons.mp h
    refine calm_cons.mpr ⟨?_, ih h⟩
    rw [← Bool.not_eq_true] at ho ⊢
    exact fun ho' => ho (hopens atBoundary (d :: text) ho')

/-! ### One piece after another -/

section Pieces

variable {sight : Sight} {g : Glyph} {gs : List Glyph} {kind : Kind} {s : Span}

/-- A glyph at which no noise begins is a piece. -/
theorem pieces_cons (h : noise? sight.atBoundary (g :: gs) = none) :
    pieces sight (g :: gs) = .plain g :: pieces (sight.pass g) gs := by
  rw [pieces]
  split
  · next hsome =>
    rw [h] at hsome
    cases hsome
  · rfl

/-- Noise is a piece as a whole. -/
theorem pieces_noise (h : noise? sight.atBoundary gs = some (kind, s)) :
    pieces sight gs = .noise kind s.text :: pieces (sight.passAll s.text) s.rest := by
  rw [pieces]
  split
  · next hsome =>
    rw [h] at hsome
    cases hsome
    rfl
  · next hnone =>
    rw [h] at hnone
    cases hnone

/-- There is no piece of nothing. -/
theorem pieces_nil (sight : Sight) : pieces sight [] = [] := by
  have hopens : ∀ atBoundary, opens atBoundary [] = false := by decide
  have h : noise? sight.atBoundary (([] : List Char).map .char) = none :=
    noise?_of_opens (hopens _)
  rw [pieces]
  split
  · next hsome => cases h.symm.trans hsome
  · rfl

/-- What is left of an input, from what is in sight in front of it. -/
def stripFrom (sight : Sight) (gs : List Glyph) : List Glyph :=
  (pieces sight gs).flatMap Piece.remains

/-- A glyph at which no noise begins stays. -/
theorem stripFrom_cons (h : noise? sight.atBoundary (g :: gs) = none) :
    stripFrom sight (g :: gs) = g :: stripFrom (sight.pass g) gs := by
  rw [stripFrom, pieces_cons h]
  rfl

/-- Noise leaves what its kind leaves. -/
theorem stripFrom_noise (h : noise? sight.atBoundary gs = some (kind, s)) :
    stripFrom sight gs = kind.remains s.text ++ stripFrom (sight.passAll s.text) s.rest := by
  rw [stripFrom, pieces_noise h]
  rfl

theorem stripFrom_nil (sight : Sight) : stripFrom sight [] = [] := by
  rw [stripFrom, pieces_nil]
  rfl

end Pieces

/-! ### The pass over calm texts -/

/-- **A sealed calm text stays**, whatever follows. -/
theorem stripFrom_append {sight : Sight} (hc : IsSeal c)
    (h : calm sight.atBoundary (a ++ [c]) = true) (b : List Char) :
    stripFrom sight ((a ++ c :: b).map .char) =
      (a ++ [c]).map .char ++ stripFrom .clear (b.map .char) := by
  induction a generalizing sight with
  | nil =>
    obtain ⟨ho, -⟩ := calm_cons.mp h
    have hnone := noise?_of_opens (opens_of_seal (a := []) hc ho b)
    have hpass : sight.pass (.char c) = .clear := by
      cases sight <;> simp [Sight.pass, hc.1]
    rw [List.nil_append, List.map_cons, stripFrom_cons hnone, hpass]
    rfl
  | cons d a ih =>
    rw [List.cons_append] at h
    obtain ⟨ho, h⟩ := calm_cons.mp h
    have hnone := noise?_of_opens (opens_of_seal (a := d :: a) hc ho b)
    rw [← Sight.atBoundary_pass_char] at h
    rw [List.cons_append, List.map_cons]
    rw [List.cons_append, List.map_cons] at hnone
    rw [stripFrom_cons hnone, ih h]
    rfl

/-- **A calm text whatever follows**: it ends in a seal, if it does not end at
once. -/
def IsCalm (text : List Char) : Prop :=
  (∀ c ∈ text.getLast?, IsSeal c) ∧ calm true text = true

instance (text : List Char) : Decidable (IsCalm text) :=
  inferInstanceAs (Decidable (_ ∧ _))

theorem isCalm_nil : IsCalm [] := ⟨nofun, rfl⟩

/-- A calm text by the seal at its end. -/
theorem isCalm_concat (hc : IsSeal c) (h : calm true (a ++ [c]) = true) : IsCalm (a ++ [c]) := by
  refine ⟨fun d hd => ?_, h⟩
  rw [List.getLast?_concat] at hd
  rwa [← Option.some.inj hd]

/-- **Calm texts are put together freely.** -/
theorem IsCalm.append (ha : IsCalm a) (hb : IsCalm b) : IsCalm (a ++ b) := by
  rcases List.eq_nil_or_concat a with rfl | ⟨a, c, rfl⟩
  · exact hb
  rw [List.concat_eq_append] at ha ⊢
  obtain ⟨hseal, ha⟩ := ha
  obtain ⟨hseal', hb⟩ := hb
  have hc : IsSeal c := hseal c (List.getLast?_concat ..)
  refine ⟨fun d hd => ?_, ?_⟩
  · rw [List.getLast?_append] at hd
    cases hlast : b.getLast? with
    | none =>
      rw [hlast] at hd
      exact hseal d hd
    | some last =>
      rw [hlast] at hd hseal'
      exact hseal' d hd
  · rw [List.append_assoc]
    exact calm_append hc ha hb

/-- **A calm text stays**, whatever follows. -/
theorem IsCalm.stripFrom_append (ha : IsCalm a) (b : List Char) :
    stripFrom .clear ((a ++ b).map .char) = a.map .char ++ stripFrom .clear (b.map .char) := by
  rcases List.eq_nil_or_concat a with rfl | ⟨a, c, rfl⟩
  · rfl
  · rw [List.concat_eq_append] at ha ⊢
    rw [List.append_assoc]
    have hcalm : calm Sight.clear.atBoundary (a ++ [c]) = true := ha.2
    exact Noise.stripFrom_append (ha.1 c (List.getLast?_concat ..)) hcalm b

/-! ### Calm texts by their words -/

/-- White space is made of no word characters. -/
theorem isWord_of_isBlank (h : isBlank c) : isWord c = false := by
  -- past the ASCII part the two are ranges that have nothing in common
  have hapart : ∀ range ∈ wordRanges, ∀ blanks ∈ [(0x85, 0x85), (0xA0, 0xA0), (0x1680, 0x1680),
      (0x2000, 0x200A), (0x2028, 0x2029), (0x202F, 0x202F), (0x205F, 0x205F), (0x3000, 0x3000)],
      range.2 < blanks.1 ∨ blanks.2 < range.1 := by decide +kernel
  have hascii : ∀ n < 0x80, isBlank (Char.ofNat n) → isWord (Char.ofNat n) = false := by decide
  by_cases hc : c.toNat < 0x80
  · have hn := hascii c.toNat hc
    rw [Char.ofNat_toNat] at hn
    exact hn h
  · rw [isWord, if_neg hc, ← Bool.not_eq_true, List.any_eq_true]
    rintro ⟨range, hmem, hrange⟩
    have hno := hapart range hmem
    simp only [List.forall_mem_cons] at hno
    simp only [isBlank, Bool.or_eq_true, Bool.and_eq_true, decide_eq_true_eq, beq_iff_eq]
      at h hrange
    omega

section Reserved

variable {reserved : List (List Char)}

/-- **No noise opens** in front of a word that is not reserved. -/
theorem opens_of_wordsFrom (hclause : clauseKeyword ∈ reserved)
    (hplain : ∀ c ∈ text, c ∉ [quote, '-', '$'])
    (hcalls : '(' ∈ text → ∀ name ∈ volatileCalls, name ∈ reserved)
    (hhead : atBoundary = true → (wordsFrom (text.map fold)).1 ∉ reserved) :
    opens atBoundary text = false := by
  rw [← Bool.not_eq_true, opens_iff]
  -- a character of an opening that is no word character stands in the text as it is
  have hmem : ∀ d, isWord d = false → d ∈ text.map fold → d ∈ text := by
    intro d hd hmem
    obtain ⟨e, he, rfl⟩ := List.mem_map.mp hmem
    rwa [(fold_eq_iff hd).mp rfl] at he
  -- a word of an opening is the word at the head of the text
  have hword : ∀ word d rest, (∀ c ∈ word, isWord c) → isWord d = false →
      word ++ d :: rest = text.map fold → (wordsFrom (text.map fold)).1 = word := by
    intro word d rest hw hd he
    rw [← he, wordsFrom_head hw hd]
  rintro ⟨opening, hop | ⟨hb, hop | ⟨blank, hblank, rfl⟩⟩, ⟨rest, hp⟩⟩
  · have hfirst : ∀ opening ∈ openings, ∃ d ∈ [quote, '-', '$'], d ∈ opening ∧
        isWord d = false := by decide
    obtain ⟨d, hd, hd', hdw⟩ := hfirst opening hop
    exact hplain d (hmem d hdw (hp ▸ List.mem_append_left _ hd')) hd
  · rcases List.mem_cons.mp hop with rfl | hop
    · exact hplain quote (hmem quote rfl (hp ▸ List.mem_cons_of_mem _ List.mem_cons_self))
        List.mem_cons_self
    · obtain ⟨name, hname, rfl⟩ := List.mem_map.mp hop
      have hnames : ∀ name ∈ volatileCalls, ∀ c ∈ name, isWord c := by decide
      rw [List.append_assoc] at hp
      have hopen : '(' ∈ text := hmem '(' rfl (hp ▸ List.mem_append_right _ List.mem_cons_self)
      rw [← hword name '(' rest (hnames name hname) rfl hp] at hname
      exact hhead hb (hcalls hopen _ hname)
  · rw [clauseOpening, List.append_assoc] at hp
    refine hhead hb ?_
    rw [hword clauseKeyword blank rest (by decide) (isWord_of_isBlank hblank) hp]
    exact hclause

/-- The words that a text may not begin with, or hold, to be calm. -/
theorem calm_of_wordsFrom (hnil : [] ∉ reserved) (hclause : clauseKeyword ∈ reserved)
    (hplain : ∀ c ∈ text, c ∉ [quote, '-', '$'])
    (hcalls : '(' ∈ text → ∀ name ∈ volatileCalls, name ∈ reserved)
    (hhead : atBoundary = true → (wordsFrom (text.map fold)).1 ∉ reserved)
    (hothers : ∀ word ∈ (wordsFrom (text.map fold)).2, word ∉ reserved) :
    calm atBoundary text = true := by
  induction text generalizing atBoundary with
  | nil => rfl
  | cons c text ih =>
    refine calm_cons.mpr ⟨opens_of_wordsFrom hclause hplain hcalls hhead, ?_⟩
    have hplain' := fun d hd => hplain d (List.mem_cons_of_mem _ hd)
    have hcalls' := fun hopen => hcalls (List.mem_cons_of_mem _ hopen)
    rw [List.map_cons] at hothers
    by_cases hc : isWord c
    · rw [wordsFrom_cons ((isWord_fold c).1.trans hc)] at hothers
      exact ih hplain' hcalls' (by simp [hc]) hothers
    · have hc' : ¬isWord (fold c) := by rwa [(isWord_fold c).1]
      rw [wordsFrom_cons_of_not hc', words] at hothers
      refine ih hplain' hcalls' (fun _ hmem => ?_) fun word hw =>
        hothers word (Token.mem_push_of_mem hw)
      exact hothers _ (Token.mem_push_self fun he => hnil (he ▸ hmem)) hmem

end Reserved

/-- **A text without quotes, hyphens and dollar signs is calm** when it does not
hold the word `constraint`, nor that of a volatile function and a bracket. -/
theorem calm_of_words (hplain : ∀ c ∈ text, c ∉ [quote, '-', '$'])
    (hclause : clauseKeyword ∉ words (text.map fold))
    (hcalls : '(' ∈ text → ∀ name ∈ volatileCalls, name ∉ words (text.map fold)) :
    calm true text = true := by
  have hreserved : ∀ reserved : List (List Char), [] ∉ reserved → clauseKeyword ∈ reserved →
      ('(' ∈ text → ∀ name ∈ volatileCalls, name ∈ reserved) →
      (∀ word ∈ reserved, word ∉ words (text.map fold)) → calm true text = true := by
    intro reserved hnil hclause hcalls hwords
    refine calm_of_wordsFrom hnil hclause hplain hcalls (fun _ hmem => ?_) fun word hw hmem =>
      hwords word hmem (Token.mem_push_of_mem hw)
    exact hwords _ hmem (Token.mem_push_self fun he => hnil (he ▸ hmem))
  by_cases hopen : '(' ∈ text
  · refine hreserved (clauseKeyword :: volatileCalls) (by decide) List.mem_cons_self
      (fun _ name hname => List.mem_cons_of_mem _ hname) ?_
    exact List.forall_mem_cons.mpr ⟨hclause, hcalls hopen⟩
  · exact hreserved [clauseKeyword] (by decide) List.mem_cons_self
      (fun h => absurd h hopen) (List.forall_mem_cons.mpr ⟨hclause, nofun⟩)

end Noise

end SqlCatalog
