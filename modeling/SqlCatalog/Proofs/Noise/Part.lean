import SqlCatalog.Proofs.Noise.Calm

/-!
# Literals, groups and tails as they are written

The rules for noise read what they find, and give up where it does not end. This
file says what has to be written for a rule to read all of it.

| what is written | what reads it |
|---|---|
| the body of a literal (`SqlCatalog.Noise.IsBody`), a quote | `closeLiteral` or `closeGroup` |
| the inside of a bracket group (`SqlCatalog.Noise.IsInner`) | `closeGroup` |
| the tail of a clause (`SqlCatalog.Noise.IsClauseTail`) | `clauseTail` |

A quote behind a literal makes it go on: in a tail, literals that stand side by
side are read as one (`SqlCatalog.Noise.IsClauseTail.closeLiteral_append`). Hence a
tail is not read literal by literal, and that it is read whole
(`SqlCatalog.Noise.IsClauseTail.clauseTail_append`) is shown by its length.
-/

namespace SqlCatalog

open Text

namespace Noise

theorem map_char_inj {a b : List Char} : a.map Glyph.char = b.map .char ↔ a = b :=
  List.map_inj_right fun _ _ => Glyph.char.inj

/-! ### Spans that begin earlier -/

theorem Span.map_cons_map_before (o : Option Span) (text : List Glyph) (g : Glyph) :
    (o.map (before text)).map (cons g) = o.map (before (g :: text)) := by
  cases o <;> rfl

theorem Span.map_before_map_before (o : Option Span) (a b : List Glyph) :
    (o.map (before b)).map (before a) = o.map (before (a ++ b)) := by
  cases o with
  | none => rfl
  | some s => simp [before]

variable {body text rest : List Char} {c : Char} {escapes atBoundary : Bool}
  {depth level d : Nat} {gs : List Glyph} {s : Span}

/-! ### Literals -/

/-- **The body of a literal as it is written.** Every quote in it is doubled, and
where a backslash escapes, every backslash has a character behind it. -/
inductive IsBody (escapes : Bool) : List Char → Prop
  /-- An empty body. -/
  | nil : IsBody escapes []
  /-- A character that stands for itself. -/
  | plain {c : Char} {body : List Char} (hquote : c ≠ quote)
      (hmark : escapes = true → c ≠ backslash) (h : IsBody escapes body) :
      IsBody escapes (c :: body)
  /-- A quote, written twice. -/
  | pair {body : List Char} (h : IsBody escapes body) : IsBody escapes (quote :: quote :: body)
  /-- A backslash and the character that it makes ordinary. -/
  | escaped {c : Char} {body : List Char} (hescapes : escapes = true) (h : IsBody escapes body) :
      IsBody escapes (backslash :: c :: body)

/-- A literal is closed at a quote, whatever follows. -/
theorem closeLiteral_closed (escapes : Bool) (gs : List Glyph) :
    ∃ s, closeLiteral escapes .closed gs = some s := by
  match gs with
  | [] => exact ⟨_, rfl⟩
  | .stray _ :: _ => exact ⟨_, rfl⟩
  | .char c :: gs =>
    rw [closeLiteral]
    split <;> exact ⟨_, rfl⟩

/-- It is closed there and then, if no other quote follows. -/
theorem closeLiteral_closed_of_head (h : gs.head? ≠ some (.char quote)) :
    closeLiteral escapes .closed gs = some (Span.nothing gs) := by
  match gs with
  | [] => rfl
  | .stray _ :: _ => rfl
  | .char c :: gs => rw [closeLiteral, if_neg fun hc => h (by rw [hc, List.head?_cons])]

/-- **A literal is read up to the quote behind its body**, and may end there. -/
theorem IsBody.closeLiteral_append (h : IsBody escapes body) (gs : List Glyph) :
    closeLiteral escapes .inside (body.map .char ++ .char quote :: gs) =
      (closeLiteral escapes .closed gs).map
        (Span.before (body.map .char ++ [.char quote])) := by
  induction h with
  | nil =>
    rw [List.map_nil, List.nil_append, closeLiteral, Mood.after, if_pos rfl]
    rfl
  | @plain c body hquote hmark h ih =>
    have hmood : Mood.after escapes c = .inside := by
      rw [Mood.after, if_neg hquote, if_neg]
      rw [Bool.and_eq_true, decide_eq_true_eq]
      exact fun hc => hmark hc.1 hc.2
    rw [List.map_cons, List.cons_append, closeLiteral, hmood, ih, Span.map_cons_map_before]
    rfl
  | @pair body h ih =>
    -- the second quote belongs to the first, since the literal is closed later on
    obtain ⟨s, hs⟩ := closeLiteral_closed escapes gs
    have hsecond : closeLiteral escapes .closed
        (.char quote :: (body.map .char ++ .char quote :: gs)) =
        (closeLiteral escapes .closed gs).map
          (Span.before (.char quote :: (body.map .char ++ [.char quote]))) := by
      rw [closeLiteral, if_pos rfl, ih, hs]
      rfl
    rw [List.map_cons, List.map_cons, List.cons_append, List.cons_append, closeLiteral,
      Mood.after, if_pos rfl, hsecond, Span.map_cons_map_before]
    rfl
  | @escaped c body hescapes h ih =>
    have hmood : Mood.after escapes backslash = .escaped := by
      rw [hescapes]
      decide
    rw [List.map_cons, List.map_cons, List.cons_append, List.cons_append, closeLiteral, hmood,
      closeLiteral, ih, Span.map_cons_map_before, Span.map_cons_map_before]
    rfl

/-- A text without quotes, and where they escape without backslashes, is the body
of a literal. -/
theorem isBody_of_forall (h : ∀ c ∈ text, c ≠ quote ∧ (escapes = true → c ≠ backslash)) :
    IsBody escapes text := by
  induction text with
  | nil => exact .nil
  | cons c text ih =>
    obtain ⟨⟨hquote, hmark⟩, h⟩ := List.forall_mem_cons.mp h
    exact .plain hquote hmark (ih h)

/-- Without backslashes, the two kinds of literals have the same bodies. -/
theorem IsBody.of_standard (h : IsBody false body) (hmark : backslash ∉ body) (escapes : Bool) :
    IsBody escapes body := by
  induction h with
  | nil => exact .nil
  | plain hquote _ h ih =>
    exact .plain hquote (fun _ hc => hmark (hc ▸ List.mem_cons_self))
      (ih fun hm => hmark (List.mem_cons_of_mem _ hm))
  | pair h ih =>
    exact .pair (ih fun hm => hmark (List.mem_cons_of_mem _ (List.mem_cons_of_mem _ hm)))
  | escaped hescapes => cases hescapes

/-- A quote at which a literal is closed begins one. -/
theorem literal?_quote (h : closeLiteral false .inside gs = some s) (atBoundary : Bool) :
    literal? atBoundary (.char quote :: gs) = some (s.cons (.char quote)) := by
  have hkeyword : keyword [quote] (.char quote :: gs) = some ⟨[.char quote], gs⟩ := rfl
  rw [literal?, opened, hkeyword, Option.bind_some, h]
  rfl

/-- So do, at a word boundary, the letter of an escape literal and a quote. -/
theorem literal?_escape (hc : fold c = 'e') (h : closeLiteral true .inside gs = some s) :
    literal? true (.char c :: .char quote :: gs) =
      some ((s.cons (.char quote)).cons (.char c)) := by
  have hstandard : opened [quote] (closeLiteral false .inside) (.char c :: .char quote :: gs) =
      none := by
    rw [opened, keyword, if_neg fun hq => absurd (hc.symm.trans hq) (by decide)]
    rfl
  have hkeyword : keyword ['e', quote] (.char c :: .char quote :: gs) =
      some ⟨[.char c, .char quote], gs⟩ := by
    rw [keyword, if_pos hc]
    rfl
  rw [literal?, hstandard, if_pos rfl, opened, hkeyword, Option.bind_some, h]
  rfl

/-- No literal begins at any other character. -/
theorem literal?_eq_none (hquote : c ≠ quote)
    (h : atBoundary = true → fold c = 'e' → gs.head? ≠ some (.char quote)) :
    literal? atBoundary (.char c :: gs) = none := by
  have hstandard : opened [quote] (closeLiteral false .inside) (.char c :: gs) = none := by
    rw [opened, keyword, if_neg fun hq => hquote ((fold_eq_iff rfl).mp hq)]
    rfl
  rw [literal?, hstandard]
  dsimp only
  split
  · next hb =>
    rw [opened, keyword]
    split
    · next hc =>
      have hquote' : keyword [quote] gs = none := by
        have hd := h hb hc
        cases gs with
        | nil => rfl
        | cons g gs =>
          cases g with
          | stray bytes => rfl
          | char d =>
            rw [keyword, if_neg]
            intro hq
            rw [(fold_eq_iff rfl).mp hq] at hd
            exact hd rfl
      rw [hquote']
      rfl
    · rfl
  · rfl

/-! ### Groups -/

/-- **What stands in a bracket group as it is written**, with at most `d` brackets
open at once: characters, literals and groups. -/
inductive IsInner : (d : Nat) → List Char → Prop
  /-- Nothing. -/
  | nil {d : Nat} : IsInner d []
  /-- A character. -/
  | plain {d : Nat} {c : Char} {text : List Char} (hc : c ∉ ['(', ')', quote])
      (h : IsInner d text) : IsInner d (c :: text)
  /-- A literal. -/
  | literal {d : Nat} {body text : List Char} (hbody : IsBody false body) (h : IsInner d text) :
      IsInner d (quote :: (body ++ quote :: text))
  /-- A group. -/
  | group {d : Nat} {inner text : List Char} (hinner : IsInner d inner)
      (h : IsInner (d + 1) text) : IsInner (d + 1) ('(' :: (inner ++ ')' :: text))

/-- A quotation in a group goes on to the quote behind the body. -/
theorem IsBody.closeGroup_append (h : IsBody false body) (gs : List Glyph) :
    closeGroup depth level true (body.map .char ++ .char quote :: gs) =
      (closeGroup depth level false gs).map (Span.before (body.map .char ++ [.char quote])) := by
  have hclose : ∀ gs, closeGroup depth level true (.char quote :: gs) =
      (closeGroup depth level false gs).map (Span.cons (.char quote)) := fun gs => rfl
  induction h with
  | nil => exact hclose gs
  | @plain c body hquote _ h ih =>
    rw [List.map_cons, List.cons_append, closeGroup, bne_iff_ne.mpr hquote, ih,
      Span.map_cons_map_before]
    rfl
  | @pair body h ih =>
    rw [List.map_cons, List.map_cons, List.cons_append, List.cons_append, hclose, closeGroup,
      if_pos rfl, ih, Span.map_cons_map_before, Span.map_cons_map_before]
    rfl
  | escaped hescapes => cases hescapes

/-- **The inside of a group is read whole**, whatever follows. -/
theorem IsInner.closeGroup_append (h : IsInner d text) (hpos : 1 ≤ level)
    (hdeep : level + d ≤ depth) (gs : List Glyph) :
    closeGroup depth level false (text.map .char ++ gs) =
      (closeGroup depth level false gs).map (Span.before (text.map .char)) := by
  induction h generalizing level gs with
  | nil =>
    rw [List.map_nil, List.nil_append]
    cases closeGroup depth level false gs <;> rfl
  | @plain d c text hc h ih =>
    obtain ⟨hopen, hclose, hquote⟩ : c ≠ '(' ∧ c ≠ ')' ∧ c ≠ quote := by
      simpa using hc
    rw [List.map_cons, List.cons_append, closeGroup, if_neg hquote, if_neg hopen, if_neg hclose,
      ih hpos hdeep, Span.map_cons_map_before]
  | @literal d body text hbody h ih =>
    rw [List.map_cons, List.map_append, List.map_cons, List.cons_append, List.append_assoc,
      List.cons_append, closeGroup, if_pos rfl, hbody.closeGroup_append, ih hpos hdeep,
      Span.map_before_map_before, Span.map_cons_map_before]
    simp
  | @group d inner text hinner h ihinner ih =>
    have hlevel : level < depth := by omega
    rw [List.map_cons, List.map_append, List.map_cons, List.cons_append, List.append_assoc,
      List.cons_append, closeGroup, if_neg (by decide), if_pos rfl, if_pos hlevel,
      ihinner (by omega) (by omega), closeGroup, if_neg (by decide), if_neg (by decide),
      if_pos rfl, if_neg (by omega), Nat.add_sub_cancel, ih hpos hdeep,
      Span.map_cons_map_before, Span.map_cons_map_before, Span.map_before_map_before]
    rfl

/-- A text without brackets and quotes is the inside of a group. -/
theorem isInner_of_forall (h : ∀ c ∈ text, c ∉ ['(', ')', quote]) : IsInner d text := by
  induction text with
  | nil => exact .nil
  | cons c text ih =>
    obtain ⟨hc, h⟩ := List.forall_mem_cons.mp h
    exact .plain hc (ih h)

/-- A group begins with its bracket. -/
theorem group_open (depth : Nat) (gs : List Glyph) :
    group depth (.char '(' :: gs) =
      (closeGroup depth 1 false gs).map (Span.cons (.char '(')) := by
  have hkeyword : keyword ['('] (.char '(' :: gs) = some ⟨[.char '('], gs⟩ := rfl
  rw [group, opened, hkeyword, Option.bind_some]
  rfl

/-- **A group is read whole**, whatever follows. -/
theorem IsInner.group_append (h : IsInner d text) (hdeep : d < depth) (gs : List Glyph) :
    Noise.group depth (.char '(' :: (text.map .char ++ .char ')' :: gs)) =
      some ⟨.char '(' :: (text.map .char ++ [.char ')']), gs⟩ := by
  have hclose : closeGroup depth 1 false (.char ')' :: gs) = some ⟨[.char ')'], gs⟩ := rfl
  rw [group_open, h.closeGroup_append (Nat.le_refl 1) (by omega), hclose]
  rfl

/-- There is no group without a bracket. -/
theorem group_of_ne (h : c ≠ '(') : group depth (.char c :: gs) = none := by
  rw [group, opened, keyword, if_neg fun hf => h ((fold_eq_iff rfl).mp hf)]
  rfl

/-! ### Tails -/

/-- **The tail of a clause as it is written**: characters that do not end it,
literals without backslashes, and groups. -/
inductive IsClauseTail : List Char → Prop
  /-- Nothing. -/
  | nil : IsClauseTail []
  /-- A character. -/
  | plain {c : Char} {tail : List Char} (hc : endsTail c = false) (h : IsClauseTail tail) :
      IsClauseTail (c :: tail)
  /-- A literal. Its body is the same with the letter of an escape literal in front
  of it. -/
  | literal {body tail : List Char} (hbody : IsBody false body) (hmark : backslash ∉ body)
      (h : IsClauseTail tail) : IsClauseTail (quote :: (body ++ quote :: tail))
  /-- A group. -/
  | group {d : Nat} {inner tail : List Char} (hd : d < maxNesting) (hinner : IsInner d inner)
      (h : IsClauseTail tail) : IsClauseTail ('(' :: (inner ++ ')' :: tail))

/-- Characters that do not end a tail, in front of one. -/
theorem IsClauseTail.append (h : IsClauseTail rest) (htext : ∀ c ∈ text, endsTail c = false) :
    IsClauseTail (text ++ rest) := by
  induction text with
  | nil => exact h
  | cons c text ih =>
    obtain ⟨hc, htext⟩ := List.forall_mem_cons.mp htext
    exact .plain hc (ih htext)

/-- **A character that ends a clause**, when it stands outside brackets. -/
def IsClauseEnd (c : Char) : Prop :=
  c ∈ [',', ')', ';']

instance (c : Char) : Decidable (IsClauseEnd c) :=
  inferInstanceAs (Decidable (_ ∈ _))

theorem clauseTail_of_part (h : tailPart? atBoundary gs = some s) :
    clauseTail atBoundary gs = (clauseTail true s.rest).before s.text := by
  rw [clauseTail]
  split
  · next hsome =>
    rw [h] at hsome
    cases hsome
    rfl
  · next hnone => cases h.symm.trans hnone

theorem clauseTail_of_char (h : tailPart? atBoundary (.char c :: gs) = none) :
    clauseTail atBoundary (.char c :: gs) =
      if endsTail c then Span.nothing (.char c :: gs)
      else (clauseTail (!isWord c) gs).cons (.char c) := by
  rw [clauseTail]
  split
  · next hsome => cases h.symm.trans hsome
  · rfl

/-- A tail ends where no character comes next. -/
theorem clauseTail_of_none (h : tailPart? atBoundary gs = none)
    (hgs : ∀ c rest, gs ≠ .char c :: rest) : clauseTail atBoundary gs = Span.nothing gs := by
  rw [clauseTail]
  split
  · next hsome => cases h.symm.trans hsome
  · cases gs with
    | nil => rfl
    | cons g gs =>
      cases g with
      | stray bytes => rfl
      | char c => exact absurd rfl (hgs c gs)

theorem tailPart?_of_literal (h : literal? atBoundary gs = some s) :
    tailPart? atBoundary gs = some s := by
  rw [tailPart?, h]

theorem tailPart?_of_none (h : literal? atBoundary gs = none) :
    tailPart? atBoundary gs = Noise.group maxNesting gs := by
  rw [tailPart?, h]

/-- **A character that a tail may hold** is read, where no literal begins. -/
theorem clauseTail_char (hc : endsTail c = false)
    (hgs : fold c = 'e' → gs.head? ≠ some (.char quote)) :
    clauseTail atBoundary (.char c :: gs) = (clauseTail (!isWord c) gs).cons (.char c) := by
  have hends : ∀ d ∈ [quote, '('], endsTail d = true := by decide
  have hne : ∀ d ∈ [quote, '('], c ≠ d := by
    rintro d hd rfl
    exact Bool.false_ne_true (hc.symm.trans (hends c hd))
  have hliteral : literal? atBoundary (.char c :: gs) = none :=
    literal?_eq_none (hne _ List.mem_cons_self) fun _ => hgs
  have hgroup : group maxNesting (.char c :: gs) = none := group_of_ne (hne '(' (by decide))
  rw [clauseTail_of_char ((tailPart?_of_none hliteral).trans hgroup), hc]
  rfl

/-- A tail ends where a clause may end. -/
theorem clauseTail_end (hrest : ∀ c ∈ rest.head?, IsClauseEnd c) :
    clauseTail atBoundary (rest.map .char) = Span.nothing (rest.map .char) := by
  cases rest with
  | nil =>
    have hpart : ∀ atBoundary, tailPart? atBoundary [] = none := by decide
    rw [List.map_nil, clauseTail]
    split
    · next hsome => cases (hpart _).symm.trans hsome
    · rfl
  | cons c rest =>
    have hc : c ≠ quote ∧ fold c ≠ 'e' ∧ c ≠ '(' ∧ endsTail c = true := by
      have hend := hrest c rfl
      simp only [IsClauseEnd, List.mem_cons, List.not_mem_nil, or_false] at hend
      rcases hend with rfl | rfl | rfl <;> decide
    obtain ⟨hquote, hletter, hopen, hends⟩ := hc
    have hpart : tailPart? atBoundary (.char c :: rest.map .char) = none := by
      rw [tailPart?_of_none (literal?_eq_none hquote fun _ he => absurd he hletter),
        group_of_ne hopen]
    rw [List.map_cons, clauseTail_of_char hpart, if_pos hends]

/-- A literal goes on through what is read behind its closing quote. -/
theorem IsBody.closeLiteral_goes_on {tail a b : List Char} (hbody : IsBody false body)
    (hmark : backslash ∉ body)
    (hclose : closeLiteral escapes .closed (tail.map .char ++ gs) =
      some ⟨a.map .char, b.map .char ++ gs⟩) :
    closeLiteral escapes .inside ((body ++ quote :: tail).map .char ++ gs) =
      some ⟨(body ++ quote :: a).map .char, b.map .char ++ gs⟩ := by
  rw [List.map_append, List.map_cons, List.append_assoc, List.cons_append,
    (hbody.of_standard hmark escapes).closeLiteral_append, hclose]
  simp [Span.before]

/-- **Where a literal may end in a tail**, it goes on through the literals that
stand right behind it. -/
theorem IsClauseTail.closeLiteral_append (h : IsClauseTail text)
    (hgs : gs.head? ≠ some (.char quote)) (escapes : Bool) :
    ∃ a b, text = a ++ b ∧ IsClauseTail b ∧
      closeLiteral escapes .closed (text.map .char ++ gs) =
        some ⟨a.map .char, b.map .char ++ gs⟩ := by
  induction h with
  | nil => exact ⟨[], [], rfl, .nil, closeLiteral_closed_of_head hgs⟩
  | @plain c tail hc h ih =>
    refine ⟨[], c :: tail, rfl, .plain hc h, closeLiteral_closed_of_head fun hq => ?_⟩
    cases hq
    cases hc
  | @literal body tail hbody hmark h ih =>
    obtain ⟨a, b, rfl, hb, hclose⟩ := ih
    refine ⟨quote :: (body ++ quote :: a), b, by simp, hb, ?_⟩
    rw [List.map_cons, List.cons_append, closeLiteral, if_pos rfl,
      hbody.closeLiteral_goes_on hmark hclose]
    rfl
  | @group d inner tail hd hinner h ih =>
    refine ⟨[], _, rfl, .group hd hinner h, closeLiteral_closed_of_head fun hq => ?_⟩
    cases hq

/-- **What is read first of a tail**: nothing, if there is nothing, a character
that belongs to no part, or a part. -/
theorem IsClauseTail.part_cases (h : IsClauseTail text)
    (hrest : (rest.map Glyph.char).head? ≠ some (.char quote)) (atBoundary : Bool) :
    text = [] ∨
      (∃ c tail, text = c :: tail ∧ endsTail c = false ∧ IsClauseTail tail ∧
        tailPart? atBoundary ((text ++ rest).map .char) = none) ∨
      ∃ a b, text = a ++ b ∧ a ≠ [] ∧ IsClauseTail b ∧
        tailPart? atBoundary ((text ++ rest).map .char) =
          some ⟨a.map .char, (b ++ rest).map .char⟩ := by
  cases h with
  | nil => exact Or.inl rfl
  | @plain c tail hc h =>
    have hne : c ≠ quote ∧ c ≠ '(' := by
      constructor <;> rintro rfl <;> cases hc
    by_cases hescape : atBoundary = true ∧ fold c = 'e' ∧ tail.head? = some quote
    · -- the letter of an escape literal
      obtain ⟨rfl, hletter, hhead⟩ := hescape
      cases h with
      | nil => cases hhead
      | plain hd => cases hhead; cases hd
      | group => cases hhead
      | @literal body tail hbody hmark h =>
        obtain ⟨a, b, rfl, hb, hclose⟩ := h.closeLiteral_append hrest true
        refine Or.inr (Or.inr ⟨c :: quote :: (body ++ quote :: a), b, by simp, by simp, hb, ?_⟩)
        have hpart := tailPart?_of_literal
          (literal?_escape hletter (hbody.closeLiteral_goes_on hmark hclose))
        simpa [Span.cons] using hpart
    · have hliteral : literal? atBoundary (.char c :: (tail ++ rest).map .char) = none := by
        refine literal?_eq_none hne.1 fun hb hletter hq => ?_
        cases tail with
        | nil => exact hrest hq
        | cons d tail =>
          refine hescape ⟨hb, hletter, ?_⟩
          cases hq
          rfl
      exact Or.inr (Or.inl ⟨c, tail, rfl, hc, h,
        (tailPart?_of_none hliteral).trans (group_of_ne hne.2)⟩)
  | @literal body tail hbody hmark h =>
    obtain ⟨a, b, rfl, hb, hclose⟩ := h.closeLiteral_append hrest false
    refine Or.inr (Or.inr ⟨quote :: (body ++ quote :: a), b, by simp, by simp, hb, ?_⟩)
    have hpart := tailPart?_of_literal
      (literal?_quote (hbody.closeLiteral_goes_on hmark hclose) atBoundary)
    simpa [Span.cons] using hpart
  | @group d inner tail hd hinner h =>
    refine Or.inr (Or.inr ⟨'(' :: (inner ++ [')']), tail, by simp, by simp, h, ?_⟩)
    have hliteral : literal? atBoundary
        (.char '(' :: (inner.map .char ++ .char ')' :: (tail ++ rest).map .char)) = none :=
      literal?_eq_none (by decide) fun _ he => absurd he (by decide)
    have hpart := (tailPart?_of_none hliteral).trans (hinner.group_append hd _)
    simpa using hpart

/-- **A tail is read whole**, up to where the clause ends. -/
theorem IsClauseTail.clauseTail_append (h : IsClauseTail text)
    (hrest : ∀ c ∈ rest.head?, IsClauseEnd c) :
    clauseTail atBoundary ((text ++ rest).map .char) = ⟨text.map .char, rest.map .char⟩ := by
  have hquote : (rest.map Glyph.char).head? ≠ some (.char quote) := by
    rw [List.head?_map]
    intro hq
    obtain ⟨c, hc, he⟩ := Option.map_eq_some_iff.mp hq
    cases he
    exact absurd (hrest _ hc) (by decide)
  -- a part is read at once, so the tail gets shorter by more than a character
  generalize hn : text.length = n
  induction n using Nat.strongRecOn generalizing text atBoundary with
  | ind n ih =>
  rcases h.part_cases hquote atBoundary with
    rfl | ⟨c, tail, rfl, hc, htail, hpart⟩ | ⟨a, b, rfl, ha, hb, hpart⟩
  · exact clauseTail_end hrest
  · rw [List.cons_append, List.map_cons] at hpart ⊢
    rw [clauseTail_of_char hpart, hc, if_neg Bool.false_ne_true,
      ih _ (by rw [← hn]; exact Nat.lt_succ_self _) htail rfl]
    rfl
  · have hshorter : b.length < n := by
      have := List.length_pos_iff.mpr ha
      rw [← hn, List.length_append]
      omega
    rw [clauseTail_of_part hpart, ih _ hshorter hb rfl]
    simp [Span.before]

end Noise

end SqlCatalog
