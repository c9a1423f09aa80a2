import SqlCatalog.Proofs.Noise.Part

/-!
# Noise as it is written

Every kind of noise has a form in which it is written, and noise in its form is
read as one piece, neither less nor more (the theorems
`SqlCatalog.Noise.noise?_literal` to `SqlCatalog.Noise.ClauseForm.noise?_append`).

* A literal needs no quote behind it, which would make it go on.
* A comment goes to the end of its line.
* A dollar-quoted body (`SqlCatalog.Noise.DollarForm`) ends where its delimiter
  first stands again, and no other delimiter can open it
  (`SqlCatalog.Noise.eq_of_delimiter_prefix`).
* A volatile call (`SqlCatalog.Noise.CallForm`) is a name and a group.
* A constraint clause (`SqlCatalog.Noise.ClauseForm`) goes on to the next comma,
  semicolon or closing bracket outside its own brackets
  (`SqlCatalog.Noise.IsClauseEnd`).

An escape literal, a call and a clause stand at a word boundary; the others may
stand anywhere.
-/

namespace SqlCatalog

open Text

namespace Noise

open Identifier (doubleQuote)

variable {a body comment rest word : List Char} {c letter : Char} {atBoundary : Bool}
  {gs : List Glyph}

/-! ### Runs and optional characters -/

/-- A run of a class of characters takes them all, and may go on. -/
theorem takeChars_before {p : Char → Bool} (h : ∀ c ∈ a, p c) (gs : List Glyph) :
    takeChars p (a.map .char ++ gs) = (takeChars p gs).before (a.map .char) := by
  induction a with
  | nil => rfl
  | cons d a ih =>
    obtain ⟨hd, h⟩ := List.forall_mem_cons.mp h
    rw [List.map_cons, List.cons_append, takeChars, if_pos hd, ih h]
    rfl

/-- It ends at the first glyph that is none of them. -/
theorem takeChars_until {p : Char → Bool} (h : ∀ c ∈ a, p c)
    (hgs : ∀ c, gs.head? = some (.char c) → ¬p c) :
    takeChars p (a.map .char ++ gs) = ⟨a.map .char, gs⟩ := by
  have hnone : takeChars p gs = Span.nothing gs := by
    cases gs with
    | nil => rfl
    | cons g gs =>
      cases g with
      | stray bytes => rfl
      | char c => exact if_neg (hgs c rfl)
  rw [takeChars_before h, hnone, Span.before, Span.text_nothing, List.append_nil,
    Span.rest_nothing]

/-- A character that may stand there or not. -/
theorem optionalChar_before {d : Char} {p : Prop} [Decidable p]
    (hgs : gs.head? ≠ some (.char d)) :
    optionalChar d ((if p then [d] else []).map .char ++ gs) =
      ⟨(if p then [d] else []).map .char, gs⟩ := by
  by_cases hp : p
  · simp [hp, optionalChar]
  · cases gs with
    | nil => simp [hp, optionalChar, Span.nothing]
    | cons g gs =>
      have hg : g ≠ .char d := fun h => hgs (congrArg some h)
      simp [hp, optionalChar, hg, Span.nothing]

/-- The glyph at the head of a text is the character there. -/
theorem head?_map_char : (rest.map Glyph.char).head? = some (.char c) ↔ rest.head? = some c := by
  cases rest <;> simp

/-- A run in a text ends at the first character that is none of them. -/
theorem takeChars_append {p : Char → Bool} (h : ∀ c ∈ a, p c) (hrest : ∀ c ∈ rest.head?, ¬p c) :
    takeChars p ((a ++ rest).map .char) = ⟨a.map .char, rest.map .char⟩ := by
  rw [List.map_append]
  exact takeChars_until h fun c hc => hrest c (head?_map_char.mp hc)

/-! ### Keywords -/

/-- A keyword in a text, and what is read behind it. -/
theorem opened_append (h : a.map fold = word) (close : List Glyph → Option Span)
    (rest : List Char) :
    opened word close ((a ++ rest).map .char) =
      (close (rest.map .char)).map (Span.before (a.map .char)) := by
  rw [opened, keyword_append h, Option.bind_some]

/-- A rule reads nothing where its keyword does not begin. -/
theorem opened_of_ne {k : Char} {close : List Glyph → Option Span} (h : fold c ≠ k) :
    opened (k :: word) close (.char c :: gs) = none := by
  rw [opened, keyword, if_neg h]
  rfl

theorem comment?_of_ne (h : fold c ≠ '-') : comment? (.char c :: gs) = none :=
  opened_of_ne h

theorem dollarBody?_of_ne (h : fold c ≠ '$') : dollarBody? (.char c :: gs) = none := by
  rw [dollarBody?, List.findSome?_eq_none_iff]
  exact fun tag _ => opened_of_ne h

theorem call?_of_ne (h : fold c ∉ ['t', 'n']) : call? atBoundary (.char c :: gs) = none := by
  obtain ⟨ht, hn⟩ : fold c ≠ 't' ∧ fold c ≠ 'n' := by simpa using h
  rw [call?]
  split
  · rw [List.findSome?_eq_none_iff]
    intro name hname
    simp only [volatileCalls, List.mem_cons, List.not_mem_nil, or_false] at hname
    rcases hname with rfl | rfl
    · exact opened_of_ne ht
    · exact opened_of_ne hn
  · rfl

/-- **Of several keywords, none of which begins another, only the one that stands
there matters.** -/
theorem findSome?_opened (key : List Char → List Char)
    (close : List Char → List Glyph → Option Span) {words : List (List Char)}
    (hmem : word ∈ words) (hapart : ∀ a ∈ words, ∀ b ∈ words, key a <+: key b → a = b)
    (h : a.map fold = key word) (rest : List Char) :
    words.findSome? (fun word => opened (key word) (close word) ((a ++ rest).map .char)) =
      (close word (rest.map .char)).map (Span.before (a.map .char)) := by
  have hothers : ∀ other ∈ words, other ≠ word →
      opened (key other) (close other) ((a ++ rest).map .char) = none := by
    intro other hother hne
    refine opened_eq_none fun x y htext hx => absurd ?_ hne
    have hp : key other <+: (a ++ rest).map fold := ⟨y.map fold, by
      rw [htext, List.map_append, hx]⟩
    have hp' : key word <+: (a ++ rest).map fold := ⟨rest.map fold, by
      rw [List.map_append, h]⟩
    rcases List.prefix_or_prefix_of_prefix hp hp' with hpre | hpre
    · exact hapart other hother word hmem hpre
    · exact (hapart word hmem other hother hpre).symm
  cases hclose : close word (rest.map .char) with
  | none =>
    rw [Option.map_none, List.findSome?_eq_none_iff]
    intro other hother
    by_cases hne : other = word
    · rw [hne, opened_append h, hclose, Option.map_none]
    · exact hothers other hother hne
  | some s =>
    obtain ⟨front, back, rfl, hnot⟩ := List.eq_append_cons_of_mem hmem
    have hfront : ∀ other ∈ front,
        opened (key other) (close other) ((a ++ rest).map .char) = none := fun other hother =>
      hothers other (List.mem_append_left _ hother) fun he => hnot (he ▸ hother)
    rw [List.findSome?_append, List.findSome?_eq_none_iff.mpr hfront, Option.none_or,
      List.findSome?_cons, opened_append h, hclose]
    rfl

/-! ### Literals and comments -/

/-- The text of a literal. -/
def literalText (body : List Char) : List Char :=
  quote :: (body ++ [quote])

/-- **A literal is read whole**, if no other quote stands behind it. -/
theorem noise?_literal (h : IsBody false body) (hrest : rest.head? ≠ some quote) :
    noise? atBoundary ((literalText body ++ rest).map .char) =
      some (.literal, ⟨(literalText body).map .char, rest.map .char⟩) := by
  have hhead : (rest.map Glyph.char).head? ≠ some (.char quote) := by
    simpa [List.head?_map] using hrest
  have hinside := h.closeLiteral_append (rest.map .char)
  rw [closeLiteral_closed_of_head hhead] at hinside
  have hliteral := literal?_quote hinside atBoundary
  have htext : (literalText body ++ rest).map Glyph.char =
      .char quote :: (body.map .char ++ .char quote :: rest.map .char) := by
    simp [literalText]
  rw [htext, noise?, hliteral]
  simp [literalText, Span.before, Span.cons, Span.nothing]

/-- **An escape literal is read whole** at a word boundary, if no other quote stands
behind it. -/
theorem noise?_escape (hletter : fold letter = 'e') (h : IsBody true body)
    (hrest : rest.head? ≠ some quote) :
    noise? true ((letter :: literalText body ++ rest).map .char) =
      some (.literal, ⟨(letter :: literalText body).map .char, rest.map .char⟩) := by
  have hhead : (rest.map Glyph.char).head? ≠ some (.char quote) := by
    simpa [List.head?_map] using hrest
  have hinside := h.closeLiteral_append (rest.map .char)
  rw [closeLiteral_closed_of_head hhead] at hinside
  have hliteral := literal?_escape hletter hinside
  have htext : (letter :: literalText body ++ rest).map Glyph.char =
      .char letter :: .char quote :: (body.map .char ++ .char quote :: rest.map .char) := by
    simp [literalText]
  rw [htext, noise?, hliteral]
  simp [literalText, Span.before, Span.cons, Span.nothing]

/-- The text of a comment. -/
def commentText (comment : List Char) : List Char :=
  '-' :: '-' :: comment

/-- **A comment is read to the end of its line.** -/
theorem noise?_comment (h : '\n' ∉ comment) (hrest : ∀ c ∈ rest.head?, c = '\n') :
    noise? atBoundary ((commentText comment ++ rest).map .char) =
      some (.comment, ⟨(commentText comment).map .char, rest.map .char⟩) := by
  have hrun : takeChars (· != '\n') ((comment ++ rest).map .char) =
      ⟨comment.map .char, rest.map .char⟩ := by
    refine takeChars_append (fun c hc => ?_) fun c hc => ?_
    · exact bne_iff_ne.mpr fun he => h (he ▸ hc)
    · rw [hrest c hc]
      decide
  have hliteral : literal? atBoundary ((commentText comment ++ rest).map .char) = none :=
    literal?_eq_none (by decide) fun _ he => absurd he (by decide)
  have hcomment : comment? ((commentText comment ++ rest).map .char) =
      some ⟨(commentText comment).map .char, rest.map .char⟩ := by
    have hkeyword : ['-', '-'].map fold = ['-', '-'] := rfl
    have hopened := opened_append hkeyword (fun gs => some (takeChars (· != '\n') gs))
      (comment ++ rest)
    rw [hrun] at hopened
    exact hopened
  rw [noise?, hliteral, hcomment]

/-! ### Dollar-quoted bodies -/

/-- **A dollar-quoted body as it is written**, with its two delimiters in any letter
case. -/
structure DollarForm where
  /-- The tag of the delimiters. -/
  tag : List Char
  /-- The first delimiter. -/
  opening : List Char
  /-- What stands between the delimiters. -/
  body : List Char
  /-- The second delimiter. -/
  closing : List Char
  /-- The tag is one of those that are known. -/
  mem_dollarTags : tag ∈ dollarTags
  /-- The body begins with its delimiter. -/
  fold_opening : opening.map fold = delimiter tag
  /-- It ends with its delimiter. -/
  fold_closing : closing.map fold = delimiter tag
  /-- The delimiter stands nowhere in front of that. -/
  not_prefix : ∀ n < body.length, ¬delimiter tag <+: ((body ++ closing).drop n).map fold

/-- The text of a dollar-quoted body. -/
def DollarForm.text (form : DollarForm) : List Char :=
  form.opening ++ (form.body ++ form.closing)

/-- **No delimiter begins another.** -/
theorem eq_of_delimiter_prefix :
    ∀ a ∈ dollarTags, ∀ b ∈ dollarTags, delimiter a <+: delimiter b → a = b := by
  decide

/-- **A body is read up to the first place where its delimiter stands.** -/
theorem closeBody_append {delim closing : List Char} (hne : closing ≠ [])
    (hclosing : closing.map fold = delim)
    (hfirst : ∀ n < body.length, ¬delim <+: ((body ++ closing).drop n).map fold)
    (rest : List Char) :
    closeBody delim ((body ++ closing ++ rest).map .char) =
      some ⟨(body ++ closing).map .char, rest.map .char⟩ := by
  induction body with
  | nil =>
    obtain ⟨x, xs, rfl⟩ := List.exists_cons_of_ne_nil hne
    have hkeyword := keyword_append hclosing (b := rest)
    rw [List.nil_append]
    rw [List.cons_append, List.map_cons] at hkeyword ⊢
    rw [closeBody, hkeyword]
  | cons c body ih =>
    have hnone : keyword delim ((c :: body ++ closing ++ rest).map .char) = none := by
      rw [Option.eq_none_iff_forall_ne_some]
      intro s hs
      obtain ⟨x, y, htext, hx, -⟩ := of_keyword hs
      -- the delimiter is no longer than the one behind the body, so it ends no later
      have hlen : x.length ≤ (c :: body ++ closing).length := by
        have := congrArg List.length (hx.trans hclosing.symm)
        simp only [List.length_map] at this
        simp only [List.length_append]
        omega
      have hp : x <+: c :: body ++ closing :=
        List.prefix_of_prefix_length_le ⟨y, htext.symm⟩ ⟨rest, rfl⟩ hlen
      exact hfirst 0 (Nat.succ_pos _) (hx ▸ hp.map fold)
    have hrest := ih fun n hn => hfirst (n + 1) (Nat.succ_lt_succ hn)
    rw [List.cons_append, List.cons_append, List.map_cons] at hnone ⊢
    rw [closeBody, hnone]
    dsimp only
    rw [hrest]
    rfl

/-- **A dollar-quoted body is read whole**, whatever stands around it. -/
theorem DollarForm.noise?_append (form : DollarForm) (rest : List Char) :
    noise? atBoundary ((form.text ++ rest).map .char) =
      some (.dollarBody, ⟨form.text.map .char, rest.map .char⟩) := by
  obtain ⟨tag, opening, body, closing, hmem, hopening, hclosing, hfirst⟩ := form
  have hne : closing ≠ [] := by
    rintro rfl
    cases hclosing
  have hbody := closeBody_append hne hclosing hfirst rest
  have hdollar := findSome?_opened delimiter (fun tag => closeBody (delimiter tag)) hmem
    eq_of_delimiter_prefix hopening (body ++ closing ++ rest)
  rw [hbody] at hdollar
  -- a delimiter begins neither a literal nor a comment
  obtain ⟨x, xs, rfl, hx, -⟩ := List.map_eq_cons_iff.mp hopening
  have hxd : x = '$' := (fold_eq_iff rfl).mp hx
  have htext : (text ⟨tag, x :: xs, body, closing, hmem, hopening, hclosing, hfirst⟩ ++ rest) =
      x :: xs ++ (body ++ closing ++ rest) := by
    simp [text]
  rw [htext, noise?, List.cons_append, List.map_cons,
    literal?_eq_none (by rw [hxd]; decide) fun _ he => absurd (hx.symm.trans he) (by decide),
    comment?_of_ne (by rw [hx]; decide), ← List.map_cons, ← List.cons_append, dollarBody?, hdollar]
  simp [text, Span.before]

/-! ### Volatile calls -/

/-- **The rule for calls where the name of a function stands** at a word boundary:
what is behind the name has to be a group. -/
theorem call?_append {name : List Char} (h : name.map fold ∈ volatileCalls) (rest : List Char) :
    call? true ((name ++ rest).map .char) =
      (group maxNesting (rest.map .char)).map (Span.before (name.map .char)) := by
  have hapart : ∀ a ∈ volatileCalls, ∀ b ∈ volatileCalls, a <+: b → a = b := by decide
  exact findSome?_opened id (fun _ => group maxNesting) h hapart rfl rest

/-- **A volatile call as it is written**, in any letter case. -/
structure CallForm where
  /-- The name of the function. -/
  name : List Char
  /-- What stands between the brackets. -/
  inner : List Char
  /-- How deep the brackets in between are nested. -/
  depth : Nat
  /-- The name is that of a volatile function. -/
  fold_mem : name.map fold ∈ volatileCalls
  /-- The brackets pair up. -/
  isInner : IsInner depth inner
  /-- They are not nested too deeply. -/
  depth_lt : depth < maxNesting

/-- The text of a call. -/
def CallForm.text (form : CallForm) : List Char :=
  form.name ++ '(' :: (form.inner ++ [')'])

/-- **A call is read whole** at a word boundary, whatever follows. -/
theorem CallForm.noise?_append (form : CallForm) (rest : List Char) :
    noise? true ((form.text ++ rest).map .char) =
      some (.call, ⟨form.text.map .char, rest.map .char⟩) := by
  obtain ⟨name, inner, depth, hmem, hinner, hdepth⟩ := form
  have hgroup : group maxNesting (('(' :: (inner ++ ')' :: rest)).map .char) =
      some ⟨('(' :: (inner ++ [')'])).map .char, rest.map .char⟩ := by
    simpa using hinner.group_append hdepth (rest.map .char)
  have hcall := call?_append hmem ('(' :: (inner ++ ')' :: rest))
  rw [hgroup] at hcall
  -- the name of a function begins no other noise
  have hheads : ∀ word ∈ volatileCalls,
      word ≠ [] ∧ ∀ k ∈ word.head?, k ∉ [quote, 'e', '-', '$'] := by decide
  obtain ⟨hne, hother⟩ := hheads _ hmem
  obtain ⟨x, xs, rfl⟩ : ∃ x xs, name = x :: xs := List.exists_cons_of_ne_nil <| by
    rintro rfl
    exact hne rfl
  obtain ⟨hquote, hletter, hhyphen, hdollar⟩ :
      fold x ≠ quote ∧ fold x ≠ 'e' ∧ fold x ≠ '-' ∧ fold x ≠ '$' := by
    simpa using hother (fold x) rfl
  have htext : text ⟨x :: xs, inner, depth, hmem, hinner, hdepth⟩ ++ rest =
      x :: xs ++ '(' :: (inner ++ ')' :: rest) := by
    simp [text]
  rw [htext, noise?, List.cons_append, List.map_cons,
    literal?_eq_none (fun he => hquote (by rw [he]; decide)) fun _ he => absurd he hletter,
    comment?_of_ne hhyphen, dollarBody?_of_ne hdollar, ← List.map_cons, ← List.cons_append, hcall]
  simp [text, Span.before]

/-! ### Constraint clauses -/

/-- **The name of a constraint as it is written**: name characters, with a double
quote in front of them or behind them, or not. -/
structure ClauseName where
  /-- Whether a double quote stands in front. -/
  isOpened : Bool
  /-- The name characters. -/
  chars : List Char
  /-- Whether a double quote stands behind. -/
  isPaired : Bool
  /-- There is a name character. -/
  chars_ne_nil : chars ≠ []
  /-- They are name characters. -/
  isNameChar_of_mem : ∀ c ∈ chars, isNameChar c

/-- The text of a name. -/
def ClauseName.text (name : ClauseName) : List Char :=
  (if name.isOpened then [doubleQuote] else []) ++
    (name.chars ++ if name.isPaired then [doubleQuote] else [])

/-- **A character that a name does not go on with.** -/
def EndsName (c : Char) : Prop :=
  isNameChar c = false ∧ c ≠ doubleQuote

instance (c : Char) : Decidable (EndsName c) :=
  inferInstanceAs (Decidable (_ ∧ _))

/-- White space is no other character. -/
theorem ne_of_isBlank (h : isBlank c) {d : Char} (hd : ¬isBlank d) : c ≠ d := by
  rintro rfl
  exact hd h

/-- White space is no part of a name. -/
theorem endsName_of_isBlank (h : isBlank c) : EndsName c := by
  refine ⟨?_, ne_of_isBlank h (by decide)⟩
  rw [isNameChar, isWord_of_isBlank h, beq_eq_false_iff_ne.mpr (ne_of_isBlank h (by decide)),
    beq_eq_false_iff_ne.mpr (ne_of_isBlank h (by decide))]
  rfl

/-- What ends a clause ends a name. -/
theorem endsName_of_isClauseEnd (h : IsClauseEnd c) : EndsName c := by
  simp only [IsClauseEnd, List.mem_cons, List.not_mem_nil, or_false] at h
  rcases h with rfl | rfl | rfl <;> decide

/-- **A name is read whole**, where it does not go on. -/
theorem constraintName_before (name : ClauseName)
    (hgs : ∀ c, gs.head? = some (.char c) → EndsName c) :
    constraintName (name.text.map .char ++ gs) = some ⟨name.text.map .char, gs⟩ := by
  obtain ⟨isOpened, chars, isPaired, hne, hchars⟩ := name
  obtain ⟨x, xs, rfl⟩ := List.exists_cons_of_ne_nil hne
  -- the name stops at the double quote behind it or where it does not go on
  have hrun : takeChars isNameChar ((x :: xs).map .char ++
      ((if isPaired then [doubleQuote] else []).map Glyph.char ++ gs)) =
      ⟨(x :: xs).map .char, (if isPaired then [doubleQuote] else []).map .char ++ gs⟩ := by
    refine takeChars_until hchars fun c hc => ?_
    cases isPaired with
    | false => exact Bool.eq_false_iff.mp (hgs c hc).1
    | true =>
      cases hc
      decide
  have hx : ((x :: xs).map Glyph.char ++
      ((if isPaired then [doubleQuote] else []).map Glyph.char ++ gs)).head? ≠
      some (.char doubleQuote) := by
    intro hc
    cases hc
    exact absurd (hchars _ List.mem_cons_self) (by decide)
  have hbefore := optionalChar_before (p := isOpened = true) hx
  have hafter := optionalChar_before (p := isPaired = true) fun hc => (hgs _ hc).2 rfl
  have htext : (ClauseName.text ⟨isOpened, x :: xs, isPaired, hne, hchars⟩).map Glyph.char ++ gs =
      (if isOpened then [doubleQuote] else []).map .char ++ ((x :: xs).map .char ++
        ((if isPaired then [doubleQuote] else []).map Glyph.char ++ gs)) := by
    simp [ClauseName.text]
  rw [htext, constraintName, hbefore]
  dsimp only
  rw [hrun]
  dsimp only
  rw [hafter, if_neg (by simp)]
  simp [Span.before, ClauseName.text]

/-- **A name in a text** is read whole, where it does not go on. -/
theorem constraintName_append (name : ClauseName) (hrest : ∀ c ∈ rest.head?, EndsName c) :
    constraintName ((name.text ++ rest).map .char) =
      some ⟨name.text.map .char, rest.map .char⟩ := by
  rw [List.map_append]
  exact constraintName_before name fun c hc => hrest c (head?_map_char.mp hc)

/-- A name begins with no white space. -/
theorem ClauseName.text_eq_cons (name : ClauseName) :
    ∃ x xs, name.text = x :: xs ∧ ¬isBlank x := by
  obtain ⟨isOpened, chars, isPaired, hne, hchars⟩ := name
  obtain ⟨x, xs, rfl⟩ := List.exists_cons_of_ne_nil hne
  cases isOpened with
  | false =>
    refine ⟨x, _, rfl, fun hblank => ?_⟩
    have hx := hchars x List.mem_cons_self
    rw [(endsName_of_isBlank hblank).1] at hx
    cases hx
  | true => exact ⟨doubleQuote, _, rfl, by decide⟩

/-- **The rule for clauses where the keyword and white space stand** at a word
boundary: what is behind them has to be a name. -/
theorem clause?_before {keyword gap : List Char} (hkeyword : keyword.map fold = clauseKeyword)
    (hgap : ∀ c ∈ gap, isBlank c) (hgs : ∀ c, gs.head? = some (.char c) → ¬isBlank c) :
    clause? true (keyword.map .char ++ (gap.map .char ++ gs)) =
      if gap = [] then none
      else (constraintName gs).map fun name =>
        ⟨name.text, (((clauseTail true name.rest).before name.text).before (gap.map .char)).before
          (keyword.map .char)⟩ := by
  rw [clause?, if_pos rfl, keyword_before hkeyword, Option.bind_some]
  dsimp only
  rw [takeChars_until hgap hgs]
  simp only [List.map_eq_nil_iff]

/-- The same in a text. -/
theorem clause?_append {keyword gap : List Char} (hkeyword : keyword.map fold = clauseKeyword)
    (hgap : ∀ c ∈ gap, isBlank c) (hrest : ∀ c ∈ rest.head?, ¬isBlank c) :
    clause? true ((keyword ++ (gap ++ rest)).map .char) =
      if gap = [] then none
      else (constraintName (rest.map .char)).map fun name =>
        ⟨name.text, (((clauseTail true name.rest).before name.text).before (gap.map .char)).before
          (keyword.map .char)⟩ := by
  rw [List.map_append, List.map_append]
  exact clause?_before hkeyword hgap fun c hc => hrest c (head?_map_char.mp hc)

/-- No clause begins with another letter. -/
theorem clause?_of_ne (h : fold c ≠ 'c') : clause? atBoundary (.char c :: gs) = none := by
  have hkeyword : keyword clauseKeyword (.char c :: gs) = none := if_neg h
  rw [clause?, hkeyword]
  cases atBoundary <;> rfl

/-- No other noise begins where the keyword of a clause does. -/
theorem noise?_of_clause {clause : Clause} (hc : fold c = 'c')
    (h : clause? atBoundary (.char c :: gs) = some clause) :
    noise? atBoundary (.char c :: gs) = some (.clause clause.name, clause.span) := by
  rw [noise?, literal?_eq_none (by rintro rfl; exact absurd hc (by decide))
    fun _ he => absurd (hc.symm.trans he) (by decide), comment?_of_ne (by rw [hc]; decide),
    dollarBody?_of_ne (by rw [hc]; decide), call?_of_ne (by rw [hc]; decide), h]

/-- **A constraint clause as it is written**, from its keyword on, in any letter
case. -/
structure ClauseForm where
  /-- The keyword. -/
  keyword : List Char
  /-- The white space behind the keyword. -/
  gap : List Char
  /-- The name of the constraint. -/
  name : ClauseName
  /-- What the clause says of the constraint. -/
  tail : List Char
  /-- It is the keyword, in any letter case. -/
  fold_keyword : keyword.map fold = clauseKeyword
  /-- There is white space behind the keyword. -/
  gap_ne_nil : gap ≠ []
  /-- It is white space. -/
  isBlank_of_mem : ∀ c ∈ gap, isBlank c
  /-- The name does not go on behind itself. -/
  endsName : ∀ c ∈ tail.head?, EndsName c
  /-- What stands behind the name can be read as the tail of a clause. -/
  isClauseTail : IsClauseTail tail

/-! The usual keyword, a single blank behind it, and a clause without nesting. -/

theorem map_fold_constraint : "CONSTRAINT".toList.map fold = clauseKeyword := by
  decide

theorem singleBlank_ne_nil : [' '] ≠ [] :=
  List.cons_ne_nil _ _

theorem isBlank_singleBlank : isBlank ' ' := by
  decide

theorem isBlank_of_mem_singleBlank : ∀ c ∈ [' '], isBlank c :=
  List.forall_mem_singleton.mpr isBlank_singleBlank

theorem maxNesting_pos : 0 < maxNesting := by
  decide

namespace ClauseForm

variable (form : ClauseForm)

/-- The text of a clause. -/
def text : List Char :=
  form.keyword ++ (form.gap ++ (form.name.text ++ form.tail))

/-- **Whether a clause declares a primary key**, by its name. -/
def isKey : Bool :=
  isKeyName (form.name.text.map .char)

/-- The rule for clauses reads a clause up to the character that ends it. -/
theorem clause?_text_append (hrest : ∀ c ∈ rest.head?, IsClauseEnd c) :
    clause? true ((form.text ++ rest).map .char) =
      some ⟨form.name.text.map .char, ⟨form.text.map .char, rest.map .char⟩⟩ := by
  have htext : form.text ++ rest =
      form.keyword ++ (form.gap ++ (form.name.text ++ (form.tail ++ rest))) := by
    simp [text]
  have hname : ∀ c ∈ (form.name.text ++ (form.tail ++ rest)).head?, ¬isBlank c := by
    obtain ⟨x, xs, hname, hx⟩ := form.name.text_eq_cons
    rw [hname]
    exact fun c hc => Option.some.inj hc ▸ hx
  have hends : ∀ c ∈ (form.tail ++ rest).head?, EndsName c := by
    intro c hc
    rw [List.head?_append] at hc
    cases htail : form.tail.head? with
    | none =>
      rw [htail] at hc
      exact endsName_of_isClauseEnd (hrest c hc)
    | some d =>
      rw [htail] at hc
      exact form.endsName c (htail.trans hc)
  rw [htext, clause?_append form.fold_keyword form.isBlank_of_mem hname, if_neg form.gap_ne_nil,
    constraintName_append form.name hends, Option.map_some]
  dsimp only
  rw [form.isClauseTail.clauseTail_append hrest]
  simp [Span.before, text]

/-- **A clause is read whole** at a word boundary, up to the character that ends
it. -/
theorem noise?_append (hrest : ∀ c ∈ rest.head?, IsClauseEnd c) :
    noise? true ((form.text ++ rest).map .char) =
      some (.clause (form.name.text.map .char), ⟨form.text.map .char, rest.map .char⟩) := by
  have hclause := form.clause?_text_append hrest
  obtain ⟨x, xs, hwritten, hx, -⟩ := List.map_eq_cons_iff.mp form.fold_keyword
  have htext : (form.text ++ rest).map Glyph.char =
      .char x :: (xs ++ (form.gap ++ (form.name.text ++ form.tail)) ++ rest).map .char := by
    simp [text, hwritten]
  rw [htext] at hclause ⊢
  exact noise?_of_clause hx hclause

end ClauseForm

end Noise

end SqlCatalog
