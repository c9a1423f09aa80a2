import SqlCatalog.Proofs.Column.Place
import SqlCatalog.Proofs.Column.Spelling

/-!
# Where the modifier of a type may stand

A modifier can be written right behind its type word, behind a blank, or with blanks inside its
brackets (`SqlCatalog.Spelling`). With a comma in it the three have the same tokens. A modifier of
digits alone is in the token of its type, is a token of its own, or makes three:

| written | tokens | goes through |
|---|---|---|
| `numeric(10)` | `numeric(10)` | the cut in front of the first bracket of a token |
| `numeric (10)` | `numeric`, `(10)` | the tail of a column |
| `numeric( 10 )` | `numeric`, `(`, `10`, `)` | the state inside a modifier |

For most types these come to the same column. They do not for the types that more words may follow,
whose states know a modifier in the token of the type only. A modifier of its own completes a clock
type, so that no time zone may follow it; the state behind `character` takes a bracket for a whole
modifier; and behind `double`, which a user may have made a type of one word, only `precision` is
expected. Which token is rejected then is `SqlCatalog.Spelling.fault?`, and that nothing else can
happen is `SqlCatalog.result_of_spelling`.
-/

namespace SqlCatalog

open Text Noise Token Draft Identifier

/-! ### Spellings -/

/-- **The ways to write a modifier** behind a type word. -/
inductive Spelling where
  /-- Right behind the word. -/
  | attached
  /-- Behind a blank. -/
  | spaced
  /-- With blanks inside the brackets. -/
  | split
deriving DecidableEq, Repr

/-- The text of a type word and a modifier. -/
def Spelling.text (word inner : List Char) : Spelling → List Char
  | .attached => word ++ bracketed inner
  | .spaced => word ++ ' ' :: bracketed inner
  | .split => word ++ bracketed (' ' :: (inner ++ [' ']))

/-- **Numbers**: digits, or digits with commas between them. -/
def IsNumbers (inner : List Char) : Prop :=
  inner ≠ [] ∧ ∀ c ∈ inner, c.isDigit ∨ c = ','

instance (inner : List Char) : Decidable (IsNumbers inner) :=
  inferInstanceAs (Decidable (_ ∧ ∀ c ∈ inner, _))

/-- The first word of a time zone, if it comes next. -/
def zoneWord? (next : Option String) : Option String :=
  next.filter fun token => token = "with" ∨ token = "without"

/-- **The token that is rejected** in a spelling, by the type of the elements and the token behind
the modifier; `none` if none is. -/
def Spelling.fault? (element : String) (inner : List Char) (next : Option String) :
    Spelling → Option String
  | .attached => none
  | .spaced =>
    if ',' ∈ inner then none
    else if element = "double" then some (wordToken (bracketed inner))
    else if element = "timestamp" ∨ element = "time" then zoneWord? next
    else none
  | .split =>
    if ',' ∈ inner then none
    else if element = "double" then some "("
    else if element = "character" then some (wordToken inner)
    else if element = "timestamp" ∨ element = "time" then zoneWord? next
    else none

variable {options : Options} {word inner : List Char} {front rest : List UInt8}

/-! ### Tokens of the spellings -/

namespace IsNumbers

variable (h : IsNumbers inner)
include h

theorem isInside : IsInside inner := by
  refine ⟨h.1, fun c hc hmem => ?_⟩
  have hno : ∀ c ∈ [';', '(', ')'], ¬(c.isDigit ∨ c = ',') := by decide
  exact hno c hmem (h.2 c hc)

/-- Only a comma cuts numbers. -/
theorem isWord_iff : IsWord inner ↔ ',' ∉ inner := by
  constructor
  · intro hword hmem
    exact absurd (hword _ hmem) (by decide)
  · intro hcomma c hc
    rcases h.2 c hc with hdigit | rfl
    · have hno : ∀ c, isBreak c = true → c.isDigit = false := by
        intro c hbreak
        simp only [isBreak, isMarkChar, isGap, Bool.or_eq_true, beq_iff_eq] at hbreak
        rcases hbreak with (rfl | rfl) | (((rfl | rfl) | rfl) | rfl) | rfl <;> rfl
      rw [← Bool.not_eq_true]
      intro hbreak
      rw [hno c hbreak] at hdigit
      cases hdigit
    · exact absurd hc hcomma

/-- **A number is a token**, which begins with a digit. -/
theorem ofText_eq (hcomma : ',' ∉ inner) :
    ofText inner = [wordToken inner] ∧ ∀ c ∈ (wordToken inner).toList.head?, c.isDigit = true := by
  have hdigit : ∀ c ∈ inner, c.isDigit = true := fun c hc =>
    (h.2 c hc).resolve_right fun hc' => hcomma (hc' ▸ hc)
  refine ⟨ofText_paired (h.isWord_iff.mpr hcomma) h.1 ?_, fun c hc => ?_⟩
  · refine depth?_of_plain fun c hc hmem => ?_
    have hno : ∀ c ∈ [';', ',', '(', ')'], c.isDigit = false := by decide
    exact Bool.false_ne_true ((hno c hmem).symm.trans (hdigit c hc))
  · rw [toList_wordToken, lower, List.head?_map] at hc
    obtain ⟨d, hd, rfl⟩ := Option.map_eq_some_iff.mp hc
    have hdd := hdigit d (List.mem_of_mem_head? hd)
    have hn : d.toNat < 0x41 := by
      have hle := (Char.isDigit_iff_toNat.mp hdd).2
      exact Nat.lt_of_le_of_lt hle (by decide)
    rwa [(toLower_eq_iff hn).mpr rfl]

end IsNumbers

/-- A token that begins with a digit is none that may follow a type. -/
theorem readColumnTail_of_digit {token : String}
    (h : ∀ c ∈ token.toList.head?, c.isDigit = true) (draft : Draft) :
    readColumnTail token draft = Step.unexpected token draft := by
  have hword : ∀ word : String, (∃ c ∈ word.toList.head?, c.isDigit = false) → token ≠ word := by
    rintro word ⟨c, hc, hdigit⟩ rfl
    rw [h c hc] at hdigit
    cases hdigit
  have hbegins : ∀ c, c.isDigit = false → beginsWith (String.ofList [c]) token = false := by
    intro c hc
    rw [beginsWith, String.toList_ofList]
    cases htoken : token.toList with
    | nil => rfl
    | cons d text =>
      have hd := h d (by rw [htoken]; rfl)
      have hcd : c ≠ d := by
        rintro rfl
        exact Bool.false_ne_true (hc.symm.trans hd)
      simp [List.isPrefixOf, hcd]
  have hsquare : beginsWith "[" token = false := hbegins '[' rfl
  have hround : beginsWith "(" token = false := hbegins '(' rfl
  rw [readColumnTail, if_neg (hword _ ⟨_, rfl, rfl⟩), if_neg (hword _ ⟨_, rfl, rfl⟩),
    if_neg (hword _ ⟨_, rfl, rfl⟩), if_neg (hword _ ⟨_, rfl, rfl⟩), if_neg (hword _ ⟨_, rfl, rfl⟩),
    if_neg (hword _ ⟨_, rfl, rfl⟩), if_neg (hword _ ⟨_, rfl, rfl⟩), if_neg (hword _ ⟨_, rfl, rfl⟩),
    hsquare, hround, if_neg (by decide)]

/-- The tokens of a spelling whose modifier is not in the token of the type. -/
theorem ofText_spaced (hword : IsTypeWord word) (h : IsNumbers inner) (hcomma : ',' ∉ inner) :
    ofText (Spelling.spaced.text word inner) = [wordToken word, wordToken (bracketed inner)] := by
  rw [Spelling.text, ofText_append_gap rfl, hword.ofText_eq,
    ofText_paired (isWord_bracketed (h.isWord_iff.mpr hcomma)) (List.cons_ne_nil _ _)
      (h.isInside.depth?_bracketed 0)]
  rfl

theorem ofText_attached (hword : IsTypeWord word) (h : IsNumbers inner) (hcomma : ',' ∉ inner) :
    ofText (Spelling.attached.text word inner) = [wordToken (word ++ bracketed inner)] := by
  refine ofText_paired ?_ (List.append_ne_nil_of_left_ne_nil hword.1 _) ?_
  · exact isWord_append.mpr ⟨hword.isWord, isWord_bracketed (h.isWord_iff.mpr hcomma)⟩
  · rw [Spelling.text, IsPaired, depth?_append, hword.isPaired]
    exact h.isInside.depth?_bracketed 0

/-- The inside of a modifier with blanks around it. -/
theorem IsNumbers.isInside_padded (h : IsNumbers inner) :
    IsInside (' ' :: (inner ++ [' '])) ∧ ¬IsWord (' ' :: (inner ++ [' '])) := by
  refine ⟨⟨List.cons_ne_nil _ _, ?_⟩, fun hword => absurd (hword _ List.mem_cons_self) (by decide)⟩
  refine List.forall_mem_cons.mpr ⟨by decide, fun c hc => ?_⟩
  rcases List.mem_append.mp hc with hc | hc
  · exact h.isInside.2 c hc
  · rw [List.mem_singleton.mp hc]
    decide

/-- **A modifier with blanks in it** is cut. -/
theorem ofText_split (hword : IsTypeWord word) (h : IsNumbers inner) :
    ofText (Spelling.split.text word inner) =
      wordToken word :: "(" :: (ofText inner ++ [")"]) := by
  have hcut := ofText_append_bracketed_of_cut h.isInside_padded.1 h.isInside_padded.2 word []
  have hpadded : ofText (' ' :: (inner ++ [' '])) = ofText inner := by
    have hfront := ofText_append_gap (c := ' ') rfl [] (inner ++ [' '])
    have hbehind := ofText_append_gap (c := ' ') rfl inner []
    simp only [List.nil_append, ofText_nil, List.append_nil] at hfront hbehind
    rw [hfront, hbehind]
  rw [List.append_nil, hword.ofText_eq, hpadded, ofText_nil] at hcut
  exact hcut

/-- **Numbers with a comma in them** have the same tokens in every spelling. -/
theorem ofText_of_comma (hword : IsTypeWord word) (h : IsNumbers inner) (hcomma : ',' ∈ inner)
    (spelling : Spelling) :
    ofText (spelling.text word inner) = wordToken word :: "(" :: (ofText inner ++ [")"]) := by
  have hcut := fun front => ofText_append_bracketed_of_cut h.isInside
    (fun hw => h.isWord_iff.mp hw hcomma) front []
  simp only [List.append_nil, ofText_nil] at hcut
  cases spelling with
  | attached => rw [Spelling.text, hcut, hword.ofText_eq, List.singleton_append]
  | spaced =>
    have hbare := hcut []
    rw [List.nil_append, ofText_nil, List.nil_append] at hbare
    rw [Spelling.text, ofText_append_gap rfl, hbare, hword.ofText_eq, List.singleton_append]
  | split => exact ofText_split hword h

/-- The brackets of every spelling pair up. -/
theorem Spelling.isPaired_text (hword : IsTypeWord word) (h : IsNumbers inner)
    (spelling : Spelling) : IsPaired (spelling.text word inner) := by
  cases spelling with
  | attached =>
    rw [text, IsPaired, depth?_append, hword.isPaired]
    exact h.isInside.depth?_bracketed 0
  | spaced =>
    rw [text, IsPaired, depth?_append, hword.isPaired, Option.bind_some, depth?, if_neg (by simp),
      if_neg (by decide), if_neg (by decide)]
    exact h.isInside.depth?_bracketed 0
  | split =>
    rw [text, IsPaired, depth?_append, hword.isPaired]
    exact h.isInside_padded.1.depth?_bracketed 0

/-- A modifier in brackets is a token that begins with a bracket. -/
theorem beginsWith_bracketed (inner : List Char) :
    beginsWith "(" (wordToken (bracketed inner)) = true := by
  rw [beginsWith, toList_wordToken, lower_bracketed]
  rfl

theorem wordToken_bracketed_ne (inner : List Char) : wordToken (bracketed inner) ≠ "" := by
  intro h
  have hlist := congrArg String.toList h
  rw [toList_wordToken, lower_bracketed] at hlist
  cases hlist

theorem isMarkToken_bracketed (inner : List Char) :
    isMarkToken (wordToken (bracketed inner)) = true := by
  have hne : wordToken (bracketed inner) ≠ "(" := by
    intro h
    have hlist := congrArg String.toList h
    rw [toList_wordToken, lower_bracketed, bracketed] at hlist
    simp at hlist
  rw [isMarkToken, beginsWith_bracketed, Bool.or_true, Bool.true_and, bne_iff_ne]
  exact hne

/-! ### Behind a complete type -/

variable {draft draft' : Draft} {tokens : List String} {token : String}

/-- **No time zone may follow a modifier of its own.** -/
theorem step_columnType_of_zoneWord (h : zoneWord? (some token) = some token) (draft : Draft) :
    step options .columnType draft token = Step.unexpected token draft := by
  have hzone : token = "with" ∨ token = "without" := by
    simpa [zoneWord?, Option.filter_eq_some_iff] using h
  rcases hzone with rfl | rfl <;> rfl

/-- What else follows it may follow any other complete type. -/
theorem Leads.of_clockType (h : Leads options .clockType draft tokens .idle draft')
    (hzone : zoneWord? tokens.head? = none) :
    Leads options .columnType draft tokens .idle draft' := by
  cases tokens with
  | nil =>
    obtain ⟨hstate, -⟩ := leads_nil.mp h
    cases hstate
  | cons token tokens =>
    have hno : token ≠ "with" ∧ token ≠ "without" := by
      simpa [zoneWord?, Option.filter_eq_none_iff] using hzone
    have hsame : ∀ state, state.IsTyped →
        step options state draft token = readColumnTail token draft :=
      fun state hstate => hstate.step_eq hno.1 hno.2
    obtain ⟨next, hstep, hrest⟩ := leads_cons.mp h
    rw [hsame _ (Or.inr rfl)] at hstep hrest
    refine leads_cons.mpr ⟨next, ?_, ?_⟩ <;> rwa [hsame _ (Or.inl rfl)]

/-! ### Reading the spellings -/

namespace TypePlace

variable (place : TypePlace options front) {family : TypeFamily} {catalog : Catalog}
  {state : State}

/-- The draft behind a type word and a modifier. -/
def modified (word inner : List Char) : Draft :=
  place.typed (normalize (wordToken word)) (wordToken (bracketed inner))

/-- **A modifier of its own completes the type.** What stands behind the type is read as it is
behind the attached modifier, but for the time zone of a clock type. -/
theorem result_of_completed (h : Leads options .idle {} tokens .columnType draft)
    (hfamily : family = .clock ∨ family = .scalar) {more : List String}
    (hmore : Leads options family.state draft more .idle draft')
    (hcatalog : catalog = (Catalog.mk draft'.tables).finalize options) :
    (parseTokens options (tokens ++ more)).result =
      resultUnless (if family = .clock then zoneWord? more.head? else none) catalog := by
  have hread : Leads options .columnType draft more .idle draft' →
      (parseTokens options (tokens ++ more)).result = .ok catalog := fun hmore => by
    rw [(h.append hmore).result_parseTokens, hcatalog]
  rcases hfamily with rfl | rfl
  · rw [if_pos rfl]
    cases hzone : zoneWord? more.head? with
    | none => exact hread (hmore.of_clockType hzone)
    | some token =>
      obtain ⟨hhead, -⟩ := Option.filter_eq_some_iff.mp hzone
      obtain ⟨more, rfl⟩ := List.head?_eq_some_iff.mp hhead
      exact result_of_rejected h (step_columnType_of_zoneWord hzone draft) more
  · exact hread hmore

/-- **A modifier behind a blank** completes the type, unless `precision` is due. -/
theorem leads_spaced (hword : IsTypeWord word) (inner : List Char)
    (hbare : ColumnType.family? options (ColumnType.elementOf (wordToken word)) "" = some family)
    (hdouble : family ≠ .double) :
    Leads options .idle {} (tokenize front ++ [wordToken word] ++ [wordToken (bracketed inner)])
      .columnType (place.modified word inner) := by
  have hread := place.leads_typeWord hword [] nofun hbare
  rw [List.append_nil, wordToken_nil] at hread
  have hmark := isMarkToken_bracketed inner
  cases family with
  | double => exact absurd rfl hdouble
  | character =>
    have hbegins : (beginsWith "varying" (wordToken (bracketed inner)) ||
        beginsWith "(" (wordToken (bracketed inner))) = true := by
      rw [beginsWith_bracketed, Bool.or_true]
    refine place.leads_typeOptions hread (changes_characterWord options hbegins) fun column => ?_
    rw [Column.appendWord, if_pos rfl, String.empty_append]
  | scalar =>
    exact place.leads_typeOptions hread (changes_mark options (Or.inl rfl) hmark) fun column => by
      rw [Column.appendOption, String.empty_append]
  | clock =>
    exact place.leads_typeOptions hread (changes_mark options (Or.inr rfl) hmark) fun column => by
      rw [Column.appendOption, String.empty_append]

/-- **A modifier with blanks in it** completes a type that is complete without one. -/
theorem leads_split (hword : IsTypeWord word) (hinner : IsNumbers inner) (hcomma : ',' ∉ inner)
    (hbare : ColumnType.family? options (ColumnType.elementOf (wordToken word)) "" = some family)
    (htyped : family.state.IsTyped) :
    Leads options .idle {} (tokenize front ++ [wordToken word] ++
      ("(" :: ([wordToken inner] ++ [")"]))) .columnType (place.modified word inner) := by
  have hread := place.leads_typeWord hword [] nofun hbare
  rw [List.append_nil, wordToken_nil] at hread
  have htokens : ∀ token ∈ [wordToken inner], token ≠ ")" ∧ token ≠ ";" := by
    have hdigit := (hinner.ofText_eq hcomma).2
    intro token htoken
    obtain rfl := List.mem_singleton.mp htoken
    refine ⟨?_, ?_⟩
    · intro h
      exact absurd (hdigit ')' (by rw [h]; rfl)) (by decide)
    · intro h
      exact absurd (hdigit ';' (by rw [h]; rfl)) (by decide)
  refine place.leads_typeOptions hread (changes_modifier options htyped htokens) fun column => ?_
  have htext : (("(" :: ([wordToken inner] ++ [")"])).foldl (· ++ ·) "") =
      wordToken (bracketed inner) := by
    apply String.toList_injective
    rw [toList_wordToken, lower_bracketed, bracketed]
    simp [toList_wordToken]
  rw [Column.appendOptions, htext]

include place in
/-- Behind `double` a modifier is rejected. -/
theorem result_of_double (hword : IsTypeWord word)
    (hbare : ColumnType.family? options (ColumnType.elementOf (wordToken word)) "" = some .double)
    (htoken : beginsWith "(" token = true) (more : List String) :
    (parseTokens options (tokenize front ++ [wordToken word] ++ token :: more)).result =
      .error (.unexpectedToken token) := by
  have hread := place.leads_typeWord hword [] nofun hbare
  rw [List.append_nil, wordToken_nil] at hread
  refine result_of_rejected hread ?_ more
  have hne : token ≠ "precision" := by
    rintro rfl
    exact absurd htoken (by decide)
  exact if_neg hne

section Digits

variable (hword : IsTypeWord word) (hinner : IsNumbers inner) (hcomma : ',' ∉ inner)
  (hfamily : ColumnType.family? options (ColumnType.elementOf (wordToken word))
    (wordToken (bracketed inner)) = some family)
  (hmore : Leads options family.state (place.modified word inner) tokens .idle draft')
  (hcatalog : catalog = (Catalog.mk draft'.tables).finalize options)
include hword hinner hcomma hfamily hmore hcatalog

/-- **What the attached modifier comes to.** -/
theorem result_attached :
    (parseTokens options (tokenize front ++ ofText (Spelling.attached.text word inner) ++
      tokens)).result = .ok catalog := by
  have hread := place.leads_typeWord hword (bracketed inner) (head?_bracketed inner) hfamily
  rw [ofText_attached hword hinner hcomma, (hread.append hmore).result_parseTokens, hcatalog]

/-- **What a modifier behind a blank comes to.** -/
theorem result_spaced :
    (parseTokens options (tokenize front ++ ofText (Spelling.spaced.text word inner) ++
      tokens)).result =
      resultUnless (Spelling.spaced.fault? (ColumnType.elementOf (wordToken word)) inner
        tokens.head?) catalog := by
  have htokens : tokenize front ++ ofText (Spelling.spaced.text word inner) =
      tokenize front ++ [wordToken word] ++ [wordToken (bracketed inner)] := by
    rw [ofText_spaced hword hinner hcomma, List.append_assoc, List.singleton_append]
  rw [htokens, Spelling.fault?, if_neg hcomma]
  rcases ColumnType.of_family? (wordToken_bracketed_ne inner) hfamily with ⟨he, rfl, hbare⟩ |
    ⟨he, rfl, hbare⟩ | ⟨he, rfl, hbare⟩ | ⟨he, rfl, hbare⟩
  · have hread := place.leads_spaced hword inner hbare (by decide)
    rw [if_neg (by simp [he]), if_neg (by simp [he])]
    exact result_of_completed hread (Or.inr rfl) hmore hcatalog
  · rw [if_pos he, List.append_assoc _ [_] tokens]
    exact place.result_of_double hword hbare (beginsWith_bracketed inner) tokens
  · have hread := place.leads_spaced hword inner hbare (by decide)
    have hclock := by simpa using he
    rw [if_neg (by rcases hclock with he | he <;> simp [he]), if_pos hclock]
    exact result_of_completed hread (Or.inl rfl) hmore hcatalog
  · have hread := place.leads_spaced hword inner hbare (by decide)
    simp only [List.mem_cons, List.not_mem_nil, or_false, not_or] at he
    rw [if_neg he.2.1, if_neg (not_or.mpr he.2.2)]
    exact result_of_completed hread (Or.inr rfl) hmore hcatalog

/-- **What a modifier with blanks in it comes to.** -/
theorem result_split :
    (parseTokens options (tokenize front ++ ofText (Spelling.split.text word inner) ++
      tokens)).result =
      resultUnless (Spelling.split.fault? (ColumnType.elementOf (wordToken word)) inner
        tokens.head?) catalog := by
  obtain ⟨hnumber, hdigit⟩ := hinner.ofText_eq hcomma
  have htokens : tokenize front ++ ofText (Spelling.split.text word inner) =
      tokenize front ++ [wordToken word] ++ ("(" :: ([wordToken inner] ++ [")"])) := by
    rw [ofText_split hword hinner, hnumber, List.append_assoc]
    rfl
  rw [htokens, Spelling.fault?, if_neg hcomma]
  rcases ColumnType.of_family? (wordToken_bracketed_ne inner) hfamily with ⟨he, rfl, hbare⟩ |
    ⟨he, rfl, hbare⟩ | ⟨he, rfl, hbare⟩ | ⟨he, rfl, hbare⟩
  · -- the bracket is taken for a whole modifier, and the number behind it for an option
    have hread := place.leads_typeWord hword [] nofun hbare
    rw [List.append_nil, wordToken_nil] at hread
    have hbracket : Changes options .characterType ["("] .columnType (Column.appendWord "(") :=
      changes_characterWord options rfl
    have htext : ∀ column : Column, Column.appendWord "(" { column with typeOptions := "" } =
        { column with typeOptions := "(" } := fun _ => rfl
    have hopen := place.leads_typeOptions hread hbracket htext
    have hreject : step options .columnType (place.typed (normalize (wordToken word)) "(")
        (wordToken inner) = Step.unexpected (wordToken inner) _ := readColumnTail_of_digit hdigit _
    rw [if_neg (by simp [he]), if_pos he]
    have hresult := result_of_rejected hopen hreject (")" :: tokens)
    simpa [resultUnless] using hresult
  · rw [if_pos he, List.append_assoc _ (_ :: _) tokens]
    exact place.result_of_double hword hbare rfl _
  · have hread := place.leads_split hword hinner hcomma hbare (Or.inr rfl)
    have hclock := by simpa using he
    rw [if_neg (by rcases hclock with he | he <;> simp [he]),
      if_neg (by rcases hclock with he | he <;> simp [he]), if_pos hclock]
    exact result_of_completed hread (Or.inl rfl) hmore hcatalog
  · have hread := place.leads_split hword hinner hcomma hbare (Or.inl rfl)
    simp only [List.mem_cons, List.not_mem_nil, or_false, not_or] at he
    rw [if_neg he.2.1, if_neg he.1, if_neg (not_or.mpr he.2.2)]
    exact result_of_completed hread (Or.inr rfl) hmore hcatalog

end Digits

end TypePlace

/-! ### Dumps -/

/-- **The spellings of a modifier, in full.** A dump shows the name of a column, and behind it a
type word and numbers in brackets. If the dump in which the modifier is attached gives a catalog,
the one with another spelling gives the same catalog, or it is refused for the token that the
spelling cannot be read by; with a comma in the modifier it is never refused. -/
theorem result_of_spelling (place : TypePlace options front) (hword : IsTypeWord word)
    (hinner : IsNumbers inner) (hrest : EndsWord rest)
    (hknown : (ColumnType.ofToken? options (wordToken (word ++ bracketed inner))).isSome = true)
    {dump : Spelling → List UInt8}
    (hdump : ∀ spelling, Shows (dump spelling) front (spelling.text word inner) rest)
    {catalog : Catalog} (hparse : (parse options (dump .attached)).result = .ok catalog)
    (spelling : Spelling) :
    (parse options (dump spelling)).result =
      resultUnless (spelling.fault? (ColumnType.elementOf (wordToken word)) inner
        (tokenize rest).head?) catalog := by
  have htokens : ∀ spelling, tokensOf (dump spelling) =
      tokenize front ++ ofText (spelling.text word inner) ++ tokenize rest := fun spelling =>
    place.tokensOf_eq (hdump spelling) (spelling.isPaired_text hword hinner) hrest
  by_cases hcomma : ',' ∈ inner
  · have hsame : tokensOf (dump spelling) = tokensOf (dump .attached) := by
      rw [htokens, htokens, ofText_of_comma hword hinner hcomma,
        ofText_of_comma hword hinner hcomma]
    have hfault : spelling.fault? (ColumnType.elementOf (wordToken word)) inner
        (tokenize rest).head? = none := by
      cases spelling <;> simp [Spelling.fault?, hcomma]
    rw [hfault, parse, hsame]
    exact hparse
  · rw [ColumnType.ofToken?_typeWord options hword _ (head?_bracketed inner),
      Option.isSome_map] at hknown
    obtain ⟨family, hfamily⟩ := Option.isSome_iff_exists.mp hknown
    have hread := place.leads_typeWord hword _ (head?_bracketed inner) hfamily
    rw [parse, htokens, ofText_attached hword hinner hcomma] at hparse
    obtain ⟨draft, hall, hcatalog⟩ := exists_leads_of_result hparse
    have hmore := hall.after hread
    rw [parse, htokens]
    cases spelling with
    | attached => exact place.result_attached hword hinner hcomma hfamily hmore hcatalog
    | spaced => exact place.result_spaced hword hinner hcomma hfamily hmore hcatalog
    | split => exact place.result_split hword hinner hcomma hfamily hmore hcatalog

/-- A column whose modifier may stand anywhere, with an option behind it. -/
theorem result_of_varchar_spellings :
    let front := "CREATE TABLE t (id integer PRIMARY KEY, c ".toList
    let rest := " NOT NULL);".toList
    let dump (spelling : Spelling) :=
      bytesOf (front ++ spelling.text "varchar".toList "10".toList ++ rest)
    let catalog : Catalog := ⟨[⟨"t", "t", none, [⟨"id", "integer", "", true, true, false⟩,
      ⟨"c", "varchar", "(10)", true, false, false⟩]⟩]⟩
    (parse {} (dump .spaced)).result = .ok catalog ∧
      (parse {} (dump .split)).result = .ok catalog := by
  intro front rest dump catalog
  have hcalm : ∀ spelling : Spelling,
      IsCalm (front ++ spelling.text "varchar".toList "10".toList ++ rest) := by
    intro spelling
    cases spelling <;> decide
  have hrest : EndsWord (bytesOf rest) := ⟨0x20, (bytesOf rest).tail, by decide, Or.inl rfl⟩
  have hattached : ofText (front ++ Spelling.attached.text "varchar".toList "10".toList ++ rest) =
      samplePlace.tokens ++ ["c", "varchar(10)", "not", "null", ")", ";"] := rfl
  have hparse : (parse {} (dump .attached)).result = .ok catalog := by
    rw [parse_of_isCalm (hcalm .attached), hattached]
    rfl
  have hresult := result_of_spelling samplePlace (by decide : IsTypeWord "varchar".toList)
    (by decide : IsNumbers "10".toList) hrest (by decide)
    (fun spelling => shows_of_isCalm (hcalm spelling)) hparse
  exact ⟨(hresult .spaced).trans rfl, (hresult .split).trans rfl⟩

/-- **A time zone behind a modifier of its own is refused**: the modifier touches its word in one
dump and not in the other, and only the first is accepted. -/
theorem zone_behind_spaced_modifier_rejected :
    let front := "CREATE TABLE t (id integer PRIMARY KEY, at ".toList
    let rest := " with time zone);".toList
    let dump (spelling : Spelling) :=
      bytesOf (front ++ spelling.text "timestamp".toList "6".toList ++ rest)
    (∃ catalog, (parse {} (dump .attached)).result = .ok catalog) ∧
      (parse {} (dump .spaced)).result = .error (.unexpectedToken "with") := by
  intro front rest dump
  have hattached : ofText (front ++ Spelling.attached.text "timestamp".toList "6".toList ++ rest) =
      ["create", "table", "t", "(", "id", "integer", "primary", "key", ",", "at", "timestamp(6)",
        "with", "time", "zone", ")", ";"] := rfl
  have hspaced : ofText (front ++ Spelling.spaced.text "timestamp".toList "6".toList ++ rest) =
      ["create", "table", "t", "(", "id", "integer", "primary", "key", ",", "at", "timestamp",
        "(6)", "with", "time", "zone", ")", ";"] := rfl
  refine ⟨⟨⟨[⟨"t", "t", none, [⟨"id", "integer", "", true, true, false⟩,
      ⟨"at", "timestamp", "(6) with time zone", false, false, false⟩]⟩]⟩, ?_⟩, ?_⟩
  · rw [parse_of_isCalm (by decide), hattached]
    rfl
  · rw [parse_of_isCalm (by decide), hspaced]
    rfl

end SqlCatalog
