import Mathlib.Data.List.Infix
import SqlCatalog.Proofs.Column.TypeToken
import SqlCatalog.Proofs.FieldType
import SqlCatalog.Proofs.Text.Loose

/-!
# Whether a timestamp has a time zone

A `timestamp` has the field type of one with a time zone when the words `with time zone` stand
somewhere in its type options, which are put together from a modifier and from tokens of several
kinds. They stand there only if they are the tokens directly behind the type
(`SqlCatalog.timeZone_exact`).

No token holds a blank, so a blank in the type options is one that was put there, and that is done
for the words of a time zone only:

| type options | come from |
|---|---|
| the modifier of the type, without blanks | the token of the type |
| `with time zone` or `without time zone`, behind a blank if there is a modifier | the next tokens |
| more text without blanks | array marks and modifiers that stand by themselves |

So the text is cut at its blanks and looked at piece by piece (`SqlCatalog.infix_blank_iff`). The
first of the zone words may end another word, as it does in `timestamp(6)with`, but the second one
has to fill its piece.
-/

namespace SqlCatalog

open Identifier Step Draft

/-! ### Texts cut at blanks -/

section Blanks

variable {part more front text : List Char}

/-- At the head of a text it is the first one. -/
theorem prefix_blank_iff (hpart : ' ' ∉ part) (hfront : ' ' ∉ front) :
    part ++ ' ' :: more <+: front ++ ' ' :: text ↔ part = front ∧ more <+: text := by
  induction part generalizing front with
  | nil =>
    cases front with
    | nil => simp
    | cons c front =>
      have hc : ' ' ≠ c := fun h => hfront (h ▸ List.mem_cons_self)
      simp [List.cons_prefix_cons, hc]
  | cons p part ih =>
    have hp := List.ne_of_not_mem_cons hpart
    cases front with
    | nil => simp [List.cons_prefix_cons, Ne.symm hp]
    | cons c front =>
      have htail := ih (List.not_mem_of_not_mem_cons hpart) (List.not_mem_of_not_mem_cons hfront)
      simp only [List.cons_append, List.cons_prefix_cons, htail, List.cons.injEq, and_assoc]

/-- **A text with a blank in another one**: its first blank is the first one there, or one of the
others. -/
theorem infix_blank_iff (hpart : ' ' ∉ part) (hfront : ' ' ∉ front) :
    part ++ ' ' :: more <:+: front ++ ' ' :: text ↔
      part <:+ front ∧ more <+: text ∨ part ++ ' ' :: more <:+: text := by
  induction front with
  | nil =>
    have hhead : part ++ ' ' :: more <+: [] ++ ' ' :: text ↔ part = [] ∧ more <+: text :=
      prefix_blank_iff hpart hfront
    rw [List.nil_append] at hhead ⊢
    rw [List.infix_cons_iff, hhead, List.suffix_nil]
  | cons c front ih =>
    have hhead : part ++ ' ' :: more <+: c :: front ++ ' ' :: text ↔
        part = c :: front ∧ more <+: text := prefix_blank_iff hpart hfront
    rw [List.cons_append] at hhead ⊢
    rw [List.infix_cons_iff, hhead, ih (List.not_mem_of_not_mem_cons hfront), List.suffix_cons_iff,
      or_and_right, or_assoc]

end Blanks

/-! ### The words of a time zone -/

/-- A text with one more word, behind a blank unless it is the first. -/
def addWord (text word : String) : String :=
  (if text = "" then "" else text ++ " ") ++ word

/-- The words of a time zone behind a word that may begin them, and more behind that. -/
def zonePhrase (word : String) (tail : List Char) : List Char :=
  word.toList ++ ' ' :: ("time".toList ++ ' ' :: ("zone".toList ++ tail))

/-- **A word that may begin a time zone**, or the lack of one. -/
def IsZoneWord (word : String) : Prop :=
  word = "with" ∨ word = "without"

instance (word : String) : Decidable (IsZoneWord word) :=
  inferInstanceAs (Decidable (_ ∨ _))

variable {word modifier tail : String}

theorem zoneWords_eq :
    zoneWords = "with".toList ++ ' ' :: ("time".toList ++ ' ' :: "zone".toList) :=
  rfl

/-- The words of a time zone do not stand in a text without blanks. -/
theorem not_infix_of_blank {text : List Char} (h : ' ' ∉ text) : ¬zoneWords <:+: text := by
  intro hin
  exact h (hin.subset (by decide))

/-- They stand in a phrase that begins with the first of them, and in no other one. -/
theorem zoneWords_infix_phrase (hword : IsZoneWord word) {tail : List Char} (htail : ' ' ∉ tail) :
    zoneWords <:+: zonePhrase word tail ↔ word = "with" := by
  have hzone : ' ' ∉ "zone".toList ++ tail := by
    rw [List.mem_append, not_or]
    exact ⟨by decide, htail⟩
  -- the word `time` ends in no such word, and no blank is left behind it
  have hlater : ¬zoneWords <:+: "time".toList ++ ' ' :: ("zone".toList ++ tail) := by
    rw [zoneWords_eq, infix_blank_iff (by decide) (by decide), ← zoneWords_eq]
    rintro (⟨hend, -⟩ | hin)
    · exact absurd hend (by decide)
    · exact not_infix_of_blank hzone hin
  have hblank : ' ' ∉ word.toList := by
    rcases hword with rfl | rfl <;> decide
  rw [zonePhrase, zoneWords_eq, infix_blank_iff (by decide) hblank, ← zoneWords_eq,
    or_iff_left hlater, prefix_blank_iff (by decide) (by decide), and_iff_left
      ⟨rfl, List.prefix_append _ _⟩]
  rcases hword with rfl | rfl <;> decide

/-- **Nothing else in the type options is taken for a time zone**: neither the modifier in front
of its words nor what stands behind them. -/
theorem zoneWords_infix_iff (hword : IsZoneWord word) (hmodifier : ' ' ∉ modifier.toList)
    (htail : ' ' ∉ tail.toList) :
    zoneWords <:+: (addWord (addWord (addWord modifier word) "time") "zone" ++ tail).toList ↔
      word = "with" := by
  have hne : ∀ text : String, IsZoneWord word → text ++ word ≠ "" := by
    rintro text (rfl | rfl) h
    · exact absurd (String.append_eq_empty_iff.mp h).2 (by decide)
    · exact absurd (String.append_eq_empty_iff.mp h).2 (by decide)
  have htime : ∀ text : String, text ++ "time" ≠ "" := fun text h =>
    absurd (String.append_eq_empty_iff.mp h).2 (by decide)
  have hspace : " ".toList = [' '] := rfl
  rw [addWord, addWord, addWord, if_neg (htime _), if_neg (hne _ hword)]
  by_cases hempty : modifier = ""
  · have hphrase : ("" ++ word ++ " " ++ "time" ++ " " ++ "zone" ++ tail).toList =
        zonePhrase word tail.toList := by
      simp only [zonePhrase, String.toList_append, hspace, String.toList_empty, List.nil_append,
        List.append_assoc, List.cons_append]
    rw [if_pos hempty, hphrase, zoneWords_infix_phrase hword htail]
  · have hphrase : (modifier ++ " " ++ word ++ " " ++ "time" ++ " " ++ "zone" ++ tail).toList =
        modifier.toList ++ ' ' :: zonePhrase word tail.toList := by
      simp only [zonePhrase, String.toList_append, hspace, List.nil_append, List.append_assoc,
        List.cons_append]
    have hblank : ' ' ∉ word.toList := by
      rcases hword with rfl | rfl <;> decide
    -- the second word of a time zone does not stand behind the modifier
    have hsecond : ¬"time".toList ++ ' ' :: "zone".toList <+: zonePhrase word tail.toList := by
      rw [zonePhrase, prefix_blank_iff (by decide) hblank]
      rintro ⟨h, -⟩
      rcases hword with rfl | rfl <;> exact absurd h (by decide)
    rw [if_neg hempty, hphrase, zoneWords_eq, infix_blank_iff (by decide) hmodifier,
      ← zoneWords_eq, or_iff_right fun h => hsecond h.2, zoneWords_infix_phrase hword htail]

/-! ### Behind a complete type -/

variable {options : Options} {state next last : State} {draft draft' : Draft} {token base : String}
  {tokens read : List String} {edit : Edit} {i j : Nat}

/-- Whether no word of a type is due any more. -/
def State.endsType : State → Bool
  | .columnName | .characterType | .doubleType | .clockType | .timeZone | .timeZoneName => false
  | _ => true

/-- **An edit that puts the token behind the type options** or leaves them alone. -/
inductive Edit.Appends (token : String) : Edit → Prop
  /-- Nothing is done. -/
  | keep : Edit.Appends token .keep
  /-- Something else is said of the column. -/
  | flag {f : Column → Column} (h : ∀ column, (f column).typeOptions = column.typeOptions) :
    Edit.Appends token (.change f)
  /-- The token is more text of the type. -/
  | text : Edit.Appends token (.change (Column.appendOption token))

/-- **A rule of this kind**: the token is unexpected, or such an edit leads to a state in which no
word of a type is due. -/
def IsAppending (token : String) (rule : Draft → Step) : Prop :=
  (∀ draft, rule draft = unexpected token draft) ∨
    ∃ next edit, next.endsType = true ∧ Edit.Appends token edit ∧
      ∀ draft, rule draft = edit.perform next token draft

theorem IsAppending.perform (hends : next.endsType = true) (h : edit.Appends token) :
    IsAppending token fun draft => edit.perform next token draft :=
  Or.inr ⟨next, edit, hends, h, fun _ => rfl⟩

/-- A rule that tells tokens apart. -/
theorem IsAppending.ite {p : Prop} [Decidable p] {rule rule' : Draft → Step}
    (h : IsAppending token rule) (h' : IsAppending token rule') :
    IsAppending token fun draft => if p then rule draft else rule' draft := by
  by_cases hp : p
  · simpa only [if_pos hp] using h
  · simpa only [if_neg hp] using h'

/-- **The tokens behind a complete type** are put behind the type options as they stand. -/
theorem readColumnTail_appends (token : String) : IsAppending token (readColumnTail token) := by
  have hgo : ∀ {next : State}, next.endsType = true → IsAppending token (goto next) := fun hends =>
    .perform hends .keep
  have hdefault : IsAppending token (readDefault token) :=
    .perform (rfl : (State.columnDefault 0).endsType = true)
      (.flag (f := fun column => { column with hasDefault := true }) fun _ => rfl)
  have htext : ∀ {next : State}, next.endsType = true → IsAppending token fun draft =>
      gotoWith next (draft.modifyColumn? (Column.appendOption token)) token draft := fun hends =>
    .perform hends .text
  exact .ite (hgo rfl) <| .ite (hgo rfl) <| .ite (hgo rfl) <| .ite (hgo rfl) <| .ite hdefault <|
    .ite (hgo rfl) <| .ite (hgo rfl) <| .ite (htext rfl) <| .ite (htext rfl) <|
    Or.inl fun _ => rfl

/-- So are those inside a modifier. -/
theorem readModifier_appends (token : String) : IsAppending token (readModifier token) :=
  .ite (Or.inl fun _ => rfl) (.perform (by split <;> rfl) .text)

/-- An edit of this kind leads to its state. -/
theorem Edit.Appends.eq_of_perform {target : State} (h : edit.Appends token)
    (ho : (edit.perform target token draft).outcome = .ok next) : target = next := by
  have hgoto : ∀ result : Option Draft,
      (gotoWith target result token draft).outcome = .ok next → target = next := by
    intro result hresult
    cases result with
    | none => cases hresult
    | some draft' => exact Except.ok.inj hresult
  cases h with
  | keep => exact Except.ok.inj ho
  | flag => exact hgoto _ ho
  | text => exact hgoto _ ho

/-- **One token** behind a complete type or inside a modifier. -/
theorem step_appends (hs : state = .columnType ∨ state = .typeModifier)
    (ho : (step options state draft token).outcome = .ok next) :
    next.endsType = true ∧
      ∃ edit, Edit.Appends token edit ∧
        step options state draft token = edit.perform next token draft := by
  have hrule : IsAppending token fun draft => step options state draft token := by
    rcases hs with rfl | rfl
    · exact readColumnTail_appends token
    · exact readModifier_appends token
  rcases hrule with hrule | ⟨target, edit, hends, hedit, hrule⟩
  · rw [show step options state draft token = _ from hrule draft] at ho
    cases ho
  · rw [show step options state draft token = _ from hrule draft] at ho
    obtain rfl := hedit.eq_of_perform ho
    exact ⟨hends, edit, hedit, hrule draft⟩

/-- A token further behind leaves the type options alone, and leads to no word of a type. -/
theorem Transition.of_endsType (ht : Transition options token state edit next)
    (hends : state.endsType = true) (hs : ¬(state = .columnType ∨ state = .typeModifier)) :
    (∀ f, edit = .change f → ∀ column, (f column).typeOptions = column.typeOptions) ∧
      (state.place = .column → next.endsType = true) := by
  cases ht with
  | keep hf =>
    refine ⟨nofun, fun _ => ?_⟩
    cases next with
    | columnName | characterType | doubleType | clockType | timeZone | timeZoneName => exact hf.elim
    | _ => rfl
  | typeText htyping =>
    cases state with
    | columnType => exact absurd (Or.inl rfl) hs
    | typeModifier => exact absurd (Or.inr rfl) hs
    | characterType | doubleType | clockType | timeZone | timeZoneName => cases hends
    | _ => cases htyping
  | assign => cases hends
  | addTyped | addColumn => exact ⟨nofun, nofun⟩
  | hasDefault | notNull | asKey =>
    refine ⟨?_, fun _ => rfl⟩
    rintro f ⟨⟩ column
    rfl
  | _ => exact ⟨nofun, fun _ => rfl⟩

/-- **A column whose type has been read**, up to text without blanks: its type options begin with
a text that no token changes any more. -/
structure IsSettled (base : String) (i j : Nat) (state : State) (draft : Draft) : Prop where
  /-- More text may stand behind it. -/
  typeOptions : ∃ tail, (draft.columnAt? i j).map (·.typeOptions) = some (base ++ tail) ∧
    ' ' ∉ tail.toList
  /-- If the column is being read, no word of its type is due. -/
  endsType : IsReading state draft i j → state.endsType = true

/-- **One token** keeps a column settled. -/
theorem IsSettled.step (h : IsSettled base i j state draft) (hblank : ' ' ∉ token.toList)
    (ho : (step options state draft token).outcome = .ok next) :
    IsSettled base i j next (step options state draft token).draft := by
  obtain ⟨tail, htail, hno⟩ := h.typeOptions
  obtain ⟨column, hcolumn, htext⟩ := Option.map_eq_some_iff.mp htail
  have hback : IsReading next (SqlCatalog.step options state draft token).draft i j →
      IsReading state draft i j := (growth_step ho).isReading hcolumn
  obtain ⟨edit, ht, hp⟩ := exists_transition ho
  by_cases hr : IsReading state draft i j
  · by_cases hs : state = .columnType ∨ state = .typeModifier
    · obtain ⟨hends, edit, hedit, hp⟩ := step_appends hs ho
      refine ⟨?_, fun _ => hends⟩
      rw [hp]
      obtain ⟨column', hcolumn', hcases⟩ := Edit.columnAt?_perform hcolumn edit next token
      have hkept : column'.typeOptions = column.typeOptions → ∃ tail,
          ((edit.perform next token draft).draft.columnAt? i j).map (·.typeOptions) =
            some (base ++ tail) ∧ ' ' ∉ tail.toList := fun hsame =>
        ⟨tail, by rw [hcolumn', Option.map_some, hsame, htext], hno⟩
      rcases hcases with rfl | rfl | ⟨f, rfl, -, -, rfl⟩
      · exact hkept rfl
      · exact hkept rfl
      · cases hedit with
        | flag hf => exact hkept (hf column)
        | text =>
          refine ⟨tail ++ token, ?_, ?_⟩
          · rw [hcolumn', Option.map_some, Column.appendOption, htext, String.append_assoc]
          · rw [String.toList_append, List.mem_append, not_or]
            exact ⟨hno, hblank⟩
    · obtain ⟨hkept, hends⟩ := ht.of_endsType (h.endsType hr) hs
      rw [hp]
      refine ⟨⟨tail, ht.columnAt? (fun _ => rfl) htail fun _ f hf c hc => ?_, hno⟩,
        fun _ => hends hr.1⟩
      rw [hkept f hf c, hc]
  · refine ⟨⟨tail, ?_, hno⟩, fun hr' => absurd (hback hr') hr⟩
    rw [hp]
    exact ht.columnAt? (fun _ => rfl) htail fun hr' => absurd hr' hr

/-! ### Behind the word `timestamp` -/

/-- **The words of a time zone that have been read** behind the word `timestamp`, as long as one
of them is due: the tokens, the state and the type options. -/
inductive ZoneDue (modifier : String) : List String → State → String → Prop
  /-- The first word may come. -/
  | first : ZoneDue modifier [] .clockType modifier
  /-- The word `time` has to come. -/
  | second {word : String} (h : IsZoneWord word) :
    ZoneDue modifier [word] .timeZone (addWord modifier word)
  /-- The word `zone` has to come. -/
  | third {word : String} (h : IsZoneWord word) :
    ZoneDue modifier [word, "time"] .timeZoneName (addWord (addWord modifier word) "time")

theorem ZoneDue.ne_idle {text : String} (h : ZoneDue modifier read state text) : state ≠ .idle := by
  cases h <;> nofun

/-- **What the type options begin with** once no such word is due, by the tokens behind the word
`timestamp`. -/
inductive ZoneRead (modifier : String) : List String → String → Prop
  /-- The words have been read. -/
  | words {word : String} (h : IsZoneWord word) (rest : List String) :
    ZoneRead modifier (word :: "time" :: "zone" :: rest)
      (addWord (addWord (addWord modifier word) "time") "zone")
  /-- Something else came. -/
  | none {token : String} (h : ¬IsZoneWord token) (rest : List String) :
    ZoneRead modifier (token :: rest) modifier

theorem ZoneRead.append (h : ZoneRead modifier read base) (more : List String) :
    ZoneRead modifier (read ++ more) base := by
  cases h with
  | words hword rest => exact .words hword (rest ++ more)
  | none htoken rest => exact .none htoken (rest ++ more)

/-- **The type options behind the word `timestamp`** and some more tokens. -/
def IsClock (modifier : String) (i j : Nat) (read : List String) (state : State)
    (draft : Draft) : Prop :=
  (∃ text, ZoneDue modifier read state text ∧ IsReading state draft i j ∧
      (draft.columnAt? i j).map (·.typeOptions) = some text) ∨
    ∃ base, ZoneRead modifier read base ∧ IsSettled base i j state draft

/-- A column that is complete without more text is settled. -/
theorem isSettled_of_columnAt? (hends : state.endsType = true)
    (h : (draft.columnAt? i j).map (·.typeOptions) = some base) :
    IsSettled base i j state draft :=
  ⟨⟨"", by rw [h, String.append_empty], List.not_mem_nil⟩, fun _ => hends⟩

/-- A word of a type is put behind the type options of the column being read. -/
theorem of_readOptionWord {target : State} {text : String} (hr : IsReading state draft i j)
    (h : (draft.columnAt? i j).map (·.typeOptions) = some text)
    (ho : (readOptionWord target token draft).outcome = .ok next) :
    target = next ∧ (readOptionWord target token draft).draft.openTable = some i ∧
      (readOptionWord target token draft).draft.openColumn = some j ∧
      ((readOptionWord target token draft).draft.columnAt? i j).map (·.typeOptions) =
        some (addWord text token) := by
  rw [readOptionWord] at ho ⊢
  cases hm : draft.modifyColumn? (Column.appendWord token) with
  | none =>
    rw [hm] at ho
    cases ho
  | some changed =>
    rw [hm] at ho
    obtain ⟨k, l, hk, hl, rfl⟩ := eq_of_modifyColumn? hm
    obtain rfl := Option.some.inj (hk.symm.trans hr.2.1)
    obtain rfl := Option.some.inj (hl.symm.trans hr.2.2)
    refine ⟨Except.ok.inj ho, hk, hl, ?_⟩
    obtain ⟨column, hcolumn, rfl⟩ := Option.map_eq_some_iff.mp h
    change ((draft.changeAt (Column.appendWord token) k l).columnAt? k l).map _ = _
    rw [columnAt?_changeAt, hcolumn, Option.map_some, if_pos ⟨rfl, rfl⟩]
    rfl

/-- **One token** behind the word `timestamp`. -/
theorem IsClock.step (h : IsClock modifier i j read state draft) (hblank : ' ' ∉ token.toList)
    (ho : (step options state draft token).outcome = .ok next) :
    IsClock modifier i j (read ++ [token]) next (step options state draft token).draft := by
  rcases h with ⟨text, hdue, hr, htext⟩ | ⟨base, hread, hsettled⟩
  · have hword : ∀ {word : String} {target : State},
        (readTypeWord word target token draft).outcome = .ok next →
        token = word ∧ target = next ∧
          (readTypeWord word target token draft).draft.openTable = some i ∧
          (readTypeWord word target token draft).draft.openColumn = some j ∧
          ((readTypeWord word target token draft).draft.columnAt? i j).map (·.typeOptions) =
            some (addWord text token) := by
      intro word target ho
      rw [readTypeWord] at ho ⊢
      split at ho
      next heq =>
        rw [if_pos heq]
        exact ⟨heq, of_readOptionWord hr htext ho⟩
      next => cases ho
    cases hdue with
    | first =>
      have hrule : SqlCatalog.step options .clockType draft token = readClock token draft := rfl
      rw [hrule] at ho ⊢
      by_cases hzone : token = "with" ∨ token = "without"
      · rw [readClock, if_pos hzone] at ho ⊢
        obtain ⟨rfl, hi, hj, htext⟩ := of_readOptionWord hr htext ho
        exact Or.inl ⟨_, .second hzone, ⟨rfl, hi, hj⟩, htext⟩
      · rw [readClock, if_neg hzone] at ho ⊢
        have hsettled : IsSettled modifier i j .columnType draft := isSettled_of_columnAt? rfl htext
        have ho' : (SqlCatalog.step options .columnType draft token).outcome = .ok next := ho
        exact Or.inr ⟨modifier, .none hzone [], hsettled.step hblank ho'⟩
    | second hzone =>
      obtain ⟨rfl, rfl, hi, hj, htext⟩ := hword ho
      exact Or.inl ⟨_, .third hzone, ⟨rfl, hi, hj⟩, htext⟩
    | third hzone =>
      obtain ⟨rfl, rfl, hi, hj, htext⟩ := hword ho
      exact Or.inr ⟨_, .words hzone [], isSettled_of_columnAt? rfl htext⟩
  · exact Or.inr ⟨base, hread.append [token], hsettled.step hblank ho⟩

/-- **A reading** behind the word `timestamp`. -/
theorem IsClock.of_leads (h : IsClock modifier i j read state draft)
    (hblank : ∀ token ∈ tokens, ' ' ∉ token.toList)
    (hl : Leads options state draft tokens last draft') :
    IsClock modifier i j (read ++ tokens) last draft' := by
  induction tokens generalizing read state draft with
  | nil =>
    obtain ⟨rfl, rfl⟩ := leads_nil.mp hl
    rwa [List.append_nil]
  | cons token tokens ih =>
    obtain ⟨s, hs, hl⟩ := leads_cons.mp hl
    obtain ⟨htoken, hblank⟩ := List.forall_mem_cons.mp hblank
    rw [List.append_cons]
    exact ih (h.step htoken hs) hblank hl

/-! ### Tokens and types -/

/-- **No token holds a blank.** -/
theorem blank_not_mem_token {bytes : List UInt8} (h : token ∈ tokenize bytes) :
    ' ' ∉ token.toList := by
  rcases Token.isPairedWord_of_mem_tokenize h with hmark | hword
  · simp only [List.mem_cons, List.not_mem_nil, or_false] at hmark
    rcases hmark with rfl | rfl | rfl | rfl <;> decide
  · intro hblank
    exact absurd (hword.isWord ' ' hblank) (by decide)

variable {type : ColumnType} {column : Column}

/-- The modifier of a type is a part of its token. -/
theorem blank_not_mem_modifier (htype : ColumnType.ofToken? options token = some type)
    (h : ' ' ∉ token.toList) : ' ' ∉ type.modifier.toList := by
  simp only [ColumnType.ofToken?, Option.map_eq_some_iff] at htype
  obtain ⟨family, -, rfl⟩ := htype
  intro hblank
  have hmem : ' ' ∈ (token.toList.dropWhile (· != '(')) := by
    simpa [ColumnType.cutModifier] using hblank
  exact h ((List.dropWhile_suffix _).subset hmem)

/-- Behind the type `timestamp`, with or without array marks, a time zone may come. -/
theorem family_of_timestamp (htype : ColumnType.ofToken? options token = some type)
    (h : ArrayMark.element type.name = "timestamp") : type.family = .clock := by
  simp only [ColumnType.ofToken?, Option.map_eq_some_iff] at htype
  obtain ⟨family, hfamily, rfl⟩ := htype
  rw [h] at hfamily
  exact (Option.some.inj hfamily).symm

/-! ### Field types -/

namespace Column

/-- **The field type of a column** whose values have the given one: a vector for arrays, and an
option where null is allowed. -/
def fieldOf (column : Column) (field : String) : String :=
  let value := if column.isArray then vectorOf field else field
  if column.isNotNull then value else optionOf value

/-- The field type of a column that is mapped. -/
theorem fieldType?_eq_fieldOf (row : FieldRow)
    (h : fieldTypes.find? (·.dataType == column.mappedType) = some row) :
    column.fieldType? = some (column.fieldOf row.field) := by
  have hnullable := nullable_eq row (List.mem_of_find?_eq_some h)
  rw [fieldType?, h, Option.map_some, fieldOf]
  cases column.isArray with
  | false =>
    cases column.isNotNull with
    | false => exact congrArg some hnullable
    | true => rfl
  | true =>
    cases column.isNotNull with
    | false => exact congrArg some (optionOf_vec row.field)
    | true => rfl

/-- **The field type of a timestamp** is settled by the words of a time zone. -/
theorem fieldType?_of_timestamp (h : ArrayMark.element column.dataType = "timestamp") :
    column.fieldType? = some (column.fieldOf
      (if zoneWords <:+: column.typeOptions.toList then "chrono::DateTime<chrono::Utc>"
        else "chrono::NaiveDateTime")) := by
  by_cases hzone : zoneWords <:+: column.typeOptions.toList
  · have hmapped : column.mappedType = "timestamptz" := by
      rw [mappedType]
      exact if_pos ⟨h, occursIn_iff.mpr hzone⟩
    rw [if_pos hzone]
    exact fieldType?_eq_fieldOf ⟨"timestamptz", "chrono::DateTime<chrono::Utc>", _⟩
      (by rw [hmapped]; rfl)
  · have hmapped : column.mappedType = "timestamp" := by
      rw [mappedType]
      exact (if_neg fun hboth => hzone (occursIn_iff.mp hboth.2)).trans h
    rw [if_neg hzone]
    exact fieldType?_eq_fieldOf ⟨"timestamp", "chrono::NaiveDateTime", _⟩
      (by rw [hmapped]; rfl)

end Column

/-! ### Dumps -/

/-- **The words stand in the type options when they are the next tokens.** -/
theorem ZoneRead.infix_iff (h : ZoneRead modifier read base) (hmodifier : ' ' ∉ modifier.toList)
    (htail : ' ' ∉ tail.toList) :
    zoneWords <:+: (base ++ tail).toList ↔ ["with", "time", "zone"] <+: read := by
  cases h with
  | @words word hword rest =>
    rw [zoneWords_infix_iff hword hmodifier htail]
    simp [List.cons_prefix_cons, eq_comm]
  | @none token htoken rest =>
    have hblank : ' ' ∉ (modifier ++ tail).toList := by
      rw [String.toList_append, List.mem_append, not_or]
      exact ⟨hmodifier, htail⟩
    refine iff_of_false (not_infix_of_blank hblank) fun hpre => ?_
    exact htoken (Or.inl (List.cons_prefix_cons.mp hpre).1.symm)

/-- **The time zone of a timestamp** in a reading that leads back to the idle state. -/
theorem IsTypedAt.zoneWords_iff {n : Nat} (h : IsTypedAt options tokens n i j)
    (hl : Leads options .idle {} tokens .idle draft)
    (hblank : ∀ token ∈ tokens, ' ' ∉ token.toList) (hcolumn : draft.columnAt? i j = some column)
    (htimestamp : ArrayMark.element column.dataType = "timestamp") :
    zoneWords <:+: column.typeOptions.toList ↔
      ["with", "time", "zone"] <+: tokens.drop (n + 1) := by
  obtain ⟨token, type, state, start, htoken, htype, hread, hrest⟩ := h.leads hl
  have hname : type.name = column.dataType := by
    have hkept := (hread.hasType.of_leads hrest).dataType
    rw [hcolumn] at hkept
    exact (Option.some.inj hkept).symm
  have hfamily := family_of_timestamp htype (hname ▸ htimestamp)
  obtain ⟨before, hbefore, htexts⟩ := Option.map_eq_some_iff.mp hread.columnAt?
  have hstart : IsClock type.modifier i j [] state start := by
    refine Or.inl ⟨type.modifier, ?_, hread.isReading, ?_⟩
    · rw [hread.family, hfamily]
      exact .first
    · rw [hbefore, Option.map_some, (Prod.mk.inj htexts).2]
  have hblank' : ∀ token ∈ tokens.drop (n + 1), ' ' ∉ token.toList := fun token hmem =>
    hblank token (List.mem_of_mem_drop hmem)
  rcases hstart.of_leads hblank' hrest with ⟨text, hdue, -⟩ | ⟨base, hzone, hsettled⟩
  · exact absurd rfl hdue.ne_idle
  · obtain ⟨tail, htail, hno⟩ := hsettled.typeOptions
    rw [hcolumn] at htail
    have hoptions : column.typeOptions = base ++ tail := Option.some.inj htail
    have hmodifier := blank_not_mem_modifier htype
      (hblank token (List.mem_of_getElem? htoken))
    rw [hoptions, hzone.infix_iff hmodifier hno, List.nil_append]

/-- **The test for a time zone is exact.** In a catalog that a dump is read to, a column of
timestamps or arrays of them was given its type by one token of the dump, and its field type is one
with a time zone exactly if the three tokens behind that one are `with time zone`. -/
theorem timeZone_exact {options : Options} {dump : List UInt8} {catalog : Catalog}
    (h : (parse options dump).result = .ok catalog) :
    ∀ table ∈ catalog.tables, ∀ column ∈ table.columns,
      ArrayMark.element column.dataType = "timestamp" →
      (∃ i j : Nat, (run options .idle {} (tokensOf dump)).draft.tables[i]? = some table ∧
        table.columns[j]? = some column) ∧
      ∀ i j : Nat, (run options .idle {} (tokensOf dump)).draft.tables[i]? = some table →
        table.columns[j]? = some column →
        ∃ n, (∀ m, IsTypedAt options (tokensOf dump) m i j ↔ m = n) ∧
          ((tokensOf dump)[n]?.bind (ColumnType.ofToken? options)).map (·.name) =
            some column.dataType ∧
          column.fieldType? = some (column.fieldOf
            (if ["with", "time", "zone"] <+: (tokensOf dump).drop (n + 1) then
              "chrono::DateTime<chrono::Utc>" else "chrono::NaiveDateTime")) := by
  obtain ⟨draft, hl, rfl⟩ := exists_leads_of_result h
  intro table ht column hc htimestamp
  rw [hl.2]
  refine ⟨?_, fun i j hi hj => ?_⟩
  · obtain ⟨i, hi⟩ := List.mem_iff_getElem?.mp (mem_of_mem_finalize ht)
    obtain ⟨j, hj⟩ := List.mem_iff_getElem?.mp hc
    exact ⟨i, j, hi, hj⟩
  · have hcolumn : draft.columnAt? i j = some column := columnAt?_eq_some_iff.mpr ⟨table, hi, hj⟩
    obtain ⟨n, hn⟩ := (hl.exists_isTypedAt hcolumn).resolve_right fun hwaits => by cases hwaits.1
    obtain ⟨token, type, state, start, htoken, htype, hread, hrest⟩ := hn.leads hl
    have hname := (hread.hasType.of_leads hrest).dataType
    rw [hcolumn, Option.map_some] at hname
    refine ⟨n, fun m => ⟨fun hm => hm.unique hn hl, fun hm => hm ▸ hn⟩, ?_, ?_⟩
    · rw [htoken, Option.bind_some, htype, Option.map_some, hname]
    · simp only [Column.fieldType?_of_timestamp htimestamp,
        hn.zoneWords_iff hl (fun token => blank_not_mem_token) hcolumn htimestamp]

/-- The text of a table: a modifier that ends in the word `with`, in front of the words
`without time zone`. -/
def zoneSample : List Char :=
  "CREATE TABLE t (a timestamp(6)with without time zone PRIMARY KEY);".toList

/-- The column of that table. -/
def zoneColumn : Column := ⟨"a", "timestamp", "(6)with without time zone", true, true, false⟩

/-- It has no time zone: the words of one are not behind the token that gives it its type. -/
theorem timeZone_exact_behind_modifier :
    (parse {} (Text.bytesOf zoneSample)).result = .ok ⟨[⟨"t", "t", none, [zoneColumn]⟩]⟩ ∧
    zoneColumn.fieldType? = some "chrono::NaiveDateTime" ∧
    ∃ n i j, IsTypedAt {} (tokensOf (Text.bytesOf zoneSample)) n i j ∧
      ¬["with", "time", "zone"] <+: (tokensOf (Text.bytesOf zoneSample)).drop (n + 1) := by
  have hcalm : Noise.IsCalm zoneSample := by decide
  have hresult : (parse {} (Text.bytesOf zoneSample)).result =
      .ok ⟨[⟨"t", "t", none, [zoneColumn]⟩]⟩ :=
    (congrArg Outcome.result (parse_of_isCalm hcalm)).trans rfl
  have hfield : zoneColumn.fieldType? = some "chrono::NaiveDateTime" := rfl
  obtain ⟨⟨i, j, hi, hj⟩, hexact⟩ :=
    timeZone_exact hresult _ List.mem_cons_self zoneColumn List.mem_cons_self rfl
  obtain ⟨n, htyped, -, hzone⟩ := hexact i j hi hj
  refine ⟨hresult, hfield, n, i, j, (htyped n).mpr rfl, fun hwords => ?_⟩
  rw [if_pos hwords] at hzone
  exact absurd (hfield.symm.trans hzone) (by decide)

end SqlCatalog
