import SqlCatalog.ColumnType
import SqlCatalog.Proofs.Schema.Phrase

/-!
# Plain types

The types of a schema as a dump writes them (`SqlCatalog.PlainType`). Each is a
phrase of *type words*, plain words with perhaps a modifier and an array mark
behind them (`SqlCatalog.TypeWord`). A modifier in one piece stays with its word,
and one with a comma in it is cut into five tokens, so a type comes to a column in
different ways:

| the type | its tokens | data type | type options |
|---|---|---|---|
| `text[]` | `text[]` | `text[]` | |
| `varchar(10)[]` | `varchar(10)[]` | `varchar` | `(10)[]` |
| `numeric(12,2)[]` | `numeric`, `(`, `12`, `,`, `2`, `)`, `[]` | `numeric` | `(12,2)[]` |
| `character varying(10)` | `character`, `varying(10)` | `character` | `varying(10)` |
| `time(6) with time zone` | `time(6)`, `with`, `time`, `zone` | `time` | `(6) with time zone` |

What the last two columns of the table say of all plain types is
`SqlCatalog.PlainType.dataType` and `SqlCatalog.PlainType.options`, and that the
reader makes this of them is `SqlCatalog.PlainType.isRead`.
-/

namespace SqlCatalog

open Text Noise Token Identifier

/-! ### Modifiers -/

/-- **Digits**, at least one. -/
structure Digits where
  /-- The digits. -/
  text : List Char
  /-- There is one. -/
  ne_nil : text ≠ []
  /-- They are digits. -/
  isDigit_of_mem : ∀ c ∈ text, c.isDigit

theorem Digits.isPlainWord (digits : Digits) : IsPlainWord digits.text := by
  refine ⟨digits.ne_nil, fun c hc => ?_⟩
  rw [isPlainChar, digits.isDigit_of_mem c hc, Bool.or_true, Bool.true_or]

/-- **A modifier**: what stands in brackets behind a word of a type. -/
inductive Modifier where
  /-- A length. -/
  | length (digits : Digits)
  /-- A precision and a scale. -/
  | precision (digits scale : Digits)

/-- The text of a modifier, if there is one. -/
def modifierText : Option Modifier → List Char
  | none => []
  | some (.length digits) => '(' :: (digits.text ++ [')'])
  | some (.precision digits scale) => '(' :: (digits.text ++ ',' :: (scale.text ++ [')']))

/-- The text of an array mark, if there is one. -/
def markText (isArray : Bool) : List Char :=
  if isArray then ArrayMark.mark else []

variable (modifier : Option Modifier) (isArray : Bool)

/-- A modifier is written with plain characters, brackets and commas. -/
theorem of_mem_modifierText {c : Char} (h : c ∈ modifierText modifier) :
    isPlainChar c ∨ c ∈ ['(', ',', ')', '[', ']'] := by
  rcases modifier with _ | digits | ⟨digits, scale⟩
  · cases h
  · simp only [modifierText, List.mem_cons, List.mem_append, List.not_mem_nil, or_false] at h
    rcases h with rfl | h | rfl
    · exact Or.inr (by simp)
    · exact Or.inl (digits.isPlainWord.2 c h)
    · exact Or.inr (by simp)
  · simp only [modifierText, List.mem_cons, List.mem_append, List.not_mem_nil, or_false] at h
    rcases h with rfl | h | rfl | h | rfl
    · exact Or.inr (by simp)
    · exact Or.inl (digits.isPlainWord.2 c h)
    · exact Or.inr (by simp)
    · exact Or.inl (scale.isPlainWord.2 c h)
    · exact Or.inr (by simp)

/-- The words of a text with a modifier behind it are its own and those of the
modifier. -/
theorem of_mem_words_modifierText {text word : List Char}
    (h : word ∈ words (text ++ (modifierText modifier ++ markText isArray))) :
    word ∈ words text ∨ ∃ digits : Digits, word = digits.text := by
  have hmark : words (markText isArray) = [] := by cases isArray <;> rfl
  rcases modifier with _ | digits | ⟨digits, scale⟩
  · cases isArray with
    | false =>
      rw [modifierText, markText, if_neg Bool.false_ne_true, List.append_nil, List.append_nil] at h
      exact Or.inl h
    | true =>
      have hnil : words [']'] = [] := rfl
      rw [modifierText, List.nil_append, markText, if_pos rfl, ArrayMark.mark, words_append rfl,
        hnil, List.append_nil] at h
      exact Or.inl h
  · rw [modifierText, List.cons_append, words_append rfl, List.append_assoc, List.singleton_append,
      words_append rfl, hmark, digits.isPlainWord.words_eq, List.append_nil, List.mem_append] at h
    exact h.imp_right fun h => ⟨digits, List.mem_singleton.mp h⟩
  · rw [modifierText, List.cons_append, words_append rfl, List.append_assoc, List.cons_append,
      words_append rfl, List.append_assoc, List.singleton_append, words_append rfl, hmark,
      digits.isPlainWord.words_eq, scale.isPlainWord.words_eq, List.append_nil,
      List.mem_append, List.mem_append] at h
    rcases h with h | h | h
    · exact Or.inl h
    · exact Or.inr ⟨digits, List.mem_singleton.mp h⟩
    · exact Or.inr ⟨scale, List.mem_singleton.mp h⟩

/-- The brackets of a modifier pair up. -/
theorem isPaired_modifierText : IsPaired (modifierText modifier) := by
  have hdepth : ∀ digits : Digits, depth? 1 digits.text = some 1 := by
    intro digits
    have hadd := depth?_add digits.isPlainWord.isPaired 1
    rwa [Nat.zero_add] at hadd
  rcases modifier with _ | digits | ⟨digits, scale⟩
  · rfl
  · rw [modifierText, IsPaired, depth?, if_neg (by decide), if_pos rfl, depth?_append, hdepth]
    rfl
  · rw [modifierText, IsPaired, depth?, if_neg (by decide), if_pos rfl, depth?_append, hdepth,
      Option.bind_some, depth?, if_neg (by decide), if_neg (by decide), if_neg (by decide),
      depth?_append, hdepth]
    rfl

/-! ### Type words -/

/-- **A word of a type** with what stands right behind it. -/
structure TypeWord where
  /-- The word. -/
  word : List Char
  /-- Its modifier. -/
  modifier : Option Modifier
  /-- Whether an array mark stands behind it. -/
  isArray : Bool
  /-- It is a plain word. -/
  isPlainWord : IsPlainWord word
  /-- No noise opens with it. -/
  not_mem : word ∉ clauseKeyword :: volatileCalls

namespace TypeWord

variable (part : TypeWord)

/-- The text of a type word. -/
def text : List Char :=
  part.word ++ (modifierText part.modifier ++ markText part.isArray)

/-- **The tokens of a type word.** -/
def tokens : List String :=
  match part.modifier with
  | some (.precision digits scale) =>
    String.ofList part.word ::
      ("(" :: ([String.ofList digits.text, ",", String.ofList scale.text] ++ [")"]) ++
        if part.isArray then ["[]"] else [])
  | _ => [String.ofList part.text]

/-- A type word is written with plain characters, brackets and commas. -/
theorem of_mem_text {c : Char} (h : c ∈ part.text) :
    isPlainChar c ∨ c ∈ ['(', ',', ')', '[', ']'] := by
  have hmark : ∀ isArray, ∀ c ∈ markText isArray, c ∈ ['(', ',', ')', '[', ']'] := by decide
  rcases List.mem_append.mp h with h | h
  · exact Or.inl (part.isPlainWord.2 c h)
  · rcases List.mem_append.mp h with h | h
    · exact of_mem_modifierText _ h
    · exact Or.inr (hmark _ c h)

/-- **A type word is steady.** -/
theorem isSteady : IsSteady part.text := by
  have hfold : part.text.map fold = part.text := by
    have hsame : part.text.map fold = part.text.map id := by
      refine List.map_congr_left fun c hc => ?_
      rcases part.of_mem_text hc with h | h
      · exact (of_isPlainChar h).2.1
      · have hmarks : ∀ c ∈ ['(', ',', ')', '[', ']'], fold c = c := by decide
        exact hmarks c h
    rw [hsame, List.map_id]
  have hno : ∀ name ∈ clauseKeyword :: volatileCalls, name ∉ words (part.text.map fold) := by
    intro name hname hmem
    rw [hfold] at hmem
    rcases of_mem_words_modifierText _ _ hmem with h | ⟨digits, rfl⟩
    · rw [part.isPlainWord.words_eq, List.mem_singleton] at h
      exact part.not_mem (h ▸ hname)
    · have hletter : ∀ name ∈ clauseKeyword :: volatileCalls, ∃ c ∈ name, c.isDigit = false := by
        decide
      obtain ⟨c, hc, hdigit⟩ := hletter _ hname
      rw [digits.isDigit_of_mem c hc] at hdigit
      cases hdigit
  refine isSteady_of_words (fun c hc hmem => ?_) (hno _ List.mem_cons_self) fun _ name hname =>
    hno name (List.mem_cons_of_mem _ hname)
  have hplain : ∀ c ∈ [quote, '-', '$'], isPlainChar c = false ∧ c ∉ ['(', ',', ')', '[', ']'] := by
    decide
  obtain ⟨hchar, hmarks⟩ := hplain c hmem
  rcases part.of_mem_text hc with h | h
  · rw [hchar] at h
    cases h
  · exact hmarks h

/-- The brackets of a type word pair up. -/
theorem isPaired : IsPaired part.text := by
  have hmark : ∀ isArray, IsPaired (markText isArray) := by decide
  exact isPaired_append part.isPlainWord.isPaired
    (isPaired_append (isPaired_modifierText _) (hmark _))

/-- **The tokens of a type word** are those of its text. -/
theorem ofText_text : ofText part.text = part.tokens := by
  have hlower : lower part.text = part.text := by
    have hsame : lower part.text = part.text.map id := by
      refine List.map_congr_left fun c hc => ?_
      rcases part.of_mem_text hc with h | h
      · exact (of_isPlainChar h).2.2
      · have hmarks : ∀ c ∈ ['(', ',', ')', '[', ']'], c.toLower = c := by decide
        exact hmarks c h
    rw [hsame, List.map_id]
  -- without a comma there is no break
  have hone : ',' ∉ part.text → ofText part.text = [String.ofList part.text] := by
    intro hcomma
    have hword : IsWord part.text := by
      intro c hc
      rcases part.of_mem_text hc with h | h
      · rw [← Bool.not_eq_true]
        intro hbreak
        have hc' := (of_isPlainChar h).1
        rw [isWord_of_isBreak hbreak] at hc'
        cases hc'
      · have hmarks : ∀ c ∈ ['(', ',', ')', '[', ']'], c = ',' ∨ isBreak c = false := by decide
        exact (hmarks c h).resolve_left fun he => hcomma (he ▸ hc)
    have hne : part.text ≠ [] := by
      rw [text]
      exact List.append_ne_nil_of_left_ne_nil part.isPlainWord.1 _
    rw [ofText_paired hword hne part.isPaired, hlower]
  have hmark : ∀ isArray, ',' ∉ markText isArray := by decide
  have hplain : ∀ {word}, IsPlainWord word → ',' ∉ word := fun h => h.not_mem rfl
  obtain ⟨word, modifier, isArray, hword, hno⟩ := part
  rcases modifier with _ | digits | ⟨digits, scale⟩
  · refine hone ?_
    simp [text, modifierText, hplain hword, hmark]
  · refine hone ?_
    simp [text, modifierText, hplain hword, hplain digits.isPlainWord, hmark]
  · have htext : text ⟨word, some (.precision digits scale), isArray, hword, hno⟩ =
        word ++ '(' :: (digits.text ++ ',' :: (scale.text ++ ')' :: markText isArray)) := by
      simp [text, modifierText]
    have htokens : ofText (markText isArray) = if isArray then ["[]"] else [] := by
      cases isArray <;> rfl
    rw [htext, ofText_append_open digits.isPlainWord.isWord digits.isPlainWord.surplus_eq rfl,
      ofText_append_comma, ofText_append_close scale.isPlainWord.isPaired, hword.ofText_eq,
      digits.isPlainWord.ofText_eq, scale.isPlainWord.ofText_eq, htokens]
    rfl

end TypeWord

/-! ### Types -/

/-- **A plain type.** -/
inductive PlainType where
  /-- A type of one word, with a modifier and an array mark or not. -/
  | scalar (name : String) (mem : name ∈ scalarTypes) (modifier : Option Modifier)
    (isArray : Bool)
  /-- Character strings of any length, or up to one. -/
  | varying (length : Option Digits)
  /-- Character strings of one length. -/
  | character (length : Digits)
  /-- Times and timestamps, with a precision or not, and said to have a time zone,
  to have none, or neither. -/
  | clock (name : String) (mem : name ∈ ["time", "timestamp"]) (precision : Option Digits)
    (zone : Option Bool)
  /-- Floating-point numbers. -/
  | double

namespace PlainType

/-- The words of a type in lower-case letters. -/
theorem isPlainWord_of_mem {name : String} (h : name ∈ "time" :: "timestamp" :: scalarTypes) :
    IsPlainWord name.toList ∧ name.toList ∉ clauseKeyword :: volatileCalls := by
  have hall : ∀ name ∈ "time" :: "timestamp" :: scalarTypes,
      IsPlainWord name.toList ∧ name.toList ∉ clauseKeyword :: volatileCalls := by decide
  exact hall name h

/-- The words that say of a type whether it has a time zone. -/
def zoneWords : Option Bool → List TypeWord
  | none => []
  | some isWith =>
    [if isWith then ⟨"with".toList, none, false, by decide, by decide⟩
      else ⟨"without".toList, none, false, by decide, by decide⟩,
     ⟨"time".toList, none, false, by decide, by decide⟩,
     ⟨"zone".toList, none, false, by decide, by decide⟩]

/-- **The words of a type.** -/
def words : PlainType → List TypeWord
  | scalar name mem modifier isArray =>
    have h := isPlainWord_of_mem (List.mem_cons_of_mem _ (List.mem_cons_of_mem _ mem))
    [⟨name.toList, modifier, isArray, h.1, h.2⟩]
  | varying length =>
    [⟨"character".toList, none, false, by decide, by decide⟩,
     ⟨"varying".toList, length.map .length, false, by decide, by decide⟩]
  | character length => [⟨"character".toList, some (.length length), false, by decide, by decide⟩]
  | clock name mem precision zone =>
    have h := isPlainWord_of_mem (List.mem_append_left scalarTypes mem)
    ⟨name.toList, precision.map .length, false, h.1, h.2⟩ :: zoneWords zone
  | double =>
    [⟨"double".toList, none, false, by decide, by decide⟩,
     ⟨"precision".toList, none, false, by decide, by decide⟩]

/-- **The data type** that a type gives a column: its first word, and an array mark
right behind it. -/
def dataType : PlainType → String
  | scalar name _ none true => name ++ "[]"
  | scalar name .. => name
  | varying _ => "character"
  | character _ => "character"
  | clock name .. => name
  | double => "double"

/-- **The type options** that a type gives a column: all that stands behind its
data type. -/
def options : PlainType → String
  | scalar _ _ none _ => ""
  | scalar _ _ modifier isArray => String.ofList (modifierText modifier ++ markText isArray)
  | varying length => String.ofList ("varying".toList ++ modifierText (length.map .length))
  | character length => String.ofList (modifierText (some (.length length)))
  | clock _ _ precision zone =>
    let words := (zoneWords zone).map TypeWord.text
    String.ofList (phrase (precision.elim words fun digits =>
      modifierText (some (.length digits)) :: words))
  | double => "precision"

variable (type : PlainType)

/-- The parts of a type as a phrase. -/
def parts : List (List Char) :=
  type.words.map TypeWord.text

/-- **The tokens of a type.** -/
def tokens : List String :=
  type.words.flatMap TypeWord.tokens

theorem isSteady_of_mem {part : List Char} (h : part ∈ type.parts) : IsSteady part := by
  obtain ⟨word, -, rfl⟩ := List.mem_map.mp h
  exact word.isSteady

theorem isPaired_of_mem {part : List Char} (h : part ∈ type.parts) : IsPaired part := by
  obtain ⟨word, -, rfl⟩ := List.mem_map.mp h
  exact word.isPaired

theorem flatMap_ofText_parts : type.parts.flatMap ofText = type.tokens := by
  rw [parts, List.flatMap_map, tokens]
  exact congrArg type.words.flatMap (funext TypeWord.ofText_text)

end PlainType

end SqlCatalog
