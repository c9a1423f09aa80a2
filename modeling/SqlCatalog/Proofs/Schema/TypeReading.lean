import SqlCatalog.Proofs.Column.Type
import SqlCatalog.Proofs.Schema.Name
import SqlCatalog.Proofs.Schema.Type

/-!
# Reading plain types

The reader makes of a plain type the data type and the type options that the type
says it has (`SqlCatalog.PlainType.isRead`). There is one lemma for each kind of
type, since each comes to the column in its own way: a modifier in one piece is
cut off the token that names the type, one in five pieces is put together again,
and the words behind `character`, `double` and the clock types are appended to the
type options one by one.
-/

namespace SqlCatalog

open Text Token Identifier

/-- **Tokens that are read as a type**: behind the name of a column they complete
its type, and the data type and the type options are all they change. -/
def ReadsType (options : Options) (tokens : List String) (dataType typeOptions : String) : Prop :=
  ∃ (token : String) (tail : List String) (type : ColumnType) (last : State)
      (change : Column → Column), tokens = token :: tail ∧
    ColumnType.ofToken? options token = some type ∧ last.IsTyped ∧
    Changes options type.family.state tail last change ∧
    ∀ column : Column, change { column with dataType := type.name, typeOptions := type.modifier } =
      { column with dataType := dataType, typeOptions := typeOptions }

variable {base suffix : List Char} {options : Options} {name : String}

/-! ### The token that names a type -/

/-- A type token is cut where its modifier begins. -/
theorem cutModifier_ofList (hbase : '(' ∉ base) (hsuffix : ∀ c ∈ suffix.head?, c = '(') :
    ColumnType.cutModifier (String.ofList (base ++ suffix)) =
      (String.ofList base, String.ofList suffix) := by
  have hne : ∀ c ∈ base, (c != '(') = true := fun _ => bne_of_mem hbase
  have htake : suffix.takeWhile (· != '(') = [] ∧ suffix.dropWhile (· != '(') = suffix := by
    cases suffix with
    | nil => exact ⟨rfl, rfl⟩
    | cons c suffix =>
      obtain rfl := hsuffix c rfl
      exact ⟨rfl, rfl⟩
  rw [ColumnType.cutModifier, String.toList_ofList, List.takeWhile_append_of_pos hne,
    List.dropWhile_append_of_pos hne, htake.1, htake.2, List.append_nil]

/-- **The type that a token gives**, by its two parts. -/
theorem ofToken?_ofList (base suffix : List Char) {family : TypeFamily} (hbase : '(' ∉ base)
    (hsuffix : ∀ c ∈ suffix.head?, c = '(') (hname : normalize (String.ofList base) = name)
    (hfamily : ColumnType.family? options (ArrayMark.element name) (String.ofList suffix) =
      some family) :
    ColumnType.ofToken? options (String.ofList (base ++ suffix)) =
      some ⟨name, String.ofList suffix, family⟩ := by
  rw [ColumnType.ofToken?, cutModifier_ofList hbase hsuffix]
  simp only [hname, hfamily, Option.map_some]

/-- **Plain words are in normal form**, with an array mark and without one. -/
theorem normalize_of_isPlainWord (h : IsPlainWord base) (isArray : Bool) :
    normalize (String.ofList (base ++ markText isArray)) =
      String.ofList (base ++ markText isArray) := by
  have hmark : ∀ isArray, '.' ∉ markText isArray ∧ doubleQuote ∉ markText isArray ∧
      lower (markText isArray) = markText isArray := by decide
  obtain ⟨hperiod, hquote, hlower⟩ := hmark isArray
  have happend : lower (base ++ markText isArray) = lower base ++ lower (markText isArray) :=
    List.map_append
  rw [Identifier.normalize, String.toList_ofList, afterLast_of_not_mem, dropQuotes_of_not_mem,
    happend, h.lower_eq, hlower]
  · exact fun hmem => (List.mem_append.mp hmem).elim (h.not_mem rfl) hquote
  · exact fun hmem => (List.mem_append.mp hmem).elim (h.not_mem rfl) hperiod

/-- **The elements of an array** are of the type in front of the mark. -/
theorem element_of_isPlainWord (h : IsPlainWord base) (isArray : Bool) :
    ArrayMark.element (String.ofList (base ++ markText isArray)) = String.ofList base := by
  have hdrop : ArrayMark.dropMarks base.reverse = base.reverse := by
    have hhead : ∀ c ∈ base.reverse, c ≠ ']' := by
      rintro c hc rfl
      exact h.not_mem rfl (List.mem_reverse.mp hc)
    match base.reverse, hhead with
    | [], _ => rfl
    | [_], _ => rfl
    | c :: d :: text, hhead =>
      rw [ArrayMark.dropMarks, if_neg fun hc => hhead c List.mem_cons_self hc.1]
  rw [ArrayMark.element, String.toList_ofList, List.reverse_append]
  cases isArray with
  | false =>
    have hnil : (markText false).reverse ++ base.reverse = base.reverse := rfl
    rw [hnil, hdrop, List.reverse_reverse]
  | true =>
    have hmark : (markText true).reverse ++ base.reverse = ']' :: '[' :: base.reverse := rfl
    rw [hmark, ArrayMark.dropMarks, if_pos ⟨rfl, rfl⟩, hdrop, List.reverse_reverse]

/-! ### The names of scalar types -/

section Scalar

variable (mem : name ∈ scalarTypes)
include mem

theorem isPlainWord_scalar : IsPlainWord name.toList :=
  (PlainType.isPlainWord_of_mem (List.mem_cons_of_mem _ (List.mem_cons_of_mem _ mem))).1

theorem normalize_scalar : normalize (String.ofList name.toList) = name := by
  have hnormal := normalize_of_isPlainWord (isPlainWord_scalar mem) false
  rw [markText, if_neg Bool.false_ne_true, List.append_nil] at hnormal
  exact hnormal.trans String.ofList_toList

theorem element_scalar : ArrayMark.element name = name := by
  have hsame := element_of_isPlainWord (isPlainWord_scalar mem) false
  rwa [markText, if_neg Bool.false_ne_true, List.append_nil, String.ofList_toList] at hsame

/-- Scalar types are complete as they stand. -/
theorem family?_scalar (options : Options) (modifier : String) :
    ColumnType.family? options name modifier = some .scalar := by
  have hall : ∀ name ∈ scalarTypes, name ∉ ["character", "timestamp", "time", "double"] := by decide
  have hno := hall name mem
  simp only [List.mem_cons, List.not_mem_nil, or_false, not_or] at hno
  obtain ⟨hcharacter, htimestamp, htime, hdouble⟩ := hno
  rw [ColumnType.family?, if_neg hcharacter, if_neg (not_or.mpr ⟨htimestamp, htime⟩),
    if_neg fun hd => hdouble hd.1, if_pos]
  rw [Bool.or_eq_true, List.contains_iff_mem]
  exact Or.inl mem

/-- **A scalar type with a modifier behind its name**, in one token. -/
theorem ofToken?_scalar (options : Options) (hsuffix : ∀ c ∈ suffix.head?, c = '(') :
    ColumnType.ofToken? options (String.ofList (name.toList ++ suffix)) =
      some ⟨name, String.ofList suffix, .scalar⟩ := by
  refine ofToken?_ofList _ _ ((isPlainWord_scalar mem).not_mem rfl) hsuffix
    (normalize_scalar mem) ?_
  rw [element_scalar mem]
  exact family?_scalar mem options _

/-- **A scalar type without a modifier**, an array mark behind its name or none. -/
theorem ofToken?_scalar_mark (options : Options) (isArray : Bool) :
    ColumnType.ofToken? options (String.ofList (name.toList ++ markText isArray)) =
      some ⟨String.ofList (name.toList ++ markText isArray), "", .scalar⟩ := by
  have hplain := isPlainWord_scalar mem
  have hopen : ∀ isArray, '(' ∉ markText isArray := by decide
  have htoken : ColumnType.ofToken? options (String.ofList ((name.toList ++ markText isArray) ++ []))
      = some ⟨String.ofList (name.toList ++ markText isArray), "", .scalar⟩ := by
    refine ofToken?_ofList _ [] (fun h => ?_) nofun (normalize_of_isPlainWord hplain isArray) ?_
    · exact (List.mem_append.mp h).elim (hplain.not_mem rfl) (hopen isArray)
    · rw [element_of_isPlainWord hplain, String.ofList_toList]
      exact family?_scalar mem options _
  rwa [List.append_nil] at htoken

end Scalar

/-! ### The kinds of types -/

/-- A type of one token, which is complete. -/
theorem readsType_singleton {type : ColumnType} {token : String}
    (h : ColumnType.ofToken? options token = some type) (hf : type.family.state.IsTyped) :
    ReadsType options [token] type.name type.modifier :=
  ⟨token, [], type, _, id, rfl, h, hf, .refl, fun _ => rfl⟩

/-- A type option of words is a phrase of them. -/
theorem appendWord_phrase {parts : List (List Char)} (h : ∀ part ∈ parts, part ≠ [])
    (word : String) (column : Column) :
    Column.appendWord word { column with typeOptions := String.ofList (phrase parts) } =
      { column with typeOptions := String.ofList (phrase (parts ++ [word.toList])) } := by
  have hempty : String.ofList (phrase parts) = "" ↔ parts = [] := by
    rw [String.ofList_eq_empty_iff]
    cases parts with
    | nil => exact iff_of_true rfl rfl
    | cons part parts =>
      refine iff_of_false ?_ (List.cons_ne_nil _ _)
      have hpart := h part List.mem_cons_self
      cases parts with
      | nil => rwa [phrase_singleton]
      | cons next parts =>
        rw [phrase_cons_cons]
        exact List.append_ne_nil_of_left_ne_nil hpart _
  rw [Column.appendWord]
  by_cases hnil : parts = []
  · subst hnil
    simp [phrase]
  · rw [if_neg fun he => hnil (hempty.mp he), phrase_concat hnil]
    simp [String.ofList_append, String.append_assoc]

/-- **Words behind a phrase make it a longer one.** -/
theorem foldl_appendWord_phrase {parts : List (List Char)} {words : List String}
    (hparts : ∀ part ∈ parts, part ≠ []) (hwords : ∀ word ∈ words, word.toList ≠ [])
    (column : Column) :
    words.foldl (fun column word => Column.appendWord word column)
        { column with typeOptions := String.ofList (phrase parts) } =
      { column with typeOptions := String.ofList (phrase (parts ++ words.map String.toList)) } := by
  induction words generalizing parts with
  | nil => rw [List.map_nil, List.append_nil, List.foldl_nil]
  | cons word words ih =>
    obtain ⟨hword, hwords⟩ := List.forall_mem_cons.mp hwords
    have hmore : ∀ part ∈ parts ++ [word.toList], part ≠ [] :=
      List.forall_mem_append.mpr ⟨hparts, List.forall_mem_singleton.mpr hword⟩
    rw [List.foldl_cons, appendWord_phrase hparts, ih hmore hwords, List.append_assoc,
      List.singleton_append, List.map_cons]

/-- A digit token ends no modifier. -/
theorem ofList_ne (digits : Digits) : String.ofList digits.text ≠ ")" ∧
    String.ofList digits.text ≠ ";" := by
  have hne : ∀ c, Text.isWord c = false → String.ofList digits.text ≠ String.ofList [c] := by
    intro c hc h
    have hmem : c ∈ digits.text := by
      rw [String.ofList_injective h]
      exact List.mem_singleton_self c
    exact digits.isPlainWord.not_mem hc hmem
  exact ⟨hne ')' rfl, hne ';' rfl⟩

/-- A scalar type without a modifier is read: the mark stays with the name. -/
theorem readsType_scalar_none (options : Options) (mem : name ∈ scalarTypes) (isArray : Bool) :
    ReadsType options (PlainType.scalar name mem none isArray).tokens
      (PlainType.scalar name mem none isArray).dataType
      (PlainType.scalar name mem none isArray).options := by
  have hread := readsType_singleton (ofToken?_scalar_mark mem options isArray) (Or.inl rfl)
  have hdata : String.ofList (name.toList ++ markText isArray) =
      (PlainType.scalar name mem none isArray).dataType := by
    cases isArray with
    | false =>
      rw [markText, if_neg Bool.false_ne_true, List.append_nil, String.ofList_toList]
      rfl
    | true =>
      rw [String.ofList_append, String.ofList_toList]
      rfl
  rw [← hdata]
  exact hread

/-- A scalar type with a precision and a scale is read: the five tokens of the
modifier, and the mark behind them, are put together again. -/
theorem readsType_scalar_precision (options : Options) (mem : name ∈ scalarTypes)
    (digits scale : Digits) (isArray : Bool) :
    ReadsType options (PlainType.scalar name mem (some (.precision digits scale)) isArray).tokens
      (PlainType.scalar name mem (some (.precision digits scale)) isArray).dataType
      (PlainType.scalar name mem (some (.precision digits scale)) isArray).options := by
  have htoken := @ofToken?_scalar [] name mem options nofun
  rw [List.append_nil] at htoken
  have hinner : ∀ token ∈ [String.ofList digits.text, ",", String.ofList scale.text],
      token ≠ ")" ∧ token ≠ ";" := by
    simp [ofList_ne]
  have htyped : State.columnType.IsTyped := Or.inl rfl
  have hmodifier := changes_modifier options htyped hinner
  have htext : ("(" :: ([String.ofList digits.text, ",", String.ofList scale.text] ++ [")"])).foldl
      (· ++ ·) "" = String.ofList (modifierText (some (.precision digits scale))) := by
    apply String.toList_injective
    simp [modifierText]
  cases isArray with
  | false =>
    refine ⟨_, _, _, _, _, rfl, htoken, htyped, hmodifier, fun column => ?_⟩
    rw [Column.appendOptions]
    exact congrArg (fun text => { column with dataType := name, typeOptions := text })
      (htext.trans (congrArg String.ofList (List.append_nil _).symm))
  | true =>
    have hmark := changes_mark options htyped (by rfl : isMarkToken "[]" = true)
    refine ⟨_, _, _, _, _, rfl, htoken, htyped, hmodifier.append hmark, fun column => ?_⟩
    rw [Function.comp_apply, Column.appendOptions, Column.appendOption]
    exact congrArg (fun text => { column with dataType := name, typeOptions := text })
      ((congrArg (· ++ "[]") htext).trans (String.ofList_append ..).symm)

/-- **A scalar type is read.** -/
theorem readsType_scalar (options : Options) (mem : name ∈ scalarTypes) (modifier : Option Modifier)
    (isArray : Bool) :
    ReadsType options (PlainType.scalar name mem modifier isArray).tokens
      (PlainType.scalar name mem modifier isArray).dataType
      (PlainType.scalar name mem modifier isArray).options := by
  rcases modifier with _ | digits | ⟨digits, scale⟩
  · exact readsType_scalar_none options mem isArray
  · -- a length and the mark behind it stay with the name
    have htoken := @ofToken?_scalar (modifierText (some (.length digits)) ++ markText isArray)
      name mem options (by simp [modifierText])
    exact readsType_singleton htoken (Or.inl rfl)
  · exact readsType_scalar_precision options mem digits scale isArray

/-- Character strings of any length or up to one are read: the length stays with the
word `varying`. -/
theorem readsType_varying (options : Options) (length : Option Digits) :
    ReadsType options (PlainType.varying length).tokens (PlainType.varying length).dataType
      (PlainType.varying length).options := by
  have htoken : ColumnType.ofToken? options "character" = some ⟨"character", "", .character⟩ := rfl
  have hword : ∀ suffix, Changes options .characterType
      [String.ofList ("varying".toList ++ suffix)] .columnType
      (Column.appendWord (String.ofList ("varying".toList ++ suffix))) := by
    intro suffix
    refine changes_characterWord options ?_
    rw [beginsWith, String.toList_ofList, String.toList_ofList, Bool.or_eq_true]
    exact Or.inl (List.isPrefixOf_iff_prefix.mpr (List.prefix_append _ _))
  have htokens : (PlainType.varying length).tokens =
      ["character", String.ofList ("varying".toList ++ modifierText (length.map .length))] := by
    rw [← List.append_nil (modifierText _)]
    cases length <;> rfl
  refine ⟨_, _, _, _, _, htokens, htoken, Or.inl rfl, hword _, fun column => ?_⟩
  exact congrArg (fun text => { column with dataType := "character", typeOptions := text })
    String.empty_append

/-- Character strings of one length are read: the length stays with the type. -/
theorem readsType_character (options : Options) (length : Digits) :
    ReadsType options (PlainType.character length).tokens (PlainType.character length).dataType
      (PlainType.character length).options := by
  have hne : String.ofList (modifierText (some (.length length))) ≠ "" := by
    rw [ne_eq, String.ofList_eq_empty_iff]
    exact List.cons_ne_nil _ _
  have hfamily : ColumnType.family? options (ArrayMark.element "character")
      (String.ofList (modifierText (some (.length length)))) = some .scalar := by
    have helement : ArrayMark.element "character" = "character" := rfl
    rw [helement, ColumnType.family?, if_pos rfl, if_neg hne]
  have htoken := ofToken?_ofList "character".toList (modifierText (some (.length length)))
    (by decide) (by simp [modifierText]) rfl hfamily
  have htokens : (PlainType.character length).tokens =
      [String.ofList ("character".toList ++ modifierText (some (.length length)))] := by
    rw [← List.append_nil (modifierText _)]
    rfl
  rw [htokens]
  exact readsType_singleton htoken (Or.inl rfl)

/-- The token of a time or timestamp, with a precision or without one. -/
theorem ofToken?_clock (options : Options) (mem : name ∈ ["time", "timestamp"])
    (precision : Option Digits) :
    ColumnType.ofToken? options
        (String.ofList (name.toList ++ modifierText (precision.map .length))) =
      some ⟨name, String.ofList (modifierText (precision.map .length)), .clock⟩ := by
  have hsuffix : ∀ c ∈ (modifierText (precision.map .length)).head?, c = '(' := by
    cases precision <;> simp [modifierText]
  simp only [List.mem_cons, List.not_mem_nil, or_false] at mem
  rcases mem with rfl | rfl <;> exact ofToken?_ofList _ _ (by decide) hsuffix rfl rfl

/-- The words of a time zone, as tokens and as texts. -/
theorem exists_zoneWords (isWith : Bool) :
    ∃ word, (word = "with" ∨ word = "without") ∧
      (PlainType.zoneWords (some isWith)).flatMap TypeWord.tokens = [word, "time", "zone"] ∧
      (PlainType.zoneWords (some isWith)).map TypeWord.text =
        [word, "time", "zone"].map String.toList := by
  cases isWith with
  | false => exact ⟨"without", Or.inr rfl, rfl, rfl⟩
  | true => exact ⟨"with", Or.inl rfl, rfl, rfl⟩

/-- Times and timestamps are read: the words of a time zone are put behind the
precision, with blanks. -/
theorem readsType_clock (options : Options) (mem : name ∈ ["time", "timestamp"])
    (precision : Option Digits) (zone : Option Bool) :
    ReadsType options (PlainType.clock name mem precision zone).tokens
      (PlainType.clock name mem precision zone).dataType
      (PlainType.clock name mem precision zone).options := by
  have htoken := ofToken?_clock options mem precision
  have htokens : (PlainType.clock name mem precision zone).tokens =
      String.ofList (name.toList ++ modifierText (precision.map .length)) ::
        (PlainType.zoneWords zone).flatMap TypeWord.tokens := by
    rw [← List.append_nil (modifierText _)]
    cases precision <;> rfl
  let parts := precision.elim [] fun digits => [modifierText (some (.length digits))]
  have hphrase : modifierText (precision.map .length) = phrase parts := by
    cases precision with
    | none => rfl
    | some digits => exact (phrase_singleton _).symm
  cases zone with
  | none =>
    refine ⟨_, _, _, _, _, htokens, htoken, Or.inr rfl, .refl, fun column => ?_⟩
    rw [hphrase]
    cases precision <;> rfl
  | some isWith =>
    obtain ⟨word, hword, htail, htexts⟩ := exists_zoneWords isWith
    rw [htail] at htokens
    refine ⟨_, _, _, _, _, htokens, htoken, Or.inl rfl, changes_zone options hword, fun column => ?_⟩
    have hparts : ∀ part ∈ parts, part ≠ [] := by
      cases precision with
      | none => exact fun part h => absurd h List.not_mem_nil
      | some digits => exact List.forall_mem_singleton.mpr (List.cons_ne_nil _ _)
    have hwords : ∀ w ∈ [word, "time", "zone"], w.toList ≠ [] := by
      rcases hword with rfl | rfl <;> decide
    have happend := foldl_appendWord_phrase hparts hwords { column with dataType := name }
    rw [← hphrase, ← htexts] at happend
    refine happend.trans ?_
    cases precision <;> rfl

/-- Floating-point numbers are read. -/
theorem readsType_double (options : Options) :
    ReadsType options PlainType.double.tokens PlainType.double.dataType
      PlainType.double.options := by
  have htoken : ColumnType.ofToken? options "double" = some ⟨"double", "", .double⟩ := rfl
  have hword : Changes options .doubleType ["precision"] .columnType
    (Column.appendWord "precision") := changes_typeWord fun _ => rfl
  exact ⟨_, _, _, _, _, rfl, htoken, Or.inl rfl, hword, fun _ => rfl⟩

/-- **A plain type is read** as its data type and its type options say. -/
theorem PlainType.isRead (type : PlainType) (options : Options) :
    ReadsType options type.tokens type.dataType type.options := by
  cases type with
  | scalar name mem modifier isArray => exact readsType_scalar options mem modifier isArray
  | varying length => exact readsType_varying options length
  | character length => exact readsType_character options length
  | clock name mem precision zone => exact readsType_clock options mem precision zone
  | double => exact readsType_double options

end SqlCatalog
