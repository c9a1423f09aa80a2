import SqlCatalog.Proofs.Column.Frame
import SqlCatalog.Proofs.Column.Type
import SqlCatalog.Proofs.FieldType
import SqlCatalog.Proofs.Options.Normal
import SqlCatalog.Proofs.Schema.TypeReading

/-!
# Arrays of a type

To make arrays of a type the array mark is put behind it, and it ends up behind whatever of the
type has been read last: behind the type options of the column, or behind its data type when there
are none (`SqlCatalog.Column.asArray`). Such a column is one of arrays, and the elements are what
the column held without the mark, so its field type is the vector of theirs
(`SqlCatalog.Column.fieldType?_asArray`).

For the tokens it is no different. The mark touches the last token of the type, unless that is a
bracket that stands alone; then it is a token of its own (`SqlCatalog.markLast`). A token that
names a type names its arrays with the mark behind it
(`SqlCatalog.ColumnType.ofToken?_append_mark`), and so it is with the tokens that may end the tail
of a type, a word behind `character` among them (`SqlCatalog.changes_arrayTail`). Two words are
excepted: behind `double` just `precision` is known, and `zone` behind the word `time`, with
nothing behind them (`SqlCatalog.arrayFault?`).
-/

namespace SqlCatalog

open Identifier Text

/-! ### Array marks -/

namespace ArrayMark

/-- The mark as a token. -/
def markToken : String :=
  String.ofList mark

theorem toList_append_markToken (text : String) :
    (text ++ markToken).toList = text.toList ++ mark := by
  rw [String.toList_append, markToken, String.toList_ofList]

@[simp] theorem isMarked_append (text : String) : isMarked (text ++ markToken) = true := by
  rw [isMarked, toList_append_markToken, List.isSuffixOf_iff_suffix]
  exact List.suffix_append ..

/-- **The elements of arrays of a type** are those of the type. -/
@[simp] theorem element_append (type : String) : element (type ++ markToken) = element type := by
  rw [element, toList_append_markToken, List.reverse_append]
  rfl

/-- A text is not marked when it holds no opening square bracket. -/
theorem isMarked_eq_false {text : String} (h : '[' ∉ text.toList) : isMarked text = false := by
  rw [isMarked, ← Bool.not_eq_true, List.isSuffixOf_iff_suffix]
  exact fun hsuffix => h (hsuffix.subset List.mem_cons_self)

/-- A text with a mark behind it is not empty. -/
theorem append_ne (text : String) : text ++ markToken ≠ "" := by
  intro h
  have hlist := congrArg String.toList h
  rw [toList_append_markToken] at hlist
  exact absurd hlist (List.append_ne_nil_of_right_ne_nil _ (List.cons_ne_nil _ _))

end ArrayMark

open ArrayMark

/-- The mark stays behind a name in normal form. -/
theorem normalize_append_mark (name : String) :
    normalize (name ++ markToken) = normalize name ++ markToken := by
  have hreverse : (name.toList ++ mark).reverse = ']' :: '[' :: name.toList.reverse := by
    rw [List.reverse_append]
    rfl
  have hafter : afterLast '.' (name.toList ++ mark) = afterLast '.' name.toList ++ mark := by
    rw [afterLast, hreverse, List.takeWhile_cons_of_pos (by decide),
      List.takeWhile_cons_of_pos (by decide), List.reverse_cons, List.reverse_cons,
      List.append_assoc, afterLast]
    rfl
  have hdrop : dropQuotes mark = mark := by decide
  have hlower : lower mark = mark := by decide
  have hquotes : ∀ text, dropQuotes (text ++ mark) = dropQuotes text ++ mark := fun text => by
    rw [dropQuotes, List.filter_append, ← dropQuotes, ← dropQuotes, hdrop]
  have hletters : ∀ text, lower (text ++ mark) = lower text ++ mark := fun text => by
    rw [lower, List.map_append, ← lower, ← lower, hlower]
  rw [Identifier.normalize, toList_append_markToken, hafter, hquotes, hletters,
    String.ofList_append]
  rfl

/-! ### Columns of arrays -/

namespace Column

variable {column : Column}

/-- **The column of arrays** of what a column holds: the mark stands behind what is said of its
type. -/
def asArray (column : Column) : Column :=
  if column.typeOptions = "" then { column with dataType := column.dataType ++ markToken }
  else { column with typeOptions := column.typeOptions ++ markToken }

/-- Flags do not matter to it. -/
theorem passesFlags_asArray : PassesFlags asArray where
  name column := by by_cases h : column.typeOptions = "" <;> simp [asArray, h]
  asKey column := by by_cases h : column.typeOptions = "" <;> simp [asArray, asKey, h]
  notNull column := by by_cases h : column.typeOptions = "" <;> simp [asArray, h]
  hasDefault column := by by_cases h : column.typeOptions = "" <;> simp [asArray, h]

@[simp] theorem isNotNull_asArray (column : Column) :
    column.asArray.isNotNull = column.isNotNull := by
  rw [asArray]
  split <;> rfl

/-- **It holds arrays.** -/
@[simp] theorem isArray_asArray (column : Column) : column.asArray.isArray = true := by
  rw [asArray]
  split <;> simp [isArray]

/-- A column holds no arrays when its type is said without opening square brackets. -/
theorem isArray_eq_false (htype : '[' ∉ column.dataType.toList)
    (hoptions : '[' ∉ column.typeOptions.toList) : column.isArray = false := by
  rw [isArray, isMarked_eq_false htype, isMarked_eq_false hoptions, Bool.or_false]

/-- **The elements are mapped** as what the column holds. -/
theorem mappedType_asArray (column : Column) : column.asArray.mappedType = column.mappedType := by
  rw [asArray]
  split
  · simp [mappedType]
  · have hzone : zoneWords.getLast? = some 'e' := rfl
    simp only [mappedType, toList_append_markToken]
    rw [occursIn_append hzone (by decide)]

/-- **The field type of arrays** is the vector of the field type of their elements, and the option
of it where null is allowed. -/
theorem fieldType?_asArray (h : column.isArray = false) :
    column.asArray.fieldType? =
      { column with isNotNull := true }.fieldType?.map fun field =>
        if column.isNotNull then vectorOf field else optionOf (vectorOf field) := by
  have helement : { column with isNotNull := true }.isArray = false := h
  have hmapped : { column with isNotNull := true }.mappedType = column.mappedType := rfl
  simp only [fieldType?, mappedType_asArray, isArray_asArray, isNotNull_asArray, hmapped, helement,
    Option.map_map]
  refine congrArg (Option.map · _) (funext fun row => ?_)
  cases column.isNotNull
  · exact optionOf_vec row.field
  · rfl

end Column

/-! ### The token that names a type -/

namespace ColumnType

variable {options : Options} {token : String} {type : ColumnType}

/-- **The type of arrays** of a type as its first token gives it. -/
def asArray (type : ColumnType) : ColumnType :=
  if type.modifier = "" then { type with name := type.name ++ markToken }
  else { type with modifier := type.modifier ++ markToken }

theorem asArray_of_ne (h : type.modifier ≠ "") :
    type.asArray = { type with modifier := type.modifier ++ markToken } :=
  if_neg h

/-- A token by its two parts. -/
theorem exists_cut (token : String) :
    ∃ base suffix, token = String.ofList (base ++ suffix) ∧ '(' ∉ base ∧
      ∀ c ∈ suffix.head?, c = '(' := by
  refine ⟨token.toList.takeWhile (· != '('), token.toList.dropWhile (· != '('), ?_, ?_, ?_⟩
  · rw [List.takeWhile_append_dropWhile, String.ofList_toList]
  · intro hmem
    have hopen := List.all_eq_true.mp List.all_takeWhile _ hmem
    exact absurd hopen (by decide)
  · intro c hc
    have hnot := List.head?_dropWhile_not (· != '(') token.toList
    rw [Option.mem_def.mp hc] at hnot
    simpa using hnot

/-- All modifiers are alike. -/
theorem family?_congr {element modifier modifier' : String} (h : modifier ≠ "")
    (h' : modifier' ≠ "") :
    family? options element modifier = family? options element modifier' := by
  simp only [family?, h, h', and_false, if_false]

/-- A token is cut with the mark behind it where it is without. -/
theorem cutModifier_append_mark (token : String) :
    cutModifier (token ++ markToken) =
      if (cutModifier token).2 = "" then ((cutModifier token).1 ++ markToken, "")
      else ((cutModifier token).1, (cutModifier token).2 ++ markToken) := by
  obtain ⟨base, suffix, rfl, hbase, hsuffix⟩ := exists_cut token
  have htoken : ∀ text, String.ofList text ++ markToken = String.ofList (text ++ mark) :=
    fun text => by rw [markToken, ← String.ofList_append]
  rw [htoken, cutModifier_ofList hbase hsuffix]
  cases suffix with
  | nil =>
    have hmark : '(' ∉ base ++ mark := fun hmem =>
      (List.mem_append.mp hmem).elim hbase (by decide)
    have hcut := @cutModifier_ofList (base ++ mark) [] hmark nofun
    rw [List.append_nil] at hcut
    rw [List.append_nil, hcut, if_pos rfl, htoken]
  | cons c suffix =>
    have hcut := @cutModifier_ofList base (c :: suffix ++ mark) hbase hsuffix
    have hne : String.ofList (c :: suffix) ≠ "" := by
      intro h
      have hlist := congrArg String.toList h
      rw [String.toList_ofList] at hlist
      cases hlist
    rw [List.append_assoc, hcut, if_neg hne, htoken]

theorem ofToken?_of_cut {base modifier : String} (h : cutModifier token = (base, modifier)) :
    ofToken? options token =
      (family? options (element (normalize base)) modifier).map fun family =>
        ⟨normalize base, modifier, family⟩ := by
  rw [ofToken?_eq, elementOf, h]

/-- **A token with the mark behind it** names the arrays of what it names without. -/
theorem ofToken?_append_mark (options : Options) (token : String) :
    ofToken? options (token ++ markToken) = (ofToken? options token).map asArray := by
  have happend := cutModifier_append_mark token
  cases hcut : cutModifier token with
  | mk base modifier =>
    rw [hcut] at happend
    dsimp only at happend
    rw [ofToken?_of_cut hcut, Option.map_map]
    by_cases hempty : modifier = ""
    · rw [if_pos hempty] at happend
      rw [ofToken?_of_cut happend, normalize_append_mark, element_append, hempty]
      rfl
    · rw [if_neg hempty] at happend
      rw [ofToken?_of_cut happend, family?_congr (append_ne _) hempty]
      exact Option.map_congr fun family _ => (@asArray_of_ne ⟨_, _, family⟩ hempty).symm

/-- No opening square bracket comes from nowhere. -/
theorem not_mem_of_ofToken? (h : ofToken? options token = some type) (hb : '[' ∉ token.toList) :
    '[' ∉ type.name.toList ∧ '[' ∉ type.modifier.toList := by
  obtain ⟨base, suffix, rfl, hbase, hsuffix⟩ := exists_cut token
  rw [String.toList_ofList] at hb
  rw [ofToken?_eq, cutModifier_ofList hbase hsuffix] at h
  obtain ⟨family, -, rfl⟩ := Option.map_eq_some_iff.mp h
  refine ⟨fun hmem => hb (List.mem_append_left _ ?_), fun hmem => hb (List.mem_append_right _ ?_)⟩
  · rw [Identifier.normalize, String.toList_ofList, String.toList_ofList] at hmem
    obtain ⟨c, hc, hlower⟩ := List.mem_map.mp hmem
    rw [(toLower_eq_iff_of_not_isWord rfl).mp hlower, dropQuotes, afterLast] at hc
    have hreverse := (List.takeWhile_sublist _).subset
      (List.mem_reverse.mp (List.mem_filter.mp hc).1)
    exact List.mem_reverse.mp hreverse
  · rwa [String.toList_ofList] at hmem

end ColumnType

/-! ### The tokens behind it -/

/-- **Tokens with the mark behind the last one**, in a token of its own behind a bracket. -/
def markLast : List String → List String
  | [] => [markToken]
  | [token] => if token = ")" then [token, markToken] else [token ++ markToken]
  | token :: next :: tokens => token :: markLast (next :: tokens)

/-- **The token that is rejected** when the mark is put behind the tokens of a type; `none` if none
is. A type of one token is never refused. -/
def arrayFault? (tokens : List String) : Option String :=
  (tokens.tail.getLast?.filter fun word => word = "precision" ∨ word = "zone").map (· ++ markToken)

variable {options : Options} {family : TypeFamily} {tokens tail : List String} {word : String}

/-- The mark is put behind the last of the tokens. -/
theorem markLast_append (tokens : List String) (h : tail ≠ []) :
    markLast (tokens ++ tail) = tokens ++ markLast tail := by
  induction tokens with
  | nil => rfl
  | cons token tokens ih =>
    obtain ⟨next, more, hmore⟩ := List.exists_cons_of_ne_nil
      (List.append_ne_nil_of_right_ne_nil tokens h)
    rw [List.cons_append, List.cons_append, ← ih, hmore, markLast]

theorem markLast_singleton (h : word ≠ ")") : markLast [word] = [word ++ markToken] := by
  rw [markLast, if_neg h]

/-- A token begins as it does with more behind it. -/
theorem beginsWith_append {text token : String} (h : beginsWith text token = true)
    (more : String) : beginsWith text (token ++ more) = true := by
  rw [beginsWith, List.isPrefixOf_iff_prefix] at h ⊢
  rw [String.toList_append]
  exact h.trans (List.prefix_append ..)

/-- A modifier or an array mark is one with the mark behind it. -/
theorem isMarkToken_append_mark (h : isMarkToken word = true) :
    isMarkToken (word ++ markToken) = true := by
  have hne : word ++ markToken ≠ "(" := by
    intro heq
    have hlength := congrArg (List.length ∘ String.toList) heq
    rw [Function.comp_apply, toList_append_markToken, List.length_append] at hlength
    exact absurd hlength (by simp [mark])
  rw [isMarkToken, Bool.and_eq_true, Bool.or_eq_true] at h ⊢
  exact ⟨h.1.imp (beginsWith_append · _) (beginsWith_append · _), bne_iff_ne.mpr hne⟩

/-- Behind a modifier that is cut into tokens the mark is a token of its own. -/
theorem markLast_modifier (tokens inner : List String) :
    markLast (tokens ++ "(" :: (inner ++ [")"])) =
      (tokens ++ "(" :: (inner ++ [")"])) ++ [markToken] := by
  have hclose : markLast [")"] = [")"] ++ [markToken] := if_pos rfl
  rw [← List.cons_append, ← List.append_assoc, markLast_append _ (List.cons_ne_nil _ _), hclose,
    ← List.append_assoc]

/-- The word behind `character` is told by what it begins with, so the mark may be attached. -/
theorem changes_characterWord_mark (options : Options)
    (h : beginsWith "varying" word || beginsWith "(" word) :
    Changes options .characterType [word ++ markToken] .columnType fun column =>
      { column with typeOptions := (Column.appendWord word column).typeOptions ++ markToken } := by
  have hmarked : (beginsWith "varying" (word ++ markToken) ||
      beginsWith "(" (word ++ markToken)) = true := by
    rw [Bool.or_eq_true] at h ⊢
    exact h.imp (beginsWith_append · _) (beginsWith_append · _)
  have hchange : Column.appendWord (word ++ markToken) = fun column =>
      { column with typeOptions := (Column.appendWord word column).typeOptions ++ markToken } :=
    funext fun column => by rw [Column.appendWord, Column.appendWord, ← String.append_assoc]
  exact hchange ▸ changes_characterWord options hmarked

/-- **A tail with the mark behind it** is read as it is without, and the mark is put behind the
type options. -/
theorem changes_arrayTail (options : Options) (h : TypeTail family tail) (hne : tail ≠ [])
    (hlast : ∀ word ∈ tail.getLast?, word ≠ "precision" ∧ word ≠ "zone") :
    ∃ text : String → String, IsJoined tail text ∧ (∀ typeOptions, text typeOptions ≠ "") ∧
      (Changes options family.state tail .columnType
        fun column => { column with typeOptions := text column.typeOptions }) ∧
      Changes options family.state (markLast tail) .columnType
        fun column => { column with typeOptions := text column.typeOptions ++ markToken } := by
  -- a text with a token behind it that is not empty
  have hnonempty : ∀ {text word : String}, word ≠ "" → text ++ word ≠ "" := fun hword htext =>
    hword (String.append_eq_empty_iff.mp htext).2
  cases h with
  | scalar | clock => exact absurd rfl hne
  | zone => exact absurd rfl (hlast "zone" rfl).2
  | double => exact absurd rfl (hlast "precision" rfl).1
  | @character word hword =>
    have hclose : word ≠ ")" := by
      rintro rfl
      exact absurd hword (by decide)
    have hempty : word ≠ "" := by
      rintro rfl
      exact absurd hword (by decide)
    refine ⟨_, IsJoined.nil.word word, fun _ => hnonempty hempty,
      changes_characterWord options hword, ?_⟩
    rw [markLast_singleton hclose]
    exact changes_characterWord_mark options hword
  | @mark _ tokens token htail hm =>
    obtain ⟨last, text, htyped, hjoined, hread⟩ := changes_typeTail options htail
    have hmark := ne_of_isMarkToken hm
    refine ⟨_, hjoined.append [token], fun _ => hnonempty (hmark "" rfl),
      hread.append (changes_mark options htyped hm), ?_⟩
    rw [markLast_append tokens (List.cons_ne_nil _ _), markLast_singleton (hmark ")" rfl)]
    have hall := hread.append (changes_mark options htyped (isMarkToken_append_mark hm))
    simpa only [Column.appendOption, Function.comp_def, List.foldl_cons, List.foldl_nil,
      String.append_assoc] using hall
  | @modifier _ tokens inner htail hi =>
    obtain ⟨last, text, htyped, hjoined, hread⟩ := changes_typeTail options htail
    have hall := hread.append (changes_modifier options htyped hi)
    have hmark : isMarkToken markToken = true := by decide
    refine ⟨_, hjoined.append ("(" :: (inner ++ [")"])), fun _ => ?_, hall, ?_⟩
    · rw [← List.cons_append, List.foldl_append]
      exact hnonempty (by decide)
    · rw [markLast_modifier]
      exact hall.append (changes_mark options (Or.inl rfl) hmark)

/-- **A word that stands alone** at the end of a tail is not known with the mark behind it. -/
theorem TypeTail.exists_rejected (options : Options) (h : TypeTail family tail)
    (hlast : tail.getLast? = some word) (hword : word = "precision" ∨ word = "zone") :
    ∃ before state change, tail = before ++ [word] ∧
      Changes options family.state before state change ∧
      ∀ draft, step options state draft (word ++ markToken) =
        Step.unexpected (word ++ markToken) draft := by
  cases h with
  | scalar | clock => cases hlast
  | double =>
    obtain rfl := Option.some.inj hlast
    exact ⟨[], _, id, rfl, .refl, fun _ => rfl⟩
  | @zone word' hzone =>
    obtain rfl := Option.some.inj hlast
    exact ⟨[word', "time"], _, _, rfl, changes_zoneTime options hzone, fun _ => rfl⟩
  | character hbegins =>
    obtain rfl := Option.some.inj hlast
    rcases hword with rfl | rfl <;> exact absurd hbegins (by decide)
  | mark _ hm =>
    rw [List.getLast?_concat] at hlast
    obtain rfl := Option.some.inj hlast
    rcases hword with rfl | rfl <;> exact absurd hm (by decide)
  | modifier =>
    rw [← List.cons_append, ← List.append_assoc, List.getLast?_concat] at hlast
    obtain rfl := Option.some.inj hlast
    rcases hword with hword | hword <;> exact absurd hword (by decide)

end SqlCatalog
