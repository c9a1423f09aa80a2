import SqlCatalog.Proofs.Layout.Bytes
import SqlCatalog.Proofs.Noise.Part

/-!
# The rules for noise and the layout of a dump

Every rule for noise but one is *blind* to layout: of the same text in two layouts it
reads the same, be it nothing or a part that is again the same in two layouts
(`SqlCatalog.Noise.IsBlind`). The rule that is not is the one for comments, which ends
where the line does.

A rule meets a run of blanks in one of three ways.

| a rule | at a run of blanks |
|---|---|
| that looks for a keyword, a mark or a name | finds none |
| inside a literal, a body, a group or the tail of a clause | reads all of the run |
| behind the keyword of a clause | reads the run and the white space behind it |

So each rule has one lemma for a run of blanks (`SqlCatalog.Noise.closeLiteral_run` and
those like it), and is blind by induction on what the two texts have in common.
-/

namespace SqlCatalog

open Text

namespace Noise

/-! ### What is read alike -/

/-- **The same glyphs in another layout.** -/
abbrev Relaid (a b : List Glyph) : Prop :=
  Respaced Glyph.isGap a b

/-- **The same span in another layout**: what was read, and what follows it. -/
structure Span.Relaid (s t : Span) : Prop where
  /-- What was read. -/
  text : Noise.Relaid s.text t.text
  /-- What follows. -/
  rest : Noise.Relaid s.rest t.rest

/-- **A rule that does not see the layout.** -/
def IsBlind (read : List Glyph → Option Span) : Prop :=
  ∀ ⦃a b⦄, Relaid a b → Option.Rel Span.Relaid (read a) (read b)

variable {a b x y u gs : List Glyph} {word : List Char} {c : Char} {s t : Span}

theorem Span.Relaid.nothing (h : Noise.Relaid a b) : (nothing a).Relaid (nothing b) :=
  ⟨.nil, h⟩

theorem Span.Relaid.cons (h : s.Relaid t) (g : Glyph) : (s.cons g).Relaid (t.cons g) :=
  ⟨.cons g h.text, h.rest⟩

theorem Span.Relaid.before (h : s.Relaid t) (hxy : Noise.Relaid x y) :
    (s.before x).Relaid (t.before y) :=
  ⟨hxy.append h.text, h.rest⟩

section Rel

variable {α β : Type} {r : α → α → Prop} {r' : β → β → Prop} {o o' : Option α}

/-- Two options that are related are both empty or hold related values. -/
theorem rel_cases (h : Option.Rel r o o') :
    (o = none ∧ o' = none) ∨ ∃ i j, o = some i ∧ o' = some j ∧ r i j := by
  cases h with
  | none => exact Or.inl ⟨rfl, rfl⟩
  | some h => exact Or.inr ⟨_, _, rfl, rfl, h⟩

theorem rel_map {f g : α → β} (hfg : ∀ i j, r i j → r' (f i) (g j)) (h : Option.Rel r o o') :
    Option.Rel r' (o.map f) (o'.map g) := by
  cases h with
  | none => exact .none
  | some h => exact .some (hfg _ _ h)

end Rel

/-- What is read behind a glyph. -/
theorem rel_map_cons {o o' : Option Span} (h : Option.Rel Span.Relaid o o') (g : Glyph) :
    Option.Rel Span.Relaid (o.map (Span.cons g)) (o'.map (Span.cons g)) :=
  rel_map (fun _ _ h => h.cons g) h

/-- What is read behind the same glyphs. -/
theorem rel_map_before {o o' : Option Span} (h : Option.Rel Span.Relaid o o')
    (hxy : Relaid x y) :
    Option.Rel Span.Relaid (o.map (Span.before x)) (o'.map (Span.before y)) :=
  rel_map (fun _ _ h => h.before hxy) h

/-- Runs are the same in every layout. -/
theorem relaid_of_isRun {v : List Glyph} (hu : IsRun Glyph.isGap u) (hv : IsRun Glyph.isGap v) :
    Relaid u v := by
  simpa using Respaced.gap hu hv .nil

/-! ### Blanks -/

theorem isBlank_of_isGap (h : Token.isGap c) : isBlank c := by
  simp only [Token.isGap, Bool.or_eq_true, beq_iff_eq] at h
  rcases h with (((rfl | rfl) | rfl) | rfl) | rfl <;> rfl

/-- No mark is a blank. -/
theorem ne_of_isGap {d : Char} (h : Token.isGap c) (hd : Token.isGap d = false) : c ≠ d := by
  rintro rfl
  exact Bool.false_ne_true (hd.symm.trans h)

/-- A blank folds to itself. -/
theorem fold_ne_of_isGap {d : Char} (h : Token.isGap c) (hd : Token.isGap d = false) :
    fold c ≠ d := by
  rw [fold_of_isBlank (isBlank_of_isGap h)]
  exact ne_of_isGap h hd

/-- **A rule that goes on over a blank** goes on over a run of them. -/
theorem read_run {read : List Glyph → Option Span}
    (hread : ∀ c, Token.isGap c → ∀ gs,
      read (.char c :: gs) = (read gs).map (Span.cons (.char c)))
    (hu : ∀ g ∈ u, g.isGap) (a : List Glyph) :
    read (u ++ a) = (read a).map (Span.before u) := by
  refine gaps_induction Option.map_id'.symm (fun c u hc ih => ?_) hu
  rw [List.cons_append, hread c hc, ih, Span.map_cons_map_before]

/-! ### Keywords -/

/-- No keyword begins with a blank. -/
theorem keyword_run {k : Char} (hk : Token.isGap k = false) (hu : IsRun Glyph.isGap u) :
    keyword (k :: word) (u ++ a) = none := by
  obtain ⟨c, v, rfl, hc, -⟩ := hu.exists_char
  rw [List.cons_append, keyword, if_neg (fold_ne_of_isGap hc hk)]

/-- **A keyword** without blanks. -/
theorem isBlind_keyword (hword : ∀ c ∈ word, Token.isGap c = false) :
    IsBlind (keyword word) := by
  induction word with
  | nil => exact fun a b h => .some (.nothing h)
  | cons k word ih =>
    intro a b h
    obtain ⟨hk, hword⟩ := List.forall_mem_cons.mp hword
    cases h with
    | nil => exact .none
    | gap hu hv h =>
      rw [keyword_run hk hu, keyword_run hk hv]
      exact .none
    | cons g h =>
      cases g with
      | stray bytes => exact .none
      | char c =>
        rw [keyword, keyword]
        split
        · exact rel_map_cons (ih hword h) _
        · exact .none

/-- **A keyword and what it opens.** -/
theorem isBlind_opened {close : List Glyph → Option Span}
    (hword : ∀ c ∈ word, Token.isGap c = false) (hclose : IsBlind close) :
    IsBlind (opened word close) := by
  intro a b h
  rw [opened, opened]
  rcases rel_cases (isBlind_keyword hword h) with ⟨ha, hb⟩ | ⟨s, t, ha, hb, hst⟩
  · rw [ha, hb]
    exact .none
  · rw [ha, hb]
    exact rel_map_before (hclose hst.rest) hst.text

/-- The first of several rules that reads anything. -/
theorem isBlind_findSome? {α : Type} {read : α → List Glyph → Option Span} {xs : List α}
    (hread : ∀ x ∈ xs, IsBlind (read x)) : IsBlind fun gs => xs.findSome? fun x => read x gs := by
  intro a b h
  induction xs with
  | nil => exact .none
  | cons x xs ih =>
    obtain ⟨hx, hread⟩ := List.forall_mem_cons.mp hread
    dsimp only
    rw [List.findSome?_cons, List.findSome?_cons]
    rcases rel_cases (hx h) with ⟨ha, hb⟩ | ⟨s, t, ha, hb, hst⟩
    · rw [ha, hb]
      exact ih hread
    · rw [ha, hb]
      exact .some hst

/-! ### Bodies -/

/-- A body goes on over a run of blanks. -/
theorem closeBody_run {k : Char} (hk : Token.isGap k = false) (hu : ∀ g ∈ u, g.isGap) :
    closeBody (k :: word) (u ++ a) = (closeBody (k :: word) a).map (Span.before u) := by
  refine read_run (fun c hc gs => ?_) hu a
  rw [closeBody, keyword, if_neg (fold_ne_of_isGap hc hk)]

/-- **The rest of a body**, whose delimiter has no blanks. -/
theorem isBlind_closeBody {k : Char} (hk : Token.isGap k = false)
    (hword : ∀ c ∈ word, Token.isGap c = false) : IsBlind (closeBody (k :: word)) := by
  intro a b h
  induction h with
  | nil => exact .none
  | gap hu hv h ih =>
    rw [closeBody_run hk hu.blank, closeBody_run hk hv.blank]
    exact rel_map_before ih (relaid_of_isRun hu hv)
  | cons g h ih =>
    rw [closeBody.eq_def, closeBody.eq_def _ (g :: _)]
    dsimp only
    rcases rel_cases (isBlind_keyword (List.forall_mem_cons.mpr ⟨hk, hword⟩) (.cons g h)) with
      ⟨ha, hb⟩ | ⟨s, t, ha, hb, hst⟩
    · rw [ha, hb]
      cases g with
      | stray bytes => exact .none
      | char c => exact rel_map_cons ih _
    · rw [ha, hb]
      exact .some hst

theorem isBlind_dollarBody? : IsBlind dollarBody? := by
  have htags : ∀ tag ∈ dollarTags, ∀ c ∈ delimiter tag, Token.isGap c = false := by decide
  refine isBlind_findSome? fun tag htag => ?_
  obtain ⟨hk, hword⟩ := List.forall_mem_cons.mp (htags tag htag)
  exact isBlind_opened (htags tag htag) (isBlind_closeBody hk hword)

/-! ### Literals -/

/-- A literal goes on over a run of blanks. -/
theorem closeLiteral_run (escapes : Bool) (hu : ∀ g ∈ u, g.isGap) :
    closeLiteral escapes .inside (u ++ a) =
      (closeLiteral escapes .inside a).map (Span.before u) := by
  refine read_run (fun c hc gs => ?_) hu a
  have hmood : Mood.after escapes c = .inside := by
    simp [Mood.after, ne_of_isGap hc (by decide : Token.isGap quote = false),
      ne_of_isGap hc (by decide : Token.isGap backslash = false)]
  rw [closeLiteral, hmood]

/-- The first blank is the one behind the backslash. -/
theorem closeLiteral_escaped_run (escapes : Bool) {u : List Glyph} (hu : IsRun Glyph.isGap u)
    (a : List Glyph) : closeLiteral escapes .escaped (u ++ a) =
      (closeLiteral escapes .inside a).map (Span.before u) := by
  obtain ⟨c, v, rfl, -, hv⟩ := hu.exists_char
  rw [List.cons_append, closeLiteral, closeLiteral_run escapes hv, Span.map_cons_map_before]

/-- A literal that may end ends in front of blanks. -/
theorem closeLiteral_closed_run (escapes : Bool) {u : List Glyph} (hu : IsRun Glyph.isGap u)
    (a : List Glyph) :
    closeLiteral escapes .closed (u ++ a) = some (Span.nothing (u ++ a)) := by
  obtain ⟨c, v, rfl, hc, -⟩ := hu.exists_char
  rw [List.cons_append, closeLiteral, if_neg (ne_of_isGap hc (by decide))]

/-- **The rest of a literal.** -/
theorem isBlind_closeLiteral (escapes : Bool) (mood : Mood) :
    IsBlind (closeLiteral escapes mood) := by
  intro a b h
  induction h generalizing mood with
  | nil =>
    cases mood with
    | inside | escaped => exact .none
    | closed => exact .some (.nothing .nil)
  | cons g h ih =>
    cases g with
    | stray bytes =>
      cases mood with
      | inside | escaped => exact .none
      | closed => exact .some (.nothing (.cons _ h))
    | char c =>
      cases mood with
      | inside => exact rel_map_cons (ih _) _
      | escaped => exact rel_map_cons (ih _) _
      | closed =>
        rw [closeLiteral, closeLiteral]
        split
        · rcases rel_cases (ih .inside) with ⟨ha, hb⟩ | ⟨s, t, ha, hb, hst⟩
          · rw [ha, hb]
            exact .some (.nothing (.cons _ h))
          · rw [ha, hb]
            exact .some (hst.cons _)
        · exact .some (.nothing (.cons _ h))
  | gap hu hv h ih =>
    have hrun := relaid_of_isRun hu hv
    cases mood with
    | inside =>
      rw [closeLiteral_run escapes hu.blank, closeLiteral_run escapes hv.blank]
      exact rel_map_before (ih .inside) hrun
    | escaped =>
      rw [closeLiteral_escaped_run escapes hu, closeLiteral_escaped_run escapes hv]
      exact rel_map_before (ih .inside) hrun
    | closed =>
      rw [closeLiteral_closed_run escapes hu, closeLiteral_closed_run escapes hv]
      exact .some (.nothing (.gap hu hv h))

theorem isBlind_literal? (atBoundary : Bool) : IsBlind (literal? atBoundary) := by
  have hopened : ∀ escapes word, (∀ c ∈ word, Token.isGap c = false) →
      IsBlind (opened word (closeLiteral escapes .inside)) := fun escapes _ hword =>
    isBlind_opened hword (isBlind_closeLiteral escapes .inside)
  intro a b h
  rw [literal?, literal?]
  rcases rel_cases (hopened false [quote] (by decide) h) with
    ⟨ha, hb⟩ | ⟨s, t, ha, hb, hst⟩
  · rw [ha, hb]
    dsimp only
    split
    · exact hopened true ['e', quote] (by decide) h
    · exact .none
  · rw [ha, hb]
    exact .some hst

/-! ### Groups -/

/-- A group goes on over a run of blanks. -/
theorem closeGroup_run (depth level : Nat) (quoted : Bool) (hu : ∀ g ∈ u, g.isGap) :
    closeGroup depth level quoted (u ++ a) =
      (closeGroup depth level quoted a).map (Span.before u) := by
  refine read_run (fun c hc gs => ?_) hu a
  have hmark : ∀ d ∈ [quote, '(', ')'], c ≠ d := fun d hd =>
    ne_of_isGap hc ((by decide : ∀ d ∈ [quote, '(', ')'], Token.isGap d = false) d hd)
  cases quoted with
  | true => rw [closeGroup, bne_iff_ne.mpr (hmark quote (by decide))]
  | false =>
    rw [closeGroup, if_neg (hmark quote (by decide)), if_neg (hmark '(' (by decide)),
      if_neg (hmark ')' (by decide))]

/-- **The rest of a group.** -/
theorem isBlind_closeGroup (depth level : Nat) (quoted : Bool) :
    IsBlind (closeGroup depth level quoted) := by
  intro a b h
  induction h generalizing level quoted with
  | nil => exact .none
  | gap hu hv h ih =>
    rw [closeGroup_run depth level quoted hu.blank, closeGroup_run depth level quoted hv.blank]
    exact rel_map_before (ih level quoted) (relaid_of_isRun hu hv)
  | cons g h ih =>
    cases g with
    | stray bytes => exact .none
    | char c =>
      cases quoted with
      | true => exact rel_map_cons (ih _ _) _
      | false =>
        rw [closeGroup, closeGroup]
        split
        · exact rel_map_cons (ih _ _) _
        split
        · split
          · exact rel_map_cons (ih _ _) _
          · exact .none
        split
        · split
          · exact .some ⟨.refl _, h⟩
          · exact rel_map_cons (ih _ _) _
        · exact rel_map_cons (ih _ _) _

theorem isBlind_group (depth : Nat) : IsBlind (group depth) :=
  isBlind_opened (by decide) (isBlind_closeGroup depth 1 false)

theorem isBlind_call? (atBoundary : Bool) : IsBlind (call? atBoundary) := by
  have hnames : ∀ name ∈ volatileCalls, ∀ c ∈ name, Token.isGap c = false := by decide
  intro a b h
  cases atBoundary with
  | false => exact .none
  | true =>
    rw [call?, call?, if_pos rfl, if_pos rfl]
    exact isBlind_findSome?
      (fun name hname => isBlind_opened (hnames name hname) (isBlind_group maxNesting)) h

/-! ### Clauses -/

/-- White space that a rule reads goes on over a run of blanks. -/
theorem takeChars_isBlank_relaid (h : Relaid a b) :
    (takeChars isBlank a).Relaid (takeChars isBlank b) := by
  have hrun : ∀ {u : List Glyph}, (∀ g ∈ u, g.isGap) → ∀ a,
      takeChars isBlank (u ++ a) = (takeChars isBlank a).before u := by
    intro u hu a
    refine gaps_induction rfl (fun c u hc ih => ?_) hu
    rw [List.cons_append, takeChars, if_pos (isBlank_of_isGap hc), ih]
    rfl
  induction h with
  | nil => exact .nothing .nil
  | gap hu hv h ih =>
    rw [hrun hu.blank, hrun hv.blank]
    exact ih.before (relaid_of_isRun hu hv)
  | cons g h ih =>
    cases g with
    | stray bytes => exact .nothing (.cons _ h)
    | char c =>
      rw [takeChars, takeChars]
      split
      · exact ih.cons _
      · exact .nothing (.cons _ h)

/-- **Spans of one text**, whose rests are the same in two layouts. -/
def Span.SameText (s t : Span) : Prop :=
  s.text = t.text ∧ Noise.Relaid s.rest t.rest

theorem Span.SameText.relaid (h : s.SameText t) : s.Relaid t :=
  ⟨h.1 ▸ .refl _, h.2⟩

/-- A name ends at a run of blanks. -/
theorem takeChars_isNameChar_relaid (h : Relaid a b) :
    (takeChars isNameChar a).SameText (takeChars isNameChar b) := by
  have hrun : ∀ {u : List Glyph}, IsRun Glyph.isGap u → ∀ a,
      takeChars isNameChar (u ++ a) = Span.nothing (u ++ a) := by
    intro u hu a
    obtain ⟨c, v, rfl, hc, -⟩ := hu.exists_char
    have hname : isNameChar c = false := by
      rw [isNameChar, isWord_of_isBlank (isBlank_of_isGap hc),
        beq_eq_false_iff_ne.mpr (ne_of_isGap hc (by decide : Token.isGap '.' = false)),
        beq_eq_false_iff_ne.mpr (ne_of_isGap hc (by decide : Token.isGap '$' = false))]
      rfl
    rw [List.cons_append, takeChars, hname]
    rfl
  induction h with
  | nil => exact ⟨rfl, .nil⟩
  | gap hu hv h ih =>
    rw [hrun hu, hrun hv]
    exact ⟨rfl, .gap hu hv h⟩
  | cons g h ih =>
    cases g with
    | stray bytes => exact ⟨rfl, .cons _ h⟩
    | char c =>
      rw [takeChars, takeChars]
      split
      · exact ⟨congrArg (List.cons _) ih.1, ih.2⟩
      · exact ⟨rfl, .cons _ h⟩

/-- So does a mark that may come next not come there. -/
theorem optionalChar_relaid (hc : Token.isGap c = false) (h : Relaid a b) :
    (optionalChar c a).SameText (optionalChar c b) := by
  have hrun : ∀ {u : List Glyph}, IsRun Glyph.isGap u → ∀ a,
      optionalChar c (u ++ a) = Span.nothing (u ++ a) := by
    intro u hu a
    obtain ⟨d, v, rfl, hd, -⟩ := hu.exists_char
    rw [List.cons_append, optionalChar, if_neg fun h => ne_of_isGap hd hc (Glyph.char.inj h)]
  cases h with
  | nil => exact ⟨rfl, .nil⟩
  | gap hu hv h =>
    rw [hrun hu, hrun hv]
    exact ⟨rfl, .gap hu hv h⟩
  | cons g h =>
    rw [optionalChar, optionalChar]
    split
    · exact ⟨rfl, h⟩
    · exact ⟨rfl, .cons _ h⟩

/-- **The name of a constraint** has no blanks. -/
theorem constraintName_relaid (h : Relaid a b) :
    Option.Rel Span.SameText (constraintName a) (constraintName b) := by
  obtain ⟨hbefore, h⟩ := optionalChar_relaid (c := Identifier.doubleQuote) (by decide) h
  obtain ⟨hname, h⟩ := takeChars_isNameChar_relaid h
  obtain ⟨hafter, h⟩ := optionalChar_relaid (c := Identifier.doubleQuote) (by decide) h
  unfold constraintName
  dsimp only
  rw [hbefore, hname]
  split
  · exact .none
  · refine .some ⟨?_, h⟩
    simp only [Span.text_before, hafter]

theorem isBlind_tailPart? (atBoundary : Bool) : IsBlind (tailPart? atBoundary) := by
  intro a b h
  rw [tailPart?, tailPart?]
  rcases rel_cases (isBlind_literal? atBoundary h) with ⟨ha, hb⟩ | ⟨s, t, ha, hb, hst⟩
  · rw [ha, hb]
    exact isBlind_group maxNesting h
  · rw [ha, hb]
    exact .some hst

/-- A tail goes on over a blank, and behind one it is at a word boundary. -/
theorem clauseTail_gap {atBoundary : Bool} (hc : Token.isGap c) (gs : List Glyph) :
    clauseTail atBoundary (.char c :: gs) = (clauseTail true gs).cons (.char c) := by
  have hends : endsTail c = false := by
    simp [endsTail, ne_of_isGap hc (by decide : Token.isGap '(' = false),
      ne_of_isGap hc (by decide : Token.isGap ')' = false),
      ne_of_isGap hc (by decide : Token.isGap ',' = false),
      ne_of_isGap hc (by decide : Token.isGap ';' = false),
      ne_of_isGap hc (by decide : Token.isGap quote = false)]
  have hliteral : literal? atBoundary (.char c :: gs) = none :=
    literal?_eq_none (ne_of_isGap hc (by decide)) fun _ he =>
      absurd he (fold_ne_of_isGap hc (by decide))
  have hgroup : group maxNesting (.char c :: gs) = none := group_of_ne (ne_of_isGap hc (by decide))
  rw [clauseTail_of_char ((tailPart?_of_none hliteral).trans hgroup), hends,
    isWord_of_isBlank (isBlank_of_isGap hc)]
  rfl

/-- So does it over a run of blanks. -/
theorem clauseTail_run {atBoundary : Bool} (hu : IsRun Glyph.isGap u) (a : List Glyph) :
    clauseTail atBoundary (u ++ a) = (clauseTail true a).before u := by
  obtain ⟨c, v, rfl, hc, hv⟩ := hu.exists_char
  clear hu
  induction v generalizing c atBoundary with
  | nil => exact clauseTail_gap hc a
  | cons g v ih =>
    obtain ⟨hg, hrest⟩ := List.forall_mem_cons.mp hv
    cases g with
    | stray bytes => cases hg
    | char d =>
      rw [List.cons_append, clauseTail_gap hc, ih d hg hrest]
      rfl

/-- **The tail of a clause.** -/
theorem clauseTail_relaid (atBoundary : Bool) (h : Relaid a b) :
    (clauseTail atBoundary a).Relaid (clauseTail atBoundary b) := by
  induction hn : a.length using Nat.strongRecOn generalizing a b atBoundary with
  | _ n ih =>
    subst hn
    cases h with
    | nil => exact ⟨.refl _, .refl _⟩
    | gap hu hv h =>
      rw [clauseTail_run hu, clauseTail_run hv]
      exact (ih _ (by simpa using hu.length_pos) true h rfl).before (relaid_of_isRun hu hv)
    | cons g h =>
      rcases rel_cases (isBlind_tailPart? atBoundary (.cons g h)) with
        ⟨ha, hb⟩ | ⟨s, t, ha, hb, hst⟩
      · cases g with
        | stray bytes =>
          rw [clauseTail_of_none ha (by simp), clauseTail_of_none hb (by simp)]
          exact .nothing (.cons _ h)
        | char c =>
          rw [clauseTail_of_char ha, clauseTail_of_char hb]
          split
          · exact .nothing (.cons _ h)
          · exact (ih _ (Nat.lt_succ_self _) _ h rfl).cons _
      · rw [clauseTail_of_part ha, clauseTail_of_part hb]
        exact (ih _ (length_rest_of_tailPart? ha) true hst.rest rfl).before hst.text

/-- **A clause**: its name is the same in both layouts. -/
theorem clause?_relaid (atBoundary : Bool) (h : Relaid a b) :
    Option.Rel (fun c d => c.name = d.name ∧ c.span.Relaid d.span) (clause? atBoundary a)
      (clause? atBoundary b) := by
  cases atBoundary with
  | false => exact .none
  | true =>
    have hblind : IsBlind (keyword clauseKeyword) := isBlind_keyword (by decide)
    rw [clause?, clause?, if_pos rfl, if_pos rfl]
    rcases rel_cases (hblind h) with ⟨ha, hb⟩ | ⟨word, word', ha, hb, hword⟩
    · rw [ha, hb]
      exact .none
    · rw [ha, hb, Option.bind_some, Option.bind_some]
      have hgap := takeChars_isBlank_relaid hword.rest
      dsimp only
      by_cases hnil : (takeChars isBlank word.rest).text = []
      · rw [if_pos hnil, if_pos (hgap.text.eq_nil_iff.mp hnil)]
        exact .none
      · rw [if_neg hnil, if_neg (mt hgap.text.eq_nil_iff.mpr hnil)]
        refine rel_map (fun name name' hname => ⟨hname.1, ?_⟩) (constraintName_relaid hgap.rest)
        exact (((clauseTail_relaid true hname.2).before hname.relaid.text).before
          hgap.text).before hword.text

end Noise

end SqlCatalog
