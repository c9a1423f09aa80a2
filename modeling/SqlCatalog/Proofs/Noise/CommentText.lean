import SqlCatalog.Proofs.Noise.Exchange

/-!
# What a comment says

A comment goes to the end of its line, and a dump should be read as if it were not
there. Most often it is: the rule for comments reads it, and the line ends where it
would end without the comment. But a rule that has begun in front of a comment may
read it as a part of what it reads. It is harmless there too, as long as it holds
none of the characters that end the tail of a clause, and nothing else is read at
its place without it (`SqlCatalog.Noise.IsHarmless`).

A harmless comment does not change the tokens of a dump, unless it stands in a clause
that declares a primary key, which is kept with the comment in it
(`SqlCatalog.Noise.tokensOf_comment_iff`). A comment that is not harmless may: with a
comma in it, it ends the clause that it stands in, and the rest of the comment is read
as part of the dump (`SqlCatalog.Noise.comma_in_comment_is_read`).
-/

namespace SqlCatalog

open Text

namespace Noise

/-- **A comment that does no harm** where the noise at its place is of the kind
`kind`, and of the kind `kind'` at the end of the line without it: it is read as a
comment and nothing else is read there, or both are read as a part of the same, and
the comment cannot end it. -/
def IsHarmless (kind kind' : Option Kind) (comment : List Char) : Prop :=
  kind = some .comment ∧ kind' = none ∨
    kind = kind' ∧ ∀ c ∈ comment, endsTail c = false

instance (kind kind' : Option Kind) (comment : List Char) :
    Decidable (IsHarmless kind kind' comment) :=
  inferInstanceAs (Decidable (_ ∨ _))

variable {text comment rest s t : List Char} {c : Char} {atBoundary : Bool} {sight : Sight}
  {gs : List Glyph}

/-! ### Where no noise begins -/

/-- No noise begins inside a word. -/
theorem noise?_of_isWord (hc : isWord c) : noise? false (.char c :: gs) = none := by
  have hmarks : ∀ d ∈ [quote, '$', '-'], ¬isWord d := by decide
  have hquote : c ≠ quote := fun h => hmarks _ List.mem_cons_self (h ▸ hc)
  have hliteral : literal? false (.char c :: gs) = none := literal?_eq_none hquote nofun
  rw [noise?_of_unmarked (fun h => hmarks c h hc) hliteral]
  rfl

/-- Nor does any begin at white space. -/
theorem noise?_of_isBlank (hc : isBlank c) : noise? atBoundary (.char c :: gs) = none := by
  have hmarks : ∀ d ∈ [quote, '$', '-'], ¬isBlank d := by decide
  have hletters : ∀ d ∈ ['e', 't', 'n', 'c'], ¬isBlank d := by decide
  have hfold : fold c ∉ ['e', 't', 'n', 'c'] := fun hmem =>
    hletters _ hmem (by rwa [fold_of_isBlank hc])
  obtain ⟨he, hcall, hclause⟩ : fold c ≠ 'e' ∧ fold c ∉ ['t', 'n'] ∧ fold c ≠ 'c' := by
    simp only [List.mem_cons, List.not_mem_nil, or_false, not_or] at hfold ⊢
    exact ⟨hfold.1, ⟨hfold.2.1, hfold.2.2.1⟩, hfold.2.2.2⟩
  have hliteral : literal? atBoundary (.char c :: gs) = none :=
    literal?_eq_none (fun h => hmarks _ List.mem_cons_self (h ▸ hc)) fun _ h => absurd h he
  rw [noise?_of_unmarked (fun h => hmarks c h hc) hliteral, call?_of_ne hcall,
    clause?_of_ne hclause]
  rfl

/-- Nothing is in sight behind it. -/
theorem pass_of_isBlank (hc : isBlank c) : sight.pass (.char c) = .clear := by
  rw [Sight.pass, isWord_of_isBlank hc]
  rfl

/-- So it stays, and the pass goes on behind it as at the beginning of a dump. -/
theorem stripFrom_blank (hc : isBlank c) (gs : List Glyph) :
    stripFrom sight (.char c :: gs) = .char c :: stripFrom .clear gs := by
  rw [stripFrom_cons (noise?_of_isBlank hc), pass_of_isBlank hc]

/-- White space is passed. -/
theorem exists_kindAt_blanks {blanks : List Char} (h : ∀ c ∈ blanks, isBlank c) (sight : Sight)
    (rest : List Char) :
    ∃ sight', kindAt blanks.length (pieces sight ((blanks ++ rest).map .char)) =
      kindAt 0 (pieces sight' (rest.map .char)) := by
  induction blanks generalizing sight with
  | nil => exact ⟨sight, rfl⟩
  | cons c blanks ih =>
    obtain ⟨hc, h⟩ := List.forall_mem_cons.mp h
    obtain ⟨sight', hsight⟩ := ih h (sight.pass (.char c))
    exact ⟨sight', (kindAt_plain (noise?_of_isBlank hc)).trans hsight⟩

/-- So are the rest of a word and the white space behind it. -/
theorem exists_kindAt_word {word blanks : List Char} (hword : ∀ c ∈ word, isWord c)
    (hblanks : ∀ c ∈ blanks, isBlank c) (hsight : sight.atBoundary = false) (rest : List Char) :
    ∃ sight', kindAt (word ++ blanks).length (pieces sight ((word ++ blanks ++ rest).map .char)) =
      kindAt 0 (pieces sight' (rest.map .char)) := by
  induction word generalizing sight with
  | nil => exact exists_kindAt_blanks hblanks sight rest
  | cons c word ih =>
    obtain ⟨hc, hword⟩ := List.forall_mem_cons.mp hword
    have hpass : (sight.pass (.char c)).atBoundary = false := by
      rw [Sight.atBoundary_pass_char, hc]
      rfl
    obtain ⟨sight', hsight'⟩ := ih hword hpass
    have hnone : noise? sight.atBoundary ((c :: word ++ blanks ++ rest).map .char) = none :=
      hsight ▸ noise?_of_isWord hc
    exact ⟨sight', (kindAt_plain hnone).trans hsight'⟩

/-- **Behind the keyword of a clause and white space** a comment is read as one, if
nothing has been read in front of it. -/
theorem kindAt_comment_of_gap {keyword blanks : List Char} (hcomment : '\n' ∉ comment)
    (hkeyword : keyword.map fold = clauseKeyword) (hblanks : ∀ c ∈ blanks, isBlank c)
    (hnone : noise? sight.atBoundary
      ((keyword ++ blanks ++ (commentText comment ++ '\n' :: s)).map .char) = none) :
    kindAt (keyword ++ blanks).length
      (pieces sight ((keyword ++ blanks ++ (commentText comment ++ '\n' :: s)).map .char)) =
        some .comment := by
  have hwords : ∀ c ∈ clauseKeyword, isWord c := by decide
  have hword : ∀ c ∈ keyword, isWord c := fun c hc => by
    have hmem := List.mem_map_of_mem (f := fold) hc
    rw [hkeyword] at hmem
    exact (isWord_fold c).1.symm.trans (hwords _ hmem)
  obtain ⟨k, word, rfl, -⟩ := List.map_eq_cons_iff.mp hkeyword
  obtain ⟨hk, hword⟩ := List.forall_mem_cons.mp hword
  have hpass : (sight.pass (.char k)).atBoundary = false := by
    rw [Sight.atBoundary_pass_char, hk]
    rfl
  obtain ⟨sight', hsight'⟩ := exists_kindAt_word hword hblanks hpass
    (commentText comment ++ '\n' :: s)
  have hread : noise? sight'.atBoundary ((commentText comment ++ '\n' :: s).map .char) = _ :=
    noise?_comment hcomment fun c hc => (Option.some.inj hc).symm
  exact (kindAt_plain hnone).trans (hsight'.trans (kindAt_inside hread (Nat.succ_pos _)))

/-! ### Rules that meet a comment -/

/-- A character that a tail may hold in a text is read, where no literal begins. -/
theorem clauseTail_cons (hc : endsTail c = false)
    (hrest : fold c = 'e' → rest.head? ≠ some quote) :
    clauseTail atBoundary ((c :: rest).map .char) =
      (clauseTail (!isWord c) (rest.map .char)).cons (.char c) := by
  rw [List.map_cons]
  exact clauseTail_char hc fun he hq => hrest he (head?_map_char.mp hq)

/-- A tail goes on behind a line that holds nothing to end it. -/
theorem clauseTail_line (h : ∀ c ∈ t, endsTail c = false) (s : List Char) :
    clauseTail atBoundary ((t ++ '\n' :: s).map .char) =
      (clauseTail true (s.map .char)).before ((t ++ ['\n']).map .char) := by
  induction t generalizing atBoundary with
  | nil =>
    rw [List.nil_append, clauseTail_cons rfl fun he => absurd he (by decide)]
    rfl
  | cons c t ih =>
    obtain ⟨hc, h⟩ := List.forall_mem_cons.mp h
    have hrest : (t ++ '\n' :: s).head? ≠ some quote := by
      cases t with
      | nil => exact fun he => absurd (Option.some.inj he) (by decide)
      | cons d t =>
        rintro he
        cases he
        exact absurd (h quote List.mem_cons_self) (by decide)
    rw [List.cons_append, clauseTail_cons hc fun _ => hrest, ih h]
    rfl

/-- So does an open group. -/
theorem closeGroup_line (h : ∀ c ∈ t, endsTail c = false) {l : Nat} (hpos : 1 ≤ l)
    (hdeep : l ≤ maxNesting) (gs : List Glyph) :
    closeGroup maxNesting l false (t.map .char ++ gs) =
      (closeGroup maxNesting l false gs).map (Span.before (t.map .char)) := by
  have hends : ∀ d ∈ ['(', ')', quote], endsTail d = true := by decide
  have hinner : IsInner 0 t := isInner_of_forall fun c hc hmem =>
    Bool.false_ne_true ((h c hc).symm.trans (hends c hmem))
  exact hinner.closeGroup_append hpos hdeep gs

/-- The letter of an escape literal is a character that a tail may hold. -/
theorem endsTail_of_fold (hc : fold c = 'e') : endsTail c = false := by
  rw [← Bool.not_eq_true]
  intro hends
  have hmarks : ∀ d ∈ ['(', ')', ',', ';', quote], fold d ≠ 'e' := by decide
  refine hmarks c ?_ hc
  simpa [endsTail, or_assoc] using hends

/-- A tail at such a letter, or at none, reads it and what follows. -/
theorem length_lt_clauseTail {letter : List Char} {d : Char} (hletter : ∀ c ∈ letter, fold c = 'e')
    (hone : letter.length ≤ 1) (hends : endsTail d = false) (hd : d ≠ quote)
    (hfold : fold d ≠ 'e') (rest : List Char) :
    letter.length < (clauseTail atBoundary ((letter ++ d :: rest).map .char)).text.length := by
  match letter, hletter, hone with
  | [], _, _ =>
    rw [List.nil_append, clauseTail_cons hends fun he => absurd he hfold]
    exact Nat.succ_pos _
  | [c], hletter, _ =>
    have hc := endsTail_of_fold (hletter c List.mem_cons_self)
    have hnext : (d :: rest).head? ≠ some quote := fun he => hd (Option.some.inj he)
    rw [List.singleton_append, clauseTail_cons hc fun _ => hnext,
      clauseTail_cons hends fun he => absurd he hfold]
    exact Nat.succ_lt_succ (Nat.succ_pos _)

/-- By itself it is no noise. -/
theorem noise?_of_letter (hc : fold c = 'e') (hrest : rest.head? ≠ some quote) :
    noise? atBoundary (([c] ++ rest).map .char) = none := by
  have hmarks : ∀ d ∈ [quote, '$', '-'], fold d ≠ 'e' := by decide
  have hliteral : literal? atBoundary (.char c :: rest.map .char) = none :=
    literal?_eq_none (fun h => hmarks c (h ▸ List.mem_cons_self) hc) fun _ _ hq =>
      hrest (by simpa using hq)
  rw [List.singleton_append, List.map_cons, noise?_of_unmarked (fun h => hmarks c h hc) hliteral,
    call?_of_ne (by rw [hc]; decide), clause?_of_ne (by rw [hc]; decide)]
  rfl

/-! ### Comments that are left out -/

section Alike

variable (hcomment : '\n' ∉ comment) (h : IsUnmarked text) (hne : text ≠ [])

theorem isStop_comment (comment s : List Char) : IsStop (commentText comment ++ ['\n'] ++ s) :=
  ⟨'-', _, rfl, by decide⟩

theorem isStop_newline (s : List Char) : IsStop (['\n'] ++ s) :=
  ⟨'\n', _, rfl, by decide⟩

/-- Behind the letter of an escape literal, a comment and the end of the line are the
same. -/
theorem alikeNoise_letter (hc : fold c = 'e') :
    AlikeNoise [c] (commentText comment ++ ['\n']) ['\n'] s
      (noise? atBoundary (([c] ++ (commentText comment ++ ['\n'] ++ s)).map .char))
      (noise? atBoundary (([c] ++ (['\n'] ++ s)).map .char)) := by
  have hx : (commentText comment ++ ['\n'] ++ s).head? ≠ some quote := fun he =>
    absurd (Option.some.inj he) (by decide)
  have hy : (['\n'] ++ s).head? ≠ some quote := fun he =>
    absurd (Option.some.inj he) (by decide)
  rw [noise?_of_letter hc hx, noise?_of_letter hc hy]
  exact .none

/-- A group that is closed behind a character that is no bracket has read it. -/
theorem length_pos_of_closeGroup {l : Nat} {span : Span} (hc : endsTail c = false) (hpos : 1 ≤ l)
    (hdeep : l ≤ maxNesting)
    (h : closeGroup maxNesting l false ((c :: rest).map .char) = some span) :
    0 < span.text.length := by
  have hone := closeGroup_line (t := [c]) (fun d hd => List.mem_singleton.mp hd ▸ hc) hpos hdeep
    (rest.map .char)
  obtain ⟨inner, -, rfl⟩ := Option.map_eq_some_iff.mp (hone.symm.trans h)
  exact Nat.succ_pos _

/-- **Noise that does not reach what stands behind a text** is the same, whatever stands
there: there is none, or it ends in the text. -/
theorem Course.exists_short (hcourse : Course atBoundary text) :
    ∃ noise : Option (Kind × List Char × List Char), (∀ m ∈ noise, text = m.2.1 ++ m.2.2) ∧
      ∀ c rest, c ∈ ['-', '\n'] →
        (∀ kind span, noise? atBoundary ((text ++ c :: rest).map .char) = some (kind, span) →
          text.length < span.text.length → kind = .comment) →
        noise? atBoundary ((text ++ c :: rest).map .char) =
          noise.map fun m => (m.1, ⟨m.2.1.map .char, (m.2.2 ++ c :: rest).map .char⟩) := by
  have hends : ∀ c ∈ ['-', '\n'], endsTail c = false ∧ c ∈ [quote, '-', '\n'] ∧ c ≠ quote ∧
      fold c ≠ 'e' := by decide
  have hstop : ∀ c ∈ ['-', '\n'], ∀ rest : List Char, IsStop (c :: rest) := fun c hc rest =>
    ⟨c, rest, rfl, (hends c hc).2.1⟩
  cases hcourse with
  | silent hread => exact ⟨none, nofun, fun c rest hc _ => hread _ (hstop c hc rest)⟩
  | ended kind a b htext hread =>
    exact ⟨some (kind, a, b), fun m hm => Option.some.inj hm ▸ htext,
      fun c rest hc _ => hread _ (hstop c hc rest)⟩
  | call l hpos hdeep hread =>
    refine ⟨none, nofun, fun c rest hc hshort => ?_⟩
    rw [hread _ (hstop c hc rest)] at hshort ⊢
    cases hclose : closeGroup maxNesting l false ((c :: rest).map .char) with
    | none => rfl
    | some span =>
      rw [hclose] at hshort
      have hlen := length_pos_of_closeGroup (hends c hc).1 hpos hdeep hclose
      cases hshort _ _ rfl (by simpa using hlen)
  | tail name front letter atEnd htext hletter hone hread =>
    refine ⟨none, nofun, fun c rest hc hshort => ?_⟩
    obtain ⟨hcend, -, hquote, hfold⟩ := hends c hc
    rw [hread _ (hstop c hc rest)] at hshort
    have hlen : letter.length <
        (clauseTail atEnd ((letter ++ c :: rest).map .char)).text.length :=
      length_lt_clauseTail (fun d hd => (hletter d hd).1) hone hcend hquote hfold rest
    cases hshort _ _ rfl (by simpa [htext] using hlen)
  | tailGroup name front inside l htext hpos hdeep hread =>
    refine ⟨some (.clause name, front, '(' :: inside), fun m hm => Option.some.inj hm ▸ htext,
      fun c rest hc hshort => ?_⟩
    rw [hread _ (hstop c hc rest)] at hshort ⊢
    cases hclose : closeGroup maxNesting l false ((c :: rest).map .char) with
    | none => rfl
    | some span =>
      rw [hclose] at hshort
      have hlen := length_pos_of_closeGroup (hends c hc).1 hpos hdeep hclose
      cases hshort _ _ rfl (by simp [tailAcross]; omega)
  | gap keyword blanks htext hkeyword hblanks hread hnamed =>
    refine ⟨none, nofun, fun c rest hc hshort => Option.eq_none_iff_forall_ne_some.mpr ?_⟩
    rintro ⟨kind, span⟩ hsome
    obtain ⟨⟨name, rfl⟩, hlen⟩ := hnamed _ (hstop c hc rest) _ _ hsome
    cases hshort _ _ hsome hlen
  | letter c htext hletter hb =>
    subst htext
    refine ⟨none, nofun, fun d rest hd _ => noise?_of_letter hletter fun he => ?_⟩
    exact (hends d hd).2.2.1 (Option.some.inj he)

include h hne

/-- **No rule reaches a comment that is read as one**, and where the line ends without
it none reaches the end of the line. -/
theorem alikeNoise_of_comment
    (hx : kindAt text.length
      (pieces sight ((text ++ (commentText comment ++ ['\n'] ++ s)).map .char)) = some .comment)
    (hy : kindAt text.length (pieces sight ((text ++ (['\n'] ++ s)).map .char)) = none) :
    AlikeNoise text (commentText comment ++ ['\n']) ['\n'] s
      (noise? sight.atBoundary ((text ++ (commentText comment ++ ['\n'] ++ s)).map .char))
      (noise? sight.atBoundary ((text ++ (['\n'] ++ s)).map .char)) := by
  obtain ⟨noise, htext, hread⟩ := (course h hne sight.atBoundary).exists_short
  have hshortx : ∀ kind span, noise? sight.atBoundary
      ((text ++ (commentText comment ++ ['\n'] ++ s)).map .char) = some (kind, span) →
        text.length < span.text.length → kind = .comment := fun kind span hspan hlen =>
    Option.some.inj ((kindAt_inside hspan hlen).symm.trans hx)
  have hshorty : ∀ kind span, noise? sight.atBoundary ((text ++ (['\n'] ++ s)).map .char) =
      some (kind, span) → text.length < span.text.length → kind = .comment :=
    fun kind span hspan hlen => absurd ((kindAt_inside hspan hlen).symm.trans hy) nofun
  have hreadx := hread '-' ('-' :: comment ++ ['\n'] ++ s) (by decide) hshortx
  have hready := hread '\n' s (by decide) hshorty
  have hsame : commentText comment ++ ['\n'] ++ s = '-' :: ('-' :: comment ++ ['\n'] ++ s) := rfl
  rw [hsame, List.singleton_append, hreadx, hready]
  cases noise with
  | none => exact .none
  | some m => exact .within m.1 m.2.1 m.2.2 (htext m rfl)

include hcomment

/-- **Nor does any rule tell a comment from the end of the line** where it reads both,
if the comment cannot end what it reads. -/
theorem alikeNoise_of_plain (hplain : ∀ c ∈ comment, endsTail c = false)
    (hkind : kindAt text.length
        (pieces sight ((text ++ (commentText comment ++ ['\n'] ++ s)).map .char)) =
      kindAt text.length (pieces sight ((text ++ (['\n'] ++ s)).map .char))) :
    AlikeNoise text (commentText comment ++ ['\n']) ['\n'] s
      (noise? sight.atBoundary ((text ++ (commentText comment ++ ['\n'] ++ s)).map .char))
      (noise? sight.atBoundary ((text ++ (['\n'] ++ s)).map .char)) := by
  have hlines : ∀ z ∈ [commentText comment ++ ['\n'], ['\n']],
      ∃ t, z = t ++ ['\n'] ∧ ∀ c ∈ t, endsTail c = false := by
    simp only [List.mem_cons, List.not_mem_nil, or_false]
    rintro z (rfl | rfl)
    · exact ⟨commentText comment, rfl, List.forall_mem_cons.mpr
        ⟨rfl, List.forall_mem_cons.mpr ⟨rfl, hplain⟩⟩⟩
    · exact ⟨[], rfl, nofun⟩
  refine (course h hne sight.atBoundary).alikeNoise (fun _ => clauseTail true (s.map .char))
    (isStop_comment comment s) (isStop_newline s) (fun z hz l hpos hdeep => ?_)
    (fun z hz letter atEnd hletter _ => ?_)
    (fun keyword blanks htext hkeyword hblanks hnone hnamed => ?_) fun c htext hc _ => ?_
  · obtain ⟨t, rfl, ht⟩ := hlines z hz
    rw [List.map_append, closeGroup_line (fun c hc => ?_) hpos hdeep]
    rcases List.mem_append.mp hc with hc | hc
    · exact ht c hc
    · exact List.mem_singleton.mp hc ▸ rfl
  · obtain ⟨t, rfl, ht⟩ := hlines z hz
    have hline : ∀ c ∈ letter ++ t, endsTail c = false := fun c hc =>
      (List.mem_append.mp hc).elim (fun hc => endsTail_of_fold (hletter c hc).1) (ht c)
    have htail : clauseTail atEnd ((letter ++ t ++ '\n' :: s).map .char) = _ :=
      clauseTail_line hline s
    simpa using htail
  · subst htext
    have hx := hnone _ (isStop_comment comment s) fun c hc => Option.some.inj hc ▸ by decide
    rw [hx]
    cases hy : noise? sight.atBoundary ((keyword ++ blanks ++ (['\n'] ++ s)).map .char) with
    | none => exact .none
    | some m =>
      obtain ⟨⟨name, hname⟩, hlen⟩ := hnamed _ (isStop_newline s) _ _ hy
      rw [List.append_assoc (commentText comment)] at hx hkind
      have hkinds := (kindAt_comment_of_gap hcomment hkeyword hblanks hx).symm.trans
        (hkind.trans (kindAt_inside hy hlen))
      cases hkinds.trans (congrArg some hname)
  · subst htext
    exact alikeNoise_letter hc

end Alike

/-- **A harmless comment that is left out.** -/
theorem exchange_comment (hcomment : '\n' ∉ comment) (h : IsUnmarked text) (sight : Sight)
    (hharmless : IsHarmless
      (kindAt text.length (pieces sight ((text ++ (commentText comment ++ ['\n'] ++ s)).map .char)))
      (kindAt text.length (pieces sight ((text ++ (['\n'] ++ s)).map .char))) comment) :
    Exchange sight text (commentText comment ++ ['\n']) ['\n'] s := by
  have hclear : ∀ sight : Sight, sight.pass (.char '\n') = .clear := fun _ => pass_of_isBlank rfl
  have hsight : ∀ sight sight' : Sight, sight.passAll ((commentText comment ++ ['\n']).map .char) =
      sight'.passAll (['\n'].map .char) := fun sight sight' => by
    rw [List.map_append, Sight.passAll_append, List.map_singleton, Sight.passAll_cons, hclear,
      Sight.passAll_cons, hclear]
  refine exchange (Q := fun kind kind' => IsHarmless kind kind' comment)
    (fun sight text h hne hQ => ?_) (fun sight => ?_) (List.cons_ne_nil _ _) hsight h sight
    hharmless
  · rcases hQ with ⟨hx, hy⟩ | ⟨hkind, hplain⟩
    · exact alikeNoise_of_comment h hne hx hy
    · exact alikeNoise_of_plain hcomment h hne hplain hkind
  · have hnewline : ∀ sight : Sight, noise? sight.atBoundary (('\n' :: s).map .char) = none :=
      fun _ => noise?_of_isBlank rfl
    have hstrip : ∀ sight : Sight, stripFrom sight (('\n' :: s).map .char) =
        .char '\n' :: stripFrom .clear (s.map .char) := fun _ => stripFrom_blank rfl _
    have hread : noise? sight.atBoundary ((commentText comment ++ '\n' :: s).map .char) = _ :=
      noise?_comment hcomment fun c hc => (Option.some.inj hc).symm
    have hx : stripFrom sight ((commentText comment ++ '\n' :: s).map .char) =
        .char '\n' :: stripFrom .clear (s.map .char) :=
      (stripFrom_noise hread).trans (hstrip _)
    refine .alike ?_ ?_
    · rw [List.nil_append, List.singleton_append, List.map_cons, pieces_cons (hnewline sight)]
      rfl
    · rw [List.nil_append, List.nil_append, List.append_assoc, List.singleton_append, hx, hstrip]

/-- **A harmless comment does not change the tokens of a dump**, unless it is in a clause
that declares a primary key. -/
theorem tokensOf_comment_iff (p comment s : List Char) (h : IsUnmarked p)
    (hcomment : '\n' ∉ comment)
    (hharmless : IsHarmless
      (kindAt p.length (piecesOf (bytesOf (p ++ (commentText comment ++ '\n' :: s)))))
      (kindAt p.length (piecesOf (bytesOf (p ++ '\n' :: s)))) comment) :
    tokensOf (bytesOf (p ++ (commentText comment ++ '\n' :: s))) =
        tokensOf (bytesOf (p ++ '\n' :: s)) ↔
      (kindAt p.length (piecesOf (bytesOf (p ++ '\n' :: s)))).any Kind.isKey = false := by
  have hline : '\n' :: s = ['\n'] ++ s := rfl
  rw [hline, ← List.append_assoc (commentText comment)] at hharmless ⊢
  have hcount : ((commentText comment ++ ['\n']).filter fun c => !Token.isGap c).length ≠
      (['\n'].filter fun c => !Token.isGap c).length := by
    rw [commentText, List.cons_append, List.filter_cons_of_pos (by decide)]
    exact Nat.succ_ne_zero _
  rw [piecesOf, piecesOf, decode_bytesOf, decode_bytesOf] at hharmless
  exact tokensOf_exchange (exchange_comment hcomment h .clear hharmless) hcount

/-- A comment behind a comma may hold another. -/
theorem comment_behind_comma_is_inert :
    let front := "CREATE TABLE t (id integer PRIMARY KEY, ".toList
    let comment := " positive, always".toList
    let back := "a integer);".toList
    IsUnmarked front ∧ '\n' ∉ comment ∧
      tokensOf (bytesOf (front ++ (commentText comment ++ '\n' :: back))) =
        tokensOf (bytesOf (front ++ '\n' :: back)) := by
  have hfront : IsUnmarked "CREATE TABLE t (id integer PRIMARY KEY, ".toList := by decide
  have hcomment : '\n' ∉ " positive, always".toList := by decide
  exact ⟨hfront, hcomment,
    (tokensOf_comment_iff _ _ _ hfront hcomment (by decide +kernel)).mpr (by decide +kernel)⟩

/-- **A comma in a comment behind a clause is read**, and what stands behind it is no
column. -/
theorem comma_in_comment_is_read :
    let front :=
      "CREATE TABLE t (id integer PRIMARY KEY, a integer CONSTRAINT a_check CHECK (a > 0) ".toList
    let comment := " positive, always".toList
    let back := ");".toList
    let tables := fun text =>
      (parse {} (bytesOf text)).result.toOption.map fun catalog => catalog.tables.map Table.name
    IsUnmarked front ∧ '\n' ∉ comment ∧
      tokensOf (bytesOf (front ++ (commentText comment ++ '\n' :: back))) ≠
        tokensOf (bytesOf (front ++ '\n' :: back)) ∧
      tables (front ++ (commentText comment ++ '\n' :: back)) = none ∧
      tables (front ++ '\n' :: back) = some ["t"] := by
  decide +kernel

end Noise

end SqlCatalog
