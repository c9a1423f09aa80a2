import SqlCatalog.Proofs.Noise.Exchange

/-!
# What a literal says

The text of a literal is no part of a schema, and a dump in which a literal says
something else should be read as before. That is so wherever the literal stands, be
it by itself, in a volatile call, or in a constraint clause that is removed, with one
exception: a clause that declares a primary key is kept as it is, and its literals
with it (`SqlCatalog.Noise.tokensOf_literal_iff`).

A clause is known by its keyword and name alone, so a comment on a constraint
`t_pkey` is such a clause, and what the comment says is read as part of the dump
(`SqlCatalog.Noise.comment_on_key_declares`).
-/

namespace SqlCatalog

open Text

namespace Noise

/-- **What a literal may say** without a quote or backslash. -/
def IsPlainBody (body : List Char) : Prop :=
  ∀ c ∈ body, c ≠ quote ∧ c ≠ backslash

instance (body : List Char) : Decidable (IsPlainBody body) :=
  inferInstanceAs (Decidable (∀ c ∈ body, _))

variable {text body letter s : List Char} {atBoundary atEnd : Bool}

theorem IsPlainBody.isBody (h : IsPlainBody body) (escapes : Bool) : IsBody escapes body :=
  isBody_of_forall fun c hc => ⟨(h c hc).1, fun _ => (h c hc).2⟩

theorem isStop_literalText (body s : List Char) : IsStop (literalText body ++ s) :=
  ⟨quote, _, rfl, by decide⟩

/-! ### Rules that meet a literal -/

/-- **What is read behind a literal as its continuation**, in front of `s`; the letter
in front of it, if there is one, makes it an escape literal. -/
def continuation? (letter s : List Char) : Span :=
  (closeLiteral (!letter.isEmpty) .closed (s.map .char)).getD (Span.nothing [])

/-- A literal is read, and its continuation, whatever it says. -/
theorem literal?_literalText (hbody : IsPlainBody body)
    (hletter : ∀ c ∈ letter, fold c = 'e' ∧ atEnd = true) (hone : letter.length ≤ 1) :
    literal? atEnd ((letter ++ (literalText body ++ s)).map .char) =
      some ((continuation? letter s).before ((letter ++ literalText body).map .char)) := by
  obtain ⟨t, ht⟩ := closeLiteral_closed (!letter.isEmpty) (s.map .char)
  have hinside := (hbody.isBody (!letter.isEmpty)).closeLiteral_append (s.map .char)
  rw [ht, Option.map_some] at hinside
  rw [continuation?, ht, Option.getD_some]
  match letter, hletter, hone with
  | [], _, _ =>
    have hliteral := literal?_quote hinside atEnd
    simpa [literalText, Span.before, Span.cons] using hliteral
  | [c], hletter, _ =>
    obtain ⟨hc, rfl⟩ := hletter c List.mem_cons_self
    have hliteral := literal?_escape hc hinside
    simpa [literalText, Span.before, Span.cons] using hliteral

/-- An open group goes on behind a literal. -/
theorem closeGroup_literalText (hbody : IsPlainBody body) (depth l : Nat) :
    closeGroup depth l false ((literalText body ++ s).map .char) =
      (closeGroup depth l false (s.map .char)).map
        (Span.before ((literalText body).map .char)) := by
  have hquoted : closeGroup depth l true (body.map .char ++ .char quote :: s.map .char) = _ :=
    (hbody.isBody false).closeGroup_append (s.map .char)
  have htext : (literalText body ++ s).map Glyph.char =
      .char quote :: (body.map .char ++ .char quote :: s.map .char) := by
    simp [literalText]
  rw [htext, closeGroup, if_pos rfl, hquoted, Span.map_cons_map_before]
  simp [literalText]

/-- So does the tail of a clause. -/
theorem clauseTail_literalText (hbody : IsPlainBody body)
    (hletter : ∀ c ∈ letter, fold c = 'e' ∧ atEnd = true) (hone : letter.length ≤ 1) :
    clauseTail atEnd ((letter ++ (literalText body ++ s)).map .char) =
      ((clauseTail true (continuation? letter s).rest).before (continuation? letter s).text).before
        ((letter ++ literalText body).map .char) := by
  rw [clauseTail_of_part (tailPart?_of_literal (literal?_literalText hbody hletter hone))]
  simp [Span.before]

/-- By itself, a literal leaves two quotes. -/
theorem noise?_literalText (hbody : IsPlainBody body)
    (hletter : ∀ c ∈ letter, fold c = 'e' ∧ atEnd = true) (hone : letter.length ≤ 1) :
    noise? atEnd ((letter ++ (literalText body ++ s)).map .char) =
      some (.literal, ⟨(letter ++ literalText body).map .char ++ (continuation? letter s).text,
        (continuation? letter s).rest⟩) := by
  rw [noise?, literal?_literalText hbody hletter hone]
  rfl

/-! ### Literals that say something else -/

/-- **No rule tells two literals apart.** -/
theorem alikeNoise_literal {body' : List Char} (hbody : IsPlainBody body)
    (hbody' : IsPlainBody body') (h : IsUnmarked text) (hne : text ≠ []) :
    AlikeNoise text (literalText body) (literalText body') s
      (noise? atBoundary ((text ++ (literalText body ++ s)).map .char))
      (noise? atBoundary ((text ++ (literalText body' ++ s)).map .char)) := by
  have hplain : ∀ z ∈ [literalText body, literalText body'],
      ∃ b, IsPlainBody b ∧ z = literalText b := by
    simp only [List.mem_cons, List.not_mem_nil, or_false]
    rintro z (rfl | rfl)
    · exact ⟨body, hbody, rfl⟩
    · exact ⟨body', hbody', rfl⟩
  refine (course h hne atBoundary).alikeNoise
    (fun letter => (clauseTail true (continuation? letter s).rest).before
      (continuation? letter s).text)
    (isStop_literalText _ _) (isStop_literalText _ _) (fun z hz l _ _ => ?_)
    (fun z hz letter atEnd hletter hone => ?_) (fun _ _ _ _ _ hnone _ => ?_)
    fun c htext hc hb => ?_
  · obtain ⟨b, hb, rfl⟩ := hplain z hz
    exact closeGroup_literalText hb _ _
  · obtain ⟨b, hb, rfl⟩ := hplain z hz
    exact clauseTail_literalText hb hletter hone
  · have hquote : ¬isBlank quote := by decide
    have hhead : ∀ b : List Char, ∀ c ∈ (literalText b ++ s).head?, ¬isBlank c :=
      fun b c hc => Option.some.inj hc ▸ hquote
    rw [hnone _ (isStop_literalText _ _) (hhead _), hnone _ (isStop_literalText _ _) (hhead _)]
    exact .none
  · subst htext hb
    have hletter : ∀ d ∈ [c], fold d = 'e' ∧ true = true := fun d hd => by
      rw [List.mem_singleton.mp hd]
      exact ⟨hc, rfl⟩
    rw [noise?_literalText hbody hletter (Nat.le_refl _),
      noise?_literalText hbody' hletter (Nat.le_refl _)]
    exact .across .literal _ _

/-- **A literal in place of another.** -/
theorem exchange_literal {body' : List Char} (hbody : IsPlainBody body)
    (hbody' : IsPlainBody body') (h : IsUnmarked text) (sight : Sight) (s : List Char) :
    Exchange sight text (literalText body) (literalText body') s := by
  have hsight : ∀ sight sight' : Sight, sight.passAll ((literalText body).map .char) =
      sight'.passAll ((literalText body').map .char) := by
    have hclear : ∀ (b : List Char) (sight : Sight),
        sight.passAll ((literalText b).map .char) = .clear := by
      intro b sight
      have hpass : ∀ sight : Sight, sight.pass (.char quote) = .clear := fun sight => by
        cases sight <;> rfl
      rw [literalText, ← List.cons_append, List.map_append, Sight.passAll_append,
        List.map_singleton, Sight.passAll_cons, hpass, Sight.passAll_nil]
    exact fun sight sight' => (hclear body sight).trans (hclear body' sight').symm
  refine exchange (Q := fun _ _ => True)
    (fun sight text h hne _ => alikeNoise_literal hbody hbody' h hne) (fun sight => ?_)
    (List.cons_ne_nil _ _) hsight h sight trivial
  have hread : ∀ b : List Char, IsPlainBody b →
      noise? sight.atBoundary (([] ++ (literalText b ++ s)).map .char) = some (.literal,
        ⟨([] ++ literalText b).map .char ++ (continuation? [] s).text,
          (continuation? [] s).rest⟩) :=
    fun b hb => noise?_literalText hb (List.forall_mem_nil _) (Nat.zero_le _)
  have hx := hread body hbody
  have hy := hread body' hbody'
  exact .of_across (List.cons_ne_nil _ _) hsight hx hy

/-- **What a literal says does not matter, unless it stands in a clause that declares a
primary key.** The dump has the same tokens for all that the literal may say if and only
if no such clause has the literal in it. -/
theorem tokensOf_literal_iff (p s : List Char) (h : IsUnmarked p) :
    (∀ body body', IsPlainBody body → IsPlainBody body' →
      tokensOf (bytesOf (p ++ (literalText body ++ s))) =
        tokensOf (bytesOf (p ++ (literalText body' ++ s)))) ↔
      (kindAt p.length (piecesOf (bytesOf (p ++ (literalText [] ++ s))))).any Kind.isKey =
        false := by
  have hempty : IsPlainBody [] := nofun
  constructor
  · intro hsame
    have hbody : IsPlainBody ['x'] := by decide
    exact (tokensOf_exchange (exchange_literal hbody hempty h .clear s) (by decide)).mp
      (hsame _ _ hbody hempty)
  · intro hkey body body' hbody hbody'
    have heq : ∀ b, IsPlainBody b → tokensOf (bytesOf (p ++ (literalText b ++ s))) =
        tokensOf (bytesOf (p ++ (literalText [] ++ s))) := fun b hb =>
      tokensOf_eq_of_exchange (exchange_literal hb hempty h .clear s) hkey
    exact (heq body hbody).trans (heq body' hbody').symm

/-- What a comment on a table says does not matter. -/
theorem comment_on_table_is_inert :
    IsUnmarked "COMMENT ON TABLE t IS ".toList ∧ ∀ body body', IsPlainBody body →
      IsPlainBody body' →
      tokensOf (bytesOf ("COMMENT ON TABLE t IS ".toList ++ (literalText body ++ [';']))) =
        tokensOf (bytesOf ("COMMENT ON TABLE t IS ".toList ++ (literalText body' ++ [';']))) := by
  have hp : IsUnmarked "COMMENT ON TABLE t IS ".toList := by decide
  exact ⟨hp, (tokensOf_literal_iff _ _ hp).mpr (by decide +kernel)⟩

/-- **What a comment on a key says is read**: this one declares a table. -/
theorem comment_on_key_declares :
    let front := "COMMENT ON CONSTRAINT t_pkey ON t IS ".toList
    let body := "; CREATE TABLE x (id integer PRIMARY KEY); ".toList
    let tables := fun said =>
      (parse {} (bytesOf (front ++ (literalText said ++ [';'])))).result.toOption.map
        fun catalog => catalog.tables.map Table.name
    IsUnmarked front ∧ IsPlainBody body ∧
      tokensOf (bytesOf (front ++ (literalText body ++ [';']))) ≠
        tokensOf (bytesOf (front ++ (literalText [] ++ [';']))) ∧
      tables body = some ["x"] ∧ tables [] = some [] := by
  decide +kernel

end Noise

end SqlCatalog
