import SqlCatalog.Parse
import SqlCatalog.Proofs.Layout.Rules
import SqlCatalog.Proofs.Noise.CommentText

/-!
# The layout of a dump

Line breaks, indentation and the like do not matter: dumps that become equal when every
run of blanks is written as one space have the same tokens and are read alike
(`SqlCatalog.parse_eq_of_squeeze`). This is so inside literals, bodies and clauses too,
because the rules for noise are blind to layout, and it asks nothing of the bytes between
the blanks.

It asks one thing of the dump as a whole, that it has no comments. A comment ends where
its line does, so for a comment a line break is not a blank like any other.
-/

namespace SqlCatalog

open Text

namespace Noise

variable {a b gs : List Glyph} {atBoundary : Bool} {sight : Sight}

/-! ### Where no comment begins -/

/-- A comment begins wherever there are two hyphens. -/
theorem comment?_eq_none_iff : comment? gs = none ↔ keyword ['-', '-'] gs = none := by
  rw [comment?, opened]
  cases keyword ['-', '-'] gs with
  | none => simp
  | some s => simp

/-- So none begins where there are not two hyphens side by side. -/
theorem comment?_eq_none (h : ¬[Glyph.char '-', .char '-'] <:+: gs) : comment? gs = none := by
  rw [comment?_eq_none_iff, Option.eq_none_iff_forall_ne_some]
  intro s hs
  match gs, hs with
  | .char c :: .char d :: gs, hs =>
    have hhyphen : ∀ c, fold c = '-' ↔ c = '-' := fun c => fold_eq_iff (by decide)
    simp only [keyword, hhyphen] at hs
    by_cases hc : c = '-'
    · by_cases hd : d = '-'
      · subst hc hd
        exact h ⟨[], gs, rfl⟩
      · simp [hc, hd] at hs
    · simp [hc] at hs
  | [.char c], hs =>
    rw [keyword] at hs
    split at hs <;> cases hs
  | .char c :: .stray _ :: gs, hs =>
    rw [keyword] at hs
    split at hs <;> cases hs

/-- Two hyphens are side by side in every layout or in none. -/
theorem comment?_eq_none_of_relaid (h : Relaid a b) (ha : comment? a = none) :
    comment? b = none := by
  have hblind : IsBlind (keyword ['-', '-']) := isBlind_keyword (by decide)
  rw [comment?_eq_none_iff] at ha ⊢
  rcases rel_cases (hblind h) with ⟨-, hb⟩ | ⟨s, t, hs, -, -⟩
  · exact hb
  · cases ha.symm.trans hs

/-! ### The pass -/

/-- **The noise at the head of an input** is the same in both layouts, where it is no
comment. -/
theorem noise?_relaid (atBoundary : Bool) (hcomment : comment? a = none) (h : Relaid a b) :
    Option.Rel (fun m n => m.1 = n.1 ∧ m.2.Relaid n.2) (noise? atBoundary a)
      (noise? atBoundary b) := by
  unfold noise?
  rw [hcomment, comment?_eq_none_of_relaid h hcomment]
  dsimp only
  rcases rel_cases (isBlind_literal? atBoundary h) with ⟨ha, hb⟩ | ⟨s, t, ha, hb, hst⟩
  · rw [ha, hb]
    dsimp only
    rcases rel_cases (isBlind_dollarBody? h) with ⟨ha, hb⟩ | ⟨s, t, ha, hb, hst⟩
    · rw [ha, hb]
      dsimp only
      rcases rel_cases (isBlind_call? atBoundary h) with ⟨ha, hb⟩ | ⟨s, t, ha, hb, hst⟩
      · rw [ha, hb]
        dsimp only
        rcases rel_cases (clause?_relaid atBoundary h) with ⟨ha, hb⟩ | ⟨c, d, ha, hb, hcd⟩
        · rw [ha, hb]
          exact .none
        · rw [ha, hb]
          exact .some ⟨congrArg Kind.clause hcd.1, hcd.2⟩
      · rw [ha, hb]
        exact .some ⟨rfl, hst⟩
    · rw [ha, hb]
      exact .some ⟨rfl, hst⟩
  · rw [ha, hb]
    exact .some ⟨rfl, hst⟩

/-- Nothing is in sight behind a run of blanks. -/
theorem passAll_run {u : List Glyph} (hu : IsRun Glyph.isGap u) (sight : Sight) :
    sight.passAll u = .clear := by
  obtain ⟨c, v, rfl, hc, hv⟩ := hu.exists_char
  rw [Sight.passAll_cons, pass_of_isBlank (isBlank_of_isGap hc)]
  refine gaps_induction rfl (fun d v hd ih => ?_) hv
  rw [Sight.passAll_cons, pass_of_isBlank (isBlank_of_isGap hd), ih]

/-- **The same is in sight behind both layouts.** -/
theorem passAll_relaid (h : Relaid a b) (sight : Sight) : sight.passAll a = sight.passAll b := by
  induction h generalizing sight with
  | nil => rfl
  | cons g h ih => exact ih _
  | gap hu hv h ih =>
    rw [Sight.passAll_append, Sight.passAll_append, passAll_run hu, passAll_run hv, ih]

/-- What remains of noise is the same in both layouts. -/
theorem Kind.remains_relaid (kind : Kind) (h : Relaid a b) :
    Relaid (kind.remains a) (kind.remains b) := by
  cases kind with
  | literal => exact .refl _
  | comment | dollarBody | call => exact .nil
  | clause name =>
    rw [remains, remains]
    split
    · exact h
    · exact .nil

/-- A run of blanks stays. -/
theorem stripFrom_run {u : List Glyph} (hu : IsRun Glyph.isGap u) (a : List Glyph) :
    stripFrom sight (u ++ a) = u ++ stripFrom .clear a := by
  obtain ⟨c, v, rfl, hc, hv⟩ := hu.exists_char
  rw [List.cons_append, stripFrom_blank (isBlank_of_isGap hc), List.cons_append]
  refine congrArg (List.cons _) (gaps_induction rfl (fun d v hd ih => ?_) hv)
  rw [List.cons_append, stripFrom_blank (isBlank_of_isGap hd), ih, List.cons_append]

/-- **What is left of an input** without comments is the same in both layouts. -/
theorem stripFrom_relaid (sight : Sight) (hhyphens : ¬[Glyph.char '-', .char '-'] <:+: a)
    (h : Relaid a b) : Relaid (stripFrom sight a) (stripFrom sight b) := by
  induction hn : a.length using Nat.strongRecOn generalizing a b sight with
  | _ n ih =>
    subst hn
    -- what follows has no comments either
    have hrest : ∀ {rest}, rest <:+ a → ¬[Glyph.char '-', .char '-'] <:+: rest :=
      fun hsuffix hin => hhyphens (hin.trans hsuffix.isInfix)
    cases h with
    | nil => exact .refl _
    | @gap u v a b hu hv h =>
      rw [stripFrom_run hu, stripFrom_run hv]
      exact .gap hu hv (ih _ (by simpa using hu.length_pos) .clear (hrest ⟨u, rfl⟩) h rfl)
    | @cons g a b h =>
      rcases rel_cases (noise?_relaid sight.atBoundary (comment?_eq_none hhyphens) (.cons g h)) with
        ⟨ha, hb⟩ | ⟨⟨kind, s⟩, ⟨kind', t⟩, ha, hb, hkind, hst⟩
      · rw [stripFrom_cons ha, stripFrom_cons hb]
        exact .cons g (ih _ (Nat.lt_succ_self _) _ (hrest ⟨[g], rfl⟩) h rfl)
      · obtain rfl : kind = kind' := hkind
        rw [stripFrom_noise ha, stripFrom_noise hb, passAll_relaid hst.text]
        exact (kind.remains_relaid hst.text).append (ih _ (length_rest_of_noise? ha) _
          (hrest ⟨s.text, (cuts_of_noise? ha).1⟩) hst.rest rfl)

/-- **The dump without its noise**, in both layouts. -/
theorem strip_respaced {a b : List UInt8} (hhyphens : ¬[0x2D, 0x2D] <:+: a)
    (h : Respaced isAsciiBlank a b) : Respaced isAsciiBlank (strip a) (strip b) := by
  refine encode_respaced (stripFrom_relaid .clear ?_ (decode_respaced h))
  rintro ⟨front, rest, hsplit⟩
  have hbytes := congrArg encode hsplit
  rw [encode_decode, encode_append, encode_append] at hbytes
  exact hhyphens ⟨_, _, hbytes⟩

end Noise

/-! ### Dumps in another layout -/

variable {a b : List UInt8}

/-- **Layout does not matter**: dumps without comments that become equal when every run of
blanks is written as one space have the same tokens, and so the same outcome under all
options, be it a catalog or an error. Nothing else is asked of the bytes. -/
theorem parse_eq_of_squeeze (hhyphens : ¬[0x2D, 0x2D] <:+: a) (h : squeeze a = squeeze b) :
    tokensOf a = tokensOf b ∧ ∀ options, parse options a = parse options b := by
  have htokens : tokensOf a = tokensOf b :=
    tokenize_respaced (Noise.strip_respaced hhyphens (respaced_of_squeeze h))
  exact ⟨htokens, fun options => by rw [parse, parse, htokens]⟩

/-- A dump on one line, with a body, a literal and a clause that is kept. -/
def flatDump : List UInt8 :=
  bytesOf ("SELECT $$ a ; b $$; CREATE TABLE t ( a text DEFAULT E'\\ ''c' NOT NULL, " ++
    "CONSTRAINT t_pkey PRIMARY KEY (a) );").toList

/-- The same dump on lines of its own, with line breaks in all of these. -/
def brokenDump : List UInt8 :=
  bytesOf ("SELECT $$\r\n\ta ;\r\n  b\r\n$$;\nCREATE TABLE t\n(\n  a\ttext DEFAULT E'\\\r\n''c'" ++
    " NOT NULL,\n  CONSTRAINT\n\tt_pkey PRIMARY\r\n\tKEY (a)\n);").toList

theorem parse_flatDump :
    (¬[0x2D, 0x2D] <:+: flatDump ∧ squeeze flatDump = squeeze brokenDump) ∧
      tokensOf flatDump = tokensOf brokenDump ∧
        ∀ options, parse options flatDump = parse options brokenDump :=
  have hhyphens : ¬[0x2D, 0x2D] <:+: flatDump := by decide +kernel
  have h : squeeze flatDump = squeeze brokenDump := by decide +kernel
  ⟨⟨hhyphens, h⟩, parse_eq_of_squeeze hhyphens h⟩

end SqlCatalog
