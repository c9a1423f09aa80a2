import SqlCatalog.Proofs.LetterCase.Bytes

/-!
# Layout in bytes and glyphs

Two texts are the same up to *layout* when they differ only in their runs of blanks: a
run may be longer or shorter, and of other blanks, but it may not come or go
(`SqlCatalog.Text.Respaced`). For bytes this is what is left to differ when every run of
blanks is written as one space (`SqlCatalog.Text.respaced_of_squeeze`).

A blank is a byte of its own, which no longer character holds. So a run of blanks is read
as a run of blank characters, and what stands in front of it and behind is read without
it: reading respaced bytes gives respaced glyphs
(`SqlCatalog.Text.decode_respaced`), and writing respaced glyphs down gives respaced
bytes (`SqlCatalog.Text.encode_respaced`). Words end at a run of blanks, whatever it is
made of, hence respaced bytes have the same tokens (`SqlCatalog.tokenize_respaced`).
-/

namespace SqlCatalog

namespace Text

/-! ### Texts in another layout -/

section Respaced

variable {α β : Type} {p : α → Bool} {a b c d u : List α}

/-- **A run of blanks**: blanks only, and at least one. -/
structure IsRun (p : α → Bool) (run : List α) : Prop where
  /-- There is one. -/
  nonempty : run ≠ []
  /-- There is nothing else. -/
  blank : ∀ x ∈ run, p x

/-- **The same text in another layout**: the runs of blanks may be others, and everything
else is the same. -/
inductive Respaced (p : α → Bool) : List α → List α → Prop
  /-- The ends of both. -/
  | nil : Respaced p [] []
  /-- The same in both. -/
  | cons (x : α) {a b : List α} (h : Respaced p a b) : Respaced p (x :: a) (x :: b)
  /-- A run of blanks in each. -/
  | gap {u v a b : List α} (hu : IsRun p u) (hv : IsRun p v) (h : Respaced p a b) :
    Respaced p (u ++ a) (v ++ b)

theorem IsRun.length_pos (h : IsRun p u) : 0 < u.length :=
  List.length_pos_iff.mpr h.nonempty

/-- A run begins with a blank, and what follows it is blank too. -/
theorem IsRun.exists_cons (h : IsRun p u) : ∃ x v, u = x :: v ∧ p x ∧ ∀ y ∈ v, p y := by
  cases u with
  | nil => exact absurd rfl h.nonempty
  | cons x v => exact ⟨x, v, rfl, List.forall_mem_cons.mp h.blank⟩

namespace Respaced

theorem refl (a : List α) : Respaced p a a := by
  induction a with
  | nil => exact .nil
  | cons x a ih => exact .cons x ih

theorem append (h : Respaced p a b) (h' : Respaced p c d) : Respaced p (a ++ c) (b ++ d) := by
  induction h with
  | nil => exact h'
  | cons x _ ih => exact .cons x ih
  | gap hu hv _ ih =>
    rw [List.append_assoc, List.append_assoc]
    exact .gap hu hv ih

/-- A text that is empty is so in every layout. -/
theorem eq_nil_iff (h : Respaced p a b) : a = [] ↔ b = [] := by
  cases h with
  | nil => exact Iff.rfl
  | cons x _ => simp
  | gap hu hv _ => simp [hu.nonempty, hv.nonempty]

/-- **Texts written down in another form**: each glyph by itself, and blanks as blanks. -/
theorem flatMap {q : β → Bool} {f : α → List β} (hf : ∀ x, p x → IsRun q (f x))
    (h : Respaced p a b) : Respaced q (a.flatMap f) (b.flatMap f) := by
  have hrun : ∀ run, IsRun p run → IsRun q (run.flatMap f) := by
    intro run hrun
    obtain ⟨x, rest, rfl, hx, hrest⟩ := hrun.exists_cons
    refine ⟨by simp [(hf x hx).nonempty], fun y hy => ?_⟩
    obtain ⟨z, hz, hy⟩ := List.mem_flatMap.mp hy
    exact (hf z (hrun.blank z hz)).blank y hy
  induction h with
  | nil => exact .nil
  | cons x _ ih => exact (refl (f x)).append ih
  | gap hu hv _ ih =>
    rw [List.flatMap_append, List.flatMap_append]
    exact .gap (hrun _ hu) (hrun _ hv) ih

end Respaced

end Respaced

/-! ### Bytes -/

/-- **The bytes with every run of blanks written as one space.** -/
def squeeze : List UInt8 → List UInt8
  | [] => []
  | b :: bytes =>
    if isAsciiBlank b then 0x20 :: squeeze (bytes.dropWhile isAsciiBlank)
    else b :: squeeze bytes
termination_by bytes => bytes.length
decreasing_by
  · have := (bytes.dropWhile_suffix isAsciiBlank).length_le
    simp only [List.length_cons]
    omega
  · simp

variable {a b : List UInt8} {x : UInt8}

theorem squeeze_cons_of_blank (hx : isAsciiBlank x) (a : List UInt8) :
    squeeze (x :: a) = 0x20 :: squeeze (a.dropWhile isAsciiBlank) := by
  rw [squeeze, if_pos hx]

theorem squeeze_cons (hx : ¬isAsciiBlank x) (a : List UInt8) :
    squeeze (x :: a) = x :: squeeze a := by
  rw [squeeze, if_neg hx]

/-- Bytes that begin with a blank are a run of blanks and what follows it. -/
theorem exists_run (hx : isAsciiBlank x) (a : List UInt8) :
    ∃ run, IsRun isAsciiBlank run ∧ x :: a = run ++ a.dropWhile isAsciiBlank := by
  refine ⟨x :: a.takeWhile isAsciiBlank, ⟨List.cons_ne_nil _ _, ?_⟩, ?_⟩
  · exact List.forall_mem_cons.mpr ⟨hx, fun y hy => List.all_eq_true.mp List.all_takeWhile y hy⟩
  · rw [List.cons_append, List.takeWhile_append_dropWhile]

/-- **Bytes that become equal** when every run of blanks is written as one space are the
same text in two layouts. -/
theorem respaced_of_squeeze (h : squeeze a = squeeze b) : Respaced isAsciiBlank a b := by
  have hspace : isAsciiBlank 0x20 := rfl
  induction a using squeeze.induct generalizing b with
  | case1 =>
    cases b with
    | nil => exact .nil
    | cons y b =>
      by_cases hy : isAsciiBlank y
      · simp [squeeze, hy] at h
      · simp [squeeze, hy] at h
  | case2 x a hx ih =>
    rw [squeeze_cons_of_blank hx] at h
    cases b with
    | nil => simp [squeeze] at h
    | cons y b =>
      by_cases hy : isAsciiBlank y
      · rw [squeeze_cons_of_blank hy, List.cons.injEq] at h
        obtain ⟨u, hu, hxa⟩ := exists_run hx a
        obtain ⟨v, hv, hyb⟩ := exists_run hy b
        rw [hxa, hyb]
        exact .gap hu hv (ih h.2)
      · -- a space stands for blanks only
        rw [squeeze_cons hy, List.cons.injEq] at h
        exact absurd (h.1 ▸ hspace) hy
  | case3 x a hx ih =>
    rw [squeeze_cons hx] at h
    cases b with
    | nil => simp [squeeze] at h
    | cons y b =>
      by_cases hy : isAsciiBlank y
      · rw [squeeze_cons_of_blank hy, List.cons.injEq] at h
        exact absurd (h.1 ▸ hspace) hx
      · rw [squeeze_cons hy, List.cons.injEq] at h
        rw [h.1]
        exact .cons y (ih h.2)

/-! ### Writing glyphs down -/

/-- Whether a glyph is a blank that separates words. -/
def Glyph.isGap : Glyph → Bool
  | .char c => Token.isGap c
  | .stray _ => false

/-- A run of blanks begins with a blank character. -/
theorem IsRun.exists_char {u : List Glyph} (h : IsRun Glyph.isGap u) :
    ∃ c v, u = .char c :: v ∧ Token.isGap c ∧ ∀ g ∈ v, g.isGap := by
  obtain ⟨g, v, rfl, hg, hv⟩ := h.exists_cons
  cases g with
  | char c => exact ⟨c, v, rfl, hg, hv⟩
  | stray bytes => cases hg

/-- **Induction over blanks**, each of which is a character. -/
@[elab_as_elim]
theorem gaps_induction {P : List Glyph → Prop} (nil : P [])
    (char : ∀ c u, Token.isGap c → P u → P (.char c :: u)) {u : List Glyph}
    (hu : ∀ g ∈ u, g.isGap) : P u := by
  induction u with
  | nil => exact nil
  | cons g u ih =>
    obtain ⟨hg, hrest⟩ := List.forall_mem_cons.mp hu
    cases g with
    | char c => exact char c u hg (ih hrest)
    | stray bytes => cases hg

/-- A blank byte and a blank character are the same. -/
theorem isGap_ofNat {x : UInt8} (hx : isAsciiBlank x) :
    Token.isGap (Char.ofNat x.toNat) ∧ String.utf8EncodeChar (Char.ofNat x.toNat) = [x] := by
  simp only [isAsciiBlank, Bool.or_eq_true, beq_iff_eq] at hx
  rcases hx with (((rfl | rfl) | rfl) | rfl) | rfl <;> decide

theorem encode_respaced {gs hs : List Glyph} (h : Respaced Glyph.isGap gs hs) :
    Respaced isAsciiBlank (encode gs) (encode hs) := by
  refine h.flatMap fun g hg => ?_
  cases g with
  | stray bytes => cases hg
  | char c =>
    obtain ⟨x, hx, hc⟩ := Token.exists_encodeChar_of_isGap hg
    rw [Glyph.bytes, hc]
    exact ⟨List.cons_ne_nil _ _, by simpa using hx⟩

/-! ### Reading glyphs -/

/-- No blank continues a character. -/
theorem not_le_of_isAsciiBlank (hx : isAsciiBlank x) : ¬0x80 ≤ x := fun hle =>
  Bool.false_ne_true
    ((Token.isMark_isAsciiBlank_of_le (UInt8.le_iff_toNat_le.mp hle)).2.symm.trans hx)

/-- The bytes that continue a character are the same in both layouts, and behind them the
layouts go on. -/
theorem takeRanges_respaced {ranges : List (UInt8 × UInt8)} (hranges : ∀ r ∈ ranges, 0x80 ≤ r.1)
    (h : Respaced isAsciiBlank a b) :
    (takeRanges ranges a).1 = (takeRanges ranges b).1 ∧
      Respaced isAsciiBlank (takeRanges ranges a).2 (takeRanges ranges b).2 := by
  induction ranges generalizing a b with
  | nil => exact ⟨rfl, h⟩
  | cons range ranges ih =>
    obtain ⟨low, high⟩ := range
    obtain ⟨hlow, hranges⟩ := List.forall_mem_cons.mp hranges
    have hrun : ∀ {u : List UInt8}, IsRun isAsciiBlank u → ∀ a,
        takeRanges ((low, high) :: ranges) (u ++ a) = ([], u ++ a) := by
      intro u hu a
      obtain ⟨x, u, rfl, hx, -⟩ := hu.exists_cons
      rw [List.cons_append, takeRanges,
        if_neg fun hin => not_le_of_isAsciiBlank hx (UInt8.le_trans hlow hin.1)]
    cases h with
    | nil => exact ⟨rfl, .nil⟩
    | gap hu hv h =>
      rw [hrun hu, hrun hv]
      exact ⟨rfl, .gap hu hv h⟩
    | cons x h =>
      rw [takeRanges, takeRanges]
      by_cases hx : low ≤ x ∧ x ≤ high
      · rw [if_pos hx, if_pos hx]
        exact ⟨congrArg (x :: ·) (ih hranges h).1, (ih hranges h).2⟩
      · rw [if_neg hx, if_neg hx]
        exact ⟨rfl, .cons x h⟩

/-- **The first glyph** is the same in both layouts. -/
theorem readGlyph_respaced (lead : UInt8) (h : Respaced isAsciiBlank a b) :
    (readGlyph lead a).1 = (readGlyph lead b).1 ∧
      Respaced isAsciiBlank (readGlyph lead a).2 (readGlyph lead b).2 := by
  unfold readGlyph
  cases hf : following lead with
  | none => exact ⟨rfl, h⟩
  | some ranges =>
    obtain ⟨htail, hrest⟩ := takeRanges_respaced (le_of_mem_following hf) h
    dsimp only
    rw [htail]
    split
    · exact ⟨rfl, hrest⟩
    · exact ⟨rfl, hrest⟩

/-- A run of blanks is read as blank characters. -/
theorem exists_decode_run {u : List UInt8} (h : IsRun isAsciiBlank u) :
    ∃ run, IsRun Glyph.isGap run ∧ ∀ a, decode (u ++ a) = run ++ decode a := by
  refine ⟨u.map fun x => .char (Char.ofNat x.toNat), ⟨by simpa using h.nonempty, ?_⟩, fun a => ?_⟩
  · intro g hg
    obtain ⟨x, hx, rfl⟩ := List.mem_map.mp hg
    exact (isGap_ofNat (h.blank x hx)).1
  · have hblank := h.blank
    clear h
    induction u with
    | nil => rfl
    | cons x u ih =>
      obtain ⟨hx, hblank⟩ := List.forall_mem_cons.mp hblank
      have hread := decode_encodeChar (Char.ofNat x.toNat) (u ++ a)
      rw [(isGap_ofNat hx).2, List.singleton_append] at hread
      rw [List.cons_append, hread, ih hblank]
      rfl

/-- **Reading keeps the layout.** -/
theorem decode_respaced (h : Respaced isAsciiBlank a b) :
    Respaced Glyph.isGap (decode a) (decode b) := by
  induction hn : a.length using Nat.strongRecOn generalizing a b with
  | _ n ih =>
    subst hn
    cases h with
    | nil => exact .refl _
    | cons x h =>
      obtain ⟨hglyph, hrest⟩ := readGlyph_respaced x h
      rw [decode, decode, hglyph]
      exact .cons _ (ih _ (Nat.lt_succ_of_le (length_readGlyph_snd_le _ _)) hrest rfl)
    | gap hu hv h =>
      obtain ⟨run, hrun, hleft⟩ := exists_decode_run hu
      obtain ⟨run', hrun', hright⟩ := exists_decode_run hv
      rw [hleft, hright]
      exact .gap hrun hrun' (ih _ (by simpa using hu.length_pos) h rfl)

end Text

/-! ### Tokens -/

open Text

/-- A run of blanks ends the word in front of it, and another begins behind it. -/
theorem Token.lexemesFrom_run {u : List UInt8} (h : IsRun isAsciiBlank u) (a : List UInt8) :
    lexemesFrom (u ++ a) = ([], lexemes a) := by
  obtain ⟨x, u, rfl, hx, hu⟩ := h.exists_cons
  clear h
  have hmark : ∀ {x : UInt8}, isAsciiBlank x → isMark x = false := by
    intro x hx
    simp only [isAsciiBlank, Bool.or_eq_true, beq_iff_eq] at hx
    rcases hx with (((rfl | rfl) | rfl) | rfl) | rfl <;> decide
  have hcons : ∀ {x : UInt8} {bytes : List UInt8}, isAsciiBlank x →
      lexemesFrom (x :: bytes) = ([], lexemes bytes) := by
    intro x bytes hx
    simp only [lexemesFrom, hmark hx, hx, Bool.false_eq_true, if_false, if_true, lexemes]
  induction u generalizing x with
  | nil => exact hcons hx
  | cons y u ih =>
    obtain ⟨hy, hu⟩ := List.forall_mem_cons.mp hu
    rw [List.cons_append, hcons hx, lexemes, ih y hy hu]
    rfl

/-- **Respaced bytes have the same tokens.** -/
theorem tokenize_respaced {a b : List UInt8} (h : Respaced isAsciiBlank a b) :
    tokenize a = tokenize b := by
  have hlexemes : Token.lexemesFrom a = Token.lexemesFrom b := by
    induction h with
    | nil => rfl
    | cons x _ ih => rw [Token.lexemesFrom, Token.lexemesFrom, ih]
    | gap hu hv _ ih =>
      rw [Token.lexemesFrom_run hu, Token.lexemesFrom_run hv, Token.lexemes, Token.lexemes, ih]
  rw [tokenize, tokenize, Token.lexemes, Token.lexemes, hlexemes]

end SqlCatalog
