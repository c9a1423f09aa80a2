import SqlCatalog.Proofs.Column.Expression
import SqlCatalog.Proofs.Text.Tokens

/-!
# Brackets in texts

Where a bracket stands alone as a token depends on the word around it, and where
an expression ends depends on the brackets that are open.
`SqlCatalog.Text.depth?` counts them in a text, as
`SqlCatalog.expressionDepth?` does in tokens, and the two counts agree
(`SqlCatalog.Token.expressionDepth?_ofText`).

A bracket next to a text that opens or closes nothing across it is loose, so it
is a token of its own whatever it touches:

* an opening bracket in front of a word that closes no bracket
  (`SqlCatalog.Token.ofText_append_open`);
* a closing bracket behind a text that leaves none open
  (`SqlCatalog.Token.ofText_append_close`).

A paired word is one token (`SqlCatalog.Token.ofText_paired`).
-/

namespace SqlCatalog

open Text

namespace Text

/-! ### Open brackets -/

/-- **The number of open brackets** behind a text in front of which `depth` are
open; `none` if it holds a semicolon, or a comma or a closing bracket outside
brackets. -/
def depth? : Nat → List Char → Option Nat
  | depth, [] => some depth
  | depth, c :: text =>
    if c = ';' ∨ (c = ',' ∨ c = ')') ∧ depth = 0 then none
    else if c = '(' then depth? (depth + 1) text
    else if c = ')' then depth? (depth - 1) text
    else depth? depth text

/-- **A paired text**: its brackets pair up, no comma stands outside them and no
semicolon anywhere. -/
def IsPaired (text : List Char) : Prop :=
  depth? 0 text = some 0

instance (text : List Char) : Decidable (IsPaired text) :=
  inferInstanceAs (Decidable (_ = _))

variable {depth depth' : Nat} {c : Char} {a b text : List Char}

/-- **What counts in a text**, character by character. -/
theorem depth?_cons (h : depth? depth (c :: text) = some depth') :
    c ≠ ';' ∧ ((c = '(' ∧ depth? (depth + 1) text = some depth') ∨
      (c = ')' ∧ 0 < depth ∧ depth? (depth - 1) text = some depth') ∨
      (c ≠ '(' ∧ c ≠ ')' ∧ (c = ',' → 0 < depth) ∧ depth? depth text = some depth')) := by
  rw [depth?] at h
  split at h
  · cases h
  · next hend =>
    obtain ⟨hsemi, hend⟩ := not_or.mp hend
    refine ⟨hsemi, ?_⟩
    have hpos : c = ',' ∨ c = ')' → 0 < depth := fun hc =>
      Nat.pos_of_ne_zero fun h0 => hend ⟨hc, h0⟩
    split at h
    · next hopen => exact Or.inl ⟨hopen, h⟩
    · next hopen =>
      split at h
      · next hclose => exact Or.inr (Or.inl ⟨hclose, hpos (Or.inr hclose), h⟩)
      · next hclose => exact Or.inr (Or.inr ⟨hopen, hclose, fun hc => hpos (Or.inl hc), h⟩)

/-- One text behind another. -/
theorem depth?_append :
    depth? depth (a ++ b) = (depth? depth a).bind (depth? · b) := by
  induction a generalizing depth with
  | nil => rfl
  | cons c a ih =>
    simp only [List.cons_append, depth?]
    split
    · rfl
    · split
      · exact ih
      · split <;> exact ih

/-- More brackets around a text stay open. -/
theorem depth?_add (h : depth? depth text = some depth') (n : Nat) :
    depth? (depth + n) text = some (depth' + n) := by
  induction text generalizing depth with
  | nil =>
    obtain rfl := Option.some.inj h
    rfl
  | cons c text ih =>
    obtain ⟨hsemi, h⟩ := depth?_cons h
    rw [depth?]
    rcases h with ⟨rfl, h⟩ | ⟨rfl, hpos, h⟩ | ⟨hopen, hclose, hcomma, h⟩
    · have hn : depth + n + 1 = depth + 1 + n := by omega
      rw [if_neg (by simp), if_pos rfl, hn, ih h]
    · have hn : depth + n - 1 = depth - 1 + n := by omega
      rw [if_neg (by simp; omega), if_neg (by decide), if_pos rfl, hn, ih h]
    · rw [if_neg, if_neg hopen, if_neg hclose, ih h]
      rintro (hc | ⟨hc | hc, h0⟩)
      · exact hsemi hc
      · have := hcomma hc
        omega
      · exact hclose hc

/-- A text without brackets, commas and semicolons opens and closes nothing. -/
theorem depth?_of_plain (h : ∀ c ∈ text, c ∉ [';', ',', '(', ')']) :
    depth? depth text = some depth := by
  induction text with
  | nil => rfl
  | cons c text ih =>
    obtain ⟨hc, h⟩ := List.forall_mem_cons.mp h
    simp only [List.mem_cons, List.not_mem_nil, or_false, not_or] at hc
    rw [depth?, if_neg (by simp [hc]), if_neg hc.2.2.1, if_neg hc.2.2.2, ih h]

/-- Letter case does not matter to brackets. -/
theorem depth?_lower : depth? depth (lower text) = depth? depth text := by
  induction text generalizing depth with
  | nil => rfl
  | cons c text ih =>
    have hih : ∀ depth, depth? depth (text.map Char.toLower) = depth? depth text := fun _ => ih
    have hsemi : c.toLower = ';' ↔ c = ';' := toLower_eq_iff (by decide)
    have hcomma : c.toLower = ',' ↔ c = ',' := toLower_eq_iff (by decide)
    have hopen : c.toLower = '(' ↔ c = '(' := toLower_eq_iff (by decide)
    have hclose : c.toLower = ')' ↔ c = ')' := toLower_eq_iff (by decide)
    simp only [lower, List.map_cons, depth?, hsemi, hcomma, hopen, hclose, hih]

end Text

namespace Token

variable {depth depth' : Nat} {text word : List Char}

/-! ### Closing brackets to spare -/

/-- **What a text closes**: no more brackets than are open in front of it, and
those that are not open behind it any more. -/
theorem surplus_of_depth? (h : depth? depth text = some depth') :
    surplus text ≤ depth ∧ depth ≤ depth' + surplus text := by
  induction text generalizing depth with
  | nil =>
    obtain rfl := Option.some.inj h
    exact ⟨Nat.zero_le _, Nat.le_refl _⟩
  | cons c text ih =>
    replace h := (depth?_cons h).2
    rw [surplus]
    rcases h with ⟨rfl, h⟩ | ⟨rfl, hpos, h⟩ | ⟨hopen, hclose, -, h⟩
    · have := ih h
      rw [if_neg (by decide), if_pos rfl]
      omega
    · have := ih h
      rw [if_pos rfl]
      omega
    · rw [if_neg hclose, if_neg hopen]
      exact ih h

/-- Behind a text, one that closes nothing changes nothing. -/
theorem surplus_append {a b : List Char} (h : surplus b = 0) : surplus (a ++ b) = surplus a := by
  induction a with
  | nil => exact h
  | cons c a ih => rw [List.cons_append, surplus, surplus, ih]

/-- Behind a text, another one can only close more. -/
theorem surplus_le_append (a b : List Char) : surplus a ≤ surplus (a ++ b) := by
  induction a with
  | nil => exact Nat.zero_le _
  | cons c a ih =>
    rw [List.cons_append, surplus, surplus]
    split
    · omega
    · split <;> omega

/-! ### Loose brackets -/

/-- A word that closes every bracket open in front of it, and no more, is one
piece. -/
theorem splitLooseFrom_of_depth? (h : depth? depth word = some 0) :
    splitLooseFrom depth word = (word, []) := by
  induction word generalizing depth with
  | nil => rfl
  | cons c word ih =>
    replace h := (depth?_cons h).2
    rw [splitLooseFrom]
    rcases h with ⟨rfl, h⟩ | ⟨rfl, hpos, h⟩ | ⟨hopen, hclose, -, h⟩
    · have hs := surplus_of_depth? h
      rw [if_pos rfl, ih h]
      dsimp only
      rw [if_neg (by omega)]
    · rw [if_neg (by decide), if_pos rfl, ih h]
      dsimp only
      rw [if_neg (by omega)]
    · rw [if_neg hopen, if_neg hclose, ih h]

/-- How many brackets are open in front of a word does not matter when they are
enough for it. -/
theorem splitLooseFrom_congr (h : surplus word ≤ depth) (h' : surplus word ≤ depth') :
    splitLooseFrom depth word = splitLooseFrom depth' word := by
  induction word generalizing depth depth' with
  | nil => rfl
  | cons c word ih =>
    rw [surplus] at h h'
    rw [splitLooseFrom, splitLooseFrom]
    by_cases hclose : c = ')'
    · subst hclose
      rw [if_pos rfl] at h h'
      rw [if_neg (by decide), if_pos rfl, if_neg (by decide), if_pos rfl,
        @ih (depth - 1) (depth' - 1) (by omega) (by omega)]
      dsimp only
      rw [if_neg (by omega), if_neg (by omega)]
    · rw [if_neg hclose] at h h'
      by_cases hopen : c = '('
      · subst hopen
        rw [if_pos rfl] at h h'
        rw [if_pos rfl, if_pos rfl,
          @ih (depth + 1) (depth' + 1) (by omega) (by omega)]
      · rw [if_neg hopen] at h h'
        rw [if_neg hopen, if_neg hclose, if_neg hopen, if_neg hclose, ih h h']

/-- **An opening bracket in front of a word that closes none** is loose. -/
theorem splitLooseFrom_open {v : List Char} (h : surplus v = 0) (w : List Char) (depth : Nat) :
    splitLooseFrom depth (w ++ '(' :: v) =
      ((splitLooseFrom depth w).1, (splitLooseFrom depth w).2 ++ ['('] :: splitLoose v) := by
  induction w generalizing depth with
  | nil =>
    have hcongr : splitLooseFrom (depth + 1) v = splitLooseFrom 0 v :=
      splitLooseFrom_congr (by omega) (by omega)
    simp only [List.nil_append, splitLooseFrom, if_true, h, hcongr, splitLoose]
  | cons c w ih =>
    have hs : surplus (w ++ '(' :: v) = surplus w :=
      surplus_append (by rw [surplus, if_neg (by decide), if_pos rfl, h])
    simp only [List.cons_append, splitLooseFrom, ih, hs, push_append]
    split
    · split <;> rfl
    · split
      · split <;> rfl
      · rfl

/-- **A closing bracket behind a word that leaves none open** is loose. -/
theorem splitLooseFrom_close {outer : Nat} (hle : depth ≤ outer)
    (h : depth? outer word = some 0) (v : List Char) :
    splitLooseFrom depth (word ++ ')' :: v) =
      ((splitLooseFrom depth word).1, (splitLooseFrom depth word).2 ++ [')'] :: splitLoose v) := by
  induction word generalizing depth outer with
  | nil =>
    obtain rfl := Option.some.inj h
    obtain rfl := Nat.le_zero.mp hle
    rfl
  | cons c word ih =>
    replace h := (depth?_cons h).2
    rw [List.cons_append, splitLooseFrom, splitLooseFrom]
    rcases h with ⟨rfl, h⟩ | ⟨rfl, hpos, h⟩ | ⟨hopen, hclose, -, h⟩
    · -- an opening bracket of the word is closed in the word
      have hs := surplus_of_depth? h
      have hs' := surplus_le_append word (')' :: v)
      rw [if_pos rfl, if_pos rfl, ih (by omega) h]
      dsimp only
      rw [if_neg (by omega), if_neg (by omega)]
    · rw [if_neg (by decide), if_pos rfl, if_neg (by decide), if_pos rfl, ih (by omega) h]
      dsimp only
      split <;> simp only [push_append, List.cons_append]
    · rw [if_neg hopen, if_neg hclose, if_neg hopen, if_neg hclose, ih hle h]

theorem surplus_lower (text : List Char) : surplus (lower text) = surplus text := by
  induction text with
  | nil => rfl
  | cons c text ih =>
    have hopen : c.toLower = '(' ↔ c = '(' := toLower_eq_iff (by decide)
    have hclose : c.toLower = ')' ↔ c = ')' := toLower_eq_iff (by decide)
    rw [lower] at ih
    simp only [lower, List.map_cons, surplus, hopen, hclose, ih]

/-! ### Brackets as tokens -/

/-- **An opening bracket is a token** in front of a word that closes none. -/
theorem ofText_append_open {v : List Char} {c : Char} (hv : IsWord v) (hs : surplus v = 0)
    (hc : isBreak c) (a b : List Char) :
    ofText (a ++ '(' :: (v ++ c :: b)) = ofText a ++ "(" :: ofText (v ++ c :: b) := by
  induction a using break_induction with
  | word w hw =>
    have hword : IsWord (w ++ '(' :: v) :=
      isWord_append.mpr ⟨hw, isWord_cons.mpr ⟨rfl, hv⟩⟩
    have hsplit : splitLoose (lower (w ++ '(' :: v)) =
        splitLoose (lower w) ++ ['('] :: splitLoose (lower v) := by
      have hfrom := splitLooseFrom_open ((surplus_lower v).trans hs) (lower w) 0
      have hlower : lower (w ++ '(' :: v) = lower w ++ '(' :: lower v := List.map_append
      rw [splitLoose, hlower, hfrom, push_append]
      rfl
    have hcut : w ++ '(' :: (v ++ c :: b) = (w ++ '(' :: v) ++ c :: b := by simp
    rw [hcut, ofText_append hc, ofText_append hc, ofText_word hword, ofText_word hw,
      ofText_word hv, hsplit]
    simp
  | append w d a hw hd ih =>
    rw [List.append_assoc, List.cons_append, ofText_append hd, ofText_append hd, ih]
    simp

/-- **A closing bracket is a token** behind a text that closes the brackets open in
front of it. -/
theorem ofText_append_close {a : List Char} (h : depth? depth a = some 0) (b : List Char) :
    ofText (a ++ ')' :: b) = ofText a ++ ")" :: ofText b := by
  induction a using break_induction generalizing depth with
  | word w hw =>
    have hsplit : ∀ v, splitLoose (lower (w ++ ')' :: v)) =
        splitLoose (lower w) ++ [')'] :: splitLoose (lower v) := by
      intro v
      have hfrom := splitLooseFrom_close (Nat.zero_le depth) (depth?_lower.trans h) (lower v)
      have hlower : lower (w ++ ')' :: v) = lower w ++ ')' :: lower v := List.map_append
      rw [splitLoose, hlower, hfrom, push_append]
      rfl
    have hword : ∀ v, IsWord v → IsWord (w ++ ')' :: v) := fun v hv =>
      isWord_append.mpr ⟨hw, isWord_cons.mpr ⟨rfl, hv⟩⟩
    induction b using break_induction with
    | word v hv =>
      rw [ofText_word (hword v hv), hsplit, ofText_word hw, ofText_word hv]
      simp
    | append v d b hv hd _ =>
      have hcut : w ++ ')' :: (v ++ d :: b) = (w ++ ')' :: v) ++ d :: b := by simp
      rw [hcut, ofText_append hd, ofText_append hd, ofText_word (hword v hv), hsplit,
        ofText_word hw, ofText_word hv]
      simp
  | append w d a hw hd ih =>
    -- the brackets that are open behind the break are those that the rest closes
    rw [depth?_append] at h
    obtain ⟨depth₁, -, h⟩ := Option.bind_eq_some_iff.mp h
    have hrest : ∃ depth₂, depth? depth₂ a = some 0 := by
      rcases (depth?_cons h).2 with ⟨-, h⟩ | ⟨-, -, h⟩ | ⟨-, -, -, h⟩ <;> exact ⟨_, h⟩
    obtain ⟨depth₂, hrest⟩ := hrest
    rw [List.append_assoc, List.cons_append, ofText_append hd, ofText_append hd, ih hrest]
    simp

/-- **A paired word** is one token. -/
theorem ofText_paired (hword : IsWord word) (hne : word ≠ []) (h : IsPaired word) :
    ofText word = [String.ofList (lower word)] := by
  have hfrom : splitLooseFrom 0 (lower word) = (lower word, []) :=
    splitLooseFrom_of_depth? (depth?_lower.trans h)
  rw [ofText_word hword, splitLoose, hfrom]
  cases word with
  | nil => exact absurd rfl hne
  | cons c word => rfl

/-! ### Expressions -/

/-- **A piece of a word**: a loose bracket, or a paired part. -/
def IsPiece (piece : List Char) : Prop :=
  piece = ['('] ∨ piece = [')'] ∨ IsPaired piece

/-- The pieces of a word. The one at its head closes as many of the brackets open
in front of the word as there are, if the word closes so many. -/
theorem isPiece_of_mem_splitLooseFrom (h : IsWord word) :
    depth? (min depth (surplus word)) (splitLooseFrom depth word).1 = some 0 ∧
      ∀ piece ∈ (splitLooseFrom depth word).2, IsPiece piece := by
  induction word generalizing depth with
  | nil => exact ⟨by simp [splitLooseFrom, surplus, depth?], nofun⟩
  | cons c word ih =>
    obtain ⟨hc, hword⟩ := isWord_cons.mp h
    have hsemi : c ≠ ';' := by
      rintro rfl
      exact absurd hc (by decide)
    have hcomma : c ≠ ',' := by
      rintro rfl
      exact absurd hc (by decide)
    rw [splitLooseFrom, surplus]
    by_cases hopen : c = '('
    · subst hopen
      obtain ⟨hhead, hothers⟩ := @ih (depth + 1) hword
      rw [if_pos rfl, if_neg (by decide), if_pos rfl]
      dsimp only
      split
      · next hs =>
        rw [hs, Nat.min_zero] at hhead
        refine ⟨by simp [hs, depth?], List.forall_mem_cons.mpr ⟨Or.inl rfl, ?_⟩⟩
        exact forall_mem_push (fun _ => Or.inr (Or.inr hhead)) hothers
      · next hs =>
        refine ⟨?_, hothers⟩
        have hmin : min depth (surplus word - 1) + 1 = min (depth + 1) (surplus word) := by omega
        rw [depth?, if_neg (by simp), if_pos rfl, hmin]
        exact hhead
    · by_cases hclose : c = ')'
      · subst hclose
        obtain ⟨hhead, hothers⟩ := @ih (depth - 1) hword
        rw [if_pos rfl, if_neg (by decide), if_pos rfl]
        dsimp only
        split
        · next h0 =>
          subst h0
          rw [Nat.zero_sub, Nat.zero_min] at hhead
          refine ⟨by rw [Nat.zero_min]; rfl, List.forall_mem_cons.mpr ⟨Or.inr (Or.inl rfl), ?_⟩⟩
          exact forall_mem_push (fun _ => Or.inr (Or.inr hhead)) hothers
        · next h0 =>
          refine ⟨?_, hothers⟩
          have hmin : min depth (surplus word + 1) - 1 = min (depth - 1) (surplus word) := by omega
          rw [depth?, if_neg (by simp; omega), if_neg (by decide), if_pos rfl, hmin]
          exact hhead
      · obtain ⟨hhead, hothers⟩ := @ih depth hword
        rw [if_neg hopen, if_neg hclose, if_neg hclose, if_neg hopen]
        refine ⟨?_, hothers⟩
        rw [depth?, if_neg (by simp [hsemi, hcomma, hclose]), if_neg hopen, if_neg hclose]
        exact hhead

/-- The pieces of a word are the word. -/
theorem flatten_splitLoose (word : List Char) : (splitLoose word).flatten = word := by
  have hfrom : ∀ depth, (splitLooseFrom depth word).1 ++ (splitLooseFrom depth word).2.flatten =
      word := by
    induction word with
    | nil => exact fun _ => rfl
    | cons c word ih =>
      intro depth
      obtain ⟨inner, hkeep | ⟨-, hcut⟩⟩ := splitLooseFrom_cons depth c word
      · rw [hkeep, List.cons_append, ih inner]
      · rw [hcut, List.nil_append, List.flatten_cons, flatten_push, ih inner]
        rfl
  rw [splitLoose, flatten_push, hfrom]

/-- Brackets in pieces count as brackets in their text. -/
theorem expressionDepth?_pieces {pieces : List (List Char)} (h : ∀ piece ∈ pieces, IsPiece piece)
    (hd : depth? depth pieces.flatten = some depth') :
    expressionDepth? depth (pieces.map String.ofList) = some depth' := by
  induction pieces generalizing depth with
  | nil => exact hd
  | cons piece pieces ih =>
    obtain ⟨hpiece, hpieces⟩ := List.forall_mem_cons.mp h
    rw [List.flatten_cons] at hd
    rw [List.map_cons, expressionDepth?]
    rcases hpiece with rfl | rfl | hpaired
    · rcases (depth?_cons hd).2 with ⟨-, hd⟩ | ⟨hc, -⟩ | ⟨hc, -⟩
      · rw [if_neg (by simp), if_pos rfl]
        exact ih hpieces hd
      · cases hc
      · exact absurd rfl hc
    · rcases (depth?_cons hd).2 with ⟨hc, -⟩ | ⟨-, hpos, hd⟩ | ⟨-, hc, -⟩
      · cases hc
      · rw [if_neg (by simp; omega), if_neg (by decide), if_pos rfl]
        exact ih hpieces hd
      · exact absurd rfl hc
    · -- nothing that counts as a token of its own is paired
      have hne : ∀ text : List Char, ¬IsPaired text → String.ofList piece ≠ String.ofList text :=
        fun text ht he => ht (String.ofList_injective he ▸ hpaired)
      have hskip : depth? depth piece = some depth := by
        have hadd := depth?_add hpaired depth
        rwa [Nat.zero_add] at hadd
      have hsemi := hne [';'] (by decide)
      have hcomma := hne [','] (by decide)
      have hopen := hne ['('] (by decide)
      have hclose := hne [')'] (by decide)
      rw [depth?_append, hskip, Option.bind_some] at hd
      rw [if_neg (by rintro (h | ⟨h | h, -⟩) <;> contradiction), if_neg hopen, if_neg hclose]
      exact ih hpieces hd

/-- The pieces of a whole word. -/
theorem isPiece_of_mem_splitLoose (h : IsWord word) : ∀ piece ∈ splitLoose word, IsPiece piece := by
  obtain ⟨hhead, hothers⟩ := @isPiece_of_mem_splitLooseFrom 0 word h
  rw [Nat.zero_min] at hhead
  rw [splitLoose]
  intro piece hmem
  cases hfirst : (splitLooseFrom 0 word).1 with
  | nil =>
    rw [hfirst] at hmem
    exact hothers piece hmem
  | cons c first =>
    rw [hfirst] at hmem hhead
    rcases List.mem_cons.mp hmem with rfl | hmem
    · exact Or.inr (Or.inr hhead)
    · exact hothers piece hmem

/-- **Brackets in tokens count as brackets in the text.** -/
theorem expressionDepth?_ofText (h : depth? depth text = some depth') :
    expressionDepth? depth (ofText text) = some depth' := by
  have hwords : ∀ {word : List Char} {depth depth' : Nat}, IsWord word →
      depth? depth word = some depth' → expressionDepth? depth (ofText word) = some depth' := by
    intro word depth depth' hword h
    rw [ofText_word hword]
    refine expressionDepth?_pieces (isPiece_of_mem_splitLoose (isWord_lower hword)) ?_
    rw [flatten_splitLoose, depth?_lower, h]
  induction text using break_induction generalizing depth with
  | word w hw => exact hwords hw h
  | append w c text hw hc ih =>
    rw [depth?_append] at h
    obtain ⟨depth₁, hw', h⟩ := Option.bind_eq_some_iff.mp h
    rw [ofText_append hc, expressionDepth?_append, hwords hw hw', Option.bind_some]
    obtain ⟨hsemi, hcases⟩ := depth?_cons h
    rcases hcases with ⟨rfl, -⟩ | ⟨rfl, -⟩ | ⟨-, -, hcomma, hrest⟩
    · cases hc
    · cases hc
    · rw [breakTokens]
      split
      · next hm =>
        -- the mark is a comma inside brackets
        have hc : c = ',' := by simpa [isMarkChar, hsemi] using hm
        subst hc
        have hpos := hcomma rfl
        show expressionDepth? depth₁ ("," :: ofText text) = _
        rw [expressionDepth?, if_neg (by simp; omega), if_neg (by decide), if_neg (by decide)]
        exact ih hrest
      · exact ih hrest

/-! ### The characters of the tokens -/

/-- **The tokens of a text hold its characters**, but for blanks and letter case. -/
theorem flatMap_toList_ofText (text : List Char) :
    (ofText text).flatMap String.toList = lower (text.filter fun c => !isGap c) := by
  have hwords : ∀ w, IsWord w →
      (ofText w).flatMap String.toList = lower (w.filter fun c => !isGap c) := by
    intro w hw
    have hkeep : w.filter (fun c => !isGap c) = w := by
      rw [List.filter_eq_self]
      intro c hc
      have hbreak := hw c hc
      rw [isBreak, Bool.or_eq_false_iff] at hbreak
      rw [hbreak.2, Bool.not_false]
    rw [ofText_word hw, hkeep, List.flatMap_map]
    simp [flatten_splitLoose]
  induction text using break_induction with
  | word w hw => exact hwords w hw
  | append w c text hw hc ih =>
    have hbreak : (breakTokens c).flatMap String.toList = lower ([c].filter fun c => !isGap c) := by
      simp only [isBreak, isMarkChar, isGap, Bool.or_eq_true, beq_iff_eq] at hc
      rcases hc with (rfl | rfl) | (((rfl | rfl) | rfl) | rfl) | rfl <;> rfl
    rw [ofText_append hc, List.flatMap_append, List.flatMap_append, hwords w hw, ih, hbreak,
      List.append_cons, List.filter_append, List.filter_append, List.append_assoc]
    simp only [lower, List.map_append]

end Token

end SqlCatalog
