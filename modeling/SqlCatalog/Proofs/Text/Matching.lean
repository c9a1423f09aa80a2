import Mathlib.Data.List.Induction
import SqlCatalog.Proofs.Text.Brackets

/-!
# Brackets and their partners

Two brackets of a text are partners when the text between them is balanced, and a bracket without
a partner is loose (`SqlCatalog.Text.ArePartners`, `SqlCatalog.Text.IsLoose`). Balanced is said by
counting: nowhere have more brackets been closed than opened, and in the end as many
(`SqlCatalog.Text.IsBalanced`).

When a word is cut no partners are looked for. Its brackets are counted from both of its ends:

| a bracket that | has a partner when |
|---|---|
| opens | the rest of the word has a closing bracket to spare (`SqlCatalog.Token.surplus`) |
| closes | the beginning of the word leaves a bracket open (`SqlCatalog.Text.openAfter`) |

Both counts say more than that. A word has more than `n` closing brackets to spare when one of
them stands behind a text that closes `n` brackets (`SqlCatalog.Text.lt_surplus_iff`), and it
leaves more than `n` brackets open when one of them stands in front of a text that leaves `n` open
(`SqlCatalog.Text.lt_openAfter_iff`). These two brackets have a partner there only for `n = 0`,
but the induction takes every `n`.
-/

namespace SqlCatalog

namespace Text

open Token

variable {opened left depth n : Nat} {text word front rest inner : List Char} {c : Char}

/-! ### Balanced texts -/

/-- **A balanced text**: no beginning of it closes more brackets than it opens, and the whole text
closes as many. -/
structure IsBalanced (text : List Char) : Prop where
  /-- No bracket is closed that has not been opened, -/
  closes_le : ∀ front, front <+: text → front.count ')' ≤ front.count '('
  /-- and none is left open. -/
  total : text.count '(' = text.count ')'

/-- What holds for the beginnings of a text with one more character in front. -/
theorem forall_prefix_cons {P : List Char → Prop} :
    (∀ front, front <+: c :: text → P front) ↔
      P [] ∧ ∀ front, front <+: text → P (c :: front) := by
  constructor
  · intro h
    exact ⟨h [] List.nil_prefix, fun front hfront =>
      h (c :: front) (List.cons_prefix_cons.mpr ⟨rfl, hfront⟩)⟩
  · rintro ⟨hnil, hcons⟩ front hfront
    cases front with
    | nil => exact hnil
    | cons d front =>
      obtain ⟨rfl, hrest⟩ := List.cons_prefix_cons.mp hfront
      exact hcons front hrest

theorem depth?_open (depth : Nat) (text : List Char) :
    depth? depth ('(' :: text) = depth? (depth + 1) text := by
  rw [depth?, if_neg (by simp), if_pos rfl]

theorem depth?_close (depth : Nat) (text : List Char) :
    depth? depth (')' :: text) = if depth = 0 then none else depth? (depth - 1) text := by
  rw [depth?, if_neg (by decide : ')' ≠ '('), if_pos rfl]
  simp

theorem depth?_other (hc : isBreak c = false) (hopen : c ≠ '(') (hclose : c ≠ ')') (depth : Nat)
    (text : List Char) : depth? depth (c :: text) = depth? depth text := by
  have hmark : c ≠ ';' ∧ c ≠ ',' := by
    constructor
    · rintro rfl
      exact absurd hc (by decide)
    · rintro rfl
      exact absurd hc (by decide)
  rw [depth?, if_neg (by simp [hmark, hclose]), if_neg hopen, if_neg hclose]

/-- **What is open is what has been opened and not been closed.** -/
theorem depth?_eq_some_iff (hword : IsWord text) :
    depth? opened text = some left ↔
      (∀ front, front <+: text → front.count ')' ≤ opened + front.count '(') ∧
        opened + text.count '(' = left + text.count ')' := by
  induction text generalizing opened with
  | nil =>
    simp only [depth?, Option.some.injEq, List.prefix_nil, forall_eq, List.count_nil, Nat.add_zero,
      Nat.zero_le, true_and]
  | cons c text ih =>
    obtain ⟨hc, htext⟩ := isWord_cons.mp hword
    rw [forall_prefix_cons]
    by_cases hopen : c = '('
    · subst hopen
      rw [depth?_open, ih htext]
      simp only [List.count_cons_self, List.count_cons_of_ne (by decide : '(' ≠ ')'),
        List.count_nil, Nat.zero_le, true_and]
      simp only [Nat.add_right_comm _ 1, Nat.add_assoc]
    by_cases hclose : c = ')'
    · subst hclose
      rw [depth?_close]
      simp only [List.count_cons_self, List.count_cons_of_ne (by decide : ')' ≠ '('),
        List.count_nil, Nat.zero_le, true_and]
      split
      · next h0 =>
        -- the bracket itself closes too many
        subst h0
        refine iff_of_false (fun h => Option.some_ne_none _ h.symm) fun h => ?_
        have hfirst := h.1 [] List.nil_prefix
        rw [List.count_nil, List.count_nil] at hfirst
        omega
      · next h0 =>
        rw [ih htext]
        refine and_congr (forall₂_congr fun front _ => ?_) ?_ <;> omega
    · rw [depth?_other hc hopen hclose, ih htext]
      simp only [List.count_cons_of_ne hopen, List.count_cons_of_ne hclose, List.count_nil,
        Nat.zero_le, true_and]

/-- A balanced word opens and closes nothing. -/
theorem isBalanced_iff (hword : IsWord text) : IsBalanced text ↔ depth? 0 text = some 0 := by
  rw [depth?_eq_some_iff hword]
  simp only [Nat.zero_add]
  exact ⟨fun h => ⟨h.closes_le, h.total⟩, fun h => ⟨h.1, h.2⟩⟩

/-! ### Partners -/

/-- **Partners**: an opening bracket and a closing one with a balanced text between them. -/
def ArePartners (text : List Char) (i j : Nat) : Prop :=
  ∃ before inner behind, text = before ++ '(' :: (inner ++ ')' :: behind) ∧ IsBalanced inner ∧
    i = before.length ∧ j = before.length + 1 + inner.length

/-- **A loose bracket**: one that has no partner. -/
def IsLoose (text : List Char) (k : Nat) : Prop :=
  (text[k]? = some '(' ∨ text[k]? = some ')') ∧ ∀ i j, ArePartners text i j → k ≠ i ∧ k ≠ j

/-! ### Counting from the end -/

/-- **The closing brackets to spare** each stand behind a text that closes the ones in front of
them. -/
theorem lt_surplus_iff (hword : IsWord text) :
    n < surplus text ↔ ∃ inner behind, text = inner ++ ')' :: behind ∧ depth? n inner = some 0 := by
  induction text generalizing n with
  | nil => simp [surplus]
  | cons c text ih =>
    obtain ⟨hc, htext⟩ := isWord_cons.mp hword
    replace ih : ∀ n, n < surplus text ↔ _ := fun n => ih htext
    have hcut : (∃ inner behind, c :: text = inner ++ ')' :: behind ∧ depth? n inner = some 0) ↔
        (c = ')' ∧ n = 0) ∨
          ∃ inner behind, text = inner ++ ')' :: behind ∧ depth? n (c :: inner) = some 0 := by
      constructor
      · rintro ⟨inner, behind, heq, hdepth⟩
        cases inner with
        | nil => exact Or.inl ⟨(List.cons.inj heq).1, Option.some.inj hdepth⟩
        | cons d inner =>
          obtain ⟨rfl, hrest⟩ := List.cons.inj heq
          exact Or.inr ⟨inner, behind, hrest, hdepth⟩
      · rintro (⟨rfl, rfl⟩ | ⟨inner, behind, rfl, hdepth⟩)
        · exact ⟨[], text, rfl, rfl⟩
        · exact ⟨c :: inner, behind, rfl, hdepth⟩
    rw [hcut, surplus]
    by_cases hclose : c = ')'
    · subst hclose
      simp only [depth?_close, true_and]
      cases n with
      | zero => simp
      | succ n => simp [ih]
    rw [if_neg hclose]
    by_cases hopen : c = '('
    · subst hopen
      simp only [depth?_open, ← ih, if_pos, hclose, false_and, false_or]
      omega
    · simp only [if_neg hopen, depth?_other hc hopen hclose, ← ih, hclose, false_and, false_or]

/-! ### Counting from the beginning -/

/-- One more character behind `depth` open brackets. -/
def openStep (depth : Nat) (c : Char) : Nat :=
  if c = '(' then depth + 1 else if c = ')' then depth - 1 else depth

/-- **The number of brackets that a text leaves open.** -/
def openAfter (text : List Char) : Nat :=
  text.foldl openStep 0

theorem openAfter_concat (text : List Char) (c : Char) :
    openAfter (text ++ [c]) = openStep (openAfter text) c :=
  List.foldl_append ..

/-- An opening bracket of a text with a character behind it is that character, or one in front. -/
theorem exists_open_concat_iff :
    (∃ before inner, text ++ [c] = before ++ '(' :: inner ∧ depth? 0 inner = some n) ↔
      (c = '(' ∧ n = 0) ∨
        ∃ before inner, text = before ++ '(' :: inner ∧ depth? 0 (inner ++ [c]) = some n := by
  constructor
  · rintro ⟨before, inner, heq, hdepth⟩
    rcases List.eq_nil_or_concat inner with rfl | ⟨inner, d, rfl⟩
    · obtain ⟨-, hend⟩ := List.append_inj' heq rfl
      exact Or.inl ⟨List.singleton_inj.mp hend, (Option.some.inj hdepth).symm⟩
    · rw [List.concat_eq_append, ← List.cons_append, ← List.append_assoc] at heq
      obtain ⟨hbefore, hend⟩ := List.append_inj' heq rfl
      rw [List.concat_eq_append, ← List.singleton_inj.mp hend] at hdepth
      exact Or.inr ⟨before, inner, hbefore, hdepth⟩
  · rintro (⟨rfl, rfl⟩ | ⟨before, inner, rfl, hdepth⟩)
    · exact ⟨text, [], rfl, rfl⟩
    · exact ⟨before, inner ++ [c], by simp, hdepth⟩

/-- **The brackets left open** each stand in front of a text that leaves the ones behind them
open. -/
theorem lt_openAfter_iff (hword : IsWord text) :
    n < openAfter text ↔
      ∃ before inner, text = before ++ '(' :: inner ∧ depth? 0 inner = some n := by
  induction text using List.reverseRecOn generalizing n with
  | nil => simp [openAfter]
  | append_singleton text c ih =>
    obtain ⟨htext, hlast⟩ := isWord_append.mp hword
    have hc : isBreak c = false := hlast c (List.mem_singleton_self c)
    replace ih : ∀ n, n < openAfter text ↔ _ := fun n => ih htext
    rw [exists_open_concat_iff, openAfter_concat, openStep]
    simp only [depth?_append, Option.bind_eq_some_iff]
    by_cases hopen : c = '('
    · subst hopen
      have hlast : ∀ m, depth? m ['('] = some n ↔ m + 1 = n := by simp [depth?]
      simp only [hlast, if_pos, true_and]
      cases n with
      | zero => simp
      | succ n => simp [ih]
    by_cases hclose : c = ')'
    · subst hclose
      have hlast : ∀ m, depth? m [')'] = some n ↔ m = n + 1 := by
        intro m
        rw [depth?_close]
        split
        · simp
          omega
        · simp [depth?]
          omega
      simp only [hlast, hopen, if_false, if_pos, false_and, false_or, exists_eq_right, ← ih]
      omega
    · have hlast : ∀ m, depth? m [c] = some n ↔ m = n := by
        intro m
        rw [depth?_other hc hopen hclose, depth?, Option.some.injEq]
      simp only [hlast, hopen, hclose, if_false, false_and, false_or, exists_eq_right, ← ih]

/-! ### Loose brackets -/

/-- A bracket stands behind the text in front of it. -/
theorem getElem?_length (front : List Char) (c : Char) (rest : List Char) :
    (front ++ c :: rest)[front.length]? = some c := by
  rw [List.getElem?_append_right (Nat.le_refl _), Nat.sub_self]
  rfl

/-- The first of two partners opens and the second one closes. -/
theorem ArePartners.getElem? {i j : Nat} (h : ArePartners text i j) :
    text[i]? = some '(' ∧ text[j]? = some ')' := by
  obtain ⟨before, inner, behind, rfl, -, rfl, rfl⟩ := h
  refine ⟨getElem?_length .., ?_⟩
  have hcut : before ++ '(' :: (inner ++ ')' :: behind) =
      (before ++ '(' :: inner) ++ ')' :: behind := by simp
  have hlen : before.length + 1 + inner.length = (before ++ '(' :: inner).length := by
    rw [List.length_append, List.length_cons]
    omega
  rw [hcut, hlen, getElem?_length]

/-- **An opening bracket is loose** when the rest of the word has no closing bracket to spare. -/
theorem isLoose_open (hword : IsWord rest) (front : List Char) :
    IsLoose (front ++ '(' :: rest) front.length ↔ surplus rest = 0 := by
  have hpartner : 0 < surplus rest ↔ ∃ j, ArePartners (front ++ '(' :: rest) front.length j := by
    rw [lt_surplus_iff hword]
    constructor
    · rintro ⟨inner, behind, rfl, hdepth⟩
      have hinner := (isWord_append.mp hword).1
      exact ⟨_, front, inner, behind, rfl, (isBalanced_iff hinner).mpr hdepth, rfl, rfl⟩
    · rintro ⟨j, before, inner, behind, htext, hinner, hlen, -⟩
      obtain ⟨-, hrest⟩ := List.append_inj htext hlen
      obtain ⟨-, rfl⟩ := List.cons.inj hrest
      exact ⟨inner, behind, rfl, (isBalanced_iff (isWord_append.mp hword).1).mp hinner⟩
  have hhere := getElem?_length front '(' rest
  constructor
  · rintro ⟨-, hloose⟩
    refine Nat.eq_zero_of_not_pos fun hpos => ?_
    obtain ⟨j, hj⟩ := hpartner.mp hpos
    exact (hloose _ j hj).1 rfl
  · intro hs
    refine ⟨Or.inl hhere, fun i j hij => ⟨?_, ?_⟩⟩
    · rintro rfl
      have hpos := hpartner.mpr ⟨j, hij⟩
      omega
    · rintro rfl
      have hclose := hhere.symm.trans hij.getElem?.2
      cases hclose

/-- **A closing bracket is loose** when the beginning of the word leaves none open. -/
theorem isLoose_close (hword : IsWord front) (rest : List Char) :
    IsLoose (front ++ ')' :: rest) front.length ↔ openAfter front = 0 := by
  have hpartner : 0 < openAfter front ↔ ∃ i, ArePartners (front ++ ')' :: rest) i front.length := by
    rw [lt_openAfter_iff hword]
    constructor
    · rintro ⟨before, inner, rfl, hdepth⟩
      have hinner := (isWord_cons.mp (isWord_append.mp hword).2).2
      refine ⟨_, before, inner, rest, by simp, (isBalanced_iff hinner).mpr hdepth, rfl, ?_⟩
      rw [List.length_append, List.length_cons]
      omega
    · rintro ⟨i, before, inner, behind, htext, hinner, -, hlen⟩
      have hcut : before ++ '(' :: (inner ++ ')' :: behind) =
          (before ++ '(' :: inner) ++ ')' :: behind := by simp
      rw [hcut] at htext
      obtain ⟨rfl, -⟩ := List.append_inj htext (by simp; omega)
      have hin := (isWord_cons.mp (isWord_append.mp hword).2).2
      exact ⟨before, inner, rfl, (isBalanced_iff hin).mp hinner⟩
  have hhere := getElem?_length front ')' rest
  constructor
  · rintro ⟨-, hloose⟩
    refine Nat.eq_zero_of_not_pos fun hpos => ?_
    obtain ⟨i, hi⟩ := hpartner.mp hpos
    exact (hloose i _ hi).2 rfl
  · intro hnone
    refine ⟨Or.inr hhere, fun i j hij => ⟨?_, ?_⟩⟩
    · rintro rfl
      have hopen := hhere.symm.trans hij.getElem?.1
      cases hopen
    · rintro rfl
      have hpos := hpartner.mpr ⟨i, hij⟩
      omega

/-- No other character is. -/
theorem not_isLoose (hopen : c ≠ '(') (hclose : c ≠ ')') (front rest : List Char) :
    ¬IsLoose (front ++ c :: rest) front.length := by
  rintro ⟨hbracket, -⟩
  simp only [getElem?_length, Option.some.injEq] at hbracket
  exact hbracket.elim hopen hclose

end Text

end SqlCatalog
