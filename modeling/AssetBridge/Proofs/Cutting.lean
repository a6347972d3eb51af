import AssetBridge.Proofs.Splitting
import AssetBridge.Source.Token

/-!
# Cutting a text into tokens

A text is cut from left to right: as long as no delimiter begins, characters are put into an atom,
and where delimiters begin, the first of them in the list is cut off. What comes out is fixed by
that alone, so every text has one cut. Nothing of the text is lost in it, atoms and delimiters take
turns, and no delimiter is left inside an atom. The hyphen between blanks stands before the blank
in the list, so that a blank which is cut off alone never opens such a hyphen.

## Main definitions

* `Source.Passes`: a text in which no delimiter begins
* `Source.IsCut`: what a cut from left to right leaves
* `Source.TakesTurns`: a text as atoms and delimiters

## Main results

* `flatten_tokenize`: the tokens of a text are the text
* `tokenize_eq_iff`: the tokens of a text are its only cut
* `takesTurns_tokenize`: every text is cut into atoms and delimiters by turns
-/

namespace AssetBridge.Source

/-! ## Delimiters -/

theorem delimiters_eq : delimiters =
    [[' ', '-', ' '], ['<'], ['>'], ['='], ['|', '|'], [' '], [','], ['~'], ['^']] := rfl

variable {a d s : Text} {ts : List Text}

theorem mem_delimiters_of_delimiter? (h : delimiter? s = some d) : d ∈ delimiters :=
  List.mem_of_find?_eq_some h

theorem startsWith_of_delimiter? (h : delimiter? s = some d) : Text.startsWith d s = true := by
  have hstart := List.find?_some h
  exact hstart

/-- No delimiter is empty. -/
theorem exists_eq_cons_of_mem_delimiters (h : d ∈ delimiters) : ∃ c r, d = c :: r := by
  refine List.exists_cons_of_ne_nil ?_
  rintro rfl
  exact absurd h (by decide)

/-- A delimiter that begins a text stands in front of what is left without its characters. -/
theorem append_drop_of_delimiter? {c : Char} (h : delimiter? (c :: s) = some d) :
    d ++ s.drop (d.length - 1) = c :: s := by
  obtain ⟨r, hr⟩ := Text.startsWith_iff.1 (startsWith_of_delimiter? h)
  obtain ⟨e, d, rfl⟩ := exists_eq_cons_of_mem_delimiters (mem_delimiters_of_delimiter? h)
  obtain ⟨rfl, hs⟩ := List.cons.inj hr
  have hrest : s.drop d.length = r := by
    rw [hs]
    exact List.drop_left
  rw [List.length_cons, Nat.add_sub_cancel, hrest]
  exact hr.symm

/-! ## What stays together -/

/-- **A text that is passed over**: no delimiter begins in it, not even one that ends in what stands
behind. -/
def Passes (a s : Text) : Prop := ∀ t, t <:+ a → t ≠ [] → delimiter? (t ++ s) = none

theorem passes_nil (s : Text) : Passes [] s := fun _ ht hne =>
  absurd (List.suffix_nil.1 ht) hne

theorem Passes.cons {c : Char} (hc : delimiter? (c :: (a ++ s)) = none) (h : Passes a s) :
    Passes (c :: a) s := by
  intro t ht hne
  rcases List.suffix_cons_iff.1 ht with rfl | ht
  · exact hc
  · exact h t ht hne

theorem Passes.tail {c : Char} (h : Passes (c :: a) s) : Passes a s := fun t ht =>
  h t (ht.trans (List.suffix_cons c a))

/-- What is passed over holds no delimiter. -/
theorem Passes.contains_eq_false (h : Passes a s) (hd : d ∈ delimiters) :
    Text.contains d a = false := by
  rw [Bool.eq_false_iff, ne_eq, Text.contains_iff]
  rintro ⟨front, back, rfl⟩
  obtain ⟨c, r, rfl⟩ := exists_eq_cons_of_mem_delimiters hd
  have hnone := h ((c :: r) ++ back) ⟨front, by rw [List.append_assoc]⟩ (by simp)
  refine List.find?_eq_none.1 hnone (c :: r) hd (Text.startsWith_iff.2 ⟨back ++ s, ?_⟩)
  rw [List.append_assoc]

/-- **Cuts**: atoms are passed over, and between two of them stands the first delimiter that begins
there. -/
inductive IsCut : List Text → Prop
  | last {a : Text} : Passes a [] → IsCut [a]
  | step {a d : Text} {ts : List Text} : Passes a (d ++ ts.flatten) →
      delimiter? (d ++ ts.flatten) = some d → IsCut ts → IsCut (a :: d :: ts)

theorem IsCut.extendFirst {c : Char} (h : IsCut ts) (hc : delimiter? (c :: ts.flatten) = none) :
    IsCut (Text.extendFirst c ts) := by
  cases h with
  | last ha => exact .last (ha.cons (by simpa using hc))
  | step ha hd h => exact .step (ha.cons (by simpa using hc)) hd h

/-! ## The scan -/

theorem tokensFrom_length_append (d s : Text) :
    tokensFrom d.length (d ++ s) = tokensFrom 0 s := by
  induction d with
  | nil => simp
  | cons c d ih => simpa [tokensFrom] using ih

theorem tokensFrom_append_of_passes (ha : Passes a s) {t : Text}
    (h : tokensFrom 0 s = t :: ts) : tokensFrom 0 (a ++ s) = (a ++ t) :: ts := by
  induction a with
  | nil => exact h
  | cons c a ih =>
    have hc : delimiter? (c :: (a ++ s)) = none := ha (c :: a) List.suffix_rfl (by simp)
    rw [List.cons_append, tokensFrom, hc, ih ha.tail]
    rfl

theorem tokensFrom_append_of_delimiter? (h : delimiter? (d ++ s) = some d) :
    tokensFrom 0 (d ++ s) = [] :: d :: tokensFrom 0 s := by
  obtain ⟨c, r, rfl⟩ := exists_eq_cons_of_mem_delimiters (mem_delimiters_of_delimiter? h)
  rw [List.cons_append] at h ⊢
  rw [tokensFrom, h]
  show [] :: (c :: r) :: tokensFrom r.length (r ++ s) = _
  rw [tokensFrom_length_append]

/-- The scan finds a cut again in the text that it makes. -/
theorem IsCut.tokenize_flatten (h : IsCut ts) : tokenize ts.flatten = ts := by
  unfold tokenize
  induction h with
  | @last a ha =>
    have hnil : tokensFrom 0 [] = [[]] := rfl
    simpa using tokensFrom_append_of_passes ha hnil
  | @step a d ts ha hd _ ih =>
    have hrest := tokensFrom_append_of_delimiter? hd
    rw [ih] at hrest
    simpa using tokensFrom_append_of_passes ha hrest

theorem flatten_extendFirst (c : Char) (ts : List Text) :
    (Text.extendFirst c ts).flatten = c :: ts.flatten := by
  cases ts <;> simp [Text.extendFirst]

theorem flatten_tokensFrom (k : Nat) (s : Text) : (tokensFrom k s).flatten = s.drop k := by
  induction s generalizing k with
  | nil => cases k <;> rfl
  | cons c s ih =>
    cases k with
    | succ k => exact ih k
    | zero =>
      rw [tokensFrom]
      split
      · rename_i d hd
        rw [List.flatten_cons, List.flatten_cons, ih]
        exact append_drop_of_delimiter? hd
      · rw [flatten_extendFirst, ih, List.drop_zero, List.drop_zero]

/-- **The tokens of a text** are the text. -/
theorem flatten_tokenize (s : Text) : (tokenize s).flatten = s := flatten_tokensFrom 0 s

/-- What the scan leaves is a cut, also behind characters that it passes over. -/
theorem isCut_tokensFrom (k : Nat) (s : Text) : IsCut (tokensFrom k s) := by
  induction s generalizing k with
  | nil => cases k <;> exact .last (passes_nil [])
  | cons c s ih =>
    cases k with
    | succ k => exact ih k
    | zero =>
      rw [tokensFrom]
      split
      · rename_i d hd
        have hflatten : d ++ (tokensFrom (d.length - 1) s).flatten = c :: s := by
          rw [flatten_tokensFrom]
          exact append_drop_of_delimiter? hd
        exact .step (passes_nil _) (by rw [hflatten, hd]) (ih _)
      · rename_i hnone
        refine (ih 0).extendFirst ?_
        rwa [flatten_tokensFrom, List.drop_zero]

theorem isCut_tokenize (s : Text) : IsCut (tokenize s) := isCut_tokensFrom 0 s

/-- **The only cut**: the tokens of a text are the cut that makes the text. -/
theorem tokenize_eq_iff : tokenize s = ts ↔ ts.flatten = s ∧ IsCut ts := by
  constructor
  · rintro rfl
    exact ⟨flatten_tokenize s, isCut_tokenize s⟩
  · rintro ⟨rfl, h⟩
    exact h.tokenize_flatten

/-! ## Turns -/

namespace IsCut

theorem length_mod_two (h : IsCut ts) : ts.length % 2 = 1 := by
  induction h with
  | last _ => rfl
  | step _ _ _ ih =>
    rw [List.length_cons, List.length_cons]
    omega

theorem mem_delimiters (h : IsCut ts) {i : Nat} (hi : i % 2 = 1) (hd : ts[i]? = some d) :
    d ∈ delimiters := by
  -- Induction on the cut: every turn takes two places.
  induction h generalizing i with
  | last _ =>
    rw [List.getElem?_eq_none (by simp; omega)] at hd
    cases hd
  | step _ hfirst _ ih =>
    match i with
    | 1 =>
      obtain rfl := Option.some.inj hd
      exact mem_delimiters_of_delimiter? hfirst
    | i + 2 => exact ih (by omega) hd

theorem contains_eq_false (h : IsCut ts) {i : Nat} (hi : i % 2 = 0) (ha : ts[i]? = some a)
    (hd : d ∈ delimiters) : Text.contains d a = false := by
  induction h generalizing i with
  | last hpasses =>
    match i with
    | 0 =>
      obtain rfl := Option.some.inj ha
      exact hpasses.contains_eq_false hd
    | i + 1 => cases ha
  | step hpasses _ _ ih =>
    match i with
    | 0 =>
      obtain rfl := Option.some.inj ha
      exact hpasses.contains_eq_false hd
    | i + 2 => exact ih (by omega) ha

/-- A blank that is cut off alone opens no hyphen between blanks. -/
theorem startsWith_drop (h : IsCut ts) {i : Nat} (hi : i % 2 = 1) (hd : ts[i]? = some [' ']) :
    Text.startsWith ['-', ' '] (ts.drop (i + 1)).flatten = false := by
  induction h generalizing i with
  | last _ =>
    rw [List.getElem?_eq_none (by simp; omega)] at hd
    cases hd
  | @step a d ts _ hfirst _ ih =>
    match i with
    | 1 =>
      obtain rfl : d = [' '] := Option.some.inj hd
      rw [Bool.eq_false_iff]
      intro hstart
      -- The hyphen between blanks would have been cut off first.
      obtain ⟨r, hr⟩ := Text.startsWith_iff.1 hstart
      have hhyphen : delimiter? ([' '] ++ ts.flatten) = some hyphenMarker := by
        have hflatten : ts.flatten = ['-', ' '] ++ r := hr
        rw [hflatten]
        exact List.find?_cons_of_pos (Text.startsWith_iff.2 ⟨r, rfl⟩)
      cases hfirst.symm.trans hhyphen
    | i + 2 => exact ih (by omega) hd

end IsCut

/-- **A text as atoms and delimiters by turns**, from an atom to an atom: nothing of the text is
lost, no atom holds a delimiter, and no blank that is a delimiter of its own opens a hyphen between
blanks. -/
structure TakesTurns (s : Text) (ts : List Text) : Prop where
  length_mod_two : ts.length % 2 = 1
  flatten_eq : ts.flatten = s
  mem_delimiters : ∀ i, i % 2 = 1 → ∀ d, ts[i]? = some d → d ∈ delimiters
  contains_eq_false : ∀ i, i % 2 = 0 → ∀ a, ts[i]? = some a →
    ∀ d ∈ delimiters, Text.contains d a = false
  blank_opens_no_hyphen : ∀ i, i % 2 = 1 → ts[i]? = some [' '] → ∀ a, ts[i + 1]? = some a →
    Text.startsWith ['-', ' '] a = false ∧ (a = ['-'] → ts[i + 2]? ≠ some [' '])

/-- **Every text is cut into atoms and delimiters by turns.** -/
theorem takesTurns_tokenize (s : Text) : TakesTurns s (tokenize s) := by
  have hcut := isCut_tokenize s
  refine ⟨hcut.length_mod_two, flatten_tokenize s, fun i hi d hd => hcut.mem_delimiters hi hd,
    fun i hi a ha d hd => hcut.contains_eq_false hi ha hd, fun i hi hblank a ha => ?_⟩
  have hnot := hcut.startsWith_drop hi hblank
  -- What stands behind the blank opens with the atom.
  have hdrop : (tokenize s).drop (i + 1) = a :: (tokenize s).drop (i + 2) := by
    obtain ⟨hlt, rfl⟩ := List.getElem?_eq_some_iff.1 ha
    exact List.drop_eq_getElem_cons hlt
  rw [hdrop, List.flatten_cons, Bool.eq_false_iff] at hnot
  constructor
  · rw [Bool.eq_false_iff]
    intro hstart
    obtain ⟨r, rfl⟩ := Text.startsWith_iff.1 hstart
    exact hnot (Text.startsWith_iff.2 ⟨_, List.append_assoc _ _ _⟩)
  · rintro rfl hnext
    have hdrop' : (tokenize s).drop (i + 2) = [' '] :: (tokenize s).drop (i + 3) := by
      obtain ⟨hlt, hget⟩ := List.getElem?_eq_some_iff.1 hnext
      rw [← hget]
      exact List.drop_eq_getElem_cons hlt
    rw [hdrop', List.flatten_cons] at hnot
    exact hnot (Text.startsWith_iff.2 ⟨_, rfl⟩)

example : tokenize "1|||2 -3 - 4".toList =
    ["1".toList, "||".toList, "|2".toList, " ".toList, "-3".toList, hyphenMarker, "4".toList] := rfl

end AssetBridge.Source
