import AssetBridge.Proofs.Components
import Mathlib.Data.Bool.AllAny

/-!
# Canonical suffixes

Whatever stands behind the components of a version, its conversion puts one of a few suffixes in
its place: the development mark, or a keyword and a number. Such a suffix is converted into itself.

The text of a suffix is arbitrary. What is known of it is only that a keyword is taken from its
front and a number is searched in the rest, so the argument runs over the results: whatever the
search finds has one of three forms, and a search that starts at such a form finds all of it.

## Main definitions

* `Label`, `SuffixNumber`, `CanonicalSuffix`: the suffixes of converted versions

## Main results

* `exists_of_firstNumber?`, `firstNumber?_text`: the number that a suffix keeps
* `exists_targetSuffix`: every suffix is converted into a canonical one
* `CanonicalSuffix.targetSuffix_lower`: a canonical suffix is converted into itself
-/

namespace AssetBridge.Source

open Grammar (DigitRun Wildcard)

/-! ## Canonical suffixes -/

/-- The keywords that a number follows. -/
inductive Label where
  | alpha
  | beta
  | candidate
  | patch
deriving DecidableEq, Repr

/-- The keyword of a label in the target grammar. -/
def Label.text : Label → Text
  | alpha => Stability.alpha.keyword
  | beta => Stability.beta.keyword
  | candidate => Stability.rc.keyword
  | patch => Stability.patchKeyword

/-- The numbers that a suffix keeps: digits, digits with a fraction, or a fraction alone. -/
inductive SuffixNumber where
  | whole (d : DigitRun)
  | fractional (d e : DigitRun)
  | fraction (e : DigitRun)

/-- How such a number is written. -/
def SuffixNumber.text : SuffixNumber → Text
  | whole d => d.digits
  | fractional d e => d.digits ++ '.' :: e.digits
  | fraction e => '.' :: e.digits

/-- **Canonical suffixes**: the development mark, or a keyword with a number. -/
inductive CanonicalSuffix where
  | dev
  | numbered (label : Label) (number : SuffixNumber)

/-- How a canonical suffix is written behind its hyphen. -/
def CanonicalSuffix.text : CanonicalSuffix → Text
  | dev => Stability.dev.keyword
  | numbered label number => label.text ++ number.text

/-- The characters of canonical suffixes that are no digits. -/
def suffixChars : List Char := ".RCabcdehlptv".toList

theorem SuffixNumber.isDigit_or_eq (N : SuffixNumber) {c : Char} (hc : c ∈ N.text) :
    c.isDigit = true ∨ c = '.' := by
  cases N with
  | whole d => exact .inl (d.isDigit_of_mem c hc)
  | fractional d e =>
    simp only [text, List.mem_append, List.mem_cons] at hc
    rcases hc with hc | hc | hc
    · exact .inl (d.isDigit_of_mem c hc)
    · exact .inr hc
    · exact .inl (e.isDigit_of_mem c hc)
  | fraction e =>
    simp only [text, List.mem_cons] at hc
    rcases hc with hc | hc
    · exact .inr hc
    · exact .inl (e.isDigit_of_mem c hc)

theorem SuffixNumber.text_ne_nil (N : SuffixNumber) : N.text ≠ [] := by
  cases N with
  | whole d => exact d.digits_ne_nil
  | fractional d e => simp [text]
  | fraction e => simp [text]

theorem Label.mem_suffixChars (label : Label) : ∀ c ∈ label.text, c ∈ suffixChars := by
  cases label <;> exact List.all_iff_forall_prop.1 rfl

theorem Label.isDecimal_eq_false (label : Label) :
    ∀ c ∈ label.text, Text.isDecimal c = false := by
  cases label <;> exact List.all_iff_forall_prop.1 rfl

theorem CanonicalSuffix.isDigit_or_mem (t : CanonicalSuffix) {c : Char} (hc : c ∈ t.text) :
    c.isDigit = true ∨ c ∈ suffixChars := by
  cases t with
  | dev =>
    have hdev : ∀ c ∈ Stability.dev.keyword, c ∈ suffixChars := List.all_iff_forall_prop.1 rfl
    exact .inr (hdev c hc)
  | numbered label number =>
    rcases List.mem_append.1 hc with hc | hc
    · exact .inr (label.mem_suffixChars c hc)
    · rcases number.isDigit_or_eq hc with hd | rfl
      · exact .inl hd
      · exact .inr (by decide)

theorem CanonicalSuffix.not_mem_text (t : CanonicalSuffix) {c : Char} (hd : c.isDigit = false)
    (hc : c ∉ suffixChars) : c ∉ t.text := by
  intro hm
  rcases t.isDigit_or_mem hm with h | h
  · simp [hd] at h
  · exact hc h

theorem CanonicalSuffix.toNat_lt (t : CanonicalSuffix) : ∀ c ∈ t.text, c.toNat < 0x80 := by
  intro c hc
  have hchars : ∀ d ∈ suffixChars, d.toNat < 0x80 := List.all_iff_forall_prop.1 rfl
  rcases t.isDigit_or_mem hc with hd | hd
  · have := Text.toNat_of_isDigit hd
    omega
  · exact hchars c hd

/-- Behind a hyphen a canonical suffix is one that converting looks at. -/
theorem CanonicalSuffix.opensSuffix_text (t : CanonicalSuffix) :
    opensSuffix ('-' :: t.text) = true := by
  cases t with
  | dev => rfl
  | numbered label number => cases label <;> rfl

/-! ## The number of a suffix -/

/-- What a scanner of digits takes, when it takes something. -/
theorem exists_digitRun {s : Text} (h : (s.takeWhile Char.isDigit).isEmpty = false) :
    ∃ d : DigitRun, d.digits = s.takeWhile Char.isDigit :=
  ⟨⟨_, by simpa using h, List.all_eq_true.1 List.all_takeWhile⟩, rfl⟩

/-- The fraction behind a number is a number behind a point, if there is any. -/
theorem fraction_eq (s : Text) :
    fraction s = [] ∨ ∃ e : DigitRun, fraction s = '.' :: e.digits ∧ fraction s <+: s := by
  unfold fraction
  split
  · rename_i r
    by_cases hr : (r.takeWhile Char.isDigit).isEmpty = true
    · exact .inl (if_pos hr)
    · obtain ⟨e, he⟩ := exists_digitRun (Bool.eq_false_iff.2 hr)
      refine .inr ⟨e, ?_, ?_⟩
      · rw [if_neg hr, he]
      · rw [if_neg hr]
        exact List.cons_prefix_cons.2 ⟨rfl, List.takeWhile_prefix _⟩
  · exact .inl rfl

/-- **Whatever the search finds** is a number of one of the three forms, and stands in the text. -/
theorem exists_of_firstNumber? {s n : Text} (h : firstNumber? s = some n) :
    ∃ N : SuffixNumber, N.text = n ∧ n <:+: s := by
  -- Induction on the text: a character that opens no number is passed over.
  induction s with
  | nil => cases h
  | cons c s ih =>
    rw [firstNumber?] at h
    split at h
    · rename_i hc
      obtain rfl := Option.some.inj h
      have hd : ((c :: s).takeWhile Char.isDigit) = c :: s.takeWhile Char.isDigit :=
        List.takeWhile_cons_of_pos hc
      obtain ⟨d, hd'⟩ := exists_digitRun (s := c :: s) (by rw [hd]; rfl)
      rw [hd] at hd'
      have hsplit := List.takeWhile_append_dropWhile (p := Char.isDigit) (l := s)
      rcases fraction_eq (s.dropWhile Char.isDigit) with hf | ⟨e, hf, hpre⟩
      · refine ⟨.whole d, by simp [SuffixNumber.text, hd', hf], ?_⟩
        rw [hf, List.append_nil]
        exact (List.cons_prefix_cons.2 ⟨rfl, List.takeWhile_prefix _⟩).isInfix
      · refine ⟨.fractional d e, by simp [SuffixNumber.text, hd', hf], ?_⟩
        have hwhole := (List.prefix_append_right_inj (s.takeWhile Char.isDigit)).2 hpre
        rw [hsplit] at hwhole
        exact (List.cons_prefix_cons.2 ⟨rfl, hwhole⟩).isInfix
    · split at h
      · rename_i hpoint
        simp only [Bool.and_eq_true, decide_eq_true_eq, Bool.not_eq_true'] at hpoint
        obtain ⟨⟨rfl, hne⟩, -⟩ := hpoint
        obtain rfl := Option.some.inj h
        obtain ⟨e, he⟩ := exists_digitRun hne
        refine ⟨.fraction e, by simp [SuffixNumber.text, he], ?_⟩
        exact (List.cons_prefix_cons.2 ⟨rfl, List.takeWhile_prefix _⟩).isInfix
      · obtain ⟨N, hN, hs⟩ := ih h
        exact ⟨N, hN, hs.trans (List.suffix_cons c s).isInfix⟩

/-- A number opens the text: the search finds it there. -/
theorem firstNumber?_digits_append (d : DigitRun) {r : Text}
    (hr : ∀ c ∈ r.head?, c.isDigit = false) :
    firstNumber? (d.digits ++ r) = some (d.digits ++ fraction r) := by
  obtain ⟨c, s, hc⟩ := List.exists_cons_of_ne_nil d.digits_ne_nil
  have hd : ∀ e ∈ c :: s, e.isDigit = true := hc ▸ d.isDigit_of_mem
  have hs : ∀ e ∈ s, e.isDigit = true := fun e he => hd e (by simp [he])
  obtain ⟨ht, hd'⟩ := Text.scan_eq_of_head? hr
  rw [hc, List.cons_append, firstNumber?, if_pos (hd c (by simp)),
    Text.takeWhile_isDigit_append hs, Text.dropWhile_isDigit_append hs, ht, hd', List.append_nil]

/-- **A number is found** as a whole where nothing stands around it. -/
theorem firstNumber?_text (N : SuffixNumber) : firstNumber? N.text = some N.text := by
  have hscan : ∀ e : DigitRun, e.digits.takeWhile Char.isDigit = e.digits ∧
      e.digits.dropWhile Char.isDigit = [] := fun e => Text.scan_eq_of_forall e.isDigit_of_mem
  have hne : ∀ e : DigitRun, e.digits.isEmpty = false := fun e => by simpa using e.digits_ne_nil
  cases N with
  | whole d =>
    have hw := firstNumber?_digits_append d (r := []) (by simp)
    have hnone : fraction [] = [] := rfl
    rwa [hnone, List.append_nil] at hw
  | fractional d e =>
    have hf : fraction ('.' :: e.digits) = '.' :: e.digits := by simp [fraction, hscan e, hne e]
    have hpoint : ∀ c ∈ ('.' :: e.digits).head?, c.isDigit = false := by
      rintro c ⟨⟩
      rfl
    rw [SuffixNumber.text, firstNumber?_digits_append d hpoint, hf]
  | fraction e =>
    have hpoint : ('.' : Char).isDigit = false := rfl
    simp [SuffixNumber.text, firstNumber?, hpoint, hscan e, hne e]

/-! ## The conversion of a suffix -/

theorem dropSuffixSign_isSuffix (s : Text) : dropSuffixSign s <:+ s := by
  unfold dropSuffixSign
  split
  · exact List.suffix_cons _ _
  · exact List.suffix_cons _ _
  · exact List.suffix_refl _

/-- A keyword is that of development versions, or it is given a label with a number. -/
theorem classify_eq (w : Text) : Stability.classify w = (Stability.dev.keyword, false) ∨
    ∃ label : Label, Stability.classify w = (label.text, true) := by
  unfold Stability.classify
  by_cases hdev : w = "dev".toList ∨ w = "snapshot".toList
  · exact .inl (if_pos hdev)
  · refine .inr ?_
    rw [if_neg hdev]
    by_cases halpha : w = "a".toList ∨ w = Stability.alpha.keyword
    · exact ⟨.alpha, if_pos halpha⟩
    · rw [if_neg halpha]
      by_cases hbeta : w = "b".toList ∨ w = "pre".toList ∨ w = Stability.beta.keyword
      · exact ⟨.beta, if_pos hbeta⟩
      · rw [if_neg hbeta]
        by_cases hrc : w = Stability.rc.keyword
        · exact ⟨.candidate, if_pos hrc⟩
        · exact ⟨.patch, if_neg hrc⟩

/-- **Every suffix** is converted into a canonical one. Its number stands in the text, or it is the
one that a suffix without a number is given. -/
theorem exists_targetSuffix (s : Text) : ∃ t : CanonicalSuffix, targetSuffix s = t.text ∧
    ∀ label N, t = .numbered label N → N.text <:+: s ∨ N.text = ['1'] := by
  rcases classify_eq (Stability.normalizeKeyword (s.takeWhile Text.isSmall)) with
    hdev | ⟨label, hlabel⟩
  · refine ⟨.dev, ?_, ?_⟩
    · rw [targetSuffix, hdev]
      exact List.append_nil _
    · rintro label N ⟨⟩
  · rw [targetSuffix, hlabel]
    cases hn : firstNumber? (s.dropWhile Text.isSmall) with
    | none =>
      refine ⟨.numbered label (.whole ⟨['1'], by simp, by simp⟩), rfl, ?_⟩
      rintro label' N ⟨⟩
      exact .inr rfl
    | some n =>
      obtain ⟨N, rfl, hs⟩ := exists_of_firstNumber? hn
      refine ⟨.numbered label N, rfl, ?_⟩
      rintro label' N' ⟨⟩
      exact .inl (hs.trans (List.dropWhile_suffix _).isInfix)

/-- Where a keyword in small letters is followed by a number, both are found. -/
theorem targetSuffix_append {w : Text} (hw : ∀ c ∈ w, Text.isSmall c = true) (label : Label)
    (N : SuffixNumber)
    (h : Stability.classify (Stability.normalizeKeyword w) = (label.text, true)) :
    targetSuffix (w ++ N.text) = label.text ++ N.text := by
  have hhead : ∀ c ∈ N.text.head?, Text.isSmall c = false := by
    intro c hc
    rcases N.isDigit_or_eq (List.mem_of_mem_head? hc) with hd | rfl
    · exact Text.isSmall_eq_false_of_isDigit hd
    · rfl
  have hscan := Text.scan_eq_of_head? hhead
  have htake : (w ++ N.text).takeWhile Text.isSmall = w := by
    rw [List.takeWhile_append_of_pos hw, hscan.1, List.append_nil]
  have hdrop : (w ++ N.text).dropWhile Text.isSmall = N.text := by
    rw [List.dropWhile_append_of_pos hw, hscan.2]
  simp only [targetSuffix, htake, hdrop, h, firstNumber?_text]
  rfl

/-- **A canonical suffix**, in small letters as converting reads it, is converted into itself. -/
theorem CanonicalSuffix.targetSuffix_lower (t : CanonicalSuffix) (before : Text) :
    targetSuffix (Text.lowerAfter before t.text) = t.text := by
  rw [Text.lowerAfter_of_ascii t.toNat_lt]
  cases t with
  | dev => rfl
  | numbered label number =>
    have hnumber : number.text.map Char.toLower = number.text := by
      refine (List.map_congr_left fun c hc => ?_).trans (List.map_id _)
      rcases number.isDigit_or_eq hc with hd | rfl
      · have hs := Text.isSettled_of_isDigit hd
        simp only [Text.isSettled, Bool.and_eq_true, decide_eq_true_eq] at hs
        exact hs.2
      · rfl
    rw [text, List.map_append, hnumber]
    cases label <;> exact targetSuffix_append (List.all_iff_forall_prop.1 rfl) _ number rfl

end AssetBridge.Source
