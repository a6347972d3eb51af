import AssetBridge.Proofs.Words
import Mathlib.Algebra.Ring.Nat

/-!
# Weights of texts

Every character of a text is given a weight, and the weights are added up. Splitting a text,
dropping a part of it and replacing a part by a lighter one make no text heavier, so a bound on the
weight passes through every scanner. With one for each decimal digit and zero for any other
character, the weight counts digits; whether a version can be converted is a matter of their number.

## Main definitions

* `Text.weight`: the weight of a text
* `Text.digitWeight`: one for each decimal digit

## Main results

* `Text.weight_replaceAll_le`: a replacement by something lighter makes no text heavier
* `Source.weight_convertSuffix_le`: a converted suffix has at most one more digit
* `Source.exists_convertVersion_of_weight_le`: versions with few digits are always converted
-/

namespace AssetBridge

namespace Text

/-! ## Weights -/

/-- The weight of a text is that of its characters. -/
def weight (f : Char → Nat) (s : Text) : Nat := (s.map f).sum

section Weights

variable {f g : Char → Nat} {s t : Text}

@[simp] theorem weight_nil (f : Char → Nat) : weight f [] = 0 := rfl

@[simp] theorem weight_cons (f : Char → Nat) (c : Char) (s : Text) :
    weight f (c :: s) = f c + weight f s := by
  simp [weight]

@[simp] theorem weight_append (f : Char → Nat) (s t : Text) :
    weight f (s ++ t) = weight f s + weight f t := by
  simp [weight]

/-- A text of light characters weighs no more than its length. -/
theorem weight_le_length (h : ∀ c ∈ s, f c ≤ 1) : weight f s ≤ s.length := by
  induction s with
  | nil => exact Nat.le_refl 0
  | cons c s ih =>
    have hc := h c List.mem_cons_self
    have hs := ih fun d hd => h d (List.mem_cons_of_mem c hd)
    rw [weight_cons, List.length_cons]
    omega

/-- A text of heavy characters weighs its length or more. -/
theorem length_le_weight (h : ∀ c ∈ s, 1 ≤ f c) : s.length ≤ weight f s := by
  induction s with
  | nil => exact Nat.le_refl 0
  | cons c s ih =>
    have hc := h c List.mem_cons_self
    have hs := ih fun d hd => h d (List.mem_cons_of_mem c hd)
    rw [weight_cons, List.length_cons]
    omega

/-- Heavier characters make a heavier text. -/
theorem weight_le_weight (h : ∀ c, f c ≤ g c) (s : Text) : weight f s ≤ weight g s := by
  induction s with
  | nil => exact Nat.le_refl 0
  | cons c s ih =>
    rw [weight_cons, weight_cons]
    exact Nat.add_le_add (h c) ih

/-- Whatever is left when characters are dropped is no heavier. -/
theorem weight_le_of_sublist (f : Char → Nat) (h : s.Sublist t) : weight f s ≤ weight f t := by
  induction h with
  | slnil => exact Nat.le_refl 0
  | cons c _ ih =>
    rw [weight_cons]
    omega
  | cons_cons c _ ih =>
    rw [weight_cons, weight_cons]
    omega

theorem weight_flatMap (f : Char → Nat) (w : Char → Text) (s : Text) :
    weight f (s.flatMap w) = weight (fun c => weight f (w c)) s := by
  induction s with
  | nil => rfl
  | cons c s ih => rw [List.flatMap_cons, weight_append, weight_cons, ih]

/-- A substitution gives the characters that it replaces another weight. -/
theorem weight_substitute (f : Char → Nat) (p : Char → Bool) (new s : Text) :
    weight f (substitute p new s) =
      weight (fun c => if p c then weight f new else f c) s := by
  rw [substitute, weight_flatMap]
  congr 1
  funext c
  split <;> simp

/-- **Replacing a text by a lighter one** makes no text heavier. -/
theorem weight_replaceAll_le {old new : Text} (hold : old ≠ [])
    (h : weight f new ≤ weight f old) (s : Text) :
    weight f (replaceAll old new s) ≤ weight f s := by
  induction s using occurrence_induction hold with
  | nil => exact Nat.le_of_eq (congrArg (weight f) (replaceAll_nil hold new))
  | occurrence s ih =>
    rw [replaceAll_append hold, weight_append, weight_append]
    exact Nat.add_le_add h ih
  | cons c s hstart ih =>
    rw [replaceAll_cons hold new hstart, weight_cons, weight_cons]
    exact Nat.add_le_add_left ih (f c)

/-- The weight of a text in small letters, when that of each small form is known. -/
theorem weight_lowerAfter_le (h : ∀ before c after, weight f (lowerBetween before c after) ≤ g c)
    (before s : Text) : weight f (lowerAfter before s) ≤ weight g s := by
  induction s generalizing before with
  | nil => exact Nat.le_refl 0
  | cons c s ih =>
    rw [lowerAfter, weight_append, weight_cons]
    exact Nat.add_le_add (h before c s) (ih _)

/-- A part of a text is no heavier than the text. -/
theorem weight_le_of_mem_fields (f : Char → Nat) {sep : Char} (h : t ∈ fields sep s) :
    weight f t ≤ weight f s :=
  weight_le_of_sublist f (mem_splitWhere h).1.sublist

end Weights

/-! ## Digits -/

/-- One for a decimal digit of any script, and zero for any other character. -/
def digitWeight (c : Char) : Nat := if isDecimal c then 1 else 0

theorem digitWeight_le_one (c : Char) : digitWeight c ≤ 1 := by
  unfold digitWeight
  split <;> decide

theorem digitWeight_of_isDecimal_eq_false {c : Char} (h : isDecimal c = false) :
    digitWeight c = 0 := by
  rw [digitWeight, h]
  rfl

/-- A text without digits has none to count. -/
theorem weight_digitWeight_eq_zero {s : Text} (h : ∀ c ∈ s, isDecimal c = false) :
    weight digitWeight s = 0 := by
  induction s with
  | nil => rfl
  | cons c s ih =>
    rw [weight_cons, digitWeight_of_isDecimal_eq_false (h c List.mem_cons_self),
      ih fun d hd => h d (List.mem_cons_of_mem c hd)]

/-- A text has no more digits than characters. -/
theorem weight_digitWeight_le_length (s : Text) : weight digitWeight s ≤ s.length :=
  weight_le_length fun c _ => digitWeight_le_one c

/-- A run of digits has no more of them than the text in which it stands. -/
theorem length_le_weight_digitWeight {s : Text} (h : ∀ c ∈ s, isDecimal c = true) :
    s.length ≤ weight digitWeight s :=
  length_le_weight fun c hc => Nat.le_of_eq (if_pos (h c hc)).symm

theorem isDecimal_of_smallLetter {c : Char} (h : isDecimal (smallLetter c) = true) :
    isDecimal c = true := by
  have hrange := inRanges_of_smallLetter isClosed_numberRanges
    (inRanges_numberRanges_iff.2 (.inl h))
  rcases inRanges_numberRanges_iff.1 hrange with hc | hc
  · exact hc
  · -- The signs of numbers are no digits, and neither are their small forms.
    have hsigns : ∀ d ∈ numberSigns, isDecimal (smallLetter d) = false :=
      List.all_iff_forall_prop.1 rfl
    rw [hsigns c hc] at h
    cases h

/-- No digit is gained when a text is put in small letters. -/
theorem weight_digitWeight_lowerAfter_le (before s : Text) :
    weight digitWeight (lowerAfter before s) ≤ weight digitWeight s := by
  refine weight_lowerAfter_le (fun before c after => ?_) before s
  unfold lowerBetween
  split
  · split <;> exact Nat.zero_le _
  · split
    · exact Nat.zero_le _
    · rw [weight_cons, weight_nil, Nat.add_zero]
      by_cases h : isDecimal (smallLetter c) = true
      · have hcapital : digitWeight c = 1 := if_pos (isDecimal_of_smallLetter h)
        rw [hcapital]
        exact digitWeight_le_one _
      · rw [digitWeight, if_neg h]
        exact Nat.zero_le _

end Text

/-! ## Numbers that can be read -/

namespace Numeral

/-- The digits that are read as the leading number stand in the text. -/
theorem leadingDigits_sublist (s : Text) :
    ((dropSign (s.dropWhile Text.isBlank)).takeWhile Text.isDecimal).Sublist s :=
  (List.takeWhile_sublist _).trans
    ((dropSign_isSuffix _).sublist.trans (List.dropWhile_sublist _))

theorem length_leadingDigits_le (s : Text) :
    ((dropSign (s.dropWhile Text.isBlank)).takeWhile Text.isDecimal).length ≤
      Text.weight Text.digitWeight s :=
  Nat.le_trans
    (Text.length_le_weight_digitWeight (List.all_eq_true.1 List.all_takeWhile))
    (Text.weight_le_of_sublist Text.digitWeight (leadingDigits_sublist s))

/-- A text with few digits has a leading number that can be read. -/
theorem exists_leading_of_weight_le {s : Text}
    (h : Text.weight Text.digitWeight s ≤ maxDigits) : ∃ i, leading s = .ok i :=
  ⟨_, by rw [leading, read_of_length_le (Nat.le_trans (length_leadingDigits_le s) h)]; rfl⟩

end Numeral

namespace Source

open Text (weight digitWeight)

/-! ## Conversions -/

section Conversion

variable {s : Text}

theorem weight_dropRegistryMarkers_le (f : Char → Nat) (s : Text) :
    weight f (dropRegistryMarkers s) ≤ weight f s := by
  have hdrop : dropRegistryMarkers s = Text.replaceAll "-bower-packages".toList []
      (Text.replaceAll "-npm-packages".toList [] s) := rfl
  rw [hdrop]
  exact Nat.le_trans (Text.weight_replaceAll_le (by decide) (Nat.zero_le _) _)
    (Text.weight_replaceAll_le (by decide) (Nat.zero_le _) _)

theorem weight_collapseWildcards_le (f : Char → Nat) (s : Text) :
    weight f (collapseWildcards s) ≤ weight f s :=
  Text.weight_le_of_sublist f (collapseWildcards_sublist s)

/-- A suffix has the digits of a number that stands in the text, or a single one. -/
theorem weight_targetSuffix_le (s : Text) :
    weight digitWeight (targetSuffix s) ≤ weight digitWeight s + 1 := by
  obtain ⟨t, ht, hnumber⟩ := exists_targetSuffix s
  rw [ht]
  cases t with
  | dev => exact Nat.zero_le _
  | numbered label N =>
    have hlabel := Text.weight_digitWeight_eq_zero label.isDecimal_eq_false
    rw [CanonicalSuffix.text, Text.weight_append, hlabel, Nat.zero_add]
    rcases hnumber label N rfl with hN | hN
    · exact Nat.le_succ_of_le (Text.weight_le_of_sublist digitWeight hN.sublist)
    · rw [hN]
      exact Nat.le_add_left 1 _

/-- **A converted suffix** has at most one more digit: what stands behind the head has no more
digits in small letters, and its number is one of them unless it is given one. -/
theorem weight_convertSuffix_le (s : Text) :
    weight digitWeight (convertSuffix s) ≤ weight digitWeight s + 1 := by
  have hmarkers := weight_dropRegistryMarkers_le digitWeight s
  refine Nat.le_trans (weight_collapseWildcards_le digitWeight _) ?_
  split
  · exact Nat.le_succ_of_le hmarkers
  · rename_i head suffix hhead
    have hsplit := headUpTo_append hhead
    have hsettled : ∀ c ∈ head, Text.isSettled c = true := fun c hc =>
      isSettled_of_isAtomChar (isAtomChar_of_mem_headUpTo hhead c hc)
    have hsign : weight digitWeight (dropSuffixSign (Text.lowerAfter head.reverse suffix)) ≤
        weight digitWeight suffix :=
      Nat.le_trans (Text.weight_le_of_sublist digitWeight (dropSuffixSign_isSuffix _).sublist)
        (Text.weight_digitWeight_lowerAfter_le _ suffix)
    have htarget := weight_targetSuffix_le (dropSuffixSign (Text.lowerAfter head.reverse suffix))
    have hhyphen : digitWeight '-' = 0 := rfl
    rw [← hsplit, Text.weight_append] at hmarkers
    rw [← hsplit, Text.drop_lower_append hsettled, Text.weight_append, Text.weight_cons, hhyphen]
    omega

/-- **A date** is read when the digits behind its stamp are few. -/
theorem exists_convertDate_of_weight_le (h : weight digitWeight s ≤ Numeral.maxDigits) :
    ∃ t, convertDate s = .ok t := by
  unfold convertDate
  split
  · rename_i rest hrest
    have hsuffix : rest <:+ s := (List.suffix_cons '.' rest).trans (hrest ▸ List.dropWhile_suffix _)
    have hparts : ∀ part : Text, part ∈ Text.fields '.' rest ∨ part = [] →
        ∃ t, paddedComponent part = .ok t := by
      intro part hpart
      have hpiece : part <:+: rest := by
        rcases hpart with hpart | rfl
        · exact (Text.mem_splitWhere hpart).1
        · exact List.nil_infix
      have hweight := Text.weight_le_of_sublist digitWeight (hpiece.trans hsuffix.isInfix).sublist
      obtain ⟨i, hi⟩ := Numeral.exists_leading_of_weight_le (Nat.le_trans hweight h)
      exact ⟨Numeral.padded 3 i, by rw [paddedComponent, hi]; rfl⟩
    split
    · obtain ⟨minor, hminor⟩ := hparts ((Text.fields '.' rest).headD []) (by
        cases Text.fields '.' rest <;> simp)
      obtain ⟨revision, hrevision⟩ := hparts ((Text.fields '.' rest).tail.headD []) (by
        rcases Text.fields '.' rest with - | ⟨u, - | ⟨v, l⟩⟩ <;> simp)
      exact ⟨_, by simp only [hminor, hrevision]; rfl⟩
    · exact ⟨s, rfl⟩
  · exact ⟨s, rfl⟩

/-- **A version with few digits** is always converted, whatever else stands in it. -/
theorem exists_convertVersion_of_weight_le (h : weight digitWeight s < Numeral.maxDigits) :
    ∃ t, convertVersion s = .ok t := by
  have hsubstitute : weight digitWeight (Text.substitute (· = '–') ['-'] s) ≤
      weight digitWeight s := by
    rw [Text.weight_substitute]
    refine Text.weight_le_weight (fun c => ?_) s
    split
    · exact Nat.zero_le _
    · exact Nat.le_refl _
  have hbody := Text.weight_le_of_sublist digitWeight
    (splitLetter_isSuffix (Text.substitute (· = '–') ['-'] s)).sublist
  have hsuffix := weight_convertSuffix_le (splitLetter (Text.substitute (· = '–') ['-'] s)).2
  exact exists_convertVersion_of_body (exists_convertDate_of_weight_le (by omega))

end Conversion

end Source

end AssetBridge
