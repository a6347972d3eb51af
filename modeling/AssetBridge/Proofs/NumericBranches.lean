import AssetBridge.Proofs.OpeningNumbers
import AssetBridge.Proofs.StoredSettings
import AssetBridge.Tag
import Mathlib.Data.List.Basic

/-!
# Numeric branches

A numeric branch cannot serve as a branch name. It is not told from other names by its shape but by
the end of its version, which the largest component marks. A branch that gives all four of its
components has no such end, and a name that contains the mark is taken for a numeric branch.

## Main definitions

* `Target.NumericBranch`: a numeric branch as it is written
* `NumericBranch.upperEnd`: its version, where open and missing components are the largest
* `NumericBranch.IsClosed`: whether its last component is a number of its own

## Main results

* `numericBranch?_text`, `exists_branch_of_numericBranch?`: the scanner reads the numeric branches
* `NumericBranch.validateBranch_eq`: what becomes of a numeric branch
* `validateBranch_rejects_numeric_iff`: where exactly the numeric branches are rejected
-/

namespace AssetBridge

open Text (join)

namespace Target

/-- A further component of a numeric branch: a number, or one character that leaves it open. -/
def IsBranchComponent (t : Text) : Prop := IsNumber t ∨ ∃ c, isOpenMark c = true ∧ t = [c]

/-- A component as the version of the branch has it. -/
def upperComponent (t : Text) : Text := if t.any isOpenMark then openComponent else t

theorem upperComponent_of_isNumber {t : Text} (h : IsNumber t) : upperComponent t = t := by
  apply if_neg
  rw [List.any_eq_true]
  rintro ⟨c, hc, hmark⟩
  rw [isOpenMark_eq_false_of_isDecimal (h.isDecimal c hc)] at hmark
  cases hmark

theorem isNumber_openComponent : IsNumber openComponent where
  ne_nil := List.cons_ne_nil _ _
  isDecimal := List.all_iff_forall_prop.1 rfl

theorem IsBranchComponent.isNumber_upperComponent {t : Text} (h : IsBranchComponent t) :
    IsNumber (upperComponent t) := by
  rcases h with h | ⟨c, hc, rfl⟩
  · rwa [upperComponent_of_isNumber h]
  · rw [upperComponent, List.any_cons, hc, Bool.true_or, if_pos rfl]
    exact isNumber_openComponent

/-- **Numeric branches** as they are written. -/
structure NumericBranch where
  letter : Option Char
  major : Text
  further : List Text
  letter_eq : ∀ c ∈ letter, c = 'v' ∨ c = 'V'
  isNumber_major : IsNumber major
  length_further : further.length ≤ 3
  isBranchComponent : ∀ t ∈ further, IsBranchComponent t

namespace NumericBranch

/-- A numeric branch as a name. -/
def text (n : NumericBranch) : Text := n.letter.toList ++ join ['.'] (n.major :: n.further)

/-- A further component of the version; one that is missing is left open. -/
def component (n : NumericBranch) (i : Nat) : Text :=
  (n.further[i]?.map upperComponent).getD openComponent

/-- The version of a numeric branch: its upper end. -/
def upperEnd (n : NumericBranch) : Text :=
  join ['.'] [n.major, n.component 0, n.component 1, n.component 2]

/-- Whether all of the components are written, the last as a number that is not the largest. -/
def IsClosed (n : NumericBranch) : Prop :=
  ∃ t ∈ n.further[2]?, IsNumber t ∧ t ≠ openComponent

end NumericBranch

/-- Whether a name is a numeric branch. -/
def IsNumericBranch (s : Text) : Prop := ∃ n : NumericBranch, n.text = s

/-! ## Reading a numeric branch -/

theorem head?_flatMap_point {p : Char → Bool} (hp : p '.' = false) (l : List Text) :
    ∀ c ∈ (l.flatMap (['.'] ++ ·)).head?, p c = false := by
  intro c hc
  cases l with
  | nil => cases hc
  | cons t l =>
    obtain rfl := Option.some.inj hc
    exact hp

/-- The first of the components that follow is read, if there is one. -/
theorem branchComponent_flatMap {l : List Text} (hl : ∀ t ∈ l, IsBranchComponent t) :
    branchComponent (l.flatMap (['.'] ++ ·)) =
      (l.head?.map ('.' :: upperComponent ·), l.tail.flatMap (['.'] ++ ·)) := by
  cases l with
  | nil => rfl
  | cons t l =>
    rw [List.flatMap_cons, List.append_assoc]
    rcases hl t List.mem_cons_self with ht | ⟨c, hc, rfl⟩
    · rw [List.singleton_append,
        readsComponents_branchComponent.point t _ ht (head?_flatMap_point rfl l), List.head?_cons,
        Option.map_some, upperComponent_of_isNumber ht, List.tail_cons]
    · simp [branchComponent, upperComponent, hc]

namespace NumericBranch

variable (n : NumericBranch)

theorem dropVersionLetter_text :
    dropVersionLetter n.text = n.major ++ n.further.flatMap (['.'] ++ ·) := by
  rw [text, Text.join_cons]
  rcases hletter : n.letter with _ | c
  · exact n.isNumber_major.dropVersionLetter_append _
  · rcases n.letter_eq c hletter with rfl | rfl <;> rfl

theorem tail_tail_tail_further : n.further.tail.tail.tail = [] := by
  have hlength := n.length_further
  apply List.eq_nil_of_length_eq_zero
  simp only [List.length_tail]
  omega

theorem getD_component (o : Option Text) :
    (o.map ('.' :: upperComponent ·)).getD ('.' :: openComponent) =
      '.' :: (o.map upperComponent).getD openComponent := by
  cases o <;> rfl

/-- **A numeric branch is read** as its upper end. -/
theorem numericBranch?_text : numericBranch? n.text = some n.upperEnd := by
  have hscan := Text.scan_eq_of_head? (head?_flatMap_point (p := Text.isDecimal) rfl n.further)
  have hmajor := n.isNumber_major.isDecimal
  have hfirst := branchComponent_flatMap n.isBranchComponent
  have hsecond := branchComponent_flatMap fun t ht =>
    n.isBranchComponent t (List.mem_of_mem_tail ht)
  have hthird := branchComponent_flatMap fun t ht =>
    n.isBranchComponent t (List.mem_of_mem_tail (List.mem_of_mem_tail ht))
  have hne : n.major.isEmpty = false := by
    rw [List.isEmpty_eq_false_iff]
    exact n.isNumber_major.ne_nil
  simp only [numericBranch?, n.dropVersionLetter_text, List.takeWhile_append_of_pos hmajor,
    List.dropWhile_append_of_pos hmajor, hscan.1, hscan.2, List.append_nil, hfirst, hsecond, hthird,
    n.tail_tail_tail_further, hne, getD_component]
  simp [upperEnd, component, Text.isFinal, Text.join_cons, List.head?_eq_getElem?]

end NumericBranch

/-- A scanned component, if there is one, stands in front of what follows. -/
theorem exists_of_branchComponent (s : Text) : ∃ l : List Text, l.length ≤ 1 ∧
    (∀ t ∈ l, IsBranchComponent t) ∧ s = l.flatMap (['.'] ++ ·) ++ (branchComponent s).2 := by
  unfold branchComponent
  split
  · rename_i c r
    split
    · rename_i hmark
      refine ⟨[[c]], Nat.le_refl 1, ?_, rfl⟩
      rintro t ht
      obtain rfl := List.mem_singleton.1 ht
      exact .inr ⟨c, hmark, rfl⟩
    · split
      · rename_i hc
        refine ⟨[(c :: r).takeWhile Text.isDecimal], Nat.le_refl 1, ?_, ?_⟩
        · rintro t ht
          obtain rfl := List.mem_singleton.1 ht
          refine .inl ⟨?_, List.all_eq_true.1 List.all_takeWhile⟩
          rw [List.takeWhile_cons_of_pos hc]
          exact List.cons_ne_nil _ _
        · simp [List.takeWhile_append_dropWhile]
      · exact ⟨[], Nat.zero_le 1, by simp, rfl⟩
  · exact ⟨[], Nat.zero_le 1, by simp, rfl⟩

theorem exists_eq_append_dropVersionLetter (s : Text) : ∃ letter : Option Char,
    (∀ c ∈ letter, c = 'v' ∨ c = 'V') ∧ s = letter.toList ++ dropVersionLetter s := by
  unfold dropVersionLetter
  split
  · exact ⟨some 'v', by simp, rfl⟩
  · exact ⟨some 'V', by simp, rfl⟩
  · exact ⟨none, by simp, rfl⟩

/-- **What is read as a numeric branch** is one, up to a line feed at its end. -/
theorem exists_branch_of_numericBranch? {s version : Text} (h : numericBranch? s = some version) :
    ∃ (n : NumericBranch) (feed : Text), Text.isFinal feed = true ∧ s = n.text ++ feed := by
  obtain ⟨letter, hletter, hs⟩ := exists_eq_append_dropVersionLetter s
  simp only [numericBranch?] at h
  split at h
  · cases h
  · rename_i hfinal
    simp only [Bool.or_eq_true, Bool.not_eq_true', not_or, Bool.not_eq_true, Bool.not_eq_false,
      List.isEmpty_eq_false_iff] at hfinal
    obtain ⟨hmajor, hfinal⟩ := hfinal
    have hsplit := List.takeWhile_append_dropWhile (p := Text.isDecimal) (l := dropVersionLetter s)
    -- What one scan leaves is what the next one reads.
    generalize (dropVersionLetter s).dropWhile Text.isDecimal = r₁ at hfinal hsplit
    obtain ⟨l₁, hl₁, ht₁, hr₁⟩ := exists_of_branchComponent r₁
    generalize (branchComponent r₁).2 = r₂ at hfinal hr₁
    obtain ⟨l₂, hl₂, ht₂, hr₂⟩ := exists_of_branchComponent r₂
    generalize (branchComponent r₂).2 = r₃ at hfinal hr₂
    obtain ⟨l₃, hl₃, ht₃, hr₃⟩ := exists_of_branchComponent r₃
    generalize (branchComponent r₃).2 = r₄ at hfinal hr₃
    refine ⟨⟨letter, _, l₁ ++ (l₂ ++ l₃), hletter, ⟨hmajor, List.all_eq_true.1 List.all_takeWhile⟩,
      ?_, ?_⟩, r₄, hfinal, ?_⟩
    · simp only [List.length_append]
      omega
    · intro t ht
      simp only [List.mem_append] at ht
      rcases ht with ht | ht | ht
      · exact ht₁ t ht
      · exact ht₂ t ht
      · exact ht₃ t ht
    · conv_lhs => rw [hs, ← hsplit, hr₁, hr₂, hr₃]
      simp [NumericBranch.text, Text.join_cons]

/-- A stripped name is read as a numeric branch when it is one. -/
theorem numericBranch?_strip_eq_none {s : Text} (h : ¬IsNumericBranch (Text.strip s)) :
    numericBranch? (Text.strip s) = none := by
  rw [Option.eq_none_iff_forall_not_mem]
  intro version hversion
  obtain ⟨n, feed, hfeed, hs⟩ := exists_branch_of_numericBranch? hversion
  simp only [Text.isFinal, Bool.or_eq_true, decide_eq_true_eq] at hfeed
  rcases hfeed with rfl | rfl
  · exact h ⟨n, by rw [hs, List.append_nil]⟩
  -- A line feed at the end would have been stripped.
  · have hlast := (Text.IsTrimmed.of_strip s).last '\n' (by simp [hs])
    cases hlast

/-! ## The mark -/

namespace NumericBranch

variable (n : NumericBranch)

theorem isNumber_component (i : Nat) : IsNumber (n.component i) := by
  unfold component
  rcases hget : n.further[i]? with _ | t
  · exact isNumber_openComponent
  · exact (n.isBranchComponent t (List.mem_of_getElem? hget)).isNumber_upperComponent

/-- A numeric branch is closed when its version has not the largest last component. -/
theorem component_two_ne_iff : n.component 2 ≠ openComponent ↔ n.IsClosed := by
  unfold component IsClosed
  rcases hget : n.further[2]? with _ | t
  · simp
  · simp only [Option.map_some, Option.getD_some, Option.mem_def, Option.some.injEq,
      exists_eq_left']
    rcases n.isBranchComponent t (List.mem_of_getElem? hget) with ht | ⟨c, hc, rfl⟩
    · rw [upperComponent_of_isNumber ht]
      exact (and_iff_right ht).symm
    · have hnot : ¬IsNumber [c] := by
        intro hnumber
        have hd := hnumber.isDecimal c (List.mem_singleton_self c)
        rw [isOpenMark_eq_false_of_isDecimal hd] at hc
        cases hc
      simp [upperComponent, hc, hnot]

theorem isRelease_upperEnd :
    IsRelease [n.major, n.component 0, n.component 1, n.component 2] where
  ne_nil := List.cons_ne_nil _ _
  isNumber := by
    simp only [List.mem_cons, List.not_mem_nil, or_false, forall_eq_or_imp, forall_eq]
    exact ⟨n.isNumber_major, n.isNumber_component 0, n.isNumber_component 1,
      n.isNumber_component 2⟩

/-- The mark stands in the version of a numeric branch only at its end. -/
theorem contains_openBranchMark :
    Text.contains openBranchMark (n.upperEnd ++ "-dev".toList) = true ↔
      n.component 2 = openComponent := by
  have hend : n.upperEnd = join ['.'] [n.major, n.component 0, n.component 1] ++
      '.' :: n.component 2 := by simp [upperEnd, Text.join_cons]
  rw [Text.contains_iff]
  constructor
  · rintro ⟨a, b, h⟩
    have hhyphen : '-' ∉ n.upperEnd := n.isRelease_upperEnd.hyphen_not_mem
    have hmark : n.upperEnd ++ '-' :: "dev".toList =
        (a ++ '.' :: openComponent) ++ '-' :: ("dev".toList ++ b) := by
      simpa [openBranchMark] using h
    -- The hyphen of the mark is the only one, so the mark in front of it ends the version.
    obtain ⟨hversion, -⟩ := (List.append_cons_inj_of_notMem hhyphen (by simp)).1 hmark
    have hwords := n.isRelease_upperEnd.words_join
    rw [← upperEnd, hversion, Text.words_append_cons (by simp),
      Text.words_eq_singleton isNumber_openComponent.ne_nil fun c hc =>
        decide_eq_false (Text.ne_of_isDecimal (isNumber_openComponent.isDecimal c hc) rfl)]
      at hwords
    have hlast := congrArg List.getLast? hwords
    rw [List.getLast?_concat] at hlast
    exact (Option.some.inj hlast).symm
  · intro h
    refine ⟨join ['.'] [n.major, n.component 0, n.component 1], [], ?_⟩
    rw [hend, h, openBranchMark]
    simp

/-- **A numeric branch** is rejected unless it is closed. Then it counts as a branch of its own. -/
theorem validateBranch_eq {b : Text} (h : n.text = Text.strip b) :
    (n.IsClosed → validateBranch b = some (n.upperEnd ++ "-dev".toList)) ∧
      (¬n.IsClosed → validateBranch b = none) := by
  have hbranch : normalizeBranch b = n.upperEnd ++ "-dev".toList := by
    rw [normalizeBranch, ← h, n.numericBranch?_text]
  rw [validateBranch, hbranch, ← n.component_two_ne_iff]
  constructor
  · intro hclosed
    exact if_neg fun hmark => hclosed (n.contains_openBranchMark.1 hmark)
  · intro hopen
    exact if_pos (n.contains_openBranchMark.2 (not_not.1 hopen))

end NumericBranch

/-- **Any other name** is rejected exactly when the mark stands in it. -/
theorem validateBranch_of_not_isNumericBranch {b : Text} (h : ¬IsNumericBranch (Text.strip b)) :
    validateBranch b = if Text.contains openBranchMark (Text.strip b) then none
      else some (branchPrefix ++ Text.strip b) := by
  have hprefix : Text.contains openBranchMark (branchPrefix ++ Text.strip b) =
      Text.contains openBranchMark (Text.strip b) :=
    Text.contains_append_left (by simp [branchPrefix]) _ _
  rw [validateBranch, normalizeBranch, numericBranch?_strip_eq_none h, hprefix]

/-- **Exactly the numeric branches** are rejected, and every other name is the branch of that name,
unless a numeric branch is closed or another name contains the mark. -/
theorem validateBranch_rejects_numeric_iff (b : Text) :
    ((validateBranch b = none ↔ IsNumericBranch (Text.strip b)) ∧
        (¬IsNumericBranch (Text.strip b) →
          validateBranch b = some (branchPrefix ++ Text.strip b))) ↔
      (∀ n : NumericBranch, n.text = Text.strip b → ¬n.IsClosed) ∧
        (¬IsNumericBranch (Text.strip b) →
          Text.contains openBranchMark (Text.strip b) = false) := by
  by_cases h : IsNumericBranch (Text.strip b)
  · obtain ⟨n, hn⟩ := id h
    obtain ⟨-, hopen⟩ := n.validateBranch_eq hn
    simp only [h, iff_true, not_true, false_implies, and_true]
    constructor
    · intro hnone n' hn' hclosed
      rw [(n'.validateBranch_eq hn').1 hclosed] at hnone
      cases hnone
    · intro hall
      exact hopen (hall n hn)
  · have hother : ∀ n : NumericBranch, n.text = Text.strip b → ¬n.IsClosed :=
      fun n hn _ => h ⟨n, hn⟩
    rw [validateBranch_of_not_isNumericBranch h, and_iff_right hother]
    simp only [h, iff_false, not_false_iff, true_implies]
    cases Text.contains openBranchMark (Text.strip b) <;> simp

/-- The names on which the check goes wrong: a closed branch, and a name with the mark in it. -/
theorem validateBranch_not_rejects_numeric :
    (IsNumericBranch (Text.strip "1.2.3.4".toList) ∧
      validateBranch "1.2.3.4".toList = some "1.2.3.4-dev".toList) ∧
    (¬IsNumericBranch (Text.strip "release.9999999-dev".toList) ∧
      validateBranch "release.9999999-dev".toList = none) := by
  have hnumber : ∀ c, Text.isDecimal c = true → IsNumber [c] := fun c hc =>
    ⟨List.cons_ne_nil c [], by simpa using hc⟩
  refine ⟨⟨⟨⟨none, ['1'], [['2'], ['3'], ['4']], by simp, hnumber '1' rfl, Nat.le_refl 3, ?_⟩,
    rfl⟩, rfl⟩, ?_, rfl⟩
  · intro t ht
    simp only [List.mem_cons, List.not_mem_nil, or_false] at ht
    rcases ht with rfl | rfl | rfl
    · exact .inl (hnumber '2' rfl)
    · exact .inl (hnumber '3' rfl)
    · exact .inl (hnumber '4' rfl)
  · rintro ⟨n, hn⟩
    have hread := n.numericBranch?_text
    rw [hn] at hread
    cases hread

end Target

end AssetBridge
