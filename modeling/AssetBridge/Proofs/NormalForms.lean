import AssetBridge.Proofs.Outcomes
import AssetBridge.Proofs.Runs
import AssetBridge.Target.Version
import Mathlib.Data.Bool.AllAny

/-!
# The shape of normal forms

A normal form names a branch, or it is numeric: it opens with a digit, and its numbers, between
points, are followed by nothing or by a hyphen. No number of a numeric form is longer than those of
the text it was made from, but for the seven digits of an open component, so every version whose
numbers are within the digit limit can be read.

## Main definitions

* `IsPointed`: the components behind the first number
* `IsNumericForm`: the shape of the normal forms that name no branch

## Main results

* `isNumericForm_of_numeric?`: numeric versions have such a form
* `normalize_eq_ok`: a normal form names a branch or is numeric
* `Version.exists_parse_of_normalize`: what has a numeric form can be read
-/

namespace AssetBridge

namespace Text

/-! ## Keywords hold no digits -/

theorem foldLetter_of_isDigit {c : Char} (h : c.isDigit = true) : foldLetter c = c := by
  have hn := toNat_of_isDigit h
  have hs : c ≠ 'ſ' ∧ c ≠ '\u212a' ∧ c ≠ 'İ' ∧ c ≠ 'ı' := by
    refine ⟨?_, ?_, ?_, ?_⟩ <;> rintro rfl <;> exact absurd hn (by decide)
  have hl : c.toLower = c := by
    have := isSettled_of_isDigit h
    simp only [isSettled, Bool.and_eq_true, decide_eq_true_eq] at this
    exact this.2
  simp [foldLetter, hs, hl]

theorem toNat_of_isLower {c : Char} (h : c.isLower = true) : 97 ≤ c.toNat ∧ c.toNat ≤ 122 := by
  obtain ⟨hl, hu⟩ := (Bool.and_eq_true ..).mp h
  exact ⟨UInt32.le_iff_toNat_le.1 (of_decide_eq_true hl),
    UInt32.le_iff_toNat_le.1 (of_decide_eq_true hu)⟩

theorem toNat_of_isUpper {c : Char} (h : c.isUpper = true) : 65 ≤ c.toNat ∧ c.toNat ≤ 90 := by
  obtain ⟨hl, hu⟩ := of_decide_eq_true h
  exact ⟨UInt32.le_iff_toNat_le.1 hl, UInt32.le_iff_toNat_le.1 hu⟩

theorem toNat_lt_of_isAlphanum {c : Char} (h : c.isAlphanum = true) : c.toNat < 0x80 := by
  rcases (Bool.or_eq_true ..).mp h with h | h
  · rcases (Bool.or_eq_true ..).mp h with h | h
    · have := toNat_of_isUpper h
      omega
    · have := toNat_of_isLower h
      omega
  · have := toNat_of_isDigit h
    omega

theorem isDecimal_eq_false_of_isLower {c : Char} (h : c.isLower = true) :
    isDecimal c = false := by
  have hc := toNat_of_isLower h
  have hd : c.isDigit = false := by
    rw [Bool.eq_false_iff]
    intro hd
    have := toNat_of_isDigit hd
    omega
  have hlt : c.toNat < 0x80 := by omega
  simp [isDecimal, digitValue?, hd, hlt]

theorem isDecimal_eq_false_of_isLetter {c : Char} (h : isLetter c = true) :
    isDecimal c = false := by
  rcases (Bool.or_eq_true ..).mp h with h | h
  · have hc := toNat_of_isUpper h
    have hd : c.isDigit = false := by
      rw [Bool.eq_false_iff]
      intro hd
      have := toNat_of_isDigit hd
      omega
    have hlt : c.toNat < 0x80 := by omega
    simp [isDecimal, digitValue?, hd, hlt]
  · exact isDecimal_eq_false_of_isLower h

/-- Only the capitals of ASCII have another small form. -/
theorem toLower_eq_self_or_exists (c : Char) :
    c.toLower = c ∨ ∃ n < 26, c = Char.ofNat (65 + n) := by
  by_cases hu : c.isUpper = true
  · have hc := toNat_of_isUpper hu
    refine .inr ⟨c.toNat - 65, by omega, ?_⟩
    rw [Nat.add_sub_cancel' hc.1, Char.ofNat_toNat]
  · exact .inl (dif_neg fun hv => hu (decide_eq_true hv))

/-- The small form of a character is a digit only when the character is. -/
theorem isDecimal_toLower (c : Char) : isDecimal c.toLower = isDecimal c := by
  have hcapitals : ∀ n < 26, isDecimal (Char.ofNat (65 + n)).toLower =
      isDecimal (Char.ofNat (65 + n)) := by decide
  rcases toLower_eq_self_or_exists c with hc | ⟨n, hn, rfl⟩
  · rw [hc]
  · exact hcapitals n hn

/-- A character with a small ASCII letter is an ASCII character. -/
theorem toNat_lt_of_isLower_toLower {c : Char} (h : c.toLower.isLower = true) :
    c.toNat < 0x80 := by
  by_cases hu : c.val ≥ 'A'.val ∧ c.val ≤ 'Z'.val
  · have hz : c.toNat ≤ 90 := UInt32.le_iff_toNat_le.1 hu.2
    omega
  · have hl : c.toLower = c := dif_neg hu
    rw [hl] at h
    have := toNat_of_isLower h
    omega

/-- A character that counts as a small letter has no digit for its small form. -/
theorem isDecimal_eq_false_of_mem_lowerBetween {c : Char} (h : (foldLetter c).isLower = true)
    (before after : Text) : ∀ d ∈ lowerBetween before c after, isDecimal d = false := by
  have hplain : c ≠ 'Σ' → c ≠ 'İ' → lowerBetween before c after = [smallLetter c] := by
    intro h₁ h₂
    rw [lowerBetween, if_neg h₁, if_neg h₂]
  unfold foldLetter at h
  -- The letters beyond ASCII that count as ASCII ones are looked up, the others are ASCII.
  split at h
  · subst c
    rw [hplain (by decide) (by decide)]
    exact List.all_iff_forall_prop.1 rfl
  · split at h
    · subst c
      rw [hplain (by decide) (by decide)]
      exact List.all_iff_forall_prop.1 rfl
    · split at h
      · rename_i hi
        simp only [Bool.or_eq_true, decide_eq_true_eq] at hi
        rcases hi with rfl | rfl
        · have he : lowerBetween before 'İ' after = ['i', '\u0307'] := rfl
          rw [he]
          exact List.all_iff_forall_prop.1 rfl
        · rw [hplain (by decide) (by decide)]
          exact List.all_iff_forall_prop.1 rfl
      · have hlt := toNat_lt_of_isLower_toLower h
        have hs : c ≠ 'Σ' := by
          rintro rfl
          exact absurd hlt (by decide)
        have hi : c ≠ 'İ' := by
          rintro rfl
          exact absurd hlt (by decide)
        rw [hplain hs hi, smallLetter, if_pos hlt]
        intro d hd
        obtain rfl := List.mem_singleton.1 hd
        exact isDecimal_eq_false_of_isLower h

theorem isDecimal_eq_false_of_mem_lowerAfter {w : Text}
    (hw : ∀ c ∈ w, (foldLetter c).isLower = true) (before : Text) :
    ∀ d ∈ lowerAfter before w, isDecimal d = false := by
  induction w generalizing before with
  | nil => simp [lowerAfter]
  | cons c w ih =>
    intro d hd
    rcases List.mem_append.1 hd with hd | hd
    · exact isDecimal_eq_false_of_mem_lowerBetween (hw c (by simp)) before w d hd
    · exact ih (fun e he => hw e (by simp [he])) (c :: before) d hd

end Text

theorem Stability.isDecimal_eq_false_of_mem_expandKeyword {w : Text}
    (hw : ∀ c ∈ w, (Text.foldLetter c).isLower = true) :
    ∀ d ∈ Stability.expandKeyword w, Text.isDecimal d = false := by
  simp only [expandKeyword]
  split
  · exact List.all_iff_forall_prop.1 rfl
  · split
    · exact List.all_iff_forall_prop.1 rfl
    · split
      · exact List.all_iff_forall_prop.1 rfl
      · split
        · exact List.all_iff_forall_prop.1 rfl
        · exact Text.isDecimal_eq_false_of_mem_lowerAfter hw []

namespace Target

open Text (RunsWithin)

/-! ## Suffixes -/

/-- A keyword opens the text, in letters that count as its own. -/
theorem keyword?_eq_some {s w r : Text} (h : keyword? s = some (w, r)) :
    s = w ++ r ∧ w.map Text.foldLetter ∈ suffixKeywords := by
  obtain ⟨k, hk, h⟩ := List.exists_of_findSome?_eq_some h
  obtain ⟨r', hr, hw⟩ := Option.map_eq_some_iff.1 h
  obtain ⟨u, rfl, hu⟩ := Text.dropKeyword?_eq_some_iff.1 hr
  have hlen : k.length = u.length := by rw [← hu, List.length_map]
  have htake : (u ++ r').take k.length = u := by rw [hlen, List.take_left]
  rw [htake] at hw
  obtain ⟨rfl, rfl⟩ := Prod.mk.inj hw
  exact ⟨rfl, hu ▸ hk⟩

theorem isLower_foldLetter_of_mem {w : Text} (h : w.map Text.foldLetter ∈ suffixKeywords) :
    ∀ c ∈ w, (Text.foldLetter c).isLower = true := by
  have hsmall : ∀ k ∈ suffixKeywords, k.all Char.isLower = true := List.all_iff_forall_prop.1 rfl
  exact fun c hc => List.all_eq_true.1 (hsmall _ h) _ (List.mem_map_of_mem hc)

theorem numberRun_append (s : Text) : (numberRun s).1 ++ (numberRun s).2 = s := by
  induction s with
  | nil => rfl
  | cons c s ih =>
    rw [numberRun]
    split
    · exact congrArg (c :: ·) ih
    · rfl

theorem dropOne_isSuffix (separators : List Char) (s : Text) : dropOne separators s <:+ s := by
  cases s with
  | nil => exact List.suffix_refl []
  | cons c s =>
    rw [dropOne]
    split
    · exact List.suffix_cons c s
    · exact List.suffix_refl _

theorem runsWithin_devText (k : Nat) (dev : Bool) : RunsWithin k (devText dev) := by
  refine RunsWithin.of_forall ?_
  cases dev <;> exact List.all_iff_forall_prop.1 rfl

/-- A canonical suffix is empty or opens with a hyphen. -/
theorem Suffix.head?_render (σ : Suffix) : ∀ c ∈ σ.render.head?, c = '-' := by
  have hdev : ∀ c ∈ (devText σ.dev).head?, c = '-' := by
    cases σ.dev <;> simp [devText]
  unfold render
  split
  · split
    · simp
    · simp
  · exact hdev

/-- **A canonical suffix** has the runs of the text it was read from. -/
theorem Suffix.runsWithin_render {k : Nat} {s : Text} {σ : Suffix} (h : suffix? s = some σ)
    (hs : RunsWithin k s) : RunsWithin k σ.render := by
  unfold suffix? at h
  have hsuffix := dropOne_isSuffix ['.', '_', '-'] s
  revert h hsuffix
  generalize dropOne ['.', '_', '-'] s = t
  intro h hsuffix
  simp only at h
  split at h
  · rename_i w r hkey
    obtain ⟨dev, -, rfl⟩ := Option.map_eq_some_iff.1 h
    obtain ⟨rfl, hw⟩ := keyword?_eq_some hkey
    -- The number stands in the text, behind the keyword, and what is put before it has no digits.
    have hnumber : (bareNumber (numberRun r).1) <:+: s := by
      have hr : (numberRun r).1 <+: r := ⟨_, numberRun_append r⟩
      exact (List.dropWhile_suffix _).isInfix.trans
        (hr.isInfix.trans ((List.suffix_append w r).isInfix.trans hsuffix.isInfix))
    have hdev : RunsWithin k (bareNumber (numberRun r).1 ++ devText dev) := by
      cases dev with
      | false => simpa [devText] using hs.of_isInfix hnumber
      | true =>
        have hword : RunsWithin k "dev".toList :=
          RunsWithin.of_forall (List.all_iff_forall_prop.1 rfl)
        exact (hs.of_isInfix hnumber).append_cons (c := '-') (by decide) hword
    have hrender := RunsWithin.append_left
      (Stability.isDecimal_eq_false_of_mem_expandKeyword (isLower_foldLetter_of_mem hw)) hdev
    have hhyphen := RunsWithin.append_left (s := ['-']) (List.all_iff_forall_prop.1 rfl) hrender
    simp only [render]
    split
    · exact RunsWithin.of_length_le (Nat.zero_le k)
    · simpa using hhyphen
  · obtain ⟨dev, -, rfl⟩ := Option.map_eq_some_iff.1 h
    exact runsWithin_devText k dev

/-! ## Numeric forms -/

/-- A component behind the first one: a point, and digits behind it, not more than `k`. -/
def IsPointed (k : Nat) (t : Text) : Prop :=
  ∃ ds : Text, t = '.' :: ds ∧ (∀ c ∈ ds, Text.isDecimal c = true) ∧ ds.length ≤ k

/-- **Numeric forms**: a digit opens them, points and digits go on, and a suffix opens with a
hyphen. No run of digits is longer than `k`. -/
structure IsNumericForm (k : Nat) (n : Text) : Prop where
  exists_eq_append : ∃ (c : Char) (release suffix : Text), n = c :: release ++ suffix ∧
    Text.isDecimal c = true ∧ (∀ d ∈ release, Text.isDecimal d = true ∨ d = '.') ∧
    ∀ d ∈ suffix.head?, d = '-'
  runsWithin : RunsWithin k n

/-- What opens with a digit names no branch. -/
theorem IsNumericForm.not_startsWith {k : Nat} {n : Text} (h : IsNumericForm k n) :
    Text.startsWith branchPrefix n = false := by
  obtain ⟨c, release, suffix, rfl, hc, -, -⟩ := h.exists_eq_append
  have hne : 'd' ≠ c := (Text.ne_of_isDecimal hc rfl).symm
  exact Text.startsWith_cons_eq_false hne _ _

theorem IsNumericForm.dropPrefix?_eq_none {k : Nat} {n : Text} (h : IsNumericForm k n) :
    Text.dropPrefix? branchPrefix n = none := by
  have := h.not_startsWith
  rwa [Text.startsWith, Option.isSome_eq_false_iff, Option.isNone_iff_eq_none] at this

/-- A suffix behind a text adds no run when a hyphen stands between them. -/
theorem runsWithin_append_suffix {k : Nat} {s suffix : Text} (hs : RunsWithin k s)
    (hsuffix : RunsWithin k suffix) (hhyphen : ∀ c ∈ suffix.head?, c = '-') :
    RunsWithin k (s ++ suffix) := by
  cases suffix with
  | nil => simpa using hs
  | cons c r =>
    obtain rfl := hhyphen c rfl
    exact hs.append_cons (by decide) (hsuffix.of_isInfix (List.suffix_cons _ r).isInfix)

namespace IsPointed

variable {k : Nat} {t : Text}

theorem isDecimal_or_eq (h : IsPointed k t) : ∀ c ∈ t, Text.isDecimal c = true ∨ c = '.' := by
  obtain ⟨ds, rfl, hd, -⟩ := h
  intro c hc
  rcases List.mem_cons.1 hc with rfl | hc
  · exact .inr rfl
  · exact .inl (hd c hc)

theorem runsWithin_append (h : IsPointed k t) {s : Text} (hs : RunsWithin k s) :
    RunsWithin k (s ++ t) := by
  obtain ⟨ds, rfl, -, hl⟩ := h
  exact hs.append_cons (by decide) (RunsWithin.of_length_le hl)

theorem missingComponent (hk : 7 ≤ k) : IsPointed k missingComponent :=
  ⟨['0'], rfl, List.all_iff_forall_prop.1 rfl, by simp; omega⟩

theorem openComponent (hk : 7 ≤ k) : IsPointed k ('.' :: openComponent) :=
  ⟨_, rfl, List.all_iff_forall_prop.1 rfl, hk⟩

/-- A component that may be missing, and stands for another one then. -/
theorem getD {o : Option Text} (ho : ∀ t ∈ o, IsPointed k t) (h : IsPointed k t) :
    IsPointed k (o.getD t) := by
  cases o with
  | none => exact h
  | some u => exact ho u rfl

end IsPointed

/-- A number, three components and a suffix make a numeric form. -/
theorem isNumericForm_of_isPointed {k : Nat} {major second third fourth suffix : Text}
    (hne : major ≠ []) (hd : ∀ c ∈ major, Text.isDecimal c = true) (hl : major.length ≤ k)
    (h₂ : IsPointed k second) (h₃ : IsPointed k third) (h₄ : IsPointed k fourth)
    (hsuffix : RunsWithin k suffix) (hhyphen : ∀ c ∈ suffix.head?, c = '-') :
    IsNumericForm k (major ++ second ++ third ++ fourth ++ suffix) := by
  refine ⟨?_, ?_⟩
  · obtain ⟨c, major, rfl⟩ := List.exists_cons_of_ne_nil hne
    refine ⟨c, major ++ second ++ third ++ fourth, suffix, rfl, hd c (by simp), ?_, hhyphen⟩
    intro d hm
    simp only [List.mem_append] at hm
    rcases hm with ((hm | hm) | hm) | hm
    · exact .inl (hd d (by simp [hm]))
    · exact h₂.isDecimal_or_eq d hm
    · exact h₃.isDecimal_or_eq d hm
    · exact h₄.isDecimal_or_eq d hm
  · have hmajor : RunsWithin k major := RunsWithin.of_length_le hl
    have hrelease := h₄.runsWithin_append (h₃.runsWithin_append (h₂.runsWithin_append hmajor))
    exact runsWithin_append_suffix hrelease hsuffix hhyphen

/-! ## Scanning components -/

theorem dropVersionLetter_isSuffix (s : Text) : dropVersionLetter s <:+ s := by
  unfold dropVersionLetter
  split
  · exact List.suffix_cons _ _
  · exact List.suffix_cons _ _
  · exact List.suffix_refl _

/-- The number that opens a text has only digits, and not more than a run of the text. -/
theorem takeWhile_isDecimal_spec {k : Nat} {s : Text} (hs : RunsWithin k s) :
    (∀ c ∈ s.takeWhile Text.isDecimal, Text.isDecimal c = true) ∧
      (s.takeWhile Text.isDecimal).length ≤ k :=
  ⟨List.all_eq_true.1 List.all_takeWhile, hs.length_takeWhile_le⟩

/-- A number behind a point, and the runs of what is left of the text. -/
theorem pointNumber_spec {k : Nat} {s r : Text} {component : Option Text} (hs : RunsWithin k s)
    (h : pointNumber s = (component, r)) :
    (∀ t ∈ component, IsPointed k t) ∧ RunsWithin k r := by
  unfold pointNumber at h
  split at h
  · rename_i u
    have hu := hs.of_isInfix (List.suffix_cons '.' u).isInfix
    split at h
    · obtain ⟨rfl, rfl⟩ := Prod.mk.inj h
      exact ⟨by simp, hs⟩
    · obtain ⟨rfl, rfl⟩ := Prod.mk.inj h
      refine ⟨?_, hu.of_isInfix (List.dropWhile_suffix _).isInfix⟩
      rintro t ⟨⟩
      exact ⟨_, rfl, takeWhile_isDecimal_spec hu⟩
  · obtain ⟨rfl, rfl⟩ := Prod.mk.inj h
    exact ⟨by simp, hs⟩

/-- A component of a branch name, which may be the open one, and the runs of what is left. -/
theorem branchComponent_spec {k : Nat} (hk : 7 ≤ k) {s r : Text} {component : Option Text}
    (hs : RunsWithin k s) (h : branchComponent s = (component, r)) :
    (∀ t ∈ component, IsPointed k t) ∧ RunsWithin k r := by
  unfold branchComponent at h
  split at h
  · rename_i c u
    have hu := hs.of_isInfix (List.suffix_cons '.' (c :: u)).isInfix
    split at h
    · obtain ⟨rfl, rfl⟩ := Prod.mk.inj h
      refine ⟨?_, hu.of_isInfix (List.suffix_cons c u).isInfix⟩
      rintro t ⟨⟩
      exact IsPointed.openComponent hk
    · split at h
      · obtain ⟨rfl, rfl⟩ := Prod.mk.inj h
        refine ⟨?_, hu.of_isInfix (List.dropWhile_suffix _).isInfix⟩
        rintro t ⟨⟩
        exact ⟨_, rfl, takeWhile_isDecimal_spec hu⟩
      · obtain ⟨rfl, rfl⟩ := Prod.mk.inj h
        exact ⟨by simp, hs⟩
  · obtain ⟨rfl, rfl⟩ := Prod.mk.inj h
    exact ⟨by simp, hs⟩

/-! ## The three numeric shapes -/

section Shapes

variable {k : Nat} {s n : Text}

theorem isNumericForm_of_classical? (hk : 7 ≤ k) (hs : RunsWithin k s)
    (h : classical? s = some n) : IsNumericForm k n := by
  have ht := hs.of_isInfix (dropVersionLetter_isSuffix s).isInfix
  have hmajor := takeWhile_isDecimal_spec ht
  -- Each scanner goes on with the text that the one before it has left.
  rcases h₂ : pointNumber ((dropVersionLetter s).dropWhile Text.isDecimal) with ⟨second, r₂⟩
  rcases h₃ : pointNumber r₂ with ⟨third, r₃⟩
  rcases h₄ : pointNumber r₃ with ⟨fourth, r₄⟩
  simp only [classical?, h₂, h₃, h₄] at h
  obtain ⟨hsecond, hr₂⟩ :=
    pointNumber_spec (ht.of_isInfix (List.dropWhile_suffix Text.isDecimal).isInfix) h₂
  obtain ⟨hthird, hr₃⟩ := pointNumber_spec hr₂ h₃
  obtain ⟨hfourth, hr₄⟩ := pointNumber_spec hr₃ h₄
  split at h
  · cases h
  · rename_i hne
    simp only [Bool.or_eq_true, List.isEmpty_iff, not_or] at hne
    obtain ⟨σ, hσ, rfl⟩ := Option.map_eq_some_iff.1 h
    have hmissing := IsPointed.missingComponent hk
    exact isNumericForm_of_isPointed hne.1 hmajor.1 hmajor.2 (.getD hsecond hmissing)
      (.getD hthird hmissing) (.getD hfourth hmissing) (Suffix.runsWithin_render hσ hr₄)
      σ.head?_render

/-- A date opens with the digits of its year. -/
theorem exists_eq_cons_of_isDate {date : Text} (h : isDate date = true) :
    ∃ c r, date = c :: r ∧ Text.isDecimal c = true := by
  obtain ⟨r, hr, -⟩ := (Option.any_eq_true _ _).1 h
  unfold afterDigits? at hr
  split at hr
  · rename_i hy
    simp only [Bool.and_eq_true, decide_eq_true_eq] at hy
    match date, hy with
    | c :: t, hy =>
      simp only [List.take_succ_cons, List.all_cons, Bool.and_eq_true] at hy
      exact ⟨c, t, rfl, hy.2.1⟩
  · cases hr

/-- A dated version is a date at the front of the text, written with points, and its suffix. -/
theorem exists_of_dated? (h : dated? s = some n) :
    ∃ (date : Text) (σ : Suffix), date <+: dropVersionLetter s ∧ isDate date = true ∧
      suffix? ((dropVersionLetter s).drop date.length) = some σ ∧
      n = (date.map fun c => if Text.isDecimal c then c else '.') ++ σ.render := by
  simp only [dated?] at h
  split at h
  · rename_i hdate
    obtain ⟨σ, hσ, rfl⟩ := Option.map_eq_some_iff.1 h
    refine ⟨_, σ, ?_, hdate, hσ, rfl⟩
    exact (Text.dropEndWhile_isPrefix _ _).trans (List.takeWhile_prefix _)
  · cases h

theorem isNumericForm_of_dated? (hs : RunsWithin k s) (h : dated? s = some n) :
    IsNumericForm k n := by
  obtain ⟨date, σ, hdate, hyear, hσ, rfl⟩ := exists_of_dated? h
  have ht := hs.of_isInfix (dropVersionLetter_isSuffix s).isInfix
  have hwrite : ∀ d, Text.isDecimal (if Text.isDecimal d then d else '.') = Text.isDecimal d := by
    intro d
    split
    · rfl
    · rename_i hd
      rw [Bool.not_eq_true] at hd
      rw [hd]
      decide
  refine ⟨?_, ?_⟩
  · obtain ⟨c, r, rfl, hc⟩ := exists_eq_cons_of_isDate hyear
    refine ⟨c, r.map fun d => if Text.isDecimal d then d else '.', σ.render, ?_, hc, ?_,
      σ.head?_render⟩
    · simp [hc]
    · intro d hd
      obtain ⟨e, -, rfl⟩ := List.mem_map.1 hd
      split
      · exact .inl ‹_›
      · exact .inr rfl
  · have hsuffix := Suffix.runsWithin_render hσ (ht.of_isInfix (List.drop_suffix _ _).isInfix)
    exact runsWithin_append_suffix ((ht.of_isInfix hdate.isInfix).map hwrite) hsuffix
      σ.head?_render

/-- The components of a numeric branch make a numeric form, whatever suffix is put behind them. -/
theorem isNumericForm_of_numericBranch? (hk : 7 ≤ k) (hs : RunsWithin k s)
    (h : numericBranch? s = some n) {suffix : Text} (hsuffix : RunsWithin k suffix)
    (hhyphen : ∀ c ∈ suffix.head?, c = '-') : IsNumericForm k (n ++ suffix) := by
  have ht := hs.of_isInfix (dropVersionLetter_isSuffix s).isInfix
  have hmajor := takeWhile_isDecimal_spec ht
  rcases h₂ : branchComponent ((dropVersionLetter s).dropWhile Text.isDecimal) with ⟨second, r₂⟩
  rcases h₃ : branchComponent r₂ with ⟨third, r₃⟩
  rcases h₄ : branchComponent r₃ with ⟨fourth, r₄⟩
  simp only [numericBranch?, h₂, h₃, h₄] at h
  obtain ⟨hsecond, hr₂⟩ :=
    branchComponent_spec hk (ht.of_isInfix (List.dropWhile_suffix Text.isDecimal).isInfix) h₂
  obtain ⟨hthird, hr₃⟩ := branchComponent_spec hk hr₂ h₃
  obtain ⟨hfourth, -⟩ := branchComponent_spec hk hr₃ h₄
  split at h
  · cases h
  · rename_i hne
    simp only [Bool.or_eq_true, List.isEmpty_iff, not_or] at hne
    obtain rfl := Option.some.inj h
    have hopen := IsPointed.openComponent hk
    exact isNumericForm_of_isPointed hne.1 hmajor.1 hmajor.2 (.getD hsecond hopen)
      (.getD hthird hopen) (.getD hfourth hopen) hsuffix hhyphen

/-- The branch in front of a development mark opens the text. -/
theorem isPrefix_of_beforeDev? {name : Text} (h : beforeDev? s = some name) : name <+: s := by
  have hfeed : dropFinalFeed s <+: s := by
    unfold dropFinalFeed
    split
    · exact List.dropLast_prefix s
    · exact List.prefix_refl s
  simp only [beforeDev?] at h
  split at h
  · rename_i r hr
    split at h
    · cases h
    · obtain rfl := Option.some.inj h
      obtain ⟨u, hu, -⟩ := Text.dropKeyword?_eq_some_iff.1 hr
      -- Read from behind, the branch is what is left when its end has been passed.
      have hrest : dropOne ['.', '-'] r <:+ (dropFinalFeed s).reverse :=
        (dropOne_isSuffix _ r).trans (hu ▸ List.suffix_append u r)
      have hname := List.reverse_prefix.2 hrest
      rw [List.reverse_reverse] at hname
      exact hname.trans hfeed
  · cases h

/-- A development version is a numeric branch at the front of the text, marked as such. -/
theorem exists_of_development? (h : development? s = some n) :
    ∃ name version : Text, name <+: s ∧ numericBranch? (Text.strip name) = some version ∧
      n = version ++ devText true := by
  simp only [development?] at h
  split at h
  · rename_i name hname
    split at h
    · cases h
    · rename_i hbranch
      obtain rfl := Option.some.inj h
      unfold normalizeBranch at hbranch ⊢
      split
      · rename_i version hversion
        exact ⟨name, version, isPrefix_of_beforeDev? hname, hversion, rfl⟩
      · -- A branch that is not numeric is named behind the prefix, which is excluded.
        rename_i hnone
        rw [hnone] at hbranch
        exact absurd (Text.contains_iff.2 ⟨[], _, rfl⟩) hbranch
  · cases h

theorem isNumericForm_of_development? (hk : 7 ≤ k) (hs : RunsWithin k s)
    (h : development? s = some n) : IsNumericForm k n := by
  obtain ⟨name, version, hname, hversion, rfl⟩ := exists_of_development? h
  have hruns := hs.of_isInfix ((Text.strip_isInfix name).trans hname.isInfix)
  have hhead : ∀ c ∈ (devText true).head?, c = '-' := by simp [devText]
  exact isNumericForm_of_numericBranch? hk hruns hversion (runsWithin_devText k true) hhead

theorem numeric?_eq_some (h : numeric? s = some n) :
    classical? s = some n ∨ dated? s = some n ∨ development? s = some n := by
  simp only [numeric?, Option.orElse_eq_orElse, Option.orElse_eq_or, Option.or_eq_some_iff] at h
  rcases h with h | ⟨-, h | ⟨-, h⟩⟩
  · exact .inl h
  · exact .inr (.inl h)
  · exact .inr (.inr h)

/-- **Numeric versions** have a numeric form, in the digits they are written with. -/
theorem isNumericForm_of_numeric? (hk : 7 ≤ k) (hs : RunsWithin k s) (h : numeric? s = some n) :
    IsNumericForm k n := by
  rcases numeric?_eq_some h with h | h | h
  · exact isNumericForm_of_classical? hk hs h
  · exact isNumericForm_of_dated? hs h
  · exact isNumericForm_of_development? hk hs h

end Shapes

/-! ## The normal form -/

theorem dropAlias_isPrefix (s : Text) : dropAlias s <+: s := by
  -- Whether there is an alias does not matter.
  have hif : ∀ b : Bool, (if b then s.takeWhile isNameChar else s) <+: s := by
    intro b
    cases b with
    | true => exact List.takeWhile_prefix _
    | false => exact List.prefix_refl s
  exact hif _

theorem dropFlag_isPrefix (s : Text) : dropFlag s <+: s := by
  induction s with
  | nil => exact List.prefix_refl []
  | cons c s ih =>
    rw [dropFlag]
    split
    · exact List.nil_prefix
    · exact List.cons_prefix_cons.2 ⟨rfl, ih⟩

theorem dropBuild_isPrefix (s : Text) : dropBuild s <+: s := by
  unfold dropBuild
  split
  · split
    · exact List.takeWhile_prefix _
    · exact List.prefix_refl s
  · exact List.prefix_refl s

/-- What opens with a digit is no default branch. -/
theorem isOneOf_defaultBranches_of_isDigit {c : Char} (hc : c.isDigit = true) (r : Text) :
    Text.isOneOf defaultBranches (c :: r) = false := by
  have hm : 'm' ≠ c := (Text.ne_of_isDigit hc rfl).symm
  have ht : 't' ≠ c := (Text.ne_of_isDigit hc rfl).symm
  have hd : 'd' ≠ c := (Text.ne_of_isDigit hc rfl).symm
  simp [Text.isOneOf, defaultBranches, hm, ht, hd]

theorem nameDefault_of_isDigit {c : Char} (hc : c.isDigit = true) (r : Text) :
    nameDefault (c :: r) = c :: r := by
  rw [nameDefault, isOneOf_defaultBranches_of_isDigit hc]
  rfl

theorem dropKeyword?_branchPrefix_of_isDigit {c : Char} (hc : c.isDigit = true) (r : Text) :
    Text.dropKeyword? branchPrefix (c :: r) = none := by
  have hd : c ≠ 'd' := Text.ne_of_isDigit hc rfl
  show (if Text.foldLetter c = 'd' then _ else none) = none
  rw [Text.foldLetter_of_isDigit hc, if_neg hd]

/-- A normal form is made of what opens the text, but for blanks: a branch is named behind its
prefix, and what names none is numeric. -/
theorem exists_of_normalize {written n : Text} (h : normalize written = .ok n) :
    ∃ s, s <+: Text.strip written ∧
      ((∃ name, Text.dropKeyword? branchPrefix (nameDefault s) = some name ∧
          n = branchPrefix ++ name) ∨
        numeric? (dropBuild s) = some n) := by
  simp only [normalize] at h
  have hpre := (dropFlag_isPrefix _).trans (dropAlias_isPrefix (Text.strip written))
  revert h hpre
  generalize dropFlag (dropAlias (Text.strip written)) = s
  intro h hpre
  refine ⟨s, hpre, ?_⟩
  split at h
  · rename_i name hname
    exact .inl ⟨name, hname, (Except.ok.inj h).symm⟩
  · rename_i hbranch
    split at h
    · rename_i version hversion
      obtain rfl := Except.ok.inj h
      -- A default branch has been given the prefix, so this text is none.
      have hdefault : nameDefault s = s := by
        unfold nameDefault
        split
        · rename_i hone
          rw [nameDefault, if_pos hone] at hbranch
          have hp : Text.dropKeyword? branchPrefix (branchPrefix ++ s) = some s :=
            Text.dropKeyword?_eq_some_iff.2 ⟨branchPrefix, rfl, by decide⟩
          rw [hp] at hbranch
          cases hbranch
        · rfl
      rw [hdefault] at hversion
      exact .inr hversion
    · cases h

/-- **Normal forms** are numeric unless they name a branch. -/
theorem normalize_eq_ok {k : Nat} (hk : 7 ≤ k) {written n : Text} (hr : RunsWithin k written)
    (h : normalize written = .ok n) : (∃ name, n = branchPrefix ++ name) ∨ IsNumericForm k n := by
  obtain ⟨s, hs, ⟨name, -, hname⟩ | hn⟩ := exists_of_normalize h
  · exact .inl ⟨name, hname⟩
  · have hpiece := ((dropBuild_isPrefix s).trans hs).isInfix.trans (Text.strip_isInfix written)
    exact .inr (isNumericForm_of_numeric? hk (hr.of_isInfix hpiece) hn)

/-! ## Reading a normal form -/

theorem mem_pointParts {s w : Text} (h : w ∈ Version.pointParts s)
    (hs : ∀ c ∈ s, Text.isDecimal c = true ∨ c = '.') :
    w <:+: s ∧ w ≠ [] ∧ ∀ c ∈ w, Text.isDecimal c = true := by
  obtain ⟨hw, hne, hp⟩ := Text.mem_words h
  refine ⟨hw, hne, fun c hc => ?_⟩
  rcases hs c (hw.subset hc) with hd | rfl
  · exact hd
  · exact absurd (hp '.' hc) (by decide)

/-- The numbers of a suffix can be read when its runs are within the limit. -/
theorem exists_applySuffix {s : Text} (hs : RunsWithin Numeral.maxDigits s) (p : Place) :
    ∃ q, Version.applySuffix p s = .ok q := by
  unfold Version.applySuffix
  split
  · exact ⟨p, rfl⟩
  · rename_i rank numbers hplace
    simp only [Version.suffixPlace?] at hplace
    split at hplace
    · cases hplace
    · obtain ⟨-, rfl⟩ := Prod.mk.inj (Option.some.inj hplace)
      -- Between the points of the number stand runs of digits of the text.
      have hread : ∀ w ∈ Version.pointParts ((dropOne ['.'] (s.dropWhile Text.isLetter)).takeWhile
          fun c => Text.isDecimal c || c = '.'), Numeral.read w = .ok (Numeral.value w) := by
        intro w hw
        obtain ⟨hpiece, -, hd⟩ := mem_pointParts hw fun c hc => by
          simpa using List.all_eq_true.1 List.all_takeWhile c hc
        have hword := hpiece.trans ((List.takeWhile_prefix _).isInfix.trans
          ((dropOne_isSuffix _ _).isInfix.trans (List.dropWhile_suffix _).isInfix))
        exact Numeral.read_of_length_le (hs w hword hd)
      rw [Except.mapM_eq_ok hread]
      exact ⟨_, rfl⟩

theorem exists_foldlM_applySuffix {l : List Text} (hl : ∀ s ∈ l, RunsWithin Numeral.maxDigits s)
    (p : Place) : ∃ q, l.foldlM Version.applySuffix p = .ok q := by
  induction l generalizing p with
  | nil => exact ⟨p, rfl⟩
  | cons s l ih =>
    obtain ⟨q, hq⟩ := exists_applySuffix (hl s (by simp)) p
    obtain ⟨r, hr⟩ := ih (fun t ht => hl t (by simp [ht])) q
    refine ⟨r, ?_⟩
    rw [List.foldlM_cons, hq]
    exact hr

/-- The release of a numeric form stands in front of its first hyphen. -/
theorem IsNumericForm.headD_fields {k : Nat} {n : Text} (h : IsNumericForm k n) :
    ∀ c ∈ (Text.fields '-' n).headD [], Text.isDecimal c = true ∨ c = '.' := by
  obtain ⟨c, release, suffix, rfl, hc, hrelease, hsuffix⟩ := h.exists_eq_append
  have hchars : ∀ d ∈ c :: release, Text.isDecimal d = true ∨ d = '.' := by
    intro d hd
    rcases List.mem_cons.1 hd with rfl | hd
    · exact .inl hc
    · exact hrelease d hd
  have hno : '-' ∉ c :: release := fun hm => by
    rcases hchars '-' hm with hd | hd
    · exact absurd hd (by decide)
    · cases hd
  cases suffix with
  | nil => simpa [Text.fields_eq_singleton hno] using hchars
  | cons d suffix =>
    obtain rfl := hsuffix d rfl
    rw [Text.fields_append_cons hno]
    exact hchars

/-- **A numeric form** whose runs are within the limit is a version, and no branch. -/
theorem IsNumericForm.exists_ofNormal {n : Text} (h : IsNumericForm Numeral.maxDigits n) :
    ∃ v, Version.ofNormal n = .ok v ∧ v.branch = none := by
  have hbranch := h.dropPrefix?_eq_none
  obtain ⟨release, suffixes, hfields⟩ :=
    List.exists_cons_of_ne_nil (Text.splitWhere_ne_nil (· == '-') n)
  have hchars := h.headD_fields
  have hpiece : ∀ w ∈ release :: suffixes, RunsWithin Numeral.maxDigits w := fun w hw =>
    h.runsWithin.of_isInfix (Text.mem_splitWhere (hfields ▸ hw)).1
  rw [Text.fields, hfields] at hchars
  have hliteral : ∀ w ∈ Version.pointParts release,
      Numeral.literal w = .ok (Numeral.value w : Int) := by
    intro w hw
    obtain ⟨hw, hne, hd⟩ := mem_pointParts hw hchars
    exact Numeral.literal_of_isDecimal hne hd (hpiece release (by simp) w hw hd)
  obtain ⟨q, hq⟩ := exists_foldlM_applySuffix (l := suffixes)
    (fun w hw => hpiece w (List.mem_cons_of_mem _ hw))
    ⟨Version.padRelease (((Version.pointParts release).map fun w =>
      (Numeral.value w : Int)).map Int.toNat), Stability.stable.rank, []⟩
  refine ⟨⟨q, none⟩, ?_, rfl⟩
  simp only [Version.ofNormal, hbranch, Text.fields, hfields, List.headD_cons, List.tail_cons,
    Except.mapM_eq_ok hliteral]
  show (do return Version.mk (← suffixes.foldlM Version.applySuffix _) none) = _
  rw [hq]
  rfl

/-- What opens with a digit is read as no branch. -/
theorem Version.branch_of_parse {c : Char} {r : Text} (hc : c.isDigit = true) {v : Version}
    (h : parse (c :: r) = .ok v) : v.branch = none := by
  obtain ⟨n, hn, hv⟩ := Except.exists_of_bind_eq_ok h
  obtain ⟨s, hs, hn⟩ := exists_of_normalize hn
  have hpre : s <+: c :: r := by
    have hstrip : Text.strip (c :: r) = Text.dropEndWhile Text.isBlank (c :: r) := by
      rw [Text.strip, List.dropWhile_cons_of_neg]
      simp [Text.isBlank_eq_false_of_isDigit hc]
    exact (hstrip ▸ hs).trans (Text.dropEndWhile_isPrefix _ _)
  -- Neither nothing nor what opens with a digit has the prefix or is a default branch.
  have hnone : Text.dropKeyword? branchPrefix (nameDefault s) = none := by
    cases s with
    | nil => rfl
    | cons d t =>
      obtain rfl : d = c := (List.cons_prefix_cons.1 hpre).1
      rw [nameDefault_of_isDigit hc]
      exact dropKeyword?_branchPrefix_of_isDigit hc t
  rcases hn with ⟨name, hname, -⟩ | hn
  · rw [hnone] at hname
    cases hname
  -- Any bound on the runs will do, as only the first character counts.
  · have hform : IsNumericForm (max 7 s.length) n :=
      isNumericForm_of_numeric? (Nat.le_max_left ..) (RunsWithin.of_length_le
        (Nat.le_trans (dropBuild_isPrefix s).length_le (Nat.le_max_right ..))) hn
    have hof := Except.eq_ok_of_mapError hv
    rw [ofNormal, hform.dropPrefix?_eq_none] at hof
    obtain ⟨release, -, hof⟩ := Except.exists_of_bind_eq_ok hof
    obtain ⟨place, -, hof⟩ := Except.exists_of_bind_eq_ok hof
    rw [← Except.ok.inj hof]

/-- What has the normal form of a branch is read as that branch. -/
theorem Version.parse_of_normalize_eq_branch {written name : Text}
    (h : normalize written = .ok (branchPrefix ++ name)) :
    parse written = .ok (.ofBranch name) := by
  rw [parse, h]
  rfl

/-- **What has a numeric form can be read** when no run of its digits is beyond the limit. -/
theorem Version.exists_parse_of_normalize {written n : Text}
    (hr : RunsWithin Numeral.maxDigits written) (h : normalize written = .ok n)
    (hn : Text.startsWith branchPrefix n = false) :
    ∃ v, parse written = .ok v ∧ v.branch = none := by
  rcases normalize_eq_ok (by decide) hr h with ⟨name, rfl⟩ | hform
  · rw [Text.startsWith_iff.2 ⟨name, rfl⟩] at hn
    cases hn
  · obtain ⟨v, hv, hb⟩ := hform.exists_ofNormal
    refine ⟨v, ?_, hb⟩
    rw [parse, h]
    exact congrArg (Except.mapError VersionError.numeral) hv

end Target

end AssetBridge
