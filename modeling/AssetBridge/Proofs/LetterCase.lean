import AssetBridge.Proofs.OpeningNumbers
import AssetBridge.Proofs.StoredSettings

/-!
# Letter case

The scanners of the target grammar disregard the case of ASCII letters. Each does the same with a
text and with the text in small letters, so that two texts which differ in case only are read alike
from scanner to scanner: the numbers are the same, and the keyword of the suffix is the same but for
its case.

## Main definitions

* `Text.SameLetters`: texts that differ in the case of ASCII letters only
* `Text.IgnoresCase`: what does not depend on that case
* `Suffix.inSmallLetters`: a suffix with its keyword in small letters
* `numbered?`: the numbers of a version and the suffix behind them

## Main results

* `lower_map_toLower`: a text and its small form are the same in small letters
* `suffix?_map_toLower`, `numbered?_map_toLower`, `development?_map_toLower`: what the scanners make
  of a text in small letters
* `numeric?_map_eq`: the shapes of texts with the same letters differ in their suffixes only
-/

namespace AssetBridge

/-- Two readings that agree in what is looked at both fail or both succeed. -/
theorem Option.none_or_some_of_map_eq {α β : Type} {f : α → β} {o p : Option α}
    (h : o.map f = p.map f) :
    o = none ∧ p = none ∨ ∃ a b, o = some a ∧ p = some b ∧ f a = f b := by
  cases o with
  | none => exact .inl ⟨rfl, Option.map_eq_none_iff.1 h.symm⟩
  | some a =>
    obtain ⟨b, hb, hab⟩ := Option.map_eq_some_iff.1 h.symm
    exact .inr ⟨a, b, rfl, hb, hab.symm⟩

namespace Text

/-! ## Texts with the same letters -/

/-- **Texts with the same letters**: they differ in the case of ASCII letters only. -/
def SameLetters (s t : Text) : Prop := s.map Char.toLower = t.map Char.toLower

instance (s t : Text) : Decidable (SameLetters s t) :=
  inferInstanceAs (Decidable (s.map Char.toLower = t.map Char.toLower))

/-- **What ignores letter case** is the same for an ASCII capital and its small letter. -/
def IgnoresCase {β : Type} (f : Char → β) : Prop := ∀ c : Char, f c.toLower = f c

namespace IgnoresCase

variable {β : Type} {f : Char → β} {p q : Char → Bool}

/-- What is the same for both cases can be checked on the capitals. -/
theorem of_capitals
    (h : ∀ n < 26, f (Char.ofNat (65 + n)).toLower = f (Char.ofNat (65 + n))) :
    IgnoresCase f := by
  intro c
  rcases toLower_eq_self_or_exists c with hc | ⟨n, hn, rfl⟩
  · rw [hc]
  · exact h n hn

/-- A set of code points without ASCII letters ignores their case. -/
theorem of_ranges {ranges : List (Nat × Nat)}
    (h : ∀ r ∈ ranges, r.2 < 65 ∨ 90 < r.1 ∧ r.2 < 97 ∨ 122 < r.1) :
    IgnoresCase (inRanges ranges) := by
  have hcodes : ∀ n < 26, (Char.ofNat (65 + n)).toNat = 65 + n ∧
      (Char.ofNat (65 + n)).toLower.toNat = 97 + n := by decide
  -- Neither form of a letter is in any of the ranges.
  have hout : ∀ c : Char, 65 ≤ c.toNat ∧ c.toNat ≤ 90 ∨ 97 ≤ c.toNat ∧ c.toNat ≤ 122 →
      inRanges ranges c = false := by
    intro c hc
    rw [Bool.eq_false_iff, ne_eq, inRanges_iff]
    rintro ⟨r, hr, hl, hu⟩
    have := h r hr
    omega
  intro c
  rcases toLower_eq_self_or_exists c with hc | ⟨n, hn, rfl⟩
  · rw [hc]
  · obtain ⟨hcapital, hsmall⟩ := hcodes n hn
    have hcapital' := hout (Char.ofNat (65 + n)) (.inl (by omega))
    have hsmall' := hout (Char.ofNat (65 + n)).toLower (.inr (by omega))
    rw [hcapital', hsmall']

theorem takeWhile_map (hp : IgnoresCase p) (s : Text) :
    (s.map Char.toLower).takeWhile p = (s.takeWhile p).map Char.toLower := by
  rw [List.takeWhile_map, show p ∘ Char.toLower = p from funext hp]

/-- A scan that takes no letters takes the same from both texts. -/
theorem takeWhile_map_eq (hp : IgnoresCase p) (hfix : ∀ c, p c = true → c.toLower = c) (s : Text) :
    (s.map Char.toLower).takeWhile p = s.takeWhile p := by
  have htaken : ∀ c ∈ s.takeWhile p, c.toLower = c := fun c hc =>
    hfix c (List.all_eq_true.1 List.all_takeWhile c hc)
  rw [hp.takeWhile_map]
  exact (List.map_congr_left htaken).trans (List.map_id _)

theorem dropWhile_map (hp : IgnoresCase p) (s : Text) :
    (s.map Char.toLower).dropWhile p = (s.dropWhile p).map Char.toLower := by
  rw [List.dropWhile_map, show p ∘ Char.toLower = p from funext hp]

theorem dropEndWhile_map (hp : IgnoresCase p) (s : Text) :
    dropEndWhile p (s.map Char.toLower) = (dropEndWhile p s).map Char.toLower := by
  rw [dropEndWhile, ← List.map_reverse, hp.dropWhile_map, ← List.map_reverse, dropEndWhile]

theorem not (hp : IgnoresCase p) : IgnoresCase fun c => !p c := fun c => congrArg (!·) (hp c)

/-- The neighbours of a letter are looked at in the same way. -/
theorem find?_any_map (hp : IgnoresCase p) (hq : IgnoresCase q) (s : Text) :
    ((s.map Char.toLower).find? p).any q = (s.find? p).any q := by
  rw [List.find?_map, Option.any_map, show p ∘ Char.toLower = p from funext hp]
  exact congrArg (fun q => (s.find? p).any q) (funext hq)

end IgnoresCase

theorem ignoresCase_isDecimal : IgnoresCase isDecimal := isDecimal_toLower

theorem ignoresCase_isBlank : IgnoresCase isBlank := .of_ranges (by decide)

theorem ignoresCase_foldLetter : IgnoresCase foldLetter := .of_capitals (by decide)

theorem toLower_of_isDecimal {c : Char} (h : isDecimal c = true) : c.toLower = c := by
  have hcapitals : ∀ n < 26, isDecimal (Char.ofNat (65 + n)) = false := by decide
  rcases toLower_eq_self_or_exists c with hc | ⟨n, hn, rfl⟩
  · exact hc
  · rw [hcapitals n hn] at h
    cases h

/-- A character that is no letter is the small form of itself only. -/
theorem toLower_eq_iff {d : Char} (hd : d.isAlpha = false) (c : Char) :
    c.toLower = d ↔ c = d := by
  have hletters : ∀ n < 26, (Char.ofNat (65 + n)).toLower.isAlpha = true ∧
      (Char.ofNat (65 + n)).isAlpha = true := by decide
  rcases toLower_eq_self_or_exists c with hc | ⟨n, hn, rfl⟩
  · rw [hc]
  · constructor
    · rintro rfl
      rw [(hletters n hn).1] at hd
      cases hd
    · rintro rfl
      rw [(hletters n hn).2] at hd
      cases hd

/-! ## Scans -/

theorem strip_map_toLower (s : Text) :
    strip (s.map Char.toLower) = (strip s).map Char.toLower := by
  rw [strip, ignoresCase_isBlank.dropWhile_map, ignoresCase_isBlank.dropEndWhile_map, strip]

theorem takeWhile_isDecimal_map (s : Text) :
    (s.map Char.toLower).takeWhile isDecimal = s.takeWhile isDecimal :=
  ignoresCase_isDecimal.takeWhile_map_eq (fun _ => toLower_of_isDecimal) s

theorem dropKeyword?_map_toLower (k s : Text) :
    dropKeyword? k (s.map Char.toLower) = (dropKeyword? k s).map (List.map Char.toLower) := by
  induction k generalizing s with
  | nil => rw [dropKeyword?_nil, dropKeyword?_nil, Option.map_some]
  | cons a k ih =>
    cases s with
    | nil => rfl
    | cons c s =>
      rw [List.map_cons, dropKeyword?, ignoresCase_foldLetter, ih, dropKeyword?]
      split
      · rfl
      · rfl

theorem isFinal_map_toLower (s : Text) : isFinal (s.map Char.toLower) = isFinal s := by
  match s with
  | [] => rfl
  | [c] => simp [isFinal, toLower_eq_iff (d := '\n') (by decide)]
  | _ :: _ :: _ => simp [isFinal]

/-! ## Small letters -/

theorem lowerBetween_map_toLower (before : Text) (c : Char) (after : Text) :
    lowerBetween (before.map Char.toLower) c.toLower (after.map Char.toLower) =
      lowerBetween before c after := by
  have hignorable : IgnoresCase (inRanges ignorableRanges) := .of_ranges (by decide +kernel)
  -- The ASCII letters are among the cased ones, so that these are looked up one by one.
  have hcased : IgnoresCase (inRanges casedRanges) := .of_capitals (by decide +kernel)
  have hmeets : ∀ s : Text, meetsLetter (s.map Char.toLower) = meetsLetter s :=
    hignorable.not.find?_any_map hcased
  have hsmall : IgnoresCase smallLetter := .of_capitals (by decide)
  have hsigma : IgnoresCase fun c => decide (c = 'Σ') := .of_capitals (by decide)
  have hdotted : IgnoresCase fun c => decide (c = 'İ') := .of_capitals (by decide)
  simp only [lowerBetween, hmeets, hsmall c, decide_eq_decide.1 (hsigma c),
    decide_eq_decide.1 (hdotted c)]

theorem lowerAfter_map_toLower (before s : Text) :
    lowerAfter (before.map Char.toLower) (s.map Char.toLower) = lowerAfter before s := by
  induction s generalizing before with
  | nil => rfl
  | cons c s ih =>
    rw [List.map_cons, lowerAfter, lowerBetween_map_toLower, ← List.map_cons, ih, lowerAfter]

/-- **Texts with the same letters** have the same small form. -/
theorem lower_map_toLower (s : Text) : lower (s.map Char.toLower) = lower s :=
  lowerAfter_map_toLower [] s

end Text

/-- A keyword is expanded in the same way in either case. -/
theorem Stability.expandKeyword_of_sameLetters {k l : Text} (h : Text.SameLetters k l) :
    expandKeyword k = expandKeyword l := by
  have hlower : Text.lower k = Text.lower l := by
    rw [← Text.lower_map_toLower, h, Text.lower_map_toLower]
  simp only [expandKeyword, hlower]

namespace Target

open Text (IgnoresCase SameLetters)

/-! ## Numbers -/

theorem dropVersionLetter_cons (c : Char) (r : Text) :
    dropVersionLetter (c :: r) = if c = 'v' ∨ c = 'V' then r else c :: r := by
  unfold dropVersionLetter
  split <;> simp_all

theorem dropVersionLetter_map_toLower (s : Text) :
    dropVersionLetter (s.map Char.toLower) = (dropVersionLetter s).map Char.toLower := by
  have hletter : IgnoresCase fun c => decide (c = 'v' ∨ c = 'V') := .of_capitals (by decide)
  cases s with
  | nil => rfl
  | cons c r =>
    simp only [List.map_cons, dropVersionLetter_cons, decide_eq_decide.1 (hletter c)]
    split
    · rfl
    · rfl

theorem pointNumber_map_toLower (s : Text) : pointNumber (s.map Char.toLower) =
    ((pointNumber s).1, (pointNumber s).2.map Char.toLower) := by
  cases s with
  | nil => rfl
  | cons c r =>
    by_cases hc : c = '.'
    · subst hc
      show pointNumber ('.' :: r.map Char.toLower) = _
      simp only [pointNumber, Text.takeWhile_isDecimal_map,
        Text.ignoresCase_isDecimal.dropWhile_map]
      split
      · rfl
      · rfl
    · have hpoint := mt (Text.toLower_eq_iff (by decide) c).1 hc
      simp [pointNumber, hc, hpoint]

theorem branchComponent_map_toLower (s : Text) : branchComponent (s.map Char.toLower) =
    ((branchComponent s).1, (branchComponent s).2.map Char.toLower) := by
  have hmark : IgnoresCase isOpenMark := .of_capitals (by decide)
  match s with
  | [] => rfl
  | [c] => simp [branchComponent]
  | c :: d :: r =>
    by_cases hc : c = '.'
    · subst hc
      show branchComponent ('.' :: d.toLower :: r.map Char.toLower) = _
      simp only [branchComponent, hmark d, Text.ignoresCase_isDecimal d]
      rw [← List.map_cons, Text.takeWhile_isDecimal_map, Text.ignoresCase_isDecimal.dropWhile_map]
      split
      · rfl
      · split
        · rfl
        · rfl
    · have hpoint := mt (Text.toLower_eq_iff (by decide) c).1 hc
      simp [branchComponent, hc, hpoint]

theorem numericBranch?_map_toLower (s : Text) :
    numericBranch? (s.map Char.toLower) = numericBranch? s := by
  simp only [numericBranch?, dropVersionLetter_map_toLower, Text.takeWhile_isDecimal_map,
    Text.ignoresCase_isDecimal.dropWhile_map, branchComponent_map_toLower,
    Text.isFinal_map_toLower]

/-! ## Suffixes -/

/-- A suffix with its keyword in small letters. -/
def Suffix.inSmallLetters (σ : Suffix) : Suffix :=
  ⟨σ.keyword.map fun p => (p.1.map Char.toLower, p.2), σ.dev⟩

theorem dropOne_map_toLower {separators : List Char}
    (h : IgnoresCase fun c => decide (c ∈ separators)) (s : Text) :
    dropOne separators (s.map Char.toLower) = (dropOne separators s).map Char.toLower := by
  cases s with
  | nil => rfl
  | cons c r =>
    simp only [List.map_cons, dropOne, decide_eq_decide.1 (h c)]
    split
    · rfl
    · rfl

theorem keyword?_map_toLower (s : Text) : keyword? (s.map Char.toLower) =
    (keyword? s).map fun p => (p.1.map Char.toLower, p.2.map Char.toLower) := by
  unfold keyword?
  induction suffixKeywords with
  | nil => rfl
  | cons k ks ih =>
    rw [List.findSome?_cons, List.findSome?_cons, Text.dropKeyword?_map_toLower, ← List.map_take]
    cases Text.dropKeyword? k s with
    | some r => rfl
    | none => exact ih

theorem numberRun_map_toLower (s : Text) : numberRun (s.map Char.toLower) =
    ((numberRun s).1, (numberRun s).2.map Char.toLower) := by
  induction s with
  | nil => rfl
  | cons c r ih =>
    have hhead : (r.map Char.toLower).head?.any Text.isDecimal = r.head?.any Text.isDecimal := by
      rw [List.head?_map, Option.any_map]
      exact congrArg (r.head?.any ·) (funext Text.ignoresCase_isDecimal)
    simp only [List.map_cons, numberRun, Text.ignoresCase_isDecimal c, hhead, ih,
      Text.toLower_eq_iff (d := '.') rfl, Text.toLower_eq_iff (d := '-') rfl]
    split
    · rename_i hc
      -- What belongs to the number is no letter.
      have hfix : c.toLower = c := by
        simp only [Bool.or_eq_true, Bool.and_eq_true, decide_eq_true_eq] at hc
        rcases hc with hc | ⟨rfl | rfl, -⟩
        · exact Text.toLower_of_isDecimal hc
        · rfl
        · rfl
      rw [hfix]
    · rfl

theorem devMark?_map_toLower (s : Text) : devMark? (s.map Char.toLower) = devMark? s := by
  have hsep : IgnoresCase fun c => decide (c ∈ ['.', '-']) := .of_capitals (by decide)
  simp only [devMark?, Text.isFinal_map_toLower, dropOne_map_toLower hsep,
    Text.dropKeyword?_map_toLower, Option.any_map]

theorem suffix?_map_toLower (s : Text) :
    suffix? (s.map Char.toLower) = (suffix? s).map Suffix.inSmallLetters := by
  have hsep : IgnoresCase fun c => decide (c ∈ ['.', '_', '-']) := .of_capitals (by decide)
  simp only [suffix?, dropOne_map_toLower hsep, keyword?_map_toLower]
  cases keyword? (dropOne ['.', '_', '-'] s) with
  | none =>
    simp only [Option.map_none, devMark?_map_toLower, Option.map_map]
    rfl
  | some p =>
    simp only [Option.map_some, numberRun_map_toLower, devMark?_map_toLower, Option.map_map]
    rfl

/-! ## Shapes of versions -/

/-- The numbers of a classical version, missing ones filled in, and what follows them. -/
def classicalNumbers? (s : Text) : Option (Text × Text) :=
  let s := dropVersionLetter s
  let major := s.takeWhile Text.isDecimal
  let (second, r) := pointNumber (s.dropWhile Text.isDecimal)
  let (third, r) := pointNumber r
  let (fourth, r) := pointNumber r
  if major.isEmpty || 5 < major.length then none
  else some (major ++ second.getD missingComponent ++ third.getD missingComponent ++
    fourth.getD missingComponent, r)

/-- The numbers of a dated version, between points, and what follows them. -/
def datedNumbers? (s : Text) : Option (Text × Text) :=
  let s := dropVersionLetter s
  let span := s.takeWhile fun c => Text.isDecimal c || isDateSeparator c
  let date := Text.dropEndWhile (fun c => !Text.isDecimal c) span
  if isDate date then
    some (date.map fun c => if Text.isDecimal c then c else '.', s.drop date.length)
  else none

/-- Numbers with the suffix that is read behind them. -/
def withSuffix? (p : Text × Text) : Option (Text × Suffix) := (suffix? p.2).map fun σ => (p.1, σ)

/-- **The numbers of a version** that is classical or dated, and the suffix behind them. -/
def numbered? (s : Text) : Option (Text × Suffix) :=
  (classicalNumbers? s).bind withSuffix? <|> (datedNumbers? s).bind withSuffix?

theorem classical?_eq_map (s : Text) : classical? s =
    ((classicalNumbers? s).bind withSuffix?).map fun p => p.1 ++ p.2.render := by
  unfold classical? classicalNumbers? withSuffix?
  simp only
  split
  · rfl
  · rw [Option.bind_some, Option.map_map]
    rfl

theorem dated?_eq_map (s : Text) : dated? s =
    ((datedNumbers? s).bind withSuffix?).map fun p => p.1 ++ p.2.render := by
  unfold dated? datedNumbers? withSuffix?
  simp only
  split
  · rw [Option.bind_some, Option.map_map]
    rfl
  · rfl

theorem numeric?_eq_map (s : Text) : numeric? s =
    (((numbered? s).map fun p => p.1 ++ p.2.render) <|> development? s) := by
  unfold numeric? numbered?
  rw [classical?_eq_map, dated?_eq_map]
  cases (classicalNumbers? s).bind withSuffix? with
  | some p => rfl
  | none => rfl

theorem classicalNumbers?_map_toLower (s : Text) : classicalNumbers? (s.map Char.toLower) =
    (classicalNumbers? s).map fun p => (p.1, p.2.map Char.toLower) := by
  simp only [classicalNumbers?, dropVersionLetter_map_toLower, Text.takeWhile_isDecimal_map,
    Text.ignoresCase_isDecimal.dropWhile_map, pointNumber_map_toLower]
  split
  · rfl
  · rfl

theorem datedNumbers?_map_toLower (s : Text) : datedNumbers? (s.map Char.toLower) =
    (datedNumbers? s).map fun p => (p.1, p.2.map Char.toLower) := by
  have hspan : IgnoresCase fun c => Text.isDecimal c || isDateSeparator c :=
    .of_capitals (by decide)
  have hfix : ∀ c, (Text.isDecimal c || isDateSeparator c) = true → c.toLower = c := by
    intro c hc
    simp only [Bool.or_eq_true, isDateSeparator, decide_eq_true_eq] at hc
    rcases hc with hc | (rfl | rfl) | rfl
    · exact Text.toLower_of_isDecimal hc
    all_goals rfl
  simp only [datedNumbers?, dropVersionLetter_map_toLower, hspan.takeWhile_map_eq hfix,
    ← List.map_drop]
  split
  · rfl
  · rfl

theorem bind_withSuffix?_map_toLower (front : Option (Text × Text)) :
    (front.map fun p => (p.1, p.2.map Char.toLower)).bind withSuffix? =
      (front.bind withSuffix?).map fun p => (p.1, p.2.inSmallLetters) := by
  cases front with
  | none => rfl
  | some p =>
    simp only [Option.map_some, Option.bind_some, withSuffix?, suffix?_map_toLower,
      Option.map_map]
    rfl

/-- **In small letters** a version has the same numbers, and its keyword in small letters. -/
theorem numbered?_map_toLower (s : Text) : numbered? (s.map Char.toLower) =
    (numbered? s).map fun p => (p.1, p.2.inSmallLetters) := by
  rw [numbered?, classicalNumbers?_map_toLower, datedNumbers?_map_toLower,
    bind_withSuffix?_map_toLower, bind_withSuffix?_map_toLower, numbered?]
  cases (classicalNumbers? s).bind withSuffix? with
  | some p => rfl
  | none => rfl

/-! ## Development versions -/

theorem dropFinalFeed_map_toLower (s : Text) :
    dropFinalFeed (s.map Char.toLower) = (dropFinalFeed s).map Char.toLower := by
  have hends : Text.endsWith ['\n'] (s.map Char.toLower) = Text.endsWith ['\n'] s := by
    rw [Text.endsWith, ← List.map_reverse, Text.endsWith]
    cases s.reverse with
    | nil => rfl
    | cons c r =>
      simp only [List.map_cons, List.reverse_singleton, Text.startsWith, Text.dropPrefix?,
        eq_comm (a := '\n'), Text.toLower_eq_iff (d := '\n') rfl]
      split
      · rfl
      · rfl
  rw [dropFinalFeed, hends, ← List.map_dropLast, dropFinalFeed]
  split
  · rfl
  · rfl

theorem beforeDev?_map_toLower (s : Text) :
    beforeDev? (s.map Char.toLower) = (beforeDev? s).map (List.map Char.toLower) := by
  have hsep : IgnoresCase fun c => decide (c ∈ ['.', '-']) := .of_capitals (by decide)
  have hfeed : ∀ name : Text, '\n' ∈ name.map Char.toLower ↔ '\n' ∈ name := by
    intro name
    simp [Text.toLower_eq_iff (d := '\n') rfl]
  simp only [beforeDev?, dropFinalFeed_map_toLower, ← List.map_reverse,
    Text.dropKeyword?_map_toLower]
  cases Text.dropKeyword? "ved".toList (dropFinalFeed s).reverse with
  | none => rfl
  | some r =>
    simp only [Option.map_some, dropOne_map_toLower hsep, ← List.map_reverse, hfeed]
    split
    · rfl
    · rfl

/-- A numeric branch has no letters that are kept, and any other one is named. -/
theorem normalizeBranch_map_toLower (name : Text) :
    normalizeBranch (name.map Char.toLower) = normalizeBranch name ∨
      Text.contains branchPrefix (normalizeBranch (name.map Char.toLower)) = true ∧
        Text.contains branchPrefix (normalizeBranch name) = true := by
  unfold normalizeBranch
  rw [Text.strip_map_toLower, numericBranch?_map_toLower]
  split
  · exact .inl rfl
  · exact .inr ⟨Text.contains_iff.2 ⟨[], _, rfl⟩, Text.contains_iff.2 ⟨[], _, rfl⟩⟩

/-- **Versions in development** are numeric branches, in which letter case leaves no trace. -/
theorem development?_map_toLower (s : Text) :
    development? (s.map Char.toLower) = development? s := by
  rw [development?, beforeDev?_map_toLower, development?]
  cases beforeDev? s with
  | none => rfl
  | some name =>
    rw [Option.map_some]
    rcases normalizeBranch_map_toLower name with hname | ⟨hsmall, hname⟩
    · simp only [hname]
    · simp only [hsmall, hname, if_true]

/-- **Texts with the same letters** have the same numbers, and the same suffix but for the case of
its keyword. -/
theorem numbered?_of_sameLetters {s t : Text} (h : SameLetters s t) :
    (numbered? s = none ∧ numbered? t = none) ∨
    ∃ numbers σ τ, numbered? s = some (numbers, σ) ∧ numbered? t = some (numbers, τ) ∧
      σ.inSmallLetters = τ.inSmallLetters := by
  have hsmall : (numbered? s).map (fun p => (p.1, p.2.inSmallLetters)) =
      (numbered? t).map (fun p => (p.1, p.2.inSmallLetters)) := by
    rw [← numbered?_map_toLower, h, numbered?_map_toLower]
  rcases Option.none_or_some_of_map_eq hsmall with hnone | ⟨p, q, hp, hq, heq⟩
  · exact .inl hnone
  · obtain ⟨hnumbers, hsuffix⟩ := Prod.mk.inj heq
    refine .inr ⟨p.1, p.2, q.2, hp, ?_, hsuffix⟩
    rw [hq, hnumbers]

/-- **The shapes of texts with the same letters** agree in all that their suffixes do not change. -/
theorem numeric?_map_eq {β : Type} {f : Text → β} {s t : Text} (h : SameLetters s t)
    (hf : ∀ numbers σ τ, numbered? s = some (numbers, σ) → numbered? t = some (numbers, τ) →
      σ.inSmallLetters = τ.inSmallLetters → f (numbers ++ σ.render) = f (numbers ++ τ.render)) :
    (numeric? s).map f = (numeric? t).map f := by
  have hdevelopment : development? s = development? t := by
    rw [← development?_map_toLower, h, development?_map_toLower]
  rw [numeric?_eq_map, numeric?_eq_map, hdevelopment]
  rcases numbered?_of_sameLetters h with ⟨hs, ht⟩ | ⟨numbers, σ, τ, hs, ht, hsmall⟩
  · rw [hs, ht]
  · rw [hs, ht]
    exact congrArg some (hf numbers σ τ hs ht hsmall)

end Target

end AssetBridge
