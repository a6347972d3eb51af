import AssetBridge.Proofs.Runs
import Mathlib.Data.Bool.AllAny

/-!
# Characters that lowering keeps apart

Putting a text in small letters exchanges letters for letters. A set of code points that no capital
is lowered into from outside holds the small form of a character only if it holds the character
itself. Whether a set is of that kind can be read off the table of capitals.

## Main definitions

* `CapitalRun.holds`, `CapitalRun.small`: the letters of a run of capitals and their small letters
* `IsClosed`: sets of code points that nothing is lowered into from outside
* `isReserved`, `IsWord`: the characters that ranges and constraints are made of, and the texts
  without them

## Main results

* `smallLetter_cases`: the small letter of a character
* `inRanges_of_mem_lowerBetween`: what is lowered into a closed set comes from it
* `IsWord.lower`: a word in small letters is a word
* `lowerAfter_append_of_isDecimal`: digits are no letters
-/

namespace AssetBridge.Text

/-! ## Capitals -/

/-- Whether a run has a code point. -/
def CapitalRun.holds (run : CapitalRun) (n : Nat) : Bool :=
  run.first ≤ n && n ≤ run.last && (n - run.first) % run.step == 0

theorem CapitalRun.holds_iff {run : CapitalRun} {n : Nat} : run.holds n = true ↔
    run.first ≤ n ∧ n ≤ run.last ∧ run.step ∣ n - run.first := by
  simp [holds, and_assoc, Nat.dvd_iff_mod_eq_zero]

/-- The code point that a run lowers one of its letters into. -/
def CapitalRun.small (run : CapitalRun) (n : Nat) : Nat := (n + run.distance).toNat

/-- **The small letter of a character**: an ASCII character has its own, a capital of the table is
as far from it as its run says, and every other character is kept. -/
theorem smallLetter_cases (c : Char) :
    (c.toNat < 0x80 ∧ smallLetter c = c.toLower) ∨
    (∃ run ∈ smallLetters, run.holds c.toNat = true ∧
      smallLetter c = Char.ofNat (run.small c.toNat)) ∨
    (0x80 ≤ c.toNat ∧ (∀ run ∈ smallLetters, run.holds c.toNat = false) ∧ smallLetter c = c) := by
  unfold smallLetter
  split
  · rename_i hascii
    exact .inl ⟨hascii, rfl⟩
  · rename_i hascii
    split
    · rename_i run hrun
      have hheld := List.find?_some hrun
      exact .inr (.inl ⟨run, List.mem_of_find?_eq_some hrun, hheld, rfl⟩)
    · rename_i hnone
      refine .inr (.inr ⟨Nat.le_of_not_lt hascii, fun run hrun => ?_, rfl⟩)
      exact Bool.eq_false_iff.2 (List.find?_eq_none.1 hnone run hrun)

/-! ## Closed sets -/

/-- **Closed sets** of code points: neither an ASCII capital nor a run of capitals beyond ASCII is
lowered into the set from outside, and neither are the two capitals with rules of their own. -/
structure IsClosed (ranges : List (Nat × Nat)) : Prop where
  ascii : ∀ n < 0x80, inRanges ranges (Char.ofNat n).toLower = true →
    inRanges ranges (Char.ofNat n) = true
  runs : ∀ run ∈ smallLetters, ∀ r ∈ ranges,
    run.last + run.distance < r.1 ∨ r.2 < run.first + run.distance
  zero : ∀ r ∈ ranges, 0 < r.1
  special : ∀ c ∈ ['ς', 'σ', 'i', '\u0307'], inRanges ranges c = false

/-- What is no code point of a character becomes the first one. -/
theorem toNat_ofNat (n : Nat) : (Char.ofNat n).toNat = n ∨ (Char.ofNat n).toNat = 0 := by
  unfold Char.ofNat
  by_cases hn : n.isValidChar
  · rw [dif_pos hn]
    exact .inl rfl
  · rw [dif_neg hn]
    exact .inr rfl

/-- What a run of capitals is lowered into lies between the small forms of its ends. -/
theorem inRanges_ofNat_small {ranges : List (Nat × Nat)} (h : IsClosed ranges) {run : CapitalRun}
    (hrun : run ∈ smallLetters) {n : Nat} (hn : run.holds n = true) :
    inRanges ranges (Char.ofNat (run.small n)) = false := by
  obtain ⟨hfirst, hlast, -⟩ := run.holds_iff.1 hn
  rw [Bool.eq_false_iff, ne_eq, inRanges_iff]
  rintro ⟨r, hr, hl, hu⟩
  have hapart := h.runs run hrun r hr
  have hzero := h.zero r hr
  unfold CapitalRun.small at hl hu
  rcases toNat_ofNat (n + run.distance).toNat with hn | hn
  · rw [hn] at hl hu
    omega
  · rw [hn] at hl
    omega

theorem inRanges_of_smallLetter {ranges : List (Nat × Nat)} (h : IsClosed ranges) {c : Char}
    (hc : inRanges ranges (smallLetter c) = true) : inRanges ranges c = true := by
  rcases smallLetter_cases c with ⟨hascii, hs⟩ | ⟨run, hrun, hheld, hs⟩ | ⟨-, -, hs⟩
  · rw [hs] at hc
    exact of_toNat_lt (P := fun c => inRanges ranges c.toLower = true → inRanges ranges c = true)
      h.ascii hascii hc
  · rw [hs, inRanges_ofNat_small h hrun hheld] at hc
    cases hc
  · rwa [hs] at hc

/-- **What is lowered into a closed set** comes from it. -/
theorem inRanges_of_mem_lowerBetween {ranges : List (Nat × Nat)} (h : IsClosed ranges)
    {before after : Text} {c d : Char} (hd : d ∈ lowerBetween before c after)
    (hr : inRanges ranges d = true) : inRanges ranges c = true := by
  have hspecial : d ∉ ['ς', 'σ', 'i', '\u0307'] := by
    intro hm
    rw [h.special d hm] at hr
    cases hr
  unfold lowerBetween at hd
  split at hd
  · split at hd
    · exact absurd (by simp_all) hspecial
    · exact absurd (by simp_all) hspecial
  · split at hd
    · simp only [List.mem_cons, List.not_mem_nil, or_false] at hd hspecial
      exact absurd (.inr (.inr hd)) hspecial
    · obtain rfl := List.mem_singleton.1 hd
      exact inRanges_of_smallLetter h hr

theorem inRanges_of_mem_lowerAfter {ranges : List (Nat × Nat)} (h : IsClosed ranges)
    {before s : Text} {d : Char} (hd : d ∈ lowerAfter before s) (hr : inRanges ranges d = true) :
    ∃ c ∈ s, inRanges ranges c = true := by
  induction s generalizing before with
  | nil => cases hd
  | cons c s ih =>
    rcases List.mem_append.1 hd with hd | hd
    · exact ⟨c, List.mem_cons_self, inRanges_of_mem_lowerBetween h hd hr⟩
    · obtain ⟨e, he, hre⟩ := ih hd
      exact ⟨e, List.mem_cons_of_mem c he, hre⟩

theorem lowerBetween_ne_nil (before : Text) (c : Char) (after : Text) :
    lowerBetween before c after ≠ [] := by
  unfold lowerBetween
  split
  · split <;> simp
  · split <;> simp

theorem lower_ne_nil {s : Text} (h : s ≠ []) : lower s ≠ [] := by
  obtain ⟨c, r, rfl⟩ := List.exists_cons_of_ne_nil h
  exact List.append_ne_nil_of_left_ne_nil (lowerBetween_ne_nil [] c r) _

/-- A text whose small form lies in a closed set lies in it. -/
theorem inRanges_of_lowerAfter {ranges : List (Nat × Nat)} (h : IsClosed ranges)
    {before s : Text} (hs : ∀ d ∈ lowerAfter before s, inRanges ranges d = true) :
    ∀ c ∈ s, inRanges ranges c = true := by
  induction s generalizing before with
  | nil => simp
  | cons c s ih =>
    intro e he
    rcases List.mem_cons.1 he with rfl | he
    · obtain ⟨d, r, hd⟩ := List.exists_cons_of_ne_nil (lowerBetween_ne_nil before e s)
      have hm : d ∈ lowerBetween before e s := hd ▸ List.mem_cons_self
      exact inRanges_of_mem_lowerBetween h hm (hs d (List.mem_append_left _ hm))
    · exact ih (fun d hd => hs d (List.mem_append_right _ hd)) e he

/-! ## Words -/

/-- The signs that ranges and constraints are made of, and the hash. -/
def reservedSigns : List Char := ['#', '&', ',', '<', '=', '>', '^', '|', '~']

/-- The code points of the blanks and of those signs. -/
def reservedRanges : List (Nat × Nat) :=
  blankRanges ++ reservedSigns.map fun c => (c.toNat, c.toNat)

/-- Whether a character is a blank or such a sign. -/
def isReserved (c : Char) : Bool := inRanges reservedRanges c

theorem isReserved_of_isBlank {c : Char} (h : isBlank c = true) : isReserved c = true := by
  rw [isReserved, reservedRanges, inRanges, List.any_append]
  rw [isBlank, inRanges] at h
  rw [h, Bool.true_or]

theorem isReserved_eq_false_of_isDigit {c : Char} (h : c.isDigit = true) :
    isReserved c = false := by
  have hdigit := toNat_of_isDigit h
  have hapart : ∀ r ∈ reservedRanges, r.2 < 48 ∨ 57 < r.1 := by decide
  rw [Bool.eq_false_iff, isReserved, ne_eq, inRanges_iff]
  rintro ⟨r, hr, hl, hu⟩
  have := hapart r hr
  omega

theorem isClosed_reservedRanges : IsClosed reservedRanges where
  ascii := by decide +kernel
  runs := by decide +kernel
  zero := by decide
  special := List.all_iff_forall_prop.1 rfl

/-- **Words**: texts without a reserved character that are not empty. -/
structure IsWord (s : Text) : Prop where
  ne_nil : s ≠ []
  isReserved_eq_false : ∀ c ∈ s, isReserved c = false

namespace IsWord

variable {s : Text}

theorem not_mem (h : IsWord s) {c : Char} (hc : isReserved c = true) : c ∉ s := by
  intro hm
  rw [h.isReserved_eq_false c hm] at hc
  cases hc

theorem isBlank_eq_false (h : IsWord s) : ∀ c ∈ s, isBlank c = false := by
  intro c hc
  rw [Bool.eq_false_iff]
  exact fun hb => h.not_mem (isReserved_of_isBlank hb) hc

/-- **A word** in small letters is a word. -/
theorem lower (h : IsWord s) : IsWord (lower s) := by
  refine ⟨lower_ne_nil h.ne_nil, fun d hd => ?_⟩
  rw [Bool.eq_false_iff]
  intro hr
  obtain ⟨c, hc, hrc⟩ := inRanges_of_mem_lowerAfter isClosed_reservedRanges hd hr
  exact h.not_mem hrc hc

end IsWord

/-! ## Digits -/

/-- What stands in a number beside its digits: signs, and the letters of versions and of
exponents. -/
def numberSigns : List Char := ['+', '-', 'E', 'V', 'e', 'v']

/-- The code points of the decimal digits and of those characters. -/
def numberRanges : List (Nat × Nat) :=
  (0x30, 0x39) :: numberSigns.map (fun c => (c.toNat, c.toNat)) ++
    scriptZeros.map fun first => (first, first + 9)

theorem isClosed_numberRanges : IsClosed numberRanges where
  ascii := by decide +kernel
  runs := by decide +kernel
  zero := by decide
  special := List.all_iff_forall_prop.1 rfl

theorem isDecimal_of_mem_scriptZeros {first : Nat} (hfirst : first ∈ scriptZeros) {c : Char}
    (hl : first ≤ c.toNat) (hu : c.toNat ≤ first + 9) : isDecimal c = true := by
  unfold isDecimal digitValue?
  split
  · rfl
  · have hascii : ∀ first ∈ scriptZeros, 0x80 ≤ first := by decide
    have hge := hascii first hfirst
    rw [if_neg (by omega), Option.isSome_map, List.find?_isSome]
    refine ⟨first, hfirst, ?_⟩
    rw [Bool.and_eq_true, decide_eq_true_eq, decide_eq_true_eq]
    exact ⟨hl, by omega⟩

/-- A character of a number is a digit or one of those beside them. -/
theorem inRanges_numberRanges_iff {c : Char} : inRanges numberRanges c = true ↔
    isDecimal c = true ∨ c ∈ numberSigns := by
  rw [inRanges_iff, numberRanges]
  constructor
  · rintro ⟨r, hr, hl, hu⟩
    rcases List.mem_append.1 hr with hr | hr
    · rcases List.mem_cons.1 hr with rfl | hr
      · exact .inl (isDecimal_of_isDigit (Char.isDigit_iff_toNat.2 ⟨hl, hu⟩))
      · obtain ⟨d, hd, rfl⟩ := List.mem_map.1 hr
        obtain rfl : d = c := Char.toNat_inj.1 (Nat.le_antisymm hl hu)
        exact .inr hd
    · obtain ⟨first, hfirst, rfl⟩ := List.mem_map.1 hr
      exact .inl (isDecimal_of_mem_scriptZeros hfirst hl hu)
  · rintro (h | h)
    · rcases isDigit_or_exists_of_isDecimal h with h | ⟨first, hfirst, hl, hu⟩
      · exact ⟨(0x30, 0x39), List.mem_append_left _ List.mem_cons_self, toNat_of_isDigit h⟩
      · exact ⟨(first, first + 9), List.mem_append_right _ (List.mem_map_of_mem hfirst), hl,
          Nat.le_of_lt_succ hu⟩
    · exact ⟨(c.toNat, c.toNat),
        List.mem_append_left _ (List.mem_cons_of_mem _ (List.mem_map_of_mem h)),
        Nat.le_refl _, Nat.le_refl _⟩

/-- No digit of a script is a capital of the table. -/
theorem smallLetter_of_isDecimal {c : Char} (h : isDecimal c = true) : smallLetter c = c := by
  have hapart : (scriptZeros.all fun first => smallLetters.all fun run =>
      Nat.blt run.last first || Nat.ble (first + 10) run.first) = true := by decide +kernel
  have hascii : ∀ first ∈ scriptZeros, 0x80 ≤ first := by decide
  simp only [List.all_eq_true, Bool.or_eq_true, Nat.blt_eq, Nat.ble_eq] at hapart
  rcases isDigit_or_exists_of_isDecimal h with h | ⟨first, hfirst, hl, hu⟩
  · have hs := isSettled_of_isDigit h
    simp only [isSettled, Bool.and_eq_true, decide_eq_true_eq] at hs
    rw [smallLetter, if_pos hs.1, hs.2]
  · rcases smallLetter_cases c with ⟨hc, -⟩ | ⟨run, hrun, hheld, -⟩ | ⟨-, -, hs⟩
    · have := hascii first hfirst
      omega
    · obtain ⟨hfirst', hlast', -⟩ := run.holds_iff.1 hheld
      have := hapart first hfirst run hrun
      omega
    · exact hs

/-- **Digits** are no letters: lowering leaves them as they are, whatever stands around them. -/
theorem lowerAfter_append_of_isDecimal {s : Text} (h : ∀ c ∈ s, isDecimal c = true)
    (before r : Text) : lowerAfter before (s ++ r) = s ++ lowerAfter (s.reverse ++ before) r := by
  induction s generalizing before with
  | nil => rfl
  | cons c s ih =>
    have hc := h c List.mem_cons_self
    have hsigma : c ≠ 'Σ' := ne_of_isDecimal hc rfl
    have hdotted : c ≠ 'İ' := ne_of_isDecimal hc rfl
    rw [List.cons_append, lowerAfter, lowerBetween, if_neg hsigma, if_neg hdotted,
      smallLetter_of_isDecimal hc, ih fun d hd => h d (List.mem_cons_of_mem c hd)]
    simp

end AssetBridge.Text
