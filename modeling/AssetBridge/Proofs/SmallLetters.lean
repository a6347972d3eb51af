import AssetBridge.Proofs.Letters

/-!
# Texts in small letters

A text that is put in small letters once stays as it is when it is put in small letters again. No
run of capitals is lowered into another one, so that the table never has to be looked up twice, and
the two capitals with rules of their own leave nothing behind that has a small letter.

## Main definitions

* `IsSmall`: characters that have no small letter

## Main results

* `lowerAfter_of_isSmall`: lowering leaves a text of such characters as it is
* `isSmall_of_mem_lowerAfter`: what is lowered consists of such characters
* `lower_lower`: lowering twice is lowering once
* `mem_of_mem_lower`, `mem_lower_of_mem`: characters that lowering neither makes nor takes away
-/

namespace AssetBridge.Text

/-! ## Runs of capitals -/

/-- The capitals of ASCII. -/
def asciiCapitals : CapitalRun := ⟨0x41, 0x5A, 1, 32⟩

/-- The capitals of ASCII, those with rules of their own, and those of the table. -/
def capitalRuns : List CapitalRun :=
  asciiCapitals :: ⟨0x130, 0x130, 1, 0⟩ :: ⟨0x3A3, 0x3A3, 1, 0⟩ :: smallLetters

/-- **Characters that have no small letter** other than themselves. -/
def IsSmall (c : Char) : Prop := capitalRuns.any (·.holds c.toNat) = false

instance (c : Char) : Decidable (IsSmall c) :=
  inferInstanceAs (Decidable (capitalRuns.any (·.holds c.toNat) = false))

theorem isSmall_iff {c : Char} :
    IsSmall c ↔ ∀ run ∈ capitalRuns, run.holds c.toNat = false := by
  simp [IsSmall]

/-- Whether two runs are apart: the small letters of the first lie outside of the second, or between
its letters. -/
def CapitalRun.isApart (r q : CapitalRun) : Bool :=
  Nat.blt (r.small r.last) q.first || Nat.blt q.last (r.small r.first) ||
    (q.step ∣ r.step || r.first = r.last) && r.small r.first % q.step != q.first % q.step

/-- **No run is lowered into another one.** -/
theorem isApart_of_mem :
    (smallLetters.all fun r => capitalRuns.all fun q => r.isApart q) = true := by
  decide +kernel

theorem first_add_distance_nonneg : ∀ r ∈ smallLetters, 0 ≤ r.first + r.distance := by
  decide +kernel

theorem first_pos_of_mem : ∀ q ∈ capitalRuns, 0 < q.first := by decide +kernel

/-- The small letters of a run have no letter of a run that it is apart from. -/
theorem CapitalRun.holds_small_eq_false {r q : CapitalRun} (h : r.isApart q = true)
    (hnonneg : 0 ≤ r.first + r.distance) {n : Nat} (hn : r.holds n = true) :
    q.holds (r.small n) = false := by
  obtain ⟨hfirst, hlast, hstep⟩ := r.holds_iff.1 hn
  simp only [isApart, Bool.or_eq_true, Bool.and_eq_true, Nat.blt_eq, decide_eq_true_eq,
    bne_iff_ne] at h
  rw [Bool.eq_false_iff, ne_eq, q.holds_iff]
  rintro ⟨hfirst', hlast', hstep'⟩
  unfold small at *
  rcases h with (h | h) | ⟨h, hne⟩
  · omega
  · omega
  · -- Both the first small letter and the first letter are whole steps away from this one.
    have hleft : q.step ∣ n - r.first := by
      rcases h with h | h
      · exact Nat.dvd_trans h hstep
      · rw [show n - r.first = 0 by omega]
        exact Nat.dvd_zero _
    obtain ⟨j, hj⟩ := hleft
    obtain ⟨k, hk⟩ := hstep'
    apply hne
    calc (r.first + r.distance).toNat % q.step
        = ((r.first + r.distance).toNat + q.step * j) % q.step :=
          (Nat.add_mul_mod_self_left _ _ _).symm
      _ = (q.first + q.step * k) % q.step := by
          congr 1
          omega
      _ = q.first % q.step := Nat.add_mul_mod_self_left _ _ _

/-! ## Characters -/

/-- **A small letter** of the table has no small letter. -/
theorem isSmall_ofNat_small {run : CapitalRun} (hrun : run ∈ smallLetters) {n : Nat}
    (hn : run.holds n = true) : IsSmall (Char.ofNat (run.small n)) := by
  refine isSmall_iff.2 fun q hq => ?_
  have hapart := List.all_eq_true.1 (List.all_eq_true.1 isApart_of_mem run hrun) q hq
  rcases toNat_ofNat (run.small n) with hcode | hcode
  · rw [hcode]
    exact CapitalRun.holds_small_eq_false hapart (first_add_distance_nonneg run hrun) hn
  · -- What is no code point of a character becomes the first one, which is no letter.
    rw [hcode, Bool.eq_false_iff, ne_eq, q.holds_iff]
    intro h
    have := first_pos_of_mem q hq
    omega

/-- An ASCII character that is its own small letter has no other. -/
theorem isSmall_of_isSettled {c : Char} (h : isSettled c = true) : IsSmall c := by
  simp only [isSettled, Bool.and_eq_true, decide_eq_true_eq] at h
  obtain ⟨hascii, hlower⟩ := h
  have hcapital : asciiCapitals.holds c.toNat = false :=
    of_toNat_lt (P := fun c => c.toLower = c →
      asciiCapitals.holds c.toNat = false) (by decide +kernel) hascii hlower
  have hbeyond : ∀ q ∈ capitalRuns.tail, 0x80 ≤ q.first := by decide +kernel
  refine isSmall_iff.2 fun q hq => ?_
  rcases List.mem_cons.1 hq with rfl | hq
  · exact hcapital
  · rw [Bool.eq_false_iff, ne_eq, q.holds_iff]
    intro h
    have := hbeyond q hq
    omega

/-- A character beyond ASCII has no small letter when no run of the table has it and there is no
rule for it. -/
theorem isSmall_of_forall {c : Char} (hascii : 0x80 ≤ c.toNat) (hsigma : c ≠ 'Σ')
    (hdotted : c ≠ 'İ') (h : ∀ run ∈ smallLetters, run.holds c.toNat = false) : IsSmall c := by
  have hlone : ∀ d : Char, c ≠ d → CapitalRun.holds ⟨d.toNat, d.toNat, 1, 0⟩ c.toNat = false := by
    intro d hd
    rw [Bool.eq_false_iff, ne_eq, CapitalRun.holds_iff]
    rintro ⟨hl, hu, -⟩
    exact hd (Char.toNat_inj.1 (Nat.le_antisymm hu hl))
  refine isSmall_iff.2 fun run hrun => ?_
  simp only [capitalRuns, List.mem_cons] at hrun
  rcases hrun with rfl | rfl | rfl | hrun
  · rw [Bool.eq_false_iff, ne_eq, CapitalRun.holds_iff]
    rintro ⟨-, hu, -⟩
    exact absurd (Nat.le_trans hascii hu) (by decide)
  · exact hlone 'İ' hdotted
  · exact hlone 'Σ' hsigma
  · exact h run hrun

theorem isSmall_smallLetter {c : Char} (hsigma : c ≠ 'Σ') (hdotted : c ≠ 'İ') :
    IsSmall (smallLetter c) := by
  rcases smallLetter_cases c with ⟨hascii, hc⟩ | ⟨run, hrun, hheld, hc⟩ | ⟨hascii, hnone, hc⟩
  · rw [hc]
    apply isSmall_of_isSettled
    exact of_toNat_lt (P := fun c => isSettled c.toLower = true) (by decide +kernel) hascii
  · rw [hc]
    exact isSmall_ofNat_small hrun hheld
  · rw [hc]
    exact isSmall_of_forall hascii hsigma hdotted hnone

theorem smallLetter_of_isSmall {c : Char} (h : IsSmall c) : smallLetter c = c := by
  rcases smallLetter_cases c with ⟨hascii, hc⟩ | ⟨run, hrun, hheld, -⟩ | ⟨-, -, hc⟩
  · have hcapital := isSmall_iff.1 h _ List.mem_cons_self
    exact hc.trans (of_toNat_lt (P := fun c => asciiCapitals.holds c.toNat =
      false → c.toLower = c) (by decide +kernel) hascii hcapital)
  · have hmem : run ∈ capitalRuns := by simp [capitalRuns, hrun]
    rw [isSmall_iff.1 h run hmem] at hheld
    cases hheld
  · exact hc

/-- **What is lowered** has no small letter. -/
theorem isSmall_of_mem_lowerBetween {before after : Text} {c d : Char}
    (h : d ∈ lowerBetween before c after) : IsSmall d := by
  have hspecial : ∀ e ∈ ['ς', 'σ', 'i', '\u0307'], IsSmall e :=
    List.all_iff_forall_prop.1 (by decide +kernel)
  unfold lowerBetween at h
  split at h
  · apply hspecial
    split at h
    · simp_all
    · simp_all
  · rename_i hsigma
    split at h
    · exact hspecial d (List.mem_cons_of_mem _ (List.mem_cons_of_mem _ h))
    · rename_i hdotted
      obtain rfl := List.mem_singleton.1 h
      exact isSmall_smallLetter hsigma hdotted

/-- A character that has no small letter is its own. -/
theorem lowerBetween_of_isSmall {c : Char} (h : IsSmall c) (before after : Text) :
    lowerBetween before c after = [c] := by
  have hsigma : c ≠ 'Σ' := by
    rintro rfl
    exact absurd h (by decide +kernel)
  have hdotted : c ≠ 'İ' := by
    rintro rfl
    exact absurd h (by decide +kernel)
  rw [lowerBetween, if_neg hsigma, if_neg hdotted, smallLetter_of_isSmall h]

/-! ## Texts -/

theorem lowerAfter_of_isSmall {s : Text} (h : ∀ c ∈ s, IsSmall c) (before : Text) :
    lowerAfter before s = s := by
  induction s generalizing before with
  | nil => rfl
  | cons c s ih =>
    rw [lowerAfter, lowerBetween_of_isSmall (h c List.mem_cons_self),
      ih fun d hd => h d (List.mem_cons_of_mem c hd)]
    rfl

theorem isSmall_of_mem_lowerAfter {before s : Text} {d : Char} (h : d ∈ lowerAfter before s) :
    IsSmall d := by
  induction s generalizing before with
  | nil => cases h
  | cons c s ih =>
    rcases List.mem_append.1 h with h | h
    · exact isSmall_of_mem_lowerBetween h
    · exact ih h

/-- **Lowering twice** is lowering once. -/
@[simp] theorem lower_lower (s : Text) : lower (lower s) = lower s :=
  lowerAfter_of_isSmall (fun _ => isSmall_of_mem_lowerAfter) []

/-- A character that is in small letters is still there when the text is. -/
theorem mem_lower_of_mem {s : Text} {c : Char} (h : c ∈ s) (hc : IsSmall c) : c ∈ lower s := by
  suffices hs : ∀ before, c ∈ lowerAfter before s from hs []
  induction s with
  | nil => cases h
  | cons d s ih =>
    intro before
    rcases List.mem_cons.1 h with rfl | h
    · rw [lowerAfter, lowerBetween_of_isSmall hc]
      exact List.mem_cons_self
    · exact List.mem_append_right _ (ih h _)

/-- A character that nothing else is lowered into comes from the text. -/
theorem mem_of_mem_lower {s : Text} {c : Char} (hc : IsClosed [(c.toNat, c.toNat)])
    (h : c ∈ lower s) : c ∈ s := by
  have hself : inRanges [(c.toNat, c.toNat)] c = true :=
    inRanges_iff.2 ⟨_, List.mem_cons_self, Nat.le_refl _, Nat.le_refl _⟩
  obtain ⟨d, hd, hin⟩ := inRanges_of_mem_lowerAfter hc h hself
  obtain ⟨r, hr, hl, hu⟩ := inRanges_iff.1 hin
  obtain rfl := List.mem_singleton.1 hr
  rwa [Char.toNat_inj.1 (Nat.le_antisymm hl hu)]

end AssetBridge.Text
