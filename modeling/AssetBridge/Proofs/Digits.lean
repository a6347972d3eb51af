import AssetBridge.Numeral

/-!
# The digits of a number

A number that is written and read again is itself. Its digits are ASCII ones, so a scanner of
digits passes over them and stops at what follows, and only zero has a leading zero.

## Main results

* `value_digits`, `read_digits`: reading what was written
* `Text.takeWhile_isDecimal_append`: scanners pass over digits
* `length_digits_le`, `write_eq_digits`: numbers below ten to the eighth are written in eight digits
* `head?_digits`: the first digit
-/

namespace AssetBridge

namespace Text

theorem digitValue_of_isDigit {c : Char} (h : c.isDigit = true) : digitValue c = c.toNat - 48 := by
  simp [digitValue, digitValue?, h]

theorem ne_of_isDigit {c d : Char} (h : c.isDigit = true) (hd : d.isDigit = false) :
    c ≠ d := by
  rintro rfl
  simp [h] at hd

theorem toNat_of_isDigit {c : Char} (h : c.isDigit = true) : 48 ≤ c.toNat ∧ c.toNat ≤ 57 :=
  Char.isDigit_iff_toNat.1 h

theorem isBlank_eq_false_of_isDigit {c : Char} (h : c.isDigit = true) : isBlank c = false := by
  have hc := toNat_of_isDigit h
  rw [Bool.eq_false_iff, isBlank, ne_eq, inRanges_iff]
  rintro ⟨r, hr, hl, hu⟩
  simp only [blankRanges, List.mem_cons, List.not_mem_nil, or_false] at hr
  -- No range of blanks holds a code point between 48 and 57.
  rcases hr with rfl | rfl | rfl | rfl | rfl | rfl | rfl | rfl | rfl | rfl <;>
    simp only at hl hu <;> omega

theorem isSmall_eq_false_of_isDigit {c : Char} (h : c.isDigit = true) : isSmall c = false := by
  have hn := toNat_of_isDigit h
  have hlow : ¬ 'a'.val ≤ c.val := by
    rw [UInt32.le_iff_toNat_le]
    show ¬ 97 ≤ c.toNat
    omega
  exact Bool.and_eq_false_iff.2 (.inl (decide_eq_false hlow))

theorem isLetter_eq_false_of_isDigit {c : Char} (h : c.isDigit = true) : isLetter c = false := by
  have hn := toNat_of_isDigit h
  have hlow : ¬ 'A'.val ≤ c.val := by
    rw [UInt32.le_iff_toNat_le]
    show ¬ 65 ≤ c.toNat
    omega
  have hcapital : c.isUpper = false := decide_eq_false fun hu => hlow hu.1
  exact Bool.or_eq_false_iff.2 ⟨hcapital, isSmall_eq_false_of_isDigit h⟩

/-! ## Scanners on digits -/

section Scanners

variable {ds : Text} (h : ∀ c ∈ ds, c.isDigit = true) (r : Text)

include h

theorem takeWhile_isDecimal_append :
    (ds ++ r).takeWhile isDecimal = ds ++ r.takeWhile isDecimal :=
  List.takeWhile_append_of_pos fun c hc => isDecimal_of_isDigit (h c hc)

theorem dropWhile_isDecimal_append : (ds ++ r).dropWhile isDecimal = r.dropWhile isDecimal :=
  List.dropWhile_append_of_pos fun c hc => isDecimal_of_isDigit (h c hc)

theorem takeWhile_isDigit_append :
    (ds ++ r).takeWhile Char.isDigit = ds ++ r.takeWhile Char.isDigit :=
  List.takeWhile_append_of_pos h

theorem dropWhile_isDigit_append :
    (ds ++ r).dropWhile Char.isDigit = r.dropWhile Char.isDigit :=
  List.dropWhile_append_of_pos h

end Scanners

end Text

namespace Numeral

/-! ## Reading what was written -/

theorem digits_ne_nil (n : Nat) : digits n ≠ [] := Nat.toDigits_ne_nil

theorem isDigit_of_mem_digits {n : Nat} {c : Char} (h : c ∈ digits n) : c.isDigit = true :=
  Nat.isDigit_of_mem_toDigits (by decide) (by decide) h

theorem isDecimal_of_mem_digits {n : Nat} {c : Char} (h : c ∈ digits n) :
    Text.isDecimal c = true :=
  Text.isDecimal_of_isDigit (isDigit_of_mem_digits h)

theorem value_eq_ofDigitChars {ds : Text} (h : ∀ c ∈ ds, c.isDigit = true) :
    value ds = Nat.ofDigitChars 10 ds 0 := by
  rw [value, Nat.ofDigitChars]
  -- The value of what was read before has to be free for the induction.
  generalize 0 = k
  induction ds generalizing k with
  | nil => rfl
  | cons c ds ih =>
    have hc : Text.digitValue c = c.toNat - '0'.toNat :=
      Text.digitValue_of_isDigit (h c (by simp))
    rw [List.foldl_cons, List.foldl_cons, hc]
    exact ih (fun d hd => h d (by simp [hd])) _

@[simp] theorem value_digits (n : Nat) : value (digits n) = n := by
  rw [value_eq_ofDigitChars fun _ => isDigit_of_mem_digits]
  exact Nat.ofDigitChars_ten_toDigits

/-- Eight digits are enough for every number a range of ordinary size speaks of. -/
theorem length_digits_le {n : Nat} (h : n < 100000000) : (digits n).length ≤ 8 :=
  (Nat.length_toDigits_le_iff (by decide) (by decide)).2 h

theorem length_digits_le_five {n : Nat} (h : n < 100000) : (digits n).length ≤ 5 :=
  (Nat.length_toDigits_le_iff (by decide) (by decide)).2 h

theorem length_digits_le_maxDigits {n : Nat} (h : n < 100000000) : (digits n).length ≤ maxDigits :=
  Nat.le_trans (length_digits_le h) (by decide)

theorem read_of_length_le {ds : Text} (h : ds.length ≤ maxDigits) : read ds = .ok (value ds) :=
  if_pos h

theorem read_digits_of_length_le {n : Nat} (h : (digits n).length ≤ maxDigits) :
    read (digits n) = .ok n := by
  rw [read_of_length_le h, value_digits]

theorem read_digits {n : Nat} (h : n < 100000000) : read (digits n) = .ok n :=
  read_digits_of_length_le (length_digits_le_maxDigits h)

theorem write_eq_digits {n : Nat} (h : n < 100000000) : write n = .ok (digits n) :=
  if_pos (length_digits_le_maxDigits h)

theorem writeInt_eq_digits {n : Nat} (h : n < 100000000) :
    writeInt (n : Int) = .ok (digits n) :=
  write_eq_digits h

/-! ## Signs -/

theorem dropSign_isSuffix (s : Text) : dropSign s <:+ s := by
  unfold dropSign
  split
  · exact List.suffix_cons _ _
  · exact List.suffix_cons _ _
  · exact List.suffix_refl _

/-! ## Scanners on what was written -/

section Scanners

variable (n : Nat) (r : Text)

@[simp] theorem takeWhile_isDecimal_digits_append :
    (digits n ++ r).takeWhile Text.isDecimal = digits n ++ r.takeWhile Text.isDecimal :=
  Text.takeWhile_isDecimal_append (fun _ => isDigit_of_mem_digits) r

@[simp] theorem dropWhile_isDecimal_digits_append :
    (digits n ++ r).dropWhile Text.isDecimal = r.dropWhile Text.isDecimal :=
  Text.dropWhile_isDecimal_append (fun _ => isDigit_of_mem_digits) r

@[simp] theorem takeWhile_isDigit_digits_append :
    (digits n ++ r).takeWhile Char.isDigit = digits n ++ r.takeWhile Char.isDigit :=
  Text.takeWhile_isDigit_append (fun _ => isDigit_of_mem_digits) r

@[simp] theorem dropWhile_isDigit_digits_append :
    (digits n ++ r).dropWhile Char.isDigit = r.dropWhile Char.isDigit :=
  Text.dropWhile_isDigit_append (fun _ => isDigit_of_mem_digits) r

@[simp] theorem takeWhile_isDecimal_digits :
    (digits n).takeWhile Text.isDecimal = digits n := by
  simpa using takeWhile_isDecimal_digits_append n []

end Scanners

/-- What opens with digits: a digit, and a text behind it. -/
theorem exists_digits_eq_cons (n : Nat) : ∃ c r, digits n = c :: r ∧ c.isDigit = true := by
  obtain ⟨c, r, h⟩ := List.exists_cons_of_ne_nil (digits_ne_nil n)
  exact ⟨c, r, h, isDigit_of_mem_digits (n := n) (by simp [h])⟩

theorem not_mem_digits {n : Nat} {c : Char} (h : c.isDigit = false) :
    c ∉ digits n := fun hc => by simp [isDigit_of_mem_digits hc] at h

theorem digits_zero : digits 0 = ['0'] := rfl

/-- Only zero opens with a zero. -/
theorem head?_digits {n : Nat} (h : n ≠ 0) : (digits n).head? ≠ some '0' := by
  induction n using Nat.strongRecOn with
  | _ n ih =>
    -- The first digit is the number itself, or that of a tenth of it.
    rw [digits, Nat.toDigits_eq_if (by decide)]
    by_cases hn : n < 10
    · have hd : ∀ m < 10, m ≠ 0 → m.digitChar ≠ '0' := by decide
      simpa [hn] using hd n hn h
    · obtain ⟨c, r, hc, -⟩ := exists_digits_eq_cons (n / 10)
      have := ih (n / 10) (by omega) (by omega)
      rw [digits] at hc this
      simpa [hn, hc] using this

end Numeral

end AssetBridge
