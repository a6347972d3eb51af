import AssetBridge.Proofs.Digits
import AssetBridge.Proofs.Splitting
import Mathlib.Algebra.Ring.Nat

/-!
# Runs of digits

Whether the numbers of a text can be read depends on its longest run of decimal digits alone, of
whatever script they are. Taking a text apart makes no run longer, and neither does putting texts
together with another character between them.

## Main definitions

* `Text.RunsWithin`: a bound on the runs of digits in a text

## Main results

* `RunsWithin.append_cons`: a character that is no digit keeps runs apart
* `Text.mem_words`: the words of a text are pieces of it
* `Numeral.literal_of_isDecimal`: runs that can be read
* `Numeral.value_append`: the number of one run behind another
-/

namespace AssetBridge

namespace Text

/-! ## Decimal digits and other classes -/

theorem ne_of_isDecimal {c d : Char} (h : isDecimal c = true)
    (hd : isDecimal d = false) : c ≠ d := by
  rintro rfl
  rw [h] at hd
  cases hd

/-- A decimal digit is an ASCII one, or one of the ten behind the zero of a script. -/
theorem isDigit_or_exists_of_isDecimal {c : Char} (h : isDecimal c = true) :
    c.isDigit = true ∨ ∃ first ∈ scriptZeros, first ≤ c.toNat ∧ c.toNat < first + 10 := by
  unfold isDecimal digitValue? at h
  split at h
  · exact .inl ‹_›
  · split at h
    · cases h
    · rw [Option.isSome_map] at h
      obtain ⟨first, hf⟩ := Option.isSome_iff_exists.1 h
      have hrange := List.find?_some hf
      simp only [Bool.and_eq_true, decide_eq_true_eq] at hrange
      exact .inr ⟨first, List.mem_of_find?_eq_some hf, hrange⟩

theorem isBlank_eq_false_of_isDecimal {c : Char} (h : isDecimal c = true) : isBlank c = false := by
  rcases isDigit_or_exists_of_isDecimal h with h | ⟨first, hf, hl, hu⟩
  · exact isBlank_eq_false_of_isDigit h
  · -- No range of blanks meets the ten digits of a script.
    have hapart : ∀ first ∈ scriptZeros, ∀ r ∈ blankRanges, first + 10 ≤ r.1 ∨ r.2 < first := by
      decide
    rw [Bool.eq_false_iff, isBlank, ne_eq, inRanges_iff]
    rintro ⟨r, hr, hlr, hur⟩
    have := hapart first hf r hr
    omega

/-! ## Pieces of a text -/

/-- The parts of a split are pieces of the text, and no separator is in them. -/
theorem mem_splitWhere {p : Char → Bool} {s w : Text} (h : w ∈ splitWhere p s) :
    w <:+: s ∧ ∀ c ∈ w, p c = false := by
  -- The first part stands at the front of the text, which the induction has to know as well.
  suffices hs : ∀ s : Text, (∀ w ∈ (splitWhere p s).head?, w <+: s) ∧
      ∀ w ∈ splitWhere p s, w <:+: s ∧ ∀ c ∈ w, p c = false from (hs s).2 w h
  clear h
  intro s
  induction s with
  | nil => simp [splitWhere]
  | cons c s ih =>
    obtain ⟨ihead, itail⟩ := ih
    rw [splitWhere]
    split
    · refine ⟨by simp, fun w hw => ?_⟩
      rcases List.mem_cons.1 hw with rfl | hw
      · simp
      · exact ⟨(itail w hw).1.trans (List.suffix_cons c s).isInfix, (itail w hw).2⟩
    · rename_i hc
      obtain ⟨v, vs, hv⟩ := List.exists_cons_of_ne_nil (splitWhere_ne_nil p s)
      rw [hv] at ihead itail ⊢
      have hfront : (c :: v) <+: c :: s := List.cons_prefix_cons.2 ⟨rfl, ihead v rfl⟩
      refine ⟨?_, fun w hw => ?_⟩
      · rintro w ⟨⟩
        exact hfront
      · rcases List.mem_cons.1 hw with rfl | hw
        · refine ⟨hfront.isInfix, fun d hd => ?_⟩
          rcases List.mem_cons.1 hd with rfl | hd
          · simpa using hc
          · exact (itail v (by simp)).2 d hd
        · have hw' := itail w (List.mem_cons_of_mem v hw)
          exact ⟨hw'.1.trans (List.suffix_cons c s).isInfix, hw'.2⟩

theorem dropEndWhile_isPrefix (p : Char → Bool) (s : Text) : dropEndWhile p s <+: s := by
  have h := List.reverse_prefix.2 (List.dropWhile_suffix p (l := s.reverse))
  rwa [List.reverse_reverse] at h

theorem strip_isInfix (s : Text) : strip s <:+: s :=
  (dropEndWhile_isPrefix isBlank _).isInfix.trans (List.dropWhile_suffix _).isInfix

/-- A word is a piece of the text, is not empty and has no separator in it. -/
theorem mem_words {p : Char → Bool} {s w : Text} (h : w ∈ words p s) :
    w <:+: s ∧ w ≠ [] ∧ ∀ c ∈ w, p c = false := by
  obtain ⟨hw, hne⟩ := List.mem_filter.1 h
  exact ⟨(mem_splitWhere hw).1, by simpa using hne, (mem_splitWhere hw).2⟩

/-! ## Bounded runs -/

/-- No run of decimal digits in the text has more than `k` of them. -/
def RunsWithin (k : Nat) (s : Text) : Prop :=
  ∀ run : Text, run <:+: s → (∀ c ∈ run, isDecimal c = true) → run.length ≤ k

namespace RunsWithin

variable {k : Nat} {s t : Text}

theorem of_length_le (h : s.length ≤ k) : RunsWithin k s :=
  fun _ hrun _ => Nat.le_trans hrun.length_le h

/-- The runs of a piece are runs of the text. -/
theorem of_isInfix (h : RunsWithin k s) (ht : t <:+: s) : RunsWithin k t :=
  fun run hrun => h run (hrun.trans ht)

theorem length_takeWhile_le (h : RunsWithin k s) : (s.takeWhile isDecimal).length ≤ k :=
  h _ (List.takeWhile_prefix _).isInfix (List.all_eq_true.1 List.all_takeWhile)

/-- **A character that is no digit** keeps runs apart. -/
theorem append_cons {c : Char} (hs : RunsWithin k s) (hc : isDecimal c = false)
    (ht : RunsWithin k t) : RunsWithin k (s ++ c :: t) := by
  intro run hrun hd
  -- A run that opens behind the first text opens with the character, unless it is empty.
  have hfront : ∀ run : Text, run <+: c :: t → (∀ d ∈ run, isDecimal d = true) → run = [] := by
    intro run hrun hd
    rcases List.prefix_cons_iff.1 hrun with h | ⟨u, rfl, -⟩
    · exact h
    · exact absurd (hd c (by simp)) (by simp [hc])
  rcases List.infix_append_iff.1 hrun with h | h | ⟨u, v, rfl, hu, hv⟩
  · exact hs run h hd
  · rcases List.infix_cons_iff.1 h with h | h
    · simp [hfront run h hd]
    · exact ht run h hd
  · obtain rfl := hfront v hv fun d hm => hd d (by simp [hm])
    rw [List.append_nil] at hd ⊢
    exact hs u hu.isInfix hd

/-- Characters that are no digits in front of a text add no run. -/
theorem append_left (hs : ∀ c ∈ s, isDecimal c = false) (ht : RunsWithin k t) :
    RunsWithin k (s ++ t) := by
  induction s with
  | nil => exact ht
  | cons c s ih =>
    have hrest := ih fun d hd => hs d (by simp [hd])
    exact (of_length_le (Nat.zero_le k) : RunsWithin k []).append_cons (hs c (by simp)) hrest

/-- A text without digits has no run at all. -/
theorem of_forall (hs : ∀ c ∈ s, isDecimal c = false) : RunsWithin k s := by
  have := append_left hs (of_length_le (Nat.zero_le k) : RunsWithin k [])
  rwa [List.append_nil] at this

/-- A text that is rewritten character by character keeps its runs when digits stay digits and no
others become some. -/
theorem map {f : Char → Char} (hf : ∀ c, isDecimal (f c) = isDecimal c) (h : RunsWithin k s) :
    RunsWithin k (s.map f) := by
  intro run hrun hd
  obtain ⟨u, hu, rfl⟩ := List.infix_map_iff.1 hrun
  rw [List.length_map]
  refine h u hu fun c hc => ?_
  rw [← hf c]
  exact hd _ (List.mem_map_of_mem hc)

end RunsWithin

end Text

/-! ## Numbers that can be read -/

namespace Numeral

/-- A digit is no sign. -/
theorem dropSign_cons {c : Char} (h : Text.isDecimal c = true) (r : Text) :
    dropSign (c :: r) = c :: r := by
  have hplus : c ≠ '+' := Text.ne_of_isDecimal h rfl
  have hminus : c ≠ '-' := Text.ne_of_isDecimal h rfl
  simp [dropSign, hplus, hminus]

theorem applySign_cons {c : Char} (h : Text.isDecimal c = true) (r : Text) :
    applySign (c :: r) = Int.ofNat := by
  have hminus : c ≠ '-' := Text.ne_of_isDecimal h rfl
  funext n
  simp [applySign, hminus]

/-- A run of digits of any script is an integer, if it can be read at all. -/
theorem literal_eq_read {ds : Text} (hne : ds ≠ []) (hd : ∀ c ∈ ds, Text.isDecimal c = true) :
    literal ds = Int.ofNat <$> read ds := by
  have hblank : ∀ c ∈ ds, Text.isBlank c = false := fun c hc =>
    Text.isBlank_eq_false_of_isDecimal (hd c hc)
  -- No blank is stripped, no underscore separates and no sign is dropped.
  have hs : Text.strip ds = ds := Text.strip_of_forall hblank
  have hf : Text.fields '_' ds = [ds] :=
    Text.fields_eq_singleton fun hm => absurd (hd _ hm) (by decide)
  obtain ⟨c, r, rfl⟩ := List.exists_cons_of_ne_nil hne
  have hc := hd c List.mem_cons_self
  have hall : (c :: r).all Text.isDecimal = true := List.all_eq_true.2 hd
  simp only [literal, hs, dropSign_cons hc, hf, List.all_cons, List.all_nil, hall,
    List.isEmpty_cons, List.flatten_cons, List.flatten_nil, List.append_nil, applySign_cons hc]
  rfl

/-- It is the number that opens it as well. -/
theorem leading_eq_read {ds : Text} (hne : ds ≠ []) (hd : ∀ c ∈ ds, Text.isDecimal c = true) :
    leading ds = Int.ofNat <$> read ds := by
  obtain ⟨c, r, rfl⟩ := List.exists_cons_of_ne_nil hne
  have hc := hd c List.mem_cons_self
  have hblank : (c :: r).dropWhile Text.isBlank = c :: r :=
    List.dropWhile_cons_of_neg (by simp [Text.isBlank_eq_false_of_isDecimal hc])
  simp only [leading, hblank, dropSign_cons hc, applySign_cons hc, (Text.scan_eq_of_forall hd).1]

/-- A run of digits of any script, within the limit, is an integer. -/
theorem literal_of_isDecimal {ds : Text} (hne : ds ≠ [])
    (hd : ∀ c ∈ ds, Text.isDecimal c = true) (h : ds.length ≤ maxDigits) :
    literal ds = .ok (value ds : Int) := by
  rw [literal_eq_read hne hd, read_of_length_le h]
  rfl

/-! ## Runs one behind the other -/

theorem foldl_value (k : Nat) (s : Text) :
    s.foldl (fun n c => 10 * n + Text.digitValue c) k = 10 ^ s.length * k + value s := by
  -- The value of what was read before has to be free for the induction.
  induction s generalizing k with
  | nil => simp
  | cons c s ih =>
    have hfirst : value (c :: s) = 10 ^ s.length * Text.digitValue c + value s := by
      rw [value, List.foldl_cons, ih, Nat.mul_zero, Nat.zero_add]
    rw [List.foldl_cons, ih, hfirst, List.length_cons, Nat.pow_succ, Nat.mul_add, Nat.mul_assoc,
      Nat.add_assoc]

/-- The first digit counts a power of ten. -/
theorem value_cons (c : Char) (s : Text) :
    value (c :: s) = 10 ^ s.length * Text.digitValue c + value s := by
  rw [value, List.foldl_cons, foldl_value, Nat.mul_zero, Nat.zero_add]

/-- Digits in front of others count as many tens as there are others. -/
theorem value_append (s t : Text) : value (s ++ t) = 10 ^ t.length * value s + value t := by
  rw [value, List.foldl_append, foldl_value]
  rfl

end Numeral

end AssetBridge
