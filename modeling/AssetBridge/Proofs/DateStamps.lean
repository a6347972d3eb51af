import AssetBridge.Proofs.Components
import AssetBridge.Proofs.Runs

/-!
# Versions that are dates

Behind a stamp of seven or more digits, the first two numbers of a version are padded to three
digits and written as one. As long as the second of them has three digits at most, it fills its
width and no more, so that the number behind the stamp is a thousand times the first number and the
second on top. The order of these numbers is then that of the pairs, and no two pairs meet.

## Main definitions

* `Source.IsStamp`: date stamps
* `Source.IsNumbered`: versions that are converted into a stamp and a number

## Main results

* `Numeral.value_padLeft`: zeros in front of a number do not change it
* `convertVersion_stamp`: what stands behind a stamp is padded
* `convertVersion_stamp_order`: the numbers behind a stamp keep the order of the pairs
-/

namespace AssetBridge

/-! ## Padded numbers -/

namespace Numeral

theorem value_replicate_zero (n : Nat) : value (List.replicate n '0') = 0 := by
  induction n with
  | zero => rfl
  | succ n ih =>
    have hzero : Text.digitValue '0' = 0 := rfl
    rw [List.replicate_succ', value_append_singleton, ih, hzero]

/-- Zeros in front of a number do not change it. -/
theorem value_padLeft (width : Nat) (s : Text) : value (padLeft width s) = value s := by
  rw [padLeft, value_append, value_replicate_zero, Nat.mul_zero, Nat.zero_add]

theorem length_padLeft (width : Nat) (s : Text) : (padLeft width s).length = max width s.length := by
  rw [padLeft, List.length_append, List.length_replicate]
  omega

theorem isDigit_of_mem_padLeft {width n : Nat} {c : Char} (h : c ∈ padLeft width (digits n)) :
    c.isDigit = true := by
  rcases List.mem_append.1 h with h | h
  · obtain ⟨-, rfl⟩ := List.mem_replicate.1 h
    rfl
  · exact isDigit_of_mem_digits h

end Numeral

namespace Source

open Numeral (digits padLeft points)

/-! ## What stands behind a stamp -/

/-- **Date stamps**: seven or more digits. -/
structure IsStamp (s : Text) : Prop where
  isDigit : ∀ c ∈ s, c.isDigit = true
  seven_le_length : 7 ≤ s.length

/-- **Behind a stamp** the first two components are padded, and nothing else is changed before. -/
theorem convertVersion_stamp {stamp : Text} (hstamp : IsStamp stamp) {t : Text} {l : List Text}
    (h : ∀ u ∈ t :: l, u ≠ [] ∧ ∀ c ∈ u, c.isDigit = true) :
    convertVersion (Text.join ['.'] (stamp :: t :: l)) = (do
      let minor ← paddedComponent t
      let revision ← paddedComponent (l.headD [])
      return stamp ++ '.' :: (minor ++ revision)) := by
  have hne : stamp ≠ [] := List.length_pos_iff.1 (by have := hstamp.seven_le_length; omega)
  have hdigit : ∀ u ∈ stamp :: t :: l, ∀ c ∈ u, c.isDigit = true := by
    intro u hu
    rcases List.mem_cons.1 hu with rfl | hu
    · exact hstamp.isDigit
    · exact (h u hu).2
  have hpoint : ∀ u ∈ t :: l, '.' ∉ u := fun u hu hm =>
    absurd (hdigit u (List.mem_cons_of_mem stamp hu) '.' hm) (by decide)
  -- Digits and points hold no wildcard.
  have hx : (Text.join ['.'] (stamp :: t :: l)).count 'x' ≤ 1 := by
    rw [List.count_eq_zero.2]
    · exact Nat.zero_le 1
    · intro hm
      rcases Text.mem_join hm with hm | ⟨u, hu, hm⟩
      · exact absurd hm (by decide)
      · exact absurd (hdigit u hu 'x' hm) (by decide)
  have hjoin : Text.join ['.'] (stamp :: t :: l) = stamp ++ '.' :: Text.join ['.'] (t :: l) := by
    simp [Text.join_cons]
  have hconvert := convertVersion_join hne hstamp.isDigit (l := t :: l) fun u hu =>
    .digits (h u hu).1 (h u hu).2
  rw [collapseWildcards_eq_self hx, hjoin] at hconvert
  have hscan := Text.scan_append_cons
    (fun c hc => Text.isDecimal_of_isDigit (hstamp.isDigit c hc)) (c := '.') rfl
    (Text.join ['.'] (t :: l))
  rw [hjoin, hconvert, convertDate, hscan.2]
  simp only [hscan.1, if_pos hstamp.seven_le_length, Text.fields_join hpoint, List.headD_cons,
    List.tail_cons]

/-- A number that can be read is padded to three digits. -/
theorem paddedComponent_digits {n : Nat} (h : (digits n).length ≤ Numeral.maxDigits) :
    paddedComponent (digits n) = .ok (padLeft 3 (digits n)) := by
  rw [paddedComponent, Numeral.leading_eq_read (Numeral.digits_ne_nil n)
    fun _ => Numeral.isDecimal_of_mem_digits, Numeral.read_digits_of_length_le h]
  rfl

variable {stamp : Text} {a b a' b' : Nat}

theorem convertVersion_stamp_points (hstamp : IsStamp stamp)
    (ha : (digits a).length ≤ Numeral.maxDigits) (hb : (digits b).length ≤ Numeral.maxDigits) :
    convertVersion (stamp ++ points [a, b]) =
      .ok (stamp ++ '.' :: (padLeft 3 (digits a) ++ padLeft 3 (digits b))) := by
  have hjoin : stamp ++ points [a, b] = Text.join ['.'] [stamp, digits a, digits b] := by
    simp [Text.join_cons, points]
  have hdigits : ∀ u ∈ [digits a, digits b], u ≠ [] ∧ ∀ c ∈ u, c.isDigit = true := by
    intro u hu
    obtain ⟨n, rfl⟩ : ∃ n, u = digits n := by
      simp only [List.mem_cons, List.not_mem_nil, or_false] at hu
      exact hu.elim (⟨a, ·⟩) (⟨b, ·⟩)
    exact ⟨Numeral.digits_ne_nil n, fun _ => Numeral.isDigit_of_mem_digits⟩
  rw [hjoin, convertVersion_stamp hstamp hdigits, paddedComponent_digits ha, List.headD_cons,
    paddedComponent_digits hb]
  rfl

/-- A number alone behind a stamp is taken for one with a zero behind it. -/
theorem convertVersion_stamp_singleton (hstamp : IsStamp stamp) (a : Nat) :
    convertVersion (stamp ++ points [a]) = convertVersion (stamp ++ points [a, 0]) := by
  have hone : stamp ++ points [a] = Text.join ['.'] [stamp, digits a] := by
    simp [Text.join_cons, points]
  have htwo : stamp ++ points [a, 0] = Text.join ['.'] [stamp, digits a, digits 0] := by
    simp [Text.join_cons, points]
  have hdigits : ∀ n, digits n ≠ [] ∧ ∀ c ∈ digits n, c.isDigit = true := fun n =>
    ⟨Numeral.digits_ne_nil n, fun _ => Numeral.isDigit_of_mem_digits⟩
  rw [hone, htwo, convertVersion_stamp hstamp (by simpa using hdigits a),
    convertVersion_stamp hstamp (by simpa using ⟨hdigits a, hdigits 0⟩)]
  rfl

/-! ## The number behind a stamp -/

/-- **Versions that a stamp numbers**: they are converted into the stamp, a point, and a run of at
least six digits that is read as the number. -/
def IsNumbered (stamp version : Text) (n : Nat) : Prop :=
  ∃ t, convertVersion version = .ok (stamp ++ '.' :: t) ∧ (∀ c ∈ t, c.isDigit = true) ∧
    6 ≤ t.length ∧ Numeral.literal t = .ok (n : Int)

/-- A version has one number behind its stamp. -/
theorem IsNumbered.eq {version version' : Text} {n n' : Nat} (h : IsNumbered stamp version n)
    (h' : IsNumbered stamp version' n') (heq : convertVersion version = convertVersion version') :
    n = n' := by
  obtain ⟨t, ht, -, -, hn⟩ := h
  obtain ⟨t', ht', -, -, hn'⟩ := h'
  have htext := Except.ok.inj (ht.symm.trans (heq.trans ht'))
  obtain ⟨-, rfl⟩ := List.cons.inj (List.append_cancel_left htext)
  exact Int.ofNat.inj (Except.ok.inj (hn.symm.trans hn'))

/-- **The number of a pair** is a thousand times the first number and the second on top. -/
theorem isNumbered_points (hstamp : IsStamp stamp) (ha : (digits a).length ≤ 4000)
    (hb : b ≤ 999) : IsNumbered stamp (stamp ++ points [a, b]) (1000 * a + b) := by
  have hb3 : (digits b).length ≤ 3 :=
    (Nat.length_toDigits_le_iff (by decide) (by decide)).2 (by omega)
  have hmax : Numeral.maxDigits = 4300 := rfl
  have hlength : (padLeft 3 (digits b)).length = 3 := by
    rw [Numeral.length_padLeft]
    omega
  -- The second number fills its width, so that the first counts thousands.
  have hvalue : Numeral.value (padLeft 3 (digits a) ++ padLeft 3 (digits b)) = 1000 * a + b := by
    have hthousand : 10 ^ 3 = 1000 := rfl
    rw [Numeral.value_append, Numeral.value_padLeft, Numeral.value_padLeft, hlength,
      Numeral.value_digits, Numeral.value_digits, hthousand]
  have hrun : (padLeft 3 (digits a) ++ padLeft 3 (digits b)).length =
      max 3 (digits a).length + 3 := by
    rw [List.length_append, hlength, Numeral.length_padLeft]
  have hdigit : ∀ c ∈ padLeft 3 (digits a) ++ padLeft 3 (digits b), c.isDigit = true := by
    intro c hc
    rcases List.mem_append.1 hc with hc | hc
    · exact Numeral.isDigit_of_mem_padLeft hc
    · exact Numeral.isDigit_of_mem_padLeft hc
  refine ⟨_, convertVersion_stamp_points hstamp (by omega) (by omega), hdigit, by omega, ?_⟩
  rw [Numeral.literal_of_isDecimal (List.length_pos_iff.1 (by omega))
    (fun c hc => Text.isDecimal_of_isDigit (hdigit c hc)) (by omega), hvalue]

/-- **Dates keep their order.** Behind a stamp, a first number of at most four thousand digits and a
second of at most three become one number, which is a thousand times the first and the second on
top. A missing second number counts as zero. The order of these numbers is that of the pairs, and
different pairs become different texts. -/
theorem convertVersion_stamp_order (hstamp : IsStamp stamp) :
    (∀ a b, (digits a).length ≤ 4000 → b ≤ 999 →
      IsNumbered stamp (stamp ++ points [a, b]) (1000 * a + b)) ∧
    (∀ a, (digits a).length ≤ 4000 → IsNumbered stamp (stamp ++ points [a]) (1000 * a)) ∧
    ∀ a b a' b', (digits a).length ≤ 4000 → b ≤ 999 → (digits a').length ≤ 4000 → b' ≤ 999 →
      (∀ n n', IsNumbered stamp (stamp ++ points [a, b]) n →
        IsNumbered stamp (stamp ++ points [a', b']) n' →
          (n < n' ↔ a < a' ∨ a = a' ∧ b < b')) ∧
      ((a, b) ≠ (a', b') →
        convertVersion (stamp ++ points [a, b]) ≠ convertVersion (stamp ++ points [a', b'])) := by
  refine ⟨fun a b ha hb => isNumbered_points hstamp ha hb, fun a ha => ?_,
    fun a b a' b' ha hb ha' hb' => ?_⟩
  · have hzero := isNumbered_points hstamp ha (Nat.zero_le 999)
    rwa [IsNumbered, ← convertVersion_stamp_singleton hstamp] at hzero
  · have hpair := isNumbered_points hstamp ha hb
    have hpair' := isNumbered_points hstamp ha' hb'
    refine ⟨fun n n' hn hn' => ?_, fun hne heq => hne ?_⟩
    · rw [hn.eq hpair rfl, hn'.eq hpair' rfl]
      omega
    · have hnumber := hpair.eq hpair' heq
      rw [Prod.mk.injEq]
      omega

/-- The last revision of one edition stands right before the next edition. -/
theorem convertVersion_stamp_order_day :
    IsStamp "20170124".toList ∧ (digits 12).length ≤ 4000 ∧ (digits 13).length ≤ 4000 ∧
      IsNumbered "20170124".toList "20170124.12.999".toList 12999 ∧
      IsNumbered "20170124".toList "20170124.13".toList 13000 ∧
      IsNumbered "20170124".toList "20170124.13.0".toList 13000 ∧
      (12999 < 13000 ↔ 12 < 13 ∨ 12 = 13 ∧ 999 < 0) ∧
      convertVersion "20170124.12.999".toList ≠ convertVersion "20170124.13.0".toList := by
  have hstamp : IsStamp "20170124".toList := ⟨List.all_eq_true.1 rfl, by decide⟩
  have h₁₂ : (digits 12).length ≤ 4000 := by decide
  have h₁₃ : (digits 13).length ≤ 4000 := by decide
  obtain ⟨hpairs, hsingle, horder⟩ := convertVersion_stamp_order hstamp
  have hlast := hpairs 12 999 h₁₂ (by decide)
  have hnext := hpairs 13 0 h₁₃ (by decide)
  obtain ⟨hlt, hne⟩ := horder 12 999 13 0 h₁₂ (by decide) h₁₃ (by decide)
  exact ⟨hstamp, h₁₂, h₁₃, hlast, hsingle 13 h₁₃, hnext, hlt _ _ hlast hnext, hne (by decide)⟩

end Source

end AssetBridge
