import AssetBridge.Proofs.Cutting
import AssetBridge.Proofs.Weights

/-!
# Ranges that are always converted

Converting a range fails only where a number has too many digits to be read or written. Wildcards
are written out as numbers on the way, so the digits are counted after that: the span of a text is
its length with every wildcard written out. Nothing that is done to a range before its atoms are
converted makes its span larger, and what is written for an atom has little more digits than the
atom has span.

## Main definitions

* `spanWeight`: the length of a character, with wildcards written out

## Main results

* `exists_expandCaret`, `exists_raisePartial`: bounds that are raised
* `Pending.exists_step`, `exists_walk`: a step and a walk over tokens that are not too long
* `convertRange_of_length_le`: ranges of ordinary size are always converted
-/

namespace AssetBridge

/-! ## Numbers that are read and written -/

namespace Numeral

theorem digitValue_le_nine (c : Char) : Text.digitValue c ≤ 9 := by
  unfold Text.digitValue Text.digitValue?
  split
  · rename_i hc
    have := Text.toNat_of_isDigit hc
    rw [Option.getD_some]
    omega
  · split
    · exact Nat.zero_le 9
    · -- A script has ten digits, which follow each other.
      cases hfind : Text.scriptZeros.find? fun first =>
          first ≤ c.toNat && c.toNat < first + 10 with
      | none => exact Nat.zero_le 9
      | some first =>
        have hrange := List.find?_some hfind
        simp only [Bool.and_eq_true, decide_eq_true_eq] at hrange
        rw [Option.map_some, Option.getD_some]
        omega

/-- A number is less than the power of ten that its digits allow. -/
theorem value_lt_pow (ds : Text) : value ds < 10 ^ ds.length := by
  induction ds with
  | nil => exact Nat.one_pos
  | cons c ds ih =>
    have hfirst := Nat.mul_le_mul_left (10 ^ ds.length) (digitValue_le_nine c)
    rw [value_cons, List.length_cons, Nat.pow_succ]
    omega

/-- **A number with few digits** is written, and what is written weighs no more than its digits. -/
theorem exists_writeInt {f : Char → Nat} (hdigit : ∀ c : Char, c.isDigit = true → f c ≤ 1)
    (hsign : f '-' = 0) {i : Int} {k : Nat} (hpos : 0 < k) (hk : k ≤ maxDigits)
    (h : i.natAbs < 10 ^ k) : ∃ t, writeInt i = .ok t ∧ Text.weight f t ≤ k := by
  have hlength : ∀ n, n < 10 ^ k → (digits n).length ≤ k := fun n hn =>
    (Nat.length_toDigits_le_iff (by decide) hpos).2 hn
  have hweight : ∀ n, n < 10 ^ k → Text.weight f (digits n) ≤ k := by
    intro n hn
    refine Nat.le_trans ?_ (hlength n hn)
    exact Text.weight_le_length fun c hc => hdigit c (isDigit_of_mem_digits hc)
  have hwrite : ∀ n, n < 10 ^ k → write n = .ok (digits n) := fun n hn =>
    if_pos (Nat.le_trans (hlength n hn) hk)
  cases i with
  | ofNat n => exact ⟨digits n, hwrite n h, hweight n h⟩
  | negSucc n =>
    refine ⟨'-' :: digits (n + 1), ?_, ?_⟩
    · rw [writeInt, hwrite (n + 1) h]
      rfl
    · rw [Text.weight_cons, hsign, Nat.zero_add]
      exact hweight (n + 1) h

theorem natAbs_applySign (s : Text) (n : Nat) : (applySign s n).natAbs = n := by
  unfold applySign
  split <;> simp

end Numeral

namespace Source

open Text (weight digitWeight)

/-- **A component that is raised** has at most one more digit, if it has few of them. -/
theorem exists_raised {f : Char → Nat} (hdigit : ∀ c : Char, c.isDigit = true → f c ≤ 1)
    (hsign : f '-' = 0) {part : Text} (h : weight digitWeight part < Numeral.maxDigits) :
    ∃ t, raised part = .ok t ∧ weight f t ≤ weight digitWeight part + 1 := by
  have hlength := Numeral.length_leadingDigits_le part
  obtain ⟨i, hi⟩ := Numeral.exists_leading_of_weight_le (Nat.le_of_lt h)
  have habs : (i + 1).natAbs < 10 ^ (weight digitWeight part + 1) := by
    have hread := hi
    rw [Numeral.leading, Numeral.read_of_length_le (by omega)] at hread
    obtain rfl := Except.ok.inj hread
    have hvalue := Numeral.value_lt_pow
      ((Numeral.dropSign (part.dropWhile Text.isBlank)).takeWhile Text.isDecimal)
    have hpow := Nat.pow_le_pow_right (n := 10) (by decide) hlength
    have hsucc := Int.natAbs_add_le (Numeral.applySign (part.dropWhile Text.isBlank)
      (Numeral.value
        ((Numeral.dropSign (part.dropWhile Text.isBlank)).takeWhile Text.isDecimal))) 1
    rw [Numeral.natAbs_applySign] at hsucc
    rw [Nat.pow_succ]
    omega
  obtain ⟨t, ht, hweight⟩ := Numeral.exists_writeInt hdigit hsign (Nat.succ_pos _) h habs
  exact ⟨t, by rw [raised, hi]; exact ht, hweight⟩

/-! ## The span of a text -/

/-- The length of a character, when wildcards are written out as the numbers that stand for them in
upper bounds. -/
def spanWeight (c : Char) : Nat := if isWildcard c then greatestComponent.length else 1

theorem one_le_spanWeight (c : Char) : 1 ≤ spanWeight c := by
  unfold spanWeight
  split <;> decide

theorem spanWeight_le_seven (c : Char) : spanWeight c ≤ 7 := by
  unfold spanWeight
  split <;> decide

theorem length_le_span (s : Text) : s.length ≤ weight spanWeight s :=
  Text.length_le_weight fun c _ => one_le_spanWeight c

theorem weight_digitWeight_le_span (s : Text) : weight digitWeight s ≤ weight spanWeight s :=
  Text.weight_le_weight
    (fun c => Nat.le_trans (Text.digitWeight_le_one c) (one_le_spanWeight c)) s

/-- **The span** is the length of the text with its wildcards written out. -/
theorem length_substitute_greatest (s : Text) :
    (Text.substitute isWildcard greatestComponent s).length = weight spanWeight s := by
  induction s with
  | nil => rfl
  | cons c s ih =>
    rw [Text.weight_cons, ← ih, spanWeight, Text.substitute, List.flatMap_cons, List.length_append]
    split <;> rfl

/-! ## Cleaning and cutting -/

/-- A text in small letters has at most two characters for each one, and seven for a wildcard. -/
theorem weight_spanWeight_lower_le (s : Text) :
    weight spanWeight (Text.lower s) ≤ 7 * s.length := by
  have hseven : weight (fun _ => 7) s = 7 * s.length := by
    induction s with
    | nil => rfl
    | cons c s ih =>
      rw [Text.weight_cons, ih, List.length_cons]
      omega
  rw [← hseven]
  refine Text.weight_lowerAfter_le (fun before c after => ?_) [] s
  unfold Text.lowerBetween
  split
  · split <;> decide
  · split
    · decide
    · rw [Text.weight_cons, Text.weight_nil]
      exact spanWeight_le_seven _

theorem weight_foldl_tighten_le (f : Char → Nat) (operators : List Text) (s : Text) :
    weight f (operators.foldl tighten s) ≤ weight f s := by
  induction operators generalizing s with
  | nil => exact Nat.le_refl _
  | cons o operators ih =>
    refine Nat.le_trans (ih (tighten s o)) (Text.weight_replaceAll_le (by simp) ?_ s)
    rw [Text.weight_append]
    exact Nat.le_add_right _ _

/-- **Cleaning** drops characters, or writes one in place of several. -/
theorem weight_spanWeight_clean_le (s : Text) :
    weight spanWeight (clean s) ≤ weight spanWeight s := by
  have hletters := Text.weight_le_of_sublist spanWeight
    (dropVersionLetters_sublist (tightOperators.foldl tighten s))
  have htight := weight_foldl_tighten_le spanWeight tightOperators s
  refine Nat.le_trans ?_ (Nat.le_trans hletters htight)
  exact Nat.le_trans (Text.weight_replaceAll_le (by decide) (by decide) _)
    (Nat.le_trans (Text.weight_replaceAll_le (by decide) (by decide) _)
      (Text.weight_replaceAll_le (by decide) (by decide) _))

theorem weight_le_of_mem_tokenize (f : Char → Nat) {s token : Text} (h : token ∈ tokenize s) :
    weight f token ≤ weight f s := by
  have hsublist := List.sublist_flatten_of_mem h
  rw [flatten_tokenize] at hsublist
  exact Text.weight_le_of_sublist f hsublist

/-- A text opens with an atom, so that no delimiter is its first token. -/
theorem head?_tokenize_ne (s : Text) : (tokenize s).head? ≠ some hyphenMarker := by
  intro h
  rw [List.head?_eq_getElem?] at h
  have hnot := (isCut_tokenize s).contains_eq_false rfl h
    (show hyphenMarker ∈ delimiters from List.mem_cons_self)
  cases hnot

/-! ## Bounds that are raised -/

theorem sum_length_splitWhere (p : Char → Bool) (s : Text) :
    ((Text.splitWhere p s).map fun t => t.length + 1).sum = s.length + 1 := by
  induction s with
  | nil => rfl
  | cons c s ih =>
    rw [Text.splitWhere]
    split
    · rw [List.map_cons, List.sum_cons, ih, List.length_cons]
      simp
      omega
    · obtain ⟨t, ts, hts⟩ := List.exists_cons_of_ne_nil (Text.splitWhere_ne_nil p s)
      rw [hts] at ih ⊢
      rw [Text.extendFirst, List.map_cons, List.sum_cons, List.length_cons]
      rw [List.map_cons, List.sum_cons] at ih
      rw [List.length_cons]
      omega

theorem weight_join {f : Char → Nat} (sep : Text) (hsep : weight f sep = 0) (parts : List Text) :
    weight f (Text.join sep parts) = (parts.map (weight f)).sum := by
  cases parts with
  | nil => rfl
  | cons part parts =>
    rw [Text.join_cons, Text.weight_append, List.map_cons, List.sum_cons]
    congr 1
    induction parts with
    | nil => rfl
    | cons part' parts ih =>
      rw [List.flatMap_cons, Text.weight_append, Text.weight_append, hsep, Nat.zero_add, ih,
        List.map_cons, List.sum_cons]

/-- A component that is raised and the zeros behind it have at most one more digit than characters
each. -/
theorem exists_raisedBefore {part : Text} (h : part.length < Numeral.maxDigits)
    (behind : List Text) : ∃ raised, raisedBefore part behind = .ok raised ∧
      (raised.map (weight digitWeight)).sum ≤
        ((part :: behind).map fun t => t.length + 1).sum := by
  have hdigits := Text.weight_digitWeight_le_length part
  obtain ⟨t, ht, hweight⟩ := exists_raised (f := digitWeight)
    (fun c _ => Text.digitWeight_le_one c) rfl (Nat.lt_of_le_of_lt hdigits h)
  have hzeros : ((behind.map fun _ => leastComponent).map (weight digitWeight)).sum ≤
      (behind.map fun t => t.length + 1).sum := by
    induction behind with
    | nil => exact Nat.le_refl 0
    | cons u behind ih =>
      have hzero : weight digitWeight leastComponent = 1 := rfl
      simp only [List.map_cons, List.sum_cons, hzero]
      omega
  refine ⟨t :: behind.map fun _ => leastComponent, by rw [raisedBefore, ht]; rfl, ?_⟩
  rw [List.map_cons, List.sum_cons, List.map_cons, List.sum_cons]
  omega

/-- **The components of a raised bound** have at most one more digit than characters each: one is
raised, and those behind it are zero. -/
theorem exists_raiseLeftmost (k : Nat) {parts : List Text}
    (h : ∀ part ∈ parts, part.length < Numeral.maxDigits) :
    ∃ raised, raiseLeftmost k parts = .ok raised ∧
      (raised.map (weight digitWeight)).sum ≤ (parts.map fun t => t.length + 1).sum := by
  induction k, parts using raiseLeftmost.induct with
  | case1 k => exact ⟨[], by rw [raiseLeftmost]; rfl, Nat.zero_le _⟩
  | case2 part behind => exact exists_raisedBefore (h part List.mem_cons_self) behind
  | case3 n part => exact exists_raisedBefore (h part List.mem_cons_self) []
  | case4 n part next behind ih =>
    have hread : ∀ t ∈ [part, next], ∃ i, Numeral.leading t = .ok i := by
      intro t ht
      have hshort : t.length < Numeral.maxDigits :=
        h t (List.mem_append_left behind ht)
      exact Numeral.exists_leading_of_weight_le
        (Nat.le_trans (Text.weight_digitWeight_le_length t) (Nat.le_of_lt hshort))
    have hpart := h part List.mem_cons_self
    obtain ⟨i, hi⟩ := hread part (by simp)
    obtain ⟨j, hj⟩ := hread next (by simp)
    obtain ⟨raised, hraised, hsum⟩ := ih fun t ht => h t (List.mem_cons_of_mem part ht)
    rw [raiseLeftmost, hi, hj]
    simp only [Except.ok_bind]
    split
    · exact exists_raisedBefore hpart (next :: behind)
    · split
      · exact exists_raisedBefore hpart (next :: behind)
      · refine ⟨part :: raised, by rw [hraised]; rfl, ?_⟩
        have := Text.weight_digitWeight_le_length part
        rw [List.map_cons, List.sum_cons, List.map_cons, List.sum_cons]
        omega

/-- **The bounds of a caret** can be written for an atom that is not too long. -/
theorem exists_expandCaret {atom : Text} (h : weight spanWeight atom + 5 ≤ Numeral.maxDigits) :
    ∃ t, expandCaret atom = .ok t := by
  have hdigits := weight_digitWeight_le_span atom
  obtain ⟨lower, hlower⟩ := exists_convertVersion_of_weight_le (s := atom) (by omega)
  have hfront : (Text.substitute isWildcard greatestComponent (Text.cut '-' atom).1).length ≤
      weight spanWeight atom := by
    rw [length_substitute_greatest]
    exact Text.weight_le_of_sublist spanWeight (Text.cut_isPrefix '-' atom).sublist
  have hparts : ∀ part ∈ splitUpperBound atom, part.length < Numeral.maxDigits := by
    intro part hpart
    have := (Text.mem_splitWhere hpart).1.length_le
    omega
  obtain ⟨raised, hraised, hsum⟩ := exists_raiseLeftmost decidingComponents hparts
  -- Zeros are written for the components that are missing.
  have hstandard : weight digitWeight (standardize raised) < Numeral.maxDigits := by
    have hzeros : ∀ n, ((List.replicate n leastComponent).map (weight digitWeight)).sum = n := by
      intro n
      rw [List.map_replicate, List.sum_replicate_nat]
      exact Nat.mul_one n
    have hlength := sum_length_splitWhere (· == '.')
      (Text.substitute isWildcard greatestComponent (Text.cut '-' atom).1)
    rw [splitUpperBound, Text.fields, hlength] at hsum
    rw [standardize, weight_join ['.'] rfl, List.map_append, List.sum_append, hzeros]
    omega
  obtain ⟨upper, hupper⟩ := exists_convertVersion_of_weight_le hstandard
  exact ⟨_, by rw [expandCaret, hlower, hraised]; simp only [Except.ok_bind, hupper]; rfl⟩

/-- One for each digit and for each wildcard, which is a digit once zeros are written for them. -/
def markWeight (c : Char) : Nat := if isWildcard c then 1 else digitWeight c

theorem markWeight_le_one (c : Char) : markWeight c ≤ 1 := by
  unfold markWeight
  split
  · exact Nat.le_refl 1
  · exact Text.digitWeight_le_one c

theorem weight_markWeight_le_length (s : Text) : weight markWeight s ≤ s.length :=
  Text.weight_le_length fun c _ => markWeight_le_one c

theorem digitWeight_le_markWeight (c : Char) : digitWeight c ≤ markWeight c := by
  unfold markWeight
  split
  · exact Text.digitWeight_le_one c
  · exact Nat.le_refl _

theorem weight_zeroWildcards (s : Text) :
    weight digitWeight (zeroWildcards s) = weight markWeight s :=
  Text.weight_substitute digitWeight isWildcard leastComponent s

theorem sum_map_set_le {w : Text → Nat} {t : Text} {parts : List Text} {i : Nat}
    (h : w t ≤ w (parts.getD i []) + 1) :
    ((parts.set i t).map w).sum ≤ (parts.map w).sum + 1 := by
  induction parts generalizing i with
  | nil => exact Nat.zero_le _
  | cons part parts ih =>
    cases i with
    | zero =>
      rw [List.getD_cons_zero] at h
      rw [List.set_cons_zero, List.map_cons, List.sum_cons, List.map_cons, List.sum_cons]
      omega
    | succ i =>
      rw [List.getD_cons_succ] at h
      have := ih h
      rw [List.set_cons_succ, List.map_cons, List.sum_cons, List.map_cons, List.sum_cons]
      omega

/-- **A bound that leaves components open** can be raised when it is not too long. -/
theorem exists_raisePartial {atom : Text} (h : weight spanWeight atom + 5 ≤ Numeral.maxDigits) :
    ∃ t, raisePartial atom = .ok t ∧ weight digitWeight t < Numeral.maxDigits := by
  -- A wildcard behind a point is added when there is no point.
  obtain ⟨s, hs, hlength⟩ : ∃ s, (if '.' ∈ atom then atom else atom ++ ".x".toList) = s ∧
      s.length ≤ atom.length + 2 := by
    split
    · exact ⟨_, rfl, Nat.le_add_right _ _⟩
    · exact ⟨_, rfl, by simp⟩
  have hspan := length_le_span atom
  have hmarks := weight_markWeight_le_length s
  let part := (Text.fields '.' s).getD ((Text.fields '.' s).length - 2) []
  have hpart : weight digitWeight part ≤ weight markWeight part :=
    Text.weight_le_weight digitWeight_le_markWeight part
  have hpiece : weight markWeight part ≤ weight markWeight s := by
    show weight markWeight ((Text.fields '.' s).getD _ []) ≤ _
    rw [List.getD_eq_getElem?_getD]
    cases hget : (Text.fields '.' s)[(Text.fields '.' s).length - 2]? with
    | none => exact Nat.zero_le _
    | some part => exact Text.weight_le_of_mem_fields markWeight (List.mem_of_getElem? hget)
  have hfew : weight digitWeight part < Numeral.maxDigits := by omega
  obtain ⟨t, ht, hweight⟩ :=
    exists_raised (f := markWeight) (fun c _ => markWeight_le_one c) rfl hfew
  refine ⟨zeroWildcards (Text.join ['.']
    ((Text.fields '.' s).set ((Text.fields '.' s).length - 2) t)), ?_, ?_⟩
  · rw [raisePartial, hs]
    simp only [show raised ((Text.fields '.' s).getD _ []) = .ok t from ht]
    rfl
  · have hset : (((Text.fields '.' s).set ((Text.fields '.' s).length - 2) t).map
        (weight markWeight)).sum ≤ ((Text.fields '.' s).map (weight markWeight)).sum + 1 :=
      sum_map_set_le (Nat.le_trans hweight (Nat.add_le_add_right hpart 1))
    rw [← weight_join ['.'] rfl, ← weight_join ['.'] rfl, Text.join_fields] at hset
    rw [weight_zeroWildcards]
    omega

/-! ## Steps and walks -/

/-- The tokens that set a comparator are the signs of comparators. -/
theorem Comparator.ofToken?_eq_some_iff {token : Text} {c : Comparator} :
    Comparator.ofToken? token = some c ↔ token = c.sign := by
  unfold Comparator.ofToken?
  constructor
  · intro h
    split at h
    · obtain rfl := Option.some.inj h
      assumption
    · split at h
      · obtain rfl := Option.some.inj h
        assumption
      · cases h
  · rintro rfl
    cases c <;> rfl

namespace Pending

variable {p : Pending} {token atom : Text} {index : Nat} {next : Option Text}

/-- An atom that can be converted is settled under every mark. -/
theorem exists_finalize (h : weight digitWeight atom < Numeral.maxDigits) :
    ∃ r, p.finalize atom = .ok r := by
  obtain ⟨t, ht⟩ := exists_convertVersion_of_weight_le h
  rw [finalize, ht]
  simp only [Except.ok_bind]
  split
  · exact ⟨_, rfl⟩
  · split
    · exact ⟨_, rfl⟩
    · exact ⟨_, rfl⟩

theorem exists_atom (h : weight spanWeight atom + 5 ≤ Numeral.maxDigits) :
    ∃ r, p.atom atom index next = .ok r := by
  have hdigits := weight_digitWeight_le_span atom
  unfold Pending.atom
  split
  · obtain ⟨t, ht⟩ := exists_expandCaret h
    exact ⟨_, by rw [ht]; rfl⟩
  · obtain ⟨t, ht, hweight⟩ := exists_raisePartial h
    rw [ht]
    exact exists_finalize hweight
  · refine exists_finalize ?_
    have hmarks := weight_markWeight_le_length atom
    have hspan := length_le_span atom
    rw [weight_zeroWildcards]
    omega
  · exact exists_finalize (by omega)
  · refine exists_finalize ?_
    split
    · have htilde : digitWeight '~' = 0 := rfl
      rw [Text.weight_cons, htilde]
      omega
    · omega

/-- **A step** over a token that is not too long never fails: only an atom is converted. -/
theorem exists_step (h : weight spanWeight token + 5 ≤ Numeral.maxDigits) (atStart : Bool) :
    ∃ r, p.step index atStart token next = .ok r := by
  unfold step
  split
  case h_7 => exact exists_atom h
  all_goals exact ⟨_, rfl⟩

end Pending

/-- **A walk** over tokens that are not too long never fails, whatever is pending. -/
theorem exists_walk {tokens : List Text}
    (h : ∀ token ∈ tokens, weight spanWeight token + 5 ≤ Numeral.maxDigits) (index : Nat)
    (seen : Bool) (p : Pending) : ∃ written, walk index seen p tokens = .ok written := by
  induction tokens generalizing index seen p with
  | nil => exact ⟨[], rfl⟩
  | cons token rest ih =>
    obtain ⟨⟨q, written⟩, hstep⟩ :
        ∃ r, p.step index (!seen && !token.isEmpty) token rest.head? = .ok r :=
      Pending.exists_step (h token List.mem_cons_self) _
    obtain ⟨behind, hbehind⟩ := ih (fun t ht => h t (List.mem_cons_of_mem token ht)) (index + 1)
      (seen || !token.isEmpty) q
    exact ⟨_, by rw [walk, hstep]; simp only [Except.ok_bind, hbehind]; rfl⟩

/-! ## Ranges of ordinary size -/

theorem two_le_length_fields {sep : Char} {s : Text} (h : sep ∈ s) :
    2 ≤ (Text.fields sep s).length := by
  obtain ⟨a, b, rfl⟩ := List.append_of_mem h
  have ha := List.length_pos_iff.2 (Text.splitWhere_ne_nil (· == sep) a)
  have hb := List.length_pos_iff.2 (Text.splitWhere_ne_nil (· == sep) b)
  have hsplit := Text.splitWhere_append_cons (p := (· == sep)) (beq_self_eq_true sep) a b
  rw [Text.fields, hsplit, List.length_append]
  omega

/-- **Ranges of ordinary size are always converted**, whatever stands in them. A token stands before
every hyphen marker, there is a component before the last one to be raised behind a marker, and the
tokens that are taken for comparators are comparators. -/
theorem convertRange_of_length_le {s : Text} (h : s.length ≤ 600) :
    (∃ t, convertRange s = .ok t) ∧
      (∀ i, (tokenize (clean (Text.lower s)))[i]? = some hyphenMarker → 0 < i) ∧
      ∀ token ∈ tokenize (clean (Text.lower s)),
        2 ≤ (Text.fields '.' (if '.' ∈ token then token else token ++ ".x".toList)).length ∧
        ∀ c, Comparator.ofToken? token = some c ↔ token = c.sign := by
  refine ⟨?_, fun i hi => ?_, fun token _ => ⟨?_, fun c => ?_⟩⟩
  · have hspan := Nat.le_trans (weight_spanWeight_clean_le (Text.lower s))
      (weight_spanWeight_lower_le s)
    have htokens : ∀ token ∈ tokenize (clean (Text.lower s)),
        weight spanWeight token + 5 ≤ Numeral.maxDigits := by
      intro token htoken
      have hordinary : 7 * 600 + 5 ≤ Numeral.maxDigits := by decide
      have := weight_le_of_mem_tokenize spanWeight htoken
      omega
    obtain ⟨written, hwalk⟩ := exists_walk htokens 0 false Pending.none
    exact ⟨written.flatten, by rw [convertRange, hwalk]; rfl⟩
  · refine Nat.pos_of_ne_zero ?_
    rintro rfl
    rw [← List.head?_eq_getElem?] at hi
    exact head?_tokenize_ne _ hi
  · split
    · exact two_le_length_fields ‹_›
    · exact two_le_length_fields (by simp)
  · exact Comparator.ofToken?_eq_some_iff

/-- A caret in front of nothing but wildcards: for each of them seven digits are written. -/
theorem convertRange_of_length_le_wildcards :
    ('^' :: List.replicate 599 'x').length ≤ 600 ∧
      (∃ t, convertRange ('^' :: List.replicate 599 'x') = .ok t) ∧
      ∀ i, (tokenize (clean (Text.lower ('^' :: List.replicate 599 'x'))))[i]? =
        some hyphenMarker → 0 < i := by
  have hlength : ('^' :: List.replicate 599 'x').length ≤ 600 := by
    simp only [List.length_cons, List.length_replicate, Nat.reduceAdd, Nat.le_refl]
  obtain ⟨hconverted, hmarkers, -⟩ := convertRange_of_length_le hlength
  exact ⟨hlength, hconverted, hmarkers⟩

end Source

end AssetBridge
