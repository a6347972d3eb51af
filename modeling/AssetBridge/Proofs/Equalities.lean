import AssetBridge.Proofs.Comparisons
import AssetBridge.Proofs.Constraints

/-!
# A version as a constraint

A version that stands in a constraint without a sign asks for itself. It is told from a version with
wildcards by its characters: those of a numeric version are digits, separators and the letters of
the keywords, and there is no wildcard among them.

## Main definitions

* `isNumericChar`: the characters of numeric versions

## Main results

* `classical?_or_dated?_of_normalize`: what cannot name a branch is classical or dated
* `wildcardNumbers?_eq_none_of_normalize`: versions have no wildcards
* `Bound.matches_eq`: a bound that asks for a version lets through that version only
* `Constraint.parse_version`: a version as a constraint
-/

namespace AssetBridge.Target

/-! ## The characters of numeric versions -/

/-- The letters of the keywords. -/
def keywordLetters : List Char := "abcdehlprstv".toList

/-- **The characters of numeric versions**: digits, separators, the letters of the keywords in
either case, and a line feed at the end. -/
def isNumericChar (c : Char) : Bool :=
  Text.isDecimal c || c ∈ ['.', ':', '-', '_', '\n'] || Text.foldLetter c ∈ keywordLetters

theorem isNumericChar_of_isDecimal {c : Char} (h : Text.isDecimal c = true) :
    isNumericChar c = true := by
  rw [isNumericChar, h, Bool.true_or, Bool.true_or]

/-- No numeric version has a wildcard. -/
theorem isOpenMark_eq_false_of_isNumericChar {c : Char} (h : isNumericChar c = true) :
    isOpenMark c = false := by
  rw [Bool.eq_false_iff]
  intro hmark
  simp only [isOpenMark, Bool.or_eq_true, decide_eq_true_eq] at hmark
  rcases hmark with (rfl | rfl) | rfl <;> exact absurd h (by decide)

theorem isNumericChar_of_dropKeyword? {k s r : Text} (hk : k.all (· ∈ keywordLetters) = true)
    (h : Text.dropKeyword? k s = some r) (hr : ∀ c ∈ r, isNumericChar c = true) :
    ∀ c ∈ s, isNumericChar c = true := by
  obtain ⟨w, rfl, rfl⟩ := Text.dropKeyword?_eq_some_iff.1 h
  intro c hc
  rcases List.mem_append.1 hc with hc | hc
  · have hletter := of_decide_eq_true (List.all_eq_true.1 hk _ (List.mem_map_of_mem hc))
    simp [isNumericChar, hletter]
  · exact hr c hc

theorem isNumericChar_of_isFinal {s : Text} (h : Text.isFinal s = true) :
    ∀ c ∈ s, isNumericChar c = true := by
  simp only [Text.isFinal, Bool.or_eq_true, decide_eq_true_eq] at h
  rcases h with rfl | rfl
  · simp
  · exact List.all_iff_forall_prop.1 rfl

theorem isNumericChar_of_dropOne {l : List Char} {s : Text}
    (hl : l.all isNumericChar = true) (h : ∀ c ∈ dropOne l s, isNumericChar c = true) :
    ∀ c ∈ s, isNumericChar c = true := by
  cases s with
  | nil => simp
  | cons d s =>
    rw [dropOne] at h
    split at h
    · intro c hc
      rcases List.mem_cons.1 hc with rfl | hc
      · exact List.all_eq_true.1 hl c ‹_›
      · exact h c hc
    · exact h

theorem isNumericChar_of_devMark? {s : Text} {dev : Bool} (h : devMark? s = some dev) :
    ∀ c ∈ s, isNumericChar c = true := by
  unfold devMark? at h
  split at h
  · exact isNumericChar_of_isFinal ‹_›
  · split at h
    · rename_i hdev
      obtain ⟨r, hr, hfinal⟩ := (Option.any_eq_true _ _).1 hdev
      refine isNumericChar_of_dropOne (l := ['.', '-']) rfl ?_
      exact isNumericChar_of_dropKeyword? rfl hr (isNumericChar_of_isFinal hfinal)
    · cases h

theorem isNumericChar_of_numberRun (s : Text) : ∀ c ∈ (numberRun s).1, isNumericChar c = true := by
  induction s with
  | nil => simp [numberRun]
  | cons d s ih =>
    rw [numberRun]
    split
    · rename_i hd
      intro c hc
      rcases List.mem_cons.1 hc with rfl | hc
      · simp only [Bool.or_eq_true, Bool.and_eq_true, decide_eq_true_eq] at hd
        rcases hd with hd | ⟨rfl | rfl, -⟩
        · exact isNumericChar_of_isDecimal hd
        · rfl
        · rfl
      · exact ih c hc
    · simp

theorem isNumericChar_of_suffix? {s : Text} {σ : Suffix} (h : suffix? s = some σ) :
    ∀ c ∈ s, isNumericChar c = true := by
  refine isNumericChar_of_dropOne (l := ['.', '_', '-']) rfl ?_
  unfold suffix? at h
  revert h
  generalize dropOne ['.', '_', '-'] s = t
  intro h
  simp only at h
  split at h
  · rename_i w r hkey
    obtain ⟨dev, hdev, -⟩ := Option.map_eq_some_iff.1 h
    obtain ⟨k, hk, hfind⟩ := List.exists_of_findSome?_eq_some hkey
    obtain ⟨r', hr, he⟩ := Option.map_eq_some_iff.1 hfind
    obtain ⟨-, rfl⟩ := Prod.mk.inj he
    have hletters : ∀ k ∈ suffixKeywords, k.all (· ∈ keywordLetters) = true := by decide
    refine isNumericChar_of_dropKeyword? (hletters k hk) hr fun c hc => ?_
    -- behind the keyword stand its numbers and the development mark
    rw [← numberRun_append r'] at hc
    rcases List.mem_append.1 hc with hc | hc
    · exact isNumericChar_of_numberRun r' c hc
    · exact isNumericChar_of_devMark? hdev c hc
  · obtain ⟨dev, hdev, -⟩ := Option.map_eq_some_iff.1 h
    exact isNumericChar_of_devMark? hdev

/-- What a scanner of digits passes over is numeric. -/
theorem isNumericChar_of_dropWhile {p : Char → Bool} {s : Text}
    (hp : ∀ c, p c = true → isNumericChar c = true)
    (h : ∀ c ∈ s.dropWhile p, isNumericChar c = true) : ∀ c ∈ s, isNumericChar c = true := by
  intro c hc
  rw [← List.takeWhile_append_dropWhile (p := p) (l := s)] at hc
  rcases List.mem_append.1 hc with hc | hc
  · exact hp c (List.all_eq_true.1 List.all_takeWhile c hc)
  · exact h c hc

theorem isNumericChar_of_pointNumber {s r : Text} {component : Option Text}
    (h : pointNumber s = (component, r)) (hr : ∀ c ∈ r, isNumericChar c = true) :
    ∀ c ∈ s, isNumericChar c = true := by
  unfold pointNumber at h
  split at h
  · split at h
    · obtain ⟨-, rfl⟩ := Prod.mk.inj h
      exact hr
    · obtain ⟨-, rfl⟩ := Prod.mk.inj h
      intro c hc
      rcases List.mem_cons.1 hc with rfl | hc
      · rfl
      · exact isNumericChar_of_dropWhile (fun _ => isNumericChar_of_isDecimal) hr c hc
  · obtain ⟨-, rfl⟩ := Prod.mk.inj h
    exact hr

theorem isNumericChar_of_dropVersionLetter {s : Text}
    (h : ∀ c ∈ dropVersionLetter s, isNumericChar c = true) :
    ∀ c ∈ s, isNumericChar c = true := by
  unfold dropVersionLetter at h
  split at h
  · intro c hc
    rcases List.mem_cons.1 hc with rfl | hc
    · rfl
    · exact h c hc
  · intro c hc
    rcases List.mem_cons.1 hc with rfl | hc
    · rfl
    · exact h c hc
  · exact h

theorem isNumericChar_of_classical? {s n : Text} (h : classical? s = some n) :
    ∀ c ∈ s, isNumericChar c = true := by
  rcases h₂ : pointNumber ((dropVersionLetter s).dropWhile Text.isDecimal) with ⟨second, r₂⟩
  rcases h₃ : pointNumber r₂ with ⟨third, r₃⟩
  rcases h₄ : pointNumber r₃ with ⟨fourth, r₄⟩
  simp only [classical?, h₂, h₃, h₄] at h
  split at h
  · cases h
  · obtain ⟨σ, hσ, -⟩ := Option.map_eq_some_iff.1 h
    have hnumbers := isNumericChar_of_pointNumber h₂ (isNumericChar_of_pointNumber h₃
      (isNumericChar_of_pointNumber h₄ (isNumericChar_of_suffix? hσ)))
    exact isNumericChar_of_dropVersionLetter
      (isNumericChar_of_dropWhile (fun _ => isNumericChar_of_isDecimal) hnumbers)

theorem isNumericChar_of_isDateSeparator {c : Char} (h : isDateSeparator c = true) :
    isNumericChar c = true := by
  simp only [isDateSeparator, Bool.or_eq_true, decide_eq_true_eq] at h
  rcases h with (rfl | rfl) | rfl <;> rfl

theorem isNumericChar_of_dated? {s n : Text} (h : dated? s = some n) :
    ∀ c ∈ s, isNumericChar c = true := by
  refine isNumericChar_of_dropVersionLetter ?_
  unfold dated? at h
  revert h
  generalize dropVersionLetter s = t
  intro h
  simp only at h
  split at h
  · obtain ⟨σ, hσ, -⟩ := Option.map_eq_some_iff.1 h
    have hsuffix := isNumericChar_of_suffix? hσ
    obtain ⟨r, hr⟩ := (Text.dropEndWhile_isPrefix (fun c => !Text.isDecimal c) _).trans
      (List.takeWhile_prefix (l := t) fun c => Text.isDecimal c || isDateSeparator c)
    -- the date opens the text, and its suffix is the rest
    have hdrop := congrArg (List.drop (Text.dropEndWhile (fun c => !Text.isDecimal c)
      (t.takeWhile fun c => Text.isDecimal c || isDateSeparator c)).length) hr
    rw [List.drop_left] at hdrop
    rw [← hdrop] at hsuffix
    intro c hc
    rw [← hr] at hc
    rcases List.mem_append.1 hc with hc | hc
    · have hspan := List.all_eq_true.1 List.all_takeWhile c
        ((Text.dropEndWhile_isPrefix _ _).subset hc)
      rw [Bool.or_eq_true] at hspan
      rcases hspan with hd | hd
      · exact isNumericChar_of_isDecimal hd
      · exact isNumericChar_of_isDateSeparator hd
    · exact hsuffix c hc
  · cases h

/-! ## What cannot name a branch -/

/-- A development version has the letter d at its end. -/
theorem exists_mem_of_development? {s n : Text} (h : development? s = some n) :
    ∃ c ∈ s, Text.foldLetter c = 'd' := by
  have hfeed : ∀ c ∈ dropFinalFeed s, c ∈ s := by
    intro c hc
    unfold dropFinalFeed at hc
    split at hc
    · exact List.dropLast_subset s hc
    · exact hc
  simp only [development?, beforeDev?] at h
  split at h
  · rename_i name hname
    split at hname
    · rename_i r hr
      obtain ⟨w, hw, hfold⟩ := Text.dropKeyword?_eq_some_iff.1 hr
      have hd : 'd' ∈ w.map Text.foldLetter := by
        rw [hfold]
        decide
      obtain ⟨c, hc, hcd⟩ := List.mem_map.1 hd
      refine ⟨c, hfeed c (List.mem_reverse.1 ?_), hcd⟩
      rw [hw]
      exact List.mem_append_left r hc
    · cases hname
  · cases h

/-- The default branches have the letter r or d, and the prefix of branches has a d. -/
theorem nameDefault_and_dropKeyword?_of_letters {s : Text}
    (hletters : ∀ c ∈ s, Text.foldLetter c ∉ ['d', 'r']) :
    nameDefault s = s ∧ Text.dropKeyword? branchPrefix s = none := by
  constructor
  · have hone : Text.isOneOf defaultBranches s = false := by
      rw [Bool.eq_false_iff, ne_eq, Text.isOneOf_iff]
      intro hm
      have hall : ∀ t ∈ defaultBranches, t.any (Text.foldLetter · ∈ ['d', 'r']) = true := by decide
      obtain ⟨c, hc, hd⟩ := List.any_eq_true.1 (hall s hm)
      exact hletters c hc (of_decide_eq_true hd)
    rw [nameDefault, hone]
    rfl
  · rw [Option.eq_none_iff_forall_ne_some]
    intro r hr
    obtain ⟨w, rfl, hw⟩ := Text.dropKeyword?_eq_some_iff.1 hr
    obtain ⟨c, w, rfl⟩ := List.exists_cons_of_ne_nil (l := w) (by rintro rfl; cases hw)
    have hd : Text.foldLetter c = 'd' := (List.cons.inj hw).1
    exact hletters c (by simp) (by simp [hd])

/-- **What cannot name a branch** and has no flag is classical or dated in front of its build data:
the prefix of branches and the development mark need the letter d, and the default branches have an
r or a d. -/
theorem classical?_or_dated?_of_normalize {s n : Text} (hname : ∀ c ∈ s, isNameChar c = true)
    (hflag : '@' ∉ s) (hletters : ∀ c ∈ s, Text.foldLetter c ∉ ['d', 'r'])
    (h : normalize s = .ok n) :
    classical? (dropBuild s) = some n ∨ dated? (dropBuild s) = some n := by
  have hblank : ∀ c ∈ s, Text.isBlank c = false := by
    intro c hc
    have := hname c hc
    simp only [isNameChar, Bool.and_eq_true, Bool.not_eq_true'] at this
    exact this.2
  obtain ⟨hdefault, hbranch⟩ := nameDefault_and_dropKeyword?_of_letters hletters
  simp only [normalize, Text.strip_of_forall hblank, dropAlias_eq_self hname,
    dropFlag_eq_self hflag, hdefault, hbranch] at h
  split at h
  · rename_i version hversion
    obtain rfl := Except.ok.inj h
    rcases numeric?_eq_some hversion with hn | hn | hn
    · exact .inl hn
    · exact .inr hn
    · obtain ⟨c, hc, hd⟩ := exists_mem_of_development? hn
      exact absurd (by simp [hd]) (hletters c ((dropBuild_isPrefix s).subset hc))
  · cases h

/-! ## No version has wildcards -/

/-- A digit counts as no letter. -/
theorem foldLetter_not_mem_of_isDecimal {c : Char} (h : Text.isDecimal c = true) {l : List Char}
    (hl : l.any Text.isDecimal = false) : Text.foldLetter c ∉ l := by
  have hs : c ≠ 'ſ' := Text.ne_of_isDecimal h rfl
  have hk : c ≠ '\u212a' := Text.ne_of_isDecimal h rfl
  have hi : c ≠ 'İ' := Text.ne_of_isDecimal h rfl
  have hj : c ≠ 'ı' := Text.ne_of_isDecimal h rfl
  have hfold : Text.isDecimal (Text.foldLetter c) = true := by
    simp [Text.foldLetter, hs, hk, hi, hj, Text.isDecimal_toLower, h]
  intro hm
  exact absurd (List.any_eq_true.2 ⟨_, hm, hfold⟩) (by simp [hl])

theorem isDecimal_or_mem_of_pointNumbers {k : Nat} {s : Text} {c : Char} (h : c ∈ s) :
    Text.isDecimal c = true ∨ c = '.' ∨ c ∈ (pointNumbers k s).2 := by
  induction k generalizing s with
  | zero => exact .inr (.inr h)
  | succ k ih =>
    rw [pointNumbers]
    split
    · rename_i ds r hp
      unfold pointNumber at hp
      split at hp
      · rename_i t
        split at hp
        · cases hp
        · obtain ⟨-, rfl⟩ := Prod.mk.inj hp
          rcases List.mem_cons.1 h with rfl | h
          · exact .inr (.inl rfl)
          · rw [← List.takeWhile_append_dropWhile (p := Text.isDecimal) (l := t)] at h
            rcases List.mem_append.1 h with h | h
            · exact .inl (List.all_eq_true.1 List.all_takeWhile c h)
            · exact ih h
      · cases hp
    · exact .inr (.inr h)

theorem mem_of_isWildcardTail {s : Text} (h : isWildcardTail s = true) :
    ∀ c ∈ s, c = '.' ∨ isOpenMark c = true ∨ c = '\n' := by
  -- Induction on the wildcards: behind each the tail ends or goes on.
  induction s using isWildcardTail.induct with
  | case1 d r ih =>
    simp only [isWildcardTail, Bool.and_eq_true, Bool.or_eq_true, decide_eq_true_eq] at h
    intro c hc
    rcases List.mem_cons.1 hc with rfl | hc
    · exact .inl rfl
    · rcases List.mem_cons.1 hc with rfl | hc
      · exact .inr (.inl (by simpa [isOpenMark] using h.1))
      · rcases h.2 with hfinal | htail
        · simp only [Text.isFinal, Bool.or_eq_true, decide_eq_true_eq] at hfinal
          rcases hfinal with rfl | rfl
          · cases hc
          · exact .inr (.inr (List.mem_singleton.1 hc))
        · exact ih htail c hc
  | case2 s hs =>
    unfold isWildcardTail at h
    split at h
    · exact absurd rfl (hs _ _)
    · cases h

/-- What is read as a version with wildcards has a wildcard, and few other characters. -/
theorem spec_of_wildcardNumbers? {s : Text} {numbers : List Text}
    (h : wildcardNumbers? s = some numbers) : (∃ c ∈ s, isOpenMark c = true) ∧
      ∀ c ∈ s, Text.isDecimal c = true ∨ c ∈ ['v', '.', '\n'] ∨ isOpenMark c = true := by
  have hletter : dropSmallVersionLetter s <:+ s ∧
      ∀ c ∈ s, c = 'v' ∨ c ∈ dropSmallVersionLetter s := by
    unfold dropSmallVersionLetter
    split
    · exact ⟨List.suffix_cons _ _, by simp⟩
    · exact ⟨List.suffix_refl s, fun c hc => .inr hc⟩
  simp only [wildcardNumbers?, numbers?] at h
  split at h
  · rename_i found r hfound
    split at hfound
    · cases hfound
    · obtain ⟨-, rfl⟩ := Prod.mk.inj (Option.some.inj hfound)
      split at h
      · rename_i htail
        constructor
        · obtain ⟨c, hc, hmark⟩ := exists_mem_of_isWildcardTail htail
          refine ⟨c, hletter.1.subset ?_, by simpa [isOpenMark, or_assoc] using hmark⟩
          exact (List.dropWhile_suffix _).subset (mem_of_mem_pointNumbers hc)
        · intro c hc
          rcases hletter.2 c hc with rfl | hc
          · exact .inr (.inl (by simp))
          · rw [← List.takeWhile_append_dropWhile (p := Text.isDecimal)
              (l := dropSmallVersionLetter s)] at hc
            rcases List.mem_append.1 hc with hc | hc
            · exact .inl (List.all_eq_true.1 List.all_takeWhile c hc)
            · rcases isDecimal_or_mem_of_pointNumbers (k := 3 - 1) hc with hd | rfl | hc
              · exact .inl hd
              · exact .inr (.inl (by simp))
              · rcases mem_of_isWildcardTail htail c hc with rfl | hmark | rfl
                · exact .inr (.inl (by simp))
                · exact .inr (.inr hmark)
                · exact .inr (.inl (by simp))
      · cases h
  · cases h

/-- **Versions have no wildcards**: what could be read as a version with wildcards is none. -/
theorem wildcardNumbers?_eq_none_of_normalize {s n : Text} (hs : ∀ c ∈ s, Text.isBlank c = false)
    (h : normalize s = .ok n) : wildcardNumbers? s = none := by
  cases hw : wildcardNumbers? s with
  | none => rfl
  | some numbers =>
    exfalso
    obtain ⟨⟨d, hd, hmark⟩, hchars⟩ := spec_of_wildcardNumbers? hw
    have hbuilt : ∀ c ∈ s, isBuiltChar c = true ∧ c ≠ '@' ∧ Text.foldLetter c ∉ ['d', 'r'] := by
      intro c hc
      rcases hchars c hc with hc' | hc' | hc'
      · have hcomma : c ≠ ',' := Text.ne_of_isDecimal hc' rfl
        have hplus : c ≠ '+' := Text.ne_of_isDecimal hc' rfl
        refine ⟨?_, Text.ne_of_isDecimal hc' rfl, foldLetter_not_mem_of_isDecimal hc' rfl⟩
        simp [isBuiltChar, isNameChar, hcomma, hplus, hs c hc]
      · simp only [List.mem_cons, List.not_mem_nil, or_false] at hc'
        rcases hc' with rfl | rfl | rfl
        · decide
        · decide
        · exact absurd (hs _ hc) (by decide)
      · simp only [isOpenMark, Bool.or_eq_true, decide_eq_true_eq] at hc'
        rcases hc' with (rfl | rfl) | rfl <;> decide
    have hname : ∀ c ∈ s, isNameChar c = true := by
      intro c hc
      have := (hbuilt c hc).1
      rw [isBuiltChar, Bool.and_eq_true] at this
      exact this.1
    have hflag : '@' ∉ s := fun hm => (hbuilt _ hm).2.1 rfl
    have hnumeric := classical?_or_dated?_of_normalize hname hflag (fun c hc => (hbuilt c hc).2.2) h
    rw [dropBuild_eq_self fun c hc => (hbuilt c hc).1] at hnumeric
    have hall : ∀ c ∈ s, isNumericChar c = true :=
      hnumeric.elim isNumericChar_of_classical? isNumericChar_of_dated?
    rw [isOpenMark_eq_false_of_isNumericChar (hall d hd)] at hmark
    cases hmark

/-! ## A version as a constraint -/

/-- Without a sign in front of it a word is compared for equality. -/
theorem comparison?_eq_self {s r : Text} (hs : ∀ c ∈ s, Text.isBlank c = false) {c : Char}
    (hcr : s = c :: r) (hc : c ∉ signChars) : comparison? s = some (.eq, s) := by
  have hw := word?_eq_self (hcr ▸ List.cons_ne_nil c r) hs
  subst hcr
  simp only [signChars, List.mem_cons, List.not_mem_nil, or_false, not_or] at hc
  have hless : '<' ≠ c := Ne.symm hc.1
  have hgreater : '>' ≠ c := Ne.symm hc.2.1
  have hequal : '=' ≠ c := Ne.symm hc.2.2.1
  have hnot : '!' ≠ c := Ne.symm hc.2.2.2
  simp [comparison?, signs_eq, Text.dropPrefix?, hw, hless, hgreater, hequal, hnot, List.findSome?]

/-- **A version** that stands without a sign is read as a demand for it. -/
theorem parsePart_version {s : Text} (hs : ∀ c ∈ s, Text.isBlank c = false) {v : Version}
    (hv : Version.parse s = .ok v) : parsePart s = .ok [⟨.eq, v⟩] := by
  obtain ⟨n, hn, -⟩ := Except.exists_of_bind_eq_ok hv
  have hread : readVersion s = .ok v := by
    rw [readVersion, hv]
    rfl
  have hany : Text.isOneOf anyParts s = false := by
    rw [Bool.eq_false_iff, ne_eq, Text.isOneOf_iff]
    intro hm
    simp only [anyParts, List.mem_cons, List.not_mem_nil, or_false] at hm
    rcases hm with rfl | rfl | rfl <;> cases hn
  obtain ⟨c, r, hcr, hc⟩ := exists_eq_cons_of_normalize hs hn
  have hcomparison := comparison?_eq_self hs hcr (not_mem_signChars_of_opensVersion hc)
  have hwild := wildcardNumbers?_eq_none_of_normalize hs hn
  have hbound : comparisonBound .eq s = .ok ⟨.eq, v⟩ := by
    rw [comparisonBound, hread, hn]
    rfl
  unfold parsePart
  rw [hany]
  simp only [Bool.false_eq_true, if_false, hread, hwild, hcomparison, hbound]
  split
  · rfl
  · -- no range opens with a digit or a letter
    split
    · rename_i r' _
      obtain rfl : '~' = c := (List.cons.inj hcr).1
      cases hc
    · rename_i r' _
      obtain rfl : '^' = c := (List.cons.inj hcr).1
      cases hc
    · rfl

/-- A version that was read is a branch in the place of branches, or it names none. -/
theorem Version.eq_ofBranch_of_parse {s : Text} {v : Version} (h : Version.parse s = .ok v) :
    v.branch = none ∨ ∃ name, v = .ofBranch name := by
  obtain ⟨n, -, hv⟩ := Except.exists_of_bind_eq_ok h
  have hof := Except.eq_ok_of_mapError hv
  unfold Version.ofNormal at hof
  split at hof
  · rename_i name _
    exact .inr ⟨name, (Except.ok.inj hof).symm⟩
  · obtain ⟨release, -, hof⟩ := Except.exists_of_bind_eq_ok hof
    obtain ⟨place, -, hof⟩ := Except.exists_of_bind_eq_ok hof
    rw [← Except.ok.inj hof]
    exact .inl rfl

/-- **A bound that asks for a version** lets through that version and no other. -/
theorem Bound.matches_eq {s t : Text} {v w : Version} (hv : Version.parse s = .ok v)
    (hw : Version.parse t = .ok w) : (Bound.mk .eq w).matches v = decide (v = w) := by
  by_cases hb : v.branch = none ∧ w.branch = none
  · rw [Bound.matches_of_numeric hb.1 hb.2]
    obtain ⟨p, b⟩ := v
    obtain ⟨q, d⟩ := w
    obtain ⟨rfl, rfl⟩ : b = none ∧ d = none := hb
    simp [Operator.holds]
  · have hsome : (v.isBranch || w.isBranch) = true := by
      rw [Version.isBranch, Version.isBranch, Bool.or_eq_true, Option.isSome_iff_ne_none,
        Option.isSome_iff_ne_none]
      exact Classical.not_and_iff_not_or_not.1 hb
    -- A branch has one place, so its name says which one it is.
    have hname : v.branch = w.branch ↔ v = w := by
      refine ⟨fun he => ?_, fun he => he ▸ rfl⟩
      rcases Version.eq_ofBranch_of_parse hv with hnone | ⟨x, rfl⟩
      · exact absurd ⟨hnone, he ▸ hnone⟩ hb
      · rcases Version.eq_ofBranch_of_parse hw with hnone | ⟨y, rfl⟩
        · rw [hnone] at he
          cases he
        · rw [Option.some.inj he]
    simp only [Bound.matches, hsome, if_true, Operator.holdsForBranch, hname]

namespace Constraint

/-- **A version as a constraint** asks for itself. -/
theorem parse_version {s : Text} (hs : ∀ c ∈ s, isPartSeparator c = false) (hbar : '|' ∉ s)
    {w : Version} (hw : Version.parse s = .ok w) : parse s = .ok ⟨s, [[⟨.eq, w⟩]]⟩ := by
  have hblank : ∀ c ∈ s, Text.isBlank c = false := by
    intro c hc
    have := hs c hc
    rw [isPartSeparator, Bool.or_eq_false_iff] at this
    exact this.2
  have hne : s ≠ [] := by
    rintro rfl
    cases hw
  apply Except.eq_ok_of_toOption
  rw [toOption_parse_part hne hs hbar, parsePart_version hblank hw]
  rfl

end Constraint

end AssetBridge.Target
