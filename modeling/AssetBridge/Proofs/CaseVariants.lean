import AssetBridge.Proofs.CanonicalForms
import AssetBridge.Proofs.LetterCase

/-!
# Case variants of a version

Two texts that open with a number and differ in the case of ASCII letters only name the same version
and give the same lower bound. Two words are compared as they are written, and make the exceptions:
the `as` of an alias, and the keyword `stable`, which is left out of the normal form, with all that
stands behind it, when it is written in small letters.

## Main definitions

* `OpensNumber`: texts that open with a number, behind an optional letter v
* `HasAlias`: texts with an alias that is left out of the version
* `bareVersion`: the part of a text that its numbers and its suffix are read from
* `namesStable`, `dropsSuffix`: whether the keyword of a version is the word `stable` in small
  letters, and whether there is something behind it

## Main results

* `Suffix.render_eq`, `HasReleaseChars.ofNormal_render_eq`: suffixes that differ in the case of
  their keyword
* `normalize_eq_ok_iff`: the normal form of a text that opens with a number
* `parse_and_parsePart_of_sameLetters`: case variants are the same version and give the same bound
-/

namespace AssetBridge.Target

open Text (IgnoresCase SameLetters)

/-! ## Suffixes -/

namespace Suffix

/-- Whether the keyword of a suffix is the word `stable` in small letters, which leaves nothing. -/
def isPlainStable (σ : Suffix) : Bool :=
  σ.keyword.any fun p => decide (p.1 = Stability.stable.keyword)

/-- Whether a number or the development mark stands behind the keyword. -/
def saysMore (σ : Suffix) : Bool := σ.keyword.any (fun p => !p.2.isEmpty) || σ.dev

variable {σ τ : Suffix}

/-- Suffixes that are the same in small letters differ in the case of their keyword only. -/
theorem exists_of_inSmallLetters (h : σ.inSmallLetters = τ.inSmallLetters) :
    σ.dev = τ.dev ∧ (σ.keyword = none ∧ τ.keyword = none ∨
      ∃ k l number, σ.keyword = some (k, number) ∧ τ.keyword = some (l, number) ∧
        SameLetters k l) := by
  obtain ⟨hkeyword, hdev⟩ := mk.inj h
  refine ⟨hdev, ?_⟩
  rcases Option.none_or_some_of_map_eq hkeyword with hnone | ⟨p, q, hp, hq, heq⟩
  · exact .inl hnone
  · obtain ⟨hletters, hnumber⟩ := Prod.mk.inj heq
    refine .inr ⟨p.1, q.1, p.2, hp, ?_, hletters⟩
    rw [hq, hnumber]

/-- **The canonical form** of a suffix does not depend on the case of its keyword, unless this is
the word `stable`. -/
theorem render_eq (h : σ.inSmallLetters = τ.inSmallLetters)
    (hstable : σ.isPlainStable = τ.isPlainStable) : σ.render = τ.render := by
  obtain ⟨hdev, ⟨hσ, hτ⟩ | ⟨k, l, number, hσ, hτ, hletters⟩⟩ := exists_of_inSmallLetters h
  · simp only [render, hσ, hτ, hdev]
  · simp only [isPlainStable, hσ, hτ, Option.any_some, decide_eq_decide] at hstable
    simp only [render, hσ, hτ, hdev, hstable, Stability.expandKeyword_of_sameLetters hletters]

/-- The word `stable` leaves nothing in small letters, and itself in any other case. -/
theorem render_of_isPlainStable (h : σ.inSmallLetters = τ.inSmallLetters)
    (hσ : σ.isPlainStable = true) (hτ : τ.isPlainStable = false) (hmore : σ.saysMore = false) :
    σ.render = [] ∧ τ.render = '-' :: Stability.stable.keyword := by
  obtain ⟨hdev, ⟨hnone, -⟩ | ⟨k, l, number, hk, hl, hletters⟩⟩ := exists_of_inSmallLetters h
  · simp [isPlainStable, hnone] at hσ
  · simp only [isPlainStable, hk, hl, Option.any_some, decide_eq_true_eq,
      decide_eq_false_iff_not] at hσ hτ
    simp only [saysMore, hk, hdev, Option.any_some, Bool.or_eq_false_iff, Bool.not_eq_false',
      List.isEmpty_iff] at hmore
    have hexpand : Stability.expandKeyword l = Stability.stable.keyword := by
      rw [← Stability.expandKeyword_of_sameLetters hletters, hσ]
      rfl
    constructor
    · simp only [render, hk, hσ, if_true]
    · simp only [render, hl, hτ, if_false, hexpand, hmore.1, hmore.2]
      rfl

end Suffix

/-! ## The word `stable` -/

/-- **The characters of a release**: digits and points. -/
def HasReleaseChars (s : Text) : Prop := ∀ c ∈ s, Text.isDecimal c = true ∨ c = '.'

theorem hasReleaseChars_of_classicalNumbers? {s numbers r : Text}
    (h : classicalNumbers? s = some (numbers, r)) : HasReleaseChars numbers := by
  rcases h₂ : pointNumber ((dropVersionLetter s).dropWhile Text.isDecimal) with ⟨second, r₂⟩
  rcases h₃ : pointNumber r₂ with ⟨third, r₃⟩
  rcases h₄ : pointNumber r₃ with ⟨fourth, r₄⟩
  simp only [classicalNumbers?, h₂, h₃, h₄] at h
  split at h
  · cases h
  · rename_i hne
    simp only [Bool.or_eq_true, List.isEmpty_iff, not_or] at hne
    obtain ⟨rfl, -⟩ := Prod.mk.inj (Option.some.inj h)
    have hmissing := isFurther_missingComponent
    have hcomponents : AreComponents ((dropVersionLetter s).takeWhile Text.isDecimal)
        (second.getD missingComponent) (third.getD missingComponent)
        (fourth.getD missingComponent) :=
      ⟨hne.1, List.all_eq_true.1 List.all_takeWhile,
        .getD (isFurther_of_pointNumber h₂).1 hmissing,
        .getD (isFurther_of_pointNumber h₃).1 hmissing,
        .getD (isFurther_of_pointNumber h₄).1 hmissing⟩
    intro c hc
    simpa using hcomponents.joinedRuns.isDecimal_or_mem c hc

theorem hasReleaseChars_of_datedNumbers? {s numbers r : Text}
    (h : datedNumbers? s = some (numbers, r)) : HasReleaseChars numbers := by
  unfold datedNumbers? at h
  simp only at h
  split at h
  · obtain ⟨rfl, -⟩ := Prod.mk.inj (Option.some.inj h)
    intro c hc
    obtain ⟨d, -, rfl⟩ := List.mem_map.1 hc
    split
    · exact .inl ‹_›
    · exact .inr rfl
  · cases h

theorem hasReleaseChars_of_numbered? {s numbers : Text} {σ : Suffix}
    (h : numbered? s = some (numbers, σ)) : HasReleaseChars numbers := by
  have hfront : ∀ {front : Option (Text × Text)}, front.bind withSuffix? = some (numbers, σ) →
      ∃ r, front = some (numbers, r) := by
    intro front hread
    obtain ⟨p, hp, hsuffix⟩ := Option.bind_eq_some_iff.1 hread
    obtain ⟨τ, -, heq⟩ := Option.map_eq_some_iff.1 hsuffix
    obtain ⟨rfl, -⟩ := Prod.mk.inj heq
    exact ⟨p.2, hp⟩
  simp only [numbered?, Option.orElse_eq_orElse, Option.orElse_eq_or, Option.or_eq_some_iff] at h
  rcases h with h | ⟨-, h⟩
  · obtain ⟨r, hr⟩ := hfront h
    exact hasReleaseChars_of_classicalNumbers? hr
  · obtain ⟨r, hr⟩ := hfront h
    exact hasReleaseChars_of_datedNumbers? hr

namespace HasReleaseChars

variable {numbers : Text} (h : HasReleaseChars numbers)
include h

theorem hyphen_not_mem : '-' ∉ numbers := by
  intro hm
  rcases h _ hm with hd | he
  · exact absurd hd (by decide)
  · exact absurd he (by decide)

theorem dropPrefix?_append {t : Text} (ht : Text.ContinuesWith ['-'] t) :
    Text.dropPrefix? branchPrefix (numbers ++ t) = none := by
  cases numbers with
  | nil =>
    cases t with
    | nil => rfl
    | cons c t =>
      obtain rfl := List.mem_singleton.1 (ht c rfl)
      rfl
  | cons c r =>
    refine if_neg fun hd : 'd' = c => ?_
    rcases h c List.mem_cons_self with hc | rfl
    · exact Text.ne_of_isDecimal hc rfl hd.symm
    · exact absurd hd (by decide)

/-- **The word `stable`** says nothing behind the numbers of a version. -/
theorem ofNormal_append_stable :
    Version.ofNormal (numbers ++ '-' :: Stability.stable.keyword) = Version.ofNormal numbers := by
  have hbranch := h.dropPrefix?_append (Text.continuesWith_cons '-' Stability.stable.keyword)
  have hself := h.dropPrefix?_append (t := []) (by rintro c ⟨⟩)
  rw [List.append_nil] at hself
  have hfields : Text.fields '-' Stability.stable.keyword = [Stability.stable.keyword] := rfl
  simp only [Version.ofNormal, hbranch, hself, Text.fields_append_cons h.hyphen_not_mem,
    Text.fields_eq_singleton h.hyphen_not_mem, hfields, List.headD_cons, List.tail_cons]
  cases ((Version.pointParts numbers).mapM Numeral.literal) with
  | error e => rfl
  | ok release => rfl

variable {σ τ : Suffix}

/-- The word that is left out of one version stands in the other, and says nothing there. -/
theorem ofNormal_render_of_isPlainStable (hsmall : σ.inSmallLetters = τ.inSmallLetters)
    (hσ : σ.isPlainStable = true) (hτ : τ.isPlainStable = false) (hmore : σ.saysMore = false) :
    Version.ofNormal (numbers ++ σ.render) = Version.ofNormal (numbers ++ τ.render) := by
  obtain ⟨hnone, hstable⟩ := Suffix.render_of_isPlainStable hsmall hσ hτ hmore
  rw [hnone, hstable, h.ofNormal_append_stable, List.append_nil]

/-- **Versions whose suffixes** differ in the case of their keyword are the same, unless one of the
keywords is left out with something behind it. -/
theorem ofNormal_render_eq (hsmall : σ.inSmallLetters = τ.inSmallLetters)
    (hdrop : (σ.isPlainStable && σ.saysMore) = (τ.isPlainStable && τ.saysMore)) :
    Version.ofNormal (numbers ++ σ.render) = Version.ofNormal (numbers ++ τ.render) := by
  by_cases hsame : σ.isPlainStable = τ.isPlainStable
  · rw [Suffix.render_eq hsmall hsame]
  · cases hσ : σ.isPlainStable with
    | true =>
      have hτ : τ.isPlainStable = false := by simpa [hσ] using hsame
      rw [hσ, hτ, Bool.false_and, Bool.true_and] at hdrop
      exact h.ofNormal_render_of_isPlainStable hsmall hσ hτ hdrop
    | false =>
      have hτ : τ.isPlainStable = true := by simpa [hσ] using hsame
      rw [hσ, hτ, Bool.false_and, Bool.true_and] at hdrop
      exact (h.ofNormal_render_of_isPlainStable hsmall.symm hτ hσ hdrop.symm).symm

end HasReleaseChars

/-! ## What is left out -/

/-- **Texts with an alias**, which is left out of the version. The word `as` of an alias is written
in small letters. -/
def HasAlias (s : Text) : Prop := dropAlias (Text.strip s) ≠ Text.strip s

instance (s : Text) : Decidable (HasAlias s) :=
  inferInstanceAs (Decidable (dropAlias (Text.strip s) ≠ Text.strip s))

/-- The version in a text, without the blanks around it, its alias, its flag and its build data. -/
def bareVersion (s : Text) : Text := dropBuild (dropFlag (dropAlias (Text.strip s)))

theorem dropAlias_eq_of_ne {s : Text} (h : dropAlias s ≠ s) :
    dropAlias s = s.takeWhile isNameChar := by
  apply Decidable.byContradiction
  intro hname
  exact h (if_neg fun halias => hname (if_pos halias))

theorem ignoresCase_isNameChar : IgnoresCase isNameChar := .of_capitals (by decide)

theorem ignoresCase_isBuiltChar : IgnoresCase isBuiltChar := .of_capitals (by decide)

theorem isFlag_map_toLower (s : Text) : isFlag (s.map Char.toLower) = isFlag s := by
  simp only [isFlag, Text.dropKeyword?_map_toLower, Option.any_map]
  refine congrArg (flagKeywords.any ·) (funext fun k => ?_)
  exact congrArg ((Text.dropKeyword? k s).any ·) (funext Text.isFinal_map_toLower)

theorem dropFlag_map_toLower (s : Text) :
    dropFlag (s.map Char.toLower) = (dropFlag s).map Char.toLower := by
  induction s with
  | nil => rfl
  | cons c s ih =>
    simp only [List.map_cons, dropFlag, Text.toLower_eq_iff (d := '@') rfl, isFlag_map_toLower, ih]
    split
    · rfl
    · rfl

theorem dropBuild_map_toLower (s : Text) :
    dropBuild (s.map Char.toLower) = (dropBuild s).map Char.toLower := by
  have hdata : IgnoresCase fun c => !Text.isBlank c := Text.ignoresCase_isBlank.not
  simp only [dropBuild, ignoresCase_isBuiltChar.dropWhile_map,
    ignoresCase_isBuiltChar.takeWhile_map]
  cases s.dropWhile isBuiltChar with
  | nil => rfl
  | cons c r =>
    by_cases hc : c = '+'
    · subst hc
      rw [List.map_cons, show Char.toLower '+' = '+' from rfl]
      simp only [hdata.takeWhile_map, hdata.dropWhile_map, List.isEmpty_map,
        Text.isFinal_map_toLower]
      split
      · rfl
      · rfl
    · have hplus := mt (Text.toLower_eq_iff (d := '+') rfl c).1 hc
      simp [hc, hplus]

theorem sameLetters_bareVersion {s t : Text} (h : SameLetters s t)
    (halias : HasAlias s ↔ HasAlias t) : SameLetters (bareVersion s) (bareVersion t) := by
  have hstrip : SameLetters (Text.strip s) (Text.strip t) := by
    rw [SameLetters, ← Text.strip_map_toLower, h, Text.strip_map_toLower]
  -- Where the alias is left out the word in front of it is scanned, in which case is ignored.
  have hname : SameLetters (dropAlias (Text.strip s)) (dropAlias (Text.strip t)) := by
    by_cases hs : HasAlias s
    · rw [dropAlias_eq_of_ne hs, dropAlias_eq_of_ne (halias.1 hs), SameLetters,
        ← ignoresCase_isNameChar.takeWhile_map, hstrip, ignoresCase_isNameChar.takeWhile_map]
    · have hs' : dropAlias (Text.strip s) = Text.strip s := Decidable.not_not.1 hs
      have ht' : dropAlias (Text.strip t) = Text.strip t :=
        Decidable.not_not.1 fun ht => hs (halias.2 ht)
      rw [hs', ht']
      exact hstrip
  rw [SameLetters, bareVersion, bareVersion, ← dropBuild_map_toLower, ← dropFlag_map_toLower,
    hname, dropFlag_map_toLower, dropBuild_map_toLower]

/-! ## Texts that open with a number -/

/-- **Texts that open with a number**: an ASCII digit, behind an optional letter v. -/
def OpensNumber (s : Text) : Prop :=
  ∃ c r, c.isDigit = true ∧ (s = c :: r ∨ s = 'v' :: c :: r)

/-- The characters that such a text can open with, in either case. -/
def startsNumber (c : Char) : Bool := Text.isDecimal c || decide (c = 'v' ∨ c = 'V')

theorem ignoresCase_startsNumber : IgnoresCase startsNumber := .of_capitals (by decide)

theorem OpensNumber.exists_eq_cons {s : Text} (h : OpensNumber s) :
    ∃ c r, s = c :: r ∧ startsNumber c = true := by
  obtain ⟨c, r, hc, rfl | rfl⟩ := h
  · refine ⟨c, r, rfl, ?_⟩
    rw [startsNumber, Text.isDecimal_of_isDigit hc, Bool.true_or]
  · exact ⟨'v', c :: r, rfl, rfl⟩

/-- Texts with the same letters open alike. -/
theorem exists_eq_cons_of_sameLetters {c : Char} {r t : Text} (h : SameLetters (c :: r) t)
    (hc : startsNumber c = true) : ∃ d u, t = d :: u ∧ startsNumber d = true := by
  obtain ⟨d, u, rfl, hd, -⟩ := List.map_eq_cons_iff.1 (Eq.symm h)
  refine ⟨d, u, rfl, ?_⟩
  rw [← ignoresCase_startsNumber d, hd, ignoresCase_startsNumber, hc]

section Opening

variable {c : Char} (hc : startsNumber c = true)
include hc

theorem isDecimal_or_mem_of_startsNumber : Text.isDecimal c = true ∨ c ∈ Text.numberSigns := by
  rw [startsNumber, Bool.or_eq_true, decide_eq_true_eq] at hc
  rcases hc with hc | rfl | rfl
  · exact .inl hc
  · exact .inr (by decide)
  · exact .inr (by decide)

theorem opensVersion_of_startsNumber : opensVersion c = true := by
  rw [startsNumber, Bool.or_eq_true, decide_eq_true_eq] at hc
  rcases hc with hc | rfl | rfl
  · rw [opensVersion, hc, Bool.true_or]
  · rfl
  · rfl

theorem isBlank_eq_false_of_startsNumber : Text.isBlank c = false := by
  obtain ⟨hname, -⟩ := isNameChar_of_number (isDecimal_or_mem_of_startsNumber hc)
  simp only [isNameChar, Bool.and_eq_true, Bool.not_eq_true'] at hname
  exact hname.2

theorem foldLetter_not_mem_of_startsNumber : Text.foldLetter c ∉ branchLetters := by
  rw [startsNumber, Bool.or_eq_true, decide_eq_true_eq] at hc
  rcases hc with hc | rfl | rfl
  · exact foldLetter_not_mem_of_isDecimal hc rfl
  · decide
  · decide

/-- **What opens with a number** goes on so without blanks, alias and flag. -/
theorem exists_dropFlag_eq_cons (r : Text) :
    ∃ t, dropFlag (dropAlias (Text.strip (c :: r))) = c :: t := by
  obtain ⟨hname, hflag, -⟩ := isNameChar_of_number (isDecimal_or_mem_of_startsNumber hc)
  have hblank := isBlank_eq_false_of_startsNumber hc
  have hstrip := Text.strip_append_of_forall (h := [c]) (List.cons_ne_nil c [])
    (by simpa using hblank) r
  obtain ⟨t, ht⟩ := isPrefix_dropAlias_append (h := [c]) (by simpa using hname)
    (Text.dropEndWhile Text.isBlank r)
  rw [List.singleton_append] at hstrip
  rw [hstrip, ← ht, dropFlag_append_of_forall (by simpa using hflag)]
  exact ⟨dropFlag t, rfl⟩

/-- **Its normal form** is the shape of the version in it. -/
theorem normalize_eq_ok_iff {r n : Text} :
    normalize (c :: r) = .ok n ↔ numeric? (bareVersion (c :: r)) = some n := by
  obtain ⟨t, ht⟩ := exists_dropFlag_eq_cons hc r
  obtain ⟨hdefault, hbranch⟩ :=
    nameDefault_and_dropKeyword?_cons (foldLetter_not_mem_of_startsNumber hc) t
  simp only [normalize, bareVersion, ht, hdefault, hbranch]
  cases numeric? (dropBuild (c :: t)) with
  | some version => simp
  | none => simp

/-- **The version of a text** that opens with a number. -/
theorem parse_eq_ok_iff {r : Text} {v : Version} : Version.parse (c :: r) = .ok v ↔
    (numeric? (bareVersion (c :: r))).map Version.ofNormal = some (.ok v) := by
  rw [Option.map_eq_some_iff]
  constructor
  · intro hv
    obtain ⟨n, hn, hof⟩ := Except.exists_of_bind_eq_ok hv
    exact ⟨n, (normalize_eq_ok_iff hc).1 hn, Except.eq_ok_of_mapError hof⟩
  · rintro ⟨n, hn, hof⟩
    rw [Version.parse, (normalize_eq_ok_iff hc).2 hn, Except.ok_bind, hof]
    rfl

end Opening

/-! ## Reading -/

/-- **Whether the keyword of a version** is the word `stable` in small letters. -/
def namesStable (s : Text) : Bool := (numbered? (bareVersion s)).any (·.2.isPlainStable)

/-- **Whether a suffix is dropped** with the word `stable` in small letters in front of it. -/
def dropsSuffix (s : Text) : Bool :=
  (numbered? (bareVersion s)).any fun p => p.2.isPlainStable && p.2.saysMore

section CaseVariants

variable {c d : Char} {r u : Text} (hc : startsNumber c = true) (hd : startsNumber d = true)
  (h : SameLetters (c :: r) (d :: u)) (halias : HasAlias (c :: r) ↔ HasAlias (d :: u))
include hc hd h halias

/-- **One normal form** for case variants that open with a number. -/
theorem normalize_eq_ok_iff_of_sameLetters (hstable : namesStable (c :: r) = namesStable (d :: u))
    {n : Text} : normalize (c :: r) = .ok n ↔ normalize (d :: u) = .ok n := by
  have hnumeric := numeric?_map_eq (f := id) (sameLetters_bareVersion h halias)
    fun numbers σ τ hσ hτ hsmall => by
      have hsame : σ.isPlainStable = τ.isPlainStable := by
        simpa only [namesStable, hσ, hτ, Option.any_some] using hstable
      rw [Suffix.render_eq hsmall hsame]
  rw [Option.map_id_fun, id, id] at hnumeric
  rw [normalize_eq_ok_iff hc, normalize_eq_ok_iff hd, hnumeric]

/-- **One version** for case variants that open with a number. -/
theorem parse_eq_ok_iff_of_sameLetters (hdrop : dropsSuffix (c :: r) = dropsSuffix (d :: u))
    {v : Version} : Version.parse (c :: r) = .ok v ↔ Version.parse (d :: u) = .ok v := by
  have hnumeric := numeric?_map_eq (f := Version.ofNormal) (sameLetters_bareVersion h halias)
    fun numbers σ τ hσ hτ hsmall => by
      refine (hasReleaseChars_of_numbered? hσ).ofNormal_render_eq hsmall ?_
      simpa only [dropsSuffix, hσ, hτ, Option.any_some] using hdrop
  rw [parse_eq_ok_iff hc, parse_eq_ok_iff hd, hnumeric]

end CaseVariants

/-- The bound of a comparison depends on the normal form of its version only. -/
theorem comparisonBound_eq_ok_of_normalize {s t : Text}
    (h : ∀ n, normalize s = .ok n → normalize t = .ok n) {o : Operator} {b : Bound}
    (hb : comparisonBound o s = .ok b) : comparisonBound o t = .ok b := by
  obtain ⟨v, hv, -⟩ := Except.exists_of_bind_eq_ok hb
  obtain ⟨n, hn, -⟩ := Except.exists_of_bind_eq_ok (Except.eq_ok_of_mapError hv)
  have hsame : comparisonBound o t = comparisonBound o s := by
    simp only [comparisonBound, readVersion, Version.parse, hn, h n hn]
  rw [hsame, hb]

theorem word?_map_toLower (s : Text) :
    word? (s.map Char.toLower) = (word? s).map (List.map Char.toLower) := by
  have hletter : IgnoresCase fun c => !Text.isBlank c := Text.ignoresCase_isBlank.not
  simp only [word?, Text.ignoresCase_isBlank.dropWhile_map, hletter.takeWhile_map,
    hletter.dropWhile_map, List.isEmpty_map, Text.isFinal_map_toLower]
  split
  · rfl
  · rfl

/-- The word that a text is lacks the line feed at its end only. -/
theorem exists_eq_cons_of_word? {c : Char} {r word : Text} (hc : Text.isBlank c = false)
    (h : word? (c :: r) = some word) : ∃ t, word = c :: t ∧
      Text.strip (c :: t) = Text.strip (c :: r) ∧ ∀ d ∈ c :: t, Text.isBlank d = false := by
  have hfront : (c :: r).dropWhile Text.isBlank = c :: r :=
    (Text.scan_eq_of_head? (by rintro d ⟨⟩; exact hc)).2
  have hopen : (c :: r).takeWhile (fun c => !Text.isBlank c) =
      c :: r.takeWhile fun c => !Text.isBlank c := by
    rw [List.takeWhile_cons, hc]
    rfl
  simp only [word?, hfront] at h
  split at h
  · rename_i hword
    obtain rfl := Option.some.inj h
    refine ⟨_, hopen, ?_, fun d hd => ?_⟩
    -- Behind the word there is at most a line feed, which is stripped as a blank.
    · have hsplit := List.takeWhile_append_dropWhile (p := fun c => !Text.isBlank c) (l := c :: r)
      rw [hopen] at hsplit
      simp only [Bool.and_eq_true, Text.isFinal, Bool.or_eq_true, decide_eq_true_eq] at hword
      rcases hword.2 with hend | hend
      · rw [hend, List.append_nil] at hsplit
        rw [hsplit]
      · rw [hend] at hsplit
        rw [← hsplit, Text.strip_append_blank (by decide)]
    · rw [← hopen] at hd
      simpa using List.all_eq_true.1 List.all_takeWhile d hd
  · cases h

/-- What has no blank has no alias. -/
theorem not_hasAlias {s : Text} (h : ∀ c ∈ s, Text.isBlank c = false) : ¬ HasAlias s := by
  have hspace : Text.dropPrefix? [' '] (s.dropWhile isNameChar) = none := by
    rw [Option.eq_none_iff_forall_ne_some]
    intro r hr
    have hsplit := List.takeWhile_append_dropWhile (p := isNameChar) (l := s)
    rw [Text.dropPrefix?_eq_some_iff.1 hr] at hsplit
    have hblank := h ' ' (hsplit ▸ by simp)
    exact absurd hblank (by decide)
  rw [HasAlias, Text.strip_of_forall h, ne_eq, Decidable.not_not, dropAlias, hspace]
  rfl

/-- **A lower bound** is the comparison with the word behind its sign. -/
theorem parsePart_ge_eq_ok_iff {c : Char} {r : Text} {bs : List Bound}
    (hc : startsNumber c = true) : parsePart (">=".toList ++ c :: r) = .ok bs ↔
      ∃ word b, word? (c :: r) = some word ∧ comparisonBound .ge word = .ok b ∧ bs = [b] := by
  have hsign : (">=".toList, Operator.ge) ∈ signs := by decide
  have hcomparison := comparison?_append (isBlank_eq_false_of_startsNumber hc)
    (not_mem_signChars_of_opensVersion (opensVersion_of_startsNumber hc)) r hsign
  obtain ⟨d, t, hdt, hd, hwild⟩ := wildcardNumbers?_append_sign hsign (c :: r)
  simp only at hcomparison hdt
  rw [hdt] at hcomparison ⊢
  rw [parsePart_eq hd.not_mem_otherOpenings, hwild, hcomparison]
  cases word? (c :: r) with
  | none => simp
  | some word =>
    cases hbound : comparisonBound .ge word with
    | error e => simp [hbound, Functor.map, Except.map]
    | ok b => simp [hbound, Functor.map, Except.map, eq_comm]

/-- Texts with the same letters that open with a number have the same lower bound. -/
theorem parsePart_ge_of_sameLetters {c d : Char} {r u : Text} (hc : startsNumber c = true)
    (hd : startsNumber d = true) (h : SameLetters (c :: r) (d :: u))
    (hstable : namesStable (c :: r) = namesStable (d :: u)) {bs : List Bound}
    (hbs : parsePart (">=".toList ++ c :: r) = .ok bs) :
    parsePart (">=".toList ++ d :: u) = .ok bs := by
  obtain ⟨word, b, hword, hb, rfl⟩ := (parsePart_ge_eq_ok_iff hc).1 hbs
  have hwords : (word? (c :: r)).map (List.map Char.toLower) =
      (word? (d :: u)).map (List.map Char.toLower) := by
    rw [← word?_map_toLower, h, word?_map_toLower]
  rw [hword, Option.map_some] at hwords
  obtain ⟨word', hword', hletters⟩ := Option.map_eq_some_iff.1 hwords.symm
  obtain ⟨t, rfl, hstrip, hblank⟩ :=
    exists_eq_cons_of_word? (isBlank_eq_false_of_startsNumber hc) hword
  obtain ⟨t', rfl, hstrip', hblank'⟩ :=
    exists_eq_cons_of_word? (isBlank_eq_false_of_startsNumber hd) hword'
  -- A word has no blanks and so no alias: the words differ in the case of their keywords only.
  have hstable' : namesStable (c :: t) = namesStable (d :: t') := by
    simpa only [namesStable, bareVersion, hstrip, hstrip'] using hstable
  have hnormal := fun n => (normalize_eq_ok_iff_of_sameLetters (n := n) hc hd hletters.symm
    (iff_of_false (not_hasAlias hblank) (not_hasAlias hblank')) hstable').1
  exact (parsePart_ge_eq_ok_iff hd).2
    ⟨_, b, hword', comparisonBound_eq_ok_of_normalize hnormal hb, rfl⟩

/-- **Letter case does not matter** to a version that opens with a number, apart from two words that
are compared as they are written. Two texts that differ in the case of ASCII letters only name the
same version or none, given that both have an alias or neither has one, and that the keyword
`stable` in small letters drops something behind it in both of them or in neither. They give the
same lower bound or none, given that the keyword of both or of neither is `stable` in small
letters. -/
theorem parse_and_parsePart_of_sameLetters {v w : Text} (hv : OpensNumber v)
    (h : SameLetters v w) :
    ((HasAlias v ↔ HasAlias w) → dropsSuffix v = dropsSuffix w →
      ∀ x, Version.parse v = .ok x ↔ Version.parse w = .ok x) ∧
    (namesStable v = namesStable w →
      ∀ bs, parsePart (">=".toList ++ v) = .ok bs ↔ parsePart (">=".toList ++ w) = .ok bs) := by
  -- The letter v of the other text may be a capital, so that both texts have to be opened.
  obtain ⟨c, r, rfl, hc⟩ := hv.exists_eq_cons
  obtain ⟨d, u, rfl, hd⟩ := exists_eq_cons_of_sameLetters h hc
  constructor
  · intro halias hdrop x
    exact parse_eq_ok_iff_of_sameLetters hc hd h halias hdrop
  · intro hstable bs
    exact ⟨parsePart_ge_of_sameLetters hc hd h hstable,
      parsePart_ge_of_sameLetters hd hc h.symm hstable.symm⟩

/-- A prerelease in capitals is the version that it is in small letters. -/
theorem parse_and_parsePart_of_sameLetters_beta :
    OpensNumber "v1.2-beta.3".toList ∧ SameLetters "v1.2-beta.3".toList "V1.2-BETA.3".toList ∧
    Version.parse "V1.2-BETA.3".toList = .ok ⟨⟨[1, 2, 0, 0], Stability.beta.rank, [3]⟩, none⟩ ∧
    parsePart (">=".toList ++ "V1.2-BETA.3".toList) =
      .ok [⟨.ge, ⟨⟨[1, 2, 0, 0], Stability.beta.rank, [3]⟩, none⟩⟩] := by
  have hopens : OpensNumber "v1.2-beta.3".toList :=
    ⟨'1', ".2-beta.3".toList, rfl, .inr (by decide)⟩
  have hletters : SameLetters "v1.2-beta.3".toList "V1.2-BETA.3".toList := by decide
  have halias : HasAlias "v1.2-beta.3".toList ↔ HasAlias "V1.2-BETA.3".toList :=
    iff_of_false (by decide) (by decide)
  have hdrop : dropsSuffix "v1.2-beta.3".toList = dropsSuffix "V1.2-BETA.3".toList := by decide
  have hstable : namesStable "v1.2-beta.3".toList = namesStable "V1.2-BETA.3".toList := by decide
  obtain ⟨hparse, hbounds⟩ := parse_and_parsePart_of_sameLetters hopens hletters
  refine ⟨hopens, hletters, (hparse halias hdrop _).1 ?_, (hbounds hstable _).1 ?_⟩
  · rfl
  · rfl

/-- The word of an alias and the keyword of a stable version are compared as they are written. -/
theorem parse_and_parsePart_not_of_sameLetters :
    (OpensNumber "1.0 as 2.0".toList ∧ SameLetters "1.0 as 2.0".toList "1.0 AS 2.0".toList ∧
      Version.parse "1.0 as 2.0".toList = .ok ⟨⟨[1, 0, 0, 0], Stability.stable.rank, []⟩, none⟩ ∧
      Version.parse "1.0 AS 2.0".toList = .error (.invalid "1.0 AS 2.0".toList)) ∧
    (OpensNumber "1.0-stable2".toList ∧ SameLetters "1.0-stable2".toList "1.0-STABLE2".toList ∧
      Version.parse "1.0-stable2".toList = .ok ⟨⟨[1, 0, 0, 0], Stability.stable.rank, []⟩, none⟩ ∧
      Version.parse "1.0-STABLE2".toList =
        .ok ⟨⟨[1, 0, 0, 0], Stability.stable.rank, [2]⟩, none⟩) ∧
    (OpensNumber "1.0-stable".toList ∧ SameLetters "1.0-stable".toList "1.0-Stable".toList ∧
      parsePart (">=".toList ++ "1.0-stable".toList) =
        .ok [⟨.ge, ⟨⟨[1, 0, 0, 0], Stability.dev.rank, []⟩, none⟩⟩] ∧
      parsePart (">=".toList ++ "1.0-Stable".toList) =
        .ok [⟨.ge, ⟨⟨[1, 0, 0, 0], Stability.stable.rank, []⟩, none⟩⟩]) := by
  have halias : OpensNumber "1.0 as 2.0".toList :=
    ⟨'1', ".0 as 2.0".toList, rfl, .inl (by decide)⟩
  have hnumber : OpensNumber "1.0-stable2".toList :=
    ⟨'1', ".0-stable2".toList, rfl, .inl (by decide)⟩
  have hstable : OpensNumber "1.0-stable".toList :=
    ⟨'1', ".0-stable".toList, rfl, .inl (by decide)⟩
  refine ⟨⟨halias, by decide, ?_, ?_⟩, ⟨hnumber, by decide, ?_, ?_⟩, ⟨hstable, by decide, ?_, ?_⟩⟩
  · rfl
  · rfl
  · rfl
  · rfl
  · rfl
  · rfl

end AssetBridge.Target
