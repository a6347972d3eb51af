import AssetBridge.Proofs.Precedence
import AssetBridge.Tag

/-!
# Semver tags are versions

A tag made of a release, a prerelease and build data is converted into its release and a canonical
suffix, whatever the texts of the prerelease and the build data are. The target grammar reads a
canonical suffix, and the numbers it keeps are within the digit limit when those of the tag are, so
the tag is a version, and its release is the one it was written with.

## Main definitions

* `CanonicalSuffix.reading`, `CanonicalSuffix.rendered`: a canonical suffix in the target grammar
* `SemverTag`, `SemverTag.text`: tags with a release, a prerelease and build data
* `SemverTag.IsOrdinary`: the tags that the statement is about

## Main results

* `CanonicalSuffix.suffix?_text`: canonical suffixes are suffixes of the target grammar
* `CanonicalSuffix.exists_parse`: a release with a canonical suffix keeps its numbers
* `Target.normalize_letter`: a letter in front of a release does not matter
* `SemverTag.validateTag_text`: a semver tag is a tag, and a version of its release
-/

namespace AssetBridge

open Numeral (dotted digits maxDigits IsReadable)
open Text (RunsWithin)

/-! ## Canonical suffixes in the target grammar -/

namespace Target

/-- What a suffix says leaves the release as it is. -/
theorem release_of_applySuffix {p q : Place} {s : Text} (h : Version.applySuffix p s = .ok q) :
    q.release = p.release := by
  unfold Version.applySuffix at h
  split at h
  · rw [← Except.ok.inj h]
  · obtain ⟨numbers, -, h⟩ := Except.exists_of_bind_eq_ok h
    rw [← Except.ok.inj h]

theorem release_of_foldlM_applySuffix {l : List Text} {p q : Place}
    (h : l.foldlM Version.applySuffix p = .ok q) : q.release = p.release := by
  induction l generalizing p with
  | nil => rw [← Except.ok.inj h]
  | cons s l ih =>
    rw [List.foldlM_cons] at h
    obtain ⟨p', hp, h⟩ := Except.exists_of_bind_eq_ok h
    rw [ih h, release_of_applySuffix hp]

end Target

namespace Source

open Target (Suffix suffix? numberRun bareNumber)

/-- The keyword of a label is the one that the target grammar writes. -/
theorem Label.expandKeyword_text (label : Label) :
    Stability.expandKeyword label.text = label.text := by
  cases label <;> rfl

theorem Label.text_ne_stable (label : Label) : label.text ≠ Stability.stable.keyword := by
  cases label <;> decide

theorem Label.keyword?_append (label : Label) (r : Text) :
    Target.keyword? (label.text ++ r) = some (label.text, r) := by
  cases label <;> rfl

/-- The number of a suffix is one number of the target grammar. -/
theorem SuffixNumber.numberRun_text (N : SuffixNumber) : numberRun N.text = (N.text, []) := by
  have hd : ∀ e : Grammar.DigitRun, ∀ c ∈ e.digits, Text.isDecimal c = true := fun e c hc =>
    Text.isDecimal_of_isDigit (e.isDigit_of_mem c hc)
  cases N with
  | whole d => exact Target.numberRun_of_isDecimal (hd d)
  | fractional d e =>
    rw [text, Target.numberRun_isDecimal_append (hd d),
      Target.numberRun_point e.digits_ne_nil (hd e)]
  | fraction e => exact Target.numberRun_point e.digits_ne_nil (hd e)

namespace CanonicalSuffix

/-- What the target grammar reads in a canonical suffix. -/
def reading : CanonicalSuffix → Suffix
  | dev => ⟨none, true⟩
  | numbered label number => ⟨some (label.text, number.text), false⟩

/-- The canonical form of that, behind its hyphen: a fraction alone becomes a number. -/
def rendered : CanonicalSuffix → Text
  | dev => Stability.dev.keyword
  | numbered label number => label.text ++ bareNumber number.text

/-- **Canonical suffixes** are suffixes of the target grammar. -/
theorem suffix?_text (t : CanonicalSuffix) : suffix? ('-' :: t.text) = some t.reading := by
  cases t with
  | dev => rfl
  | numbered label number =>
    have hone : Target.dropOne ['.', '_', '-'] ('-' :: (label.text ++ number.text)) =
        label.text ++ number.text := rfl
    simp only [suffix?, text, hone, label.keyword?_append, number.numberRun_text]
    rfl

theorem render_reading (t : CanonicalSuffix) : t.reading.render = '-' :: t.rendered := by
  cases t with
  | dev => rfl
  | numbered label number =>
    simp only [Suffix.render, reading, rendered, label.text_ne_stable, if_false,
      label.expandKeyword_text, Target.devText, Bool.false_eq_true, List.append_nil,
      List.cons_append]

theorem isBuiltChar_of_mem (t : CanonicalSuffix) :
    ∀ c ∈ '-' :: t.text, Target.isBuiltChar c = true := by
  intro c hc
  have hchars : ∀ d ∈ suffixChars, Target.isBuiltChar d = true := List.all_iff_forall_prop.1 rfl
  rcases List.mem_cons.1 hc with rfl | hc
  · rfl
  · rcases t.isDigit_or_mem hc with hd | hd
    · exact Target.isBuiltChar_of_isDigit hd
    · exact hchars c hd

/-- The canonical form has no other runs of digits than the suffix. -/
theorem runsWithin_rendered {k : Nat} (t : CanonicalSuffix) (h : RunsWithin k t.text) :
    RunsWithin k t.rendered := by
  cases t with
  | dev => exact h
  | numbered label number =>
    have hnumber : bareNumber number.text <:+: label.text ++ number.text :=
      (List.dropWhile_suffix _).isInfix.trans (List.suffix_append _ _).isInfix
    exact RunsWithin.append_left label.isDecimal_eq_false (h.of_isInfix hnumber)

theorem hyphen_not_mem_rendered (t : CanonicalSuffix) : '-' ∉ t.rendered := by
  have ht : '-' ∉ t.text := t.not_mem_text rfl (by decide)
  cases t with
  | dev => exact ht
  | numbered label number =>
    rw [text, List.mem_append, not_or] at ht
    rw [rendered, List.mem_append, not_or]
    exact ⟨ht.1, fun hm => ht.2 ((List.dropWhile_suffix _).subset hm)⟩

section Reading

variable {ns : List Nat} (h : IsReadable ns) (t : CanonicalSuffix)

include h

theorem normalize_append : Target.normalize (dotted ns ++ '-' :: t.text) =
    .ok (dotted (Target.Version.padRelease ns) ++ '-' :: t.rendered) := by
  have hhead : ∀ c ∈ ('-' :: t.text).head?, Text.isDecimal c = false := by
    rintro c ⟨⟩
    rfl
  have hflag : '@' ∉ '-' :: t.text := by simpa using t.not_mem_text (c := '@') rfl (by decide)
  rw [← t.render_reading]
  exact Target.normalize_dotted_append h hhead rfl t.isBuiltChar_of_mem hflag t.suffix?_text

/-- **A release with a canonical suffix** is read as a version of that release. -/
theorem exists_parse (ht : RunsWithin maxDigits t.text) :
    ∃ u, Target.Version.parse (dotted ns ++ '-' :: t.text) = .ok u ∧
      u.place.release = Target.Version.padRelease ns ∧ u.branch = none := by
  have hpad := Target.Version.padRelease_isReadable h
  have hhyphen : ∀ w ∈ [t.rendered], '-' ∉ w := by
    intro w hw
    rw [List.mem_singleton.1 hw]
    exact t.hyphen_not_mem_rendered
  have hruns : ∀ w ∈ [t.rendered], RunsWithin maxDigits w := by
    intro w hw
    rw [List.mem_singleton.1 hw]
    exact t.runsWithin_rendered ht
  obtain ⟨q, hq⟩ := Target.exists_foldlM_applySuffix hruns
    ⟨Target.Version.padRelease ns, Stability.stable.rank, []⟩
  have hof := Target.Version.ofNormal_join hpad hhyphen
  rw [Target.Version.padRelease_padRelease h.length_le, hq, Text.join_cons] at hof
  have hlist : [t.rendered].flatMap (['-'] ++ ·) = '-' :: t.rendered := by simp
  rw [hlist] at hof
  refine ⟨⟨q, none⟩, ?_, Target.release_of_foldlM_applySuffix hq, rfl⟩
  rw [Target.Version.parse, t.normalize_append h]
  exact congrArg (Except.mapError Target.VersionError.numeral) hof

end Reading

end CanonicalSuffix

/-- A suffix is converted into a canonical one with no longer runs of digits. -/
theorem exists_targetSuffix_of_runsWithin {k : Nat} (hk : 1 ≤ k) {s : Text} (h : RunsWithin k s) :
    ∃ t : CanonicalSuffix, targetSuffix s = t.text ∧ RunsWithin k t.text := by
  obtain ⟨t, ht, hnumber⟩ := exists_targetSuffix s
  refine ⟨t, ht, ?_⟩
  cases t with
  | dev => exact RunsWithin.of_forall (List.all_iff_forall_prop.1 rfl)
  | numbered label N =>
    refine RunsWithin.append_left label.isDecimal_eq_false ?_
    rcases hnumber label N rfl with hN | hN
    · exact h.of_isInfix hN
    · rw [hN]
      exact RunsWithin.of_length_le hk

end Source

/-! ## A letter in front of a release -/

namespace Target

/-- The letter v in front of a classical version is dropped. -/
theorem normalize_letter {c : Char} {r n : Text} (hc : c.isDigit = true)
    (hb : ∀ d ∈ c :: r, isBuiltChar d = true) (hflag : '@' ∉ c :: r)
    (h : classical? (c :: r) = some n) : normalize ('v' :: c :: r) = normalize (c :: r) := by
  have hsmall : c ≠ 'v' := Text.ne_of_isDigit hc rfl
  have hcapital : c ≠ 'V' := Text.ne_of_isDigit hc rfl
  have hdrop : dropVersionLetter (c :: r) = c :: r := by simp [dropVersionLetter, hsmall, hcapital]
  have hletter : dropVersionLetter ('v' :: c :: r) = c :: r := rfl
  have hclassical : classical? ('v' :: c :: r) = some n := by
    simp only [classical?, hdrop] at h
    simp only [classical?, hletter, h]
  -- The letter opens neither a default branch nor the prefix of branch names.
  have hdefault : nameDefault ('v' :: c :: r) = 'v' :: c :: r := rfl
  have hbranch : Text.dropKeyword? branchPrefix ('v' :: c :: r) = none := rfl
  have hb' : ∀ d ∈ 'v' :: c :: r, isBuiltChar d = true := by
    intro d hd
    rcases List.mem_cons.1 hd with rfl | hd
    · rfl
    · exact hb d hd
  have hflag' : '@' ∉ 'v' :: c :: r := by
    rw [List.mem_cons, not_or]
    exact ⟨by decide, hflag⟩
  rw [normalize_of_isBuiltChar hdefault hbranch hb' hflag', normalize_of_isDigit hc hb hflag,
    numeric?, numeric?, hclassical, h]
  rfl

/-- **A release with a suffix** has the same normal form behind the letter v. -/
theorem normalize_letter_dotted_append {ns : List Nat} (h : IsReadable ns) {r : Text}
    (hr : ∀ c ∈ r.head?, Text.isDecimal c = false) (hp : pointNumber r = (none, r))
    (hb : ∀ d ∈ r, isBuiltChar d = true) (hflag : '@' ∉ r) {σ : Suffix} (hσ : suffix? r = some σ)
    {letter : Option Char} (hletter : ∀ c ∈ letter, c = 'v') :
    normalize (letter.toList ++ (dotted ns ++ r)) = normalize (dotted ns ++ r) := by
  cases letter with
  | none => rfl
  | some c =>
    obtain rfl := hletter c rfl
    have hclassical := classical?_dotted_append h hr hp hσ
    obtain ⟨c, s, hc, hd, hbuilt, hat⟩ := exists_dotted_append_eq_cons h hb hflag
    rw [hc] at hclassical ⊢
    exact normalize_letter hd hbuilt hat hclassical

end Target

/-! ## Semver tags -/

/-- A tag with a release, perhaps a prerelease and build data of any text, and perhaps a letter v in
front. -/
structure SemverTag where
  hasLetter : Bool
  release : Npm.Release
  prerelease : Option Text
  build : Option Text
deriving DecidableEq, Repr

namespace SemverTag

/-- The letter in front of the tag. -/
def letter (t : SemverTag) : Option Char := if t.hasLetter then some 'v' else none

/-- The three numbers of the release. -/
def numbers (t : SemverTag) : List Nat := [t.release.major, t.release.minor, t.release.patch]

/-- A section behind its sign, or nothing when there is none. -/
def signed (sign : Char) : Option Text → Text
  | none => []
  | some s => sign :: s

/-- What stands behind the release. -/
def suffix (t : SemverTag) : Text := signed '-' t.prerelease ++ signed '+' t.build

/-- **Writing** a tag. -/
def text (t : SemverTag) : Text := t.letter.toList ++ dotted t.numbers ++ t.suffix

/-- A section opens with a letter or digit, and goes on in letters, digits, hyphens and points. -/
structure IsSection (s : Text) : Prop where
  opens : s.head?.any (fun c => Text.isLetter c || c.isDigit) = true
  isSectionChar : ∀ c ∈ s, Npm.Version.isSectionChar c = true

/-- A tag whose first number has at most five digits and whose other runs of digits are within the
limit. No registry has marked it. -/
structure IsOrdinary (t : SemverTag) : Prop where
  major_lt : t.release.major < 100000
  isSection_prerelease : ∀ s ∈ t.prerelease, IsSection s
  isSection_build : ∀ s ∈ t.build, IsSection s
  runsWithin : RunsWithin maxDigits t.text
  markers : ∀ m ∈ Source.registryMarkers, Text.contains m t.text = false

theorem toNat_lt_of_isSectionChar {c : Char} (h : Npm.Version.isSectionChar c = true) :
    c.toNat < 0x80 := by
  simp only [Npm.Version.isSectionChar, Bool.or_eq_true, decide_eq_true_eq] at h
  rcases h with (h | rfl) | rfl
  · exact Text.toNat_lt_of_isAlphanum h
  all_goals decide

/-- A section behind its sign is a suffix that converting looks at. -/
theorem opensSuffix_append {sign : Char} (hsign : sign = '-' ∨ sign = '+') {s : Text}
    (hs : IsSection s) (r : Text) : Source.opensSuffix (sign :: s ++ r) = true := by
  have hopens := hs.opens
  cases s with
  | nil => cases hopens
  | cons c s =>
    have hc : (Text.isLetter c || c.isDigit) = true := hopens
    simp only [Source.opensSuffix, List.cons_append, List.head?_cons, Option.any_some, hc,
      Bool.and_true, Bool.or_eq_true, decide_eq_true_eq]
    exact .inr hsign

theorem mem_signed {sign c : Char} {section? : Option Text} (hc : c ∈ signed sign section?) :
    c = sign ∨ ∃ s ∈ section?, c ∈ s := by
  cases section? with
  | none => cases hc
  | some s =>
    rcases List.mem_cons.1 hc with rfl | hc
    · exact .inl rfl
    · exact .inr ⟨s, rfl, hc⟩

theorem letter_eq (t : SemverTag) : ∀ c ∈ t.letter, c = 'v' := by
  intro c hc
  unfold letter at hc
  split at hc
  · exact (Option.some.inj hc).symm
  · cases hc

theorem isInfix_dotted_numbers (t : SemverTag) :
    ∀ n ∈ t.numbers, digits n <:+: dotted t.numbers := by
  intro n hn
  have hd : dotted t.numbers = digits t.release.major ++ '.' :: (digits t.release.minor ++
      '.' :: digits t.release.patch) := by
    simp [numbers, Numeral.dotted_cons, Numeral.points_cons]
  rw [hd]
  simp only [numbers, List.mem_cons, List.not_mem_nil, or_false] at hn
  rcases hn with rfl | rfl | rfl
  · exact (List.prefix_append _ _).isInfix
  · exact ⟨digits t.release.major ++ ['.'], '.' :: digits t.release.patch, by simp⟩
  · exact ⟨digits t.release.major ++ '.' :: (digits t.release.minor ++ ['.']), [], by simp⟩

/-- A tag is no default branch. -/
theorem isOneOf_defaultBranches (t : SemverTag) :
    Text.isOneOf Target.defaultBranches t.text = false := by
  obtain ⟨c, r, hc, hd⟩ := Numeral.exists_dotted_eq_cons t.release.major
    [t.release.minor, t.release.patch]
  have hnumbers : dotted t.numbers = c :: r := hc
  rw [text, hnumbers, List.append_assoc]
  cases hletter : t.letter with
  | none => exact Target.isOneOf_defaultBranches_of_isDigit hd _
  | some d =>
    obtain rfl := t.letter_eq d hletter
    rfl

namespace IsOrdinary

variable {t : SemverTag} (h : t.IsOrdinary)

include h

theorem isReadable_numbers : IsReadable t.numbers := by
  refine ⟨by simp [numbers], by simp [numbers], ?_, ?_⟩
  · rintro n ⟨⟩
    exact h.major_lt
  · intro n hn
    have hpiece : dotted t.numbers <:+: t.text := ⟨t.letter.toList, t.suffix, rfl⟩
    exact h.runsWithin _ ((t.isInfix_dotted_numbers n hn).trans hpiece) fun _ =>
      Numeral.isDecimal_of_mem_digits

theorem isSectionChar_or_eq {c : Char} (hc : c ∈ t.suffix) :
    Npm.Version.isSectionChar c = true ∨ c = '+' := by
  rcases List.mem_append.1 hc with hc | hc
  · rcases mem_signed hc with rfl | ⟨s, hs, hc⟩
    · exact .inl rfl
    · exact .inl ((h.isSection_prerelease s hs).isSectionChar c hc)
  · rcases mem_signed hc with rfl | ⟨s, hs, hc⟩
    · exact .inr rfl
    · exact .inl ((h.isSection_build s hs).isSectionChar c hc)

theorem toNat_lt_of_mem_suffix : ∀ c ∈ t.suffix, c.toNat < 0x80 := by
  intro c hc
  rcases h.isSectionChar_or_eq hc with hc | rfl
  · exact toNat_lt_of_isSectionChar hc
  · decide

/-- What stands behind the release is nothing, or a suffix that converting looks at. -/
theorem suffix_eq_nil_or : t.suffix = [] ∨ Source.opensSuffix t.suffix = true := by
  unfold suffix
  cases hp : t.prerelease with
  | some p => exact .inr (opensSuffix_append (.inl rfl) (h.isSection_prerelease p hp) _)
  | none =>
    cases hb : t.build with
    | none => exact .inl rfl
    | some b =>
      have ho := opensSuffix_append (.inr rfl) (h.isSection_build b hb) []
      rw [List.append_nil] at ho
      exact .inr ho

/-- **Converting a semver tag** keeps its numbers, and puts nothing or a canonical suffix behind
them. -/
theorem convertVersion_text :
    Source.convertVersion t.text = .ok (t.letter.toList ++ dotted t.numbers) ∨
      ∃ σ : Source.CanonicalSuffix, RunsWithin maxDigits σ.text ∧
        Source.convertVersion t.text =
          .ok (t.letter.toList ++ (dotted t.numbers ++ '-' :: σ.text)) := by
  have hletter : ∀ c ∈ t.letter, Text.isSmall c = true := by
    intro c hc
    rw [t.letter_eq c hc]
    rfl
  have hlen : [t.release.minor, t.release.patch].length ≤ 2 := Nat.le_refl 2
  rcases h.suffix_eq_nil_or with hs | ho
  · left
    have hplain := Source.Stem.convertVersion_numbers t.letter hletter h.major_lt hlen
    rw [text, hs, List.append_nil]
    exact hplain
  · right
    have hdash : '–' ∉ t.suffix := fun hm => by
      have := h.toNat_lt_of_mem_suffix _ hm
      exact absurd this (by decide)
    have hmarkers : ∀ m ∈ Source.registryMarkers,
        Text.contains m (dotted t.numbers ++ t.suffix) = false := by
      intro m hm
      refine Text.contains_eq_false_of_isInfix (h.markers m hm) ?_
      rw [text, List.append_assoc]
      exact (List.suffix_append _ _).isInfix
    have hconvert := Source.Stem.convertVersion_numbers_append t.letter hletter h.major_lt hlen ho
      hdash hmarkers
    -- The suffix in small letters has the runs of the tag.
    have hlower : ∀ b, RunsWithin maxDigits
        (Source.dropSuffixSign (Text.lowerAfter b t.suffix)) := by
      intro b
      have hruns : RunsWithin maxDigits t.suffix :=
        h.runsWithin.of_isInfix (List.suffix_append _ _).isInfix
      rw [Text.lowerAfter_of_ascii h.toNat_lt_of_mem_suffix]
      exact (hruns.map Text.isDecimal_toLower).of_isInfix (Source.dropSuffixSign_isSuffix _).isInfix
    obtain ⟨σ, hσ, hruns⟩ := Source.exists_targetSuffix_of_runsWithin (by decide) (hlower _)
    rw [hσ] at hconvert
    refine ⟨σ, hruns, ?_⟩
    rw [← List.append_assoc]
    exact hconvert

/-- The normal form and the version of a release with a suffix, behind the letter of the tag. -/
theorem exists_of_append {r : Text} {σ : Target.Suffix}
    (hr : ∀ c ∈ r.head?, Text.isDecimal c = false) (hp : Target.pointNumber r = (none, r))
    (hb : ∀ d ∈ r, Target.isBuiltChar d = true) (hflag : '@' ∉ r)
    (hσ : Target.suffix? r = some σ) {u : Target.Version}
    (hu : Target.Version.parse (dotted t.numbers ++ r) = .ok u) :
    (∃ n, Target.normalize (t.letter.toList ++ (dotted t.numbers ++ r)) = .ok n) ∧
      Target.Version.parse (t.letter.toList ++ (dotted t.numbers ++ r)) = .ok u := by
  have hsame := Target.normalize_letter_dotted_append h.isReadable_numbers hr hp hb hflag hσ
    t.letter_eq
  have hnormal := Target.normalize_dotted_append h.isReadable_numbers hr hp hb hflag hσ
  refine ⟨⟨_, hsame.trans hnormal⟩, ?_⟩
  rw [Target.Version.parse, hsame]
  exact hu

/-- **A semver tag is a version of its release**: it is no default branch and its conversion has a
normal form, and what is read there has the numbers of the tag and is no branch. -/
theorem validateTag_text :
    ∃ n c u, validateTag t.text = .ok (some n) ∧ Source.convertVersion t.text = .ok c ∧
      Target.Version.parse c = .ok u ∧
      u.place.release = [t.release.major, t.release.minor, t.release.patch, 0] ∧
      u.branch = none := by
  suffices hs : ∃ c, Source.convertVersion t.text = .ok c ∧ (∃ n, Target.normalize c = .ok n) ∧
      ∃ u, Target.Version.parse c = .ok u ∧
        u.place.release = Target.Version.padRelease t.numbers ∧ u.branch = none by
    obtain ⟨c, hc, ⟨n, hn⟩, u, hu, hrelease, hbranch⟩ := hs
    refine ⟨n, c, u, ?_, hc, hu, hrelease, hbranch⟩
    rw [validateTag, t.isOneOf_defaultBranches, hc]
    show Except.ok (Target.normalize c).toOption = _
    rw [hn]
    rfl
  rcases h.convertVersion_text with hplain | ⟨σ, hruns, hsuffix⟩
  · -- nothing is behind the release
    have hu := Target.Version.parse_dotted h.isReadable_numbers
    have hend : Target.suffix? [] = some ⟨none, false⟩ := rfl
    rw [← List.append_nil (dotted t.numbers)] at hplain hu
    obtain ⟨hn, hv⟩ := h.exists_of_append (by simp) rfl (by simp) (by simp) hend hu
    exact ⟨_, hplain, hn, _, hv, rfl, rfl⟩
  · obtain ⟨u, hu, hrelease, hbranch⟩ := σ.exists_parse h.isReadable_numbers hruns
    have hflag : '@' ∉ '-' :: σ.text := by simpa using σ.not_mem_text (c := '@') rfl (by decide)
    have hhead : ∀ c ∈ ('-' :: σ.text).head?, Text.isDecimal c = false := by
      rintro c ⟨⟩
      rfl
    obtain ⟨hn, hv⟩ := h.exists_of_append hhead rfl σ.isBuiltChar_of_mem hflag σ.suffix?_text hu
    exact ⟨_, hsuffix, hn, u, hv, hrelease, hbranch⟩

end IsOrdinary

/-- A release candidate with build data, behind a letter. -/
theorem validateTag_text_candidate :
    ∃ n c u, validateTag "v1.2.3-rc.1+build.5".toList = .ok (some n) ∧
      Source.convertVersion "v1.2.3-rc.1+build.5".toList = .ok c ∧
      Target.Version.parse c = .ok u ∧ u.place.release = [1, 2, 3, 0] ∧ u.branch = none := by
  let t : SemverTag := ⟨true, ⟨1, 2, 3⟩, some "rc.1".toList, some "build.5".toList⟩
  have hprerelease : ∀ s ∈ t.prerelease, IsSection s := by
    rintro s ⟨⟩
    exact ⟨rfl, List.all_iff_forall_prop.1 rfl⟩
  have hbuild : ∀ s ∈ t.build, IsSection s := by
    rintro s ⟨⟩
    exact ⟨rfl, List.all_iff_forall_prop.1 rfl⟩
  have hmajor : t.release.major < 100000 := by decide
  have hlen : t.text.length ≤ maxDigits := by decide
  have hmarkers : ∀ m ∈ Source.registryMarkers, Text.contains m t.text = false := by decide
  have h : t.IsOrdinary :=
    ⟨hmajor, hprerelease, hbuild, RunsWithin.of_length_le hlen, hmarkers⟩
  have htext : "v1.2.3-rc.1+build.5".toList = t.text := by decide
  rw [htext]
  exact h.validateTag_text

end SemverTag

end AssetBridge
