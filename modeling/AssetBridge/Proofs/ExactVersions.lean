import AssetBridge.Agreement
import AssetBridge.Proofs.Equalities
import AssetBridge.Proofs.Exactness
import AssetBridge.Proofs.Precedence
import AssetBridge.Proofs.Words

/-!
# A version as a range

A version of the npm dialect is a range that lets the version itself through. The constraint for it
is made of the converted version, while the version that is held against it is read as it stands.
Both have the same stage, but a stage without a number is numbered by the conversion only.

## Main definitions

* `Npm.Identifier.IsReadable`, `Npm.Version.IsReadable`: what is read back from its text
* `Npm.Labelled`: a release, a numbered prerelease of one, or one that names its stage only

## Main results

* `exists_constraintFor_word`: a word as a range
* `Npm.Version.parse_text_of_isReadable`: a version is read back from its text
* `Npm.Range.matchesText_self`: as a range it lets itself through
* `Target.Version.parse_stageName`, `Source.convertVersion_stageName`: a stage without a number
* `checkRange_self`: the check of a version against itself
-/

namespace AssetBridge

open Numeral (dotted digits maxDigits)

/-! ## Words as ranges -/

/-- What a range is converted into is parsed as a constraint. -/
theorem constraintFor_eq {range converted : Text} {c : Target.Constraint}
    (hrange : Source.convertRange range = .ok converted)
    (hc : Target.Constraint.parse converted = .ok c) : constraintFor range = .ok c := by
  rw [constraintFor, hrange]
  show (Target.Constraint.parse converted).mapError Agreement.Error.constraint = _
  rw [hc]
  rfl

/-- No sign cuts a constraint where no reserved character stands. -/
theorem isPartSeparator_eq_false {c : Char} (h : Text.isReserved c = false) :
    Target.Constraint.isPartSeparator c = false := by
  rw [Bool.eq_false_iff]
  intro hsep
  simp only [Target.Constraint.isPartSeparator, Bool.or_eq_true, decide_eq_true_eq] at hsep
  have hreserved : Text.isReserved c = true := by
    rcases hsep with rfl | hblank
    · rfl
    · exact Text.isReserved_of_isBlank hblank
  rw [h] at hreserved
  cases hreserved

/-- **A converted word** that is a version asks for that version. -/
theorem parse_convertVersion {s a : Text} (hs : Text.IsWord s)
    (ha : Source.convertVersion s = .ok a) {w : Target.Version}
    (hw : Target.Version.parse a = .ok w) :
    Target.Constraint.parse a = .ok ⟨a, [[⟨.eq, w⟩]]⟩ := by
  have hlatest : s ≠ Source.latest := by
    rintro rfl
    obtain rfl := Except.ok.inj ha
    cases hw
  have hword := Source.isReserved_eq_false_of_convertVersion hs hlatest ha
  refine Target.Constraint.parse_version (fun c hc => isPartSeparator_eq_false (hword c hc)) ?_ hw
  intro hbar
  exact absurd (hword _ hbar) (by decide)

/-- **A word that is no lone number** asks for the version that it is converted into, and meets that
when it names the very version. -/
theorem exists_constraintFor_word {s a : Text} (hs : Text.IsWord s)
    (hlone : Source.Pending.isLoneMajor (Source.spelled s) 0 none = false) {v w : Target.Version}
    (hv : Target.Version.parse s = .ok v)
    (ha : Source.convertVersion (Source.spelled s) = .ok a)
    (hw : Target.Version.parse a = .ok w) :
    ∃ c, constraintFor s = .ok c ∧ c.source = a ∧ c.matchesText s = .ok (decide (v = w)) := by
  have hrange := Source.convertRange_of_isWord hs
  rw [if_neg (by simp [hlone]), ha] at hrange
  refine ⟨_, constraintFor_eq hrange (parse_convertVersion (Source.isWord_spelled hs) ha hw), rfl,
    ?_⟩
  rw [Target.Constraint.matchesText_of_parse _ hv]
  have hmatches := Target.Bound.matches_eq hv hw
  simp [Target.Constraint.accepts, hmatches]

namespace Npm

/-! ## Versions that are read back -/

/-- An identifier that is read back from its text. -/
structure Identifier.IsReadable (i : Identifier) : Prop where
  text_ne_nil : i.text ≠ []
  isSectionChar_of_mem : ∀ c ∈ i.text, Version.isSectionChar c = true ∧ c ≠ '.'
  parse?_text : Identifier.parse? i.text = some i

/-- A version without build data whose numbers and identifiers can be read. -/
structure Version.IsReadable (v : Version) : Prop where
  release : v.release.IsReadable
  prerelease : ∀ i ∈ v.prerelease, i.IsReadable
  build_eq_nil : v.build = []

theorem Version.isSectionChar_of_isDigit {c : Char} (h : c.isDigit = true) :
    isSectionChar c = true := by
  simp [isSectionChar, Char.isAlphanum, h]

/-- Numbers are identifiers. -/
theorem Identifier.isReadable_number {n : Nat} (h : (digits n).length ≤ maxDigits) :
    (number n).IsReadable where
  text_ne_nil := Numeral.digits_ne_nil n
  isSectionChar_of_mem c hc := by
    have hd : c.isDigit = true := Numeral.isDigit_of_mem_digits hc
    exact ⟨Version.isSectionChar_of_isDigit hd, Text.ne_of_isDigit hd rfl⟩
  parse?_text := by
    have hempty : (digits n).isEmpty = false := by simpa using Numeral.digits_ne_nil n
    have hdecimal : (digits n).all Text.isDecimal = true :=
      List.all_eq_true.2 fun c hc => Text.isDecimal_of_isDigit (Numeral.isDigit_of_mem_digits hc)
    rw [text, parse?, hempty, hdecimal, if_neg (not_leading_zero n),
      Numeral.read_digits_of_length_le h]
    rfl

theorem Identifier.isReadable_name (s : Stage) : (name s.name).IsReadable := by
  cases s <;> exact ⟨by decide, List.all_iff_forall_prop.1 rfl, rfl⟩

section Prerelease

variable {ids : List Identifier} (h : ∀ i ∈ ids, i.IsReadable)
include h

theorem isSectionChar_of_mem_join {c : Char}
    (hc : c ∈ Text.join ['.'] (ids.map Identifier.text)) : Version.isSectionChar c = true := by
  rcases Text.mem_join hc with hc | ⟨t, ht, hc⟩
  · obtain rfl := List.mem_singleton.1 hc
    rfl
  · obtain ⟨i, hi, rfl⟩ := List.mem_map.1 ht
    exact ((h i hi).isSectionChar_of_mem c hc).1

theorem isSectionChar_of_mem_signed {c : Char}
    (hc : c ∈ Version.signed '-' (ids.map Identifier.text)) : Version.isSectionChar c = true := by
  rw [Version.signed] at hc
  split at hc
  · cases hc
  · rcases List.mem_cons.1 hc with rfl | hc
    · rfl
    · exact isSectionChar_of_mem_join h hc

/-- The points separate the identifiers again. -/
theorem fields_join_text (hne : ids ≠ []) :
    Text.fields '.' (Text.join ['.'] (ids.map Identifier.text)) = ids.map Identifier.text := by
  obtain ⟨i, l, rfl⟩ := List.exists_cons_of_ne_nil hne
  rw [List.map_cons]
  refine Text.fields_join fun t ht hm => ?_
  rw [← List.map_cons, List.mem_map] at ht
  obtain ⟨j, hj, rfl⟩ := ht
  exact ((h j hj).isSectionChar_of_mem '.' hm).2 rfl

theorem join_text_ne_nil (hne : ids ≠ []) : Text.join ['.'] (ids.map Identifier.text) ≠ [] := by
  obtain ⟨i, l, rfl⟩ := List.exists_cons_of_ne_nil hne
  simp [Text.join_cons, (h i List.mem_cons_self).text_ne_nil]

/-- **The identifiers of a prerelease** are those between the points behind the hyphen. -/
theorem Version.identifiers?_signed :
    identifiers? '-' (signed '-' (ids.map Identifier.text)) =
      some (ids.map Identifier.text, []) := by
  by_cases hne : ids = []
  · subst hne
    rfl
  have hsigned : signed '-' (ids.map Identifier.text) =
      ['-'] ++ Text.join ['.'] (ids.map Identifier.text) := by
    simp [signed, hne]
  obtain ⟨htake, hdrop⟩ := Text.scan_eq_of_forall fun c => isSectionChar_of_mem_join h (c := c)
  have hany : (ids.map Identifier.text).any List.isEmpty = false := by
    rw [List.any_eq_false]
    intro t ht
    obtain ⟨i, hi, rfl⟩ := List.mem_map.1 ht
    simpa using (h i hi).text_ne_nil
  simp only [identifiers?, hsigned, Text.dropPrefix?_append, htake, hdrop, fields_join_text h hne,
    hany, Bool.false_eq_true, if_false]

/-- A block keeps them as one text. -/
theorem Block.suffix_signed : suffix '-' (Version.signed '-' (ids.map Identifier.text)) =
    (Text.join ['.'] (ids.map Identifier.text), []) := by
  obtain ⟨htake, hdrop⟩ := Text.scan_eq_of_forall fun c => isSectionChar_of_mem_join h (c := c)
  cases ids with
  | nil => rfl
  | cons i l =>
    show (_, _) = _
    rw [htake, hdrop]

theorem Block.identifiers_join : identifiers (Text.join ['.'] (ids.map Identifier.text)) =
    ids.map Identifier.text := by
  by_cases hne : ids = []
  · subst hne
    rfl
  · rw [identifiers, if_neg (by simpa using join_text_ne_nil h hne), fields_join_text h hne]

/-- Each identifier is read back. -/
theorem mapM_parse?_text : (ids.map Identifier.text).mapM Identifier.parse? = some ids := by
  induction ids with
  | nil => rfl
  | cons i l ih =>
    rw [List.map_cons, List.mapM_cons, (h i List.mem_cons_self).parse?_text,
      ih fun j hj => h j (List.mem_cons_of_mem i hj)]
    rfl

end Prerelease

theorem head?_signed (sign : Char) (identifiers : List Text) :
    ∀ c ∈ (Version.signed sign identifiers).head?, c = sign := by
  intro c hc
  rw [Version.signed] at hc
  split at hc
  · cases hc
  · exact (Option.some.inj hc).symm

/-- A text that opens with a digit has no operator. -/
theorem Block.split_text_append (r : Release) (s : Text) :
    Sign.split (r.text ++ s) = (.eq, r.text ++ s) := by
  obtain ⟨c, t, hc, hd⟩ := Numeral.exists_dotted_eq_cons r.major [r.minor, r.patch]
  have hs : c ≠ '<' ∧ c ≠ '>' ∧ c ≠ '=' ∧ c ≠ '^' ∧ c ≠ '~' :=
    ⟨Text.ne_of_isDigit hd rfl, Text.ne_of_isDigit hd rfl, Text.ne_of_isDigit hd rfl,
      Text.ne_of_isDigit hd rfl, Text.ne_of_isDigit hd rfl⟩
  rw [Release.text, hc, List.cons_append]
  simp [Sign.split, hs.1, hs.2.1, hs.2.2.1, hs.2.2.2.1, hs.2.2.2.2]

variable {v : Version} (h : v.IsReadable)
include h

namespace Version

theorem IsReadable.text_eq :
    v.text = v.release.text ++ signed '-' (v.prerelease.map Identifier.text) := by
  have hbuild : signed '+' v.build = [] := by
    rw [h.build_eq_nil]
    rfl
  rw [text, hbuild, List.append_nil, Release.text_append]
  simp

theorem IsReadable.isSectionChar_of_mem {c : Char} (hc : c ∈ v.text) : isSectionChar c = true := by
  rw [h.text_eq] at hc
  rcases List.mem_append.1 hc with hc | hc
  · rcases Numeral.isDigit_or_eq_of_mem_dotted hc with hd | rfl
    · exact isSectionChar_of_isDigit hd
    · rfl
  · exact isSectionChar_of_mem_signed h.prerelease hc

/-- None of these characters is reserved in ranges. -/
theorem IsReadable.isWord_text : Text.IsWord v.text where
  ne_nil := by
    rw [h.text_eq, Release.text_append]
    simp [Numeral.digits_ne_nil]
  isReserved_eq_false c hc := by
    have hsection := h.isSectionChar_of_mem hc
    have hlt : c.toNat < 0x80 := by
      simp only [isSectionChar, Bool.or_eq_true, decide_eq_true_eq] at hsection
      rcases hsection with (hc | rfl) | rfl
      · exact Text.toNat_lt_of_isAlphanum hc
      all_goals decide
    have hascii : ∀ n < 0x80, isSectionChar (Char.ofNat n) = true →
        Text.isReserved (Char.ofNat n) = false := by
      decide
    exact Text.of_toNat_lt (P := fun c => isSectionChar c = true → Text.isReserved c = false) hascii
      hlt hsection

/-- **A version** is read back from its text. -/
theorem parse_text_of_isReadable : parse v.text = .ok v := by
  have hhead : ∀ c ∈ (signed '-' (v.prerelease.map Identifier.text)).head?,
      Text.isDecimal c = false := by
    intro c hc
    rw [head?_signed _ _ c hc]
    rfl
  have hp : parse? v.text = some v := by
    rw [parse?, h.text_eq, trimPrefix_text_append, release?_text_append h.release hhead]
    show (identifiers? '-' _ >>= _) = _
    rw [identifiers?_signed h.prerelease]
    show ((v.prerelease.map Identifier.text).mapM Identifier.parse? >>= _) = _
    rw [mapM_parse?_text h.prerelease]
    show some (Version.mk v.release v.prerelease []) = _
    rw [← h.build_eq_nil]
  rw [parse, hp]
  rfl

end Version

/-! ## The range -/

namespace Block

/-- **The block** that a version is: no operator, three numbers and the prerelease. -/
theorem scan?_version : scan? v.text =
    some { sign := .eq, major := some (digits v.release.major)
           minor := some (digits v.release.minor), patch := some (digits v.release.patch)
           prerelease := Text.join ['.'] (v.prerelease.map Identifier.text) } := by
  have hhead : ∀ c ∈ (Version.signed '-' (v.prerelease.map Identifier.text)).head?,
      c.isDigit = false := by
    intro c hc
    rw [head?_signed _ _ c hc]
    rfl
  rw [scan?, h.text_eq, Version.trimPrefix_text_append, split_text_append, Release.text_append]
  show (component? _ >>= _) = _
  rw [component?_digits_point]
  show (component? _ >>= _) = _
  rw [component?_digits_point]
  show (component? _ >>= _) = _
  rw [component?_digits _ hhead]
  dsimp only [Option.bind_eq_bind, Option.bind_some]
  rw [suffix_signed h.prerelease]
  rfl

/-- **The bounds** of that block: the version itself. -/
theorem bounds?_version : (scan? v.text).bind bounds? = some [⟨.eq, v, false⟩] := by
  have hnumber : ∀ n ∈ [v.release.major, v.release.minor, v.release.patch],
      (some (digits n)).mapM number? = some (some n) := fun n hn =>
    Grammar.mapM_number?_digits (h.release n hn)
  rw [scan?_version h, Option.bind_some, bounds?]
  show ((some (digits v.release.major)).mapM number? >>= _) = _
  rw [hnumber _ List.mem_cons_self]
  show ((some (digits v.release.minor)).mapM number? >>= _) = _
  rw [hnumber _ (by simp)]
  show ((some (digits v.release.patch)).mapM number? >>= _) = _
  rw [hnumber _ (by simp)]
  show ((identifiers (Text.join ['.'] (v.prerelease.map Identifier.text))).mapM
    Identifier.parse? >>= _) = _
  rw [identifiers_join h.prerelease, mapM_parse?_text h.prerelease]
  show some [Bound.mk .eq (Version.mk v.release v.prerelease []) false] = _
  rw [← h.build_eq_nil]

end Block

/-- **A version as a range**: one alternative with the version as its only bound. -/
theorem Range.parse_version :
    Range.parse v.text = .ok [Alternative.ofBounds [⟨.eq, v, false⟩]] := by
  have hword := h.isWord_text
  have hpieces : Text.pieces "||".toList v.text = [v.text] :=
    Text.pieces_eq_singleton (hword.not_mem (by decide))
  have hstrip := Text.strip_of_forall hword.isBlank_eq_false
  have hempty : v.text.isEmpty = false := by simpa using hword.ne_nil
  have hhyphen : Text.contains Alternative.hyphen v.text = false :=
    Text.contains_eq_false (c := ' ') (by decide) (hword.not_mem (by decide))
  have hfields : Text.fields ' ' v.text = [v.text] :=
    Text.fields_eq_singleton (hword.not_mem (by decide))
  have hblock : Alternative.blockBounds v.text v.text = .ok [⟨.eq, v, false⟩] := by
    rw [Alternative.blockBounds, Block.bounds?_version h]
    rfl
  have hbounds : Alternative.readBounds v.text v.text = .ok [⟨.eq, v, false⟩] := by
    rw [Alternative.readBounds, hhyphen, hfields]
    show List.flatten <$> [v.text].mapM (Alternative.blockBounds v.text) = _
    rw [List.mapM_cons, hblock]
    rfl
  have halternative : Alternative.parse v.text v.text =
      .ok (Alternative.ofBounds [⟨.eq, v, false⟩]) := by
    rw [Alternative.parse, hstrip, hempty]
    show Alternative.ofBounds <$> Alternative.readBounds v.text v.text = _
    rw [hbounds]
    rfl
  rw [Range.parse, hpieces, List.mapM_cons, halternative]
  rfl

omit h in
/-- A demand for a version without build data is met by the version. -/
theorem Alternative.accepts_self (hb : v.build = []) :
    (ofBounds [⟨.eq, v, false⟩]).accepts v = true := by
  have hview : Bound.view ⟨.eq, v, false⟩ v = v := by
    cases v
    obtain rfl := hb
    rfl
  have hmatches : Bound.matches ⟨.eq, v, false⟩ v = true := by
    simp [Bound.matches, Bound.admits, hview, Comparison.holds]
  cases hp : namesPrerelease ⟨.eq, v, false⟩ with
  | true => simp [accepts, ofBounds, hp, Bound.fence, hmatches]
  | false => simp [accepts, ofBounds, hp, hmatches]

/-- **A version lets itself through**. -/
theorem Range.matchesText_self : Range.matchesText v.text v.text = .ok true := by
  rw [matchesText, parse_version h, Version.parse_text_of_isReadable h]
  have hself := Alternative.accepts_self h.build_eq_nil
  show Except.ok ([Alternative.ofBounds [⟨.eq, v, false⟩]].any (·.accepts v)) = _
  rw [List.any_cons, hself]
  rfl

end Npm

/-! ## A stage without a number -/

open Npm (Stage)

namespace Target.Version

variable {ns : List Nat} (h : Numeral.IsReadable ns) (s : Stage)
include h

/-- **A stage alone** is read as a prerelease without a number. -/
theorem parse_stageName : parse (dotted ns ++ '-' :: s.name) =
    .ok ⟨⟨padRelease ns, s.stability.rank, []⟩, none⟩ := by
  have hsuffix : suffix? ('-' :: s.name) = some ⟨some (s.name, []), false⟩ := by cases s <;> rfl
  have hrender : Suffix.render ⟨some (s.name, []), false⟩ =
      [s.stability.keyword].flatMap ('-' :: ·) := by
    cases s <;> rfl
  have hbuilt : ∀ c ∈ '-' :: s.name, isBuiltChar c = true := by
    cases s <;> exact List.all_iff_forall_prop.1 rfl
  have hplace : [s.stability.keyword].foldlM applySuffix
      ⟨padRelease ns, Stability.stable.rank, []⟩ =
        .ok ⟨padRelease ns, s.stability.rank, []⟩ := by
    cases s <;> rfl
  exact parse_dotted_append h (by rintro c ⟨⟩; rfl) rfl hbuilt (by cases s <;> decide) hsuffix
    (by cases s <;> decide) hrender hplace

/-- The first prerelease of a stage has its number. -/
theorem parse_firstOfStage : parse (dotted ns ++ '-' :: (s.stability.keyword ++ ['1'])) =
    .ok ⟨⟨padRelease ns, s.stability.rank, [1]⟩, none⟩ := by
  have hsuffix : suffix? ('-' :: (s.stability.keyword ++ ['1'])) =
      some ⟨some (s.stability.keyword, ['1']), false⟩ := by
    cases s <;> rfl
  have hrender : Suffix.render ⟨some (s.stability.keyword, ['1']), false⟩ =
      [s.stability.keyword ++ ['1']].flatMap ('-' :: ·) := by
    cases s <;> rfl
  have hbuilt : ∀ c ∈ '-' :: (s.stability.keyword ++ ['1']), isBuiltChar c = true := by
    cases s <;> exact List.all_iff_forall_prop.1 rfl
  have hplace : [s.stability.keyword ++ ['1']].foldlM applySuffix
      ⟨padRelease ns, Stability.stable.rank, []⟩ =
        .ok ⟨padRelease ns, s.stability.rank, [1]⟩ := by
    cases s <;> rfl
  exact parse_dotted_append h (by rintro c ⟨⟩; rfl) rfl hbuilt (by cases s <;> decide) hsuffix
    (by cases s <;> decide) hrender hplace

end Target.Version

/-- **Converting a stage without a number** makes it the first of its stage. -/
theorem Source.convertVersion_stageName {n : Nat} (hn : n < 100000) {ns : List Nat}
    (hl : ns.length ≤ 2) (s : Stage) : convertVersion (dotted (n :: ns) ++ '-' :: s.name) =
      .ok (dotted (n :: ns) ++ '-' :: (s.stability.keyword ++ ['1'])) := by
  have ho : opensSuffix ('-' :: s.name) = true := by cases s <;> rfl
  have hs : ∀ c ∈ '-' :: s.name, Text.isSettled c = true := by
    cases s <;> exact List.all_iff_forall_prop.1 rfl
  have ht : targetSuffix (dropSuffixSign ('-' :: s.name)) = s.stability.keyword ++ ['1'] := by
    cases s <;> rfl
  have hconvert := convertVersion_suffix hn hl ho hs (by cases s <;> decide)
  rwa [ht] at hconvert

/-! ## Versions with a stage -/

namespace Npm

/-- A release, a numbered prerelease of one, or a prerelease that names its stage only. -/
inductive Labelled where
  | staged (u : Staged)
  | unnumbered (release : Release) (stage : Stage)
deriving DecidableEq, Repr

namespace Labelled

open Target (stageSuffix)

/-- The version of the npm dialect. -/
def version : Labelled → Version
  | staged u => u.version
  | unnumbered release stage => ⟨release, [.name stage.name], []⟩

/-- The text of the version. -/
def text (v : Labelled) : Text := v.version.text

/-- Whether the conversion has no number to add. -/
def isExplicit : Labelled → Bool
  | staged _ => true
  | unnumbered _ _ => false

/-- A version whose first number has at most five digits, and no number more than can be read. -/
def IsReadable : Labelled → Prop
  | staged u => u.IsReadable
  | unnumbered release _ => (Staged.mk release none).IsReadable

/-- What stands behind the release. -/
def suffix : Labelled → Text
  | staged ⟨_, none⟩ => []
  | staged ⟨_, some (stage, n)⟩ => stageSuffix stage.name n
  | unnumbered _ stage => '-' :: stage.name

theorem text_eq (v : Labelled) : v.text = v.version.release.text ++ v.suffix := by
  cases v with
  | staged u =>
    have htext : (staged u).text = u.version.text := rfl
    rw [htext, Staged.text_version]
    obtain ⟨r, s⟩ := u
    rcases s with _ | ⟨s, n⟩ <;> rfl
  | unnumbered r s =>
    simp [text, version, suffix, Version.text, Version.signed, Release.text_append,
      Identifier.text]

/-- The characters of the suffixes that are no digits. -/
def nameChars : List Char := "-.abcehlprt".toList

theorem isDigit_or_mem {v : Labelled} {c : Char} (hc : c ∈ v.text) :
    c.isDigit = true ∨ c ∈ nameChars := by
  have hname : ∀ s : Stage, ∀ c ∈ s.name, c ∈ nameChars := by
    intro s
    cases s <;> exact List.all_iff_forall_prop.1 rfl
  rw [text_eq] at hc
  rcases List.mem_append.1 hc with hc | hc
  · refine (Numeral.isDigit_or_eq_of_mem_dotted hc).imp_right ?_
    rintro rfl
    decide
  · match v with
    | staged ⟨_, none⟩ => cases hc
    | staged ⟨_, some (s, n)⟩ =>
      simp only [suffix, stageSuffix, List.mem_cons, List.mem_append] at hc
      rcases hc with rfl | hc | rfl | hc
      · exact .inr (by decide)
      · exact .inr (hname s c hc)
      · exact .inr (by decide)
      · exact .inl (Numeral.isDigit_of_mem_digits hc)
    | unnumbered _ s =>
      rcases List.mem_cons.1 hc with rfl | hc
      · exact .inr (by decide)
      · exact .inr (hname s c hc)

/-- There is nothing to spell in another way. -/
theorem spelled_text (v : Labelled) : Source.spelled v.text = v.text := by
  have hlower : Text.lower v.text = v.text := by
    have hsettled : ∀ c ∈ nameChars, Text.isSettled c = true := List.all_iff_forall_prop.1 rfl
    refine Text.lower_eq_self fun c hc => ?_
    rcases isDigit_or_mem hc with hd | hm
    · exact Text.isSettled_of_isDigit hd
    · exact hsettled c hm
  have hletter : ∀ c : Char, c.isDigit = false → c ∉ nameChars → c ∉ v.text := by
    intro c hd hn hc
    rcases isDigit_or_mem hc with hd' | hm
    · rw [hd] at hd'
      cases hd'
    · exact hn hm
  rw [Source.spelled, hlower]
  exact Grammar.dropVersionLetters_eq_self (hletter 'v' rfl (by decide))
    (hletter 'V' rfl (by decide))

theorem point_mem_text (v : Labelled) : '.' ∈ v.text := by
  rw [text_eq, Release.text_append]
  simp

/-- A version with points is no lone number. -/
theorem isLoneMajor_text (v : Labelled) : Source.Pending.isLoneMajor v.text 0 none = false := by
  simp [Source.Pending.isLoneMajor, v.point_mem_text]

variable {v : Labelled} (h : v.IsReadable)
include h

/-- The version is read back from its text. -/
theorem IsReadable.version : v.version.IsReadable := by
  cases v with
  | staged u =>
    refine ⟨(Staged.IsReadable.numbers h).length_digits_le, ?_, rfl⟩
    obtain ⟨r, s⟩ := u
    intro i hi
    rcases s with _ | ⟨s, n⟩
    · cases hi
    · simp only [version, Staged.version, Staged.prerelease, List.mem_cons, List.not_mem_nil,
        or_false] at hi
      rcases hi with rfl | rfl
      · exact Identifier.isReadable_name s
      · exact Identifier.isReadable_number (h.length_stage_le (s, n) rfl)
  | unnumbered r s =>
    refine ⟨(Staged.IsReadable.numbers h).length_digits_le, fun i hi => ?_, rfl⟩
    obtain rfl := List.mem_singleton.1 hi
    exact Identifier.isReadable_name s

/-- **The two readings** of a version, before and after its conversion, are the same exactly when
the conversion has no number to add. -/
theorem IsReadable.exists_convertVersion : ∃ s a b, Source.convertVersion v.text = .ok s ∧
    Target.Version.parse v.text = .ok a ∧ Target.Version.parse s = .ok b ∧
    decide (a = b) = v.isExplicit := by
  cases v with
  | staged u =>
    obtain ⟨s, hs, hb, ha⟩ := Staged.IsReadable.exists_convertVersion h
    exact ⟨s, _, _, hs, ha, hb, decide_eq_true rfl⟩
  | unnumbered r s =>
    have hnumbers : Numeral.IsReadable [r.major, r.minor, r.patch] := Staged.IsReadable.numbers h
    have hconvert := Source.convertVersion_stageName (hnumbers.head_lt _ rfl)
      (show [r.minor, r.patch].length ≤ 2 by simp) s
    have htext : (unnumbered r s).text = dotted [r.major, r.minor, r.patch] ++ '-' :: s.name :=
      text_eq (unnumbered r s)
    rw [htext]
    refine ⟨_, _, _, hconvert, Target.Version.parse_stageName hnumbers s,
      Target.Version.parse_firstOfStage hnumbers s, ?_⟩
    simp [isExplicit]

/-- **The check of a version against itself** raises nothing. As a range the version lets itself
through, and so does the constraint for it, unless its stage has no number: the constraint asks for
the first of that stage. -/
theorem checkRange_self : ∃ c, constraintFor v.text = .ok c ∧
    (checkRange v.text [v.text]).outcome =
      .ok ⟨v.text, c.source, [⟨v.text, true, v.isExplicit⟩]⟩ := by
  obtain ⟨s, a, b, hs, ha, hb, hab⟩ := h.exists_convertVersion
  have hsource : Range.matchesText v.text v.text = .ok true := Range.matchesText_self h.version
  obtain ⟨c, hc, -, hmatches⟩ := exists_constraintFor_word h.version.isWord_text
    (by rw [← text, spelled_text, isLoneMajor_text]) ha (by rw [← text, spelled_text, hs]) hb
  rw [hab] at hmatches
  exact ⟨c, hc, outcome_checkRange_singleton hc hsource hmatches⟩

omit h in
/-- A release candidate lets itself through on both sides. -/
theorem checkRange_self_candidate :
    (staged ⟨⟨1, 2, 3⟩, some (.rc, 11)⟩).IsReadable ∧
    ∃ c, constraintFor "1.2.3-rc.11".toList = .ok c ∧
      (checkRange "1.2.3-rc.11".toList ["1.2.3-rc.11".toList]).outcome =
        .ok ⟨"1.2.3-rc.11".toList, c.source, [⟨"1.2.3-rc.11".toList, true, true⟩]⟩ := by
  have hv : (staged ⟨⟨1, 2, 3⟩, some (.rc, 11)⟩).IsReadable :=
    ⟨by decide, by decide, by decide, by rintro s ⟨⟩; decide⟩
  have hcheck := checkRange_self hv
  rw [show text _ = "1.2.3-rc.11".toList from rfl] at hcheck
  exact ⟨hv, hcheck⟩

omit h in
/-- **A version that does not let itself through**: the constraint for a beta without a number asks
for the first beta. -/
theorem checkRange_not_self :
    (unnumbered ⟨1, 0, 0⟩ .beta).IsReadable ∧
    (checkRange "1.0.0-beta".toList ["1.0.0-beta".toList]).outcome =
      .ok ⟨"1.0.0-beta".toList, "1.0.0-beta1".toList, [⟨"1.0.0-beta".toList, true, false⟩]⟩ :=
  ⟨⟨by decide, by decide, by decide, by rintro s ⟨⟩⟩,
    outcome_checkRange_singleton (c := ⟨_, [[⟨.eq, ⟨⟨[1, 0, 0, 0], 2, [1]⟩, none⟩⟩]]⟩) rfl rfl rfl⟩

end Labelled

end Npm

end AssetBridge
