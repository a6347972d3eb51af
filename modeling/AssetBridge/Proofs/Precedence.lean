import AssetBridge.Proofs.ReleaseBounds
import AssetBridge.Proofs.Stems

/-!
# Conversion keeps the order of versions

A version of the source dialect whose prerelease is a stage and its number is read as a release with
a rank and that number, before and after its conversion. The order of such places is the precedence
of the versions.

## Main definitions

* `Npm.Stage`: the stages that a numbered prerelease can name
* `Npm.Staged`: a release, or a numbered prerelease of one
* `Staged.place`: its place in the target grammar

## Main results

* `Staged.place_lt_place`, `Staged.place_injective`: places are ordered as the versions are
* `Target.Version.parse_stage`, `Source.convertVersion_stage`: reading and converting such a version
* `Staged.convertVersion_keeps_order`: conversion preserves precedence
-/

namespace AssetBridge

open Numeral (dotted points digits maxDigits)

namespace Npm

open Target (Place)

/-- The stages that a numbered prerelease can name. -/
inductive Stage where
  | alpha
  | beta
  | rc
deriving DecidableEq, Repr

namespace Stage

/-- The name of a stage in the npm dialect. -/
def name : Stage → Text
  | alpha => "alpha".toList
  | beta => "beta".toList
  | rc => "rc".toList

/-- The stability of a stage. -/
def stability : Stage → Stability
  | alpha => .alpha
  | beta => .beta
  | rc => .rc

/-- The names of stages are in the order of their ranks. -/
theorem name_lt_name {s t : Stage} :
    s.name < t.name ↔ s.stability.rank < t.stability.rank := by
  cases s <;> cases t <;> decide

theorem name_inj {s t : Stage} : s.name = t.name ↔ s = t := by
  cases s <;> cases t <;> decide

theorem rank_inj {s t : Stage} : s.stability.rank = t.stability.rank ↔ s = t := by
  cases s <;> cases t <;> decide

theorem rank_lt_stable (s : Stage) : s.stability.rank < Stability.stable.rank := by
  cases s <;> decide

end Stage

/-- A release, or the prerelease of one with the given number at a stage. -/
structure Staged where
  release : Release
  stage : Option (Stage × Nat)
deriving DecidableEq, Repr

namespace Staged

/-- The identifiers of the prerelease. -/
def prerelease (u : Staged) : List Identifier :=
  match u.stage with
  | none => []
  | some (stage, n) => [.name stage.name, .number n]

/-- The version of the npm dialect. -/
def version (u : Staged) : Version := ⟨u.release, u.prerelease, []⟩

/-- The rank and the numbers of the prerelease in the target grammar. -/
def rankAndNumber (u : Staged) : Nat × List Nat :=
  match u.stage with
  | none => (Stability.stable.rank, [])
  | some (stage, n) => (stage.stability.rank, [n])

/-- The place in the order of the target grammar. -/
def place (u : Staged) : Place := ⟨u.release.padded, u.rankAndNumber.1, u.rankAndNumber.2⟩

/-! ## The order -/

theorem singleton_lt_singleton {m n : Nat} : [m] < [n] ↔ m < n := by
  simp [List.cons_lt_cons_iff]

theorem numbered_lt_numbered {s t : Stage} {m n : Nat} :
    [Identifier.name s.name, .number m] < [Identifier.name t.name, .number n] ↔
      s.name < t.name ∨ (s.name = t.name ∧ m < n) := by
  have hname : Identifier.name s.name < Identifier.name t.name ↔ s.name < t.name := Iff.rfl
  have hnumber : Identifier.number m < Identifier.number n ↔ m < n := Iff.rfl
  simp only [List.cons_lt_cons_iff, hname, hnumber, Identifier.name.injEq, List.not_lt_nil,
    and_false, or_false]

/-- **Prereleases** precede each other as their ranks and numbers do. -/
theorem precedes_prerelease {u v : Staged} : Precedes u.prerelease v.prerelease ↔
    u.rankAndNumber.1 < v.rankAndNumber.1 ∨
      (u.rankAndNumber.1 = v.rankAndNumber.1 ∧ u.rankAndNumber.2 < v.rankAndNumber.2) := by
  obtain ⟨r, s⟩ := u
  obtain ⟨r', t⟩ := v
  rcases s with _ | ⟨s, m⟩
  · rcases t with _ | ⟨t, n⟩
    · -- a release does not precede itself
      simp [prerelease, rankAndNumber, Precedes]
    · -- nor does it precede a prerelease, which has a lower rank
      have ht := t.rank_lt_stable
      simp only [prerelease, rankAndNumber, Precedes, false_iff, not_or]
      omega
  · rcases t with _ | ⟨t, n⟩
    · have hs := s.rank_lt_stable
      simp [prerelease, rankAndNumber, Precedes, hs]
    · simp only [prerelease, rankAndNumber, Precedes, numbered_lt_numbered,
        singleton_lt_singleton, Stage.name_lt_name, Stage.name_inj, Stage.rank_inj]

/-- **Places are ordered as the versions are.** -/
theorem place_lt_place {u v : Staged} : u.place < v.place ↔ u.version < v.version := by
  rw [Place.lt_iff, Version.lt_iff]
  simp only [place, version, Release.padded_lt, Release.padded_inj, precedes_prerelease]

/-- Two of these versions have different places. -/
theorem place_injective {u v : Staged} (h : u.place = v.place) : u = v := by
  obtain ⟨r, s⟩ := u
  obtain ⟨r', t⟩ := v
  simp only [place, Place.mk.injEq, Release.padded_inj] at h
  obtain ⟨rfl, hrank, hnumber⟩ := h
  rcases s with _ | ⟨s, m⟩
  · rcases t with _ | ⟨t, n⟩
    · rfl
    · cases hnumber
  · rcases t with _ | ⟨t, n⟩
    · cases hnumber
    · obtain rfl := Stage.rank_inj.1 hrank
      obtain ⟨rfl, -⟩ := List.cons.inj hnumber
      rfl

/-! ## Readable versions -/

/-- A version whose first number has at most five digits, and no number more than can be read. -/
structure IsReadable (u : Staged) : Prop where
  major_lt : u.release.major < 100000
  length_minor_le : (digits u.release.minor).length ≤ maxDigits
  length_patch_le : (digits u.release.patch).length ≤ maxDigits
  length_stage_le : ∀ s ∈ u.stage, (digits s.2).length ≤ maxDigits

end Staged

end Npm

/-! ## Prereleases in the target grammar -/

namespace Grammar.DigitRun

/-- The digits of a number. -/
def ofNat (n : Nat) : DigitRun :=
  ⟨Numeral.digits n, Numeral.digits_ne_nil n, fun _ => Numeral.isDigit_of_mem_digits⟩

@[simp] theorem digits_ofNat (n : Nat) : (ofNat n).digits = Numeral.digits n := rfl

theorem exists_eq_cons (d : DigitRun) : ∃ c r, d.digits = c :: r ∧ c.isDigit = true := by
  obtain ⟨c, r, h⟩ := List.exists_cons_of_ne_nil d.digits_ne_nil
  exact ⟨c, r, h, d.isDigit_of_mem c (h ▸ List.mem_cons_self)⟩

theorem isDecimal_of_mem (d : DigitRun) : ∀ c ∈ d.digits, Text.isDecimal c = true := fun c hc =>
  Text.isDecimal_of_isDigit (d.isDigit_of_mem c hc)

end Grammar.DigitRun

open Grammar (DigitRun)

namespace Target

open Npm (Stage)

/-- A stage is written by its name, or by the keyword that it is converted into. -/
def IsStageWord (s : Stage) (w : Text) : Prop := w = s.name ∨ w = s.stability.keyword

/-- What stands behind the release of a prerelease, with the digits of its number as they are
written. -/
def runSuffix (w : Text) (d : DigitRun) : Text := '-' :: (w ++ '.' :: d.digits)

/-- What stands behind the release of a prerelease. -/
def stageSuffix (w : Text) (n : Nat) : Text := '-' :: (w ++ '.' :: digits n)

/-- The characters of such a suffix that are no digits. -/
def stageChars : List Char := "-.abcehlprtCR".toList

section Run

variable {s : Stage} {w : Text} (hw : IsStageWord s w) {d : DigitRun}
include hw

theorem mem_runSuffix {c : Char} (hc : c ∈ runSuffix w d) : c.isDigit = true ∨ c ∈ stageChars := by
  have hword : ∀ d ∈ w, d ∈ stageChars := by
    rcases hw with rfl | rfl <;> cases s <;> exact List.all_iff_forall_prop.1 rfl
  simp only [runSuffix, List.mem_cons, List.mem_append] at hc
  rcases hc with rfl | hc | rfl | hc
  · exact .inr (by decide)
  · exact .inr (hword c hc)
  · exact .inr (by decide)
  · exact .inl (d.isDigit_of_mem c hc)

theorem not_mem_runSuffix {c : Char} (hd : c.isDigit = false) (hc : c ∉ stageChars) :
    c ∉ runSuffix w d := by
  intro hm
  rcases mem_runSuffix hw hm with h | h
  · rw [hd] at h
    cases h
  · exact hc h

end Run

/-- A scanner of numbers passes over digits. -/
theorem numberRun_isDecimal_append {ds : Text} (h : ∀ c ∈ ds, Text.isDecimal c = true) (r : Text) :
    numberRun (ds ++ r) = (ds ++ (numberRun r).1, (numberRun r).2) := by
  induction ds with
  | nil => rfl
  | cons c ds ih =>
    have hc := h c (by simp)
    rw [List.cons_append, numberRun, ih fun d hd => h d (by simp [hd])]
    simp [hc]

/-- A run of digits is one number. -/
theorem numberRun_of_isDecimal {ds : Text} (h : ∀ c ∈ ds, Text.isDecimal c = true) :
    numberRun ds = (ds, []) := by
  have hr := numberRun_isDecimal_append h []
  rwa [List.append_nil, numberRun, List.append_nil] at hr

/-- So is a point with digits behind it. -/
theorem numberRun_point {ds : Text} (hne : ds ≠ []) (h : ∀ c ∈ ds, Text.isDecimal c = true) :
    numberRun ('.' :: ds) = ('.' :: ds, []) := by
  have hhead : ds.head?.any Text.isDecimal = true := by
    obtain ⟨c, r, rfl⟩ := List.exists_cons_of_ne_nil hne
    exact h c (by simp)
  rw [numberRun, numberRun_of_isDecimal h]
  simp [hhead]

section Run

variable {s : Stage} {w : Text} (hw : IsStageWord s w) (d : DigitRun)
include hw

/-- **The suffix of a prerelease**: the keyword of its stage and its number. -/
theorem suffix?_runSuffix : suffix? (runSuffix w d) = some ⟨some (w, '.' :: d.digits), false⟩ := by
  have hkey : keyword? (w ++ '.' :: d.digits) = some (w, '.' :: d.digits) := by
    rcases hw with rfl | rfl <;> cases s <;> rfl
  have hone : dropOne ['.', '_', '-'] (runSuffix w d) = w ++ '.' :: d.digits := rfl
  have hnumber := numberRun_point d.digits_ne_nil d.isDecimal_of_mem
  simp only [suffix?, hone, hkey, hnumber]
  rfl

theorem render_runSuffix : Suffix.render ⟨some (w, '.' :: d.digits), false⟩ =
    '-' :: (s.stability.keyword ++ d.digits) := by
  have hstable : w ≠ Stability.stable.keyword := by
    rcases hw with rfl | rfl <;> cases s <;> decide
  have hexpand : Stability.expandKeyword w = s.stability.keyword := by
    rcases hw with rfl | rfl <;> cases s <;> decide
  have hbare : bareNumber ('.' :: d.digits) = d.digits := by
    obtain ⟨c, r, hcr, hd⟩ := d.exists_eq_cons
    have hpoint : c ≠ '.' := Text.ne_of_isDigit hd rfl
    have hhyphen : c ≠ '-' := Text.ne_of_isDigit hd rfl
    show bareNumber d.digits = d.digits
    rw [hcr, bareNumber, List.dropWhile_cons_of_neg (by simp [hpoint, hhyphen])]
  simp only [Suffix.render, hstable, if_false, hexpand, hbare, devText, Bool.false_eq_true,
    List.append_nil, List.cons_append]

/-- What a suffix of a prerelease is made of. -/
theorem runSuffix_spec : (∀ c ∈ (runSuffix w d).head?, Text.isDecimal c = false) ∧
    (∀ c ∈ runSuffix w d, isBuiltChar c = true) ∧ '@' ∉ runSuffix w d := by
  refine ⟨?_, fun c hc => ?_, not_mem_runSuffix hw rfl (by decide)⟩
  · rintro c ⟨⟩
    decide
  · have hchars : ∀ e ∈ stageChars, isBuiltChar e = true := List.all_iff_forall_prop.1 rfl
    rcases mem_runSuffix hw hc with hc | hc
    · exact isBuiltChar_of_isDigit hc
    · exact hchars c hc

/-- **The normal form of a prerelease**, whichever word its stage is written by. -/
theorem normalize_run {ns : List Nat} (h : Numeral.IsReadable ns) :
    normalize (dotted ns ++ runSuffix w d) =
      .ok (dotted (Version.padRelease ns) ++ '-' :: (s.stability.keyword ++ d.digits)) := by
  obtain ⟨hopen, hbuilt, hflag⟩ := runSuffix_spec hw d
  rw [normalize_dotted_append h hopen rfl hbuilt hflag (suffix?_runSuffix hw d),
    render_runSuffix hw]

end Run

/-- A keyword and its number, as the place that they stand for. -/
theorem applySuffix_run (s : Stage) {d : DigitRun} (hd : d.digits.length ≤ maxDigits) (p : Place) :
    Version.applySuffix p (s.stability.keyword ++ d.digits) =
      .ok { p with rank := s.stability.rank, number := [Numeral.value d.digits] } := by
  have hletters : ∀ c ∈ s.stability.keyword, Text.isLetter c = true := by
    cases s <;> exact List.all_iff_forall_prop.1 rfl
  have hhead : ∀ c ∈ d.digits.head?, Text.isLetter c = false := fun c hc =>
    Text.isLetter_eq_false_of_isDigit (d.isDigit_of_mem c (List.mem_of_mem_head? hc))
  have htake : (s.stability.keyword ++ d.digits).takeWhile Text.isLetter = s.stability.keyword := by
    rw [List.takeWhile_append_of_pos hletters, (Text.scan_eq_of_head? hhead).1, List.append_nil]
  have hdrop : (s.stability.keyword ++ d.digits).dropWhile Text.isLetter = d.digits := by
    rw [List.dropWhile_append_of_pos hletters, (Text.scan_eq_of_head? hhead).2]
  have hone : dropOne ['.'] d.digits = d.digits := by
    obtain ⟨c, r, hcr, hc⟩ := d.exists_eq_cons
    have hpoint : c ≠ '.' := Text.ne_of_isDigit hc rfl
    simp [hcr, dropOne, hpoint]
  have hnumber := Text.scan_eq_of_forall (p := fun c => Text.isDecimal c || c = '.')
    (s := d.digits) fun c hc => by simp [d.isDecimal_of_mem c hc]
  have hparts : Version.pointParts d.digits = [d.digits] :=
    Text.words_eq_singleton d.digits_ne_nil fun c hc =>
      decide_eq_false (Text.ne_of_isDigit (d.isDigit_of_mem c hc) rfl)
  have hne : s.stability.keyword.isEmpty = false := by cases s <;> rfl
  have hrank : Stability.rankOf s.stability.keyword = s.stability.rank := by cases s <;> decide
  have hread := Numeral.read_of_length_le hd
  simp only [Version.applySuffix, Version.suffixPlace?, htake, hdrop, hone, hnumber.1, hnumber.2,
    hne, hparts, hrank, Bool.false_or, Text.isFinal_nil, Bool.not_true, Bool.false_eq_true,
    if_false, List.mapM_cons, List.mapM_nil, hread]
  rfl

/-- **A prerelease is read** as its release with the rank and the number of its stage. -/
theorem Version.parse_run {ns : List Nat} (h : Numeral.IsReadable ns) {s : Stage} {w : Text}
    (hw : IsStageWord s w) {d : DigitRun} (hd : d.digits.length ≤ maxDigits) :
    parse (dotted ns ++ runSuffix w d) =
      .ok ⟨⟨padRelease ns, s.stability.rank, [Numeral.value d.digits]⟩, none⟩ := by
  obtain ⟨hopen, hbuilt, hflag⟩ := runSuffix_spec hw d
  have hhyphen : ∀ u ∈ [s.stability.keyword ++ d.digits], '-' ∉ u := by
    intro u hu
    obtain rfl := List.mem_singleton.1 hu
    rw [List.mem_append, not_or]
    exact ⟨by cases s <;> decide, fun hm => absurd (d.isDigit_of_mem _ hm) (by decide)⟩
  have hplace : [s.stability.keyword ++ d.digits].foldlM applySuffix
      ⟨padRelease ns, Stability.stable.rank, []⟩ =
        .ok ⟨padRelease ns, s.stability.rank, [Numeral.value d.digits]⟩ := by
    rw [List.foldlM_cons, applySuffix_run s hd]
    rfl
  exact parse_dotted_append h hopen rfl hbuilt hflag (suffix?_runSuffix hw d) hhyphen
    (by simpa using render_runSuffix hw d) hplace

theorem Version.parse_stage {ns : List Nat} (h : Numeral.IsReadable ns) {s : Stage} {w : Text}
    (hw : IsStageWord s w) {n : Nat} (hn : (digits n).length ≤ maxDigits) :
    parse (dotted ns ++ stageSuffix w n) = .ok ⟨⟨padRelease ns, s.stability.rank, [n]⟩, none⟩ := by
  have hparse := parse_run h hw (d := .ofNat n) hn
  rwa [DigitRun.digits_ofNat, Numeral.value_digits] at hparse

end Target

/-! ## Converting a prerelease -/

namespace Source

open Npm (Stage)
open Target (IsStageWord runSuffix stageSuffix stageChars not_mem_runSuffix)

/-- The suffix of a prerelease in the target grammar. -/
theorem targetSuffix_run (s : Stage) (d : DigitRun) :
    targetSuffix (s.name ++ '.' :: d.digits) = s.stability.keyword ++ '.' :: d.digits := by
  have hsmall : ∀ c ∈ s.name, Text.isSmall c = true := by
    cases s <;> exact List.all_iff_forall_prop.1 rfl
  -- The number with its point ends the text, so both are kept.
  cases s with
  | alpha => exact targetSuffix_append hsmall .alpha (.fraction d) rfl
  | beta => exact targetSuffix_append hsmall .beta (.fraction d) rfl
  | rc => exact targetSuffix_append hsmall .candidate (.fraction d) rfl

/-- A suffix of small letters and digits is converted on its own, when no registry can have marked
the version. -/
theorem convertVersion_suffix {n : Nat} (hn : n < 100000) {ns : List Nat} (hl : ns.length ≤ 2)
    {s : Text} (ho : opensSuffix s = true) (hs : ∀ c ∈ s, Text.isSettled c = true) (hk : 'k' ∉ s) :
    convertVersion (dotted (n :: ns) ++ s) =
      .ok (dotted (n :: ns) ++ '-' :: targetSuffix (dropSuffixSign s)) := by
  have hdash : '–' ∉ s := fun hm => absurd (hs _ hm) (by decide)
  have hmarkers : ∀ k ∈ registryMarkers, Text.contains k (dotted (n :: ns) ++ s) = false := by
    intro k hmem
    have hletter : ∀ k ∈ registryMarkers, 'k' ∈ k := by decide
    refine Text.contains_eq_false (hletter k hmem) ?_
    rw [List.mem_append, not_or]
    exact ⟨Numeral.not_mem_dotted (by decide), hk⟩
  have hconvert := Stem.convertVersion_numbers_append none (by simp) hn hl ho hdash hmarkers
  rwa [Text.lowerAfter_eq_self hs] at hconvert

/-- **Converting a prerelease** writes its stage as the keyword of the target grammar. -/
theorem convertVersion_run {n : Nat} (hn : n < 100000) {ns : List Nat} (hl : ns.length ≤ 2)
    (s : Stage) (d : DigitRun) :
    convertVersion (dotted (n :: ns) ++ runSuffix s.name d) =
      .ok (dotted (n :: ns) ++ runSuffix s.stability.keyword d) := by
  have hname : IsStageWord s s.name := .inl rfl
  have ho : opensSuffix (runSuffix s.name d) = true := by cases s <;> rfl
  have hsettled : ∀ c ∈ runSuffix s.name d, Text.isSettled c = true := by
    intro c hc
    have hsmall : ∀ c ∈ s.name, Text.isSettled c = true := by
      cases s <;> exact List.all_iff_forall_prop.1 rfl
    simp only [runSuffix, List.mem_append, List.mem_cons] at hc
    rcases hc with rfl | hc | rfl | hc
    · decide
    · exact hsmall c hc
    · decide
    · exact Text.isSettled_of_isDigit (d.isDigit_of_mem c hc)
  have hconvert := convertVersion_suffix hn hl ho hsettled (not_mem_runSuffix hname rfl (by decide))
  have hsign : dropSuffixSign (runSuffix s.name d) = s.name ++ '.' :: d.digits := rfl
  rw [hsign, targetSuffix_run] at hconvert
  exact hconvert

theorem convertVersion_stage {n : Nat} (hn : n < 100000) {ns : List Nat} (hl : ns.length ≤ 2)
    (s : Stage) (m : Nat) :
    convertVersion (dotted (n :: ns) ++ stageSuffix s.name m) =
      .ok (dotted (n :: ns) ++ stageSuffix s.stability.keyword m) :=
  convertVersion_run hn hl s (.ofNat m)

end Source

/-! ## Conversion keeps the order -/

namespace Npm.Staged

open Target (stageSuffix IsStageWord)

variable {u v : Staged}

/-- The three numbers of the release. -/
def numbers (u : Staged) : List Nat := [u.release.major, u.release.minor, u.release.patch]

theorem text_version (u : Staged) : u.version.text = dotted u.numbers ++
    (match u.stage with
      | none => []
      | some (stage, n) => stageSuffix stage.name n) := by
  obtain ⟨r, s⟩ := u
  rcases s with _ | ⟨s, n⟩
  · simp [version, prerelease, numbers, Version.text, Version.signed, dotted, Text.join_cons]
  · simp [version, prerelease, numbers, Version.text, Version.signed, dotted, Text.join_cons,
      Identifier.text, stageSuffix]

theorem IsReadable.numbers (h : u.IsReadable) : Numeral.IsReadable u.numbers := by
  refine ⟨by simp [Staged.numbers], by simp [Staged.numbers], ?_, ?_⟩
  · rintro n ⟨⟩
    exact h.major_lt
  · intro n hn
    simp only [Staged.numbers, List.mem_cons, List.not_mem_nil, or_false] at hn
    rcases hn with rfl | rfl | rfl
    · exact Nat.le_trans (Numeral.length_digits_le_five h.major_lt) (by decide)
    · exact h.length_minor_le
    · exact h.length_patch_le

/-- **Reading** gives the place, before and after the conversion. -/
theorem IsReadable.exists_convertVersion (h : u.IsReadable) :
    ∃ s, Source.convertVersion u.version.text = .ok s ∧
      Target.Version.parse s = .ok ⟨u.place, none⟩ ∧
      Target.Version.parse u.version.text = .ok ⟨u.place, none⟩ := by
  have hnumbers := h.numbers
  have hpad : Target.Version.padRelease u.numbers = u.release.padded := rfl
  rw [text_version]
  obtain ⟨r, s⟩ := u
  rcases s with _ | ⟨s, n⟩
  · have hparse : Target.Version.parse (dotted _) = .ok ⟨place ⟨r, none⟩, none⟩ :=
      Target.Version.parse_dotted hnumbers
    simp only [List.append_nil]
    exact ⟨_, Source.convertVersion_dotted h.major_lt _, hparse, hparse⟩
  · have hn := h.length_stage_le (s, n) rfl
    have hparse : ∀ w, IsStageWord s w → Target.Version.parse (dotted _ ++ stageSuffix w n) =
        .ok ⟨place ⟨r, some (s, n)⟩, none⟩ := fun w hw =>
      Target.Version.parse_stage hnumbers hw hn
    exact ⟨_, Source.convertVersion_stage h.major_lt (by simp) s n, hparse _ (.inr rfl),
      hparse _ (.inl rfl)⟩

/-- **Conversion keeps the order.** Two versions with a release and perhaps a numbered stage are
converted into versions that can be read, each the one that its own text is read as; one precedes
the other exactly when its place comes first, and different versions have different places. -/
theorem convertVersion_keeps_order (hu : u.IsReadable) (hv : v.IsReadable) :
    ∃ (s t : Text) (a b : Target.Version),
      Source.convertVersion u.version.text = .ok s ∧
      Source.convertVersion v.version.text = .ok t ∧
      Target.Version.parse s = .ok a ∧ Target.Version.parse u.version.text = .ok a ∧
      Target.Version.parse t = .ok b ∧ Target.Version.parse v.version.text = .ok b ∧
      (u.version < v.version ↔ a.place < b.place) ∧ (u ≠ v → a.place ≠ b.place) := by
  obtain ⟨s, hs, ha, ha'⟩ := hu.exists_convertVersion
  obtain ⟨t, ht, hb, hb'⟩ := hv.exists_convertVersion
  refine ⟨s, t, _, _, hs, ht, ha, ha', hb, hb', place_lt_place.symm, fun hne h => ?_⟩
  exact hne (place_injective h)

/-- A beta precedes the release candidate with a lower number. -/
theorem convertVersion_keeps_order_beta :
    ∃ (s t : Text) (a b : Target.Version),
      Source.convertVersion "1.2.3-beta.11".toList = .ok s ∧
      Source.convertVersion "1.2.3-rc.2".toList = .ok t ∧
      Target.Version.parse s = .ok a ∧ Target.Version.parse "1.2.3-beta.11".toList = .ok a ∧
      Target.Version.parse t = .ok b ∧ Target.Version.parse "1.2.3-rc.2".toList = .ok b ∧
      a.place < b.place := by
  have hu : (Staged.mk ⟨1, 2, 3⟩ (some (.beta, 11))).IsReadable :=
    ⟨by decide, by decide, by decide, by rintro s ⟨⟩; decide⟩
  have hv : (Staged.mk ⟨1, 2, 3⟩ (some (.rc, 2))).IsReadable :=
    ⟨by decide, by decide, by decide, by rintro s ⟨⟩; decide⟩
  obtain ⟨s, t, a, b, hs, ht, ha, ha', hb, hb', horder, -⟩ := convertVersion_keeps_order hu hv
  exact ⟨s, t, a, b, hs, ht, ha, ha', hb, hb', horder.1 (by decide)⟩

end Npm.Staged

end AssetBridge
