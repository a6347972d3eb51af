import AssetBridge.Proofs.BranchNames

/-!
# Versions under operators

An operator is written in front of what it makes of the version behind it, and a hyphen range is
made of its two sides. Where the version is any token, that is all there is to say; where it has
three numbers and a prerelease, both are made of the converted version. A range reads more into a
version than its conversion does: it drops a letter v in front of a number, and a comparator makes
the wildcards concrete that stood behind the marker of a registry. Behind a tilde and on the right
of a hyphen a letter of the prerelease can be taken for a wildcard, so there it must have no x.

## Main definitions

* `FullVersion`: versions with three numbers and a prerelease

## Main results

* `IsToken.convertRange_operator`: a token behind an operator
* `IsToken.convertRange_hyphen`: two tokens with a hyphen between them
* `FullVersion.IsOrdinary.convertVersion_text`: converting a full version succeeds
* `FullVersion.convertRange_operators`: full versions under operators
-/

namespace AssetBridge.Source

open Grammar (Atom DigitRun Numeric Operator later_atom later_completeSide later_lowSide
  ne_hyphenMarker_of_ofToken opening_lowSide opening_operator)

/-! ## A token behind an operator -/

namespace IsToken

variable {s : Text} (h : IsToken s)
include h

theorem not_mem {c : Char} (hc : Source.isPlain c = false) : c ∉ s := fun hm => by
  rw [h.isPlain c hm] at hc
  cases hc

/-- A token alone becomes what the pending marks make of it. -/
theorem later_eq {p : Pending} {x : Except Numeral.Error Text}
    (hx : ∀ next, p.atom s 1 next = (fun t => (Pending.none, t)) <$> x) : later p [s] = x := by
  rw [later_atom h.ofToken_eq hx (.inl rfl)]
  show (do let t ← x; let r ← (.ok [] : Except Numeral.Error Text); return t ++ r) = _
  cases x with
  | error e => rfl
  | ok t => exact congrArg Except.ok (List.append_nil t)

variable (hsettled : ∀ c ∈ s, Text.isSettled c = true)
include hsettled

/-- **A token behind an operator**: the operator is written in front of what it makes of the
token. -/
theorem convertRange_operator {op : Operator} (hbare : op ≠ .bare) (hequal : op ≠ .equal) :
    convertRange (op.sign ++ s) =
      (op.written ++ ·) <$> op.bound (Source.dropVersionLetters s) := by
  have hsign : ∀ c ∈ op.sign, Text.isSettled c = true ∧ c ∉ [' ', '&', 'v', 'V'] := by
    cases op <;> exact List.all_iff_forall_prop.1 rfl
  have hnot : ∀ c ∈ [' ', '&', 'v', 'V'], c ∉ op.sign := fun c hc hm => (hsign c hm).2 hc
  have hlower : Text.lower (op.sign ++ s) = op.sign ++ s := by
    refine Text.lower_eq_self fun c hc => ?_
    rcases List.mem_append.1 hc with hc | hc
    · exact (hsign c hc).1
    · exact hsettled c hc
  have hblank : ' ' ∉ op.sign ++ s := by
    rw [List.mem_append, not_or]
    exact ⟨hnot ' ' (by simp), h.blank_not_mem⟩
  have hand : '&' ∉ op.sign ++ s := by
    rw [List.mem_append, not_or]
    exact ⟨hnot '&' (by simp), h.ampersand_not_mem⟩
  have hclean : clean (op.sign ++ s) = op.sign ++ Source.dropVersionLetters s := by
    rw [Source.clean_eq (fun _ _ => Text.contains_eq_false (c := ' ') (by simp) hblank)
      (.inl hblank) hand, dropVersionLetters_append (hnot 'v' (by simp)) (hnot 'V' (by simp))]
  have hletters := h.dropVersionLetters
  have htokens : tokenize (op.sign ++ Source.dropVersionLetters s) =
      op.tokens ++ [Source.dropVersionLetters s] := by
    have hflatten := tokenize_flatten (op.alternating_tokens hletters.isPlain)
    rwa [List.flatten_append, op.flatten_tokens, List.flatten_singleton] at hflatten
  rw [convertRange, hlower, hclean, htokens]
  show Grammar.opening (op.tokens ++ [Source.dropVersionLetters s]) = _
  rw [opening_operator hbare hequal,
    op.later_tokens (ne_hyphenMarker_of_ofToken hletters.ofToken_eq),
    hletters.later_eq (op.atom_marks _)]

end IsToken

/-! ## Two tokens with a hyphen between them -/

/-- The signs that operators are made of. -/
def operatorSigns : List Char := "<>=~^|&".toList

/-- Without these signs only the letters in front of numbers are taken. -/
theorem clean_of_not_mem {s : Text} (h : ∀ c ∈ operatorSigns, c ∉ s) :
    clean s = dropVersionLetters s := by
  have hsigns : (tightOperators.all fun o => o.any (· ∈ operatorSigns)) = true := rfl
  refine clean_eq (fun o ho => ?_) (.inr (h '|' (by decide))) (h '&' (by decide))
  obtain ⟨c, hco, hc⟩ := List.any_eq_true.1 (List.all_eq_true.1 hsigns o ho)
  exact Text.contains_eq_false (List.mem_append_left [' '] hco) (h c (of_decide_eq_true hc))

section Hyphen

variable {l s : Text} (hl : IsToken l) (hs : IsToken s)
include hl hs

theorem operatorSigns_not_mem_hyphen : ∀ c ∈ operatorSigns, c ∉ l ++ hyphenMarker ++ s := by
  have hsigns : ∀ c ∈ operatorSigns, (isPlain c = false ∨ c = '&') ∧ c ∉ hyphenMarker :=
    List.all_iff_forall_prop.1 rfl
  intro c hc
  obtain ⟨hplain, hmarker⟩ := hsigns c hc
  have hside : ∀ {t : Text}, IsToken t → c ∉ t := by
    intro t ht
    rcases hplain with hplain | rfl
    · exact ht.not_mem hplain
    · exact ht.ampersand_not_mem
  rw [List.mem_append, List.mem_append, not_or, not_or]
  exact ⟨⟨hside hl, hmarker⟩, hside hs⟩

theorem tokenize_hyphen : tokenize (l ++ hyphenMarker ++ s) = [l, hyphenMarker, s] := by
  have ht : Alternating [l, hyphenMarker, s] :=
    .cons hl.isPlain (by decide) (by decide) (.last hs.isPlain)
  simpa using tokenize_flatten ht

/-- The tokens of a hyphen range whose right side names every component. -/
theorem opening_hyphen (hcomplete : isCompleteSide s = true) :
    Grammar.opening [l, hyphenMarker, s] = do
      let low ← convertVersion l
      let high ← convertVersion s
      return lowerSide low ++ ([',', '<', '='] ++ high) := by
  rw [opening_lowSide hl.ofToken_eq hl.ne_nil, later_lowSide hl.ofToken_eq,
    later_completeSide hs.ofToken_eq hcomplete (.inl rfl)]
  cases convertVersion l with
  | error e => rfl
  | ok low =>
    cases convertVersion s with
    | error e => rfl
    | ok high => exact congrArg (fun t => Except.ok (lowerSide low ++ t)) (List.append_nil _)

end Hyphen

/-- **A hyphen range** whose right side names every component: both sides are converted, and the
left one is a lower bound. -/
theorem IsToken.convertRange_hyphen {l s : Text} (hl : IsToken l) (hs : IsToken s)
    (hsettled : ∀ c ∈ l ++ s, Text.isSettled c = true) (hv : 'v' ∉ l) (hV : 'V' ∉ l)
    (hcomplete : isCompleteSide (Source.dropVersionLetters s) = true) :
    convertRange (l ++ hyphenMarker ++ s) = do
      let low ← convertVersion l
      let high ← convertVersion (Source.dropVersionLetters s)
      return lowerSide low ++ ([',', '<', '='] ++ high) := by
  have hlower : Text.lower (l ++ hyphenMarker ++ s) = l ++ hyphenMarker ++ s := by
    have hmarker : ∀ c ∈ hyphenMarker, Text.isSettled c = true := List.all_iff_forall_prop.1 rfl
    refine Text.lower_eq_self fun c hc => ?_
    rcases List.mem_append.1 hc with hc | hc
    · rcases List.mem_append.1 hc with hc | hc
      · exact hsettled c (List.mem_append_left s hc)
      · exact hmarker c hc
    · exact hsettled c (List.mem_append_right l hc)
  have hletter : ∀ c : Char, c ∉ l → c ∉ hyphenMarker → c ∉ l ++ hyphenMarker := by
    intro c hc hm
    rw [List.mem_append, not_or]
    exact ⟨hc, hm⟩
  have hclean : clean (l ++ hyphenMarker ++ s) =
      l ++ hyphenMarker ++ Source.dropVersionLetters s := by
    rw [clean_of_not_mem (operatorSigns_not_mem_hyphen hl hs),
      dropVersionLetters_append (hletter 'v' hv (by decide)) (hletter 'V' hV (by decide))]
  rw [convertRange, hlower, hclean, tokenize_hyphen hl hs.dropVersionLetters]
  exact opening_hyphen hl hs.dropVersionLetters hcomplete

/-! ## Converting behind a first number -/

/-- What opens with no marker of a registry stays in front. -/
theorem dropRegistryMarkers_append {t : Text} (h : '-' ∉ t) (s : Text) :
    dropRegistryMarkers (t ++ s) = t ++ dropRegistryMarkers s := by
  have hdrop : ∀ t, dropRegistryMarkers t = Text.replaceAll ('-' :: "bower-packages".toList) []
      (Text.replaceAll ('-' :: "npm-packages".toList) [] t) := fun _ => rfl
  rw [hdrop, hdrop, Text.replaceAll_append_left h, Text.replaceAll_append_left h]

section FirstNumber

variable {t : Text} (hne : t ≠ []) (hd : ∀ c ∈ t, c.isDigit = true)

/-- A point is where wildcards are collapsed, and it stays. -/
theorem exists_collapseWildcards_append (h : '.' ∉ t) (s : Text) :
    ∃ u, collapseWildcards (t ++ '.' :: s) = t ++ '.' :: u := by
  rw [collapseWildcards_eq_dropRepeats, dropRepeats_append_left h]
  obtain ⟨u, hu⟩ := List.head?_eq_some_iff.1 (head?_dropRepeats ('.' :: s))
  exact ⟨u, by rw [hu]⟩

include hne hd

/-- The first number belongs to the head of a version, when there is one. -/
theorem versionHead?_append (s : Text) : versionHead? (t ++ '.' :: s) =
    (headUpTo 2 s).map fun (head, suffix) => (t ++ '.' :: head, suffix) := by
  have hcomponent : component? (t ++ '.' :: s) = some (t, '.' :: s) := by
    refine (IsComponent.digits hne hd).component?_append ?_
    rintro c ⟨⟩
    rfl
  rw [versionHead?, headUpTo, hcomponent]
  rfl

/-- **The first number** and the point behind it stay. -/
theorem exists_convertSuffix_append (s : Text) :
    ∃ u, convertSuffix (t ++ '.' :: s) = t ++ '.' :: u := by
  have hnot : ∀ c : Char, c.isDigit = false → c ∉ t := fun c hc hm => by
    rw [hd c hm] at hc
    cases hc
  have hmarkers : dropRegistryMarkers (t ++ '.' :: s) = t ++ '.' :: dropRegistryMarkers s := by
    have hfront : '-' ∉ t ++ ['.'] := by
      rw [List.mem_append, not_or]
      exact ⟨hnot '-' rfl, by decide⟩
    simpa using dropRegistryMarkers_append hfront s
  rw [convertSuffix]
  simp only [hmarkers, versionHead?_append hne hd]
  cases headUpTo 2 (dropRegistryMarkers s) with
  | none => exact exists_collapseWildcards_append (hnot '.' rfl) _
  | some split =>
    simp only [Option.map_some, List.append_assoc, List.cons_append]
    exact exists_collapseWildcards_append (hnot '.' rfl) _

/-- **Behind a number that opens no date** only the suffix is converted. -/
theorem convertVersion_of_short (hshort : t.length < 7) {s : Text} (hdash : '–' ∉ s) :
    convertVersion (t ++ '.' :: s) = .ok (convertSuffix (t ++ '.' :: s)) := by
  obtain ⟨u, hu⟩ := exists_convertSuffix_append hne hd s
  have hscan : (t ++ '.' :: u).takeWhile Text.isDecimal = t := by
    rw [Text.takeWhile_isDecimal_append hd]
    exact List.append_nil t
  have hconvert : convertVersion (t ++ '.' :: s) = convertDate (convertSuffix (t ++ '.' :: s)) := by
    obtain ⟨c, r, rfl⟩ := List.exists_cons_of_ne_nil hne
    refine convertVersion_of_isDigit (hd c List.mem_cons_self) fun hm => ?_
    rcases List.mem_append.1 (show '–' ∈ (c :: r) ++ '.' :: s from hm) with hm | hm
    · exact absurd (hd _ hm) (by decide)
    · rcases List.mem_cons.1 hm with hm | hm
      · exact absurd hm (by decide)
      · exact hdash hm
  rw [hconvert, hu]
  exact convertDate_eq_self (by rwa [hscan])

end FirstNumber

/-! ## Full versions -/

/-- **Full versions**: three numbers and a prerelease. -/
structure FullVersion where
  major : DigitRun
  minor : DigitRun
  patch : DigitRun
  prerelease : Text

namespace FullVersion

/-- The numbers of a version. -/
def release (v : FullVersion) : Atom DigitRun := .patch v.major v.minor v.patch

/-- The text of a version. -/
def text (v : FullVersion) : Text := v.release.text ++ '-' :: v.prerelease

/-- The characters of prereleases in small letters. -/
def isPrereleaseChar (c : Char) : Bool := c.isDigit || c.isLower || c = '.' || c = '-'

/-- A version that opens with no date. Its prerelease opens with a letter or digit, and has small
letters, digits, points and hyphens. -/
structure IsOrdinary (v : FullVersion) : Prop where
  length_major_lt : v.major.digits.length < 7
  opens : v.prerelease.head?.any (fun c => c.isLower || c.isDigit) = true
  isPrereleaseChar_of_mem : ∀ c ∈ v.prerelease, isPrereleaseChar c = true

/-- The version as ranges spell it. -/
def spelled (v : FullVersion) : FullVersion :=
  { v with prerelease := dropVersionLetters v.prerelease }

/-- What holds of all characters of prereleases can be checked on the ASCII characters. -/
theorem of_isPrereleaseChar {P : Char → Prop}
    (h : ∀ n < 0x80, isPrereleaseChar (Char.ofNat n) = true → P (Char.ofNat n)) {c : Char}
    (hc : isPrereleaseChar c = true) : P c := by
  have hlt : c.toNat < 0x80 := by
    have hchar := hc
    simp only [isPrereleaseChar, Bool.or_eq_true, decide_eq_true_eq] at hchar
    rcases hchar with ((hd | hl) | rfl) | rfl
    · have := Text.toNat_of_isDigit hd
      omega
    · have := Text.toNat_of_isLower hl
      omega
    all_goals decide
  exact Text.of_toNat_lt (P := fun c => isPrereleaseChar c = true → P c) h hlt hc

theorem isDecimal_eq_isDigit_of_isPrereleaseChar {c : Char} (h : isPrereleaseChar c = true) :
    Text.isDecimal c = c.isDigit :=
  of_isPrereleaseChar (P := fun c => Text.isDecimal c = c.isDigit) (by decide +kernel) h

/-- The only wildcard of a prerelease is the letter. -/
theorem isWildcard_eq_false_of_isPrereleaseChar {c : Char} (h : isPrereleaseChar c = true)
    (hx : c ≠ 'x') : isWildcard c = false :=
  of_isPrereleaseChar (P := fun c => c ≠ 'x' → isWildcard c = false) (by decide +kernel) h hx

section Characters

variable {s : Text} (h : ∀ c ∈ s, isPrereleaseChar c = true)
include h

theorem not_mem_of_isPrereleaseChar {c : Char} (hc : isPrereleaseChar c = false) : c ∉ s := by
  intro hm
  rw [h c hm] at hc
  cases hc

theorem isToken_of_isPrereleaseChar (hne : s ≠ []) : IsToken s where
  ne_nil := hne
  isPlain c hc := of_isPrereleaseChar (P := fun c => isPlain c = true) (by decide +kernel) (h c hc)
  ampersand_not_mem := not_mem_of_isPrereleaseChar h rfl

theorem isSettled_of_isPrereleaseChar : ∀ c ∈ s, Text.isSettled c = true := fun c hc =>
  of_isPrereleaseChar (P := fun c => Text.isSettled c = true) (by decide +kernel) (h c hc)

end Characters

theorem isPrereleaseChar_of_isReleaseText {s : Text} (h : Target.IsReleaseText s) :
    ∀ c ∈ s, isPrereleaseChar c = true := by
  intro c hc
  rcases h.isDigit_or_eq c hc with hd | rfl
  · simp [isPrereleaseChar, hd]
  · rfl

theorem isReleaseText_release (v : FullVersion) : Target.IsReleaseText v.release.text :=
  Atom.isReleaseText_text rfl

theorem text_eq (v : FullVersion) : v.text = v.major.digits ++
    '.' :: (v.minor.digits ++ '.' :: (v.patch.digits ++ '-' :: v.prerelease)) := by
  have hrelease : v.release.text =
      v.major.digits ++ '.' :: (v.minor.digits ++ '.' :: v.patch.digits) := rfl
  simp [text, hrelease]

theorem point_mem_text (v : FullVersion) : '.' ∈ v.text := by simp [text_eq]

theorem not_mem_spelled {v : FullVersion} {c : Char} (hc : c ∉ v.prerelease) :
    c ∉ v.spelled.prerelease := fun hm => hc ((dropVersionLetters_sublist v.prerelease).mem hm)

/-- **The spelling of a version** only changes its prerelease. -/
theorem dropVersionLetters_text (v : FullVersion) : dropVersionLetters v.text = v.spelled.text := by
  have hfront : ∀ c : Char, c.isDigit = false ∧ c ≠ '.' → c ≠ '-' →
      c ∉ v.release.text ++ ['-'] := by
    intro c hc hminus
    rw [List.mem_append, not_or]
    exact ⟨v.isReleaseText_release.not_mem hc, by simpa using hminus⟩
  have hdrop := dropVersionLetters_append (hfront 'v' (by decide) (by decide))
    (hfront 'V' (by decide) (by decide)) v.prerelease
  simp only [List.append_assoc, List.singleton_append] at hdrop
  exact hdrop

namespace IsOrdinary

variable {v : FullVersion} (h : v.IsOrdinary)
include h

theorem isPrereleaseChar_of_mem_text : ∀ c ∈ v.text, isPrereleaseChar c = true := by
  intro c hc
  rcases List.mem_append.1 hc with hc | hc
  · exact isPrereleaseChar_of_isReleaseText v.isReleaseText_release c hc
  · rcases List.mem_cons.1 hc with rfl | hc
    · rfl
    · exact h.isPrereleaseChar_of_mem c hc

theorem isToken_text : IsToken v.text :=
  isToken_of_isPrereleaseChar h.isPrereleaseChar_of_mem_text (List.ne_nil_of_mem v.point_mem_text)

theorem isSettled_of_mem_text : ∀ c ∈ v.text, Text.isSettled c = true :=
  isSettled_of_isPrereleaseChar h.isPrereleaseChar_of_mem_text

theorem isWildcard_eq_false (hx : 'x' ∉ v.prerelease) : ∀ c ∈ v.text, isWildcard c = false := by
  intro c hc
  refine isWildcard_eq_false_of_isPrereleaseChar (h.isPrereleaseChar_of_mem_text c hc) ?_
  rintro rfl
  rcases List.mem_append.1 hc with hc | hc
  · exact v.isReleaseText_release.not_mem (by decide) hc
  · exact hx (by simpa using hc)

/-- A version keeps its letters v when no digit stands behind one. -/
theorem spelled_eq_self (hv : ∀ d, ['v', d] <:+: v.prerelease → d.isDigit = false) :
    v.spelled = v := by
  have hsame : dropVersionLetters v.prerelease = v.prerelease := by
    refine dropVersionLetters_eq_self_iff.2 fun c d hpair hc => ?_
    have hchar : ∀ e ∈ [c, d], isPrereleaseChar e = true := fun e he =>
      h.isPrereleaseChar_of_mem e (hpair.subset he)
    rcases hc with rfl | rfl
    · rw [isDecimal_eq_isDigit_of_isPrereleaseChar (hchar d (by simp))]
      exact hv d hpair
    · exact absurd (hchar 'V' (by simp)) (by decide)
  rw [FullVersion.spelled, hsame]

/-- Spelling leaves a letter or digit in front: where the first letter goes, a digit follows. -/
theorem spelled : v.spelled.IsOrdinary where
  length_major_lt := h.length_major_lt
  opens := by
    have hopens := h.opens
    have hchars := h.isPrereleaseChar_of_mem
    show (dropVersionLetters v.prerelease).head?.any _ = true
    revert hopens hchars
    cases v.prerelease with
    | nil => simp
    | cons c r =>
      intro hopens hchars
      rw [dropVersionLetters]
      split
      · rename_i hdrop
        cases r with
        | nil => simp at hdrop
        | cons d r =>
          have hd : Text.isDecimal d = true := by simpa using (Bool.and_eq_true_iff.1 hdrop).2
          have hdigit : d.isDigit = true := by
            rwa [isDecimal_eq_isDigit_of_isPrereleaseChar (hchars d (by simp))] at hd
          have hv : d ≠ 'v' := Text.ne_of_isDigit hdigit rfl
          have hV : d ≠ 'V' := Text.ne_of_isDigit hdigit rfl
          rw [dropVersionLetters, if_neg (by simp [hv, hV])]
          simp [hdigit]
      · exact hopens
  isPrereleaseChar_of_mem c hc := h.isPrereleaseChar_of_mem c
    ((dropVersionLetters_sublist v.prerelease).mem hc)

/-! ### Their conversion -/

/-- **Converting a full version** only rewrites its suffix. -/
theorem convertVersion_text : convertVersion v.text = .ok (convertSuffix v.text) := by
  have hdash : '–' ∉ v.text := not_mem_of_isPrereleaseChar h.isPrereleaseChar_of_mem_text rfl
  rw [text_eq, List.mem_append, List.mem_cons, not_or, not_or] at hdash
  rw [text_eq]
  exact convertVersion_of_short v.major.digits_ne_nil v.major.isDigit_of_mem h.length_major_lt
    hdash.2.2

/-- The head of a full version is its release. -/
theorem versionHead?_text :
    versionHead? v.text = some (v.release.text, '-' :: v.prerelease) := by
  have hsuffix : opensSuffix ('-' :: v.prerelease) = true := by
    have hopens := h.opens
    cases hp : v.prerelease with
    | nil => simp [hp] at hopens
    | cons c r =>
      have hc : (c.isLower || c.isDigit) = true := by simpa [hp] using hopens
      have hletter : (Text.isLetter c || c.isDigit) = true := by
        rcases Bool.or_eq_true_iff.1 hc with hl | hd
        · exact Bool.or_eq_true_iff.2 (.inl (Bool.or_eq_true_iff.2 (.inr hl)))
        · exact Bool.or_eq_true_iff.2 (.inr hd)
      simp [opensSuffix, hletter]
  have hcomponents : ∀ t ∈ Numeric.digits v.release.first :: v.release.behind, IsComponent t := by
    intro t ht
    rcases List.mem_cons.1 ht with rfl | ht
    · exact .digits (Numeric.digits_ne_nil _) fun _ => Numeric.isDigit_of_mem
    · exact Atom.isComponent_of_mem_behind ht
  have hhead := headUpTo_join_append 3 (by simp [release, Atom.behind, Atom.numbers, Atom.wilds])
    hcomponents (r := '-' :: v.prerelease) (by rintro c ⟨⟩; rfl) hsuffix
  rwa [← Atom.text_eq_join] at hhead

/-- **No wildcard is left** in a converted version, unless it stood behind the marker of a
registry. -/
theorem isSmallWildcard_eq_false
    (hx : (∀ m ∈ registryMarkers, Text.contains m v.text = false) ∨ 'x' ∉ v.prerelease) :
    ∀ c ∈ convertSuffix v.text, isSmallWildcard c = false := by
  have hsmall : ∀ c : Char, isWildcard c = false → isSmallWildcard c = false := by
    intro c hc
    simp only [isWildcard, isSmallWildcard, Bool.or_eq_false_iff] at hc ⊢
    exact ⟨hc.1.2, hc.1.1⟩
  have hdigit : ∀ c : Char, c.isDigit = true → isSmallWildcard c = false := fun _ =>
    Atom.isSmallWildcard_of_isDigit
  have hwritten : ∀ c ∈ '-' :: suffixChars, isSmallWildcard c = false :=
    List.all_iff_forall_prop.1 rfl
  rcases hx with hmarkers | hx
  · -- The suffix is converted into a canonical one, which has no wildcard.
    have hdrop := dropRegistryMarkers_eq_self hmarkers
    obtain ⟨t, ht, -⟩ := exists_targetSuffix
      (dropSuffixSign ((Text.lower v.text).drop v.release.text.length))
    simp only [convertSuffix, hdrop, h.versionHead?_text, ht]
    refine forall_collapseWildcards fun c hc => ?_
    rcases List.mem_append.1 hc with hc | hc
    · rcases v.isReleaseText_release.isDigit_or_eq c hc with hd | rfl
      · exact hdigit c hd
      · rfl
    · rcases List.mem_cons.1 hc with rfl | hc
      · rfl
      · rcases t.isDigit_or_mem hc with hd | hm
        · exact hdigit c hd
        · exact hwritten c (List.mem_cons_of_mem '-' hm)
  · -- What is written for a suffix has no wildcard, and the version has none.
    exact forall_convertSuffix hdigit hwritten fun c hc => hsmall c (h.isWildcard_eq_false hx c hc)

/-! ### Ranges of one full version -/

theorem convertRange_text : convertRange v.text = convertVersion v.spelled.text := by
  have hlower : Text.lower v.text = v.text := Text.lower_eq_self h.isSettled_of_mem_text
  have hspelled : Source.spelled v.text = v.spelled.text := by
    rw [Source.spelled, hlower, dropVersionLetters_text]
  -- What has a point is no lone number.
  have hlone : Pending.isLoneMajor v.spelled.text 0 none = false := by
    simp [Pending.isLoneMajor, v.spelled.point_mem_text]
  have htoken : IsToken (Text.lower v.text) := hlower.symm ▸ h.isToken_text
  rw [htoken.convertRange_eq, hspelled, hlone]
  rfl

theorem convertRange_comparator (c : Comparator) {e : Text} (he : e ∈ [[], ['=']]) :
    convertRange (c.sign ++ e ++ v.text) =
      (fun t => c.sign ++ e ++ fillWildcards c.side t) <$> convertVersion v.spelled.text := by
  -- The comparator and the equals sign are one of the four operators.
  obtain ⟨op, hbare, hequal, hsign, hwritten, hbound⟩ : ∃ op : Operator, op ≠ .bare ∧ op ≠ .equal ∧
      op.sign = c.sign ++ e ∧ op.written = c.sign ++ e ∧
      ∀ s, op.bound s = fillWildcards c.side <$> convertVersion s := by
    have he' : e = [] ∨ e = ['='] := by simpa using he
    rcases he' with rfl | rfl <;> cases c
    · exact ⟨.less, by decide, by decide, rfl, rfl, fun _ => rfl⟩
    · exact ⟨.greater, by decide, by decide, rfl, rfl, fun _ => rfl⟩
    · exact ⟨.atMost, by decide, by decide, rfl, rfl, fun _ => rfl⟩
    · exact ⟨.atLeast, by decide, by decide, rfl, rfl, fun _ => rfl⟩
  rw [← hsign, h.isToken_text.convertRange_operator h.isSettled_of_mem_text hbare hequal, hbound,
    hwritten, dropVersionLetters_text, hsign]
  cases convertVersion v.spelled.text <;> rfl

theorem convertRange_tilde (hx : 'x' ∉ v.prerelease) :
    convertRange ('~' :: v.text) = (fun t => '~' :: t) <$> convertVersion v.spelled.text := by
  have htilde : convertRange (Operator.tilde.sign ++ v.text) = _ :=
    h.isToken_text.convertRange_operator h.isSettled_of_mem_text (by decide) (by decide)
  have hzero : zeroWildcards v.spelled.text = v.spelled.text :=
    Text.substitute_eq_self (h.spelled.isWildcard_eq_false (not_mem_spelled hx)) _
  rw [dropVersionLetters_text, Operator.bound, hzero] at htilde
  exact htilde

/-- The left side of a hyphen range is a release, so it has no wildcards. -/
theorem convertRange_hyphen (hx : 'x' ∉ v.prerelease) (a b c : DigitRun) :
    convertRange ((Atom.patch a b c).text ++ hyphenMarker ++ v.text) = do
      let low ← convertVersion (Atom.patch a b c).text
      let high ← convertVersion v.spelled.text
      return ['>', '='] ++ low ++ ([',', '<', '='] ++ high) := by
  have hrelease : Target.IsReleaseText (Atom.patch a b c).text := Atom.isReleaseText_text rfl
  have hchars := isPrereleaseChar_of_isReleaseText hrelease
  have htoken : IsToken (Atom.patch a b c).text :=
    isToken_of_isPrereleaseChar hchars (Atom.text_ne_nil _)
  have hsettled : ∀ d ∈ (Atom.patch a b c).text ++ v.text, Text.isSettled d = true := by
    intro d hd
    rcases List.mem_append.1 hd with hd | hd
    · exact isSettled_of_isPrereleaseChar hchars d hd
    · exact h.isSettled_of_mem_text d hd
  have hcomplete : isCompleteSide v.spelled.text = true := by
    have hwild : hasWildcard v.spelled.text = false :=
      List.any_eq_false.2 fun d hd => by
        simp [h.spelled.isWildcard_eq_false (not_mem_spelled hx) d hd]
    simp [isCompleteSide, hwild, v.spelled.point_mem_text]
  have hhyphen := htoken.convertRange_hyphen h.isToken_text hsettled (hrelease.not_mem (by decide))
    (hrelease.not_mem (by decide)) (by rwa [dropVersionLetters_text])
  rw [hhyphen, dropVersionLetters_text]
  cases hlow : convertVersion (Atom.patch a b c).text with
  | error e => rfl
  | ok low =>
    have hplain := Atom.isReleaseText_of_convertVersion (.inl rfl) hlow
    have hzero : zeroWildcards low = low := by
      refine Text.substitute_eq_self (fun d hd => ?_) _
      rcases hplain.isDigit_or_eq d hd with hd | rfl
      · exact Atom.isWildcard_of_isDigit hd
      · rfl
    have hside : lowerSide low = ['>', '='] ++ low := by
      rw [lowerSide, hzero]
      rfl
    cases convertVersion v.spelled.text with
    | error e => rfl
    | ok high => exact congrArg Except.ok (congrArg (· ++ _) hside)

end IsOrdinary

/-- **Full versions under operators**: a range is the operator and the conversion of the version as
it is spelled, which is the version itself when no letter v stands in front of a digit. A comparator
makes the wildcards concrete that stood behind the marker of a registry, and changes nothing else.
Without the wildcard letter in its prerelease a version becomes the same behind a tilde and on the
right of a hyphen, whose left side stays unless it opens with a date. -/
theorem convertRange_operators {v : FullVersion} (h : v.IsOrdinary) :
    ((∀ d, ['v', d] <:+: v.prerelease → d.isDigit = false) → v.spelled = v) ∧
      ∃ t, convertVersion v.spelled.text = .ok t ∧ convertRange v.text = .ok t ∧
        (∀ c : Comparator, ∀ e ∈ [[], ['=']], convertRange (c.sign ++ e ++ v.text) =
          .ok (c.sign ++ e ++ fillWildcards c.side t)) ∧
        ((∀ m ∈ registryMarkers, Text.contains m v.spelled.text = false) ∨ 'x' ∉ v.prerelease →
          ∀ side, fillWildcards side t = t) ∧
        ('x' ∉ v.prerelease → convertRange ('~' :: v.text) = .ok ('~' :: t) ∧
          ∀ a b c : DigitRun,
            convertRange ((Atom.patch a b c).text ++ hyphenMarker ++ v.text) =
              (fun low => ['>', '='] ++ low ++ ([',', '<', '='] ++ t)) <$>
                convertVersion (Atom.patch a b c).text ∧
            (a.digits.length < 7 →
              convertVersion (Atom.patch a b c).text = .ok (Atom.patch a b c).text)) := by
  have ht := h.spelled.convertVersion_text
  refine ⟨h.spelled_eq_self, convertSuffix v.spelled.text, ht, ?_, ?_, ?_, ?_⟩
  · rw [h.convertRange_text, ht]
  · intro c e he
    rw [h.convertRange_comparator c he, ht]
    rfl
  · intro hx side
    exact Text.substitute_eq_self
      (h.spelled.isSmallWildcard_eq_false (hx.imp_right not_mem_spelled)) _
  · intro hx
    constructor
    · rw [h.convertRange_tilde hx, ht]
      rfl
    · intro a b c
      have hshort := Atom.convertVersion_text_of_short (v := .patch a b c)
      refine ⟨?_, hshort⟩
      rw [h.convertRange_hyphen hx, ht]
      cases convertVersion (Atom.patch a b c).text <;> rfl

/-- The versions 1.2.3 with a prerelease. -/
def third (prerelease : Text) : FullVersion where
  major := ⟨['1'], by simp, by simp⟩
  minor := ⟨['2'], by simp, by simp⟩
  patch := ⟨['3'], by simp, by simp⟩
  prerelease := prerelease

/-- A release candidate under an operator of each kind. -/
theorem convertRange_operators_candidate :
    (third "rc.1".toList).IsOrdinary ∧
    convertRange "1.2.3-rc.1".toList = .ok "1.2.3-RC.1".toList ∧
    convertRange "<=1.2.3-rc.1".toList = .ok "<=1.2.3-RC.1".toList ∧
    convertRange "~1.2.3-rc.1".toList = .ok "~1.2.3-RC.1".toList ∧
    convertRange "1.2.3 - 1.2.3-rc.1".toList = .ok ">=1.2.3,<=1.2.3-RC.1".toList := by
  have h : (third "rc.1".toList).IsOrdinary := ⟨by decide, rfl, List.all_iff_forall_prop.1 rfl⟩
  have hx : 'x' ∉ (third "rc.1".toList).prerelease := by decide
  obtain ⟨-, t, ht, hbare, hcomparator, hfill, hrest⟩ := convertRange_operators h
  have htext : (third "rc.1".toList).text = "1.2.3-rc.1".toList := rfl
  have hconvert : convertVersion (third "rc.1".toList).spelled.text = .ok "1.2.3-RC.1".toList := rfl
  obtain rfl := Except.ok.inj (hconvert.symm.trans ht)
  obtain ⟨htilde, hhyphen⟩ := hrest hx
  have hless := hcomparator .less ['='] (by simp)
  have hrange := hhyphen (third []).major (third []).minor (third []).patch
  rw [hfill (.inr hx), htext] at hless
  rw [hrange.2 (by decide), htext] at hrange
  rw [htext] at hbare htilde
  exact ⟨h, hbare, hless, htilde, hrange.1⟩

/-- **Versions that an operator changes**: the letter v of a keyword goes where a digit follows, what
stands behind the marker of a registry is a wildcard under a comparator, and so is the letter x of a
keyword behind a tilde and on the right of a hyphen. On the left of one a date is converted as
well. -/
theorem convertRange_ne_convertVersion :
    ((third "dev1".toList).IsOrdinary ∧
      convertVersion (third "dev1".toList).text = .ok "1.2.3-dev".toList ∧
      convertRange ('<' :: (third "dev1".toList).text) = .ok "<1.2.3-patch1".toList) ∧
    ((third "npm-packages.x".toList).IsOrdinary ∧
      convertVersion (third "npm-packages.x".toList).text = .ok "1.2.3.x".toList ∧
      convertRange ('<' :: (third "npm-packages.x".toList).text) =
        .ok "<1.2.3.9999999".toList) ∧
    ((third "next.1".toList).IsOrdinary ∧
      convertVersion (third "next.1".toList).text = .ok "1.2.3-patch.1".toList ∧
      convertRange ('~' :: (third "next.1".toList).text) = .ok "~1.2.3-patch0".toList ∧
      convertRange ("1.0.0 - ".toList ++ (third "next.1".toList).text) =
        .ok ">=1.0.0,<1.2.4.1".toList) ∧
    (third "rc1".toList).IsOrdinary ∧
      convertVersion (third "rc1".toList).text = .ok "1.2.3-RC1".toList ∧
      convertRange ("20170124.1.2 - ".toList ++ (third "rc1".toList).text) =
        .ok ">=20170124.001002,<=1.2.3-RC1".toList :=
  ⟨⟨⟨by decide, rfl, List.all_iff_forall_prop.1 rfl⟩, rfl, rfl⟩,
    ⟨⟨by decide, rfl, List.all_iff_forall_prop.1 rfl⟩, rfl, rfl⟩,
    ⟨⟨by decide, rfl, List.all_iff_forall_prop.1 rfl⟩, rfl, rfl, rfl⟩,
    ⟨by decide, rfl, List.all_iff_forall_prop.1 rfl⟩, rfl, rfl⟩

end FullVersion

end AssetBridge.Source
