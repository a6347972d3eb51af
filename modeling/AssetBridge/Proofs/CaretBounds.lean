import AssetBridge.Proofs.Comparisons
import AssetBridge.Proofs.Precedence
import AssetBridge.Proofs.Readings
import AssetBridge.Proofs.ReleasePrefixes

/-!
# The two readings of a caret

A caret range is expanded into two comparisons on its way into the target grammar, which has carets
of its own and reads them as two bounds. The expansion walks over the components and raises the
first that is not zero; the target grammar computes its position. For a release of one to three
numbers, and for a numbered prerelease of three, the comparisons are read as the very bounds of the
caret.

## Main definitions

* `CaretVersion`: the versions behind a caret
* `CaretVersion.IsOrdinary`: those whose numbers can be raised

## Main results

* `Constraint.parse_pair`: two parts with a comma between them
* `Atom.padRelease_caretEnd`: both readings raise the same component
* `CaretVersion.parse_expandCaret`: the two readings agree
-/

namespace AssetBridge

open Numeral (dotted digits maxDigits)

/-! ## Two parts -/

namespace Target.Constraint

/-- **Two parts** with a comma between them are read one after the other. -/
theorem parse_pair {a b : Text} (ha : a ≠ []) (hb : b ≠ [])
    (hchars : ∀ c, c ∈ a ∨ c ∈ b → isPartSeparator c = false ∧ c ≠ '|') :
    parse (a ++ ',' :: b) = do
      let x ← (parsePart a).mapError (locate a (a ++ ',' :: b))
      let y ← (parsePart b).mapError (locate b (a ++ ',' :: b))
      return ⟨a ++ ',' :: b, [x ++ y]⟩ := by
  have hmem : ∀ c ∈ a ++ ',' :: b, Text.isBlank c = false ∧ c ≠ '|' := by
    intro c hc
    simp only [List.mem_append, List.mem_cons] at hc
    have hpart : c ∈ a ∨ c ∈ b → Text.isBlank c = false ∧ c ≠ '|' := fun hc => by
      obtain ⟨hsep, hbar⟩ := hchars c hc
      rw [isPartSeparator, Bool.or_eq_false_iff] at hsep
      exact ⟨hsep.2, hbar⟩
    rcases hc with hc | rfl | hc
    · exact hpart (.inl hc)
    · decide
    · exact hpart (.inr hc)
  have hstrip : Text.strip (a ++ ',' :: b) = a ++ ',' :: b :=
    Text.strip_of_forall fun c hc => (hmem c hc).1
  have hbars : splitBars false (a ++ ',' :: b) = [a ++ ',' :: b] :=
    splitBars_eq_singleton fun hm => (hmem '|' hm).2 rfl
  have hwords : Text.words isPartSeparator (a ++ ',' :: b) = [a, b] := by
    rw [Text.words_append_cons rfl, Text.words_eq_singleton ha fun c hc => (hchars c (.inl hc)).1,
      Text.words_eq_singleton hb fun c hc => (hchars c (.inr hc)).1]
    rfl
  have hne : (a ++ ',' :: b).isEmpty = false := by simp
  rw [parse, hstrip, hne, hbars]
  simp only [Bool.false_eq_true, if_false, List.mapM_cons, List.mapM_nil, parseAlternative, hwords,
    List.isEmpty_cons]
  cases (parsePart a).mapError (locate a (a ++ ',' :: b)) with
  | error e => rfl
  | ok x =>
    cases (parsePart b).mapError (locate b (a ++ ',' :: b)) with
    | error e => rfl
    | ok y =>
      show Except.ok (Constraint.mk _ [List.flatten [x, y]]) = .ok ⟨_, [x ++ y]⟩
      simp

end Target.Constraint

/-! ## The end of a caret range -/

namespace Source

open Target (bump caretPosition)

/-- The position of the first number that is not zero, or of the last one. -/
def firstPositive (ns : List Nat) : Nat := (ns.findIdx? (0 < ·)).getD (ns.length - 1)

theorem firstPositive_of_pos {n : Nat} (hn : 0 < n) (ns : List Nat) :
    firstPositive (n :: ns) = 0 := by
  simp [firstPositive, List.findIdx?_cons, hn]

theorem firstPositive_zero_cons {ns : List Nat} (hne : ns ≠ []) :
    firstPositive (0 :: ns) = firstPositive ns + 1 := by
  have hpos := List.length_pos_iff.2 hne
  rw [firstPositive, List.findIdx?_cons, if_neg (by decide), firstPositive]
  cases ns.findIdx? (0 < ·) with
  | none => simp only [Option.map_none, Option.getD_none, List.length_cons]; omega
  | some i => rfl

/-- **Walking over the components** raises the first number that is not zero, or the last one, but
none behind the given position, and leaves zeros behind it. -/
theorem raiseNumbers_eq {ns : List Nat} (hne : ns ≠ []) (hle : ∀ m ∈ ns.tail, m ≤ 9999998)
    (k : Nat) : raiseNumbers k ns = bump ns (min (firstPositive ns) k) ++
      List.replicate (ns.length - (min (firstPositive ns) k + 1)) 0 := by
  induction k, ns using raiseNumbers.induct with
  | case1 => exact absurd rfl hne
  | case2 n ns =>
    rw [raiseNumbers, Nat.min_zero, List.map_const']
    rfl
  | case3 k n =>
    have hfirst : firstPositive [n] = 0 := by
      rcases Nat.eq_zero_or_pos n with rfl | hn
      · rfl
      · exact firstPositive_of_pos hn []
    rw [raiseNumbers, hfirst, Nat.zero_min]
    rfl
  | case4 k n m ns hraise =>
    have hm : m ≤ 9999998 := hle m List.mem_cons_self
    have hn : 0 < n := by omega
    rw [raiseNumbers, if_pos hraise, firstPositive_of_pos hn, Nat.zero_min, List.map_const']
    rfl
  | case5 k n m ns hraise ih =>
    obtain rfl : n = 0 := by omega
    have hne : m :: ns ≠ [] := List.cons_ne_nil m ns
    have hzeros (q : Nat) : (0 :: m :: ns).length - (q.succ + 1) = (m :: ns).length - (q + 1) := by
      rw [List.length_cons]
      omega
    rw [raiseNumbers, if_neg hraise, ih hne fun d hd => hle d (List.mem_cons_of_mem m hd),
      firstPositive_zero_cons hne, Nat.succ_min_succ, hzeros]
    rfl

end Source

namespace Target.Version

theorem padRelease_padThree {ns : List Nat} (h : ns.length ≤ 3) :
    padRelease (Source.padThree ns) = padRelease ns :=
  padRelease_append_zeros (by simp only [releaseLength]; omega)

end Target.Version

namespace Grammar

open Source Target
open Npm (Stage)

namespace Atom

variable {v : Atom Nat}

theorem text_eq_dotted (hw : v.wilds = []) : v.text = dotted v.numbers := by
  rw [text_eq_join, behind, hw, List.map_nil, List.append_nil, dotted, v.numbers_eq_cons]
  rfl

theorem filled_eq_numbers (hw : v.wilds = []) (k : Nat) : v.filled k = v.numbers := by
  rw [filled, hw, List.map_nil, List.append_nil]

/-- **The component that is raised** is the same one, whether it is found by walking over the
components or from its position. -/
theorem padRelease_caretEnd (hw : v.wilds = []) (h : v.Within 9999998) :
    Version.padRelease v.caretEnd =
      Version.padRelease (bump v.numbers (caretPosition v.numbers)) := by
  have hlength : v.numbers.length ≤ 3 := filled_eq_numbers hw 0 ▸ length_filled 0 v
  have hne : v.numbers ≠ [] := v.numbers_eq_cons ▸ List.cons_ne_nil _ _
  -- No position of three numbers is behind the second, so it does not matter where to stop.
  have hposition : min (firstPositive v.numbers) decidingComponents = caretPosition v.numbers := by
    have hlt : firstPositive v.numbers < v.numbers.length := findIdx?_getD_lt hne
    rw [decidingComponents, caretPosition, ← firstPositive]
    omega
  have hlt := (caretPosition_lt hne).1
  have hbump : (bump v.numbers (caretPosition v.numbers)).length = caretPosition v.numbers + 1 := by
    rw [bump, List.length_append, List.length_take_of_le (Nat.le_of_lt hlt), List.length_singleton]
  rw [caretEnd, filled_eq_numbers hw, Version.padRelease_padThree (by rwa [length_raiseNumbers]),
    raiseNumbers_eq hne (fun m hm => h.le m hm), hposition]
  exact Version.padRelease_append_zeros (by rw [hbump, Version.releaseLength]; omega)

end Atom

/-! ## The two readings -/

/-- A version behind a caret: a release of one to three numbers, or a numbered prerelease of
three. The number of the prerelease is any run of digits. -/
inductive CaretVersion where
  | release (v : Atom Nat)
  | staged (r : Npm.Release) (stage : Stage) (number : DigitRun)

namespace CaretVersion

/-- The text of a version. -/
def text : CaretVersion → Text
  | release v => v.text
  | staged r stage number => r.text ++ runSuffix stage.name number

/-- The release of a version. -/
def atom : CaretVersion → Atom Nat
  | release v => v
  | staged r _ _ => .patch r.major r.minor r.patch

/-- The run of digits that the number of a prerelease is. -/
def number : CaretVersion → Text
  | release _ => []
  | staged _ _ number => number.digits

/-- A release without wildcards whose numbers are below the largest ones that can be raised. -/
structure IsOrdinary (v : CaretVersion) : Prop where
  wilds_eq_nil : v.atom.wilds = []
  within : v.atom.Within 9999998

/-- The bounds of a version behind a caret, given its lower one. -/
def bounds (v : CaretVersion) (lower : Version) : List Bound :=
  [⟨.ge, lower⟩, ⟨.lt, .lowestOf (bump v.atom.numbers (caretPosition v.atom.numbers))⟩]

variable {v : CaretVersion}

theorem IsOrdinary.fits_numbers (h : v.IsOrdinary) :
    Numeral.Fits v.atom.numbers ∧ v.atom.numbers.length ≤ 3 :=
  h.within.fits_numbers (by decide)

theorem IsOrdinary.lowestOf_caretEnd (h : v.IsOrdinary) : Version.lowestOf v.atom.caretEnd =
    .lowestOf (bump v.atom.numbers (caretPosition v.atom.numbers)) := by
  rw [Version.lowestOf, Atom.padRelease_caretEnd h.wilds_eq_nil h.within, ← Version.lowestOf]

end CaretVersion

/-- What no expanded caret range is split at. -/
theorem not_separator {c : Char} (h : c.isDigit = true ∨ c ∈ '>' :: '=' :: '<' :: stageChars) :
    Constraint.isPartSeparator c = false ∧ c ≠ '|' := by
  rcases h with hd | hm
  · have hblank := Text.isBlank_eq_false_of_isDigit hd
    have hcomma : c ≠ ',' := Text.ne_of_isDigit hd rfl
    exact ⟨by simp [Constraint.isPartSeparator, hblank, hcomma], Text.ne_of_isDigit hd rfl⟩
  · have hall : ∀ c ∈ '>' :: '=' :: '<' :: stageChars,
        Constraint.isPartSeparator c = false ∧ c ≠ '|' := List.all_iff_forall_prop.1 rfl
    exact hall c hm

/-- A comparison with a version that has a normal form is refused only for the length of its
numbers, which is told without the part. -/
theorem mapError_comparisonBound {o : Target.Operator} {w n : Text} (hn : normalize w = .ok n)
    (part whole : Text) : (comparisonBound o w).mapError (Constraint.locate part whole) =
      comparisonBound o w := by
  have hread : readVersion w =
      ((Version.ofNormal n).mapError VersionError.numeral).mapError .version := by
    rw [readVersion, Version.parse, hn]
    rfl
  rw [comparisonBound, hread, hn]
  cases Version.ofNormal n <;> rfl

/-- **An expanded caret range** is read as the bound of its lower version and the one of its
end. -/
theorem parse_expanded {w n : Text} (hw : ∀ c ∈ w, c.isDigit = true ∨ c ∈ stageChars)
    (hn : normalize w = .ok n) {e : List Nat} (he : Numeral.Fits e) :
    Constraint.parse (['>', '='] ++ w ++ ([',', '<'] ++ dotted e)) =
      (fun b => ⟨['>', '='] ++ w ++ ([',', '<'] ++ dotted e), [[b, ⟨.lt, .lowestOf e⟩]]⟩) <$>
        comparisonBound .ge w := by
  have hchars : ∀ c, c ∈ ['>', '='] ++ w ∨ c ∈ '<' :: dotted e →
      Constraint.isPartSeparator c = false ∧ c ≠ '|' := by
    intro c hc
    refine not_separator ?_
    rcases hc with hc | hc
    · rcases List.mem_append.1 hc with hc | hc
      · exact .inr (List.mem_append_left ('<' :: stageChars) hc)
      · exact (hw c hc).imp_right fun hm => List.mem_append_right ['>', '=', '<'] hm
    · rcases List.mem_cons.1 hc with rfl | hc
      · exact .inr (by decide)
      · refine (Numeral.isDigit_or_eq_of_mem_dotted hc).imp_right ?_
        rintro rfl
        decide
  have hblank : ∀ c ∈ w, Text.isBlank c = false := by
    intro c hc
    obtain ⟨hsep, -⟩ := hchars c (.inl (List.mem_append_right _ hc))
    rw [Constraint.isPartSeparator, Bool.or_eq_false_iff] at hsep
    exact hsep.2
  have hlower : parsePart (['>', '='] ++ w) = (fun b => [b]) <$> comparisonBound .ge w :=
    parsePart_comparison hblank hn (p := (['>', '='], .ge)) (by decide)
  have hupper : parsePart ('<' :: dotted e) = .ok [⟨.lt, .lowestOf e⟩] := parsePart_compare .less he
  have hpair := Constraint.parse_pair (a := ['>', '='] ++ w) (b := '<' :: dotted e) (by simp)
    (by simp) hchars
  rw [hupper, hlower] at hpair
  have hself := mapError_comparisonBound (o := .ge) hn (['>', '='] ++ w)
    (['>', '='] ++ w ++ ',' :: '<' :: dotted e)
  rw [show ['>', '='] ++ w ++ ([',', '<'] ++ dotted e) = ['>', '='] ++ w ++ ',' :: '<' :: dotted e
    from rfl, hpair]
  revert hself
  cases comparisonBound .ge w with
  | error cause => exact fun hself => congrArg Except.error (Except.error.inj hself)
  | ok b => exact fun _ => rfl

theorem isDigit_or_mem_of_dotted {ns : List Nat} :
    ∀ c ∈ dotted ns, c.isDigit = true ∨ c ∈ stageChars := by
  intro c hc
  refine (Numeral.isDigit_or_eq_of_mem_dotted hc).imp_right ?_
  rintro rfl
  decide

theorem isSmallWildcard_eq_false {c : Char} (h : c.isDigit = true ∨ c ∈ stageChars) :
    isSmallWildcard c = false := by
  rcases h with hd | hm
  · exact Atom.isSmallWildcard_of_isDigit hd
  · have hall : ∀ c ∈ stageChars, isSmallWildcard c = false := List.all_iff_forall_prop.1 rfl
    exact hall c hm

/-- A text of three fields and more has them already. -/
theorem standardize_fields {a b : Text} (ha : '.' ∉ a) (hb : '.' ∉ b) (r : Text) :
    standardize (Text.fields '.' (a ++ '.' :: (b ++ '.' :: r))) = a ++ '.' :: (b ++ '.' :: r) := by
  have hlength : 3 ≤ (Text.fields '.' (a ++ '.' :: (b ++ '.' :: r))).length := by
    rw [Text.fields_append_cons ha, Text.fields_append_cons hb, List.length_cons, List.length_cons]
    have := List.length_pos_iff.2 (Text.splitWhere_ne_nil (· == '.') r)
    simp only [Text.fields]
    omega
  rw [standardize, Nat.sub_eq_zero_of_le hlength, List.replicate_zero, List.append_nil,
    Text.join_fields]

/-- A suffix behind a hyphen, as a version behind a tilde or caret has it. -/
theorem partialSuffix?_runSuffix {s : Stage} {w : Text} (hw : IsStageWord s w) (d : DigitRun) :
    partialSuffix? (runSuffix w d) = some true := by
  have hfeed : '\n' ∉ w ++ '.' :: d.digits := fun hm =>
    not_mem_runSuffix hw rfl (by decide) (List.mem_cons_of_mem '-' hm : '\n' ∈ runSuffix w d)
  obtain ⟨htake, hdrop⟩ := Text.scan_eq_of_forall (Text.bne_of_not_mem hfeed)
  have hne : (w ++ '.' :: d.digits).isEmpty = false := by simp
  simp [partialSuffix?, runSuffix, Text.isFinal, htake, hdrop]

namespace CaretVersion

/-- **What both readings have in common**: the text of the lower version in the target grammar, its
normal form, and what it is read as. -/
structure IsRead (v : CaretVersion) (w n : Text) (lower : Except ConstraintError Version) :
    Prop where
  expandCaret_eq : expandCaret v.text =
    .ok (['>', '='] ++ w ++ ([',', '<'] ++ dotted v.atom.caretEnd))
  isDigit_or_mem : ∀ c ∈ w, c.isDigit = true ∨ c ∈ stageChars
  normalize_eq : normalize w = .ok n
  comparisonBound_eq : comparisonBound .ge w = Bound.mk .ge <$> lower
  parsePart_eq : parsePart ('^' :: v.text) = v.bounds <$> lower
  exists_lower : v.number.length ≤ maxDigits → ∃ l, lower = .ok l

/-- A release stands for its lowest version. -/
theorem isRead_release {v : Atom Nat} (hw : v.wilds = []) (h : v.Within 9999998) :
    IsRead (.release v) (dotted (padThree v.numbers))
      (dotted (Version.padRelease (padThree v.numbers))) (.ok (.lowestOf v.numbers)) where
  expandCaret_eq := by
    have hexpand := Atom.expandCaret_text (by decide) h
    rwa [Atom.filled_eq_numbers hw] at hexpand
  isDigit_or_mem := isDigit_or_mem_of_dotted
  normalize_eq := by
    obtain ⟨hfits, hlength⟩ : Numeral.Fits v.numbers ∧ _ := h.fits_numbers (by decide)
    exact normalize_dotted (fits_padThree hfits hlength).1.isReadable
  comparisonBound_eq := by
    obtain ⟨hfits, hlength⟩ : Numeral.Fits v.numbers ∧ _ := h.fits_numbers (by decide)
    rw [comparisonBound_dotted (fits_padThree hfits hlength).1, Version.lowestOf,
      Version.padRelease_padThree hlength]
    rfl
  parsePart_eq := by
    obtain ⟨hfits, -⟩ : Numeral.Fits v.numbers ∧ _ := h.fits_numbers (by decide)
    rw [text, Atom.text_eq_dotted hw]
    exact partialBounds_dotted hfits caretPosition _
  exists_lower _ := ⟨_, rfl⟩

section Staged

variable {r : Npm.Release} {s : Stage} {d : DigitRun}

theorem isDigit_or_mem_staged : ∀ c ∈ r.text ++ runSuffix s.stability.keyword d,
    c.isDigit = true ∨ c ∈ stageChars := by
  intro c hc
  rcases List.mem_append.1 hc with hc | hc
  · exact isDigit_or_mem_of_dotted c hc
  · exact mem_runSuffix (.inr rfl) hc

theorem partialVersion?_staged : partialVersion? (r.text ++ runSuffix s.name d) =
    some ([r.major, r.minor, r.patch].map digits, true) := by
  have hname : IsStageWord s s.name := .inl rfl
  have hnumbers := numbers?_dotted r.major [r.minor, r.patch] (k := 4) (by simp)
    (runSuffix_spec hname d).1 rfl
  rw [partialVersion?, Npm.Release.text, hnumbers]
  simp only [partialSuffix?_runSuffix hname, Option.map_some]

variable (h : (staged r s d).IsOrdinary)
include h

theorem fits_staged : Numeral.Fits [r.major, r.minor, r.patch] := h.fits_numbers.1

/-- The suffix of a prerelease is no part of the upper bound, and the lower one has its three
components. -/
theorem expandCaret_staged : expandCaret (r.text ++ runSuffix s.name d) =
    .ok (['>', '='] ++ (r.text ++ runSuffix s.stability.keyword d) ++
      ([',', '<'] ++ dotted (staged r s d).atom.caretEnd)) := by
  have hconvert : convertVersion (r.text ++ runSuffix s.name d) =
      .ok (r.text ++ runSuffix s.stability.keyword d) :=
    convertVersion_run ((fits_staged h).head_lt _ rfl) (by simp) s d
  have hupper : splitUpperBound (r.text ++ runSuffix s.name d) =
      splitUpperBound (staged r s d).atom.text := by
    have hhyphen : '-' ∉ r.text := Numeral.not_mem_dotted (by decide)
    have htext : (staged r s d).atom.text = r.text := Atom.text_eq_dotted rfl
    rw [htext, splitUpperBound, splitUpperBound, runSuffix, Text.cut_append_cons hhyphen,
      Text.cut_eq_self hhyphen]
  have hfill : fillWildcards .lower (r.text ++ runSuffix s.stability.keyword d) =
      r.text ++ runSuffix s.stability.keyword d :=
    Text.substitute_eq_self
      (fun c hc => isSmallWildcard_eq_false (isDigit_or_mem_staged c hc)) _
  have htext : r.text ++ runSuffix s.stability.keyword d = digits r.major ++
      '.' :: (digits r.minor ++ '.' :: (digits r.patch ++ runSuffix s.stability.keyword d)) := by
    simp [Npm.Release.text, Numeral.dotted_cons, Numeral.points_cons]
  have hpoint : ∀ n, '.' ∉ digits n := fun n => Numeral.not_mem_digits rfl
  have hthree := standardize_fields (hpoint r.major) (hpoint r.minor)
    (digits r.patch ++ runSuffix s.stability.keyword d)
  rw [← htext] at hthree
  rw [Atom.expandCaret_eq (by decide) h.within hconvert hupper, hfill, hthree]

/-- A prerelease stands for itself, and both spellings of its stage name one version. -/
theorem isRead_staged : IsRead (.staged r s d) (r.text ++ runSuffix s.stability.keyword d)
    (dotted (Version.padRelease [r.major, r.minor, r.patch]) ++
      '-' :: (s.stability.keyword ++ d.digits))
    (readVersion (r.text ++ runSuffix s.stability.keyword d)) where
  expandCaret_eq := expandCaret_staged h
  isDigit_or_mem := isDigit_or_mem_staged
  normalize_eq := normalize_run (.inr rfl) d (fits_staged h).isReadable
  comparisonBound_eq := by
    have hnormal := normalize_run (s := s) (.inr rfl) d (fits_staged h).isReadable
    rw [comparisonBound, Npm.Release.text, hnormal]
    cases readVersion (dotted [r.major, r.minor, r.patch] ++ runSuffix s.stability.keyword d) with
    | error e => rfl
    | ok v =>
      show Except.ok (Bound.mk .ge (if _ then _ else _)) = .ok (Bound.mk .ge v)
      rw [if_neg (by simp)]
  parsePart_eq := by
    have hfits := fits_staged h
    have hsame : readVersion (r.text ++ runSuffix s.name d) =
        readVersion (r.text ++ runSuffix s.stability.keyword d) := by
      rw [readVersion, readVersion, Version.parse, Version.parse, Npm.Release.text,
        normalize_run (.inl rfl) d hfits.isReadable, normalize_run (.inr rfl) d hfits.isReadable]
    show partialBounds caretPosition (r.text ++ runSuffix s.name d) _ = _
    rw [partialBounds, partialVersion?_staged]
    simp only [mapM_readNumber hfits.lt, hsame]
    cases readVersion (r.text ++ runSuffix s.stability.keyword d) <;> rfl
  exists_lower hd :=
    ⟨_, by rw [readVersion, Npm.Release.text,
      Version.parse_run (fits_staged h).isReadable (.inr rfl) hd]; rfl⟩

end Staged

end CaretVersion

/-- **The two readings of a caret agree.** A caret range is expanded into a constraint with one
alternative, the bounds that the caret is read as in the target grammar; where the number of a
prerelease is too long for one, it is for the other. -/
theorem CaretVersion.parse_expandCaret {v : CaretVersion} (h : v.IsOrdinary) :
    ∃ s, expandCaret v.text = .ok s ∧
      Constraint.alternatives <$> Constraint.parse s =
        (fun bs => [bs]) <$> parsePart ('^' :: v.text) ∧
      (v.number.length ≤ maxDigits →
        ∃ lower, parsePart ('^' :: v.text) = .ok (v.bounds lower)) := by
  have hread : ∃ w n lower, v.IsRead w n lower := by
    cases v with
    | release v => exact ⟨_, _, _, isRead_release h.wilds_eq_nil h.within⟩
    | staged r s d => exact ⟨_, _, _, isRead_staged h⟩
  obtain ⟨w, n, lower, hread⟩ := hread
  refine ⟨_, hread.expandCaret_eq, ?_, fun hd => ?_⟩
  · have hend : Numeral.Fits v.atom.caretEnd := (h.within.fits_caretEnd (by decide)).1
    rw [parse_expanded hread.isDigit_or_mem hread.normalize_eq hend, hread.comparisonBound_eq,
      hread.parsePart_eq, h.lowestOf_caretEnd]
    cases lower <;> rfl
  · obtain ⟨l, hl⟩ := hread.exists_lower hd
    exact ⟨l, by rw [hread.parsePart_eq, hl]; rfl⟩

/-- A release candidate in front of the first minor release. -/
theorem CaretVersion.parse_expandCaret_candidate :
    ∃ s, expandCaret "0.2.3-rc.07".toList = .ok s ∧
      Constraint.alternatives <$> Constraint.parse s =
        (fun bs => [bs]) <$> parsePart "^0.2.3-rc.07".toList ∧
      ∃ lower, parsePart "^0.2.3-rc.07".toList = .ok [⟨.ge, lower⟩, ⟨.lt, .lowestOf [0, 3]⟩] := by
  let v : CaretVersion :=
    .staged ⟨0, 2, 3⟩ .rc ⟨"07".toList, by decide, List.all_iff_forall_prop.1 rfl⟩
  have hv : v.IsOrdinary := ⟨rfl, by decide⟩
  obtain ⟨s, hs, hagree, hlower⟩ := CaretVersion.parse_expandCaret hv
  exact ⟨s, hs, hagree, hlower (by decide)⟩

end Grammar

end AssetBridge
