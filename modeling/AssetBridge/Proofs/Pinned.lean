import AssetBridge.Proofs.Equalities
import AssetBridge.Proofs.NormalForms
import AssetBridge.Proofs.Positions
import AssetBridge.Proofs.Translation
import AssetBridge.Tag

/-!
# A version behind its branch

A version that is no tag can be kept as the second alternative behind a branch that is named after
it. The name of the branch goes through the conversion and is asked for as it stands, so the
constraint for both lets no version through that the one for the version alone keeps out, but for
the branch.

## Main definitions

* `Asset.branchOf`, `Asset.pinned`: the branch of a version, and the version behind it
* `Asset.KeepsVersions`: texts whose constraints let the same versions through

## Main results

* `Atom.validateBranch_text`: no version of a range can name a branch
* `convertRange_pinned`, `parse_branchOf`: the branch in the conversion and in the constraint
* `keepsVersions_pinned`: the branch lets no other version through
-/

namespace AssetBridge

/-! ## A lone version is a numeric branch -/

namespace Grammar

open Target (branchComponent numericBranch? openComponent normalizeBranch)

variable {α : Type} [Numeric α]

theorem branchComponent_digits (n : α) {r : Text} (hr : ∀ c ∈ r.head?, Text.isDecimal c = false) :
    branchComponent ('.' :: (Numeric.digits n ++ r)) = (some ('.' :: Numeric.digits n), r) := by
  have hd : ∀ c ∈ Numeric.digits n, c.isDigit = true := fun _ => Numeric.isDigit_of_mem
  have htake := Text.takeWhile_isDecimal_append hd r
  have hdrop := Text.dropWhile_isDecimal_append hd r
  obtain ⟨hr₁, hr₂⟩ := Text.scan_eq_of_head? hr
  rw [hr₁, List.append_nil] at htake
  rw [hr₂] at hdrop
  obtain ⟨c, ds, hc⟩ := List.exists_cons_of_ne_nil (Numeric.digits_ne_nil n)
  have hcd := hd c (hc ▸ List.mem_cons_self ..)
  have hmark : Target.isOpenMark c = false := by
    have hx : c ≠ 'x' := Text.ne_of_isDigit hcd rfl
    have hX : c ≠ 'X' := Text.ne_of_isDigit hcd rfl
    have hstar : c ≠ '*' := Text.ne_of_isDigit hcd rfl
    simp [Target.isOpenMark, hx, hX, hstar]
  rw [hc, List.cons_append] at htake hdrop ⊢
  simp only [branchComponent, hmark, Text.isDecimal_of_isDigit hcd, htake, hdrop, if_true,
    Bool.false_eq_true, if_false]

theorem branchComponent_wild (w : Wildcard) (r : Text) :
    branchComponent ('.' :: w.char :: r) = (some ('.' :: openComponent), r) := by
  cases w <;> rfl

/-- **A version of a range** names a numeric branch that leaves its last component open. -/
theorem Atom.exists_numericBranch? (v : Atom α) :
    ∃ s, numericBranch? v.text = some (s ++ '.' :: openComponent) := by
  have hletter : Target.dropVersionLetter v.text = v.text := by
    obtain ⟨c, r, hc, hd⟩ := v.exists_text_eq_cons
    have hv : c ≠ 'v' := Text.ne_of_isDigit hd rfl
    have hV : c ≠ 'V' := Text.ne_of_isDigit hd rfl
    rw [hc]
    simp [Target.dropVersionLetter, hv, hV]
  have htake := v.takeWhile_isDecimal_text
  have hne : (Numeric.digits v.first).isEmpty = false := by
    simpa using Numeric.digits_ne_nil v.first
  have hdrop : ∀ r : Text, (Numeric.digits v.first ++ r).dropWhile Text.isDecimal =
      r.dropWhile Text.isDecimal :=
    Text.dropWhile_isDecimal_append fun _ => Numeric.isDigit_of_mem
  have hpoint : ∀ r, ('.' :: r).dropWhile Text.isDecimal = '.' :: r := fun _ => rfl
  have hend : branchComponent [] = (none, []) := rfl
  have hlast : ∀ n : α, branchComponent ('.' :: Numeric.digits n) =
      (some ('.' :: Numeric.digits n), []) := by
    intro n
    simpa using branchComponent_digits n (r := []) (by simp)
  have hnext : ∀ (n : α) (r : Text), branchComponent ('.' :: (Numeric.digits n ++ '.' :: r)) =
      (some ('.' :: Numeric.digits n), '.' :: r) := by
    intro n r
    refine branchComponent_digits n ?_
    rintro c ⟨⟩
    decide
  simp only [numericBranch?, hletter, htake, hne]
  -- At most two components are named behind the first, so the fourth is left open.
  cases v with
  | major n =>
    have hnil := hdrop []
    rw [List.append_nil] at hnil
    simp only [text, first] at hnil ⊢
    simp only [hnil, List.dropWhile_nil, hend]
    exact ⟨_, rfl⟩
  | minor n m =>
    simp only [text, first] at hdrop ⊢
    simp only [hdrop, hpoint, hlast, hend]
    exact ⟨_, rfl⟩
  | patch n m p =>
    simp only [text, first] at hdrop ⊢
    simp only [hdrop, hpoint, hnext, hlast, hend]
    exact ⟨_, rfl⟩
  | majorWild n w =>
    simp only [text, first] at hdrop ⊢
    simp only [hdrop, hpoint, branchComponent_wild, hend]
    exact ⟨_, rfl⟩
  | majorWilds n w w' =>
    simp only [text, first] at hdrop ⊢
    simp only [hdrop, hpoint, branchComponent_wild, hend]
    exact ⟨_, rfl⟩
  | minorWild n m w =>
    simp only [text, first] at hdrop ⊢
    simp only [hdrop, hpoint, hnext, branchComponent_wild, hend]
    exact ⟨_, rfl⟩

theorem Atom.strip_text (v : Atom α) : Text.strip v.text = v.text :=
  Text.strip_of_forall fun _ => isBlank_eq_false_of_mem

/-- A version of a range cannot serve as the name of a branch. -/
theorem Atom.validateBranch_text (v : Atom α) : validateBranch v.text = none := by
  obtain ⟨s, hs⟩ := v.exists_numericBranch?
  have hmark : Text.contains openBranchMark (normalizeBranch v.text) = true := by
    rw [normalizeBranch, v.strip_text, hs]
    exact Text.contains_iff.2 ⟨s, [], by simp [openBranchMark]⟩
  rw [validateBranch, if_pos hmark]

end Grammar

/-! ## The branch -/

namespace Asset

/-- The branch that is named after a converted version. -/
def branchOf (converted : Text) : Text := Source.branchPrefix ++ converted

theorem branchOf_ne_nil (converted : Text) : branchOf converted ≠ [] := List.cons_ne_nil _ _

/-- That branch, and the version itself as a second alternative. -/
def pinned (converted s : Text) : Text := branchOf converted ++ " || ".toList ++ s

end Asset

namespace Grammar

open Source

variable {α : Type} [Numeric α]

/-- **A converted version** has the characters of a version, and at most one letter. -/
theorem Atom.mem_of_convertVersion {v : Atom α} {w : Text} (h : convertVersion v.text = .ok w) :
    (∀ c ∈ w, isAtomChar c = true) ∧ w.count 'x' ≤ 1 := by
  rcases Nat.lt_or_ge (Numeric.digits v.first).length 7 with hshort | hdate
  · obtain rfl := Except.ok.inj ((Atom.convertVersion_text_of_short hshort).symm.trans h)
    exact ⟨fun c => isAtomChar_of_mem, v.count_text_collapsed⟩
  -- A date leaves digits and points only.
  · have hrelease := isReleaseText_of_convertVersion (.inr hdate) h
    refine ⟨fun c hc => ?_, ?_⟩
    · rcases hrelease.isDigit_or_eq c hc with hd | rfl
      · exact isAtomChar_of_isDigit hd
      · rfl
    · have hx : 'x' ∉ w := fun hm => absurd (hrelease.isDigit_or_eq 'x' hm) (by decide)
      rw [List.count_eq_zero.2 hx]
      exact Nat.zero_le 1

section Branch

open Asset (branchOf pinned branchOf_ne_nil)

variable {w : Text} (hw : ∀ c ∈ w, isAtomChar c = true)

include hw

/-- What holds of the prefix and of every character of a version holds of the name of the branch. -/
theorem forall_branchOf {p : Char → Prop} (hopen : ∀ c ∈ branchPrefix, p c)
    (hatom : ∀ {c : Char}, isAtomChar c = true → p c) : ∀ c ∈ branchOf w, p c := by
  intro c hc
  rcases List.mem_append.1 hc with hc | hc
  · exact hopen c hc
  · exact hatom (hw c hc)

theorem not_mem_branchOf {c : Char} (hc : isAtomChar c = false) (hp : c ∉ branchPrefix) :
    c ∉ branchOf w := by
  intro hm
  rcases List.mem_append.1 hm with hm | hm
  · exact hp hm
  · rw [hw c hm] at hc
    cases hc

/-- The characters that neither the branch nor the version has, nor what stands between them. -/
theorem not_mem_branchOf_append {v : Atom α} {sep : Text} {c : Char} (hsep : c ∉ sep)
    (hc : isAtomChar c = false) (hp : c ∉ branchPrefix) :
    c ∉ branchOf w ++ (sep ++ v.text) := by
  rw [List.mem_append, List.mem_append, not_or, not_or]
  exact ⟨not_mem_branchOf hw hc hp, hsep, Atom.not_mem_text hc⟩

/-- **Converting** the name of the branch leaves it as it is. -/
theorem convertVersion_branchOf (hx : w.count 'x' ≤ 1) :
    convertVersion (branchOf w) = .ok (branchOf w) := by
  have hlatest : branchOf w ≠ latest := fun e => absurd (List.cons.inj e).1 (by decide)
  have hmarkers : dropRegistryMarkers (branchOf w) = branchOf w :=
    dropRegistryMarkers_of_not_mem (not_mem_branchOf hw (c := 'k') rfl (by decide)) (by decide)
  have hcount : (branchOf w).count 'x' ≤ 1 := by
    rw [branchOf, List.count_append]
    exact Nat.le_trans (Nat.le_of_eq (Nat.zero_add _)) hx
  have hsuffix : convertSuffix (branchOf w) = branchOf w :=
    (convertSuffix_of_versionHead?_eq_none hmarkers rfl).trans (collapseWildcards_eq_self hcount)
  rw [convertVersion_eq (branchOf_ne_nil w) hlatest (not_mem_branchOf hw rfl (by decide)) rfl,
    hsuffix]
  rfl

/-! ### Cleaning and cutting -/

omit hw in
theorem pinned_eq (v : Atom α) :
    pinned w v.text = branchOf w ++ ([' ', '|', '|', ' '] ++ v.text) := by
  simp [pinned]

/-- Of the operators only the double bar stands in the text, and has a blank behind it. -/
theorem foldl_tighten_pinned (v : Atom α) :
    tightOperators.foldl tighten (pinned w v.text) =
      branchOf w ++ ([' ', '|', '|'] ++ v.text) := by
  have hone : ∀ o : Char, isAtomChar o = false → o ∉ branchPrefix → o ∉ [' ', '|', '|', ' '] →
      tighten (pinned w v.text) [o] = pinned w v.text := by
    intro o hatom hopen hsep
    refine Text.replaceAll_eq_self_of_not_mem ?_ _ _
    rw [pinned_eq]
    exact not_mem_branchOf_append hw hsep hatom hopen
  have hbars :
      tighten (pinned w v.text) ['|', '|'] = branchOf w ++ ([' ', '|', '|'] ++ v.text) := by
    have hfront : '|' ∉ branchOf w ++ [' '] := by
      rw [List.mem_append, not_or]
      exact ⟨not_mem_branchOf hw rfl (by decide), by decide⟩
    have hreplace := Text.replaceAll_append_left hfront ['|', ' '] ['|', '|']
      (['|', '|', ' '] ++ v.text)
    rw [Text.replaceAll_append (by simp),
      Text.replaceAll_eq_self_of_not_mem (Atom.not_mem_text rfl)] at hreplace
    simpa [tighten, pinned_eq] using hreplace
  have ho : tightOperators = [['<'], ['>'], ['='], ['~'], ['^'], ['|', '|'], ['&', '&']] := rfl
  rw [ho]
  simp only [List.foldl_cons, List.foldl_nil]
  rw [hone '<' (by decide) (by decide) (by decide), hone '>' (by decide) (by decide) (by decide),
    hone '=' (by decide) (by decide) (by decide), hone '~' (by decide) (by decide) (by decide),
    hone '^' (by decide) (by decide) (by decide), hbars]
  exact Text.replaceAll_eq_self_of_not_mem
    (not_mem_branchOf_append hw (c := '&') (by decide) rfl (by decide)) _ _

/-- The only letter v is that of the prefix, and it has no number behind it. -/
theorem dropVersionLetters_branchOf_append (v : Atom α) :
    dropVersionLetters (branchOf w ++ ([' ', '|', '|'] ++ v.text)) =
      branchOf w ++ ([' ', '|', '|'] ++ v.text) := by
  have hrest : ∀ c : Char, isAtomChar c = false → c ∉ ['-', ' ', '|'] →
      c ∉ '-' :: (w ++ ([' ', '|', '|'] ++ v.text)) := by
    intro c hatom hsep hm
    have hcw : c ∉ w := fun hcw => by
      rw [hw c hcw] at hatom
      cases hatom
    have hcv := Atom.not_mem_text (v := v) hatom
    simp_all
  have hself := dropVersionLetters_eq_self (hrest 'v' (by decide) (by decide))
    (hrest 'V' (by decide) (by decide))
  show 'd' :: 'e' :: 'v' :: dropVersionLetters ('-' :: (w ++ ([' ', '|', '|'] ++ v.text))) = _
  rw [hself]
  rfl

/-- **Cleaning** takes the blanks around the bars behind the branch. -/
theorem clean_pinned (v : Atom α) :
    clean (pinned w v.text) = branchOf w ++ (['|', '|'] ++ v.text) := by
  have hblank : Text.replaceAll [' ', '|', '|'] ['|', '|']
      (branchOf w ++ ([' ', '|', '|'] ++ v.text)) = branchOf w ++ (['|', '|'] ++ v.text) := by
    rw [replaceAll_blankBars (not_mem_branchOf hw rfl (by decide)),
      Text.replaceAll_eq_self (by simp)
        (Text.contains_eq_false (c := '|') (by simp) (Atom.not_mem_text rfl))]
  have hand : '&' ∉ branchOf w ++ (['|', '|'] ++ v.text) :=
    not_mem_branchOf_append hw (by decide) rfl (by decide)
  calc clean (pinned w v.text)
      = Text.replaceAll ['&', '&'] [','] (Text.replaceAll [' ', '&', '&'] [',']
          (Text.replaceAll [' ', '|', '|'] ['|', '|']
            (dropVersionLetters (tightOperators.foldl tighten (pinned w v.text))))) := rfl
    _ = branchOf w ++ (['|', '|'] ++ v.text) := by
      rw [foldl_tighten_pinned hw, dropVersionLetters_branchOf_append hw, hblank,
        Text.replaceAll_eq_self (by simp) (Text.contains_eq_false (c := '&') (by simp) hand),
        Text.replaceAll_eq_self_of_not_mem hand]

theorem lower_pinned (v : Atom α) : Text.lower (pinned w v.text) = pinned w v.text := by
  have hatom : ∀ {e : Char}, isAtomChar e = true → Text.isSettled e = true := fun h =>
    isSettled_of_isItemChar (isItemChar_of_isAtomChar h)
  have hbranch := forall_branchOf hw (p := fun c => Text.isSettled c = true)
    (List.all_iff_forall_prop.1 rfl) hatom
  have hsep : ∀ e ∈ " || ".toList, Text.isSettled e = true := List.all_iff_forall_prop.1 rfl
  refine Text.lower_eq_self fun c hc => ?_
  rcases List.mem_append.1 hc with hc | hc
  · rcases List.mem_append.1 hc with hc | hc
    · exact hbranch c hc
    · exact hsep c hc
  · exact hatom (Atom.isAtomChar_of_mem hc)

/-- **The tokens** are the branch, a double bar and the version. -/
theorem tokenize_pinned (v : Atom α) :
    tokenize (clean (Text.lower (pinned w v.text))) = [branchOf w, ['|', '|'], v.text] := by
  have hplain := forall_branchOf hw (p := fun c => isPlain c = true)
    (List.all_iff_forall_prop.1 rfl) isPlain_of_isAtomChar
  have ht : Alternating [branchOf w, ['|', '|'], v.text] :=
    .cons hplain (by decide) (by decide) (.last v.isPlain_of_mem)
  have hf : [branchOf w, ['|', '|'], v.text].flatten = branchOf w ++ (['|', '|'] ++ v.text) := by
    simp
  rw [lower_pinned hw, clean_pinned hw, ← hf, tokenize_flatten ht]

/-- **Converting** the branch and the version keeps the one and converts the other. -/
theorem convertRange_pinned (hx : w.count 'x' ≤ 1) {v : Atom α}
    (hv : convertVersion v.text = .ok w) :
    convertRange (pinned w v.text) = .ok (branchOf w ++ '|' :: w) := by
  -- The branch opens the range, but it is no lone number.
  have hkind : TokenKind.ofToken (branchOf w) true = .atom := rfl
  have hlone : Pending.isLoneMajor (branchOf w) 0 (some ['|', '|']) = false := by
    have hnumeric : Numeral.isNumeric (branchOf w) = false := rfl
    simp [Pending.isLoneMajor, hnumeric]
  have hstep : Pending.none.step 0 true (branchOf w) (some ['|', '|']) =
      .ok (Pending.none, branchOf w) := by
    rw [Pending.step, hkind]
    simp only [Pending.atom, Pending.none, hlone, Bool.false_eq_true, if_false, Pending.finalize,
      convertVersion_branchOf hw hx]
    rfl
  have hbars : Pending.none.step 1 false ['|', '|'] (some v.text) = .ok (Pending.none, ['|']) := rfl
  have hbehind : later Pending.none [['|', '|'], v.text] = .ok ('|' :: w) := by
    have hne : [v.text].head? ≠ some hyphenMarker := by simpa using v.text_ne_hyphenMarker
    have hend : later Pending.none [] = .ok [] := rfl
    rw [later_of_step hne hbars, v.later_text (atom_none v.text) (.inl rfl), hv, hend]
    exact congrArg (fun t => Except.ok ('|' :: t)) (List.append_nil w)
  rw [convertRange, tokenize_pinned hw]
  show opening [branchOf w, ['|', '|'], v.text] = _
  rw [opening_cons (branchOf_ne_nil w), List.head?_cons, hstep]
  show (do
    let r ← later Pending.none [['|', '|'], v.text]
    return (if some ['|', '|'] = some hyphenMarker then lowerSide (branchOf w) else branchOf w)
      ++ r)
      = _
  rw [hbehind]
  rfl

end Branch

/-- What a lone version is converted into: a number gets a tilde. -/
theorem convertRange_atom (v : Atom α) : convertRange v.text = match v with
    | .major n => .ok ('~' :: Numeric.digits n)
    | v => convertVersion v.text := by
  have he : (⟨.all ⟨.version .bare v, []⟩, []⟩ : Expression α).text = v.text := by
    simp [Expression.text, Expression.joined, Expression.alternatives, Alternative.text,
      Conjunction.text, Conjunction.items, Item.text, Operator.sign]
  have hitem : convertRange v.text = (Item.version .bare v).convertFirst := by
    rw [← he, convertRange_text, Alternative.convertFirst]
    cases (Item.version .bare v).convertFirst with
    | error _ => rfl
    | ok t => simp
  have hbare : (Item.version .bare v).convert = convertVersion v.text := by
    rw [Item.convert, Operator.bound, Operator.written]
    cases convertVersion v.text <;> rfl
  rw [hitem]
  cases v with
  | major n => exact convertVersion_tilde fun c => Numeric.isDigit_of_mem
  | _ => exact hbare

end Grammar

/-! ## The versions that it lets through -/

namespace Asset

open Numeral (dotted)
open Target (Constraint Version)

/-- Whether the constraint for one text lets the same versions through as that for another one,
apart from branches. -/
def KeepsVersions (s t : Text) : Prop :=
  ∀ c, constraintFor s = .ok c → ∃ d, constraintFor t = .ok d ∧
    ∀ u : Version, u.branch = none → d.accepts u = c.accepts u

namespace KeepsVersions

theorem refl (s : Text) : KeepsVersions s s := fun c hc => ⟨c, hc, fun _ _ => rfl⟩

/-- Releases are no branches, so they are let through alike. -/
theorem releases {s t : Text} (h : KeepsVersions s t) {c : Constraint}
    (hc : constraintFor s = .ok c) :
    ∃ d, constraintFor t = .ok d ∧ ∀ x y z b,
      d.matchesText (dotted [x, y, z]) = .ok b ↔ c.matchesText (dotted [x, y, z]) = .ok b := by
  obtain ⟨d, hd, haccepts⟩ := h c hc
  refine ⟨d, hd, fun x y z b => ?_⟩
  cases hu : Version.parse (dotted [x, y, z]) with
  | error e => simp [Constraint.matchesText, hu]
  | ok u =>
    have hbranch : u.branch = none := by
      obtain ⟨e, r, her, hdigit⟩ := Numeral.exists_dotted_eq_cons x [y, z]
      exact Version.branch_of_parse hdigit (her ▸ hu)
    rw [Constraint.matchesText_of_parse d hu, Constraint.matchesText_of_parse c hu,
      haccepts u hbranch]

end KeepsVersions

end Asset

namespace Grammar

open Source (convertDate convertRange convertVersion)
open Target (Bound Constraint Version branchPrefix)
open Asset (branchOf pinned branchOf_ne_nil)

variable {α : Type} [Numeric α] {w : Text}

section Reading

/-- **The normal form** of the name of a branch is the name itself. -/
theorem normalize_branchOf (hseparator : ∀ c ∈ branchOf w, Constraint.isPartSeparator c = false)
    (hat : '@' ∉ branchOf w) : Target.normalize (branchOf w) = .ok (branchOf w) := by
  have hchars : ∀ c ∈ branchOf w, Target.isNameChar c = true ∧ Text.isBlank c = false := by
    intro c hc
    have := hseparator c hc
    simp only [Constraint.isPartSeparator, Bool.or_eq_false_iff, decide_eq_false_iff_not] at this
    simp [Target.isNameChar, this]
  have hstrip : Text.strip (branchOf w) = branchOf w :=
    Text.strip_of_forall fun c hc => (hchars c hc).2
  have halias : Target.dropAlias (branchOf w) = branchOf w :=
    Target.dropAlias_eq_self fun c hc => (hchars c hc).1
  have hflag : Target.dropFlag (branchOf w) = branchOf w := Target.dropFlag_eq_self hat
  have hdefault : Target.nameDefault (branchOf w) = branchOf w := rfl
  have hdrop : Text.dropKeyword? branchPrefix (branchOf w) = some w :=
    Text.dropKeyword?_eq_some_iff.2 ⟨branchPrefix, rfl, by decide⟩
  simp only [Target.normalize, hstrip, halias, hflag, hdefault, hdrop]
  rfl

variable (hw : ∀ c ∈ w, isAtomChar c = true)

include hw

theorem not_separator_branchOf : ∀ c ∈ branchOf w, Constraint.isPartSeparator c = false :=
  forall_branchOf hw (List.all_iff_forall_prop.1 rfl) fun h =>
    isPartSeparator_of_isItemChar (isItemChar_of_isAtomChar h)

/-- **The constraint** for the name of the branch asks for this branch. -/
theorem parse_branchOf :
    Constraint.parse (branchOf w) = .ok ⟨branchOf w, [[⟨.eq, .ofBranch w⟩]]⟩ := by
  have hseparator := not_separator_branchOf hw
  have hversion : Version.parse (branchOf w) = .ok (.ofBranch w) :=
    Version.parse_of_normalize_eq_branch
      (normalize_branchOf hseparator (not_mem_branchOf hw rfl (by decide)))
  exact Constraint.parse_version hseparator (not_mem_branchOf hw rfl (by decide)) hversion

end Reading

/-- A number behind a tilde that is a constraint has a normal form. -/
theorem exists_normalize_of_parse_tilde {s : Text} (hs : ∀ c ∈ s, c.isDigit = true) {c : Constraint}
    (h : Constraint.parse ('~' :: s) = .ok c) : ∃ n, Target.normalize s = .ok n := by
  have hitem : ∀ d ∈ '~' :: s, isItemChar d = true := by
    intro d hd
    rcases List.mem_cons.1 hd with rfl | hd
    · rfl
    · exact isItemChar_of_isAtomChar (isAtomChar_of_isDigit (hs d hd))
  have hbar : '|' ∉ '~' :: s := fun hm => absurd (hitem _ hm) (by decide)
  have hpart := Constraint.toOption_parse_part (List.cons_ne_nil _ _)
    (fun d hd => isPartSeparator_of_isItemChar (hitem d hd)) hbar
  rw [h] at hpart
  obtain ⟨bs, hbs, -⟩ := Option.map_eq_some_iff.1 hpart.symm
  have hbounds : Target.partialBounds Target.tildePosition s ('~' :: s) = .ok bs :=
    Except.eq_ok_of_toOption hbs
  unfold Target.partialBounds at hbounds
  split at hbounds
  · cases hbounds
  -- The numbers are read first, and then the version.
  · obtain ⟨ns, -, hlower⟩ := Except.exists_of_bind_eq_ok hbounds
    obtain ⟨lower, hlower, -⟩ := Except.exists_of_bind_eq_ok hlower
    obtain ⟨n, hn, -⟩ := Except.exists_of_bind_eq_ok (Except.eq_ok_of_mapError hlower)
    exact ⟨n, hn⟩

theorem Atom.convertVersion_major (n : α) :
    convertVersion (Atom.major n).text = .ok (Numeric.digits n) := by
  have hdrop : (Numeric.digits n).dropWhile Text.isDecimal = [] := by
    simpa using Text.dropWhile_isDecimal_append (fun _ => Numeric.isDigit_of_mem (n := n)) []
  rw [convertVersion_text]
  show convertDate (Numeric.digits n) = _
  rw [convertDate, hdrop]
  rfl

/-- What a version that is no tag is converted into, when this is a constraint. A lone number is a
tag, or no constraint. -/
theorem convertRange_of_parse {v : Atom α} (hv : convertVersion v.text = .ok w)
    (htag : (Target.normalize w).toOption = none) {t : Text} (ht : convertRange v.text = .ok t)
    {c : Constraint} (hc : Constraint.parse t = .ok c) : t = w := by
  rw [convertRange_atom] at ht
  cases v with
  | major n =>
    obtain rfl := Except.ok.inj ht
    obtain rfl := Except.ok.inj ((Atom.convertVersion_major n).symm.trans hv)
    obtain ⟨m, hm⟩ := exists_normalize_of_parse_tilde (fun _ => Numeric.isDigit_of_mem) hc
    rw [hm] at htag
    cases htag
  | _ => exact Except.ok.inj (ht.symm.trans hv)

/-- **A version behind its branch** lets the same versions through that are no branches. -/
theorem keepsVersions_pinned {v : Atom α} (hv : convertVersion v.text = .ok w)
    (htag : (Target.normalize w).toOption = none) :
    Asset.KeepsVersions v.text (pinned w v.text) := by
  intro c hc
  obtain ⟨hchars, hx⟩ := Atom.mem_of_convertVersion hv
  obtain ⟨t, ht, hparse⟩ := Except.exists_of_bind_eq_ok hc
  replace hparse := Except.eq_ok_of_mapError hparse
  obtain rfl := convertRange_of_parse hv htag (Except.eq_ok_of_mapError ht) hparse
  have hboth := Constraint.parse_append_bar (parse_branchOf hchars) hparse
  refine ⟨⟨branchOf t ++ '|' :: t, [[⟨.eq, .ofBranch t⟩]] ++ c.alternatives⟩, ?_, fun u hu => ?_⟩
  · rw [constraintFor, convertRange_pinned hchars hx hv]
    show (Constraint.parse (branchOf t ++ '|' :: t)).mapError _ = _
    rw [hboth]
    rfl
  -- The first alternative asks for a branch, which the version is not.
  · have hbranch : Bound.matches ⟨.eq, .ofBranch t⟩ u = false := by
      simp [Bound.matches, Version.isBranch, Version.ofBranch, hu, Target.Operator.holdsForBranch]
    rw [Constraint.accepts_append]
    simp [hbranch, Constraint.accepts]

end Grammar

end AssetBridge
