import AssetBridge.Proofs.ReleaseBounds
import AssetBridge.Proofs.Translation

/-!
# The two readings of a range

A range is read by the npm dialect, and by way of its parts by the target grammar. Most items mean
the very same bounds to both. Where the numbers of an upper bound stand for a wildcard the bounds
differ, but no release of ordinary size tells them apart; and a few items mean less to the npm
dialect.

## Main definitions

* `Item.isSame`, `Item.isFilled`, `Item.isWider`: how the two readings of an item compare
* `partsAccept`: whether a release meets the bounds of parts

## Main results

* `Atom.ofNumbers_caretEnd`: both readings end a caret range at the same release
* `Item.npmBounds_parts`, `Item.partsAccept_of_isFilled`, `Item.partsAccept_of_isWider`: the three
  cases
* `Expression.matchesText_constraint`: what the constraint for a range accepts
-/

namespace AssetBridge

namespace Grammar

open Source Target
open Npm (Release Comparison)
open Npm.Block (onRelease)

theorem all_congr_mem {α : Type} {l : List α} {p q : α → Bool} (h : ∀ a ∈ l, p a = q a) :
    l.all p = l.all q := by
  induction l with
  | nil => rfl
  | cons a l ih =>
    have hl := ih fun b hb => h b (by simp [hb])
    rw [List.all_cons, List.all_cons, h a (by simp), hl]

theorem any_congr_mem {α : Type} {l : List α} {p q : α → Bool} (h : ∀ a ∈ l, p a = q a) :
    l.any p = l.any q := by
  induction l with
  | nil => rfl
  | cons a l ih =>
    have hl := ih fun b hb => h b (by simp [hb])
    rw [List.any_cons, List.any_cons, h a (by simp), hl]

/-! ## How the readings of an item compare -/

/-- Whether an item means the same bounds to both readings. -/
def Item.isSame : Item Nat → Bool
  | version .tildeGreater _ | version .tilde (.minor _ _) | version .tilde (.majorWilds _ _ _) =>
    false
  | version _ (.patch _ _ _) => true
  | version .bare v => !v.wilds.isEmpty
  | version .less v => v.wilds.isEmpty
  | version .atLeast _ | version .caret _ | version .tilde _ => true
  | _ => false

/-- Whether a largest number stands for the wildcards of an upper bound that they belong to. -/
def Item.isFilled : Item Nat → Bool
  | version .atMost v => !v.wilds.isEmpty
  | _ => false

/-- Whether an item means less to the npm dialect. -/
def Item.isWider : Item Nat → Bool
  | star => true
  | version .less v => !v.wilds.isEmpty
  | version .greater _ => true
  | version .tilde (.minor _ _) => true
  | _ => false

/-- Whether an item that opens the range means the same bounds to both readings, and only there. -/
def Item.isOpening : Item Nat → Bool
  | version .bare (.major _) => true
  | version .equal v => !v.wilds.isEmpty
  | _ => false

/-- Whether both readings end a hyphen range at the same release. -/
def Atom.isSameEnd : Atom Nat → Bool
  | minor _ _ | majorWilds _ _ _ => false
  | _ => true

/-- Whether a release meets the bounds of parts. -/
def partsAccept (ps : List Part) (r : Release) : Bool :=
  (ps.flatMap Part.npmBounds).all (·.matches ⟨r, [], []⟩)

theorem partsAccept_append (ps qs : List Part) (r : Release) :
    partsAccept (ps ++ qs) r = (partsAccept ps r && partsAccept qs r) := by
  simp [partsAccept]

theorem partsAccept_flatMap {β : Type} (l : List β) (f : β → List Part) (r : Release) :
    partsAccept (l.flatMap f) r = l.all fun b => partsAccept (f b) r := by
  -- Induction on what the parts come from.
  induction l with
  | nil => rfl
  | cons b l ih => rw [List.flatMap_cons, partsAccept_append, ih, List.all_cons]

/-- Whether the npm dialect lets a release through an item. -/
def Item.npmAccepts (i : Item Nat) (r : Release) : Bool := i.npmBounds.all (·.matches ⟨r, [], []⟩)

theorem partsAccept_singleton {p : Part} {b : Npm.Bound} (h : p.npmBounds = [b]) (r : Release) :
    partsAccept [p] r = b.matches ⟨r, [], []⟩ := by
  simp [partsAccept, h]

theorem Item.npmAccepts_singleton {i : Item Nat} {b : Npm.Bound} (h : i.npmBounds = [b])
    (r : Release) : i.npmAccepts r = b.matches ⟨r, [], []⟩ := by
  simp [npmAccepts, h]

/-! ## Caret ranges -/

/-- Both readings end a caret range at the same release. -/
theorem Atom.ofNumbers_caretEnd {v : Atom Nat} (h : v.Within 9999998) :
    Release.ofNumbers v.caretEnd = match v with
      | major n | majorWild n _ | majorWilds n _ _ => ⟨n + 1, 0, 0⟩
      | minor n m | minorWild n m _ => if 0 < n then ⟨n + 1, 0, 0⟩ else ⟨n, m + 1, 0⟩
      | patch n m p => Npm.Block.caretEnd ⟨n, m, p⟩ := by
  -- The greatest number behind a zero carries over only where a wildcard stood: written ones are
  -- at most 9999998.
  cases v with
  | major n => rfl
  | majorWild n w => simp [caretEnd, filled, numbers, wilds, decidingComponents, raiseNumbers,
      padThree, Release.ofNumbers]
  | majorWilds n w w' => simp [caretEnd, filled, numbers, wilds, decidingComponents, raiseNumbers,
      padThree, Release.ofNumbers]
  | minor n m =>
    have hm : ¬ 9999998 < m := Nat.not_lt.2 (h.le m (by simp [numbers]))
    by_cases hn : 0 < n <;> simp [caretEnd, filled, numbers, wilds, decidingComponents,
      raiseNumbers, padThree, Release.ofNumbers, hn, hm]
  | minorWild n m w =>
    have hm : ¬ 9999998 < m := Nat.not_lt.2 (h.le m (by simp [numbers]))
    by_cases hn : 0 < n <;> simp [caretEnd, filled, numbers, wilds, decidingComponents,
      raiseNumbers, padThree, Release.ofNumbers, hn, hm]
  | patch n m p =>
    have hm : ¬ 9999998 < m := Nat.not_lt.2 (h.le m (by simp [numbers]))
    have hp : ¬ 9999998 < p := Nat.not_lt.2 (h.le p (by simp [numbers]))
    by_cases hn : 0 < n
    · simp [caretEnd, filled, numbers, wilds, decidingComponents, raiseNumbers, padThree,
        Release.ofNumbers, Npm.Block.caretEnd, Release.nextMajor, hn]
    · by_cases hm' : 0 < m <;> simp [caretEnd, filled, numbers, wilds, decidingComponents,
        raiseNumbers, padThree, Release.ofNumbers, Npm.Block.caretEnd, Release.nextMinor,
        Release.nextPatch, hn, hm, hm', hp]

theorem ofNumbers_padThree (ns : List Nat) :
    Release.ofNumbers (padThree ns) = Release.ofNumbers ns := by
  rcases ns with _ | ⟨n, _ | ⟨m, _ | ⟨p, ns⟩⟩⟩ <;> rfl

/-- A caret range means the same bounds to both readings. -/
theorem Atom.npmBounds_caret {v : Atom Nat} (h : v.Within 9999998) :
    (Item.version .caret v).parts.flatMap Part.npmBounds = v.npmBounds .caret := by
  have he := Atom.ofNumbers_caretEnd h
  have hp := ofNumbers_padThree (v.filled 0)
  simp only [Item.parts, List.flatMap_cons, List.flatMap_nil, Part.npmBounds, he, hp,
    Mark.comparison, List.append_nil]
  cases v <;> rfl

/-! ## The cases -/

/-- The releases that filled numbers stand for do not see the length of a run of wildcards. -/
theorem Atom.ofNumbers_filled_collapsed (v : Atom Nat) :
    Release.ofNumbers (v.collapsed.filled 0) = Release.ofNumbers (v.filled 0) := by
  rw [← ofNumbers_padThree, padThree_filled_collapsed, ofNumbers_padThree]

/-- **Same bounds**: most items mean the same bounds to both readings. -/
theorem Item.npmBounds_parts {i : Item Nat} (h : i.Within 9999998) (hs : i.isSame = true) :
    i.parts.flatMap Part.npmBounds = i.npmBounds := by
  cases i with
  | star => simp [isSame] at hs
  | version op v =>
    cases op with
    | caret => exact Atom.npmBounds_caret h
    | tildeGreater => simp [isSame] at hs
    | atLeast =>
      -- a run of wildcards may be shortened, and stands for zeros either way
      have hz := v.ofNumbers_filled_collapsed
      simp only [parts, List.flatMap_cons, List.flatMap_nil, Part.npmBounds, hz]
      cases v <;> rfl
    | bare =>
      -- without an operator only wildcards leave a block open to both
      cases v with
      | major | minor => simp [isSame, Atom.wilds] at hs
      | patch | majorWild | minorWild => rfl
      | majorWilds n w w' => cases w <;> cases w' <;> rfl
    | less =>
      -- the end of an open block is its first release, unless wildcards are filled
      cases v with
      | major | minor | patch => rfl
      | majorWild | majorWilds | minorWild => simp [isSame, Atom.wilds] at hs
    | tilde =>
      cases v with
      | minor | majorWilds => simp [isSame] at hs
      | major | patch | majorWild | minorWild => rfl
    | equal | atMost | greater =>
      -- these name one release, so nothing may be open
      cases v with
      | patch => rfl
      | _ => simp [isSame] at hs

/-- No release of ordinary size tells a largest number from an open one. -/
theorem matches_le_largestMinor {r : Release} (hr : r.minor ≤ 9999998) (n p : Nat) :
    (onRelease .le ⟨n, 9999999, p⟩).matches ⟨r, [], []⟩ =
      (onRelease .lt ⟨n + 1, 0, 0⟩).matches ⟨r, [], []⟩ := by
  rw [Bool.eq_iff_iff, Npm.matches_onRelease, Npm.matches_onRelease]
  -- The second number of the release is below the largest, so it stays in the block.
  obtain ⟨a, b, c⟩ := r
  simp only [Comparison.relates, Release.lt_iff, Release.mk.injEq] at hr ⊢
  omega

theorem matches_le_largestPatch {r : Release} (hr : r.patch ≤ 9999998) (n m : Nat) :
    (onRelease .le ⟨n, m, 9999999⟩).matches ⟨r, [], []⟩ =
      (onRelease .lt ⟨n, m + 1, 0⟩).matches ⟨r, [], []⟩ := by
  rw [Bool.eq_iff_iff, Npm.matches_onRelease, Npm.matches_onRelease]
  obtain ⟨a, b, c⟩ := r
  simp only [Comparison.relates, Release.lt_iff, Release.mk.injEq] at hr ⊢
  omega

/-- **Filled bounds**: largest numbers in an upper bound let the same releases through as the
wildcards they stand for. -/
theorem Item.partsAccept_of_isFilled {i : Item Nat} (hf : i.isFilled = true) {r : Release}
    (hr : r.Within 9999998) : partsAccept i.parts r = i.npmAccepts r := by
  have hmajor := fun n p => matches_le_largestMinor hr.minor_le n p
  have hminor := fun n m => matches_le_largestPatch hr.patch_le n m
  cases i with
  | star => simp [isFilled] at hf
  | version op v =>
    cases op with
    | atMost =>
      cases v with
      | major | minor | patch => simp [isFilled, Atom.wilds] at hf
      | majorWild n w =>
        rw [parts, partsAccept_singleton rfl, npmAccepts_singleton rfl]
        exact hmajor n 0
      | majorWilds n w w' =>
        rw [parts, partsAccept_singleton rfl, npmAccepts_singleton rfl]
        cases w <;> cases w' <;> exact hmajor n _
      | minorWild n m w =>
        rw [parts, partsAccept_singleton rfl, npmAccepts_singleton rfl]
        exact hminor n m
    | _ => simp [isFilled] at hf

/-- What is below a release is below every later one. -/
theorem matches_lt_of_lt {r s t : Release} (hst : s < t)
    (h : (onRelease .lt s).matches ⟨r, [], []⟩ = true) :
    (onRelease .lt t).matches ⟨r, [], []⟩ = true := by
  rw [Npm.matches_onRelease] at h ⊢
  simp only [Comparison.relates, Release.lt_iff] at h hst ⊢
  omega

/-- What does not come before a release is above every earlier one. -/
theorem matches_gt_of_ge {r s t : Release} (hst : s < t)
    (h : (onRelease .ge t).matches ⟨r, [], []⟩ = true) :
    (onRelease .gt s).matches ⟨r, [], []⟩ = true := by
  rw [Npm.matches_onRelease] at h ⊢
  rcases h with h | rfl
  · simp only [Comparison.relates, Release.lt_iff] at h hst ⊢
    omega
  · exact hst

theorem lt_of_major_lt {n m p n' m' p' : Nat} (h : n < n') :
    (⟨n, m, p⟩ : Release) < ⟨n', m', p'⟩ := .inl h

theorem lt_of_minor_lt {n m p m' p' : Nat} (h : m < m') : (⟨n, m, p⟩ : Release) < ⟨n, m', p'⟩ :=
  .inr ⟨rfl, .inl h⟩

theorem lt_of_patch_lt {n m p p' : Nat} (h : p < p') : (⟨n, m, p⟩ : Release) < ⟨n, m, p'⟩ :=
  .inr ⟨rfl, .inr ⟨rfl, h⟩⟩

/-- **Wider bounds**: some items mean less to the npm dialect than their parts let through. -/
theorem Item.partsAccept_of_isWider {i : Item Nat} (hw : i.isWider = true) {r : Release}
    (ha : i.npmAccepts r = true) : partsAccept i.parts r = true := by
  cases i with
  | star => rfl
  | version op v =>
    cases op with
    | less =>
      -- the parts fill the wildcards, so they end behind the first release of the block
      have hlarge : 0 < 9999999 := by decide
      rw [parts, partsAccept_singleton rfl]
      cases v with
      | major | minor | patch => simp [isWider, Atom.wilds] at hw
      | majorWild n w =>
        rw [npmAccepts_singleton rfl] at ha
        exact matches_lt_of_lt (lt_of_minor_lt hlarge) ha
      | majorWilds n w w' =>
        rw [npmAccepts_singleton rfl] at ha
        refine matches_lt_of_lt ?_ ha
        cases w <;> cases w' <;> exact lt_of_minor_lt hlarge
      | minorWild n m w =>
        rw [npmAccepts_singleton rfl] at ha
        exact matches_lt_of_lt (lt_of_patch_lt hlarge) ha
    | greater =>
      -- the dialect starts behind the whole block, the parts behind its first release
      have hz := v.ofNumbers_filled_collapsed
      rw [parts, partsAccept_singleton rfl, hz]
      cases v with
      | major n | majorWild n w | majorWilds n w w' =>
        rw [npmAccepts_singleton rfl] at ha
        exact matches_gt_of_ge (lt_of_major_lt n.lt_succ_self) ha
      | minor n m | minorWild n m w =>
        rw [npmAccepts_singleton rfl] at ha
        exact matches_gt_of_ge (lt_of_minor_lt m.lt_succ_self) ha
      | patch n m p => rwa [npmAccepts_singleton rfl] at ha
    | tilde =>
      cases v with
      | minor n m =>
        -- The parts end the range at the next first number, the dialect at the next second one.
        have hbounds : (Item.version .tilde (.minor n m)).npmBounds =
            [onRelease .ge ⟨n, m, 0⟩, onRelease .lt ⟨n, m + 1, 0⟩] := rfl
        have hparts : Part.npmBounds (.tilde [n, m]) =
            [onRelease .ge ⟨n, m, 0⟩, onRelease .lt ⟨n + 1, 0, 0⟩] := rfl
        simp only [npmAccepts, hbounds, List.all_cons, List.all_nil, Bool.and_true,
          Bool.and_eq_true] at ha
        have hend := matches_lt_of_lt (t := ⟨n + 1, 0, 0⟩) (lt_of_major_lt n.lt_succ_self) ha.2
        simp [partsAccept, parts, Atom.filled, Atom.numbers, Atom.wilds, hparts, ha.1, hend]
      | _ => simp [isWider] at hw
    | _ => simp [isWider] at hw

/-! ## Where an item stands -/

/-- Items that open the range mean there what they mean elsewhere, but for a few. -/
theorem Item.partsAccept_firstParts {i : Item Nat} (ho : i.isOpening = false) (r : Release) :
    partsAccept i.firstParts r = partsAccept i.parts r := by
  unfold firstParts
  split
  · simp [isOpening] at ho
  · rename_i v
    cases v with
    | major | minor | patch => rfl
    | majorWild | majorWilds | minorWild => simp [isOpening, Atom.wilds] at ho
  · rfl

/-- **Opening items**: a lone number, and wildcards behind an equals sign, mean the same bounds to
both readings where they open the range. -/
theorem Item.partsAccept_of_isOpening {i : Item Nat} (ho : i.isOpening = true) (r : Release) :
    partsAccept i.firstParts r = i.npmAccepts r := by
  cases i with
  | star => simp [isOpening] at ho
  | version op v =>
    cases op with
    | bare =>
      cases v with
      | major n => rfl
      | _ => simp [isOpening] at ho
    | equal =>
      -- behind the sign that is left out wildcards keep their block
      cases v with
      | major | minor | patch => simp [isOpening, Atom.wilds] at ho
      | majorWild | minorWild => rfl
      | majorWilds n w w' => cases w <;> cases w' <;> rfl
    | _ => simp [isOpening] at ho

/-! ## Hyphen ranges -/

/-- The left side of a hyphen range means the same bound to both readings. -/
theorem Atom.npmBounds_low (v : Atom Nat) :
    Part.npmBounds (.compare .atLeast (v.collapsed.filled 0)) = v.npmBounds .ge := by
  have hz := v.ofNumbers_filled_collapsed
  simp only [Part.npmBounds, hz]
  cases v <;> rfl

theorem Atom.npmBounds_highPart {v : Atom Nat} (h : v.isSameEnd = true) :
    v.highPart.npmBounds = v.npmBounds .le := by
  cases v with
  | minor | majorWilds => simp [isSameEnd] at h
  | major | patch | majorWild | minorWild => rfl

/-- A hyphen range accepts the same releases in both readings when it ends at the same release. -/
theorem Alternative.partsAccept_hyphen {low high : Atom Nat} (h : high.isSameEnd = true)
    (r : Release) : partsAccept (hyphen low high).parts r = (hyphen low high).npmAccepts r := by
  simp [partsAccept, parts, npmAccepts, npmBounds, Atom.npmBounds_low, Atom.npmBounds_highPart h]

/-! ## Whole ranges -/

theorem Alternative.npmAccepts_all (c : Conjunction Nat) (r : Release) :
    (all c).npmAccepts r = c.items.all (·.npmAccepts r) := by
  simp [npmAccepts, npmBounds, Item.npmAccepts, List.all_flatMap]

theorem Alternative.partsAccept_all (c : Conjunction Nat) (r : Release) :
    partsAccept (all c).parts r = c.items.all fun i => partsAccept i.parts r :=
  partsAccept_flatMap c.items Item.parts r

theorem Alternative.partsAccept_all_first (c : Conjunction Nat) (r : Release) :
    partsAccept (all c).firstParts r =
      (partsAccept c.first.firstParts r && c.rest.all fun i => partsAccept i.parts r) := by
  rw [firstParts, partsAccept_append, partsAccept_flatMap]

/-- **What the constraint for a range accepts**: a release meets the parts of one of the
alternatives. -/
theorem Expression.matchesText_constraint {k : Nat} (hk : k ≤ 9999999) {e : Expression Nat}
    (h : e.Within k) {r : Release} (hr : r.Within k) :
    e.constraint.matchesText r.text = .ok (e.parts.any (partsAccept · r)) := by
  -- Each part lets the release through as its bounds in the npm dialect do.
  have hparts : ∀ ps ∈ e.parts,
      (ps.flatMap Part.bounds).all (·.matches (.ofRelease r)) = partsAccept ps r := by
    intro ps hps
    have hfit := (Expression.fits_of_mem_parts hk h ps hps).2
    rw [partsAccept, List.all_flatMap, List.all_flatMap]
    exact all_congr_mem fun p hp => Part.all_matches_bounds (hfit p hp) r
  rw [Constraint.matchesText, Version.parse_release hk hr]
  refine congrArg Except.ok ?_
  rw [Constraint.accepts, constraint, List.any_map]
  exact any_congr_mem hparts

end Grammar

end AssetBridge
