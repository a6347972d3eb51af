import AssetBridge.Proofs.Readings

/-!
# Exact translations

On most ranges the constraint accepts the very releases that the range accepts in the npm dialect,
so a check of such a range on a release reports agreement. Left out are the items whose missing
numbers the two grammars fill differently.

## Main definitions

* `Item.isExact`: the items that are translated exactly
* `Alternative.IsExact`, `Expression.IsExact`: the alternatives and ranges of such items

## Main results

* `Item.partsAccept_of_isExact`: an exact item accepts the same releases in both readings
* `Expression.any_partsAccept`: a range of exact items does so too
* `checkRange_exact`: a check of such a range reports agreement
-/

namespace AssetBridge

/-- The report on a single version. -/
theorem outcome_checkRange_singleton {range version : Text} {c : Target.Constraint} {a b : Bool}
    (hc : constraintFor range = .ok c) (ha : Npm.Range.matchesText range version = .ok a)
    (hb : c.matchesText version = .ok b) :
    (checkRange range [version]).outcome = .ok ⟨range, c.source, [⟨version, a, b⟩]⟩ := by
  have hj : Agreement.judge range c version = .ok ⟨version, a, b⟩ := by
    rw [Agreement.judge, ha, hb]
    rfl
  -- What is logged on the way does not count for the outcome.
  have hm : ([version].mapM (Agreement.judgeAloud range c)).outcome = .ok [⟨version, a, b⟩] := by
    rw [List.mapM_cons, Trail.outcome_bind, Agreement.outcome_judgeAloud, hj]
    rfl
  rw [checkRange, Trail.outcome_bind, Trail.outcome_ofExcept, hc]
  show (do
    let verdicts ← [version].mapM (Agreement.judgeAloud range c)
    return Agreement.Report.mk range c.source verdicts).outcome = _
  rw [Trail.outcome_bind, hm]
  rfl

namespace Grammar

open Target Source
open Npm (Release)

/-! ## Exact items -/

/-- Whether a version is translated exactly under an operator. -/
def Operator.isExactOn : Operator → Atom Nat → Bool
  | .bare, .patch _ _ _ | .equal, .patch _ _ _ | .greater, .patch _ _ _ => true
  | .less, v | .atLeast, v => v.wilds.isEmpty
  | .atMost, .patch _ _ _ | .atMost, .majorWild _ _ | .atMost, .minorWild _ _ _ => true
  | .caret, .majorWilds _ _ _ | .tilde, .minor _ _ | .tilde, .majorWilds _ _ _ => false
  | .caret, _ | .tilde, _ => true
  | _, _ => false

/-- Whether an item is translated exactly. -/
def Item.isExact : Item Nat → Bool
  | star => false
  | version op v => op.isExactOn v

/-- A conjunction of exact items, or a hyphen range whose left side has no wildcard and whose right
side ends at the same release in both readings. -/
def Alternative.IsExact : Alternative Nat → Prop :=
  Alternative.Forall (fun i => i.isExact = true) fun low high =>
    low.wilds = [] ∧ high.isSameEnd = true

/-- A range of exact items, and of hyphen ranges whose left side has no wildcard and whose right
side ends at the same release in both readings. -/
def Expression.IsExact (e : Expression Nat) : Prop :=
  e.Forall (fun i => i.isExact = true) fun low high => low.wilds = [] ∧ high.isSameEnd = true

instance (e : Expression Nat) : Decidable e.IsExact :=
  inferInstanceAs (Decidable (e.Forall _ _))

/-- Both readings of an exact item have the same bounds, or bounds that no release tells apart. -/
theorem Item.isSame_or_isFilled_of_isExact {i : Item Nat} (h : i.isExact = true) :
    i.isSame = true ∨ i.isFilled = true := by
  cases i with
  | star => simp [isExact] at h
  | version op v => cases op <;> cases v <;> simp_all [isExact, Operator.isExactOn, isSame,
      isFilled, Atom.wilds]

theorem Item.isOpening_of_isExact {i : Item Nat} (h : i.isExact = true) : i.isOpening = false := by
  cases i with
  | star => rfl
  | version op v => cases op <;> cases v <;> simp_all [isExact, Operator.isExactOn, isOpening,
      Atom.wilds]

theorem Item.isLegal_of_isExact {i : Item Nat} (h : i.isExact = true) : i.IsLegal := by
  cases i with
  | star => trivial
  | version op v => cases op <;> cases v <;> simp_all [isExact, Operator.isExactOn, IsLegal,
      Atom.wilds]

theorem Item.isNpm_of_isExact {i : Item Nat} (h : i.isExact = true) : i.IsNpm := by
  rintro ho
  cases i with
  | star => cases ho
  | version op v =>
    obtain rfl : op = .tildeGreater := ho
    simp [isExact, Operator.isExactOn] at h

/-- **Exact items** accept the same releases in both readings. -/
theorem Item.partsAccept_of_isExact {i : Item Nat} (h : i.Within 9999998) (he : i.isExact = true)
    {r : Release} (hr : r.Within 9999998) : partsAccept i.parts r = i.npmAccepts r := by
  rcases Item.isSame_or_isFilled_of_isExact he with hs | hf
  · rw [partsAccept, Item.npmBounds_parts h hs, npmAccepts]
  · exact Item.partsAccept_of_isFilled hf hr

/-! ## Exact ranges -/

theorem Alternative.partsAccept_of_isExact {a : Alternative Nat} (h : a.Within 9999998)
    (he : a.IsExact) {r : Release} (hr : r.Within 9999998) :
    partsAccept a.parts r = a.npmAccepts r := by
  cases a with
  | all c =>
    rw [partsAccept_all, npmAccepts_all]
    exact all_congr_mem fun i hi => Item.partsAccept_of_isExact (h i hi) (he i hi) hr
  | hyphen low high => exact partsAccept_hyphen he.2 r

/-- Exact alternatives mean the same wherever they stand. -/
theorem Alternative.partsAccept_firstParts_of_isExact {a : Alternative Nat} (he : a.IsExact)
    (r : Release) : partsAccept a.firstParts r = partsAccept a.parts r := by
  cases a with
  | all c =>
    have hfirst := Item.isOpening_of_isExact (he c.first (by simp [Conjunction.items]))
    rw [partsAccept_all_first, partsAccept_all, Item.partsAccept_firstParts hfirst]
    rfl
  | hyphen low high => rfl

/-- **Exact ranges** accept the same releases in both readings. -/
theorem Expression.any_partsAccept {e : Expression Nat} (h : e.Within 9999998) (he : e.IsExact)
    {r : Release} (hr : r.Within 9999998) :
    e.parts.any (partsAccept · r) = e.alternatives.any (·.npmAccepts r) := by
  have hparts : ∀ a ∈ e.alternatives, partsAccept a.parts r = a.npmAccepts r := fun a ha =>
    Alternative.partsAccept_of_isExact (h a ha) (he a ha) hr
  -- No exact item opens the range in a way of its own.
  have hfirst := Alternative.partsAccept_firstParts_of_isExact
    (he e.first (by simp [alternatives])) r
  have hrest : (e.rest.map Alternative.parts).any (partsAccept · r) =
      e.rest.any (·.npmAccepts r) := by
    rw [List.any_map]
    exact any_congr_mem fun a ha => hparts a (by simp [alternatives, ha])
  rw [parts, List.any_cons, hfirst, hparts e.first (by simp [alternatives]), hrest]
  rfl

theorem Expression.isLegal_of_isExact {e : Expression Nat} (he : e.IsExact) : e.IsLegal :=
  isLegal_of_forall (he.mono (fun _ => Item.isLegal_of_isExact) fun _ _ _ => trivial)

theorem Expression.isNpm_of_isExact {e : Expression Nat} (he : e.IsExact) : e.IsNpm :=
  he.mono (fun _ => Item.isNpm_of_isExact) fun _ _ _ => trivial

/-- **Exact translation**: the check of an exact range on a release raises nothing and agrees. -/
theorem checkRange_exact {e : Expression Nat} (h : e.Within 9999998) (he : e.IsExact)
    {r : Release} (hr : r.Within 9999998) :
    ∃ s c b, convertRange e.text = .ok s ∧ Constraint.parse s = .ok c ∧
      Npm.Range.matchesText e.text r.text = .ok b ∧ c.matchesText r.text = .ok b ∧
      (checkRange e.text [r.text]).outcome = .ok ⟨e.text, s, [⟨r.text, b, b⟩]⟩ := by
  have hk : 9999998 ≤ 9999999 := by decide
  have hl := Expression.isLegal_of_isExact he
  have hnpm := Npm.Range.matchesText_text hk h (Expression.isNpm_of_isExact he) hr
  -- The two readings let the same releases through, so both sides answer alike.
  have htarget := Expression.matchesText_constraint hk h hr
  rw [Expression.any_partsAccept h he hr] at htarget
  exact ⟨_, _, _, e.convertRange_text_eq hk h hl, e.parse_source hk h, hnpm, htarget,
    outcome_checkRange_singleton (e.constraintFor_text hk h hl) hnpm htarget⟩

/-- The range `^1.2 <1.9 || 1.0 - 2.x || <=3.x >2.5.1`. -/
def mixedRange : Expression Nat :=
  ⟨.all ⟨.version .caret (.minor 1 2), [.version .less (.minor 1 9)]⟩,
    [.hyphen (.minor 1 0) (.majorWild 2 .letter),
      .all ⟨.version .atMost (.majorWild 3 .letter), [.version .greater (.patch 2 5 1)]⟩]⟩

theorem checkRange_exact_mixedRange :
    ∃ s c b, convertRange mixedRange.text = .ok s ∧ Constraint.parse s = .ok c ∧
      Npm.Range.matchesText mixedRange.text (⟨1, 5, 0⟩ : Release).text = .ok b ∧
      c.matchesText (⟨1, 5, 0⟩ : Release).text = .ok b ∧
      (checkRange mixedRange.text [(⟨1, 5, 0⟩ : Release).text]).outcome =
        .ok ⟨mixedRange.text, s, [⟨(⟨1, 5, 0⟩ : Release).text, b, b⟩]⟩ :=
  checkRange_exact (by decide) (by decide) (by decide)

end Grammar

end AssetBridge
