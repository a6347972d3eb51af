import AssetBridge.Proofs.Readings

/-!
# Translations that keep every release

A translation may let more releases through than the range does in the npm dialect, but it should
not lose any. It loses some where the target grammar reads a version without a patch number as the
one release that it opens, and where a wildcard is filled before the operator is looked at.

## Main definitions

* `Item.isNarrowed`, `Item.isNarrowedFirst`: the items whose translation loses releases
* `Expression.IsKept`: the ranges without such items

## Main results

* `Item.partsAccept_of_npmAccepts`: the parts of all other items keep every release
* `convertRange_keeps`: the constraint for a range without such items keeps every release
-/

namespace AssetBridge

namespace Grammar

open Target Source
open Npm (Release)

/-! ## Narrowed items -/

/-- Whether the translation of an item that does not open the range loses releases. The target
grammar has no wildcards behind an equals sign, and the npm dialect no tilde with a comparator. -/
def Item.isNarrowed : Item Nat → Bool
  | version .bare (.major _) | version .bare (.minor _ _) => true
  | version .equal (.patch _ _ _) => false
  | version .equal _ => true
  | version .atMost (.major _) | version .atMost (.minor _ _) => true
  | version .tilde (.majorWilds _ _ _) => true
  | version .tildeGreater _ => true
  | _ => false

/-- Whether the translation of the item that opens the range loses releases. -/
def Item.isNarrowedFirst (i : Item Nat) : Bool := i.isNarrowed && !i.isOpening

/-- Whether the translation of an alternative that does not open the range keeps every release. -/
def Alternative.IsKept : Alternative Nat → Prop :=
  Alternative.Forall (fun i => i.isNarrowed = false) fun _ high => high.isSameEnd = true

/-- Whether the translation of the alternative that opens the range keeps every release. -/
def Alternative.IsKeptFirst : Alternative Nat → Prop
  | all c => c.first.isNarrowedFirst = false ∧ ∀ i ∈ c.rest, i.isNarrowed = false
  | hyphen _ high => high.isSameEnd = true

/-- Whether the translation of a range keeps every release. -/
def Expression.IsKept (e : Expression Nat) : Prop :=
  e.first.IsKeptFirst ∧ ∀ a ∈ e.rest, a.IsKept

instance : DecidablePred Alternative.IsKeptFirst
  | .all c => inferInstanceAs (Decidable (c.first.isNarrowedFirst = false ∧
      ∀ i ∈ c.rest, i.isNarrowed = false))
  | .hyphen _ high => inferInstanceAs (Decidable (high.isSameEnd = true))

instance (e : Expression Nat) : Decidable e.IsKept :=
  inferInstanceAs (Decidable (e.first.IsKeptFirst ∧ ∀ a ∈ e.rest, a.Forall _ _))

/-- An item that is not narrowed means the same to both readings, or less to the npm dialect. -/
theorem Item.isSame_or_of_isNarrowed {i : Item Nat} (h : i.isNarrowed = false) :
    i.isSame = true ∨ i.isFilled = true ∨ i.isWider = true := by
  cases i with
  | star => exact .inr (.inr rfl)
  | version op v => cases op <;> cases v <;> simp_all [isNarrowed, isSame, isFilled, isWider,
      Atom.wilds]

theorem Item.isLegal_of_isNarrowed {i : Item Nat} (h : i.isNarrowed = false) : i.IsLegal := by
  cases i with
  | star => trivial
  | version op v => cases op <;> cases v <;> simp_all [isNarrowed, IsLegal, Atom.wilds]

theorem Item.isNpm_of_isNarrowed {i : Item Nat} (h : i.isNarrowed = false) : i.IsNpm := by
  cases i with
  | star => exact fun ho => by cases ho
  | version op v =>
    rintro rfl
    simp [isNarrowed] at h

/-! ## Items -/

/-- **Items** that are not narrowed keep every release. -/
theorem Item.partsAccept_of_npmAccepts {i : Item Nat} (h : i.Within 9999998)
    (hi : i.isNarrowed = false) {r : Release} (hr : r.Within 9999998)
    (ha : i.npmAccepts r = true) : partsAccept i.parts r = true := by
  rcases Item.isSame_or_of_isNarrowed hi with hs | hf | hw
  · rwa [partsAccept, Item.npmBounds_parts h hs]
  · rwa [Item.partsAccept_of_isFilled hf hr]
  · exact Item.partsAccept_of_isWider hw ha

/-- **The item that opens the range** keeps every release when it is not narrowed there. -/
theorem Item.partsAccept_firstParts_of_npmAccepts {i : Item Nat} (h : i.Within 9999998)
    (hi : i.isNarrowedFirst = false) {r : Release} (hr : r.Within 9999998)
    (ha : i.npmAccepts r = true) : partsAccept i.firstParts r = true := by
  -- An opening item means the same to both readings, all others what they mean elsewhere.
  by_cases ho : i.isOpening = true
  · rwa [Item.partsAccept_of_isOpening ho]
  · rw [Bool.not_eq_true] at ho
    have hn : i.isNarrowed = false := by simpa [isNarrowedFirst, ho] using hi
    rw [Item.partsAccept_firstParts ho]
    exact Item.partsAccept_of_npmAccepts h hn hr ha

theorem Item.isNpm_of_isNarrowedFirst {i : Item Nat} (h : i.isNarrowedFirst = false) :
    i.IsNpm := by
  cases i with
  | star => exact fun ho => by cases ho
  | version op v =>
    rintro rfl
    simp [isNarrowedFirst, isNarrowed, isOpening] at h

/-! ## Alternatives -/

theorem Alternative.partsAccept_of_npmAccepts {a : Alternative Nat} (h : a.Within 9999998)
    (hi : a.IsKept) {r : Release} (hr : r.Within 9999998) (ha : a.npmAccepts r = true) :
    partsAccept a.parts r = true := by
  cases a with
  | all c =>
    rw [npmAccepts_all, List.all_eq_true] at ha
    rw [partsAccept_all, List.all_eq_true]
    -- A release that meets all items meets the parts of each.
    intro i hc
    exact Item.partsAccept_of_npmAccepts (h i hc) (hi i hc) hr (ha i hc)
  | hyphen low high => rwa [partsAccept_hyphen hi]

theorem Alternative.partsAccept_firstParts_of_npmAccepts {a : Alternative Nat}
    (h : a.Within 9999998) (hi : a.IsKeptFirst) {r : Release} (hr : r.Within 9999998)
    (ha : a.npmAccepts r = true) : partsAccept a.firstParts r = true := by
  cases a with
  | all c =>
    have hmem : ∀ i ∈ c.rest, i ∈ c.items := fun i hc => List.mem_cons_of_mem _ hc
    have hself : c.first ∈ c.items := List.mem_cons_self
    rw [npmAccepts_all, List.all_eq_true] at ha
    rw [partsAccept_all_first, Bool.and_eq_true, List.all_eq_true]
    constructor
    · exact Item.partsAccept_firstParts_of_npmAccepts (h _ hself) hi.1 hr (ha _ hself)
    · intro i hc
      exact Item.partsAccept_of_npmAccepts (h i (hmem i hc)) (hi.2 i hc) hr (ha i (hmem i hc))
  | hyphen low high =>
    show partsAccept (hyphen low high).parts r = true
    rwa [partsAccept_hyphen hi]

/-! ## Ranges -/

theorem Expression.isLegal_of_isKept {e : Expression Nat} (h : e.IsKept) : e.IsLegal := by
  obtain ⟨hfirst, hrest⟩ := h
  refine ⟨?_, fun a ha => (hrest a ha).mono (fun _ => Item.isLegal_of_isNarrowed)
    fun _ _ _ => trivial⟩
  cases hc : e.first with
  | all c =>
    rw [hc] at hfirst
    intro i hi
    exact Item.isLegal_of_isNarrowed (hfirst.2 i hi)
  | hyphen low high => trivial

theorem Expression.isNpm_of_isKept {e : Expression Nat} (h : e.IsKept) : e.IsNpm := by
  obtain ⟨hfirst, hrest⟩ := h
  intro a ha
  rcases List.mem_cons.1 ha with rfl | ha
  · cases hc : e.first with
    | all c =>
      rw [hc] at hfirst
      intro i hi
      rcases List.mem_cons.1 hi with rfl | hi
      · exact Item.isNpm_of_isNarrowedFirst hfirst.1
      · exact Item.isNpm_of_isNarrowed (hfirst.2 i hi)
    | hyphen low high => trivial
  · exact (hrest a ha).mono (fun _ => Item.isNpm_of_isNarrowed) fun _ _ _ => trivial

/-- **No release is lost**: what the npm dialect lets through a range without narrowed items, the
constraint for the range lets through. -/
theorem convertRange_keeps {e : Expression Nat} (h : e.Within 9999998) (hi : e.IsKept)
    {r : Release} (hr : r.Within 9999998)
    (ha : Npm.Range.matchesText e.text r.text = .ok true) :
    ∃ s c, convertRange e.text = .ok s ∧ Constraint.parse s = .ok c ∧
      c.matchesText r.text = .ok true := by
  have hk : 9999998 ≤ 9999999 := by decide
  have hl := Expression.isLegal_of_isKept hi
  refine ⟨_, _, e.convertRange_text_eq hk h hl, e.parse_source hk h, ?_⟩
  rw [Npm.Range.matchesText_text hk h (Expression.isNpm_of_isKept hi) hr, Except.ok.injEq,
    List.any_eq_true] at ha
  obtain ⟨a, ha, hacc⟩ := ha
  rw [Expression.matchesText_constraint hk h hr, Except.ok.injEq, Expression.parts, List.any_cons,
    Bool.or_eq_true, List.any_eq_true]
  -- The first alternative holds the item that opens the range, so its parts are others.
  rcases List.mem_cons.1 ha with rfl | hrest
  · exact .inl (Alternative.partsAccept_firstParts_of_npmAccepts
      (h e.first (by simp [Expression.alternatives])) hi.1 hr hacc)
  · refine .inr ⟨a.parts, List.mem_map_of_mem hrest, ?_⟩
    exact Alternative.partsAccept_of_npmAccepts (h a ha) (hi.2 a hrest) hr hacc

/-- The range `1 >0 || 1.x - 2.x || ~1.2`. -/
def roomyRange : Expression Nat :=
  ⟨.all ⟨.version .bare (.major 1), [.version .greater (.major 0)]⟩,
    [.hyphen (.majorWild 1 .letter) (.majorWild 2 .letter),
      .all ⟨.version .tilde (.minor 1 2), []⟩]⟩

theorem convertRange_keeps_roomyRange :
    ∃ s c, convertRange roomyRange.text = .ok s ∧ Constraint.parse s = .ok c ∧
      c.matchesText (⟨1, 2, 5⟩ : Release).text = .ok true :=
  convertRange_keeps (by decide) (by decide) (by decide) rfl

/-! ## Lost releases -/

/-- Whether the npm dialect lets a version through a range and no constraint for the range does. -/
def IsLost (range version : Text) : Prop :=
  Npm.Range.matchesText range version = .ok true ∧
    ∀ c, constraintFor range = .ok c → c.matchesText version ≠ .ok true

theorem isLost_of_matchesText {range version : Text} {c : Constraint}
    (hn : Npm.Range.matchesText range version = .ok true) (hc : constraintFor range = .ok c)
    (hv : c.matchesText version = .ok false) : IsLost range version := by
  refine ⟨hn, fun d hd => ?_⟩
  obtain rfl : c = d := Except.ok.inj (hc.symm.trans hd)
  rw [hv]
  simp

theorem isLost_of_error {range version : Text} {e : Agreement.Error}
    (hn : Npm.Range.matchesText range version = .ok true) (hc : constraintFor range = .error e) :
    IsLost range version := by
  refine ⟨hn, fun d hd => ?_⟩
  rw [hc] at hd
  cases hd

/-- Each kind of narrowed item loses a release: bare versions of fewer than three numbers, also
behind an equals sign, wildcards behind a later equals sign, incomplete versions under `<=` or on
the right of a hyphen, and two wildcards under a tilde or on the right of a hyphen. -/
theorem isLost_of_narrowed :
    IsLost "1.2".toList "1.2.5".toList ∧ IsLost "1.2.3 || 2".toList "2.5.0".toList ∧
      IsLost "=1".toList "1.5.0".toList ∧ IsLost "=1.2".toList "1.2.5".toList ∧
      IsLost "1.2.3 || =1.x".toList "1.5.0".toList ∧
      IsLost "<=1".toList "1.5.0".toList ∧ IsLost "<=1.2".toList "1.2.5".toList ∧
      IsLost "~1.x.x".toList "1.5.0".toList ∧
      IsLost "1.0.0 - 2.3".toList "2.3.5".toList ∧
      IsLost "1.0.0 - 2.x.x".toList "2.5.0".toList := by
  refine ⟨isLost_of_matchesText rfl rfl rfl, isLost_of_matchesText rfl rfl rfl,
    isLost_of_matchesText rfl rfl rfl, isLost_of_matchesText rfl rfl rfl, isLost_of_error rfl rfl,
    isLost_of_matchesText rfl rfl rfl, isLost_of_matchesText rfl rfl rfl,
    isLost_of_matchesText rfl rfl rfl, isLost_of_matchesText rfl rfl rfl,
    isLost_of_matchesText rfl rfl rfl⟩

end Grammar

end AssetBridge
