import AssetBridge.Proofs.NpmReading
import AssetBridge.Proofs.Parts

/-!
# Bounds on releases

A release without a suffix meets the bounds of a part exactly when it meets certain bounds of the
npm dialect. In that form the two readings of a range can be held against each other bound by bound.

## Main definitions

* `Npm.Comparison.relates`: the comparisons as relations between releases
* `Npm.Release.ofNumbers`: the release that numbers stand for
* `Part.npmBounds`: the bounds of a part in the npm dialect

## Main results

* `Npm.matches_onRelease`, `Target.Mark.matches_bound`: bounds of both grammars as relations
* `Target.Part.all_matches_bounds`: a part lets the same releases through as its npm bounds
-/

namespace AssetBridge

namespace Npm

/-- How a comparison relates two releases. -/
def Comparison.relates : Comparison → Release → Release → Prop
  | .eq, r, s => r = s
  | .lt, r, s => r < s
  | .le, r, s => r < s ∨ r = s
  | .gt, r, s => s < r
  | .ge, r, s => s < r ∨ s = r

open Block (onRelease)

/-- A bound on releases relates the release to the one it names. -/
theorem matches_onRelease (c : Comparison) (r s : Release) :
    (onRelease c s).matches ⟨r, [], []⟩ = true ↔ c.relates r s := by
  have hlt : ∀ a b : Release, (⟨a, [], []⟩ : Version) < ⟨b, [], []⟩ ↔ a < b := fun _ _ =>
    Version.lt_iff_of_releases rfl
  -- Versions without a suffix are ordered as their releases are.
  have hle : ∀ a b : Release, (⟨a, [], []⟩ : Version) ≤ ⟨b, [], []⟩ ↔ a < b ∨ a = b := by
    intro a b
    show (⟨a, [], []⟩ : Version) < ⟨b, [], []⟩ ∨ (a = b ∧ ([] : List Identifier) = []) ↔ _
    rw [hlt]
    simp
  rw [Bound.matches_of_release, onRelease]
  cases c <;> simp [Comparison.holds, Comparison.relates, hlt, hle]

namespace Release

/-- The release that numbers stand for; missing ones are zero. -/
def ofNumbers : List Nat → Release
  | [] => ⟨0, 0, 0⟩
  | [n] => ⟨n, 0, 0⟩
  | [n, m] => ⟨n, m, 0⟩
  | n :: m :: p :: _ => ⟨n, m, p⟩

/-- The four numbers of a release in the target grammar. -/
def padded (r : Release) : List Nat := [r.major, r.minor, r.patch, 0]

theorem padded_inj {r s : Release} : r.padded = s.padded ↔ r = s := by
  constructor
  · intro h
    cases r
    cases s
    simpa [padded] using h
  · exact congrArg padded

/-- The order of lists of numbers is that of the releases. -/
theorem padded_lt {r s : Release} : r.padded < s.padded ↔ r < s := by
  simp only [padded, List.cons_lt_cons_iff, Release.lt_iff, List.not_lt_nil, Nat.lt_irrefl,
    and_false, or_false]

end Release

end Npm

namespace Target

open Npm (Release)
open Npm.Block (onRelease)

/-- The version that a release is. -/
def Version.ofRelease (r : Release) : Version := .ofNumbers [r.major, r.minor, r.patch]

/-- **A release** is read as the version that it is. -/
theorem Version.parse_release {k : Nat} (hk : k ≤ 9999999) {r : Release} (hr : r.Within k) :
    Version.parse r.text = .ok (.ofRelease r) := by
  obtain ⟨hmajor, hminor, hpatch⟩ := hr
  refine Version.parse_dotted (Numeral.Fits.isReadable ⟨by simp, by simp, ?_, ?_⟩)
  · rintro n ⟨⟩
    omega
  · intro n hn
    simp only [List.mem_cons, List.not_mem_nil, or_false] at hn
    omega

theorem padRelease_eq_padded {ns : List Nat} (hl : ns.length ≤ 3) :
    Version.padRelease ns = (Release.ofNumbers ns).padded := by
  rcases ns with _ | ⟨n, _ | ⟨m, _ | ⟨p, _ | ⟨_, _⟩⟩⟩⟩
  · rfl
  · rfl
  · rfl
  · rfl
  · simp only [List.length_cons] at hl
    omega

/-- A release as a place in the order. -/
def placeOf (rank : Nat) (r : Release) : Place := ⟨r.padded, rank, []⟩

theorem placeOf_lt {i j : Nat} {r s : Release} :
    placeOf i r < placeOf j s ↔ r < s ∨ (r = s ∧ i < j) := by
  have hn : ¬ (([] : List Nat) < []) := List.not_lt_nil []
  simp only [placeOf, Place.lt_iff, Release.padded_lt, Release.padded_inj, hn, and_false, or_false]

theorem placeOf_le {i j : Nat} {r s : Release} :
    placeOf i r ≤ placeOf j s ↔ r < s ∨ (r = s ∧ i ≤ j) := by
  show placeOf i r < placeOf j s ∨ placeOf i r = placeOf j s ↔ _
  -- Two places are the same when both the release and the rank are.
  have he : placeOf i r = placeOf j s ↔ r = s ∧ i = j := by
    simp [placeOf, Release.padded_inj]
  rw [placeOf_lt, he]
  constructor
  · rintro ((h | ⟨rfl, h⟩) | ⟨rfl, rfl⟩)
    · exact .inl h
    · exact .inr ⟨rfl, Nat.le_of_lt h⟩
    · exact .inr ⟨rfl, Nat.le_refl _⟩
  · rintro (h | ⟨rfl, h⟩)
    · exact .inl (.inl h)
    · rcases Nat.lt_or_eq_of_le h with h | rfl
      · exact .inl (.inr ⟨rfl, h⟩)
      · exact .inr ⟨rfl, rfl⟩

theorem place_ofRelease (r : Release) :
    (Version.ofRelease r).place = placeOf Stability.stable.rank r := rfl

theorem place_ofNumbers {ns : List Nat} (hl : ns.length ≤ 3) :
    (Version.ofNumbers ns).place = placeOf Stability.stable.rank (Release.ofNumbers ns) := by
  rw [Version.ofNumbers, padRelease_eq_padded hl]
  rfl

theorem place_lowestOf {ns : List Nat} (hl : ns.length ≤ 3) :
    (Version.lowestOf ns).place = placeOf Stability.dev.rank (Release.ofNumbers ns) := by
  rw [Version.lowestOf, padRelease_eq_padded hl]
  rfl

/-! ## Marks -/

/-- The comparison of the npm dialect that a sign stands for. -/
def Mark.comparison : Mark → Npm.Comparison
  | none | equal => .eq
  | less => .lt
  | atMost => .le
  | greater => .gt
  | atLeast => .ge

/-- The lowest version of a release is a lower bound for the release itself. -/
theorem matches_ge_lowestOf {ns : List Nat} (hl : ns.length ≤ 3) (r : Release) :
    (Bound.mk .ge (.lowestOf ns)).matches (.ofRelease r) = true ↔
      Npm.Comparison.ge.relates r (Release.ofNumbers ns) := by
  -- The stable version of a release is not below its lowest one.
  have hd : Stability.dev.rank ≤ Stability.stable.rank := by decide
  rw [Bound.matches_of_numeric rfl rfl]
  simp [Operator.holds, place_ofRelease, place_lowestOf hl, placeOf_le, hd,
    Npm.Comparison.relates]

/-- A release below the lowest version of another one is below that release. -/
theorem matches_lt_lowestOf {ns : List Nat} (hl : ns.length ≤ 3) (r : Release) :
    (Bound.mk .lt (.lowestOf ns)).matches (.ofRelease r) = true ↔
      Npm.Comparison.lt.relates r (Release.ofNumbers ns) := by
  -- The stable version of the release itself is above its lowest one, so an earlier one is left.
  have hd : ¬ Stability.stable.rank < Stability.dev.rank := by decide
  rw [Bound.matches_of_numeric rfl rfl]
  simp [Operator.holds, place_ofRelease, place_lowestOf hl, placeOf_lt, hd,
    Npm.Comparison.relates]

/-- **The bound of a sign** relates the release to the one it names. -/
theorem Mark.matches_bound (m : Mark) {ns : List Nat} (hl : ns.length ≤ 3) (r : Release) :
    (m.bound ns).matches (.ofRelease r) = true ↔
      m.comparison.relates r (Release.ofNumbers ns) := by
  cases m with
  -- the two signs that name the lowest version
  | less => exact matches_lt_lowestOf hl r
  | atLeast => exact matches_ge_lowestOf hl r
  | none | equal =>
    -- all others name the release itself
    show (Bound.mk .eq (.ofNumbers ns)).matches (.ofRelease r) = true ↔ _
    rw [Bound.matches_of_numeric rfl rfl]
    simp [Operator.holds, place_ofRelease, place_ofNumbers hl, placeOf, Release.padded_inj,
      Mark.comparison, Npm.Comparison.relates]
  | atMost =>
    show (Bound.mk .le (.ofNumbers ns)).matches (.ofRelease r) = true ↔ _
    rw [Bound.matches_of_numeric rfl rfl]
    simp [Operator.holds, place_ofRelease, place_ofNumbers hl, placeOf_le, Mark.comparison,
      Npm.Comparison.relates]
  | greater =>
    show (Bound.mk .gt (.ofNumbers ns)).matches (.ofRelease r) = true ↔ _
    rw [Bound.matches_of_numeric rfl rfl]
    simp [Operator.holds, place_ofRelease, place_ofNumbers hl, placeOf_lt, Mark.comparison,
      Npm.Comparison.relates]

/-! ## Parts -/

/-- **The bounds of a part** in the npm dialect. -/
def Part.npmBounds : Part → List Npm.Bound
  | any => []
  | compare m ns => [onRelease m.comparison (Release.ofNumbers ns)]
  | tilde ns => [onRelease .ge (Release.ofNumbers ns),
      onRelease .lt (Release.ofNumbers (bump ns (tildePosition ns)))]
  | wild ns _ _ => [onRelease .ge (Release.ofNumbers ns),
      onRelease .lt (Release.ofNumbers (bump ns (ns.length - 1)))]

theorem length_bump_le {ns : List Nat} (hl : ns.length ≤ 3) {position : Nat}
    (hp : position ≤ ns.length - 1) : (bump ns position).length ≤ 3 := by
  simp only [bump, List.length_append, List.length_take, List.length_singleton]
  omega

/-- **A part** lets the same releases through as its bounds in the npm dialect. -/
theorem Part.all_matches_bounds {p : Part} (h : p.Fits) (r : Release) :
    p.bounds.all (·.matches (.ofRelease r)) = p.npmBounds.all (·.matches ⟨r, [], []⟩) := by
  rw [Bool.eq_iff_iff]
  cases p with
  | any => rfl
  | compare m ns =>
    simp only [bounds, npmBounds, List.all_cons, List.all_nil, Bool.and_true, m.matches_bound h.2,
      Npm.matches_onRelease]
  | tilde ns =>
    have hb : (bump ns (tildePosition ns)).length ≤ 3 :=
      length_bump_le h.2 (by simp only [tildePosition]; omega)
    simp only [bounds, npmBounds, List.all_cons, List.all_nil, Bool.and_true, Bool.and_eq_true,
      matches_ge_lowestOf h.2, matches_lt_lowestOf hb, Npm.matches_onRelease]
  | wild ns w ws =>
    have hb : (bump ns (ns.length - 1)).length ≤ 3 := length_bump_le h.2 (Nat.le_refl _)
    simp only [bounds, npmBounds, wildcardBounds, List.all_cons, List.all_nil, Bool.and_true,
      Bool.and_eq_true, matches_ge_lowestOf h.2, matches_lt_lowestOf hb, Npm.matches_onRelease]

end Target

end AssetBridge
