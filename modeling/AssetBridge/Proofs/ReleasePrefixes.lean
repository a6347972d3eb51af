import AssetBridge.Proofs.CanonicalForms
import AssetBridge.Proofs.Comparisons
import AssetBridge.Proofs.OpeningNumbers

/-!
# Release prefixes

A wildcard, tilde or caret constraint is a lower bound and an upper one, the lowest version behind a
raised number. Between the two lie exactly the versions from the lower bound on whose release keeps
the numbers up to the one that is raised, of whatever length the release is and whatever stands
behind it.

## Main definitions

* `Version.IsNumbered`: the versions that texts name and that are no branches
* `StartsAt`: the numbers and the lower bound of a tilde or caret constraint
* `KeepsPrefix`: bounds that keep the first numbers of a version

## Main results

* `lt_raised_iff`: above a release, staying below a raised number means to keep what it raises
* `all_matches_iff`: two such bounds together
* `parsePart_keepsPrefix`: what wildcard, tilde and caret constraints accept
-/

namespace AssetBridge.Target

/-! ## Raised lists -/

section Lists

variable {p l r c : List Nat} {n j : Nat}

theorem not_lt_zeros (h : j ≤ r.length) : ¬ r < List.replicate j 0 := by
  induction j generalizing r with
  | zero => exact List.not_lt_nil r
  | succ j ih =>
    cases r with
    | nil => cases h
    | cons a r =>
      rw [List.replicate_succ, List.cons_lt_cons_iff]
      rintro (ha | ⟨-, hr⟩)
      · exact Nat.not_lt_zero a ha
      · exact ih (Nat.le_of_succ_le_succ h) hr

/-- A list is not below a prefix of it that is filled up with zeros. -/
theorem not_lt_of_isPrefix (h : c <+: r) (hlength : c.length + j ≤ r.length) :
    ¬ r < c ++ List.replicate j 0 := by
  obtain ⟨t, rfl⟩ := h
  induction c with
  | nil => exact not_lt_zeros (by simpa using hlength)
  | cons a c ih =>
    rw [List.cons_append, List.cons_append, List.cons_lt_cons_iff]
    rintro (ha | ⟨-, ht⟩)
    · exact Nat.lt_irrefl a ha
    · exact ih (by simp only [List.length_cons, List.cons_append] at hlength; omega) ht

theorem lt_raised_of_isPrefix (h : p ++ [n] <+: r) (t : List Nat) : r < p ++ (n + 1) :: t := by
  obtain ⟨u, rfl⟩ := h
  induction p with
  | nil => exact List.cons_lt_cons_iff.2 (.inl (Nat.lt_succ_self n))
  | cons a p ih => exact List.cons_lt_cons_iff.2 (.inr ⟨rfl, ih⟩)

/-- **Above a list**, what stays below one of its numbers raised keeps the numbers up to that
one. -/
theorem lt_raised_iff (hl : p ++ [n] <+: l) (hr : ¬ r < l) (hlength : p.length + 1 + j ≤ r.length) :
    r < p ++ (n + 1) :: List.replicate j 0 ↔ p ++ [n] <+: r := by
  refine ⟨fun h => ?_, fun h => lt_raised_of_isPrefix h _⟩
  obtain ⟨t, rfl⟩ := hl
  induction p generalizing r with
  | nil =>
    cases r with
    | nil => simp at hlength
    | cons a r =>
      rw [List.nil_append, List.cons_lt_cons_iff] at h
      have ha : ¬ a < n := fun ha => hr (List.cons_lt_cons_iff.2 (.inl ha))
      rcases h with h | ⟨-, h⟩
      · obtain rfl : n = a := by omega
        exact ⟨r, rfl⟩
      · refine absurd h (not_lt_zeros ?_)
        simp only [List.length_cons, List.length_nil] at hlength
        omega
  | cons b p ih =>
    cases r with
    | nil => simp at hlength
    | cons a r =>
      rw [List.cons_append, List.cons_lt_cons_iff] at h
      have ha : ¬ a < b := fun ha => hr (List.cons_lt_cons_iff.2 (.inl ha))
      rcases h with h | ⟨rfl, h⟩
      · exact absurd h ha
      · have hrest : ¬ r < p ++ [n] ++ t := fun hlt =>
          hr (List.cons_lt_cons_iff.2 (.inr ⟨rfl, hlt⟩))
        simp only [List.length_cons] at hlength
        exact List.cons_prefix_cons.2 ⟨rfl, ih (by omega) h hrest⟩

end Lists

/-! ## The lowest version of a release -/

/-- No version of a release is below its lowest one. -/
theorem lt_lowestOf_iff {a : Place} {ns : List Nat} :
    a < (Version.lowestOf ns).place ↔ a.release < Version.padRelease ns := by
  rw [Place.lt_iff]
  refine ⟨fun h => ?_, .inl⟩
  rcases h with h | ⟨-, h | ⟨-, h⟩⟩
  · exact h
  · exact absurd h (Nat.not_lt_zero _)
  · exact absurd h (List.not_lt_nil _)

theorem not_release_lt {a b : Place} (h : a ≤ b) : ¬ b.release < a.release := fun hlt =>
  Place.not_lt.2 h (Place.lt_iff.2 (.inl hlt))

section Raised

variable {c : List Nat} {k : Nat} (hk : k < c.length)
include hk

theorem take_succ_eq : c.take (k + 1) = c.take k ++ [c.getD k 0] := by
  rw [List.take_succ_eq_append_getElem hk, List.getD_eq_getElem?_getD, List.getElem?_eq_getElem hk,
    Option.getD_some]

theorem padRelease_bump :
    Version.padRelease (bump c k) =
      c.take k ++ (c.getD k 0 + 1) :: List.replicate (Version.releaseLength - (k + 1)) 0 := by
  have hlength : (bump c k).length = k + 1 := by
    rw [bump, List.length_append, List.length_take_of_le (Nat.le_of_lt hk), List.length_singleton]
  rw [Version.padRelease, hlength, bump, List.append_assoc, List.singleton_append]

variable {lower : Version} (hc : c <+: lower.place.release)
include hc

theorem lt_lowestOf_bump : lower.place < (Version.lowestOf (bump c k)).place := by
  rw [lt_lowestOf_iff, padRelease_bump hk]
  exact lt_raised_of_isPrefix (take_succ_eq hk ▸ (List.take_prefix _ c).trans hc) _

/-- **A version and a raised number of its release** bound the versions from it on that keep the
numbers up to that one. -/
theorem all_matches_iff (hmost : k < Version.releaseLength) (hbranch : lower.branch = none)
    {w : Version} (hw : w.branch = none)
    (hlength : Version.releaseLength ≤ w.place.release.length) :
    [(⟨.ge, lower⟩ : Bound), ⟨.lt, .lowestOf (bump c k)⟩].all (·.matches w) = true ↔
      lower.place ≤ w.place ∧ c.take (k + 1) <+: w.place.release := by
  have hge : (⟨.ge, lower⟩ : Bound).matches w = true ↔ lower.place ≤ w.place := by
    rw [Bound.matches_of_numeric hw hbranch]
    exact decide_eq_true_iff
  have hlt : (⟨.lt, .lowestOf (bump c k)⟩ : Bound).matches w = true ↔
      w.place < (Version.lowestOf (bump c k)).place := by
    rw [Bound.matches_of_numeric hw rfl]
    exact decide_eq_true_iff
  rw [List.all_cons, List.all_cons, List.all_nil, Bool.and_true, Bool.and_eq_true, hge, hlt]
  refine and_congr_right fun hle => ?_
  have hkept : c.take k ++ [c.getD k 0] <+: lower.place.release :=
    take_succ_eq hk ▸ (List.take_prefix _ c).trans hc
  rw [lt_lowestOf_iff, padRelease_bump hk, take_succ_eq hk]
  refine lt_raised_iff hkept (not_release_lt hle) ?_
  rw [List.length_take_of_le (Nat.le_of_lt hk)]
  omega

end Raised

/-! ## The positions that are raised -/

theorem tildePosition_lt {c : List Nat} (hne : c ≠ []) (hlength : c.length ≤ 4) :
    tildePosition c < c.length ∧ tildePosition c < Version.releaseLength := by
  have hpos := List.length_pos_iff.2 hne
  simp only [tildePosition, Version.releaseLength]
  omega

theorem findIdx?_getD_lt {c : List Nat} (hne : c ≠ []) :
    (c.findIdx? (0 < ·)).getD (c.length - 1) < c.length := by
  have hpos := List.length_pos_iff.2 hne
  cases hf : c.findIdx? (0 < ·) with
  | none =>
    rw [Option.getD_none]
    omega
  | some i => exact (List.findIdx?_eq_some_iff_findIdx_eq.1 hf).1

theorem caretPosition_lt {c : List Nat} (hne : c ≠ []) :
    caretPosition c < c.length ∧ caretPosition c < Version.releaseLength := by
  have hfound := findIdx?_getD_lt hne
  simp only [caretPosition, Version.releaseLength]
  omega

/-! ## Constraints -/

/-- A version that some text names and that is no branch. -/
def Version.IsNumbered (w : Version) : Prop := w.branch = none ∧ ∃ t, Version.parse t = .ok w

theorem Version.IsNumbered.length_release {w : Version} (h : w.IsNumbered) :
    releaseLength ≤ w.place.release.length := by
  obtain ⟨hbranch, t, ht⟩ := h
  obtain ⟨n, -, hn⟩ := Except.exists_of_bind_eq_ok ht
  exact length_release_of_ofNormal (Except.eq_ok_of_mapError hn) hbranch

/-- The numbers that open the version behind a tilde or a caret, and the version from which the
range starts: the one that is named, in development when it has no suffix. -/
def StartsAt (version : Text) (c : List Nat) (lower : Version) : Prop :=
  ∃ texts suffixed v, partialVersion? version = some (texts, suffixed) ∧
    texts.mapM readNumber = .ok c ∧ Version.parse version = .ok v ∧
    lower = if suffixed then v else v.asDev

theorem StartsAt.spec {version : Text} {c : List Nat} {lower : Version}
    (h : StartsAt version c lower) : c ≠ [] ∧ c.length ≤ 4 ∧ lower.branch = none ∧
      c <+: lower.place.release := by
  obtain ⟨texts, suffixed, v, hpartial, hc, hv, rfl⟩ := h
  obtain ⟨htexts, h, r, hh, rfl, hr⟩ := partialVersion?_spec hpartial
  obtain ⟨hbranch, hprefix⟩ := hh.isPrefix_release htexts hr hv
  rw [eq_map_value_of_readNumber hc]
  refine ⟨by simpa using htexts.ne_nil, by simpa using htexts.length_le, ?_⟩
  cases suffixed <;> exact ⟨hbranch, hprefix⟩

/-- **Keeping a prefix**: two bounds that accept the versions from the lower one on whose release
keeps the first numbers of the one that is written, as many as `kept` says. -/
def KeepsPrefix (version : Text) (kept : List Nat → Nat) (bounds : List Bound) : Prop :=
  ∃ c lower upper, StartsAt version c lower ∧ bounds = [⟨.ge, lower⟩, ⟨.lt, upper⟩] ∧
    c <+: lower.place.release ∧ lower.place < upper.place ∧
    ∀ w : Version, w.IsNumbered → (bounds.all (·.matches w) = true ↔
      lower.place ≤ w.place ∧ c.take (kept c) <+: w.place.release)

/-- What is kept reaches up to the number that is raised. -/
theorem keepsPrefix_of_partialBounds {position kept : List Nat → Nat} {version part : Text}
    {bounds : List Bound} (hposition : ∀ c : List Nat, c ≠ [] → c.length ≤ 4 →
      position c < c.length ∧ position c < Version.releaseLength ∧ kept c = position c + 1)
    (h : partialBounds position version part = .ok bounds) : KeepsPrefix version kept bounds := by
  unfold partialBounds at h
  split at h
  · cases h
  · rename_i texts suffixed hpartial
    obtain ⟨c, hc, h⟩ := Except.exists_of_bind_eq_ok h
    obtain ⟨v, hv, h⟩ := Except.exists_of_bind_eq_ok h
    obtain rfl := Except.ok.inj h
    have hstarts : StartsAt version c (if suffixed then v else v.asDev) :=
      ⟨texts, suffixed, v, hpartial, hc, Except.eq_ok_of_mapError hv, rfl⟩
    obtain ⟨hne, hlength, hbranch, hprefix⟩ := hstarts.spec
    obtain ⟨hlt, hmost, hkept⟩ := hposition c hne hlength
    refine ⟨c, _, _, hstarts, rfl, hprefix, lt_lowestOf_bump hlt hprefix, fun w hw => ?_⟩
    rw [hkept]
    exact all_matches_iff hlt hprefix hmost hbranch hw.1 hw.length_release

/-- The bounds of wildcards accept exactly the versions with the numbers in front of them. -/
theorem all_matches_wildcardBounds {c : List Nat} (hne : c ≠ [])
    (hlength : c.length ≤ Version.releaseLength) {w : Version} (hw : w.IsNumbered) :
    (wildcardBounds c).all (·.matches w) = true ↔ c <+: w.place.release := by
  have hpos := List.length_pos_iff.2 hne
  have hlast : c.length - 1 < c.length := by omega
  have hprefix : c <+: (Version.lowestOf c).place.release := List.prefix_append c _
  have hiff := all_matches_iff hlast hprefix (by omega) rfl hw.1 hw.length_release
  rw [Nat.sub_add_cancel hpos, List.take_length] at hiff
  rw [wildcardBounds, hiff]
  refine ⟨And.right, fun h => ⟨Place.not_lt.1 fun hlt => ?_, h⟩⟩
  have hfull := hw.length_release
  exact not_lt_of_isPrefix h (by omega) (lt_lowestOf_iff.1 hlt)

/-- What opens with the numbers of a wildcard constraint is read as one. -/
theorem parsePart_of_wildcardNumbers? {part : Text} {texts : List Text}
    (h : wildcardNumbers? part = some texts) :
    parsePart part = wildcardBounds <$> texts.mapM readNumber := by
  have hopens : ∃ c r, part = c :: r ∧ (Text.isDecimal c = true ∨ c = 'v') := by
    unfold wildcardNumbers? at h
    split at h
    · rename_i numbers r hnumbers
      obtain ⟨htexts, -, hs⟩ := numbers?_spec (by decide) hnumbers
      obtain ⟨h, hh, rfl⟩ := exists_isHead_of_dropSmallVersionLetter hs
      obtain ⟨c, t, hjoin, hc⟩ := htexts.exists_join_eq_cons
      rcases hh with rfl | rfl
      · exact ⟨c, t ++ r, by rw [hjoin]; rfl, .inl hc⟩
      · exact ⟨'v', _, rfl, .inr rfl⟩
    · cases h
  obtain ⟨c, r, rfl, hc⟩ := hopens
  refine parsePart_of_wildcards (fun hm => ?_) h
  have hother : ∀ d ∈ otherOpenings, Text.isDecimal d = false ∧ d ≠ 'v' :=
    List.all_iff_forall_prop.1 rfl
  rcases hc with hc | hc
  · exact absurd hc (by simp [(hother c hm).1])
  · exact (hother c hm).2 hc

/-- **Wildcard, tilde and caret constraints**: with wildcards, exactly the versions whose release
opens with the numbers in front of them; behind a tilde or a caret, those from the lower bound on
whose release keeps the numbers up to the one that is raised. -/
theorem parsePart_keepsPrefix {part : Text} {bounds : List Bound}
    (h : parsePart part = .ok bounds) :
    (∀ texts, wildcardNumbers? part = some texts → ∃ c, texts.mapM readNumber = .ok c ∧
      ∀ w : Version, w.IsNumbered →
        (bounds.all (·.matches w) = true ↔ c <+: w.place.release)) ∧
    (∀ version, part = '~' :: version →
      KeepsPrefix version (fun c => max 1 (c.length - 1)) bounds) ∧
    (∀ version, part = '^' :: version →
      KeepsPrefix version (fun c => min 2 ((c.findIdx? (0 < ·)).getD (c.length - 1)) + 1)
        bounds) := by
  refine ⟨fun texts htexts => ?_, ?_, ?_⟩
  · rw [parsePart_of_wildcardNumbers? htexts] at h
    obtain ⟨c, hc, rfl⟩ := Except.exists_of_map_eq_ok h
    have hnumbers : texts ≠ [] ∧ texts.length ≤ 4 := by
      unfold wildcardNumbers? at htexts
      split at htexts
      · rename_i hnumbers
        obtain ⟨harenumbers, -, -⟩ := numbers?_spec (by decide) hnumbers
        split at htexts
        · rw [← Option.some.inj htexts]
          exact ⟨harenumbers.ne_nil, harenumbers.length_le⟩
        · cases htexts
      · cases htexts
    refine ⟨c, hc, fun w hw => ?_⟩
    rw [eq_map_value_of_readNumber hc]
    exact all_matches_wildcardBounds (by simpa using hnumbers.1)
      (by rw [List.length_map]; exact hnumbers.2) hw
  · rintro version rfl
    refine keepsPrefix_of_partialBounds (fun c hne hlength => ?_) h
    have hposition := tildePosition_lt hne hlength
    exact ⟨hposition.1, hposition.2, by simp only [tildePosition]; omega⟩
  · rintro version rfl
    refine keepsPrefix_of_partialBounds (fun c hne _ => ?_) h
    have hposition := caretPosition_lt hne
    exact ⟨hposition.1, hposition.2, by rw [caretPosition, Nat.min_comm]⟩

/-- A date behind a caret: the number of the month is none that the caret sees. -/
theorem parsePart_keepsPrefix_date :
    parsePart "^2017-01".toList =
        .ok [⟨.ge, .ofNumbers [2017, 1]⟩, ⟨.lt, .lowestOf [2018]⟩] ∧
      KeepsPrefix "2017-01".toList
        (fun c => min 2 ((c.findIdx? (0 < ·)).getD (c.length - 1)) + 1)
        [⟨.ge, .ofNumbers [2017, 1]⟩, ⟨.lt, .lowestOf [2018]⟩] :=
  ⟨rfl, (parsePart_keepsPrefix rfl).2.2 _ rfl⟩

end AssetBridge.Target
