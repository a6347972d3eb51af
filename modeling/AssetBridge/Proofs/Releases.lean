import AssetBridge.Proofs.Components
import AssetBridge.Proofs.NormalForms
import AssetBridge.Target.Constraint

/-!
# Releases of the target grammar

One to four numbers between points name a release: the normal form fills them up with zeros, and
reading it gives the numbers back. What stands behind a hyphen is read as a suffix.

## Main definitions

* `Numeral.IsReadable`: numbers that the target grammar reads as a release
* `Numeral.Fits`: such numbers of an ordinary size
* `Version.ofNumbers`: the release with the given numbers

## Main results

* `pointNumbers_append`: a scanner of numbers takes all there are
* `normalize_of_isDigit`: what opens with a digit has to be numeric
* `Version.parse_dotted_append`: the version of a release with a suffix
* `normalize_dotted`, `parse_dotted`: the normal form and the version of a release
-/

namespace AssetBridge

namespace Numeral

/-- One to four numbers, the first of at most five digits and none beyond the digit limit. -/
structure IsReadable (ns : List Nat) : Prop where
  ne_nil : ns ≠ []
  length_le : ns.length ≤ 4
  head_lt : ∀ n ∈ ns.head?, n < 100000
  length_digits_le : ∀ n ∈ ns, (digits n).length ≤ maxDigits

theorem IsReadable.exists_eq_cons {ns : List Nat} (h : IsReadable ns) :
    ∃ n ms, ns = n :: ms ∧ n < 100000 ∧ ms.length ≤ 3 := by
  obtain ⟨n, ms, rfl⟩ := List.exists_cons_of_ne_nil h.ne_nil
  refine ⟨n, ms, rfl, h.head_lt n rfl, ?_⟩
  have := h.length_le
  simp only [List.length_cons] at this
  omega

/-- One to four numbers, the first of at most five digits and none of more than eight. -/
structure Fits (ns : List Nat) : Prop where
  ne_nil : ns ≠ []
  length_le : ns.length ≤ 4
  head_lt : ∀ n ∈ ns.head?, n < 100000
  lt : ∀ n ∈ ns, n < 100000000

/-- Numbers of an ordinary size can be read. -/
theorem Fits.isReadable {ns : List Nat} (h : Fits ns) : IsReadable ns :=
  ⟨h.ne_nil, h.length_le, h.head_lt, fun n hn => length_digits_le_maxDigits (h.lt n hn)⟩

theorem Fits.exists_eq_cons {ns : List Nat} (h : Fits ns) :
    ∃ n ms, ns = n :: ms ∧ n < 100000 ∧ ms.length ≤ 3 :=
  h.isReadable.exists_eq_cons

theorem literal_digits {n : Nat} (h : (digits n).length ≤ maxDigits) :
    literal (digits n) = .ok (n : Int) := by
  have hl := literal_of_isDecimal (digits_ne_nil n) (fun _ => isDecimal_of_mem_digits) h
  rwa [value_digits] at hl

end Numeral

namespace Target

open Numeral (dotted points digits IsReadable)

/-! ## Scanning numbers -/

theorem pointNumber_append (n : Nat) {r : Text} (hr : ∀ c ∈ r.head?, Text.isDecimal c = false) :
    pointNumber ('.' :: (digits n ++ r)) = (some ('.' :: digits n), r) := by
  obtain ⟨ht, hd⟩ := Text.scan_eq_of_head? hr
  have hne : (digits n).isEmpty = false := by simpa using Numeral.digits_ne_nil n
  simp [pointNumber, ht, hd, hne]

/-- Behind a number there is a point or the end. -/
theorem head?_points (ns : List Nat) {r : Text}
    (hr : ∀ c ∈ r.head?, Text.isDecimal c = false) :
    ∀ c ∈ (points ns ++ r).head?, Text.isDecimal c = false := by
  cases ns with
  | nil => simpa using hr
  | cons n ns =>
    intro c hc
    rw [Numeral.points_cons] at hc
    obtain rfl : '.' = c := by simpa using hc
    decide

theorem pointNumber_points_cons (n : Nat) (ns : List Nat) {r : Text}
    (hr : ∀ c ∈ r.head?, Text.isDecimal c = false) :
    pointNumber (points (n :: ns) ++ r) = (some ('.' :: digits n), points ns ++ r) := by
  rw [Numeral.points_cons, List.cons_append, List.append_assoc,
    pointNumber_append n (head?_points ns hr)]

/-- **A scanner of numbers** takes all there are, when it may take as many. -/
theorem pointNumbers_append {ns : List Nat} {k : Nat} (hk : ns.length ≤ k) {r : Text}
    (hr : ∀ c ∈ r.head?, Text.isDecimal c = false) (hp : pointNumber r = (none, r)) :
    pointNumbers k (points ns ++ r) = (ns.map digits, r) := by
  -- Induction on the numbers: each takes one of the steps that are left.
  induction ns generalizing k with
  | nil =>
    cases k with
    | zero => rfl
    | succ k => simp [pointNumbers, hp]
  | cons n ns ih =>
    obtain ⟨k, rfl⟩ : ∃ j, k = j + 1 := ⟨k - 1, by simp at hk; omega⟩
    have hrest := ih (k := k) (by simpa using hk)
    rw [pointNumbers, pointNumber_points_cons n ns hr]
    simp only [hrest]
    rfl

/-- The numbers that open a text, and what is behind them. -/
theorem numbers?_dotted (n : Nat) (ns : List Nat) {k : Nat} (hk : ns.length ≤ k - 1) {r : Text}
    (hr : ∀ c ∈ r.head?, Text.isDecimal c = false) (hp : pointNumber r = (none, r)) :
    numbers? k (dotted (n :: ns) ++ r) = some ((n :: ns).map digits, r) := by
  -- A digit opens the text, so no letter of a version is dropped.
  have hv : dropSmallVersionLetter (dotted (n :: ns) ++ r) = dotted (n :: ns) ++ r := by
    obtain ⟨c, s, hc, hd⟩ := Numeral.exists_dotted_eq_cons n ns
    have hne : c ≠ 'v' := Text.ne_of_isDigit hd rfl
    rw [hc]
    simp [dropSmallVersionLetter, hne]
  obtain ⟨ht, hd⟩ := Text.scan_eq_of_head? (head?_points ns hr)
  have hne : (digits n).isEmpty = false := by simpa using Numeral.digits_ne_nil n
  simp only [numbers?, hv]
  rw [Numeral.dotted_cons, List.append_assoc, Numeral.takeWhile_isDecimal_digits_append, ht,
    Numeral.dropWhile_isDecimal_digits_append, hd, pointNumbers_append hk hr hp]
  simp [hne]

/-! ## The normal form -/

theorem dropAlias_eq_self {s : Text} (h : ∀ c ∈ s, isNameChar c = true) : dropAlias s = s := by
  have hd : s.dropWhile isNameChar = [] := (Text.scan_eq_of_forall h).2
  rw [dropAlias, hd]
  rfl

theorem dropFlag_eq_self {s : Text} (h : '@' ∉ s) : dropFlag s = s := by
  induction s with
  | nil => rfl
  | cons c s ih =>
    have hc : c ≠ '@' := fun e => h (by simp [e])
    have hs : '@' ∉ s := fun e => h (by simp [e])
    simp [dropFlag, hc, ih hs]

theorem dropBuild_eq_self {s : Text} (h : ∀ c ∈ s, isBuiltChar c = true) : dropBuild s = s := by
  have hd : s.dropWhile isBuiltChar = [] := (Text.scan_eq_of_forall h).2
  simp [dropBuild, hd]

theorem isBuiltChar_of_isDigit {c : Char} (h : c.isDigit = true) : isBuiltChar c = true := by
  have hb := Text.isBlank_eq_false_of_isDigit h
  have hcomma : c ≠ ',' := Text.ne_of_isDigit h rfl
  have hplus : c ≠ '+' := Text.ne_of_isDigit h rfl
  simp [isBuiltChar, isNameChar, hb, hcomma, hplus]

theorem isBuiltChar_of_mem_dotted {ns : List Nat} {c : Char} (h : c ∈ dotted ns) :
    isBuiltChar c = true := by
  rcases Numeral.isDigit_or_eq_of_mem_dotted h with h | rfl
  · exact isBuiltChar_of_isDigit h
  · decide

theorem padRelease_eq (ns : List Nat) :
    Version.padRelease ns = ns ++ List.replicate (4 - ns.length) 0 := rfl

/-- Up to four numbers and a suffix are a classical version. -/
theorem classical?_dotted_append {ns : List Nat} (h : IsReadable ns) {r : Text}
    (hr : ∀ c ∈ r.head?, Text.isDecimal c = false) (hp : pointNumber r = (none, r)) {σ : Suffix}
    (hσ : suffix? r = some σ) :
    classical? (dotted ns ++ r) = some (dotted (Version.padRelease ns) ++ σ.render) := by
  obtain ⟨n, ms, rfl, hn, hlen⟩ := h.exists_eq_cons
  have hv : dropVersionLetter (dotted (n :: ms) ++ r) = dotted (n :: ms) ++ r := by
    obtain ⟨c, s, hc, hd⟩ := Numeral.exists_dotted_eq_cons n ms
    have hsmall : c ≠ 'v' := Text.ne_of_isDigit hd rfl
    have hcap : c ≠ 'V' := Text.ne_of_isDigit hd rfl
    rw [hc]
    simp [dropVersionLetter, hsmall, hcap]
  have hne : (digits n).isEmpty = false := by simpa using Numeral.digits_ne_nil n
  have hfive : ¬ 5 < (digits n).length := by
    have := Numeral.length_digits_le_five hn
    omega
  have hscan := Text.scan_eq_of_head? (head?_points ms hr)
  have hz : missingComponent = points [0] := rfl
  have hnil : points [] ++ r = r := rfl
  simp only [classical?, hv]
  rw [Numeral.dotted_cons, List.append_assoc, Numeral.takeWhile_isDecimal_digits_append,
    Numeral.dropWhile_isDecimal_digits_append, hscan.1, hscan.2, List.append_nil]
  -- one case for each number of further components, the missing ones are zero
  rcases ms with _ | ⟨m, _ | ⟨p, _ | ⟨q, _ | ⟨_, _⟩⟩⟩⟩
  · simp only [hnil, hp]
    simp [hσ, hne, hfive, hz, padRelease_eq, Numeral.dotted_cons, Numeral.points_cons]
  · simp only [pointNumber_points_cons _ _ hr, hnil, hp]
    simp [hσ, hne, hfive, hz, padRelease_eq, Numeral.dotted_cons, Numeral.points_cons]
  · simp only [pointNumber_points_cons _ _ hr, hnil, hp]
    simp [hσ, hne, hfive, hz, padRelease_eq, Numeral.dotted_cons, Numeral.points_cons]
  · simp only [pointNumber_points_cons _ _ hr, hnil]
    simp [hσ, hne, hfive, padRelease_eq, Numeral.dotted_cons, Numeral.points_cons]
  · simp only [List.length_cons] at hlen
    omega

/-- **What names no branch** and has nothing to drop has to be numeric. -/
theorem normalize_of_isBuiltChar {s : Text} (hdefault : nameDefault s = s)
    (hbranch : Text.dropKeyword? branchPrefix s = none) (hb : ∀ d ∈ s, isBuiltChar d = true)
    (hflag : '@' ∉ s) :
    normalize s = match numeric? s with
      | some version => .ok version
      | none => .error (.invalid s) := by
  have hname : ∀ d ∈ s, isNameChar d = true ∧ Text.isBlank d = false := by
    intro d hd
    have := hb d hd
    simp only [isBuiltChar, isNameChar, Bool.and_eq_true, Bool.not_eq_true'] at this
    simp [isNameChar, this.1]
  -- There is no blank, alias, flag or build part to drop.
  have hstrip : Text.strip s = s := Text.strip_of_forall fun d hd => (hname d hd).2
  have halias : dropAlias s = s := dropAlias_eq_self fun d hd => (hname d hd).1
  have hdrop : dropFlag s = s := dropFlag_eq_self hflag
  have hbuild : dropBuild s = s := dropBuild_eq_self hb
  cases hnumeric : numeric? s <;>
    simp only [normalize, hstrip, halias, hdrop, hdefault, hbranch, hbuild, hnumeric]

/-- **What opens with a digit** names no branch: it has to be numeric. -/
theorem normalize_of_isDigit {c : Char} {r : Text} (hc : c.isDigit = true)
    (hb : ∀ d ∈ c :: r, isBuiltChar d = true) (hflag : '@' ∉ c :: r) :
    normalize (c :: r) = match numeric? (c :: r) with
      | some version => .ok version
      | none => .error (.invalid (c :: r)) :=
  normalize_of_isBuiltChar (nameDefault_of_isDigit hc r)
    (dropKeyword?_branchPrefix_of_isDigit hc r) hb hflag

/-- **A release with something behind it** opens with a digit, and is built of what that is built
of. -/
theorem exists_dotted_append_eq_cons {ns : List Nat} (h : IsReadable ns) {r : Text}
    (hb : ∀ d ∈ r, isBuiltChar d = true) (hflag : '@' ∉ r) :
    ∃ c s, dotted ns ++ r = c :: s ∧ c.isDigit = true ∧
      (∀ d ∈ c :: s, isBuiltChar d = true) ∧ '@' ∉ c :: s := by
  have hbuilt : ∀ d ∈ dotted ns ++ r, isBuiltChar d = true := by
    intro d hd
    rcases List.mem_append.1 hd with hd | hd
    · exact isBuiltChar_of_mem_dotted hd
    · exact hb d hd
  have hat : '@' ∉ dotted ns ++ r := by
    rw [List.mem_append, not_or]
    exact ⟨Numeral.not_mem_dotted (by decide), hflag⟩
  obtain ⟨n, ms, rfl, -, -⟩ := h.exists_eq_cons
  obtain ⟨c, s, hc, hd⟩ := Numeral.exists_dotted_eq_cons n ms
  rw [hc] at hbuilt hat ⊢
  exact ⟨c, s ++ r, rfl, hd, hbuilt, hat⟩

/-- The normal form of a release with a suffix: missing numbers are zero. -/
theorem normalize_dotted_append {ns : List Nat} (h : IsReadable ns) {r : Text}
    (hr : ∀ c ∈ r.head?, Text.isDecimal c = false) (hp : pointNumber r = (none, r))
    (hb : ∀ d ∈ r, isBuiltChar d = true) (hflag : '@' ∉ r) {σ : Suffix}
    (hσ : suffix? r = some σ) :
    normalize (dotted ns ++ r) = .ok (dotted (Version.padRelease ns) ++ σ.render) := by
  have hclassical := classical?_dotted_append h hr hp hσ
  obtain ⟨c, s, hc, hd, hbuilt, hat⟩ := exists_dotted_append_eq_cons h hb hflag
  rw [hc] at hclassical ⊢
  rw [normalize_of_isDigit hd hbuilt hat, numeric?, hclassical]
  rfl

/-- **The normal form** of a release. -/
theorem normalize_dotted {ns : List Nat} (h : IsReadable ns) :
    normalize (dotted ns) = .ok (dotted (Version.padRelease ns)) := by
  -- Nothing is behind the numbers, which is a suffix without a stability.
  have hend : suffix? [] = some ⟨none, false⟩ := rfl
  have hn := normalize_dotted_append h (by simp) rfl (by simp) (by simp) hend
  rw [List.append_nil] at hn
  exact hn.trans (congrArg Except.ok (List.append_nil _))

/-! ## The version -/

namespace Version

/-- Zeros at the end of a release do not count. -/
theorem padRelease_append_zeros {ns : List Nat} {j : Nat} (h : ns.length + j ≤ releaseLength) :
    padRelease (ns ++ List.replicate j 0) = padRelease ns := by
  rw [padRelease, padRelease, List.append_assoc, List.replicate_append_replicate,
    List.length_append, List.length_replicate]
  congr 2
  omega

/-- The release with the given numbers. -/
def ofNumbers (ns : List Nat) : Version := ⟨⟨padRelease ns, Stability.stable.rank, []⟩, none⟩

@[simp] theorem asDev_ofNumbers (ns : List Nat) : (ofNumbers ns).asDev = lowestOf ns := rfl

@[simp] theorem isBranch_ofNumbers (ns : List Nat) : (ofNumbers ns).isBranch = false := rfl

end Version

theorem pointParts_dotted {ns : List Nat} (h : ns ≠ []) :
    Version.pointParts (dotted ns) = ns.map digits := by
  obtain ⟨n, ms, rfl⟩ := List.exists_cons_of_ne_nil h
  have hw : ∀ m : Nat, Text.words (· = '.') (digits m) = [digits m] := by
    intro m
    refine Text.words_eq_singleton (Numeral.digits_ne_nil m) fun c hc => decide_eq_false ?_
    exact Text.ne_of_isDigit (Numeral.isDigit_of_mem_digits hc) rfl
  rw [Version.pointParts, dotted, List.map_cons, Text.words_join (by simp), ← List.map_cons,
    List.flatMap_map]
  simp only [hw]
  exact (List.map_eq_flatMap ..).symm

theorem mapM_literal {ns : List Nat} (h : ∀ n ∈ ns, (digits n).length ≤ Numeral.maxDigits) :
    (ns.map digits).mapM Numeral.literal = .ok (ns.map Int.ofNat) := by
  -- Induction on the numbers, each of which is read as itself.
  induction ns with
  | nil => rfl
  | cons n ns ih =>
    rw [List.map_cons, List.mapM_cons, Numeral.literal_digits (h n (by simp)),
      ih fun m hm => h m (by simp [hm])]
    rfl

namespace Version

theorem length_padRelease {ns : List Nat} (h : ns.length ≤ 4) : (padRelease ns).length = 4 := by
  simp only [padRelease, releaseLength, List.length_append, List.length_replicate]
  omega

/-- Filling a release up a second time does nothing. -/
theorem padRelease_padRelease {ns : List Nat} (h : ns.length ≤ 4) :
    padRelease (padRelease ns) = padRelease ns := by
  rw [padRelease_eq (padRelease ns), length_padRelease h]
  exact List.append_nil _

theorem padRelease_isReadable {ns : List Nat} (h : IsReadable ns) : IsReadable (padRelease ns) := by
  have hlen := length_padRelease h.length_le
  obtain ⟨n, ms, rfl, hn, -⟩ := h.exists_eq_cons
  refine ⟨by simp [padRelease], Nat.le_of_eq hlen, by simpa [padRelease] using hn, ?_⟩
  intro m hm
  -- What is filled up are zeros.
  rcases List.mem_append.1 hm with hm | hm
  · exact h.length_digits_le m hm
  · obtain ⟨-, rfl⟩ := List.mem_replicate.1 hm
    decide

/-- A release and suffixes between hyphens, split. -/
theorem ofNormal_join {ns : List Nat} (h : IsReadable ns) {suffixes : List Text}
    (hs : ∀ w ∈ suffixes, '-' ∉ w) :
    ofNormal (Text.join ['-'] (dotted ns :: suffixes)) = do
      return ⟨← suffixes.foldlM applySuffix ⟨padRelease ns, Stability.stable.rank, []⟩, none⟩ := by
  have hf : Text.fields '-' (Text.join ['-'] (dotted ns :: suffixes)) = dotted ns :: suffixes := by
    refine Text.fields_join fun w hw => ?_
    rcases List.mem_cons.1 hw with rfl | hw
    · exact Numeral.not_mem_dotted (by decide)
    · exact hs w hw
  -- A release is no branch.
  have hbranch :
      Text.dropPrefix? branchPrefix (Text.join ['-'] (dotted ns :: suffixes)) = none := by
    obtain ⟨n, ms, rfl, -, -⟩ := h.exists_eq_cons
    obtain ⟨c, r, hc, hd⟩ := Numeral.exists_dotted_eq_cons n ms
    have hne : 'd' ≠ c := (Text.ne_of_isDigit hd rfl).symm
    rw [Text.join_cons, hc, List.cons_append]
    show (if 'd' = c then _ else none) = none
    rw [if_neg hne]
  have hnat : (ns.map Int.ofNat).map Int.toNat = ns := by
    rw [List.map_map]
    exact List.map_id _
  simp only [ofNormal, hbranch, hf, List.headD_cons, List.tail_cons, pointParts_dotted h.ne_nil,
    mapM_literal h.length_digits_le]
  show (do
    return Version.mk (← suffixes.foldlM applySuffix
      ⟨padRelease ((ns.map Int.ofNat).map Int.toNat), Stability.stable.rank, []⟩) none) = _
  rw [hnat]

/-- **Reading a release with a suffix**: what the parts of its canonical form between hyphens say
applies to the release. -/
theorem parse_dotted_append {ns : List Nat} (h : IsReadable ns) {r : Text}
    (hr : ∀ c ∈ r.head?, Text.isDecimal c = false) (hp : pointNumber r = (none, r))
    (hb : ∀ d ∈ r, isBuiltChar d = true) (hflag : '@' ∉ r) {σ : Suffix}
    (hσ : suffix? r = some σ) {suffixes : List Text} (hs : ∀ w ∈ suffixes, '-' ∉ w)
    (hrender : σ.render = suffixes.flatMap ('-' :: ·)) {place : Place}
    (hplace : suffixes.foldlM applySuffix ⟨padRelease ns, Stability.stable.rank, []⟩ = .ok place) :
    parse (dotted ns ++ r) = .ok ⟨place, none⟩ := by
  have hnormal := normalize_dotted_append h hr hp hb hflag hσ
  have hof := ofNormal_join (padRelease_isReadable h) hs
  rw [padRelease_padRelease h.length_le, hplace, Text.join_cons] at hof
  rw [parse, hnormal, hrender]
  exact congrArg (Except.mapError VersionError.numeral) hof

/-- **Reading a release** gives its numbers back. -/
theorem parse_dotted {ns : List Nat} (h : IsReadable ns) :
    parse (dotted ns) = .ok (.ofNumbers ns) := by
  have hend : suffix? [] = some ⟨none, false⟩ := rfl
  have hnone : ∀ w ∈ ([] : List Text), '-' ∉ w := by simp
  have hp := parse_dotted_append h (by simp) rfl (by simp) (by simp) hend hnone rfl rfl
  rwa [List.append_nil] at hp

end Version

end Target

end AssetBridge
