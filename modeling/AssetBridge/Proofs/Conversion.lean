import AssetBridge.Proofs.Outcomes
import AssetBridge.Proofs.Parts
import AssetBridge.Proofs.Walk

/-!
# The parts that a range becomes

Within the sizes that the target grammar takes, each item of a range becomes one part of a
constraint or two, and a hyphen range two. Wildcards are left only where an item has no operator;
everywhere else numbers stand for them.

## Main definitions

* `Source.raiseNumbers`, `Atom.caretEnd`: the end of a caret range in numbers
* `Atom.Within`, `Item.Within`: the sizes
* `Item.parts`, `Item.firstParts`, `Alternative.parts`: the parts of the pieces of a range

## Main results

* `Source.raiseLeftmost_digits`: raising components is raising numbers
* `Item.convert_eq`, `Alternative.convert_eq`: the pieces of a range become their parts
-/

namespace AssetBridge

/-! ## Raising numbers -/

namespace Numeral

theorem leading_digits {n : Nat} (h : n < 100000000) : leading (digits n) = .ok (n : Int) := by
  rw [leading_eq_read (digits_ne_nil n) fun _ => isDecimal_of_mem_digits, read_digits h]
  rfl

end Numeral

namespace Source

open Numeral (dotted digits)

theorem raised_digits {n : Nat} (h : n + 1 < 100000000) :
    raised (digits n) = .ok (digits (n + 1)) := by
  rw [raised, Numeral.leading_digits (by omega)]
  exact Numeral.writeInt_eq_digits h

/-- The numbers whose leftmost one that is not zero, or stands before a number that only a wildcard
has, is raised, with zeros behind it. -/
def raiseNumbers : Nat → List Nat → List Nat
  | _, [] => []
  | 0, n :: ns => (n + 1) :: ns.map fun _ => 0
  | _ + 1, [n] => [n + 1]
  | k + 1, n :: m :: ns =>
    if 0 < n ∨ 9999998 < m then (n + 1) :: (m :: ns).map fun _ => 0
    else n :: raiseNumbers k (m :: ns)

theorem leastComponent_eq : leastComponent = digits 0 :=
  Side.lower.component_eq_digits

theorem raisedBefore_digits {n : Nat} (h : n + 1 < 100000000) (ns : List Nat) :
    raisedBefore (digits n) (ns.map digits) =
      .ok (((n + 1) :: ns.map fun _ => 0).map digits) := by
  have hz : (ns.map digits).map (fun _ => leastComponent) = (ns.map fun _ => 0).map digits := by
    simp only [List.map_map, Function.comp_def, leastComponent_eq]
  rw [raisedBefore, raised_digits h, hz]
  rfl

/-- **Raising components** is raising numbers. -/
theorem raiseLeftmost_digits (k : Nat) {ns : List Nat} (h : ∀ n ∈ ns, n + 1 < 100000000) :
    raiseLeftmost k (ns.map digits) = .ok ((raiseNumbers k ns).map digits) := by
  -- Induction along the components that may be raised, with both tests read on the numbers.
  induction k, ns using raiseNumbers.induct with
  | case1 k => cases k <;> rfl
  | case2 n ns => exact raisedBefore_digits (h n (by simp)) ns
  | case3 k n => exact raisedBefore_digits (h n (by simp)) []
  | case4 k n m ns hr =>
    -- this component is raised: it counts already, or the next one is a filled wildcard
    have hb := raisedBefore_digits (h n (by simp)) (m :: ns)
    rw [raiseNumbers, if_pos hr, List.map_cons, List.map_cons, raiseLeftmost,
      Numeral.leading_digits (Nat.lt_of_succ_lt (h n (by simp))),
      Numeral.leading_digits (Nat.lt_of_succ_lt (h m (by simp)))]
    show (if 0 < (n : Int) then _ else if greatestNumber < (m : Int) then _ else _) = _
    by_cases hn : 0 < (n : Int)
    · rw [if_pos hn]
      exact hb
    · rw [if_neg hn, if_pos (by unfold greatestNumber; omega)]
      exact hb
  | case5 k n m ns hr ih =>
    -- this component stays, and one behind it is raised
    have hrest := ih fun p hp => h p (List.mem_cons_of_mem n hp)
    rw [raiseNumbers, if_neg hr, List.map_cons, List.map_cons, raiseLeftmost,
      Numeral.leading_digits (Nat.lt_of_succ_lt (h n (by simp))),
      Numeral.leading_digits (Nat.lt_of_succ_lt (h m (by simp))), ← List.map_cons, hrest]
    show (if 0 < (n : Int) then _ else if greatestNumber < (m : Int) then _ else _) = _
    rw [if_neg (by omega), if_neg (by unfold greatestNumber; omega)]
    rfl

/-- At least three numbers, the missing ones are zero. -/
def padThree (ns : List Nat) : List Nat := ns ++ List.replicate (3 - ns.length) 0

theorem standardize_digits (ns : List Nat) :
    standardize (ns.map digits) = dotted (padThree ns) := by
  rw [standardize, dotted, padThree, List.map_append, List.map_replicate, List.length_map]
  rfl

end Source

namespace Grammar

open Source Target
open Numeral (dotted points digits)

/-! ## Parts of items -/

namespace Atom

/-- The part that a version is, behind a sign. Wildcards only stand where there is none. -/
def part (mark : Mark) : Atom Nat → Part
  | major n => .compare mark [n]
  | minor n m => .compare mark [n, m]
  | patch n m p => .compare mark [n, m, p]
  | majorWild n w => .wild [n] w []
  | majorWilds n w w' => .wild [n] w [w']
  | minorWild n m w => .wild [n, m] w []

/-- The numbers of the release that ends the caret range of a version. -/
def caretEnd (v : Atom Nat) : List Nat :=
  padThree (raiseNumbers decidingComponents (v.filled 9999999))

/-- The right side of a hyphen range as a part: complete sides belong to the range, the others are
raised in the component before the last. -/
def highPart : Atom Nat → Part
  | major n | majorWild n _ => .compare .less [n + 1, 0]
  | majorWilds n _ _ => .compare .less [n, 1, 0]
  | minor n m => .compare .atMost [n, m]
  | patch n m p => .compare .atMost [n, m, p]
  | minorWild n m _ => .compare .less [n, m + 1, 0]

end Atom

/-- **The parts** of an item that does not open the range. -/
def Item.parts : Item Nat → List Part
  | star => [.any]
  | version .bare v => [v.collapsed.part .none]
  | version .equal v => [v.part .equal]
  | version .less v => [.compare .less (v.collapsed.filled 9999999)]
  | version .atMost v => [.compare .atMost (v.collapsed.filled 9999999)]
  | version .greater v => [.compare .greater (v.collapsed.filled 0)]
  | version .atLeast v => [.compare .atLeast (v.collapsed.filled 0)]
  | version .caret v => [.compare .atLeast (padThree (v.filled 0)), .compare .less v.caretEnd]
  | version .tilde v => [.tilde (v.filled 0)]
  | version .tildeGreater v => [.tilde (v.filled 0), .compare .greater (v.filled 0)]

/-- The parts of the item that opens the range. -/
def Item.firstParts : Item Nat → List Part
  | version .bare (.major n) => [.tilde [n]]
  | version .equal v => [v.collapsed.part .none]
  | i => i.parts

/-- Whether an item keeps to the target grammar wherever it stands. An equals sign that does not
open the range needs a version without wildcards. -/
def Item.IsLegal : Item Nat → Prop
  | version .equal v => v.wilds = []
  | _ => True

/-- **The parts** of an alternative that does not open the range. -/
def Alternative.parts : Alternative Nat → List Part
  | all c => c.items.flatMap Item.parts
  | hyphen low high => [.compare .atLeast (low.collapsed.filled 0), high.highPart]

/-- The parts of the alternative that opens the range. -/
def Alternative.firstParts : Alternative Nat → List Part
  | all c => c.first.firstParts ++ c.rest.flatMap Item.parts
  | a => a.parts

namespace Atom

theorem numbers_collapsed (v : Atom Nat) : v.collapsed.numbers = v.numbers := by
  cases v with
  | majorWilds n w w' => cases w <;> cases w' <;> rfl
  | _ => rfl

theorem Within.collapsed {k : Nat} {v : Atom Nat} (h : v.Within k) : v.collapsed.Within k :=
  ⟨by simpa using h.first_le, by simpa [numbers_collapsed] using h.le⟩

theorem Within.first_lt {k : Nat} {v : Atom Nat} (h : v.Within k) : v.first < 100000 := by
  have := h.first_le
  omega

/-- The text of the part that a version is. -/
theorem text_part (v : Atom Nat) : (v.part .none).text = v.text := by
  cases v <;> simp [part, Part.text, Mark.text, text, wildTail, Numeral.dotted_cons,
    Numeral.points_cons, Numeric.digits]

theorem text_part_of_wilds {v : Atom Nat} (h : v.wilds = []) (m : Mark) :
    (v.part m).text = m.text ++ v.text := by
  cases v with
  | major | minor | patch =>
    simp [part, Part.text, text, Numeral.dotted_cons, Numeral.points_cons, Numeric.digits]
  | majorWild | majorWilds | minorWild => simp [wilds] at h

theorem convertVersion_text_of_within {k : Nat} {v : Atom Nat} (h : v.Within k) :
    convertVersion v.text = .ok v.collapsed.text :=
  convertVersion_text_of_lt h.first_lt

theorem convertVersion_filled {k : Nat} {v : Atom Nat} (h : v.Within k) (j : Nat) :
    convertVersion (dotted (v.filled j)) = .ok (dotted (v.filled j)) := by
  rw [filled_eq_cons]
  exact convertVersion_dotted h.first_lt _

/-! ### Caret ranges -/

theorem fields_filled (v : Atom Nat) (k : Nat) :
    Text.fields '.' (dotted (v.filled k)) = (v.filled k).map digits := by
  rw [filled_eq_cons]
  exact Numeral.fields_dotted _ _

theorem filled_lt {k : Nat} (hk : k ≤ 9999999) {v : Atom Nat} (h : v.Within k) {j : Nat}
    (hj : j ≤ 9999999) : ∀ n ∈ v.filled j, n ≤ 9999999 := by
  intro n hn
  rw [filled_eq_cons] at hn
  rcases List.mem_cons.1 hn with rfl | hn
  · have := h.first_le
    omega
  · rcases List.mem_append.1 hn with hn | hn
    · have := h.le n hn
      omega
    · obtain ⟨w, -, rfl⟩ := List.mem_map.1 hn
      exact hj

theorem splitUpperBound_text (v : Atom Nat) :
    splitUpperBound v.text = (v.filled 9999999).map digits := by
  have hm : '-' ∉ v.text := not_mem_text rfl
  rw [splitUpperBound, Text.cut_eq_self hm]
  show Text.fields '.' (Text.substitute isWildcard greatestComponent v.text) = _
  rw [substitute_greatest_text, fields_filled]

theorem padThree_filled_collapsed (v : Atom Nat) :
    padThree (v.collapsed.filled 0) = padThree (v.filled 0) := by
  cases v with
  | majorWilds n w w' => cases w <;> cases w' <;> rfl
  | _ => rfl

theorem exists_raise_eq_cons (v : Atom Nat) :
    ∃ n ns, raiseNumbers decidingComponents (v.filled 9999999) = n :: ns ∧ n ≤ v.first + 1 := by
  rw [filled_eq_cons]
  -- The first number is raised when it stands alone or decides, and stays otherwise.
  cases (v.numbers.tail ++ v.wilds.map fun _ => 9999999) with
  | nil => exact ⟨_, _, rfl, Nat.le_refl _⟩
  | cons m ns =>
    rw [decidingComponents, raiseNumbers]
    split
    · exact ⟨_, _, rfl, Nat.le_refl _⟩
    · exact ⟨_, _, rfl, Nat.le_succ _⟩

/-- The upper bound depends on nothing but the components: it starts from those of a version
without a suffix. -/
theorem expandCaret_eq {k : Nat} (hk : k ≤ 9999999) {v : Atom Nat} (h : v.Within k) {s t : Text}
    (ht : convertVersion s = .ok t) (hs : splitUpperBound s = splitUpperBound v.text) :
    expandCaret s = .ok (['>', '='] ++
      standardize (Text.fields '.' (fillWildcards .lower t)) ++
      ([',', '<'] ++ dotted v.caretEnd)) := by
  have hraise : raiseLeftmost decidingComponents (splitUpperBound s) =
      .ok ((raiseNumbers decidingComponents (v.filled 9999999)).map digits) := by
    rw [hs, splitUpperBound_text]
    refine raiseLeftmost_digits _ fun n hn => ?_
    have := filled_lt hk h (Nat.le_refl 9999999) n hn
    omega
  -- The end of the range opens with a number that is at most one larger, so it is no date.
  have hupper : convertVersion (dotted v.caretEnd) = .ok (dotted v.caretEnd) := by
    obtain ⟨n, ns, hn, hlt⟩ := v.exists_raise_eq_cons
    have := h.first_le
    rw [caretEnd, hn]
    exact convertVersion_dotted (by omega) _
  rw [expandCaret, ht]
  show (do
    let r ← raiseLeftmost decidingComponents (splitUpperBound s)
    let upperBound ← convertVersion (standardize r)
    return ">=".toList ++ standardize (Text.fields '.' (fillWildcards .lower t)) ++
      ",<".toList ++ upperBound) = _
  rw [hraise]
  show (do
    let upperBound ← convertVersion (standardize
      ((raiseNumbers decidingComponents (v.filled 9999999)).map digits))
    return ">=".toList ++ standardize (Text.fields '.' (fillWildcards .lower t)) ++
      ",<".toList ++ upperBound) = _
  rw [standardize_digits, ← caretEnd, hupper]
  exact congrArg Except.ok (List.append_assoc _ [',', '<'] _)

/-- **A caret range** is the bounds from its version on and before its end. -/
theorem expandCaret_text {k : Nat} (hk : k ≤ 9999999) {v : Atom Nat} (h : v.Within k) :
    expandCaret v.text = .ok (['>', '='] ++ dotted (padThree (v.filled 0)) ++
      ([',', '<'] ++ dotted v.caretEnd)) := by
  -- The lower bound has zeros for its wildcards.
  have hlower : standardize (Text.fields '.' (fillWildcards .lower v.collapsed.text)) =
      dotted (padThree (v.filled 0)) := by
    rw [fillWildcards_text, fields_filled, standardize_digits]
    exact congrArg dotted v.padThree_filled_collapsed
  rw [expandCaret_eq hk h (convertVersion_text_of_within h) rfl, hlower]

/-! ### Hyphen ranges -/

theorem isCompleteSide_text (v : Atom Nat) : isCompleteSide v.text = match v with
    | minor _ _ | patch _ _ _ => true
    | _ => false := by
  -- A side is complete when it has a point and no wildcard.
  have hd : ∀ n : Nat, hasWildcard (digits n) = false := by
    intro n
    rw [hasWildcard, List.any_eq_false]
    intro c hc
    simp [isWildcard_of_isDigit (Numeral.isDigit_of_mem_digits hc)]
  have hdot : ∀ n : Nat, '.' ∉ digits n := fun n => Numeral.not_mem_digits rfl
  have hw : ∀ w : Wildcard, isWildcard w.char = true := fun w => by cases w <;> rfl
  have happend : ∀ s t : Text, hasWildcard (s ++ t) = (hasWildcard s || hasWildcard t) :=
    fun s t => List.any_append
  have hcons : ∀ (c : Char) (s : Text), hasWildcard (c :: s) = (isWildcard c || hasWildcard s) :=
    fun c s => List.any_cons
  have hnil : hasWildcard [] = false := rfl
  have hp : isWildcard '.' = false := rfl
  cases v <;> simp [isCompleteSide, text, Numeric.digits, hd, hdot, hw, happend, hcons, hnil, hp]

/-- The version that the raised right side of a hyphen range is, with its wildcards open. -/
def raisedSide : Atom Nat → Atom Nat
  | major n => majorWild (n + 1) .letter
  | majorWild n w => majorWild (n + 1) w
  | majorWilds n _ w' => minorWild n 1 w'
  | minorWild n m w => minorWild n (m + 1) w
  | v => v

theorem raised_wild (w : Wildcard) : raised [w.char] = .ok (digits 1) := by
  cases w <;> rfl

/-- Raising the component before the last of a version that has more than one. -/
theorem raisePartial_of_components {s : Text} {v u : Atom Nat} {c : Text}
    (hs : (if '.' ∈ s then s else s ++ ".x".toList) = v.text)
    (hc : raised ((digits v.first :: v.behind).getD (v.behind.length - 1) []) = .ok c)
    (hu : (digits v.first :: v.behind).set (v.behind.length - 1) c = digits u.first :: u.behind) :
    raisePartial s = .ok (dotted (u.filled 0)) := by
  have hl : (digits v.first :: v.behind).length - 2 = v.behind.length - 1 := rfl
  have hf : Text.fields '.' v.text = digits v.first :: v.behind := v.fields_text
  have ht : Text.join ['.'] (digits u.first :: u.behind) = u.text := u.text_eq_join.symm
  rw [raisePartial, hs, hf, hl, hc]
  show Except.ok (zeroWildcards
    (Text.join ['.'] ((digits v.first :: v.behind).set (v.behind.length - 1) c))) = _
  rw [hu, ht, zeroWildcards_text]

/-- **The right side of a hyphen range** that leaves components open. -/
theorem raisePartial_text {k : Nat} (hk : k ≤ 9999999) {v : Atom Nat} (h : v.Within k)
    (hc : isCompleteSide v.text = false) :
    raisePartial v.text = .ok (dotted (v.raisedSide.filled 0)) := by
  have hn : raised (digits v.first) = .ok (digits (v.first + 1)) :=
    raised_digits (by have := h.first_le; omega)
  rw [isCompleteSide_text] at hc
  cases v with
  | minor n m => simp at hc
  | patch n m p => simp at hc
  | major n =>
    -- a lone number gets a wildcard behind it first, and is then raised in front of it
    have hp : '.' ∉ digits n := Numeral.not_mem_digits rfl
    refine raisePartial_of_components (v := majorWild n .letter) ?_ hn rfl
    simp [text, Numeric.digits, hp, Wildcard.char]
  | majorWild n w =>
    exact raisePartial_of_components (v := majorWild n w) (if_pos (by simp [text])) hn rfl
  | majorWilds n w w' =>
    -- the component before the last is a wildcard, which counts as zero
    exact raisePartial_of_components (v := majorWilds n w w') (if_pos (by simp [text]))
      (raised_wild w) rfl
  | minorWild n m w =>
    have hm : raised (digits m) = .ok (digits (m + 1)) := by
      have : m ≤ k := h.le m (by simp [numbers])
      exact raised_digits (by omega)
    exact raisePartial_of_components (v := minorWild n m w) (if_pos (by simp [text])) hm rfl

/-- The right side of a hyphen range is its part. -/
theorem convertHigh_eq {k : Nat} (hk : k ≤ 9999999) {v : Atom Nat} (h : v.Within k) :
    v.convertHigh = .ok (',' :: v.highPart.text) := by
  by_cases hc : isCompleteSide v.text = true
  -- Complete sides stay as they are.
  · rw [convertHigh, if_pos hc, convertVersion_text_of_within h]
    rw [isCompleteSide_text] at hc
    cases v with
    | minor | patch =>
      exact congrArg Except.ok (by simp [highPart, Part.text, Mark.text, Numeral.dotted_cons,
        Numeral.points_cons, collapsed, text, Numeric.digits])
    | major | majorWild | majorWilds | minorWild => simp at hc
  -- Partial sides are raised, and the raised number is no date either.
  · have hr := raisePartial_text hk h (by simpa using hc)
    have hv : convertVersion (dotted (v.raisedSide.filled 0)) =
        .ok (dotted (v.raisedSide.filled 0)) := by
      have := h.first_le
      rw [filled_eq_cons]
      refine convertVersion_dotted ?_ _
      cases v <;> simp [raisedSide, first] at this ⊢ <;> omega
    rw [convertHigh, if_neg hc, hr]
    show (([',', '<'] ++ ·) <$> convertVersion (dotted (v.raisedSide.filled 0))) = _
    rw [hv]
    rw [isCompleteSide_text] at hc
    cases v with
    | minor | patch => simp at hc
    | major | majorWild | majorWilds | minorWild => rfl

end Atom

/-! ## Parts of the pieces of a range -/

/-- The text of parts: a comma between them. -/
def partsText (ps : List Part) : Text := Text.join [','] (ps.map Part.text)

@[simp] theorem partsText_singleton (p : Part) : partsText [p] = p.text := by
  simp [partsText]

theorem partsText_pair (p q : Part) : partsText [p, q] = p.text ++ ',' :: q.text := by
  simp [partsText, Text.join_cons]

/-- **An item** that does not open the range becomes its parts. -/
theorem Item.convert_eq {k : Nat} (hk : k ≤ 9999999) {i : Item Nat} (h : i.Within k)
    (hl : i.IsLegal) : i.convert = .ok (partsText i.parts) := by
  cases i with
  | star => rfl
  | version op v =>
    have hv : v.Within k := h
    have hc := Atom.convertVersion_text_of_within hv
    have hz : convertVersion (zeroWildcards v.text) = .ok (dotted (v.filled 0)) := by
      rw [Atom.zeroWildcards_text, Atom.convertVersion_filled hv]
    -- After the conversion wildcards are filled on the side of the bound ...
    have hf : ∀ side, fillWildcards side v.collapsed.text =
        dotted (v.collapsed.filled side.number) := fun side => Atom.fillWildcards_text side _
    -- ... which does nothing to a version whose wildcards a tilde made zeros before.
    have hlow : fillWildcards .lower (dotted (v.filled 0)) = dotted (v.filled 0) := by
      refine Text.substitute_eq_self (fun c hc => ?_) _
      rcases Numeral.isDigit_or_eq_of_mem_dotted hc with hc | rfl
      · exact Atom.isSmallWildcard_of_isDigit hc
      · rfl
    cases op with
    | bare =>
      rw [convert, Operator.bound, hc, parts, partsText_singleton, Atom.text_part]
      rfl
    | equal =>
      have hw : v.collapsed = v := by
        cases v with
        | majorWilds => exact absurd hl (by simp [IsLegal, Atom.wilds])
        | _ => rfl
      rw [convert, Operator.bound, hc, hw, parts, partsText_singleton, Atom.text_part_of_wilds hl]
      rfl
    | less | atMost | greater | atLeast =>
      rw [convert, Operator.bound, hc, parts, partsText_singleton]
      exact congrArg (fun t => Except.ok (_ ++ t)) (hf _)
    | caret =>
      rw [convert, Operator.bound, Atom.expandCaret_text hk hv, parts, partsText_pair]
      rfl
    | tilde =>
      rw [convert, Operator.bound, hz, parts, partsText_singleton]
      rfl
    | tildeGreater =>
      rw [convert, Operator.bound, hz, parts, partsText_pair]
      exact congrArg (fun t => Except.ok ('~' :: (t ++ ',' :: '>' :: t))) hlow

/-- A lone number keeps the tilde that is written in front of it. -/
theorem convertVersion_tilde {s : Text} (h : ∀ c ∈ s, c.isDigit = true) :
    convertVersion ('~' :: s) = .ok ('~' :: s) := by
  -- Behind the tilde stand digits only, so no step of the conversion finds what it looks for.
  have hne : ∀ c : Char, c.isDigit = false ∧ c ≠ '~' → c ∉ '~' :: s := by
    rintro c ⟨hd, ht⟩ hc
    rcases List.mem_cons.1 hc with hc | hc
    · exact ht hc
    · rw [h c hc] at hd
      cases hd
  have hlatest : '~' :: s ≠ latest := fun e => absurd (List.cons.inj e).1 (by decide)
  have hmarkers : dropRegistryMarkers ('~' :: s) = '~' :: s :=
    dropRegistryMarkers_of_not_mem (hne '-' (by decide)) (by decide)
  have hx : ('~' :: s).count 'x' = 0 := List.count_eq_zero.2 (hne 'x' (by decide))
  have hsuffix : convertSuffix ('~' :: s) = '~' :: s :=
    (convertSuffix_of_versionHead?_eq_none hmarkers rfl).trans
      (collapseWildcards_eq_self (by omega))
  rw [convertVersion_eq (List.cons_ne_nil _ s) hlatest (hne '–' (by decide)) rfl, hsuffix]
  rfl

/-- **The item that opens the range** becomes its parts. -/
theorem Item.convertFirst_eq {k : Nat} (hk : k ≤ 9999999) {i : Item Nat} (h : i.Within k) :
    i.convertFirst = .ok (partsText i.firstParts) := by
  have hlater := i.convert_eq hk h
  cases i with
  | star => exact hlater trivial
  | version op v =>
    cases op with
    | bare =>
      cases v with
      | major n =>
        -- a lone number is the one version that a tilde is written in front of
        rw [firstParts, partsText_singleton, Part.text, Numeral.dotted_singleton]
        exact convertVersion_tilde fun c => Numeral.isDigit_of_mem_digits
      | _ => exact hlater trivial
    | equal =>
      have hc := Atom.convertVersion_text_of_within (v := v) h
      rw [convertFirst, hc, firstParts, partsText_singleton, Atom.text_part]
    | _ => exact hlater trivial

theorem Item.parts_ne_nil (i : Item Nat) : i.parts ≠ [] := by
  cases i with
  | star => simp [parts]
  | version op v => cases op <;> simp [parts]

theorem Item.firstParts_ne_nil (i : Item Nat) : i.firstParts ≠ [] := by
  have hp := i.parts_ne_nil
  unfold firstParts
  split
  · simp
  · simp
  · exact hp

/-- Lists of parts that are joined make the text of all parts. -/
theorem join_partsText {l : List (List Part)} (h : ∀ ps ∈ l, ps ≠ []) :
    Text.join [','] (l.map partsText) = partsText l.flatten := by
  have hj : l.map partsText = (l.map (List.map Part.text)).map (Text.join [',']) := by
    rw [List.map_map]
    rfl
  rw [hj, Text.join_join, partsText, List.map_flatten]
  intro ts ht
  obtain ⟨ps, hps, rfl⟩ := List.mem_map.1 ht
  simpa using h ps hps

/-- Whether an alternative keeps to the target grammar where it does not open the range. -/
def Alternative.IsLegal : Alternative Nat → Prop := Alternative.Forall Item.IsLegal fun _ _ => True

/-- Whether an alternative keeps to the target grammar where it opens the range. -/
def Alternative.IsLegalFirst : Alternative Nat → Prop
  | all c => ∀ i ∈ c.rest, i.IsLegal
  | hyphen _ _ => True

theorem Alternative.convert_hyphen {k : Nat} (hk : k ≤ 9999999) {low high : Atom Nat}
    (hl : low.Within k) (hh : high.Within k) :
    (Alternative.hyphen low high).convert =
      .ok (partsText (Alternative.hyphen low high).parts) := by
  have hz : lowerSide low.collapsed.text = ['>', '='] ++ dotted (low.collapsed.filled 0) := by
    rw [lowerSide, Atom.zeroWildcards_text]
    rfl
  rw [convert, Atom.convertVersion_text_of_within hl, Atom.convertHigh_eq hk hh, parts,
    partsText_pair]
  exact congrArg (fun t => Except.ok (t ++ _)) hz

/-- **An alternative** that does not open the range becomes its parts. -/
theorem Alternative.convert_eq {k : Nat} (hk : k ≤ 9999999) {a : Alternative Nat}
    (h : a.Within k) (hl : a.IsLegal) : a.convert = .ok (partsText a.parts) := by
  cases a with
  | all c =>
    have hm : c.items.mapM Item.convert = .ok (c.items.map (partsText ∘ Item.parts)) :=
      Except.mapM_eq_ok fun i hi => Item.convert_eq hk (h i hi) (hl i hi)
    have hj := join_partsText (l := c.items.map Item.parts) fun ps hps => by
      obtain ⟨i, -, rfl⟩ := List.mem_map.1 hps
      exact i.parts_ne_nil
    rw [List.map_map] at hj
    rw [convert, hm, parts, List.flatMap_def, ← hj]
    rfl
  | hyphen low high => exact convert_hyphen hk h.1 h.2

/-- **The alternative that opens the range** becomes its parts. -/
theorem Alternative.convertFirst_eq {k : Nat} (hk : k ≤ 9999999) {a : Alternative Nat}
    (h : a.Within k) (hl : a.IsLegalFirst) : a.convertFirst = .ok (partsText a.firstParts) := by
  cases a with
  | all c =>
    have hf := Item.convertFirst_eq hk (h c.first (by simp [Conjunction.items]))
    have hm : c.rest.mapM Item.convert = .ok (c.rest.map (partsText ∘ Item.parts)) :=
      Except.mapM_eq_ok fun i hi =>
        Item.convert_eq hk (h i (by simp [Conjunction.items, hi])) (hl i hi)
    have hj := join_partsText (l := c.first.firstParts :: c.rest.map Item.parts) fun ps hps => by
      rcases List.mem_cons.1 hps with rfl | hps
      · exact c.first.firstParts_ne_nil
      · obtain ⟨i, -, rfl⟩ := List.mem_map.1 hps
        exact i.parts_ne_nil
    rw [List.map_cons, List.map_map, List.flatten_cons, ← List.flatMap_def] at hj
    rw [convertFirst, hf, hm, firstParts, ← hj]
    rfl
  | hyphen low high => exact convert_hyphen hk h.1 h.2

/-- The parts of the alternatives of a range. -/
def Expression.parts (e : Expression Nat) : List (List Part) :=
  e.first.firstParts :: e.rest.map Alternative.parts

/-- Whether every alternative of a range keeps to the target grammar. -/
def Expression.IsLegal (e : Expression Nat) : Prop :=
  e.first.IsLegalFirst ∧ ∀ a ∈ e.rest, a.IsLegal

/-- A range keeps to the target grammar when all its items do, wherever they stand. -/
theorem Expression.isLegal_of_forall {e : Expression Nat}
    (h : e.Forall Item.IsLegal fun _ _ => True) : e.IsLegal := by
  refine ⟨?_, fun a ha => h a (by simp [alternatives, ha])⟩
  have hfirst := h e.first (by simp [alternatives])
  cases hc : e.first with
  | all c =>
    rw [hc] at hfirst
    intro i hi
    exact hfirst i (by simp [Conjunction.items, hi])
  | hyphen low high => trivial

/-- **A range** becomes its parts: a comma between those that hold together, and a bar between
alternatives. -/
theorem Expression.convertRange_eq {k : Nat} (hk : k ≤ 9999999) {e : Expression Nat}
    (h : e.Within k) (hl : e.IsLegal) :
    convertRange e.text = .ok (Text.join ['|'] (e.parts.map partsText)) := by
  have hf := Alternative.convertFirst_eq hk (h e.first (by simp [alternatives])) hl.1
  have hm : e.rest.mapM Alternative.convert = .ok (e.rest.map (partsText ∘ Alternative.parts)) :=
    Except.mapM_eq_ok fun a ha =>
      Alternative.convert_eq hk (h a (by simp [alternatives, ha])) (hl.2 a ha)
  rw [convertRange_text, hf, hm, parts, List.map_cons, List.map_map]
  rfl

end Grammar

end AssetBridge
