import AssetBridge.Agreement
import AssetBridge.Proofs.Constraints
import AssetBridge.Proofs.Conversion

/-!
# The constraint for a range

The parts that a range becomes are numbers of ordinary size, so the constraint is read without an
error, and its alternatives are the bounds of the parts.

## Main results

* `Item.fits_of_mem_parts`, `Alternative.fits_of_mem_parts`: the parts can be read
* `parse_join_partsText`: a constraint that is written in parts is read as their bounds
* `Expression.constraintFor_text`: the constraint for a range
-/

namespace AssetBridge

namespace Source

open Numeral (Fits)

theorem length_raiseNumbers (k : Nat) (ns : List Nat) : (raiseNumbers k ns).length = ns.length := by
  -- Induction along the components that may be raised.
  induction k, ns using raiseNumbers.induct with
  | case1 k => cases k <;> rfl
  | case2 n ns => simp [raiseNumbers]
  | case3 k n => rfl
  | case4 k n m ns hr => simp [raiseNumbers, hr]
  | case5 k n m ns hr ih => simp [raiseNumbers, hr, ih]

/-- Raising makes no number greater than one more than the greatest. -/
theorem le_of_mem_raiseNumbers {k b : Nat} {ns : List Nat} (h : ∀ n ∈ ns, n ≤ b) :
    ∀ n ∈ raiseNumbers k ns, n ≤ b + 1 := by
  -- Where a number is raised all behind it are zero.
  have hz : ∀ (n : Nat) (ms : List Nat), n ≤ b → ∀ m ∈ (n + 1) :: ms.map fun _ => 0, m ≤ b + 1 := by
    intro n ms hn m hm
    rcases List.mem_cons.1 hm with rfl | hm
    · omega
    · obtain ⟨_, -, rfl⟩ := List.mem_map.1 hm
      omega
  induction k, ns using raiseNumbers.induct with
  | case1 k => cases k <;> simp [raiseNumbers]
  | case2 n ns => exact hz n ns (h n (by simp))
  | case3 k n => exact hz n [] (h n (by simp))
  | case4 k n m ns hr =>
    rw [raiseNumbers, if_pos hr]
    exact hz n (m :: ns) (h n (by simp))
  | case5 k n m ns hr ih =>
    rw [raiseNumbers, if_neg hr]
    intro p hp
    rcases List.mem_cons.1 hp with rfl | hp
    · have := h p (by simp)
      omega
    · exact ih (fun q hq => h q (List.mem_cons_of_mem n hq)) p hp

theorem fits_padThree {ns : List Nat} (h : Fits ns) (hl : ns.length ≤ 3) :
    Fits (padThree ns) ∧ (padThree ns).length ≤ 3 := by
  have hp : (padThree ns).length = 3 := by
    simp only [padThree, List.length_append, List.length_replicate]
    omega
  obtain ⟨n, ms, rfl, hn, -⟩ := h.exists_eq_cons
  refine ⟨⟨by simp [padThree], by omega, by simpa [padThree] using hn, fun m hm => ?_⟩, by omega⟩
  rcases List.mem_append.1 hm with hm | hm
  · exact h.lt m hm
  · obtain ⟨-, rfl⟩ := List.mem_replicate.1 hm
    decide

end Source

namespace Grammar

open Source Target
open Numeral (Fits)

/-! ## The parts can be read -/

namespace Atom

theorem length_filled (k : Nat) (v : Atom Nat) : (v.filled k).length ≤ 3 := by
  cases v <;> simp [filled, numbers, wilds]

/-- A filled version has numbers of ordinary size. -/
theorem Within.fits_filled {k : Nat} (hk : k ≤ 9999999) {v : Atom Nat} (h : v.Within k) {j : Nat}
    (hj : j ≤ 9999999) : Fits (v.filled j) ∧ (v.filled j).length ≤ 3 := by
  have hlen := v.length_filled j
  refine ⟨⟨by simp [filled_eq_cons], by omega, ?_, ?_⟩, hlen⟩
  · rw [filled_eq_cons]
    rintro n ⟨⟩
    exact h.first_lt
  · intro n hn
    have := filled_lt hk h hj n hn
    omega

theorem Within.fits_numbers {k : Nat} (hk : k ≤ 9999999) {v : Atom Nat} (h : v.Within k) :
    Fits v.numbers ∧ v.numbers.length ≤ 3 := by
  have hlen : v.numbers.length ≤ 3 := by cases v <;> simp [numbers]
  have hne : v.numbers ≠ [] := by cases v <;> simp [numbers]
  refine ⟨⟨hne, by omega, ?_, ?_⟩, hlen⟩
  · rw [numbers_eq_cons]
    rintro n ⟨⟩
    exact h.first_lt
  · intro n hn
    rw [numbers_eq_cons] at hn
    rcases List.mem_cons.1 hn with rfl | hn
    · have := h.first_le
      omega
    · have := h.le n hn
      omega

theorem Within.fits_part {k : Nat} (hk : k ≤ 9999999) {v : Atom Nat} (h : v.Within k) (m : Mark) :
    (v.part m).Fits := by
  have hn := h.fits_numbers hk
  cases v <;> exact hn

/-- The end of a caret range has numbers of ordinary size. -/
theorem Within.fits_caretEnd {k : Nat} (hk : k ≤ 9999999) {v : Atom Nat} (h : v.Within k) :
    Fits v.caretEnd ∧ v.caretEnd.length ≤ 3 := by
  have hlen : (raiseNumbers decidingComponents (v.filled 9999999)).length ≤ 3 := by
    rw [length_raiseNumbers]
    exact v.length_filled _
  -- Raising adds one at most, to the first number as to the others.
  have hle := le_of_mem_raiseNumbers (k := decidingComponents)
    (filled_lt hk h (Nat.le_refl 9999999))
  obtain ⟨n, ns, hn, hfirst⟩ := v.exists_raise_eq_cons
  have hf := h.first_le
  refine fits_padThree ⟨by simp [hn], by omega, ?_, ?_⟩ hlen
  · rw [hn]
    rintro m ⟨⟩
    omega
  · intro m hm
    have := hle m hm
    omega

theorem Within.fits_highPart {k : Nat} (hk : k ≤ 9999999) {v : Atom Nat} (h : v.Within k) :
    v.highPart.Fits := by
  have hn := h.fits_numbers hk
  have hf := h.first_le
  cases v with
  | minor | patch => exact hn
  | major n | majorWild n w =>
    refine ⟨⟨by simp, by simp, ?_, ?_⟩, by simp⟩ <;> simp [first] at hf ⊢ <;> omega
  | majorWilds n w w' =>
    refine ⟨⟨by simp, by simp, ?_, ?_⟩, by simp⟩ <;> simp [first] at hf ⊢ <;> omega
  | minorWild n m w =>
    have hm : m ≤ k := h.le m (by simp [numbers])
    refine ⟨⟨by simp, by simp, ?_, ?_⟩, by simp⟩ <;> simp [first] at hf ⊢ <;> omega

end Atom

theorem Item.fits_of_mem_parts {k : Nat} (hk : k ≤ 9999999) {i : Item Nat} (h : i.Within k) :
    ∀ p ∈ i.parts, p.Fits := by
  cases i with
  | star => simp [parts, Part.Fits]
  | version op v =>
    have hv : v.Within k := h
    have hc := hv.collapsed
    have hfill : ∀ j ≤ 9999999, Fits (v.collapsed.filled j) ∧ (v.collapsed.filled j).length ≤ 3 :=
      fun _ hj => hc.fits_filled hk hj
    have hzero := hv.fits_filled hk (Nat.zero_le 9999999)
    intro p hp
    -- Every part is a filled version or the end of a caret range, and both have ordinary sizes.
    cases op <;> simp only [parts, List.mem_cons, List.not_mem_nil, or_false] at hp
    case bare => exact hp ▸ hc.fits_part hk _
    case equal => exact hp ▸ hv.fits_part hk _
    case less | atMost => exact hp ▸ hfill _ (Nat.le_refl _)
    case greater | atLeast => exact hp ▸ hfill _ (Nat.zero_le _)
    case tilde => exact hp ▸ hzero
    case caret =>
      rcases hp with rfl | rfl
      · exact fits_padThree hzero.1 hzero.2
      · exact hv.fits_caretEnd hk
    case tildeGreater =>
      rcases hp with rfl | rfl
      · exact hzero
      · exact hzero

theorem Item.fits_of_mem_firstParts {k : Nat} (hk : k ≤ 9999999) {i : Item Nat} (h : i.Within k) :
    ∀ p ∈ i.firstParts, p.Fits := by
  have hp := Item.fits_of_mem_parts hk h
  unfold firstParts
  split
  · intro p hp
    obtain rfl := List.mem_singleton.1 hp
    exact Atom.Within.fits_numbers hk h
  · intro p hp
    obtain rfl := List.mem_singleton.1 hp
    exact (Atom.Within.collapsed h).fits_part hk _
  · exact hp

theorem Alternative.fits_of_mem_parts {k : Nat} (hk : k ≤ 9999999) {a : Alternative Nat}
    (h : a.Within k) : ∀ p ∈ a.parts, p.Fits := by
  cases a with
  | all c =>
    intro p hp
    obtain ⟨i, hi, hp⟩ := List.mem_flatMap.1 hp
    exact Item.fits_of_mem_parts hk (h i hi) p hp
  | hyphen low high =>
    intro p hp
    simp only [parts, List.mem_cons, List.not_mem_nil, or_false] at hp
    rcases hp with rfl | rfl
    · exact h.1.collapsed.fits_filled hk (Nat.zero_le _)
    · exact h.2.fits_highPart hk

theorem Alternative.fits_of_mem_firstParts {k : Nat} (hk : k ≤ 9999999) {a : Alternative Nat}
    (h : a.Within k) : ∀ p ∈ a.firstParts, p.Fits := by
  cases a with
  | all c =>
    intro p hp
    rcases List.mem_append.1 hp with hp | hp
    · exact Item.fits_of_mem_firstParts hk (h c.first (by simp [Conjunction.items])) p hp
    · obtain ⟨i, hi, hp⟩ := List.mem_flatMap.1 hp
      exact Item.fits_of_mem_parts hk (h i (by simp [Conjunction.items, hi])) p hp
  | hyphen low high => exact Alternative.fits_of_mem_parts hk h

/-! ## Reading parts -/

theorem isPartSeparator_of_isItemChar {c : Char} (h : isItemChar c = true) :
    Constraint.isPartSeparator c = false := by
  have hc : c ≠ ',' := by
    rintro rfl
    exact absurd h (by decide)
  simp [Constraint.isPartSeparator, hc, isBlank_eq_false_of_isItemChar h]

theorem isItemChar_of_mem_text {p : Part} {c : Char} (h : c ∈ p.text) : isItemChar c = true := by
  have hd : ∀ {ns : List Nat}, c ∈ Numeral.dotted ns → isItemChar c = true := by
    intro ns hc
    rcases Numeral.isDigit_or_eq_of_mem_dotted hc with hc | rfl
    · exact isItemChar_of_isAtomChar (isAtomChar_of_isDigit hc)
    · rfl
  cases p with
  | any =>
    obtain rfl := List.mem_singleton.1 h
    rfl
  | compare m ns =>
    rcases List.mem_append.1 h with h | h
    · cases m <;> simp [Mark.text] at h <;> grind [isItemChar]
    · exact hd h
  | tilde ns =>
    rcases List.mem_cons.1 h with rfl | h
    · rfl
    · exact hd h
  | wild ns w ws =>
    rcases List.mem_append.1 h with h | h
    · exact hd h
    · obtain ⟨v, -, h⟩ := List.mem_flatMap.1 h
      rcases List.mem_cons.1 h with rfl | h
      · rfl
      · obtain rfl := List.mem_singleton.1 h
        exact isItemChar_of_isAtomChar v.isAtomChar_char

theorem text_ne_nil_of_fits {p : Part} (h : p.Fits) : p.text ≠ [] := by
  have hd : ∀ {ns : List Nat}, Fits ns → Numeral.dotted ns ≠ [] := by
    intro ns hns
    obtain ⟨n, ms, rfl, -, -⟩ := hns.exists_eq_cons
    obtain ⟨c, r, hc, -⟩ := Numeral.exists_dotted_eq_cons n ms
    simp [hc]
  cases p with
  | any => simp [Part.text]
  | compare m ns => simp [Part.text, hd h.1]
  | tilde ns => simp [Part.text]
  | wild ns w ws => simp [Part.text, hd h.1]

/-- The words of parts are the texts of the parts. -/
theorem words_partsText {ps : List Part} (hne : ps ≠ []) (h : ∀ p ∈ ps, p.Fits) :
    Text.words Constraint.isPartSeparator (partsText ps) = ps.map Part.text := by
  have hflat : (ps.map Part.text).flatMap (Text.words Constraint.isPartSeparator) =
      ps.map Part.text := by
    clear hne
    -- Induction on the parts: the text of each one is a single word.
    induction ps with
    | nil => rfl
    | cons p ps ih =>
      have hw : Text.words Constraint.isPartSeparator p.text = [p.text] := by
        refine Text.words_eq_singleton (text_ne_nil_of_fits (h p (by simp))) fun c hc => ?_
        exact isPartSeparator_of_isItemChar (isItemChar_of_mem_text hc)
      rw [List.map_cons, List.flatMap_cons, hw, ih fun q hq => h q (by simp [hq])]
      rfl
  obtain ⟨p, ps, rfl⟩ := List.exists_cons_of_ne_nil hne
  rw [List.map_cons] at hflat
  rw [partsText, List.map_cons, Text.words_join (by decide), hflat]

theorem bar_not_mem_partsText (ps : List Part) : '|' ∉ partsText ps := by
  intro h
  rcases Text.mem_join h with h | ⟨t, ht, h⟩
  · exact absurd h (by decide)
  · obtain ⟨p, -, rfl⟩ := List.mem_map.1 ht
    exact absurd (isItemChar_of_mem_text h) (by decide)

theorem partsText_ne_nil {ps : List Part} (hne : ps ≠ []) (h : ∀ p ∈ ps, p.Fits) :
    partsText ps ≠ [] := by
  obtain ⟨p, ps, rfl⟩ := List.exists_cons_of_ne_nil hne
  have hp := text_ne_nil_of_fits (h p (by simp))
  simp [partsText, Text.join_cons, hp]

/-- The bounds of parts that are written between commas. -/
theorem readParts_map_text {ps : List Part} (hne : ps ≠ []) (h : ∀ p ∈ ps, p.Fits) :
    Constraint.readParts (ps.map Part.text) = some (ps.flatMap Part.bounds) := by
  have hm : (ps.map Part.text).mapM (fun t => (parsePart t).toOption) =
      some (ps.map Part.bounds) := by
    clear hne
    -- Induction on the parts, each of which is read as its bounds.
    induction ps with
    | nil => rfl
    | cons p ps ih =>
      rw [List.map_cons, List.mapM_cons, parsePart_text (h p (by simp)),
        ih fun q hq => h q (by simp [hq])]
      rfl
  have he : (ps.map Part.text).isEmpty = false := by simpa using hne
  rw [Constraint.readParts, he, hm, List.flatMap_def]
  rfl

/-- **A constraint that is written in parts** is read as their bounds. -/
theorem parse_join_partsText {l : List (List Part)} (hl : l ≠ [])
    (h : ∀ ps ∈ l, ps ≠ [] ∧ ∀ p ∈ ps, p.Fits) :
    Constraint.parse (Text.join ['|'] (l.map partsText)) =
      .ok ⟨Text.join ['|'] (l.map partsText), l.map fun ps => ps.flatMap Part.bounds⟩ := by
  -- Cutting finds the alternatives between the bars and the parts between the commas ...
  have hcut : Constraint.partLists (Text.join ['|'] (l.map partsText)) =
      l.map fun ps => ps.map Part.text := by
    obtain ⟨ps, l, rfl⟩ := List.exists_cons_of_ne_nil hl
    have hs : ∀ t ∈ partsText ps :: l.map partsText, t ≠ [] ∧ '|' ∉ t := by
      intro t ht
      rw [← List.map_cons] at ht
      obtain ⟨qs, hq, rfl⟩ := List.mem_map.1 ht
      exact ⟨partsText_ne_nil (h qs hq).1 (h qs hq).2, bar_not_mem_partsText qs⟩
    rw [Constraint.partLists, List.map_cons, Constraint.splitBars_join hs, ← List.map_cons,
      List.map_map]
    exact List.map_congr_left fun qs hq => words_partsText (h qs hq).1 (h qs hq).2
  -- ... and reading the parts of one alternative after the other gives their bounds.
  apply Constraint.parse_of_mapM_readParts
  rw [hcut, List.mapM_map]
  clear hcut hl
  induction l with
  | nil => rfl
  | cons ps l ih =>
    rw [List.mapM_cons, ih fun qs hq => h qs (by simp [hq]), Function.comp_apply,
      readParts_map_text (h ps (by simp)).1 (h ps (by simp)).2]
    rfl

/-! ## Whole ranges -/

/-- The constraint that a range becomes. -/
def Expression.constraint (e : Expression Nat) : Constraint :=
  ⟨Text.join ['|'] (e.parts.map partsText), e.parts.map fun ps => ps.flatMap Part.bounds⟩

theorem Alternative.parts_ne_nil (a : Alternative Nat) : a.parts ≠ [] := by
  cases a with
  | all c => simp [parts, Conjunction.items, c.first.parts_ne_nil]
  | hyphen low high => simp [parts]

theorem Alternative.firstParts_ne_nil (a : Alternative Nat) : a.firstParts ≠ [] := by
  cases a with
  | all c => simp [firstParts, c.first.firstParts_ne_nil]
  | hyphen low high => simp [firstParts, parts]

theorem Expression.fits_of_mem_parts {k : Nat} (hk : k ≤ 9999999) {e : Expression Nat}
    (h : e.Within k) : ∀ ps ∈ e.parts, ps ≠ [] ∧ ∀ p ∈ ps, p.Fits := by
  intro ps hps
  rcases List.mem_cons.1 hps with rfl | hps
  · exact ⟨e.first.firstParts_ne_nil,
      Alternative.fits_of_mem_firstParts hk (h e.first (by simp [alternatives]))⟩
  · obtain ⟨a, ha, rfl⟩ := List.mem_map.1 hps
    exact ⟨a.parts_ne_nil, Alternative.fits_of_mem_parts hk (h a (by simp [alternatives, ha]))⟩

/-- **The converted range** is the text of the constraint that the range becomes. -/
theorem Expression.convertRange_text_eq {k : Nat} (hk : k ≤ 9999999) {e : Expression Nat}
    (h : e.Within k) (hl : e.IsLegal) : convertRange e.text = .ok e.constraint.source :=
  e.convertRange_eq hk h hl

theorem Expression.parse_source {k : Nat} (hk : k ≤ 9999999) {e : Expression Nat}
    (h : e.Within k) : Constraint.parse e.constraint.source = .ok e.constraint :=
  parse_join_partsText (by simp [parts]) (fits_of_mem_parts hk h)

/-- **The constraint for a range** is read without an error, and is that of its parts. -/
theorem Expression.constraintFor_text {k : Nat} (hk : k ≤ 9999999) {e : Expression Nat}
    (h : e.Within k) (hl : e.IsLegal) : constraintFor e.text = .ok e.constraint := by
  rw [constraintFor, e.convertRange_text_eq hk h hl]
  show (Constraint.parse e.constraint.source).mapError _ = _
  rw [e.parse_source hk h]
  rfl

end Grammar

end AssetBridge
