import AssetBridge.Proofs.Translation

/-!
# Converted ranges are constraints

The target grammar refuses whatever it does not understand, so a conversion that forgets a wildcard
makes the whole manifest unreadable. It forgets none: every range without an equals sign becomes a
legal constraint, and a range whose versions all stand under an operator or beside a hyphen becomes
one without wildcards.

## Main definitions

* `Part.IsConcrete`: parts without wildcards

## Main results

* `convertRange_legal`: ranges of ordinary size become legal constraints
-/

namespace AssetBridge

namespace Target

/-- Whether a part has no wildcard. -/
def Part.IsConcrete : Part → Prop
  | any | wild _ _ _ => False
  | compare _ _ | tilde _ => True

theorem Part.wildcard_not_mem_text {p : Part} (h : p.IsConcrete) {c : Char}
    (hc : c = 'x' ∨ c = 'X' ∨ c = '*') : c ∉ p.text := by
  -- Digits, points and signs are no wildcards.
  have hd : ∀ ns : List Nat, c ∉ Numeral.dotted ns := by
    intro ns
    rcases hc with rfl | rfl | rfl <;> exact Numeral.not_mem_dotted (by decide)
  cases p with
  | any => exact h.elim
  | wild ns w ws => exact h.elim
  | compare m ns =>
    have hm : c ∉ m.text := by
      rcases hc with rfl | rfl | rfl <;> cases m <;> decide
    simpa [text, hd ns] using hm
  | tilde ns =>
    have ht : c ≠ '~' := by rcases hc with rfl | rfl | rfl <;> decide
    simp [text, hd ns, ht]

end Target

namespace Grammar

open Source Target

theorem Item.isLegal_of_operator {i : Item Nat} (h : i.operator ≠ .equal) : i.IsLegal := by
  cases i with
  | star => trivial
  | version op v =>
    cases op
    case equal => exact absurd rfl h
    all_goals trivial

/-- Without an equals sign every piece of a range keeps to the target grammar. -/
theorem Expression.isLegal_of_operator {e : Expression Nat}
    (h : e.Forall (fun i => i.operator ≠ .equal) fun _ _ => True) : e.IsLegal :=
  isLegal_of_forall (h.mono (fun _ => Item.isLegal_of_operator) fun _ _ _ => trivial)

theorem Atom.isConcrete_highPart (v : Atom Nat) : v.highPart.IsConcrete := by
  cases v <;> trivial

/-- Under an operator other than the equals sign no wildcard is left. -/
theorem Item.isConcrete_of_mem_parts {i : Item Nat} (hb : i.operator ≠ .bare)
    (he : i.operator ≠ .equal) : ∀ p ∈ i.parts, p.IsConcrete := by
  cases i with
  | star => exact absurd rfl hb
  | version op v =>
    intro p hp
    cases op <;> simp only [parts, List.mem_cons, List.not_mem_nil, or_false] at hp
    case bare => exact absurd rfl hb
    case equal => exact absurd rfl he
    case caret | tildeGreater => rcases hp with rfl | rfl <;> trivial
    all_goals
      subst hp
      trivial

theorem Item.firstParts_eq_parts {i : Item Nat} (hb : i.operator ≠ .bare)
    (he : i.operator ≠ .equal) : i.firstParts = i.parts := by
  unfold firstParts
  split
  · exact absurd rfl hb
  · exact absurd rfl he
  · rfl

/-- Where no version stands alone no wildcard is left. -/
theorem Expression.isConcrete_of_mem_parts {e : Expression Nat}
    (hb : e.Forall (fun i => i.operator ≠ .bare) fun _ _ => True)
    (he : e.Forall (fun i => i.operator ≠ .equal) fun _ _ => True) :
    ∀ ps ∈ e.parts, ∀ p ∈ ps, p.IsConcrete := by
  have hall : ∀ a ∈ e.alternatives, ∀ p ∈ a.parts, p.IsConcrete := by
    intro a ha p hp
    have hfb := hb a ha
    have hfe := he a ha
    cases a with
    | all c =>
      obtain ⟨i, hi, hp⟩ := List.mem_flatMap.1 hp
      exact Item.isConcrete_of_mem_parts (hfb i hi) (hfe i hi) p hp
    | hyphen low high =>
      simp only [Alternative.parts, List.mem_cons, List.not_mem_nil, or_false] at hp
      rcases hp with rfl | rfl
      · trivial
      · exact high.isConcrete_highPart
  -- Without bare items and equals signs the opening alternative has the parts of any other.
  have hfirst : e.first.firstParts = e.first.parts := by
    have hfb := hb e.first (by simp [alternatives])
    have hfe := he e.first (by simp [alternatives])
    cases h : e.first with
    | all c =>
      rw [h] at hfb hfe
      have hi := Item.firstParts_eq_parts (hfb c.first (by simp [Conjunction.items]))
        (hfe c.first (by simp [Conjunction.items]))
      simp [Alternative.firstParts, Alternative.parts, Conjunction.items, hi]
    | hyphen low high => rfl
  intro ps hps
  rcases List.mem_cons.1 hps with rfl | hps
  · rw [hfirst]
    exact hall e.first (by simp [alternatives])
  · obtain ⟨a, ha, rfl⟩ := List.mem_map.1 hps
    exact hall a (by simp [alternatives, ha])

/-- **Converted ranges are constraints**: a range of ordinary size without an equals sign becomes a
constraint that can be read, and one without wildcards when none of its items is bare. -/
theorem convertRange_legal {e : Expression Nat} (h : e.Within 9999999)
    (he : e.Forall (fun i => i.operator ≠ .equal) fun _ _ => True) :
    ∃ s c, convertRange e.text = .ok s ∧ Constraint.parse s = .ok c ∧
      (e.Forall (fun i => i.operator ≠ .bare) (fun _ _ => True) →
        'x' ∉ s ∧ 'X' ∉ s ∧ '*' ∉ s) := by
  have hl := Expression.isLegal_of_operator he
  have hk : 9999999 ≤ 9999999 := Nat.le_refl _
  refine ⟨_, _, e.convertRange_text_eq hk h hl, e.parse_source hk h, fun hb => ?_⟩
  have hp := Expression.isConcrete_of_mem_parts hb he
  -- A wildcard would stand between the alternatives, between the parts or in a part.
  have hnot : ∀ c : Char, c = 'x' ∨ c = 'X' ∨ c = '*' →
      c ∉ Text.join ['|'] (e.parts.map partsText) := by
    intro c hc hm
    have hsep : c ≠ '|' ∧ c ≠ ',' := by rcases hc with rfl | rfl | rfl <;> decide
    rcases Text.mem_join hm with hm | ⟨t, ht, hm⟩
    · exact hsep.1 (List.mem_singleton.1 hm)
    · obtain ⟨ps, hps, rfl⟩ := List.mem_map.1 ht
      rcases Text.mem_join hm with hm | ⟨t, ht, hm⟩
      · exact hsep.2 (List.mem_singleton.1 hm)
      · obtain ⟨p, hpp, rfl⟩ := List.mem_map.1 ht
        exact Part.wildcard_not_mem_text (hp ps hps p hpp) hc hm
  exact ⟨hnot 'x' (.inl rfl), hnot 'X' (.inr (.inl rfl)), hnot '*' (.inr (.inr rfl))⟩

/-- The range `^1.2.x <2 || 1.2 - 2.x`. -/
def boundedRange : Expression Nat :=
  ⟨.all ⟨.version .caret (.minorWild 1 2 .letter), [.version .less (.major 2)]⟩,
    [.hyphen (.minor 1 2) (.majorWild 2 .letter)]⟩

theorem convertRange_legal_boundedRange :
    ∃ s c, convertRange boundedRange.text = .ok s ∧ Constraint.parse s = .ok c ∧
      ('x' ∉ s ∧ 'X' ∉ s ∧ '*' ∉ s) := by
  obtain ⟨s, c, hs, hc, hw⟩ := convertRange_legal (e := boundedRange) (by decide) (by decide)
  exact ⟨s, c, hs, hc, hw (by decide)⟩

end Grammar

end AssetBridge
