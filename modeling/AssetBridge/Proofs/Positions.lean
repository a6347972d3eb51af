import AssetBridge.Agreement
import AssetBridge.Proofs.Constraints
import AssetBridge.Proofs.Parts
import AssetBridge.Proofs.Walk

/-!
# Ranges behind each other

A range behind a double bar is translated as it would be alone, but for the item that opens it:
alone, a lone number gets a tilde and an equals sign is left out. The sign does not count in front
of a version without wildcards, so all other ranges mean the same wherever they stand.

## Main definitions

* `Item.OpensAlike`: the items that mean the same whether or not they open a range
* `Expression.convertLater`: the text of a range that stands behind another one

## Main results

* `Target.Constraint.mapM_readParts_equal`: an equals sign in front of a constraint does not count
* `convertRange_alternatives`: the constraint for two ranges accepts what one of theirs does
-/

namespace AssetBridge

/-! ## Equals signs -/

namespace Target

/-- An equals sign in front of a release does not count. -/
theorem parsePart_equal {s : Text} (h : IsReleaseText s) : parsePart ('=' :: s) = parsePart s :=
  (h.parsePart_mark .equal).trans (h.parsePart_mark .none).symm

namespace Constraint

/-- **The first part** of a constraint is cut off, and the rest is cut without it. -/
theorem partLists_append {s : Text} (hs : ∀ c ∈ s.head?, c = ',' ∨ c = '|') :
    ∃ ws l, ∀ t : Text, t ≠ [] → (∀ c ∈ t, c ≠ '|' ∧ isPartSeparator c = false) →
      partLists (t ++ s) = (t :: ws) :: l := by
  obtain ⟨w, l, hw⟩ := List.exists_cons_of_ne_nil (splitBars_ne_nil false s)
  -- The first alternative of the rest is empty, or opens with the comma.
  have hhead : ∀ c ∈ w.head?, isPartSeparator c = true := by
    cases s with
    | nil =>
      obtain ⟨rfl, -⟩ := List.cons.inj hw
      simp
    | cons c s =>
      rcases hs c rfl with rfl | rfl
      · obtain ⟨u, us, hu⟩ := List.exists_cons_of_ne_nil (splitBars_ne_nil false s)
        rw [splitBars_cons_of_ne (by decide), hu] at hw
        obtain ⟨rfl, -⟩ := List.cons.inj hw
        rintro d ⟨⟩
        rfl
      · obtain ⟨rfl, -⟩ := List.cons.inj hw
        simp
  refine ⟨Text.words isPartSeparator w, l.map (Text.words isPartSeparator), fun t hne ht => ?_⟩
  -- The part joins the first alternative of the rest, and is a word of its own there.
  have hsplit : splitBars false (t ++ s) = (t ++ w) :: l := by
    clear hne
    induction t with
    | nil => exact hw
    | cons c t ih =>
      rw [List.cons_append, splitBars_cons_of_ne (ht c (by simp)).1,
        ih fun d hd => ht d (by simp [hd])]
      rfl
  have hwords : Text.words isPartSeparator (t ++ w) = t :: Text.words isPartSeparator w := by
    have ht' := Text.words_eq_singleton hne fun c hc => (ht c hc).2
    cases w with
    | nil => rw [List.append_nil, ht']; rfl
    | cons c w =>
      have hc := hhead c rfl
      have hcons := Text.words_append_cons hc [] w
      rw [List.nil_append] at hcons
      rw [Text.words_append_cons hc, ht', hcons]
      rfl
  rw [partLists, hsplit, List.map_cons, hwords]

/-- **An equals sign** in front of a constraint that opens with a release does not count. -/
theorem mapM_readParts_equal {t s : Text} (ht : IsReleaseText t)
    (hs : ∀ c ∈ s.head?, c = ',' ∨ c = '|') :
    (partLists ('=' :: (t ++ s))).mapM readParts = (partLists (t ++ s)).mapM readParts := by
  obtain ⟨ws, l, hcut⟩ := partLists_append hs
  have hplain : ∀ c ∈ t, c ≠ '|' ∧ isPartSeparator c = false := by
    intro c hc
    have hbar : c ≠ '|' := fun e => ht.not_mem (by decide) (e ▸ hc)
    have hcomma : c ≠ ',' := fun e => ht.not_mem (by decide) (e ▸ hc)
    exact ⟨hbar, by simp [isPartSeparator, hcomma, ht.isBlank_eq_false hc]⟩
  -- Both texts are cut alike, so only the part with the sign is read in another way.
  have hequal : partLists ('=' :: (t ++ s)) = (('=' :: t) :: ws) :: l := by
    refine hcut ('=' :: t) (by simp) fun c hc => ?_
    rcases List.mem_cons.1 hc with rfl | hc
    · decide
    · exact hplain c hc
  have hread : readParts (('=' :: t) :: ws) = readParts (t :: ws) := by
    simp only [readParts, List.isEmpty_cons, List.mapM_cons, parsePart_equal ht]
  obtain ⟨c, r, hc, -⟩ := ht.exists_eq_cons
  rw [hequal, hcut t (by simp [hc]) hplain, List.mapM_cons, List.mapM_cons, hread]

end Constraint

end Target

/-! ## Dates -/

namespace Source

/-- A component that does not open with a minus sign is padded with digits only. -/
theorem isDigit_of_mem_paddedComponent {s t : Text} (hs : '-' ∉ s)
    (h : paddedComponent s = .ok t) : ∀ c ∈ t, c.isDigit = true := by
  obtain ⟨i, hi, rfl⟩ := Except.exists_of_map_eq_ok h
  obtain ⟨n, -, hn⟩ := Except.exists_of_map_eq_ok hi
  have hsign : (s.dropWhile Text.isBlank).head? ≠ some '-' := fun e =>
    hs ((List.dropWhile_sublist _).mem (List.mem_of_head? e))
  rw [Numeral.applySign, if_neg hsign] at hn
  subst hn
  intro c hc
  rcases List.mem_append.1 hc with hc | hc
  · obtain ⟨-, rfl⟩ := List.mem_replicate.1 hc
    rfl
  · exact Numeral.isDigit_of_mem_digits hc

end Source

/-! ## Items -/

namespace Grammar

open Source Target

variable {α : Type} [Numeric α]

/-- Whether an item means the same whether or not it opens a range. A version that opens with a
date has no wildcards when it is converted. -/
def Item.OpensAlike : Item α → Prop
  | version .bare (.major _) => False
  | version .equal v => v.wilds = [] ∨ 7 ≤ (Numeric.digits v.first).length
  | _ => True

/-- Whether an alternative means the same whether or not it opens a range. -/
def Alternative.OpensAlike : Alternative α → Prop
  | all c => c.first.OpensAlike
  | hyphen _ _ => True

/-- Whether a range means the same when it stands behind another one. -/
def Expression.OpensAlike (e : Expression α) : Prop := e.first.OpensAlike

namespace Atom

theorem isReleaseText_text {v : Atom α} (h : v.wilds = []) : IsReleaseText v.text := by
  refine ⟨v.exists_text_eq_cons, fun c hc => ?_⟩
  have hd : ∀ {n : α}, c ∈ Numeric.digits n → c.isDigit = true := Numeric.isDigit_of_mem
  cases v with
  | majorWild | majorWilds | minorWild => simp [wilds] at h
  | major n => exact .inl (hd hc)
  | minor n m =>
    simp only [text, List.mem_append, List.mem_cons] at hc
    rcases hc with hc | rfl | hc
    · exact .inl (hd hc)
    · exact .inr rfl
    · exact .inl (hd hc)
  | patch n m p =>
    simp only [text, List.mem_append, List.mem_cons] at hc
    rcases hc with hc | rfl | hc | rfl | hc
    · exact .inl (hd hc)
    · exact .inr rfl
    · exact .inl (hd hc)
    · exact .inr rfl
    · exact .inl (hd hc)

/-- Behind its first number a version has a point, or it ends. -/
theorem dropWhile_isDecimal_text (v : Atom α) :
    (∃ n, v = major n) ∨ ∃ r, v.text.dropWhile Text.isDecimal = '.' :: r := by
  have hd : ∀ r : Text, (Numeric.digits v.first ++ '.' :: r).dropWhile Text.isDecimal = '.' :: r :=
    fun r => Text.dropWhile_isDecimal_append (fun _ => Numeric.isDigit_of_mem) _
  cases v with
  | major n => exact .inl ⟨n, rfl⟩
  | _ => exact .inr ⟨_, hd _⟩

/-- Behind the first number stand the further components. -/
theorem fields_of_dropWhile {v : Atom α} {r : Text}
    (h : v.text.dropWhile Text.isDecimal = '.' :: r) : Text.fields '.' r = v.behind := by
  have htext : v.text = Numeric.digits v.first ++ '.' :: r := by
    rw [← h, ← v.takeWhile_isDecimal_text, List.takeWhile_append_dropWhile]
  have hp : '.' ∉ Numeric.digits v.first := fun hm =>
    absurd (Numeric.isDigit_of_mem hm) (by decide)
  have hf := v.fields_text
  rw [htext, Text.fields_append_cons hp] at hf
  exact (List.cons.inj hf).2

theorem minus_not_mem_behind {v : Atom α} {t : Text} (h : t ∈ v.behind) : '-' ∉ t := fun hm =>
  absurd ((isComponent_of_mem_behind h).isAtomChar hm) (by decide)

/-- **A date**, or a version without wildcards, is converted into the text of a release. -/
theorem isReleaseText_convertDate {v : Atom α}
    (h : v.wilds = [] ∨ 7 ≤ (Numeric.digits v.first).length) {t : Text}
    (ht : convertDate v.text = .ok t) : IsReleaseText t := by
  unfold convertDate at ht
  rw [v.takeWhile_isDecimal_text] at ht
  split at ht
  · rename_i r hr
    split at ht
    · -- What is padded are further components, or nothing at all.
      have hminus : ∀ l : List Text, (∀ u ∈ l, u ∈ v.behind) → '-' ∉ l.headD [] := by
        intro l hl
        cases l with
        | nil => simp
        | cons u l => exact minus_not_mem_behind (hl u (by simp))
      rw [fields_of_dropWhile hr] at ht
      obtain ⟨minor, hminor, ht⟩ := Except.exists_of_bind_eq_ok ht
      obtain ⟨revision, hrevision, ht⟩ := Except.exists_of_bind_eq_ok ht
      obtain rfl := Except.ok.inj ht
      have hm := isDigit_of_mem_paddedComponent (hminus _ fun u hu => hu) hminor
      have hr := isDigit_of_mem_paddedComponent (hminus _ fun u hu => List.mem_of_mem_tail hu)
        hrevision
      obtain ⟨c, ds, hc⟩ := List.exists_cons_of_ne_nil (Numeric.digits_ne_nil v.first)
      refine ⟨⟨c, ds ++ '.' :: (minor ++ revision), by simp [hc], ?_⟩, ?_⟩
      · exact Numeric.isDigit_of_mem (n := v.first) (by simp [hc])
      · intro d hd
        simp only [List.mem_append, List.mem_cons] at hd
        rcases hd with hd | rfl | hd | hd
        · exact .inl (Numeric.isDigit_of_mem hd)
        · exact .inr rfl
        · exact .inl (hm d hd)
        · exact .inl (hr d hd)
    -- Too short for a date: the version stays, and it has no wildcards.
    · rename_i hlen
      obtain rfl := Except.ok.inj ht
      exact isReleaseText_text (h.resolve_right hlen)
  -- Without a point it is a lone number.
  · rename_i hpoint
    obtain rfl := Except.ok.inj ht
    rcases v.dropWhile_isDecimal_text with ⟨n, rfl⟩ | ⟨r, hr⟩
    · exact isReleaseText_text rfl
    · exact (hpoint r hr).elim

omit [Numeric α] in
theorem wilds_collapsed_eq_nil {v : Atom α} (h : v.wilds = []) : v.collapsed.wilds = [] := by
  cases v with
  | majorWild | majorWilds | minorWild => simp [wilds] at h
  | major | minor | patch => rfl

/-- A converted version without wildcards, or with a date, is the text of a release. -/
theorem isReleaseText_of_convertVersion {v : Atom α}
    (h : v.wilds = [] ∨ 7 ≤ (Numeric.digits v.first).length) {t : Text}
    (ht : convertVersion v.text = .ok t) : IsReleaseText t := by
  rw [convertVersion_text] at ht
  refine isReleaseText_convertDate ?_ ht
  rw [first_collapsed]
  exact h.imp_left wilds_collapsed_eq_nil

end Atom

/-- **An item** that opens a range is written the same elsewhere, but for an equals sign in front of
a release. -/
theorem Item.convert_of_opensAlike {i : Item α} (h : i.OpensAlike) {t : Text}
    (ht : i.convertFirst = .ok t) :
    i.convert = .ok t ∨ (IsReleaseText t ∧ i.convert = .ok ('=' :: t)) := by
  unfold convertFirst at ht
  split at ht
  · exact h.elim
  · rename_i v
    refine .inr ⟨Atom.isReleaseText_of_convertVersion h ht, ?_⟩
    rw [convert, Operator.bound, ht]
    rfl
  · exact .inl ht

/-! ## Ranges -/

/-- **An alternative** that opens a range is written the same elsewhere, but for an equals sign in
front of a release. -/
theorem Alternative.convert_of_opensAlike {a : Alternative α} (h : a.OpensAlike) {s : Text}
    (hs : a.convertFirst = .ok s) : a.convert = .ok s ∨
      ∃ t r, s = t ++ r ∧ IsReleaseText t ∧ (∀ c ∈ r.head?, c = ',') ∧
        a.convert = .ok ('=' :: s) := by
  cases a with
  | hyphen low high => exact .inl hs
  | all c =>
    obtain ⟨t, ht, hs⟩ := Except.exists_of_bind_eq_ok hs
    obtain ⟨us, hus, hs⟩ := Except.exists_of_bind_eq_ok hs
    obtain rfl := Except.ok.inj hs
    have hconvert : ∀ u, c.first.convert = .ok u →
        (Alternative.all c).convert = .ok (Text.join [','] (u :: us)) := by
      intro u hu
      rw [convert, Conjunction.items, List.mapM_cons, hu, hus]
      rfl
    -- Only the first item may differ, and the sign it gets stands in front of everything.
    rcases c.first.convert_of_opensAlike h ht with hc | ⟨hr, hc⟩
    · exact .inl (hconvert t hc)
    · refine .inr ⟨t, us.flatMap ([','] ++ ·), Text.join_cons _ _ _, hr, ?_, ?_⟩
      · cases us with
        | nil => simp
        | cons u us =>
          rintro d ⟨⟩
          rfl
      · rw [hconvert _ hc, Text.join_cons, Text.join_cons]
        rfl

/-- The text of a range that stands behind another one. -/
def Expression.convertLater (e : Expression α) : Except Numeral.Error Text :=
  Text.join ['|'] <$> e.alternatives.mapM Alternative.convert

/-- **A range behind another one** becomes a constraint with the alternatives it has alone. -/
theorem Expression.parse_convertLater {e : Expression α} (h : e.OpensAlike) {s : Text}
    {c : Constraint} (hs : convertRange e.text = .ok s) (hc : Constraint.parse s = .ok c) :
    ∃ t, e.convertLater = .ok t ∧ Constraint.parse t = .ok ⟨t, c.alternatives⟩ := by
  obtain ⟨-, hread⟩ := Constraint.mapM_readParts_of_parse hc
  rw [convertRange_text] at hs
  obtain ⟨w, hw, hs⟩ := Except.exists_of_bind_eq_ok hs
  obtain ⟨ws, hws, hs⟩ := Except.exists_of_bind_eq_ok hs
  obtain rfl := Except.ok.inj hs
  have hlater : ∀ u, e.first.convert = .ok u →
      e.convertLater = .ok (Text.join ['|'] (u :: ws)) := by
    intro u hu
    rw [convertLater, alternatives, List.mapM_cons, hu, hws]
    rfl
  rcases Alternative.convert_of_opensAlike h hw with hf | ⟨t, r, rfl, ht, hr, hf⟩
  · exact ⟨_, hlater _ hf, Constraint.parse_of_mapM_readParts hread⟩
  · refine ⟨_, hlater _ hf, Constraint.parse_of_mapM_readParts ?_⟩
    -- Behind the release stands a comma, or the bar in front of the next alternative.
    have hhead : ∀ d ∈ (r ++ ws.flatMap (['|'] ++ ·)).head?, d = ',' ∨ d = '|' := by
      intro d hd
      cases r with
      | cons d' r => exact .inl (hr d hd)
      | nil =>
        cases ws with
        | nil => cases hd
        | cons u ws =>
          obtain rfl : '|' = d := Option.some.inj hd
          exact .inr rfl
    have hequal := Constraint.mapM_readParts_equal ht hhead
    rw [Text.join_cons, List.append_assoc] at hread
    rw [Text.join_cons, List.cons_append, List.append_assoc, hequal, hread]

/-- **Two ranges** with a double bar between them become their constraints with a bar between
them. -/
theorem Expression.convertRange_append (a b : Expression α) :
    convertRange (a.text ++ [' ', '|', '|', ' '] ++ b.text) = do
      let s ← convertRange a.text
      let t ← b.convertLater
      return s ++ '|' :: t := by
  have htext : a.text ++ [' ', '|', '|', ' '] ++ b.text =
      (Expression.mk a.first (a.rest ++ b.alternatives)).text := by
    rw [List.append_assoc]
    simp only [text, joined, alternatives, List.map_cons, List.map_append]
    exact (Text.join_append _ _ _ _ _).symm
  rw [htext, convertRange_text, convertRange_text, convertLater, List.mapM_append, alternatives,
    List.mapM_cons]
  -- Both sides stop at the first alternative that cannot be converted.
  cases a.first.convertFirst with
  | error e => rfl
  | ok s =>
    cases a.rest.mapM Alternative.convert with
    | error e => rfl
    | ok ss =>
      cases b.first.convert with
      | error e => rfl
      | ok t =>
        cases b.rest.mapM Alternative.convert with
        | error e => rfl
        | ok ts => exact congrArg Except.ok (Text.join_append ['|'] s t ss ts)

/-- The alternatives of two ranges with a double bar between them. -/
theorem Expression.parse_append {a b : Expression α} (hb : b.OpensAlike) {s t : Text}
    {c d : Constraint} (hs : convertRange a.text = .ok s) (hc : Constraint.parse s = .ok c)
    (ht : convertRange b.text = .ok t) (hd : Constraint.parse t = .ok d) :
    ∃ u, convertRange (a.text ++ [' ', '|', '|', ' '] ++ b.text) = .ok u ∧
      Constraint.parse u = .ok ⟨u, c.alternatives ++ d.alternatives⟩ := by
  obtain ⟨t', ht', hd'⟩ := Expression.parse_convertLater hb ht hd
  have hbar := Constraint.parse_append_bar hc hd'
  refine ⟨s ++ '|' :: t', ?_, hbar⟩
  rw [Expression.convertRange_append, hs, ht']
  rfl

/-- **Ranges behind each other**: where the second range means the same whether or not it opens the
whole, the constraint for both accepts a version when one of their constraints does. Where the first
one does so too, the order of the two does not count. -/
theorem convertRange_alternatives {a b : Expression α} (hb : b.OpensAlike) {s t : Text}
    {c d : Constraint} (hs : convertRange a.text = .ok s) (hc : Constraint.parse s = .ok c)
    (ht : convertRange b.text = .ok t) (hd : Constraint.parse t = .ok d) :
    ∃ u f, convertRange (a.text ++ [' ', '|', '|', ' '] ++ b.text) = .ok u ∧
      Constraint.parse u = .ok f ∧
      (∀ w v, Version.parse w = .ok v → ∃ p q, c.matchesText w = .ok p ∧
        d.matchesText w = .ok q ∧ f.matchesText w = .ok (p || q)) ∧
      (a.OpensAlike → ∃ u' f', convertRange (b.text ++ [' ', '|', '|', ' '] ++ a.text) = .ok u' ∧
        Constraint.parse u' = .ok f' ∧
        ∀ w v, Version.parse w = .ok v → f'.matchesText w = f.matchesText w) := by
  obtain ⟨u, hu, hf⟩ := Expression.parse_append hb hs hc ht hd
  refine ⟨u, _, hu, hf, fun w v hw => ?_, fun ha => ?_⟩
  · refine ⟨c.accepts v, d.accepts v, Constraint.matchesText_of_parse _ hw,
      Constraint.matchesText_of_parse _ hw, ?_⟩
    rw [Constraint.matchesText_of_parse _ hw, Constraint.accepts_append]
    rfl
  -- The other way round the alternatives are the same in another order.
  · obtain ⟨u', hu', hf'⟩ := Expression.parse_append ha ht hd hs hc
    refine ⟨u', _, hu', hf', fun w v hw => ?_⟩
    rw [Constraint.matchesText_of_parse _ hw, Constraint.matchesText_of_parse _ hw,
      Constraint.accepts_append, Constraint.accepts_append, Bool.or_comm]

/-- The range `=1.2.3 <2`. -/
def exactRange : Expression Nat :=
  ⟨.all ⟨.version .equal (.patch 1 2 3), [.version .less (.major 2)]⟩, []⟩

/-- The range `^2.x`. -/
def caretRange : Expression Nat := ⟨.all ⟨.version .caret (.majorWild 2 .letter), []⟩, []⟩

theorem convertRange_alternatives_exactRange :
    ∃ c d, Constraint.parse ">=2.0.0,<3.0.0".toList = .ok c ∧
      Constraint.parse "1.2.3,<2".toList = .ok d ∧
      ∃ u f, convertRange (caretRange.text ++ [' ', '|', '|', ' '] ++ exactRange.text) = .ok u ∧
        Constraint.parse u = .ok f ∧
        (∀ w v, Version.parse w = .ok v → ∃ p q, c.matchesText w = .ok p ∧
          d.matchesText w = .ok q ∧ f.matchesText w = .ok (p || q)) ∧
        ∃ u' f',
          convertRange (exactRange.text ++ [' ', '|', '|', ' '] ++ caretRange.text) = .ok u' ∧
          Constraint.parse u' = .ok f' ∧
          ∀ w v, Version.parse w = .ok v → f'.matchesText w = f.matchesText w := by
  obtain ⟨c, hc⟩ : ∃ c, Constraint.parse ">=2.0.0,<3.0.0".toList = .ok c := ⟨_, rfl⟩
  obtain ⟨d, hd⟩ : ∃ d, Constraint.parse "1.2.3,<2".toList = .ok d := ⟨_, rfl⟩
  have hs : convertRange caretRange.text = .ok ">=2.0.0,<3.0.0".toList := rfl
  have ht : convertRange exactRange.text = .ok "1.2.3,<2".toList := rfl
  have hb : exactRange.OpensAlike := .inl rfl
  obtain ⟨u, f, hu, hf, hunion, hswap⟩ := convertRange_alternatives hb hs hc ht hd
  exact ⟨c, d, hc, hd, u, f, hu, hf, hunion, hswap trivial⟩

/-- A lone number and wildcards behind an equals sign mean something else where they do not open
the range: the number loses its tilde, and behind the sign there are no wildcards. -/
theorem convertRange_not_alternatives :
    (∃ c, constraintFor "1.2.3".toList = .ok c) ∧
    (∃ d f, constraintFor "2".toList = .ok d ∧ d.matchesText "2.5.0".toList = .ok true ∧
      constraintFor "1.2.3 || 2".toList = .ok f ∧ f.matchesText "2.5.0".toList = .ok false) ∧
    (∃ d e, constraintFor "=2.x".toList = .ok d ∧
      constraintFor "1.2.3 || =2.x".toList = .error e) :=
  ⟨⟨_, rfl⟩, ⟨_, _, rfl, rfl, rfl, rfl⟩, ⟨_, _, rfl, rfl⟩⟩

end Grammar

end AssetBridge
