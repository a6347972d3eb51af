import AssetBridge.Proofs.Constraints

/-!
# Constraints put together

A bar between two constraints puts their alternatives behind each other, and a comma or a blank
between two constraints of one alternative puts their bounds behind each other. It does not count
how the separator is spelled, nor which blanks and commas the two texts have at their ends.

## Main definitions

* `Constraint.IsBar`: the spellings of the separator of alternatives
* `Constraint.IsComma`: the spellings of the separator of parts

## Main results

* `partLists_append_bar`, `partLists_append_comma`: how a text is cut at a separator
* `parse_append_of_separator`: the constraint of two texts with a separator between them
-/

namespace AssetBridge

namespace Text

/-- A text of blanks only. -/
def Blank (s : Text) : Prop := ∀ c ∈ s, isBlank c = true

/-- Separators behind a text belong to no word. -/
theorem words_append_separators {p : Char → Bool} {t : Text} (ht : ∀ c ∈ t, p c = true) (s : Text) :
    words p (s ++ t) = words p s := by
  induction t generalizing s with
  | nil => rw [List.append_nil]
  | cons c t ih =>
    have hnil : words p (c :: t) = words p t := words_append_cons (ht c (by simp)) [] t
    have hempty := ih (fun d hd => ht d (by simp [hd])) []
    rw [List.nil_append] at hempty
    rw [words_append_cons (ht c (by simp)), hempty]
    exact List.append_nil _

/-- One separator or more divide the words of a text. -/
theorem words_append_append {p : Char → Bool} {sep : Text} (hne : sep ≠ [])
    (hsep : ∀ c ∈ sep, p c = true) (s t : Text) :
    words p (s ++ sep ++ t) = words p s ++ words p t := by
  obtain ⟨sep, c, rfl⟩ := (List.eq_nil_or_concat sep).resolve_left hne
  rw [List.concat_eq_append] at hsep ⊢
  -- The last separator divides the words, and those in front of it belong to none.
  have hc : p c = true := hsep c (by simp)
  have hfront := words_append_separators (p := p) (t := sep) (fun d hd => hsep d (by simp [hd])) s
  rw [List.append_assoc, List.append_assoc, List.singleton_append, ← List.append_assoc,
    words_append_cons hc, hfront]

end Text

namespace Target.Constraint

/-! ## Separators -/

/-- The separator of alternatives: a bar or two, with blanks around them or without. -/
inductive IsBar : Text → Prop
  | single {a b : Text} : Text.Blank a → Text.Blank b → IsBar (a ++ '|' :: b)
  | double {a b : Text} : Text.Blank a → Text.Blank b → IsBar (a ++ '|' :: '|' :: b)

/-- The separator of parts: a comma with blanks around it or without, or one blank or more. -/
inductive IsComma : Text → Prop
  | comma {a b : Text} : Text.Blank a → Text.Blank b → IsComma (a ++ ',' :: b)
  | blank {c : Char} {t : Text} : Text.isBlank c = true → Text.Blank t → IsComma (c :: t)

theorem IsComma.ne_nil {sep : Text} (h : IsComma sep) : sep ≠ [] := by
  cases h <;> simp

theorem IsComma.isPartSeparator {sep : Text} (h : IsComma sep) :
    ∀ c ∈ sep, isPartSeparator c = true := by
  cases h with
  | comma ha hb =>
    intro c hc
    rcases List.mem_append.1 hc with hc | hc
    · exact isPartSeparator_of_isBlank (ha c hc)
    · rcases List.mem_cons.1 hc with rfl | hc
      · rfl
      · exact isPartSeparator_of_isBlank (hb c hc)
  | blank hc ht =>
    intro d hd
    rcases List.mem_cons.1 hd with rfl | hd
    · exact isPartSeparator_of_isBlank hc
    · exact isPartSeparator_of_isBlank (ht d hd)

theorem IsComma.bar_not_mem {sep : Text} (h : IsComma sep) : '|' ∉ sep := fun hm =>
  absurd (h.isPartSeparator '|' hm) (by decide)

/-! ## Cutting at a separator -/

theorem partLists_append_blanks {b : Text} (hb : Text.Blank b) (s : Text) :
    partLists (s ++ b) = partLists s := by
  induction b generalizing s with
  | nil => rw [List.append_nil]
  | cons c b ih =>
    have hs := ih (fun d hd => hb d (by simp [hd])) (s ++ [c])
    rw [List.append_assoc, List.singleton_append] at hs
    rw [hs, partLists_append_blank (hb c (by simp))]

theorem partLists_blanks_append {b : Text} (hb : Text.Blank b) (s : Text) :
    partLists (b ++ s) = partLists s := by
  induction b with
  | nil => rfl
  | cons c b ih =>
    rw [List.cons_append, partLists_blank_cons (hb c (by simp)), ih fun d hd => hb d (by simp [hd])]

/-- The parts at a bar, or at two, between texts that have no bar next to it. -/
theorem partLists_append_bars {s t : Text} (hs : s.getLast? ≠ some '|') (ht : t.head? ≠ some '|') :
    partLists (s ++ '|' :: t) = partLists s ++ partLists t ∧
      partLists (s ++ '|' :: '|' :: t) = partLists s ++ partLists t := by
  have hb : false = true → s ≠ [] := fun h => absurd h (by decide)
  constructor
  · rw [partLists, splitBars_append_bar hs hb ht, List.map_append]
    rfl
  -- The second bar is taken in by the first one.
  · have htwo : splitBars true ('|' :: t) = splitBars false t := rfl
    rw [partLists, splitBars_append_pending hs hb, htwo, List.map_append]
    rfl

/-- **A separator of alternatives** between texts that can be read. -/
theorem partLists_append_bar {s t sep : Text} {l m : List (List Bound)}
    (hs : (partLists s).mapM readParts = some l) (ht : (partLists t).mapM readParts = some m)
    (hsep : IsBar sep) : partLists (s ++ sep ++ t) = partLists s ++ partLists t := by
  -- The blanks of the separator are counted to the texts, which then can be read as before.
  have hfront : ∀ {a : Text}, Text.Blank a → partLists (s ++ a) = partLists s ∧
      (s ++ a).getLast? ≠ some '|' := by
    intro a ha
    have hcut := partLists_append_blanks ha s
    exact ⟨hcut, (bar_not_mem_ends (hcut.symm ▸ hs)).2⟩
  have hback : ∀ {b : Text}, Text.Blank b → partLists (b ++ t) = partLists t ∧
      (b ++ t).head? ≠ some '|' := by
    intro b hb
    have hcut := partLists_blanks_append hb t
    exact ⟨hcut, (bar_not_mem_ends (hcut.symm ▸ ht)).1⟩
  cases hsep with
  | @single a b ha hb =>
    obtain ⟨hcs, hls⟩ := hfront ha
    obtain ⟨hct, hht⟩ := hback hb
    have hbar := (partLists_append_bars hls hht).1
    rw [hcs, hct] at hbar
    simpa using hbar
  | @double a b ha hb =>
    obtain ⟨hcs, hls⟩ := hfront ha
    obtain ⟨hct, hht⟩ := hback hb
    have hbar := (partLists_append_bars hls hht).2
    rw [hcs, hct] at hbar
    simpa using hbar

/-- A text with a bar has more than one alternative. -/
theorem bar_not_mem_of_partLists {s : Text} {ws : List Text} (h : partLists s = [ws]) :
    '|' ∉ s := by
  intro hm
  -- The first bar has no bar in front of it, so the alternative before it ends there.
  obtain ⟨a, r, rfl, ha⟩ := List.eq_append_cons_of_mem hm
  have hlast : a.getLast? ≠ some '|' := fun e => ha (List.mem_of_getLast? e)
  have hsplit := splitBars_append_pending hlast (fun h => absurd h (by decide : false ≠ true)) r
  have hlen := congrArg List.length h
  have hone := List.length_pos_iff.2 (splitBars_ne_nil false a)
  have htwo := List.length_pos_iff.2 (splitBars_ne_nil true r)
  simp only [partLists, hsplit, List.length_map, List.length_append, List.length_singleton] at hlen
  omega

/-- A text without bars has one alternative. -/
theorem partLists_eq_singleton {s : Text} (h : '|' ∉ s) :
    partLists s = [Text.words isPartSeparator s] := by
  rw [partLists, splitBars_eq_singleton h]
  rfl

/-- **A separator of parts** between texts of one alternative. -/
theorem partLists_append_comma {s t sep : Text} (hs : '|' ∉ s) (ht : '|' ∉ t)
    (hsep : IsComma sep) : partLists (s ++ sep ++ t) =
      [Text.words isPartSeparator s ++ Text.words isPartSeparator t] := by
  have hbar : '|' ∉ s ++ sep ++ t := by simp [hs, ht, hsep.bar_not_mem]
  rw [partLists_eq_singleton hbar, Text.words_append_append hsep.ne_nil hsep.isPartSeparator]

/-! ## Reading -/

theorem readParts_append {ps qs : List Text} {bs cs : List Bound} (hp : readParts ps = some bs)
    (hq : readParts qs = some cs) : readParts (ps ++ qs) = some (bs ++ cs) := by
  unfold readParts at hp hq ⊢
  split at hp
  · cases hp
  · split at hq
    · cases hq
    · rename_i hps _
      have hne : (ps ++ qs).isEmpty = false := by
        rw [Bool.not_eq_true] at hps
        simp [List.isEmpty_eq_false_iff.1 hps]
      rw [hne, List.mapM_append]
      obtain ⟨bss, hbss, rfl⟩ := Option.map_eq_some_iff.1 hp
      obtain ⟨css, hcss, rfl⟩ := Option.map_eq_some_iff.1 hq
      simp [hbss, hcss]

/-- What is read as one alternative is one, and has no bar. -/
theorem words_of_parse {s : Text} {c : Constraint} {bs : List Bound} (h : parse s = .ok c)
    (hc : c.alternatives = [bs]) :
    '|' ∉ s ∧ readParts (Text.words isPartSeparator s) = some bs := by
  obtain ⟨-, hread⟩ := mapM_readParts_of_parse h
  rw [hc] at hread
  have hbar : '|' ∉ s := by
    cases hl : partLists s with
    | nil => rw [hl] at hread; cases hread
    | cons ws l =>
      cases l with
      | nil => exact bar_not_mem_of_partLists hl
      | cons us l =>
        -- Two alternatives that can be read would give two lists of bounds.
        rw [hl, List.mapM_cons, List.mapM_cons] at hread
        cases hw : readParts ws <;> cases hu : readParts us <;> cases hm : l.mapM readParts <;>
          simp [hw, hu, hm] at hread
  rw [partLists_eq_singleton hbar] at hread
  refine ⟨hbar, ?_⟩
  cases hw : readParts (Text.words isPartSeparator s) with
  | none => simp [hw] at hread
  | some cs => simpa [hw] using hread

theorem matchesText_eq_ok_true_iff {c : Constraint} {w : Text} :
    c.matchesText w = .ok true ↔ ∃ v, Version.parse w = .ok v ∧ c.accepts v = true := by
  unfold matchesText
  cases Version.parse w with
  | error e => simp
  | ok v => simp [pure, Except.pure]

/-- **Constraints are compositional**: whatever two texts can be read as, a bar between them, single
or double and among blanks, gives the alternatives of the one and then those of the other; and a
comma or blanks between texts of one alternative give the bounds of the one and then those of the
other. -/
theorem parse_append_of_separator {s t : Text} {c d : Constraint} (hs : parse s = .ok c)
    (ht : parse t = .ok d) :
    (∀ sep, IsBar sep → ∃ e, parse (s ++ sep ++ t) = .ok e ∧
      e.alternatives = c.alternatives ++ d.alternatives ∧
      ∀ w, e.matchesText w = .ok true ↔ c.matchesText w = .ok true ∨ d.matchesText w = .ok true) ∧
    (∀ bs cs, c.alternatives = [bs] → d.alternatives = [cs] →
      ∀ sep, IsComma sep → ∃ e, parse (s ++ sep ++ t) = .ok e ∧ e.alternatives = [bs ++ cs] ∧
      ∀ w, e.matchesText w = .ok true ↔
        c.matchesText w = .ok true ∧ d.matchesText w = .ok true) := by
  obtain ⟨-, hc⟩ := mapM_readParts_of_parse hs
  obtain ⟨-, hd⟩ := mapM_readParts_of_parse ht
  refine ⟨fun sep hsep => ?_, fun bs cs hbs hcs sep hsep => ?_⟩
  · have hread : (partLists (s ++ sep ++ t)).mapM readParts =
        some (c.alternatives ++ d.alternatives) := by
      rw [partLists_append_bar hc hd hsep, List.mapM_append, hc, hd]
      rfl
    refine ⟨_, parse_of_mapM_readParts hread, rfl, fun w => ?_⟩
    simp only [matchesText_eq_ok_true_iff, accepts, List.any_append, Bool.or_eq_true]
    constructor
    · rintro ⟨v, hv, h | h⟩
      · exact .inl ⟨v, hv, h⟩
      · exact .inr ⟨v, hv, h⟩
    · rintro (⟨v, hv, h⟩ | ⟨v, hv, h⟩)
      · exact ⟨v, hv, .inl h⟩
      · exact ⟨v, hv, .inr h⟩
  · obtain ⟨hsbar, hsread⟩ := words_of_parse hs hbs
    obtain ⟨htbar, htread⟩ := words_of_parse ht hcs
    have hread : (partLists (s ++ sep ++ t)).mapM readParts = some [bs ++ cs] := by
      rw [partLists_append_comma hsbar htbar hsep, List.mapM_cons,
        readParts_append hsread htread]
      rfl
    refine ⟨_, parse_of_mapM_readParts hread, rfl, fun w => ?_⟩
    simp only [matchesText_eq_ok_true_iff, accepts, hbs, hcs, List.any_cons, List.any_nil,
      Bool.or_false, List.all_append, Bool.and_eq_true]
    constructor
    · rintro ⟨v, hv, h, h'⟩
      exact ⟨⟨v, hv, h⟩, v, hv, h'⟩
    -- The text names one version only, so both constraints speak of the same one.
    · rintro ⟨⟨v, hv, h⟩, v', hv', h'⟩
      obtain rfl : v = v' := Except.ok.inj (hv.symm.trans hv')
      exact ⟨v, hv, h, h'⟩

/-- The constraint `>=1.0 ,`, which ends with a comma. -/
def openBehind : Constraint := ⟨">=1.0 ,".toList, [[⟨.ge, .lowestOf [1, 0]⟩]]⟩

/-- The constraint `, !=1.5`, which begins with a comma and ends with a line feed. -/
def openInFront : Constraint := ⟨", !=1.5\n".toList, [[⟨.ne, ⟨⟨[1, 5, 0, 0], 4, []⟩, none⟩⟩]]⟩

theorem parse_append_of_separator_commas :
    parse openBehind.source = .ok openBehind ∧ parse openInFront.source = .ok openInFront ∧
    (∃ e, parse (openBehind.source ++ " ||\t".toList ++ openInFront.source) = .ok e ∧
      e.alternatives = openBehind.alternatives ++ openInFront.alternatives ∧
      ∀ w, e.matchesText w = .ok true ↔
        openBehind.matchesText w = .ok true ∨ openInFront.matchesText w = .ok true) ∧
    ∃ e, parse (openBehind.source ++ " , ".toList ++ openInFront.source) = .ok e ∧
      e.alternatives =
        [[⟨.ge, .lowestOf [1, 0]⟩, ⟨.ne, ⟨⟨[1, 5, 0, 0], 4, []⟩, none⟩⟩]] ∧
      ∀ w, e.matchesText w = .ok true ↔
        openBehind.matchesText w = .ok true ∧ openInFront.matchesText w = .ok true := by
  have hs : parse openBehind.source = .ok openBehind := rfl
  have ht : parse openInFront.source = .ok openInFront := rfl
  have hblank : Text.Blank [' '] ∧ Text.Blank ['\t'] := by
    constructor <;> intro c hc <;> obtain rfl := List.mem_singleton.1 hc <;> rfl
  obtain ⟨hbar, hcomma⟩ := parse_append_of_separator hs ht
  exact ⟨hs, ht, hbar _ (.double hblank.1 hblank.2),
    hcomma _ _ rfl rfl _ (.comma hblank.1 hblank.1)⟩

end Target.Constraint

end AssetBridge
