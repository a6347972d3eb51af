import AssetBridge.Proofs.Composition
import AssetBridge.Proofs.Legality

/-!
# The spellings of a conjunction

Items that have to hold together may stand between blanks, between commas or between double
ampersands. Cleaning turns the ampersands into commas, the walk turns the blanks into commas, and
reading the constraint takes several commas for one, so at each joint of a conjunction the spelling
is free.

## Main definitions

* `Joint`: the separators of a conjunction
* `Joined`: a conjunction with a separator at each of its joints

## Main results

* `Joined.clean_text`: cleaning works at each joint by itself
* `Joined.tokenize_clean_text`: the tokens of a joined conjunction
* `Joined.convertRange_text`: what a joined conjunction becomes
* `Joined.exists_bounds_of_conjunction`: the bounds do not depend on the joints
-/

namespace AssetBridge

open Source Target

/-- Words behind separators, of which each may be another one. -/
theorem Text.words_append_flatMap {β : Type} {p : Char → Bool} {sep w : β → Text}
    (hne : ∀ b, sep b ≠ []) (hsep : ∀ b, ∀ c ∈ sep b, p c = true) (s : Text) (l : List β) :
    words p (s ++ l.flatMap fun b => sep b ++ w b) =
      words p s ++ l.flatMap fun b => words p (w b) := by
  -- Induction on the words behind: the next separator stands behind the first of them.
  induction l generalizing s with
  | nil => simp
  | cons b l ih =>
    rw [List.flatMap_cons, List.append_assoc, ← List.append_assoc,
      words_append_append (hne b) (hsep b), ih, List.flatMap_cons]

namespace Grammar

/-! ## Joints -/

/-- What may stand between two items of a conjunction. -/
inductive Joint where
  | blank
  | comma
  | commaBlank
  | blankCommaBlank
  | ampersands
  | blankAmpersandsBlank
  | ampersandsBlank
deriving DecidableEq, Repr

namespace Joint

/-- The text of a joint. -/
def text : Joint → Text
  | blank => [' ']
  | comma => [',']
  | commaBlank => [',', ' ']
  | blankCommaBlank => [' ', ',', ' ']
  | ampersands => ['&', '&']
  | blankAmpersandsBlank => [' ', '&', '&', ' ']
  | ampersandsBlank => ['&', '&', ' ']

/-- The tokens of a joint; an empty atom stands between two delimiters. -/
def tokens : Joint → List Text
  | blank => [[' ']]
  | comma | ampersands | blankAmpersandsBlank | ampersandsBlank => [[',']]
  | commaBlank => [[','], [], [' ']]
  | blankCommaBlank => [[' '], [], [','], [], [' ']]

/-- What a joint becomes: a comma for each of its delimiters. -/
def commas : Joint → Text
  | commaBlank => [',', ',']
  | blankCommaBlank => [',', ',', ',']
  | _ => [',']

theorem flatten_tokens (j : Joint) : j.tokens.flatten = clean j.text := by
  cases j <;> rfl

theorem commas_ne_nil (j : Joint) : j.commas ≠ [] := by
  cases j <;> exact List.cons_ne_nil _ _

theorem eq_comma_of_mem_commas {j : Joint} {c : Char} (h : c ∈ j.commas) : c = ',' := by
  cases j <;> simpa [commas] using h

/-- The tokens of a joint keep the turns of what stands on both sides of it. -/
theorem alternating_append (j : Joint) {ts us : List Text} (ht : Alternating ts)
    (hu : Alternating us) (hh : ∃ c r, us.flatten = c :: r ∧ c ≠ '-') :
    Alternating (ts ++ (j.tokens ++ us)) := by
  have hn : ∀ c ∈ ([] : Text), isPlain c = true := by simp
  have hblank : Alternating ([] :: [' '] :: us) := .step hn (by decide) (fun _ => hh) hu
  cases j with
  | blank => exact ht.append (by decide) (fun _ => hh) hu
  | comma | ampersands | blankAmpersandsBlank | ampersandsBlank =>
    exact ht.append (by decide) (fun e => absurd e (by decide)) hu
  | commaBlank => exact ht.append (by decide) (fun e => absurd e (by decide)) hblank
  | blankCommaBlank =>
    -- The blank in front has the comma behind it.
    have hcomma : Alternating ([] :: [','] :: [] :: [' '] :: us) :=
      .cons hn (by decide) (by decide) hblank
    exact ht.append (by decide) (fun _ => ⟨',', _, rfl, by decide⟩) hcomma

theorem isBoundary_append (j : Joint) (ts : List Text) : IsBoundary (j.tokens ++ ts) := by
  cases j
  case blank | blankCommaBlank => exact .inr (.inl rfl)
  all_goals exact .inr (.inr (.inr rfl))

/-- A joint is written as commas, and nothing stays pending behind it. -/
theorem later_tokens (j : Joint) {ts : List Text} (h : ts.head? ≠ some hyphenMarker) :
    later Pending.none (j.tokens ++ ts) = (j.commas ++ ·) <$> later Pending.none ts := by
  have hstep : ∀ d ∈ [[' '], [',']], ∀ next,
      Pending.none.step 1 false d next = .ok (Pending.none, [',']) := by
    simp only [List.mem_cons, List.not_mem_nil, or_false]
    rintro d (rfl | rfl) next <;> rfl
  -- A delimiter that further ones follow; the empty atom between them leaves no text.
  have hnil : ∀ us : List Text, ([] :: us).head? ≠ some hyphenMarker := by simp [hyphenMarker]
  cases j with
  | blank => exact later_of_step h (hstep _ (by simp) _)
  | comma | ampersands | blankAmpersandsBlank | ampersandsBlank =>
    exact later_of_step h (hstep _ (by simp) _)
  | commaBlank =>
    show later Pending.none ([','] :: [] :: [' '] :: ts) = _
    rw [later_of_step (hnil _) (hstep _ (by simp) _),
      later_delimiter (by decide) h (hstep _ (by simp))]
    cases later Pending.none ts <;> rfl
  | blankCommaBlank =>
    show later Pending.none ([' '] :: [] :: [','] :: [] :: [' '] :: ts) = _
    rw [later_of_step (hnil _) (hstep _ (by simp) _),
      later_delimiters (by decide) (by decide) h (hstep _ (by simp)) (hstep _ (by simp))]
    cases later Pending.none ts <;> rfl

end Joint

/-! ## Joined conjunctions -/

/-- A conjunction with a joint in front of each item but the first. -/
structure Joined (α : Type) where
  first : Item α
  rest : List (Joint × Item α) := []
deriving DecidableEq, Repr

namespace Joined

/-- The items alone. -/
def conjunction {α : Type} (r : Joined α) : Conjunction α := ⟨r.first, r.rest.map Prod.snd⟩

section Texts

variable {α : Type} [Numeric α]

/-- The items with a text at each joint. -/
def textWith (f : Joint → Text) (r : Joined α) : Text :=
  r.first.text ++ r.rest.flatMap fun p => f p.1 ++ p.2.text

/-- The text of a joined conjunction. -/
def text (r : Joined α) : Text := r.textWith Joint.text

/-- The tokens of a joined conjunction. -/
def tokens (r : Joined α) : List Text :=
  r.first.tokens ++ r.rest.flatMap fun p => p.1.tokens ++ p.2.tokens

theorem textWith_cons (f : Joint → Text) (i k : Item α) (j : Joint) (l : List (Joint × Item α)) :
    textWith f ⟨i, (j, k) :: l⟩ = i.text ++ (f j ++ textWith f ⟨k, l⟩) := by
  simp [textWith]

theorem tokens_cons (i k : Item α) (j : Joint) (l : List (Joint × Item α)) :
    tokens ⟨i, (j, k) :: l⟩ = i.tokens ++ (j.tokens ++ tokens ⟨k, l⟩) := by
  simp [tokens]

theorem exists_textWith_eq_cons (f : Joint → Text) (r : Joined α) :
    ∃ c s, r.textWith f = c :: s ∧ isItemChar c = true := by
  obtain ⟨c, s, hs, hc⟩ := r.first.exists_text_eq_cons
  exact ⟨c, _, by rw [textWith, hs]; rfl, hc⟩

theorem mem_textWith {f : Joint → Text} {r : Joined α} {c : Char} (h : c ∈ r.textWith f) :
    isItemChar c = true ∨ ∃ j, c ∈ f j := by
  simp only [textWith, List.mem_append, List.mem_flatMap] at h
  rcases h with h | ⟨p, -, h | h⟩
  · exact .inl (Item.isItemChar_of_mem h)
  · exact .inr ⟨p.1, h⟩
  · exact .inl (Item.isItemChar_of_mem h)

/-! ## Cleaning -/

/-- A replacement that concerns no item works at each joint by itself. -/
theorem replaceAll_textWith {c : Char} {old : Text} (h : (c :: old).any isItemChar = false)
    (new : Text) (f : Joint → Text) (r : Joined α) :
    Text.replaceAll (c :: old) new (r.textWith f) =
      r.textWith fun j => Text.replaceAll (c :: old) new (f j) := by
  have hpattern := List.any_eq_false.1 h
  have hitem : ∀ i : Item α, c ∉ i.text := fun i hm =>
    hpattern c (by simp) (Item.isItemChar_of_mem hm)
  obtain ⟨i, l⟩ := r
  -- Induction on the joints: the item behind a joint opens with a character of its own.
  induction l generalizing i with
  | nil => simpa [textWith] using Text.replaceAll_eq_self_of_not_mem (hitem i) old new
  | cons p l ih =>
    obtain ⟨j, k⟩ := p
    obtain ⟨d, s, hs, hd⟩ := exists_textWith_eq_cons f ⟨k, l⟩
    have hold : d ∉ old := fun hm => hpattern d (by simp [hm]) hd
    rw [textWith_cons, Text.replaceAll_append_left (hitem i), hs,
      Text.replaceAll_append_cons hold, ← hs, ih k, textWith_cons]

/-- No operator has a blank behind it. -/
theorem tighten_text (r : Joined α) {o : Char} (h : isAtomChar o = false)
    (ho : ∀ j : Joint, o ∉ j.text) : tighten r.text [o] = r.text := by
  have hparts : ∀ (l : List (Joint × Item α)) (s : Text), Text.Avoids o ' ' s →
      Text.Avoids o ' ' (s ++ l.flatMap fun p => p.1.text ++ p.2.text) := by
    intro l
    induction l with
    | nil => simp
    | cons p l ih =>
      intro s hs
      have hp := (Text.avoids_of_not_mem (b := ' ') (ho p.1)).append (p.2.avoids_text h)
      simpa using ih _ (hs.append hp)
  exact Text.replaceAll_eq_self (by simp) (hparts r.rest _ (r.first.avoids_text h)).1 [o]

/-- **Cleaning** works at each joint by itself. -/
theorem clean_text (r : Joined α) : clean r.text = r.textWith fun j => clean j.text := by
  have ho : tightOperators = [['<'], ['>'], ['='], ['~'], ['^'], ['|', '|'], ['&', '&']] := rfl
  -- Only the ampersands may have a blank behind them.
  have htight : tightOperators.foldl tighten r.text =
      r.textWith fun j => tighten (tighten j.text ['|', '|']) ['&', '&'] := by
    have hitem : ∀ o ∈ ['<', '>', '=', '~', '^'], tighten r.text [o] = r.text := by
      intro o hm
      simp only [List.mem_cons, List.not_mem_nil, or_false] at hm
      rcases hm with rfl | rfl | rfl | rfl | rfl <;>
        exact r.tighten_text (by decide) fun j => by cases j <;> decide
    rw [ho]
    simp only [List.foldl_cons, List.foldl_nil]
    rw [hitem '<' (by simp), hitem '>' (by simp), hitem '=' (by simp), hitem '~' (by simp),
      hitem '^' (by simp), tighten, tighten, text]
    exact (congrArg _ (replaceAll_textWith rfl _ _ r)).trans (replaceAll_textWith rfl _ _ r)
  have hletter : ∀ c ∈ ['v', 'V'],
      c ∉ r.textWith fun j => tighten (tighten j.text ['|', '|']) ['&', '&'] := by
    intro c hc hm
    simp only [List.mem_cons, List.not_mem_nil, or_false] at hc
    rcases mem_textWith hm with h | ⟨j, h⟩
    · rcases hc with rfl | rfl <;> exact absurd h (by decide)
    · rcases hc with rfl | rfl <;> cases j <;> exact absurd h (by decide)
  have hletters := dropVersionLetters_eq_self (hletter 'v' (by simp)) (hletter 'V' (by simp))
  calc clean r.text
      = Text.replaceAll ['&', '&'] [','] (Text.replaceAll [' ', '&', '&'] [',']
          (Text.replaceAll [' ', '|', '|'] ['|', '|']
            (dropVersionLetters (tightOperators.foldl tighten r.text)))) := rfl
    _ = r.textWith fun j => Text.replaceAll ['&', '&'] [','] (Text.replaceAll [' ', '&', '&'] [',']
          (Text.replaceAll [' ', '|', '|'] ['|', '|']
            (tighten (tighten j.text ['|', '|']) ['&', '&']))) := by
        rw [htight, hletters, replaceAll_textWith rfl, replaceAll_textWith rfl,
          replaceAll_textWith rfl]
    _ = r.textWith fun j => clean j.text := by
        congr 1
        funext j
        cases j <;> rfl

theorem lower_text (r : Joined α) : Text.lower r.text = r.text := by
  refine Text.lower_eq_self fun c hc => ?_
  rcases mem_textWith hc with h | ⟨j, h⟩
  · exact isSettled_of_isItemChar h
  · have hj : j.text.all Text.isSettled = true := by cases j <;> rfl
    exact List.all_eq_true.1 hj c h

/-! ## Tokens -/

theorem flatten_tokens (r : Joined α) : r.tokens.flatten = r.textWith fun j => clean j.text := by
  obtain ⟨i, l⟩ := r
  induction l generalizing i with
  | nil => simp [tokens, textWith]
  | cons p l ih =>
    obtain ⟨j, k⟩ := p
    rw [tokens_cons, textWith_cons, List.flatten_append, List.flatten_append, ih k,
      i.flatten_tokens, j.flatten_tokens]

theorem alternating_tokens (r : Joined α) : Alternating r.tokens := by
  obtain ⟨i, l⟩ := r
  induction l generalizing i with
  | nil => simpa [tokens] using i.alternating_tokens
  | cons p l ih =>
    obtain ⟨j, k⟩ := p
    rw [tokens_cons]
    refine j.alternating_append i.alternating_tokens (ih k) ?_
    obtain ⟨c, s, hs, hc⟩ := exists_textWith_eq_cons (fun j => clean j.text) ⟨k, l⟩
    exact ⟨c, s, by rw [flatten_tokens, hs], by rintro rfl; exact absurd hc (by decide)⟩

/-- **The tokens** of a joined conjunction. -/
theorem tokenize_clean_text (r : Joined α) : tokenize (clean (Text.lower r.text)) = r.tokens := by
  rw [lower_text, clean_text, ← flatten_tokens, tokenize_flatten r.alternating_tokens]

/-! ## The walk -/

theorem isBoundary_joints (l : List (Joint × Item α)) :
    IsBoundary (l.flatMap fun p => p.1.tokens ++ p.2.tokens) := by
  cases l with
  | nil => exact .inl rfl
  | cons p l =>
    rw [List.flatMap_cons, List.append_assoc]
    exact p.1.isBoundary_append _

/-- Behind each joint an item becomes its own text. -/
theorem later_joints (w : Item α → Text) {l : List (Joint × Item α)}
    (h : ∀ p ∈ l, p.2.convert = .ok (w p.2)) :
    later Pending.none (l.flatMap fun p => p.1.tokens ++ p.2.tokens) =
      .ok (l.flatMap fun p => p.1.commas ++ w p.2) := by
  -- Induction on the joints: neither a joint nor an item leaves anything pending.
  induction l with
  | nil => rfl
  | cons p l ih =>
    rw [List.flatMap_cons, List.append_assoc, p.1.later_tokens (p.2.head?_tokens_append _),
      later_item p.2 (isBoundary_joints l), h p (by simp), ih fun q hq => h q (by simp [hq])]
    exact congrArg Except.ok (List.append_assoc _ _ _).symm

end Texts

/-! ## Constraints -/

/-- The text that a joined conjunction becomes. -/
def converted (r : Joined Nat) : Text :=
  partsText r.first.firstParts ++ r.rest.flatMap fun p => p.1.commas ++ partsText p.2.parts

/-- **A joined conjunction** becomes the parts of its items, with commas at the joints. -/
theorem convertRange_text {k : Nat} (hk : k ≤ 9999999) {r : Joined Nat}
    (h : ∀ i ∈ r.conjunction.items, i.Within k ∧ i.IsLegal) :
    convertRange r.text = .ok r.converted := by
  have hrest : ∀ p ∈ r.rest, p.2.convert = .ok (partsText p.2.parts) := by
    intro p hp
    have hi := h p.2 (List.mem_cons_of_mem _ (List.mem_map_of_mem hp))
    exact Item.convert_eq hk hi.1 hi.2
  have hfirst := Item.convertFirst_eq hk (h r.first (List.mem_cons_self ..)).1
  rw [convertRange, tokenize_clean_text]
  show opening r.tokens = _
  rw [tokens, opening_item r.first (isBoundary_joints r.rest), hfirst,
    later_joints (partsText ·.parts) hrest]
  rfl

theorem words_converted {k : Nat} (hk : k ≤ 9999999) {r : Joined Nat}
    (h : ∀ i ∈ r.conjunction.items, i.Within k) :
    Text.words Constraint.isPartSeparator r.converted =
      (Alternative.all r.conjunction).firstParts.map Part.text := by
  have hfirst := words_partsText r.first.firstParts_ne_nil
    (Item.fits_of_mem_firstParts hk (h r.first (List.mem_cons_self ..)))
  have hrest : ∀ p ∈ r.rest, Text.words Constraint.isPartSeparator (partsText p.2.parts) =
      p.2.parts.map Part.text := by
    intro p hp
    have hi := h p.2 (List.mem_cons_of_mem _ (List.mem_map_of_mem hp))
    exact words_partsText p.2.parts_ne_nil (Item.fits_of_mem_parts hk hi)
  rw [converted, Text.words_append_flatMap (fun p => p.1.commas_ne_nil)
    (fun p c hc => by rw [Joint.eq_comma_of_mem_commas hc]; rfl), hfirst,
    List.flatMap_def, List.map_congr_left hrest]
  simp [Alternative.firstParts, conjunction, List.flatMap_def, Function.comp_def]

theorem bar_not_mem_converted (r : Joined Nat) : '|' ∉ r.converted := by
  intro h
  rcases List.mem_append.1 h with h | h
  · exact bar_not_mem_partsText _ h
  · obtain ⟨p, -, h⟩ := List.mem_flatMap.1 h
    rcases List.mem_append.1 h with h | h
    · exact absurd (Joint.eq_comma_of_mem_commas h) (by decide)
    · exact bar_not_mem_partsText _ h

/-- The text of a joined conjunction is read as the bounds of the items' parts. -/
theorem parse_converted {k : Nat} (hk : k ≤ 9999999) {r : Joined Nat}
    (h : ∀ i ∈ r.conjunction.items, i.Within k) :
    Constraint.parse r.converted = .ok ⟨r.converted,
      [(Alternative.all r.conjunction).firstParts.flatMap Part.bounds]⟩ := by
  have hread := readParts_map_text (Alternative.all r.conjunction).firstParts_ne_nil
    (Alternative.fits_of_mem_firstParts hk h)
  apply Constraint.parse_of_mapM_readParts
  rw [Constraint.partLists_eq_singleton r.bar_not_mem_converted, words_converted hk h]
  simp [hread]

/-- **The spelling of the joints is free**: however the items of a conjunction are joined, the range
becomes a constraint that can be read, with the same bounds in its only alternative. -/
theorem exists_bounds_of_conjunction {c : Conjunction Nat}
    (h : ∀ i ∈ c.items, i.Within 9999999 ∧ i.operator ≠ .equal) :
    ∃ bounds, ∀ r : Joined Nat, r.conjunction = c →
      ∃ s, convertRange r.text = .ok s ∧ Constraint.parse s = .ok ⟨s, [bounds]⟩ := by
  refine ⟨(Alternative.all c).firstParts.flatMap Part.bounds, fun r hr => ?_⟩
  subst hr
  have hlegal : ∀ i ∈ r.conjunction.items, i.Within 9999999 ∧ i.IsLegal := fun i hi =>
    ⟨(h i hi).1, Item.isLegal_of_operator (h i hi).2⟩
  exact ⟨r.converted, convertRange_text (Nat.le_refl _) hlegal,
    parse_converted (Nat.le_refl _) fun i hi => (h i hi).1⟩

/-- The items `1`, `~>1.2.*` and `<2.0.x`. -/
def threeItems : Conjunction Nat :=
  ⟨.version .bare (.major 1), [.version .tildeGreater (.minorWild 1 2 .star),
    .version .less (.minorWild 2 0 .letter)]⟩

theorem exists_bounds_of_conjunction_threeItems :
    ∃ bounds s t, convertRange "1 , ~>1.2.*&& <2.0.x".toList = .ok s ∧
      Constraint.parse s = .ok ⟨s, [bounds]⟩ ∧
      convertRange "1 ~>1.2.*,<2.0.x".toList = .ok t ∧
      Constraint.parse t = .ok ⟨t, [bounds]⟩ := by
  obtain ⟨bounds, h⟩ := exists_bounds_of_conjunction (c := threeItems) (by decide)
  obtain ⟨s, hs⟩ := h ⟨.version .bare (.major 1),
    [(.blankCommaBlank, .version .tildeGreater (.minorWild 1 2 .star)),
      (.ampersandsBlank, .version .less (.minorWild 2 0 .letter))]⟩ rfl
  obtain ⟨t, ht⟩ := h ⟨.version .bare (.major 1),
    [(.blank, .version .tildeGreater (.minorWild 1 2 .star)),
      (.comma, .version .less (.minorWild 2 0 .letter))]⟩ rfl
  exact ⟨bounds, s, t, hs.1, hs.2, ht.1, ht.2⟩

end Joined

end Grammar

end AssetBridge
