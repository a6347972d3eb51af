import AssetBridge.Proofs.Cutting
import AssetBridge.Proofs.Grammar

/-!
# The tokens of a range

Cleaning takes the blanks around the double bars of a range and nothing else, and cutting what is
left into tokens gives the operators and versions that the range was written with.

## Main definitions

* `Item.tokens`, `Alternative.tokens`, `Expression.tokens`: the tokens of a range
* `Alternating`: lists of tokens that atoms and delimiters take turns in

## Main results

* `clean_text`: the cleaned text of a range
* `tokenize_flatten`: tokens that take turns are found again in the text they make
* `tokenize_clean_text`: the tokens of the cleaned text of a range
-/

namespace AssetBridge

namespace Source

/-! ## Cutting -/

/-- A character that opens no delimiter. -/
def isPlain (c : Char) : Bool :=
  !(c = ' ' || c = '<' || c = '>' || c = '=' || c = '|' || c = ',' || c = '~' || c = '^')

/-- **Turns**: atoms of plain characters and delimiters take turns, from an atom to an atom. A blank
that is a delimiter of its own is not followed by a hyphen. -/
inductive Alternating : List Text → Prop
  | last {a : Text} : (∀ c ∈ a, isPlain c = true) → Alternating [a]
  | step {a d : Text} {ts : List Text} : (∀ c ∈ a, isPlain c = true) → d ∈ delimiters →
      (d = [' '] → ∃ c r, ts.flatten = c :: r ∧ c ≠ '-') → Alternating ts →
      Alternating (a :: d :: ts)

theorem Alternating.cons {a d : Text} {ts : List Text} (ha : ∀ c ∈ a, isPlain c = true)
    (hd : d ∈ delimiters) (hb : d ≠ [' ']) (h : Alternating ts) : Alternating (a :: d :: ts) :=
  .step ha hd (fun e => absurd e hb) h

theorem Alternating.append {ts us : List Text} {d : Text} (h : Alternating ts)
    (hd : d ∈ delimiters) (hb : d = [' '] → ∃ c r, us.flatten = c :: r ∧ c ≠ '-')
    (hu : Alternating us) : Alternating (ts ++ d :: us) := by
  -- Induction on the turns in front: each of them keeps what stands behind its delimiter.
  induction h with
  | last ha => exact .step ha hd hb hu
  | step ha hd' hb' _ ih =>
    refine .step ha hd' (fun e => ?_) ih
    obtain ⟨c, r, hc, hne⟩ := hb' e
    exact ⟨c, r ++ (d :: us).flatten, by simp [hc], hne⟩

theorem delimiter?_cons_of_isPlain {c : Char} (h : isPlain c = true) (s : Text) :
    delimiter? (c :: s) = none := by
  simp only [isPlain, Bool.not_eq_true', Bool.or_eq_false_iff, decide_eq_false_iff_not] at h
  rw [delimiter?, delimiters_eq, List.find?_eq_none]
  intro d hd
  simp only [List.mem_cons, List.not_mem_nil, or_false] at hd
  rcases hd with rfl | rfl | rfl | rfl | rfl | rfl | rfl | rfl | rfl <;>
    exact Bool.eq_false_iff.1 (Text.startsWith_cons_eq_false (fun e => by simp [← e] at h) _ _)

theorem delimiter?_append {d : Text} (hd : d ∈ delimiters) (s : Text)
    (hb : d = [' '] → ∃ c r, s = c :: r ∧ c ≠ '-') : delimiter? (d ++ s) = some d := by
  rw [delimiter?]
  simp only [delimiters_eq, List.mem_cons, List.not_mem_nil, or_false] at hd ⊢
  rcases hd with rfl | rfl | rfl | rfl | rfl | rfl | rfl | rfl | rfl
  -- A blank is tried behind the hyphen between blanks, which needs a minus sign next.
  case inr.inr.inr.inr.inr.inl =>
    obtain ⟨c, r, rfl, hc⟩ := hb rfl
    simp [Text.startsWith, Text.dropPrefix?, hc.symm]
  all_goals simp [Text.startsWith, Text.dropPrefix?]

theorem passes_of_isPlain {a : Text} (ha : ∀ c ∈ a, isPlain c = true) (s : Text) :
    Passes a s := by
  intro t ht hne
  obtain ⟨c, r, rfl⟩ := List.exists_cons_of_ne_nil hne
  exact delimiter?_cons_of_isPlain (ha c (ht.subset List.mem_cons_self)) (r ++ s)

theorem Alternating.isCut {ts : List Text} (h : Alternating ts) : IsCut ts := by
  induction h with
  | last ha => exact .last (passes_of_isPlain ha [])
  | step ha hd hb _ ih => exact .step (passes_of_isPlain ha _) (delimiter?_append hd _ hb) ih

/-- **Tokens that take turns** are found again in the text they make. -/
theorem tokenize_flatten {ts : List Text} (h : Alternating ts) : tokenize ts.flatten = ts :=
  h.isCut.tokenize_flatten

end Source

namespace Grammar

open Source

variable {α : Type} [Numeric α]

/-! ## Tokens of a range -/

/-- The tokens of an operator; an empty atom stands in front of each delimiter. -/
def Operator.tokens : Operator → List Text
  | bare => []
  | equal => [[], ['=']]
  | less => [[], ['<']]
  | atMost => [[], ['<'], [], ['=']]
  | greater => [[], ['>']]
  | atLeast => [[], ['>'], [], ['=']]
  | caret => [[], ['^']]
  | tilde => [[], ['~']]
  | tildeGreater => [[], ['~'], [], ['>']]

/-- The tokens of an item. -/
def Item.tokens : Item α → List Text
  | star => [['*']]
  | version op v => op.tokens ++ [v.text]

/-- The tokens of a conjunction. -/
def Conjunction.tokens (c : Conjunction α) : List Text :=
  c.first.tokens ++ c.rest.flatMap fun i => [' '] :: i.tokens

/-- The tokens of an alternative. -/
def Alternative.tokens : Alternative α → List Text
  | all c => c.tokens
  | hyphen low high => [low.text, hyphenMarker, high.text]

/-- The tokens of a range. -/
def Expression.tokens (e : Expression α) : List Text :=
  e.first.tokens ++ e.rest.flatMap fun a => ['|', '|'] :: a.tokens

theorem isPlain_of_isAtomChar {c : Char} (h : isAtomChar c = true) : isPlain c = true := by
  rw [isPlain, Bool.not_eq_true', Bool.eq_false_iff]
  intro hc
  simp only [Bool.or_eq_true, decide_eq_true_eq] at hc
  rcases hc with ((((((rfl | rfl) | rfl) | rfl) | rfl) | rfl) | rfl) | rfl <;>
    exact absurd h (by decide)

theorem Atom.isPlain_of_mem {v : Atom α} : ∀ c ∈ v.text, isPlain c = true :=
  fun _ hc => isPlain_of_isAtomChar (isAtomChar_of_mem hc)

@[simp] theorem Operator.flatten_tokens (op : Operator) : op.tokens.flatten = op.sign := by
  cases op <;> rfl

@[simp] theorem Item.flatten_tokens (i : Item α) : i.tokens.flatten = i.text := by
  cases i with
  | star => rfl
  | version op v => simp [tokens, text]

/-- The tokens of parts behind a delimiter each make the texts of the parts behind it. -/
theorem flatten_flatMap_tokens {β : Type} (d : Text) (tokens : β → List Text) (text : β → Text)
    (h : ∀ b, (tokens b).flatten = text b) (l : List β) :
    (l.flatMap fun b => d :: tokens b).flatten = l.flatMap fun b => d ++ text b := by
  induction l with
  | nil => rfl
  | cons b l ih => simp [ih, h]

@[simp] theorem Conjunction.flatten_tokens (c : Conjunction α) : c.tokens.flatten = c.text := by
  rw [text, items, List.map_cons, Text.join_cons, tokens, List.flatten_append,
    Item.flatten_tokens, flatten_flatMap_tokens _ _ _ Item.flatten_tokens, List.flatMap_map]

@[simp] theorem Alternative.flatten_tokens (a : Alternative α) : a.tokens.flatten = a.text := by
  cases a with
  | all c => exact c.flatten_tokens
  | hyphen low high => simp [tokens, text, hyphenMarker]

theorem Operator.alternating_tokens (op : Operator) {s : Text} (hs : ∀ c ∈ s, isPlain c = true) :
    Alternating (op.tokens ++ [s]) := by
  have hn : ∀ c ∈ ([] : Text), isPlain c = true := by simp
  cases op with
  | bare => exact .last hs
  | equal | less | greater | caret | tilde =>
    -- one delimiter, behind an empty atom
    exact .cons hn (by decide) (by decide) (.last hs)
  | atMost | atLeast | tildeGreater =>
    -- two delimiters, with an empty atom between them
    exact .cons hn (by decide) (by decide) (.cons hn (by decide) (by decide) (.last hs))

theorem Item.alternating_tokens (i : Item α) : Alternating i.tokens := by
  cases i with
  | star =>
    refine .last fun c hc => ?_
    obtain rfl := List.mem_singleton.1 hc
    rfl
  | version op v => exact op.alternating_tokens v.isPlain_of_mem

theorem Item.not_hyphen (i : Item α) : ∃ c r, i.text = c :: r ∧ c ≠ '-' := by
  obtain ⟨c, r, h, hc⟩ := i.exists_text_eq_cons
  exact ⟨c, r, h, by rintro rfl; exact absurd hc (by decide)⟩

theorem Conjunction.alternating_tokens (c : Conjunction α) : Alternating c.tokens := by
  obtain ⟨i, l⟩ := c
  -- Induction on the items behind the first: none opens with a minus sign, so its blank stays one.
  induction l generalizing i with
  | nil => simpa [tokens] using i.alternating_tokens
  | cons j l ih =>
    have hj := ih j
    obtain ⟨c, r, hc, hne⟩ := j.not_hyphen
    have ht : Alternating (i.tokens ++ [' '] :: tokens ⟨j, l⟩) := by
      refine i.alternating_tokens.append (by decide) (fun _ => ?_) hj
      exact ⟨c, _, by rw [tokens, List.flatten_append, Item.flatten_tokens, hc]; rfl, hne⟩
    simpa [tokens] using ht

theorem Alternative.alternating_tokens (a : Alternative α) : Alternating a.tokens := by
  cases a with
  | all c => exact c.alternating_tokens
  | hyphen low high =>
    exact .cons low.isPlain_of_mem (by decide) (by decide) (.last high.isPlain_of_mem)

theorem Expression.alternating_tokens (e : Expression α) : Alternating e.tokens := by
  obtain ⟨a, l⟩ := e
  induction l generalizing a with
  | nil => simpa [tokens] using a.alternating_tokens
  | cons b l ih =>
    have ht : Alternating (a.tokens ++ ['|', '|'] :: tokens ⟨b, l⟩) :=
      a.alternating_tokens.append (by decide) (fun e => absurd e (by decide)) (ih b)
    simpa [tokens] using ht

/-! ## Cleaning -/

/-- The text of an alternative and the characters in it. -/
theorem Alternative.mem_text {a : Alternative α} {c : Char} (h : c ∈ a.text) :
    isItemChar c = true ∨ c = ' ' ∨ c = '-' := by
  cases a with
  | all d =>
    rcases Conjunction.mem_text h with h | h
    · exact .inl h
    · exact .inr (.inl h)
  | hyphen low high =>
    simp only [text, List.mem_append, List.mem_cons, List.not_mem_nil, or_false] at h
    rcases h with (h | h) | h
    · exact .inl (isItemChar_of_isAtomChar (Atom.isAtomChar_of_mem h))
    · rcases h with rfl | rfl | rfl <;> simp
    · exact .inl (isItemChar_of_isAtomChar (Atom.isAtomChar_of_mem h))

theorem Alternative.not_mem_text {a : Alternative α} {c : Char}
    (h : isItemChar c = false ∧ c ≠ ' ' ∧ c ≠ '-') : c ∉ a.text := by
  intro hc
  rcases mem_text hc with hc | hc | hc
  · simp [h.1] at hc
  · exact h.2.1 hc
  · exact h.2.2 hc

theorem Alternative.exists_of_mem_map {e : Expression α} {t : Text}
    (h : t ∈ e.alternatives.map Alternative.text) : ∃ a : Alternative α, a.text = t := by
  obtain ⟨a, -, ha⟩ := List.mem_map.1 h
  exact ⟨a, ha⟩

theorem Expression.mem_joined {e : Expression α} {sep : Text} {c : Char} (h : c ∈ e.joined sep) :
    c ∈ sep ∨ isItemChar c = true ∨ c = ' ' ∨ c = '-' := by
  rcases Text.mem_join h with h | ⟨t, ht, h⟩
  · exact .inl h
  · obtain ⟨a, rfl⟩ := Alternative.exists_of_mem_map ht
    exact .inr (Alternative.mem_text h)

theorem Expression.not_mem_joined {e : Expression α} {sep : Text} {c : Char} (hs : c ∉ sep)
    (h : isItemChar c = false ∧ c ≠ ' ' ∧ c ≠ '-') : c ∉ e.joined sep := by
  intro hc
  rcases mem_joined hc with hc | hc | hc | hc
  · exact hs hc
  · simp [h.1] at hc
  · exact h.2.1 hc
  · exact h.2.2 hc

theorem Item.avoids_text {i : Item α} {o : Char} (h : isAtomChar o = false) :
    Text.Avoids o ' ' i.text := by
  -- An item has no blank, and ends with a character of a version.
  refine ⟨Text.contains_eq_false (c := ' ') (by simp) fun hc => ?_, fun hl => ?_⟩
  · exact absurd (isItemChar_of_mem hc) (by decide)
  · simp [isAtomChar_of_getLast? hl] at h

theorem Alternative.avoids_text {a : Alternative α} {o : Char}
    (h : isAtomChar o = false ∧ o ≠ ' ' ∧ o ≠ '-') : Text.Avoids o ' ' a.text := by
  cases a with
  | all c =>
    refine Text.Avoids.join (by simpa using h.2.1) fun t ht => ?_
    obtain ⟨i, -, rfl⟩ := List.mem_map.1 ht
    exact Item.avoids_text h.1
  | hyphen low high =>
    -- A hyphen range has no operator at all.
    refine Text.avoids_of_not_mem fun hc => ?_
    simp only [text, List.mem_append, List.mem_cons, List.not_mem_nil, or_false] at hc
    rcases hc with (hc | hc) | hc
    · simp [Atom.isAtomChar_of_mem hc] at h
    · simp [h.2.1, h.2.2] at hc
    · simp [Atom.isAtomChar_of_mem hc] at h

/-- No operator of a range has a blank behind it. -/
theorem Expression.tighten_text (e : Expression α) {o : Char}
    (h : isAtomChar o = false ∧ o ≠ ' ' ∧ o ≠ '-' ∧ o ≠ '|') : tighten e.text [o] = e.text := by
  refine Text.replaceAll_eq_self (by simp) (Text.Avoids.join ?_ fun t ht => ?_).1 [o]
  · simp [h.2.1, h.2.2.2]
  · obtain ⟨a, rfl⟩ := Alternative.exists_of_mem_map ht
    exact Alternative.avoids_text ⟨h.1, h.2.1, h.2.2.1⟩

/-- The bars lose the blank behind them. -/
theorem Expression.tighten_bars (e : Expression α) :
    tighten e.text ['|', '|'] = e.joined [' ', '|', '|'] := by
  refine Text.replaceAll_join (fun t ht s => ?_) (fun t ht => ?_) (by simp [alternatives])
  all_goals obtain ⟨a, rfl⟩ := Alternative.exists_of_mem_map ht
  -- The blank in front of the bars is passed over together with the alternative.
  · have ha : '|' ∉ a.text ++ [' '] := by simpa using a.not_mem_text (by decide)
    have := Text.replaceAll_append_left ha ['|', ' '] ['|', '|'] (['|', '|', ' '] ++ s)
    rw [Text.replaceAll_append (by simp)] at this
    simpa using this
  · exact Text.replaceAll_eq_self_of_not_mem (a.not_mem_text (by decide)) _ _

/-- A text without bars is passed over up to the blank and the bars behind it. -/
theorem replaceAll_blankBars {a : Text} (h : '|' ∉ a) (s : Text) :
    Text.replaceAll [' ', '|', '|'] ['|', '|'] (a ++ ([' ', '|', '|'] ++ s)) =
      a ++ (['|', '|'] ++ Text.replaceAll [' ', '|', '|'] ['|', '|'] s) := by
  induction a with
  | nil => exact Text.replaceAll_append (by simp) _ s
  | cons c a ih =>
    have ha : '|' ∉ a := fun e => h (by simp [e])
    have hc : Text.startsWith [' ', '|', '|'] (c :: (a ++ ([' ', '|', '|'] ++ s))) = false := by
      -- A blank in the text has no bar behind it, but more of the text or the closing blank.
      by_cases e : ' ' = c
      · subst e
        rw [Text.startsWith_cons_self]
        cases a with
        | nil => rfl
        | cons d a => exact Text.startsWith_cons_eq_false (fun e => ha (by simp [← e])) _ _
      · exact Text.startsWith_cons_eq_false e _ _
    rw [List.cons_append, Text.replaceAll_cons (by simp) _ hc, ih ha]
    rfl

/-- The bars lose the blank in front of them. -/
theorem Expression.replaceAll_bars (e : Expression α) :
    Text.replaceAll [' ', '|', '|'] ['|', '|'] (e.joined [' ', '|', '|']) =
      e.joined ['|', '|'] := by
  refine Text.replaceAll_join (fun t ht s => ?_) (fun t ht => ?_) (by simp [alternatives])
  all_goals obtain ⟨a, rfl⟩ := Alternative.exists_of_mem_map ht
  · exact replaceAll_blankBars (a.not_mem_text (by decide)) s
  · exact Text.replaceAll_eq_self (by simp)
      (Text.contains_eq_false (c := '|') (by simp) (a.not_mem_text (by decide))) _

theorem dropVersionLetters_eq_self {s : Text} (hv : 'v' ∉ s) (hV : 'V' ∉ s) :
    dropVersionLetters s = s := by
  induction s with
  | nil => rfl
  | cons c s ih =>
    simp only [List.mem_cons, not_or] at hv hV
    simp [dropVersionLetters, Ne.symm hv.1, Ne.symm hV.1, ih hv.2 hV.2]

/-- **Cleaning** a range takes the blanks around its double bars. -/
theorem clean_text (e : Expression α) : clean e.text = e.joined ['|', '|'] := by
  have ho : tightOperators = [['<'], ['>'], ['='], ['~'], ['^'], ['|', '|'], ['&', '&']] := rfl
  have hamp : ∀ {sep : Text}, '&' ∉ sep → '&' ∉ e.joined sep := fun h =>
    Expression.not_mem_joined h (by decide)
  -- Only the bars have a blank behind them; the operators are as tight as they can be.
  have htight : tightOperators.foldl tighten e.text = e.joined [' ', '|', '|'] := by
    rw [ho]
    simp only [List.foldl_cons, List.foldl_nil]
    rw [e.tighten_text (o := '<') (by decide), e.tighten_text (o := '>') (by decide),
      e.tighten_text (o := '=') (by decide), e.tighten_text (o := '~') (by decide),
      e.tighten_text (o := '^') (by decide), e.tighten_bars]
    exact Text.replaceAll_eq_self_of_not_mem (hamp (by decide)) _ _
  -- What is left of cleaning looks for characters that no range has, but for the bars.
  have hletters : dropVersionLetters (e.joined [' ', '|', '|']) = e.joined [' ', '|', '|'] :=
    dropVersionLetters_eq_self (Expression.not_mem_joined (by decide) (by decide))
      (Expression.not_mem_joined (by decide) (by decide))
  have hand : Text.replaceAll [' ', '&', '&'] [','] (e.joined ['|', '|']) = e.joined ['|', '|'] :=
    Text.replaceAll_eq_self (by simp)
      (Text.contains_eq_false (c := '&') (by simp) (hamp (by decide))) _
  have hand' : Text.replaceAll ['&', '&'] [','] (e.joined ['|', '|']) = e.joined ['|', '|'] :=
    Text.replaceAll_eq_self_of_not_mem (hamp (by decide)) _ _
  calc clean e.text
      = Text.replaceAll ['&', '&'] [','] (Text.replaceAll [' ', '&', '&'] [',']
          (Text.replaceAll [' ', '|', '|'] ['|', '|']
            (dropVersionLetters (tightOperators.foldl tighten e.text)))) := rfl
    _ = e.joined ['|', '|'] := by rw [htight, hletters, e.replaceAll_bars, hand, hand']

theorem isSettled_of_isItemChar {c : Char} (h : isItemChar c = true) :
    Text.isSettled c = true := by
  simp only [isItemChar, isAtomChar, Bool.or_eq_true, decide_eq_true_eq] at h
  rcases h with (((((((h | rfl) | rfl) | rfl) | rfl) | rfl) | rfl) | rfl) | rfl
  · exact Text.isSettled_of_isDigit h
  all_goals decide

theorem lower_text (e : Expression α) : Text.lower e.text = e.text := by
  refine Text.lower_eq_self fun c hc => ?_
  rcases Expression.mem_joined hc with hc | hc | rfl | rfl
  · simp only [List.mem_cons, List.not_mem_nil, or_false] at hc
    rcases hc with rfl | rfl | rfl | rfl <;> decide
  · exact isSettled_of_isItemChar hc
  · decide
  · decide

/-- **The tokens of a range** are those it was written with. -/
theorem tokenize_clean_text (e : Expression α) :
    tokenize (clean (Text.lower e.text)) = e.tokens := by
  have hf : e.tokens.flatten = e.joined ['|', '|'] := by
    rw [Expression.tokens, Expression.joined, Expression.alternatives, List.map_cons,
      Text.join_cons, List.flatten_append, Alternative.flatten_tokens,
      flatten_flatMap_tokens _ _ _ Alternative.flatten_tokens, List.flatMap_map]
  rw [lower_text, clean_text, ← hf, tokenize_flatten e.alternating_tokens]

end Grammar

end AssetBridge
