import AssetBridge.Proofs.Releases

/-!
# Parts of a constraint

Conversions write four kinds of parts: any version, a comparison with a release, a tilde range and
a release with wildcards. Each is read back as the bounds it stands for.

## Main definitions

* `Target.Mark`: the signs of comparisons
* `Target.Part`, `Part.text`, `Part.bounds`: a part, its text and its bounds
* `IsReleaseText`: the texts of releases, of whatever size

## Main results

* `IsReleaseText.parsePart_mark`: a comparison with a release is read as its bound
* `parsePart_text`: a part is read as its bounds
-/

namespace AssetBridge.Target

open Numeral (dotted points digits Fits)
open Grammar (Wildcard)

/-! ## Parts -/

/-- The signs that stand in front of a release. -/
inductive Mark where
  | none
  | equal
  | less
  | atMost
  | greater
  | atLeast
deriving DecidableEq, Repr

/-- The text of a sign. -/
def Mark.text : Mark → Text
  | none => []
  | equal => ['=']
  | less => ['<']
  | atMost => ['<', '=']
  | greater => ['>']
  | atLeast => ['>', '=']

/-- The comparison of a sign. No sign is a demand for equality. -/
def Mark.operator : Mark → Operator
  | none | equal => .eq
  | less => .lt
  | atMost => .le
  | greater => .gt
  | atLeast => .ge

/-- A part of a constraint. -/
inductive Part where
  | any
  | compare (mark : Mark) (ns : List Nat)
  | tilde (ns : List Nat)
  /-- A release with one wildcard or more behind it. -/
  | wild (ns : List Nat) (w : Wildcard) (ws : List Wildcard)
deriving DecidableEq, Repr

/-- Wildcards with a point in front of each. -/
def wildTail (ws : List Wildcard) : Text := ws.flatMap fun w => ['.', w.char]

/-- The text of a part. -/
def Part.text : Part → Text
  | any => ['*']
  | compare mark ns => mark.text ++ dotted ns
  | tilde ns => '~' :: dotted ns
  | wild ns w ws => dotted ns ++ wildTail (w :: ws)

/-- The bound of a comparison: the signs that speak of the whole release name its lowest version. -/
def Mark.bound (m : Mark) (ns : List Nat) : Bound :=
  ⟨m.operator, if m.operator.startsRelease then .lowestOf ns else .ofNumbers ns⟩

/-- **The bounds** that a part stands for. -/
def Part.bounds : Part → List Bound
  | any => []
  | compare mark ns => [mark.bound ns]
  | tilde ns => [⟨.ge, .lowestOf ns⟩, ⟨.lt, .lowestOf (bump ns (tildePosition ns))⟩]
  | wild ns _ _ => wildcardBounds ns

/-- Whether the numbers of a part can be read: one to three of ordinary size. -/
def Part.Fits : Part → Prop
  | any => True
  | compare _ ns | tilde ns | wild ns _ _ => Numeral.Fits ns ∧ ns.length ≤ 3

/-! ## Reading numbers -/

theorem readVersion_dotted {ns : List Nat} (h : Fits ns) :
    readVersion (dotted ns) = .ok (.ofNumbers ns) := by
  rw [readVersion, Version.parse_dotted h.isReadable]
  rfl

theorem mapM_readNumber {ns : List Nat} (h : ∀ n ∈ ns, n < 100000000) :
    (ns.map digits).mapM readNumber = .ok ns := by
  induction ns with
  | nil => rfl
  | cons n ns ih =>
    have hn : readNumber (digits n) = .ok n := by
      rw [readNumber, Numeral.read_digits (h n (by simp))]
      rfl
    rw [List.map_cons, List.mapM_cons, hn, ih fun m hm => h m (by simp [hm])]
    rfl

/-! ## Texts of releases -/

/-- A text of digits and points that opens with a digit. -/
structure IsReleaseText (s : Text) : Prop where
  exists_eq_cons : ∃ c r, s = c :: r ∧ c.isDigit = true
  isDigit_or_eq : ∀ c ∈ s, c.isDigit = true ∨ c = '.'

theorem isReleaseText_dotted {ns : List Nat} (h : ns ≠ []) : IsReleaseText (dotted ns) := by
  obtain ⟨n, ms, rfl⟩ := List.exists_cons_of_ne_nil h
  exact ⟨Numeral.exists_dotted_eq_cons n ms, fun _ => Numeral.isDigit_or_eq_of_mem_dotted⟩

namespace IsReleaseText

variable {s : Text}

theorem not_mem (h : IsReleaseText s) {c : Char}
    (hc : c.isDigit = false ∧ c ≠ '.') : c ∉ s := by
  intro hm
  rcases h.isDigit_or_eq c hm with hd | rfl
  · rw [hc.1] at hd
    cases hd
  · exact hc.2 rfl

theorem isBlank_eq_false (h : IsReleaseText s) {c : Char} (hc : c ∈ s) :
    Text.isBlank c = false := by
  rcases h.isDigit_or_eq c hc with hd | rfl
  · exact Text.isBlank_eq_false_of_isDigit hd
  · rfl

theorem word?_eq (h : IsReleaseText s) : word? s = some s := by
  obtain ⟨c, r, rfl, -⟩ := h.exists_eq_cons
  have hdrop : (c :: r).dropWhile Text.isBlank = c :: r :=
    (Text.scan_eq_of_head? fun d hd => h.isBlank_eq_false (List.mem_of_mem_head? hd)).2
  have hword := Text.scan_eq_of_forall (p := fun d => !Text.isBlank d) (s := c :: r)
    fun d hd => by simp [h.isBlank_eq_false hd]
  rw [word?]
  simp only [hdrop, hword.1, hword.2]
  rfl

end IsReleaseText

/-- What follows the numbers of a text stands in the text. -/
theorem mem_of_mem_pointNumbers {k : Nat} {s : Text} {c : Char} (h : c ∈ (pointNumbers k s).2) :
    c ∈ s := by
  -- Induction on the numbers that may be taken: each only drops what it read.
  induction k generalizing s with
  | zero => exact h
  | succ k ih =>
    rw [pointNumbers] at h
    split at h
    · rename_i ds r hp
      have hr : c ∈ r := ih h
      unfold pointNumber at hp
      split at hp
      · split at hp
        · cases hp
        · obtain ⟨-, rfl⟩ := Prod.mk.inj hp
          exact List.mem_cons_of_mem _ ((List.dropWhile_sublist _).mem hr)
      · cases hp
    · exact h

theorem exists_mem_of_isWildcardTail {s : Text} (h : isWildcardTail s = true) :
    ∃ c ∈ s, c = 'x' ∨ c = 'X' ∨ c = '*' := by
  unfold isWildcardTail at h
  split at h
  · rename_i c r
    simp only [Bool.and_eq_true, Bool.or_eq_true, decide_eq_true_eq] at h
    exact ⟨c, by simp, or_assoc.1 h.1⟩
  · cases h

/-- A text of a release has no wildcards. -/
theorem IsReleaseText.wildcardNumbers?_eq_none {s : Text} (h : IsReleaseText s) :
    wildcardNumbers? s = none := by
  obtain ⟨c, r, rfl, hd⟩ := h.exists_eq_cons
  have hv : dropSmallVersionLetter (c :: r) = c :: r := by
    have hne : c ≠ 'v' := Text.ne_of_isDigit hd rfl
    simp [dropSmallVersionLetter, hne]
  have hne : ((c :: r).takeWhile Text.isDecimal).isEmpty = false := by
    rw [List.takeWhile_cons_of_pos (Text.isDecimal_of_isDigit hd)]
    rfl
  -- Behind the numbers no wildcard can stand, since the text has none.
  have ht : isWildcardTail
      (pointNumbers 2 ((c :: r).dropWhile Text.isDecimal)).2 = false := by
    rw [Bool.eq_false_iff]
    intro hw
    obtain ⟨d, hd, hdw⟩ := exists_mem_of_isWildcardTail hw
    have hmem : d ∈ c :: r := (List.dropWhile_sublist _).mem (mem_of_mem_pointNumbers hd)
    rcases hdw with rfl | rfl | rfl <;> exact h.not_mem (by decide) hmem
  simp only [wildcardNumbers?, numbers?, hv, hne, Bool.false_eq_true, if_false, ht]

/-! ## Reading the kinds of parts -/

/-- A digit, or the first character of a sign. -/
def IsOpening (c : Char) : Prop := c.isDigit = true ∨ c = '=' ∨ c = '<' ∨ c = '>' ∨ c = '!'

theorem IsOpening.ne {c d : Char} (h : IsOpening c)
    (hd : d.isDigit = false ∧ d ≠ '=' ∧ d ≠ '<' ∧ d ≠ '>' ∧ d ≠ '!') : c ≠ d := by
  rcases h with h | rfl | rfl | rfl | rfl
  · exact Text.ne_of_isDigit h hd.1
  · exact hd.2.1.symm
  · exact hd.2.2.1.symm
  · exact hd.2.2.2.1.symm
  · exact hd.2.2.2.2.symm

/-- What opens the parts of other kinds: wildcards alone, branches, and tilde and caret ranges. -/
def otherOpenings : List Char := "*xXd~^".toList

theorem IsOpening.not_mem_otherOpenings {c : Char} (h : IsOpening c) : c ∉ otherOpenings := by
  have hall : ∀ d ∈ otherOpenings,
      d.isDigit = false ∧ d ≠ '=' ∧ d ≠ '<' ∧ d ≠ '>' ∧ d ≠ '!' := List.all_iff_forall_prop.1 rfl
  exact fun hm => h.ne (hall c hm) rfl

section Kinds

variable {c : Char} (hc : c ∉ otherOpenings)
include hc

/-- What opens otherwise is no word of the grammar and no branch. -/
theorem isOneOf_anyParts_of_not_mem (s : Text) :
    Text.isOneOf anyParts (c :: s) = false ∧ Text.startsWith branchPrefix (c :: s) = false := by
  have hne : ∀ d ∈ otherOpenings, d ≠ c := fun d hd h => hc (h ▸ hd)
  have hstar := hne '*' (by decide)
  have hx := hne 'x' (by decide)
  have hX := hne 'X' (by decide)
  have hd := hne 'd' (by decide)
  exact ⟨by simp [Text.isOneOf, anyParts, hstar, hx, hX], Text.startsWith_cons_eq_false hd _ _⟩

/-- **The reading of a part** that opens otherwise: no tilde and no caret, so wildcards are looked
for and then a sign. -/
theorem parsePart_eq (s : Text) : parsePart (c :: s) =
    match wildcardNumbers? (c :: s) with
    | some numbers => wildcardBounds <$> numbers.mapM readNumber
    | none =>
      match comparison? (c :: s) with
      | some (op, word) => (fun b => [b]) <$> comparisonBound op word
      | none => .error (.unrecognized (c :: s)) := by
  obtain ⟨hany, hbranch⟩ := isOneOf_anyParts_of_not_mem hc s
  have htilde : c ≠ '~' := fun h => hc (h ▸ by decide)
  have hcaret : c ≠ '^' := fun h => hc (h ▸ by decide)
  unfold parsePart
  rw [hany, hbranch]
  simp only [Bool.false_eq_true, if_false]
  split
  · exact absurd (List.cons.inj ‹_›).1 htilde
  · exact absurd (List.cons.inj ‹_›).1 hcaret
  · cases wildcardNumbers? (c :: s) with
    | some numbers =>
      simp only
      cases numbers.mapM readNumber <;> rfl
    | none =>
      cases comparison? (c :: s) with
      | some p =>
        simp only
        cases comparisonBound p.1 p.2 <;> rfl
      | none => rfl

/-- The reading of a version with wildcards. -/
theorem parsePart_of_wildcards {s : Text} {numbers : List Text}
    (hw : wildcardNumbers? (c :: s) = some numbers) :
    parsePart (c :: s) = wildcardBounds <$> numbers.mapM readNumber := by
  rw [parsePart_eq hc, hw]

/-- The reading of a comparison. -/
theorem parsePart_of_comparison {s word : Text} {op : Operator}
    (hw : wildcardNumbers? (c :: s) = none) (hs : comparison? (c :: s) = some (op, word)) :
    parsePart (c :: s) = (fun b => [b]) <$> comparisonBound op word := by
  rw [parsePart_eq hc, hw, hs]

end Kinds

theorem comparisonBound_dotted {ns : List Nat} (h : Fits ns) (op : Operator) :
    comparisonBound op (dotted ns) =
      .ok ⟨op, if op.startsRelease then .lowestOf ns else .ofNumbers ns⟩ := by
  -- The normal form of a release has no suffix, so its lowest version is the one that counts.
  have hn : '-' ∉ dotted (Version.padRelease ns) := Numeral.not_mem_dotted (by decide)
  rw [comparisonBound, readVersion_dotted h, normalize_dotted h.isReadable]
  show Except.ok (Bound.mk op _) = _
  cases op <;> simp [Operator.startsRelease, hn]

theorem signs_eq : signs = [(['<', '>'], .ne), (['!', '='], .ne), (['>', '='], .ge), (['>'], .gt),
    (['<', '='], .le), (['<'], .lt), (['=', '='], .eq), (['='], .eq)] := rfl

namespace IsReleaseText

variable {s : Text}

/-- A comparison with a release is taken apart into its sign and the release. -/
theorem comparison?_eq (h : IsReleaseText s) (m : Mark) :
    comparison? (m.text ++ s) = some (m.operator, s) := by
  have hw := h.word?_eq
  obtain ⟨c, r, rfl, hd⟩ := h.exists_eq_cons
  have hne : '<' ≠ c ∧ '>' ≠ c ∧ '=' ≠ c ∧ '!' ≠ c :=
    ⟨(Text.ne_of_isDigit hd rfl).symm, (Text.ne_of_isDigit hd rfl).symm,
      (Text.ne_of_isDigit hd rfl).symm, (Text.ne_of_isDigit hd rfl).symm⟩
  -- The longer signs are tried first, and a digit ends every sign.
  cases m <;>
    simp [comparison?, signs_eq, Mark.text, Mark.operator, Text.dropPrefix?, hne.1, hne.2.1,
      hne.2.2.1, hne.2.2.2, hw, List.findSome?]

theorem wildcardNumbers?_mark (h : IsReleaseText s) (m : Mark) :
    wildcardNumbers? (m.text ++ s) = none := by
  cases m with
  | none => exact h.wildcardNumbers?_eq_none
  | equal | less | atMost | greater | atLeast => rfl

theorem exists_mark_eq_cons (h : IsReleaseText s) (m : Mark) :
    ∃ c r, m.text ++ s = c :: r ∧ IsOpening c := by
  cases m with
  | none =>
    obtain ⟨c, r, hc, hd⟩ := h.exists_eq_cons
    exact ⟨c, r, hc, .inl hd⟩
  | equal => exact ⟨_, _, rfl, .inr (.inl rfl)⟩
  | less | atMost => exact ⟨_, _, rfl, .inr (.inr (.inl rfl))⟩
  | greater | atLeast => exact ⟨_, _, rfl, .inr (.inr (.inr (.inl rfl)))⟩

/-- **A comparison with a release** is read as its bound. -/
theorem parsePart_mark (h : IsReleaseText s) (m : Mark) :
    parsePart (m.text ++ s) = (fun b => [b]) <$> comparisonBound m.operator s := by
  have hw := h.wildcardNumbers?_mark m
  have hs := h.comparison?_eq m
  obtain ⟨c, r, hcr, hc⟩ := h.exists_mark_eq_cons m
  rw [hcr] at hw hs ⊢
  exact parsePart_of_comparison hc.not_mem_otherOpenings hw hs

end IsReleaseText

theorem parsePart_compare (m : Mark) {ns : List Nat} (h : Fits ns) :
    parsePart (m.text ++ dotted ns) = .ok [m.bound ns] := by
  rw [(isReleaseText_dotted h.ne_nil).parsePart_mark, comparisonBound_dotted h]
  rfl

theorem partialBounds_dotted {ns : List Nat} (h : Fits ns) (position : List Nat → Nat)
    (part : Text) : partialBounds position (dotted ns) part =
      .ok [⟨.ge, .lowestOf ns⟩, ⟨.lt, .lowestOf (bump ns (position ns))⟩] := by
  have hr := readVersion_dotted h
  have hm := mapM_readNumber h.lt
  obtain ⟨n, ms, rfl, -, hlen⟩ := h.exists_eq_cons
  have hn := numbers?_dotted n ms (k := 4) (r := []) (by omega) (by simp) rfl
  rw [List.append_nil] at hn
  have hp : partialVersion? (dotted (n :: ms)) = some ((n :: ms).map digits, false) := by
    rw [partialVersion?, hn]
    rfl
  rw [partialBounds, hp]
  simp only [hm, hr]
  rfl

theorem isWildcardTail_wildTail (w : Wildcard) (ws : List Wildcard) :
    isWildcardTail (wildTail (w :: ws)) = true := by
  have hw : ∀ v : Wildcard, (v.char = 'x' || v.char = 'X' || v.char = '*') = true := by
    intro v
    cases v <;> rfl
  -- Induction on the wildcards: behind each one the tail goes on or ends.
  induction ws generalizing w with
  | nil =>
    show ((w.char = 'x' || w.char = 'X' || w.char = '*') && (true || _)) = true
    rw [hw]
    rfl
  | cons v ws ih =>
    show ((w.char = 'x' || w.char = 'X' || w.char = '*') &&
      (Text.isFinal (wildTail (v :: ws)) || isWildcardTail (wildTail (v :: ws)))) = true
    rw [hw, ih, Bool.or_true]
    rfl

theorem wildcardNumbers?_wild {ns : List Nat} (h : ns ≠ []) (hl : ns.length ≤ 3) (w : Wildcard)
    (ws : List Wildcard) :
    wildcardNumbers? (dotted ns ++ wildTail (w :: ws)) = some (ns.map digits) := by
  obtain ⟨n, ms, rfl⟩ := List.exists_cons_of_ne_nil h
  have hp : pointNumber (wildTail (w :: ws)) = (none, wildTail (w :: ws)) := by
    have ht : (w.char :: wildTail ws).takeWhile Text.isDecimal = [] := by cases w <;> rfl
    show pointNumber ('.' :: w.char :: wildTail ws) = _
    rw [pointNumber, ht]
    rfl
  have hn := numbers?_dotted n ms (k := 3) (r := wildTail (w :: ws))
    (by simp at hl; omega) (by rintro c ⟨⟩; decide) hp
  rw [wildcardNumbers?, hn]
  simp only [isWildcardTail_wildTail, if_true]

/-! ## Reading a part -/

/-- **A part** is read as its bounds. -/
theorem parsePart_text {p : Part} (h : p.Fits) : parsePart p.text = .ok p.bounds := by
  cases p with
  | any => rfl
  | compare m ns => exact parsePart_compare m h.1
  | tilde ns =>
    have hp := partialBounds_dotted h.1 tildePosition ('~' :: dotted ns)
    exact hp
  | wild ns w ws =>
    obtain ⟨hf, hl⟩ := h
    have hn := wildcardNumbers?_wild hf.ne_nil hl w ws
    have hm := mapM_readNumber hf.lt
    obtain ⟨n, ms, rfl, -, -⟩ := hf.exists_eq_cons
    obtain ⟨c, r, hc, hd⟩ := Numeral.exists_dotted_eq_cons n ms
    rw [Part.text, hc, List.cons_append]
    rw [hc, List.cons_append] at hn
    rw [parsePart_of_wildcards (IsOpening.not_mem_otherOpenings (.inl hd)) hn, hm]
    rfl

end AssetBridge.Target
