import AssetBridge.Proofs.Runs
import AssetBridge.Proofs.Tokens
import AssetBridge.Source.Range

/-!
# The walk over a range

Between two items nothing is pending, so each item of a range becomes a text of its own whatever
stands around it. Only the item that opens the range is read differently: a lone number there
stands for all its versions, and an equals sign leaves no text.

## Main definitions

* `Operator.bound`, `Item.convert`, `Item.convertFirst`: the text of an item
* `Alternative.convert`, `Alternative.convertFirst`: the text of an alternative
* `later`: the text of tokens that do not open the range

## Main results

* `later_atom`, `later_lowSide`: a token behind pending marks and in front of a hyphen
* `later_item`, `later_alternative`: what an item and an alternative become
* `convertRange_text`: what a range becomes
-/

namespace AssetBridge

namespace Source

/-- The text that tokens become where they do not open the range. -/
def later (p : Pending) (ts : List Text) : Except Numeral.Error Text :=
  List.flatten <$> walk 1 true p ts

theorem Pending.isLoneMajor_of_ne_zero {i : Nat} (h : i ≠ 0) (s : Text) (next : Option Text) :
    isLoneMajor s i next = false := by
  simp [isLoneMajor, h]

/-- Only the first place of a range counts. -/
theorem Pending.step_of_ne_zero (p : Pending) {i : Nat} (h : i ≠ 0) (b : Bool) (t : Text)
    (next : Option Text) : p.step i b t next = p.step 1 b t next := by
  simp [step, atom, isLoneMajor_of_ne_zero h, isLoneMajor_of_ne_zero Nat.one_ne_zero]

theorem walk_of_ne_zero {i : Nat} (h : i ≠ 0) (p : Pending) (ts : List Text) :
    walk i true p ts = walk 1 true p ts := by
  -- Induction on the tokens: a step only asks whether its place is the first one.
  induction ts generalizing i p with
  | nil => rfl
  | cons t ts ih =>
    rw [walk, walk, p.step_of_ne_zero h]
    congr 1
    funext x
    simp only [Bool.true_or, ih (Nat.succ_ne_zero i), ih (Nat.succ_ne_zero 1)]

/-- A step of the walk behind the first place. -/
theorem later_cons (p : Pending) (t : Text) (ts : List Text) :
    later p (t :: ts) = do
      let x ← p.step 1 false t ts.head?
      let r ← later x.1 ts
      return (if ts.head? = some hyphenMarker then lowerSide x.2 else x.2) ++ r := by
  -- The rest starts at the second place, which counts like every later one.
  simp only [later, walk, Bool.not_true, Bool.false_and, Bool.true_or, map_bind,
    walk_of_ne_zero (Nat.succ_ne_zero 1), map_pure, List.flatten_cons]
  congr 1
  funext x
  cases walk 1 true x.1 ts <;> rfl

end Source

namespace Grammar

open Source

variable {α : Type} [Numeric α]

/-! ## The texts of items -/

/-- The marks that an operator leaves for the version behind it. -/
def Operator.marks : Operator → Pending
  | bare | equal => Pending.none
  | less | atMost => { comparator := some .less }
  | greater | atLeast => { comparator := some .greater }
  | caret => { modifier := some .caret }
  | tilde => { modifier := some .tilde }
  | tildeGreater => { modifier := some .tilde, comparator := some .greater }

/-- What an operator writes itself. -/
def Operator.written : Operator → Text
  | bare | caret => []
  | tilde | tildeGreater => ['~']
  | op => op.sign

/-- What an operator makes of the version behind it. -/
def Operator.bound : Operator → Text → Except Numeral.Error Text
  | bare, s | equal, s => convertVersion s
  | less, s | atMost, s => fillWildcards .upper <$> convertVersion s
  | greater, s | atLeast, s => fillWildcards .lower <$> convertVersion s
  | caret, s => expandCaret s
  | tilde, s => convertVersion (zeroWildcards s)
  | tildeGreater, s =>
    (fun t => fillWildcards .lower t ++ ',' :: '>' :: fillWildcards .lower t) <$>
      convertVersion (zeroWildcards s)

/-- The text of an item that does not open the range. -/
def Item.convert : Item α → Except Numeral.Error Text
  | star => .ok ['*']
  | version op v => (op.written ++ ·) <$> op.bound v.text

/-- The text of the item that opens the range: a lone number gets a tilde, and an equals sign is
left out. -/
def Item.convertFirst : Item α → Except Numeral.Error Text
  | version .bare (.major n) => convertVersion ('~' :: Numeric.digits n)
  | version .equal v => convertVersion v.text
  | i => i.convert

/-- Where an item or an alternative may end: at the end, before a blank, before a double bar or
before a comma. -/
def IsBoundary (ts : List Text) : Prop :=
  ts.head? = none ∨ ts.head? = some [' '] ∨ ts.head? = some ['|', '|'] ∨ ts.head? = some [',']

theorem IsBoundary.ne_hyphen {ts : List Text} (h : IsBoundary ts) :
    ts.head? ≠ some hyphenMarker := by
  rcases h with h | h | h | h <;> rw [h] <;> decide

theorem ofToken_eq_atom {t : Text} (hne : t ≠ []) (h : ∀ c ∈ t, isAtomChar c = true) (b : Bool) :
    TokenKind.ofToken t b = .atom := by
  obtain ⟨c, r, rfl⟩ := List.exists_cons_of_ne_nil hne
  -- Every other kind of token opens with a character that no version has.
  have hc : ∀ {d : Char}, isAtomChar d = false → c ≠ d := by
    intro d hd e
    simp [← e, h c (by simp)] at hd
  have hk : ∀ {d : Char} {s : Text}, isAtomChar d = false → c :: r ≠ d :: s := fun hd e =>
    hc hd (List.cons.inj e).1
  have h₁ : c :: r ≠ hyphenMarker := hk (d := ' ') (by decide)
  have h₂ : c :: r ≠ "=".toList := hk (d := '=') (by decide)
  have h₃ : Text.isOneOf [[], "<".toList, ">".toList, "=".toList, ",".toList] (c :: r) = false := by
    rw [Bool.eq_false_iff, ne_eq, Text.isOneOf_iff]
    intro hm
    simp only [List.mem_cons, List.not_mem_nil, or_false] at hm
    rcases hm with hm | hm | hm | hm | hm
    · cases hm
    · exact hk (d := '<') (by decide) hm
    · exact hk (d := '>') (by decide) hm
    · exact h₂ hm
    · exact hk (d := ',') (by decide) hm
  have h₄ : c :: r ≠ "~".toList := hk (d := '~') (by decide)
  have h₅ : c :: r ≠ "^".toList := hk (d := '^') (by decide)
  have h₆ : c :: r ≠ " ".toList := hk (d := ' ') (by decide)
  have h₇ : c :: r ≠ "||".toList := hk (d := '|') (by decide)
  simp only [TokenKind.ofToken, h₁, h₂, h₃, h₄, h₅, h₆, h₇, if_false, decide_false,
    Bool.false_and, Bool.false_eq_true]

theorem Atom.ofToken_text (v : Atom α) (b : Bool) : TokenKind.ofToken v.text b = .atom :=
  ofToken_eq_atom v.text_ne_nil (fun _ => Atom.isAtomChar_of_mem) b

/-- The step of a version. -/
theorem Atom.step_text (v : Atom α) (p : Pending) (i : Nat) (b : Bool) (next : Option Text) :
    p.step i b v.text next = p.atom v.text i next := by
  rw [Pending.step, v.ofToken_text]

theorem step_nil (p : Pending) (i : Nat) (b : Bool) (next : Option Text) :
    p.step i b [] next = .ok (p, []) := by
  show Except.ok (p, if p.absorbs = true then [] else []) = _
  rw [ite_self]

/-- A step that succeeds writes its text in front of what follows. -/
theorem later_of_step {p q : Pending} {t w : Text} {ts : List Text}
    (h : ts.head? ≠ some hyphenMarker) (hs : p.step 1 false t ts.head? = .ok (q, w)) :
    later p (t :: ts) = (w ++ ·) <$> later q ts := by
  rw [later_cons, hs]
  simp only [h, if_false]
  show (do let r ← later q ts; return w ++ r) = _
  cases later q ts <;> rfl

/-- A delimiter and the empty atom in front of it. -/
theorem later_delimiter {p q : Pending} {d w : Text} {ts : List Text} (hd : d ≠ hyphenMarker)
    (ht : ts.head? ≠ some hyphenMarker)
    (hs : ∀ next, p.step 1 false d next = .ok (q, w)) :
    later p ([] :: d :: ts) = (w ++ ·) <$> later q ts := by
  have hd' : (d :: ts).head? ≠ some hyphenMarker := by simpa using hd
  rw [later_of_step hd' (step_nil p 1 false _), later_of_step ht (hs _)]
  cases later q ts <;> rfl

/-- Two delimiters behind each other. -/
theorem later_delimiters {p q r : Pending} {d e v w : Text} {ts : List Text}
    (hd : d ≠ hyphenMarker) (he : e ≠ hyphenMarker) (ht : ts.head? ≠ some hyphenMarker)
    (hp : ∀ next, p.step 1 false d next = .ok (q, v))
    (hq : ∀ next, q.step 1 false e next = .ok (r, w)) :
    later p ([] :: d :: [] :: e :: ts) = (v ++ w ++ ·) <$> later r ts := by
  have hn : ([] :: e :: ts).head? ≠ some hyphenMarker := by simp [hyphenMarker]
  rw [later_delimiter hd hn hp, later_delimiter he ht hq]
  cases later r ts with
  | error e => rfl
  | ok t => exact congrArg Except.ok (List.append_assoc _ _ _).symm

/-- An operator writes its sign and leaves its marks. -/
theorem Operator.later_tokens (op : Operator) {s : Text} (hs : s ≠ hyphenMarker)
    (ts : List Text) : later Pending.none (op.tokens ++ s :: ts) =
      (op.written ++ ·) <$> later op.marks (s :: ts) := by
  have ht : (s :: ts).head? ≠ some hyphenMarker := by simpa using hs
  cases op
  case bare => cases h : later Pending.none (s :: ts) <;> simp [tokens, written, marks, h]
  case equal | less | greater | caret | tilde =>
    exact later_delimiter (q := marks _) (w := written _) (by decide) ht fun _ => rfl
  case atMost =>
    exact later_delimiters (q := less.marks) (v := ['<']) (w := ['=']) (by decide) (by decide) ht
      (fun _ => rfl) fun _ => rfl
  case atLeast =>
    exact later_delimiters (q := greater.marks) (v := ['>']) (w := ['=']) (by decide) (by decide)
      ht (fun _ => rfl) fun _ => rfl
  -- The comparator behind a tilde leaves its mark but writes no sign.
  case tildeGreater =>
    exact later_delimiters (q := tilde.marks) (v := ['~']) (w := []) (by decide) (by decide) ht
      (fun _ => rfl) fun _ => rfl

/-- Under the marks of an operator a version becomes its bound, and nothing stays pending. -/
theorem Operator.atom_marks (op : Operator) (s : Text) (next : Option Text) :
    op.marks.atom s 1 next = (fun t => (Pending.none, t)) <$> op.bound s := by
  have hl := Pending.isLoneMajor_of_ne_zero Nat.one_ne_zero s next
  cases op <;> simp only [marks, bound, Pending.atom, Pending.none, hl, Pending.finalize,
    Bool.false_eq_true, if_false, if_true]
  case caret => cases expandCaret s <;> rfl
  case tilde => cases convertVersion (zeroWildcards s) <;> rfl
  -- Both marks are pending: the bound is written twice, the second time behind the sign.
  case tildeGreater =>
    cases convertVersion (zeroWildcards s) with
    | error e => rfl
    | ok t => exact congrArg (fun u => Except.ok (Pending.none, u)) (List.append_assoc _ [_, _] _)
  all_goals cases convertVersion s <;> rfl

theorem atom_none (s : Text) (next : Option Text) :
    Pending.none.atom s 1 next = (fun t => (Pending.none, t)) <$> convertVersion s :=
  Operator.atom_marks .bare s next

section AtomToken

variable {s : Text} (hs : ∀ b, TokenKind.ofToken s b = .atom)
include hs

theorem ne_hyphenMarker_of_ofToken : s ≠ hyphenMarker := by
  rintro rfl
  exact absurd (hs false) (by decide)

/-- An atom that is converted and clears all marks. -/
theorem later_atom {p : Pending} {x : Except Numeral.Error Text}
    (hx : ∀ next, p.atom s 1 next = (fun t => (Pending.none, t)) <$> x) {ts : List Text}
    (h : IsBoundary ts) : later p (s :: ts) = do
      let t ← x
      let r ← later Pending.none ts
      return t ++ r := by
  rw [later_cons, Pending.step, hs]
  simp only [hx, h.ne_hyphen, if_false]
  cases x <;> rfl

/-- The left side of a hyphen range: the token behind it is the hyphen, so its text becomes a lower
bound. -/
theorem later_lowSide (ts : List Text) :
    later Pending.none (s :: hyphenMarker :: ts) = do
      let l ← convertVersion s
      let r ← later Pending.none (hyphenMarker :: ts)
      return lowerSide l ++ r := by
  rw [later_cons, Pending.step, hs]
  simp only [atom_none, List.head?_cons, if_true]
  cases convertVersion s <;> rfl

end AtomToken

theorem Atom.text_ne_hyphenMarker (v : Atom α) : v.text ≠ hyphenMarker :=
  ne_hyphenMarker_of_ofToken v.ofToken_text

theorem Atom.later_text (v : Atom α) {p : Pending} {x : Except Numeral.Error Text}
    (hx : ∀ next, p.atom v.text 1 next = (fun t => (Pending.none, t)) <$> x) {ts : List Text}
    (h : IsBoundary ts) : later p (v.text :: ts) = do
      let t ← x
      let r ← later Pending.none ts
      return t ++ r :=
  later_atom v.ofToken_text hx h

/-- A text in front of everything. -/
theorem append_bind {w : Text} {x y : Except Numeral.Error Text} :
    (w ++ ·) <$> (do let t ← x; let r ← y; return t ++ r) = do
      let t ← (w ++ ·) <$> x
      let r ← y
      return t ++ r := by
  cases x with
  | error e => rfl
  | ok t =>
    cases y with
    | error e => rfl
    | ok r => exact congrArg Except.ok (List.append_assoc _ _ _).symm

/-- **An item** becomes its own text, and nothing stays pending behind it. -/
theorem later_item (i : Item α) {ts : List Text} (h : IsBoundary ts) :
    later Pending.none (i.tokens ++ ts) = do
      let t ← i.convert
      let r ← later Pending.none ts
      return t ++ r := by
  cases i with
  | star =>
    have hs : Pending.none.step 1 false ['*'] ts.head? = .ok (Pending.none, ['*']) := rfl
    rw [Item.tokens, List.singleton_append, later_of_step h.ne_hyphen hs]
    cases later Pending.none ts <;> rfl
  | version op v =>
    rw [Item.tokens, List.append_assoc, List.singleton_append,
      op.later_tokens v.text_ne_hyphenMarker, v.later_text (op.atom_marks v.text) h, append_bind]
    rfl

/-! ## Lists of parts -/

/-- The text of the right side of a hyphen range: it belongs to the range when it names every
component, and is raised otherwise. -/
def Atom.convertHigh (v : Atom α) : Except Numeral.Error Text :=
  if isCompleteSide v.text then ([',', '<', '='] ++ ·) <$> convertVersion v.text
  else ([',', '<'] ++ ·) <$> (raisePartial v.text >>= convertVersion)

/-- The text of an alternative that does not open the range. -/
def Alternative.convert : Alternative α → Except Numeral.Error Text
  | all c => Text.join [','] <$> c.items.mapM Item.convert
  | hyphen low high => do
    let l ← convertVersion low.text
    let h ← high.convertHigh
    return lowerSide l ++ h

/-- The text of the alternative that opens the range. -/
def Alternative.convertFirst : Alternative α → Except Numeral.Error Text
  | all c => do return Text.join [','] ((← c.first.convertFirst) :: (← c.rest.mapM Item.convert))
  | a => a.convert

/-- Parts behind a delimiter each become their texts behind what the delimiter becomes. -/
theorem later_parts {β : Type} {tokens : β → List Text}
    {convert : β → Except Numeral.Error Text} {d w : Text}
    (hd : ∀ next, Pending.none.step 1 false d next = .ok (Pending.none, w))
    (hb : ∀ ts, IsBoundary (d :: ts))
    (hne : ∀ b ts, (tokens b ++ ts).head? ≠ some hyphenMarker)
    (h : ∀ b ts, IsBoundary ts → later Pending.none (tokens b ++ ts) = do
      let t ← convert b
      let r ← later Pending.none ts
      return t ++ r)
    (l : List β) {ts : List Text} (hts : IsBoundary ts) :
    later Pending.none ((l.flatMap fun b => d :: tokens b) ++ ts) = do
      let us ← l.mapM convert
      let r ← later Pending.none ts
      return us.flatMap (w ++ ·) ++ r := by
  -- Induction on the parts: behind each one stands the next delimiter, or what ends the list.
  induction l with
  | nil => cases h : later Pending.none ts <;> simp [h]
  | cons b l ih =>
    have hbl : IsBoundary ((l.flatMap fun b => d :: tokens b) ++ ts) := by
      cases l with
      | nil => simpa using hts
      | cons _ _ => exact hb _
    rw [List.flatMap_cons, List.append_assoc, List.cons_append, later_of_step (hne b _) (hd _),
      h b _ hbl, ih, List.mapM_cons]
    cases convert b with
    | error e => rfl
    | ok t =>
      cases l.mapM convert with
      | error e => rfl
      | ok us =>
        cases later Pending.none ts with
        | error e => rfl
        | ok r => exact congrArg Except.ok (by simp)

theorem Item.head?_tokens_append (i : Item α) (ts : List Text) :
    (i.tokens ++ ts).head? ≠ some hyphenMarker := by
  cases i with
  | star => simp [tokens, hyphenMarker]
  | version op v =>
    cases op
    case bare => simpa [tokens, Operator.tokens] using v.text_ne_hyphenMarker
    all_goals simp [tokens, Operator.tokens, hyphenMarker]

theorem later_items (l : List (Item α)) {ts : List Text} (h : IsBoundary ts) :
    later Pending.none ((l.flatMap fun i => [' '] :: i.tokens) ++ ts) = do
      let us ← l.mapM Item.convert
      let r ← later Pending.none ts
      return us.flatMap ([','] ++ ·) ++ r :=
  later_parts (fun _ => rfl) (fun _ => .inr (.inl rfl)) Item.head?_tokens_append
    (fun i _ => later_item i) l h

/-- A right side that names every component belongs to the hyphen range. -/
theorem later_completeSide {s : Text} (hs : ∀ b, TokenKind.ofToken s b = .atom)
    (hc : isCompleteSide s = true) {ts : List Text} (h : IsBoundary ts) :
    later Pending.none (hyphenMarker :: s :: ts) = do
      let t ← ([',', '<', '='] ++ ·) <$> convertVersion s
      let r ← later Pending.none ts
      return t ++ r := by
  have hp : Pending.none.step 1 false hyphenMarker (s :: ts).head? =
      .ok (Pending.none, [',', '<', '=']) :=
    congrArg Except.ok (show Pending.none.hyphen s = _ from if_pos hc)
  rw [later_of_step (by simpa using ne_hyphenMarker_of_ofToken hs) hp,
    later_atom hs (atom_none s) h, append_bind]

/-- The right side of a hyphen range takes the mark that its hyphen leaves. -/
theorem Atom.later_high (v : Atom α) {ts : List Text} (h : IsBoundary ts) :
    later Pending.none (hyphenMarker :: v.text :: ts) = do
      let t ← v.convertHigh
      let r ← later Pending.none ts
      return t ++ r := by
  have hv : (v.text :: ts).head? ≠ some hyphenMarker := by simpa using v.text_ne_hyphenMarker
  have hs : Pending.none.step 1 false hyphenMarker (v.text :: ts).head? =
      .ok (Pending.none.hyphen v.text) := rfl
  -- The hyphen looks at the side behind it and leaves a mark only when a component is missing.
  by_cases hc : isCompleteSide v.text = true
  · rw [convertHigh, if_pos hc]
    exact later_completeSide v.ofToken_text hc h
  · have hp : Pending.none.hyphen v.text =
        ({ modifier := some .partialUpperBound }, [',', '<']) := if_neg hc
    have hx : ∀ next, Pending.atom { modifier := some .partialUpperBound } v.text 1 next =
        (fun t => (Pending.none, t)) <$> (raisePartial v.text >>= convertVersion) := by
      intro next
      simp only [Pending.atom, Pending.finalize, Pending.none]
      cases raisePartial v.text with
      | error e => rfl
      | ok s => cases convertVersion s <;> simp
    rw [convertHigh, if_neg hc, later_of_step hv (hs.trans (congrArg _ hp)),
      v.later_text hx h, append_bind]

/-- The left side of a hyphen range and what is behind it. -/
theorem later_hyphen (low high : Atom α) {ts : List Text} (h : IsBoundary ts) :
    later Pending.none (low.text :: hyphenMarker :: high.text :: ts) = do
      let t ← (Alternative.hyphen low high).convert
      let r ← later Pending.none ts
      return t ++ r := by
  rw [later_lowSide low.ofToken_text, high.later_high h, Alternative.convert]
  cases convertVersion low.text with
  | error e => rfl
  | ok l =>
    cases high.convertHigh with
    | error e => rfl
    | ok t =>
      cases later Pending.none ts with
      | error e => rfl
      | ok r => exact congrArg Except.ok (List.append_assoc _ _ _).symm

/-- A first text and those behind it make the joined text. -/
theorem join_bind {w : Text} {x : Except Numeral.Error Text}
    {y : Except Numeral.Error (List Text)} {z : Except Numeral.Error Text} :
    (do
      let t ← x
      let r ← (do let us ← y; let r ← z; return us.flatMap (w ++ ·) ++ r)
      return t ++ r) = do
      let t ← (do return Text.join w ((← x) :: (← y)))
      let r ← z
      return t ++ r := by
  cases x with
  | error e => rfl
  | ok t =>
    cases y with
    | error e => rfl
    | ok us =>
      cases z with
      | error e => rfl
      | ok r => exact congrArg Except.ok (by rw [Text.join_cons, List.append_assoc])

theorem isBoundary_items (l : List (Item α)) {ts : List Text} (h : IsBoundary ts) :
    IsBoundary ((l.flatMap fun i => [' '] :: i.tokens) ++ ts) := by
  cases l with
  | nil => simpa using h
  | cons _ _ => exact .inr (.inl rfl)

/-- **An alternative** becomes its own text, and nothing stays pending behind it. -/
theorem later_alternative (a : Alternative α) {ts : List Text} (h : IsBoundary ts) :
    later Pending.none (a.tokens ++ ts) = do
      let t ← a.convert
      let r ← later Pending.none ts
      return t ++ r := by
  cases a with
  | all c =>
    have hc : (Alternative.all c).convert =
        (do return Text.join [','] ((← c.first.convert) :: (← c.rest.mapM Item.convert))) := by
      simp [Alternative.convert, Conjunction.items]
    rw [Alternative.tokens, Conjunction.tokens, List.append_assoc,
      later_item _ (isBoundary_items _ h), later_items _ h, hc, join_bind]
  | hyphen low high => exact later_hyphen low high h

theorem Alternative.head?_tokens_append (a : Alternative α) (ts : List Text) :
    (a.tokens ++ ts).head? ≠ some hyphenMarker := by
  cases a with
  | all c =>
    rw [tokens, Conjunction.tokens, List.append_assoc]
    exact c.first.head?_tokens_append _
  | hyphen low high => simpa [tokens] using low.text_ne_hyphenMarker

/-! ## The opening of a range -/

/-- The text that the tokens of a range become. -/
def opening (ts : List Text) : Except Numeral.Error Text :=
  List.flatten <$> walk 0 false Pending.none ts

/-- The first token of a range that is not empty. -/
theorem opening_cons {t : Text} (ht : t ≠ []) (ts : List Text) :
    opening (t :: ts) = do
      let x ← Pending.none.step 0 true t ts.head?
      let r ← later x.1 ts
      return (if ts.head? = some hyphenMarker then lowerSide x.2 else x.2) ++ r := by
  have he : t.isEmpty = false := by simpa using ht
  simp only [opening, later, walk, he, Bool.not_false, Bool.true_and, Bool.or_true, map_bind,
    map_pure, List.flatten_cons]
  congr 1
  funext x
  cases walk 1 true x.1 ts <;> rfl

/-- The delimiter that opens a range, behind an empty atom. -/
theorem opening_delimiter {d : Text} {ts : List Text} (hd : d ≠ []) (hh : d ≠ hyphenMarker) :
    opening ([] :: d :: ts) = do
      let x ← Pending.none.step 1 true d ts.head?
      let r ← later x.1 ts
      return (if ts.head? = some hyphenMarker then lowerSide x.2 else x.2) ++ r := by
  have he : d.isEmpty = false := by simpa using hd
  have hh' : (d :: ts).head? ≠ some hyphenMarker := by simpa using hh
  -- The empty atom takes the first place but opens nothing, so the delimiter still does.
  rw [opening, walk, step_nil]
  show List.flatten <$> (do
    let behind ← walk 1 false Pending.none (d :: ts)
    return (if (d :: ts).head? = some hyphenMarker then lowerSide [] else []) :: behind) = _
  simp only [hh', if_false, later, walk, he, Bool.not_false, Bool.true_and, Bool.or_true,
    walk_of_ne_zero (Nat.succ_ne_zero 1), map_bind, map_pure, bind_assoc, pure_bind,
    List.flatten_cons, List.nil_append]
  congr 1
  funext x
  cases walk 1 true x.1 ts <;> rfl

/-- A delimiter that means the same wherever it stands. -/
theorem opening_eq_later {d : Text} {ts : List Text} (hd : d ≠ []) (hh : d ≠ hyphenMarker)
    (hs : ∀ next, Pending.none.step 1 true d next = Pending.none.step 1 false d next) :
    opening ([] :: d :: ts) = later Pending.none ([] :: d :: ts) := by
  have hh' : (d :: ts).head? ≠ some hyphenMarker := by simpa using hh
  rw [opening_delimiter hd hh, later_of_step hh' (step_nil _ 1 false _), later_cons, hs]
  cases Pending.none.step 1 false d ts.head? with
  | error e => rfl
  | ok x => cases later x.1 ts <;> simp

/-- An operator other than the equals sign means the same where it opens the range. -/
theorem opening_operator {op : Operator} (hb : op ≠ .bare) (he : op ≠ .equal) (ts : List Text) :
    opening (op.tokens ++ ts) = later Pending.none (op.tokens ++ ts) := by
  -- Each of them has a delimiter of its own, whose step does not ask where it stands.
  obtain ⟨d, us, ht, hd, hh, hs⟩ : ∃ d us, op.tokens = [] :: d :: us ∧ d ≠ [] ∧ d ≠ hyphenMarker ∧
      ∀ next, Pending.none.step 1 true d next = Pending.none.step 1 false d next := by
    cases op with
    | bare => exact absurd rfl hb
    | equal => exact absurd rfl he
    | less | atMost | greater | atLeast | caret | tilde | tildeGreater =>
      exact ⟨_, _, rfl, by decide, by decide, fun _ => rfl⟩
  rw [ht]
  exact opening_eq_later hd hh hs

/-- A run of digits is a number. -/
theorem isNumeric_digits (n : α) : Numeral.isNumeric (Numeric.digits n) = true := by
  obtain ⟨c, r, hc⟩ := List.exists_cons_of_ne_nil (Numeric.digits_ne_nil n)
  have hd : ∀ d ∈ c :: r, d.isDigit = true := fun d h => Numeric.isDigit_of_mem (hc ▸ h)
  have hcd : c.isDigit = true := hd c (by simp)
  have hb : Text.isBlank c = false := Text.isBlank_eq_false_of_isDigit hcd
  have hs : Numeral.dropSign (c :: r) = c :: r :=
    Numeral.dropSign_cons (Text.isDecimal_of_isDigit hcd) r
  have ht : (c :: r).takeWhile Text.isDecimal = c :: r := by
    simpa using Text.takeWhile_isDecimal_append hd []
  have hr : (c :: r).dropWhile Text.isDecimal = [] := by
    simpa using Text.dropWhile_isDecimal_append hd []
  simp [Numeral.isNumeric, hc, hb, hs, ht, hr, Numeral.endsNumber]

/-- Only a lone number is read in its own way where it opens the range. -/
theorem isLoneMajor_text (v : Atom α) {ts : List Text} (h : IsBoundary ts) :
    Pending.isLoneMajor v.text 0 ts.head? = match v with
      | .major _ => true
      | _ => false := by
  have hn : ts.head? ≠ some ['-'] := by
    rcases h with h | h | h | h <;> rw [h] <;> decide
  -- All other versions have a point.
  cases v with
  | major n =>
    have hp : '.' ∉ Numeric.digits n := fun hp => absurd (Numeric.isDigit_of_mem hp) (by decide)
    simp [Pending.isLoneMajor, Atom.text, hp, isNumeric_digits, h.ne_hyphen, hn]
  | _ => simp [Pending.isLoneMajor, Atom.text]

/-- **The item that opens a range** and what is behind it. -/
theorem opening_item (i : Item α) {ts : List Text} (h : IsBoundary ts) :
    opening (i.tokens ++ ts) = do
      let t ← i.convertFirst
      let r ← later Pending.none ts
      return t ++ r := by
  cases i with
  | star =>
    -- no mark is pending, and a star is not a number
    have hs : Pending.none.step 0 true ['*'] ts.head? = .ok (Pending.none, ['*']) := rfl
    rw [Item.tokens, List.singleton_append, opening_cons (by simp), hs]
    simp only [h.ne_hyphen, if_false]
    rfl
  | version op v =>
    have hv : (v.text :: ts).head? ≠ some hyphenMarker := by simpa using v.text_ne_hyphenMarker
    have hl := isLoneMajor_text v h
    cases op with
    | bare =>
      -- the version stands at the first place, where a lone number gets its tilde
      have hs : Pending.none.atom v.text 0 ts.head? =
          (fun t => (Pending.none, t)) <$> (Item.version .bare v).convertFirst := by
        simp only [Pending.atom, Pending.none, hl, Pending.finalize]
        cases v <;> simp only [Item.convertFirst, Item.convert, Operator.bound, Operator.written,
          Atom.text, if_true, if_false, Bool.false_eq_true] <;>
        cases convertVersion _ <;> rfl
      rw [Item.tokens, Operator.tokens, List.nil_append, List.singleton_append,
        opening_cons v.text_ne_nil, v.step_text, hs]
      simp only [h.ne_hyphen, if_false]
      cases (Item.version .bare v).convertFirst <;> rfl
    | equal =>
      -- the sign leaves no text but a mark that the version behind it clears
      have hs : Pending.none.step 1 true ['='] (v.text :: ts).head? =
          .ok ({ modifier := some .equalAtStart }, []) := rfl
      have hx : ∀ next, Pending.atom { modifier := some .equalAtStart } v.text 1 next =
          (fun t => (Pending.none, t)) <$> convertVersion v.text := by
        intro next
        simp only [Pending.atom, Pending.finalize]
        cases convertVersion v.text <;> rfl
      have ht : (Item.version .equal v).tokens ++ ts = [] :: ['='] :: v.text :: ts := rfl
      rw [ht, opening_delimiter (by simp) (by decide), hs]
      simp only [hv, if_false]
      show (do let r ← later { modifier := some .equalAtStart } (v.text :: ts); return [] ++ r) = _
      rw [v.later_text hx h]
      cases hc : convertVersion v.text with
      | error e => simp [Item.convertFirst, hc]
      | ok t => cases hr : later Pending.none ts <;> simp [Item.convertFirst, hc]
    | less | atMost | greater | atLeast | caret | tilde | tildeGreater =>
      -- every other operator means the same at the first place
      rw [Item.tokens, List.append_assoc, opening_operator (by decide) (by decide),
        ← List.append_assoc, ← Item.tokens, later_item _ h]
      rfl

/-- The left side of a hyphen range is read the same where it opens the range. -/
theorem opening_lowSide {s : Text} (hs : ∀ b, TokenKind.ofToken s b = .atom) (hne : s ≠ [])
    (ts : List Text) :
    opening (s :: hyphenMarker :: ts) = later Pending.none (s :: hyphenMarker :: ts) := by
  -- A number in front of a hyphen is not a lone one, so it gets no tilde.
  have hl : Pending.isLoneMajor s 0 (some hyphenMarker) = false := by
    simp [Pending.isLoneMajor]
  rw [opening_cons hne, later_cons, List.head?_cons, Pending.step, Pending.step, hs, hs]
  simp only [Pending.atom, Pending.none, hl, Pending.isLoneMajor_of_ne_zero Nat.one_ne_zero]

/-- **The alternative that opens a range** and what is behind it. -/
theorem opening_alternative (a : Alternative α) {ts : List Text} (h : IsBoundary ts) :
    opening (a.tokens ++ ts) = do
      let t ← a.convertFirst
      let r ← later Pending.none ts
      return t ++ r := by
  cases a with
  | all c =>
    rw [Alternative.tokens, Conjunction.tokens, List.append_assoc,
      opening_item _ (isBoundary_items _ h), later_items _ h, join_bind]
    rfl
  | hyphen low high =>
    exact (opening_lowSide low.ofToken_text low.text_ne_nil _).trans (later_hyphen low high h)

/-- **A range** becomes the texts of its alternatives between single bars. -/
theorem convertRange_text (e : Expression α) :
    convertRange e.text = do
      return Text.join ['|'] ((← e.first.convertFirst) :: (← e.rest.mapM Alternative.convert)) := by
  have hb : ∀ l : List (Alternative α),
      IsBoundary ((l.flatMap fun a => ['|', '|'] :: a.tokens) ++ []) := by
    intro l
    cases l with
    | nil => exact .inl rfl
    | cons _ _ => exact .inr (.inr (.inl rfl))
  -- The alternatives behind the first are parts behind a double bar, up to the end.
  have hl := later_parts (d := ['|', '|']) (w := ['|']) (fun _ => rfl)
    (fun _ => .inr (.inr (.inl rfl))) Alternative.head?_tokens_append
    (fun a _ => later_alternative a) e.rest (show IsBoundary [] from .inl rfl)
  have ho := opening_alternative e.first (hb e.rest)
  rw [hl, join_bind, List.append_nil] at ho
  rw [convertRange, tokenize_clean_text]
  show opening e.tokens = _
  rw [Expression.tokens, ho]
  cases e.first.convertFirst with
  | error _ => rfl
  | ok t =>
    cases e.rest.mapM Alternative.convert with
    | error _ => rfl
    | ok us => exact congrArg Except.ok (List.append_nil _)

end Grammar

end AssetBridge
