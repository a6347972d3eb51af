import AssetBridge.Proofs.Digits
import AssetBridge.Proofs.Splitting

/-!
# The grammar of ranges

Ranges as they are usually written: alternatives between double bars, each a hyphen range or a
list of items between single blanks, each item an operator and a version of one to three
components of which the last may be wildcards. Statements about whole ranges are inductions over
these trees.

## Main definitions

* `Numeric`, `DigitRun`: how the numbers of a range are written
* `Atom`, `Operator`, `Item`, `Conjunction`, `Alternative`, `Expression`: the trees
* `Atom.text` up to `Expression.text`: the texts they stand for
* `Expression.Forall`: what holds of all pieces of a range
* `Expression.Within`: ranges of ordinary size

## Main results

* `Atom.isAtomChar_of_mem`, `Item.isItemChar_of_mem`: the characters of the texts
* `Conjunction.ends_text`: the ends of a list of items
-/

namespace AssetBridge.Grammar

/-! ## Numbers -/

/-- Numbers that are written as runs of ASCII digits. -/
class Numeric (α : Type) where
  digits : α → Text
  digits_ne_nil (n : α) : digits n ≠ []
  isDigit_of_mem {n : α} {c : Char} : c ∈ digits n → c.isDigit = true

/-- A number is written without leading zeros. -/
instance : Numeric Nat := ⟨Numeral.digits, Numeral.digits_ne_nil, Numeral.isDigit_of_mem_digits⟩

/-- Any run of digits, of whatever length and with leading zeros or without. -/
structure DigitRun where
  digits : Text
  digits_ne_nil : digits ≠ []
  isDigit_of_mem : ∀ c ∈ digits, c.isDigit = true

instance : Numeric DigitRun :=
  ⟨DigitRun.digits, DigitRun.digits_ne_nil, DigitRun.isDigit_of_mem _ _⟩

/-! ## Trees -/

/-- The two spellings of a component that is left open. -/
inductive Wildcard where
  | letter
  | star
deriving DecidableEq, Repr

/-- The character of a wildcard. -/
def Wildcard.char : Wildcard → Char
  | letter => 'x'
  | star => '*'

/-- A version of one to three components: numbers, and wildcards behind them. -/
inductive Atom (α : Type) where
  | major (n : α)
  | minor (n m : α)
  | patch (n m p : α)
  | majorWild (n : α) (w : Wildcard)
  | majorWilds (n : α) (w w' : Wildcard)
  | minorWild (n m : α) (w : Wildcard)
deriving DecidableEq, Repr

/-- What may stand in front of a version. -/
inductive Operator where
  | bare
  | equal
  | less
  | atMost
  | greater
  | atLeast
  | caret
  | tilde
  | tildeGreater
deriving DecidableEq, Repr

/-- A condition of a conjunction: an operator with a version, or a lone star. -/
inductive Item (α : Type) where
  | star
  | version (op : Operator) (v : Atom α)
deriving DecidableEq, Repr

/-- One or more items that have to hold together. -/
structure Conjunction (α : Type) where
  first : Item α
  rest : List (Item α) := []
deriving DecidableEq, Repr

/-- A conjunction or a hyphen range. -/
inductive Alternative (α : Type) where
  | all (c : Conjunction α)
  | hyphen (low high : Atom α)
deriving DecidableEq, Repr

/-- A range: one or more alternatives. -/
structure Expression (α : Type) where
  first : Alternative α
  rest : List (Alternative α) := []
deriving DecidableEq, Repr

/-- The items of a conjunction, from left to right. -/
def Conjunction.items {α : Type} (c : Conjunction α) : List (Item α) := c.first :: c.rest

/-- The alternatives of a range, from left to right. -/
def Expression.alternatives {α : Type} (e : Expression α) : List (Alternative α) :=
  e.first :: e.rest

/-! ## Texts -/

section Texts

variable {α : Type} [Numeric α]

open Numeric (digits)

/-- The text of a version. -/
def Atom.text : Atom α → Text
  | major n => digits n
  | minor n m => digits n ++ '.' :: digits m
  | patch n m p => digits n ++ '.' :: (digits m ++ '.' :: digits p)
  | majorWild n w => digits n ++ ['.', w.char]
  | majorWilds n w w' => digits n ++ ['.', w.char, '.', w'.char]
  | minorWild n m w => digits n ++ '.' :: (digits m ++ ['.', w.char])

/-- The sign of an operator. -/
def Operator.sign : Operator → Text
  | bare => []
  | equal => ['=']
  | less => ['<']
  | atMost => ['<', '=']
  | greater => ['>']
  | atLeast => ['>', '=']
  | caret => ['^']
  | tilde => ['~']
  | tildeGreater => ['~', '>']

/-- The text of an item. -/
def Item.text : Item α → Text
  | star => ['*']
  | version op v => op.sign ++ v.text

/-- The text of a conjunction: single blanks between the items. -/
def Conjunction.text (c : Conjunction α) : Text := Text.join [' '] (c.items.map Item.text)

/-- The text of an alternative. -/
def Alternative.text : Alternative α → Text
  | all c => c.text
  | hyphen low high => low.text ++ [' ', '-', ' '] ++ high.text

/-- The alternatives of a range behind each other, with a text between them. -/
def Expression.joined (sep : Text) (e : Expression α) : Text :=
  Text.join sep (e.alternatives.map Alternative.text)

/-- The text of a range: a double bar between single blanks between the alternatives. -/
def Expression.text (e : Expression α) : Text := e.joined [' ', '|', '|', ' ']

end Texts

/-! ## Conditions on ranges -/

section Conditions

variable {α : Type}

/-- The number that a version opens with. -/
def Atom.first : Atom α → α
  | major n | minor n _ | patch n _ _ | majorWild n _ | majorWilds n _ _ | minorWild n _ _ => n

/-- The numbers of a version. -/
def Atom.numbers : Atom α → List α
  | major n | majorWild n _ | majorWilds n _ _ => [n]
  | minor n m | minorWild n m _ => [n, m]
  | patch n m p => [n, m, p]

/-- The wildcards behind the numbers. -/
def Atom.wilds : Atom α → List Wildcard
  | major _ | minor _ _ | patch _ _ _ => []
  | majorWild _ w | minorWild _ _ w => [w]
  | majorWilds _ w w' => [w, w']

/-- The operator of an item; a lone star has none. -/
def Item.operator : Item α → Operator
  | star => .bare
  | version op _ => op

/-- What holds of every item of a conjunction, or of the two sides of a hyphen range. -/
def Alternative.Forall (p : Item α → Prop) (q : Atom α → Atom α → Prop) : Alternative α → Prop
  | all c => ∀ i ∈ c.items, p i
  | hyphen low high => q low high

/-- What holds of every item and of the two sides of every hyphen range. -/
def Expression.Forall (p : Item α → Prop) (q : Atom α → Atom α → Prop) (e : Expression α) : Prop :=
  ∀ a ∈ e.alternatives, a.Forall p q

theorem Alternative.Forall.mono {p p' : Item α → Prop} {q q' : Atom α → Atom α → Prop}
    {a : Alternative α} (h : a.Forall p q) (hp : ∀ i, p i → p' i)
    (hq : ∀ low high, q low high → q' low high) : a.Forall p' q' := by
  cases a with
  | all c => exact fun i hi => hp i (h i hi)
  | hyphen low high => exact hq low high h

theorem Expression.Forall.mono {p p' : Item α → Prop} {q q' : Atom α → Atom α → Prop}
    {e : Expression α} (h : e.Forall p q) (hp : ∀ i, p i → p' i)
    (hq : ∀ low high, q low high → q' low high) : e.Forall p' q' :=
  fun a ha => (h a ha).mono hp hq

/-- The first number is at most 99998 and the others are at most `k`. -/
structure Atom.Within (k : Nat) (v : Atom Nat) : Prop where
  first_le : v.first ≤ 99998
  le : ∀ m ∈ v.numbers.tail, m ≤ k

/-- An item whose version is of ordinary size. -/
def Item.Within (k : Nat) : Item Nat → Prop
  | star => True
  | version _ v => v.Within k

/-- An alternative of ordinary size. -/
def Alternative.Within (k : Nat) : Alternative Nat → Prop :=
  Alternative.Forall (Item.Within k) fun low high => low.Within k ∧ high.Within k

/-- A range of ordinary size. -/
def Expression.Within (k : Nat) : Expression Nat → Prop :=
  Expression.Forall (Item.Within k) fun low high => low.Within k ∧ high.Within k

instance (p : Item α → Prop) (q : Atom α → Atom α → Prop) [DecidablePred p]
    [∀ low high, Decidable (q low high)] : DecidablePred (Alternative.Forall p q)
  | .all c => inferInstanceAs (Decidable (∀ i ∈ c.items, p i))
  | .hyphen low high => inferInstanceAs (Decidable (q low high))

instance (p : Item α → Prop) (q : Atom α → Atom α → Prop) [DecidablePred p]
    [∀ low high, Decidable (q low high)] : DecidablePred (Expression.Forall p q) :=
  fun e => inferInstanceAs (Decidable (∀ a ∈ e.alternatives, a.Forall p q))

instance (k : Nat) (v : Atom Nat) : Decidable (v.Within k) :=
  decidable_of_iff (v.first ≤ 99998 ∧ ∀ m ∈ v.numbers.tail, m ≤ k)
    ⟨fun h => ⟨h.1, h.2⟩, fun h => ⟨h.1, h.2⟩⟩

instance (k : Nat) : DecidablePred (Item.Within k)
  | .star => isTrue trivial
  | .version _ v => inferInstanceAs (Decidable (v.Within k))

instance (k : Nat) (e : Expression Nat) : Decidable (e.Within k) :=
  inferInstanceAs (Decidable (e.Forall _ _))

end Conditions

/-! ## Characters -/

section Characters

variable {α : Type} [Numeric α]

open Numeric (digits)

/-- The characters of a version. -/
def isAtomChar (c : Char) : Bool := c.isDigit || c = '.' || c = 'x' || c = '*'

/-- The characters of an item. -/
def isItemChar (c : Char) : Bool :=
  isAtomChar c || c = '<' || c = '>' || c = '=' || c = '~' || c = '^'

theorem isAtomChar_of_isDigit {c : Char} (h : c.isDigit = true) : isAtomChar c = true := by
  simp [isAtomChar, h]

theorem isItemChar_of_isAtomChar {c : Char} (h : isAtomChar c = true) : isItemChar c = true := by
  simp [isItemChar, h]

theorem isBlank_eq_false_of_isItemChar {c : Char} (h : isItemChar c = true) :
    Text.isBlank c = false := by
  simp only [isItemChar, isAtomChar, Bool.or_eq_true, decide_eq_true_eq] at h
  rcases h with (((((((h | rfl) | rfl) | rfl) | rfl) | rfl) | rfl) | rfl) | rfl
  · exact Text.isBlank_eq_false_of_isDigit h
  all_goals decide

@[simp] theorem Wildcard.isAtomChar_char (w : Wildcard) : isAtomChar w.char = true := by
  cases w <;> rfl

theorem isAtomChar_of_mem_digits {n : α} {c : Char} (h : c ∈ digits n) : isAtomChar c = true :=
  isAtomChar_of_isDigit (Numeric.isDigit_of_mem h)

namespace Atom

theorem isAtomChar_of_mem {v : Atom α} {c : Char} (h : c ∈ v.text) : isAtomChar c = true := by
  have hd : isAtomChar '.' = true := rfl
  cases v <;> simp only [text, List.mem_append, List.mem_cons, List.not_mem_nil, or_false] at h <;>
    grind [isAtomChar_of_mem_digits, Wildcard.isAtomChar_char]

theorem not_mem_text {v : Atom α} {c : Char} (h : isAtomChar c = false) :
    c ∉ v.text := by
  intro hm
  rw [isAtomChar_of_mem hm] at h
  cases h

theorem isBlank_eq_false_of_mem {v : Atom α} {c : Char} (h : c ∈ v.text) :
    Text.isBlank c = false :=
  isBlank_eq_false_of_isItemChar (isItemChar_of_isAtomChar (isAtomChar_of_mem h))

/-- A version opens with its first number. -/
theorem exists_text_eq (v : Atom α) : ∃ r, v.text = digits v.first ++ r := by
  cases v with
  | major n => exact ⟨[], by simp [text, first]⟩
  | _ => exact ⟨_, rfl⟩

theorem exists_text_eq_cons (v : Atom α) : ∃ c r, v.text = c :: r ∧ c.isDigit = true := by
  obtain ⟨r, hr⟩ := v.exists_text_eq
  obtain ⟨c, ds, hc⟩ := List.exists_cons_of_ne_nil (Numeric.digits_ne_nil v.first)
  exact ⟨c, ds ++ r, by simp [hr, hc], Numeric.isDigit_of_mem (n := v.first) (by simp [hc])⟩

theorem text_ne_nil (v : Atom α) : v.text ≠ [] := by
  obtain ⟨c, r, h, -⟩ := v.exists_text_eq_cons
  simp [h]

end Atom

namespace Item

theorem isItemChar_of_mem {i : Item α} {c : Char} (h : c ∈ i.text) : isItemChar c = true := by
  cases i with
  | star => simp_all [text, isItemChar, isAtomChar]
  | version op v =>
    rcases List.mem_append.1 h with h | h
    · cases op <;> simp [Operator.sign] at h <;> grind [isItemChar]
    · exact isItemChar_of_isAtomChar (Atom.isAtomChar_of_mem h)

/-- An item opens with a character of its own. -/
theorem exists_text_eq_cons (i : Item α) : ∃ c r, i.text = c :: r ∧ isItemChar c = true := by
  have hne : i.text ≠ [] := by
    cases i with
    | star => simp [text]
    | version op v => simp [text, v.text_ne_nil]
  obtain ⟨c, r, h⟩ := List.exists_cons_of_ne_nil hne
  exact ⟨c, r, h, isItemChar_of_mem (i := i) (by simp [h])⟩

theorem text_ne_nil (i : Item α) : i.text ≠ [] := by
  obtain ⟨c, r, h, -⟩ := i.exists_text_eq_cons
  simp [h]

/-- An item ends with a character of a version. -/
theorem isAtomChar_of_getLast? {i : Item α} {c : Char} (h : c ∈ i.text.getLast?) :
    isAtomChar c = true := by
  cases i with
  | star => simp [text] at h; simp [← h, isAtomChar]
  | version op v =>
    have hl := List.getLast?_eq_some_getLast v.text_ne_nil
    rw [text, List.getLast?_append, hl, Option.some_or] at h
    exact Atom.isAtomChar_of_mem (List.mem_of_getLast? (hl.trans h))

end Item

theorem Conjunction.mem_text {d : Conjunction α} {c : Char} (h : c ∈ d.text) :
    isItemChar c = true ∨ c = ' ' := by
  rcases Text.mem_join h with h | ⟨t, ht, h⟩
  · exact .inr (by simpa using h)
  · obtain ⟨i, -, rfl⟩ := List.mem_map.1 ht
    exact .inl (Item.isItemChar_of_mem h)

/-- A conjunction begins and ends with an item. -/
theorem Conjunction.ends_text (d : Conjunction α) : d.text ≠ [] ∧
    (∀ c ∈ d.text.head?, isItemChar c = true) ∧ ∀ c ∈ d.text.getLast?, isItemChar c = true := by
  have hitems : ∀ t ∈ d.first.text :: d.rest.map Item.text, ∃ i : Item α, i.text = t := by
    intro t ht
    obtain ⟨i, -, hi⟩ := List.mem_map.1 (show t ∈ d.items.map Item.text from ht)
    exact ⟨i, hi⟩
  have hne : ∀ t ∈ d.first.text :: d.rest.map Item.text, t ≠ [] := by
    intro t ht
    obtain ⟨i, rfl⟩ := hitems t ht
    exact i.text_ne_nil
  have htext : d.text = Text.join [' '] (d.first.text :: d.rest.map Item.text) := rfl
  obtain ⟨c, r, hcr, hc⟩ := d.first.exists_text_eq_cons
  refine ⟨?_, ?_, ?_⟩
  · rw [htext, Text.join_cons, hcr]
    exact List.cons_ne_nil _ _
  · intro e he
    rw [htext, Text.join_cons, hcr] at he
    obtain rfl : c = e := by simpa using he
    exact hc
  · intro e he
    obtain ⟨t, ht, het⟩ := Text.mem_getLast?_join hne (htext ▸ he)
    obtain ⟨i, rfl⟩ := hitems t ht
    exact isItemChar_of_isAtomChar (Item.isAtomChar_of_getLast? het)

end Characters

end AssetBridge.Grammar
