import AssetBridge.Text.Blank
import AssetBridge.Text.Lines

/-!
# Raw texts

What comes in from outside need not be a text. A byte of an argument that is no UTF-8 is kept as a
surrogate, which is a code point but no character, and has no stored form. It neither is a blank nor
ends a line.

## Main definitions

* `CodePoint`, `RawText`: characters and surrogates, and what consists of them.
* `RawText.ofText`, `RawText.text?`: a text as a raw one, and back.
* `RawText.IsText`: raw texts that are texts.
* `RawText.strip`, `CodePoint.isLineBoundary`: blanks and ends of lines in a raw text.

## Main results

* `RawText.text?_eq_some_iff`: a raw text is at most one text.
-/

namespace AssetBridge

/-- A code point: a character, or a surrogate by its number among them. -/
inductive CodePoint where
  | char (c : Char)
  | surrogate (n : Fin 0x800)
deriving DecidableEq, Repr

namespace CodePoint

/-- Whether a code point is a blank. -/
def isBlank : CodePoint → Bool
  | char c => Text.isBlank c
  | surrogate _ => false

/-- Whether a code point ends a line. -/
def isLineBoundary : CodePoint → Bool
  | char c => Text.isLineBoundary c
  | surrogate _ => false

end CodePoint

/-- A raw text is the list of its code points. -/
abbrev RawText := List CodePoint

namespace RawText

/-- A text as a raw one. -/
def ofText (s : Text) : RawText := s.map .char

instance : Coe Text RawText := ⟨ofText⟩

/-- The text that a raw one is, when no surrogate is in it. -/
def text? : RawText → Option Text
  | [] => some []
  | .char c :: s => (text? s).map (c :: ·)
  | .surrogate _ :: _ => none

/-- **Raw texts that are texts**. -/
def IsText (s : RawText) : Prop := ∃ t : Text, s = t

/-- The raw text without the blanks at its two ends. -/
def strip (s : RawText) : RawText :=
  ((s.dropWhile CodePoint.isBlank).reverse.dropWhile CodePoint.isBlank).reverse

theorem ofText_inj {s t : Text} : ofText s = ofText t ↔ s = t :=
  List.map_inj_right fun _ _ h => CodePoint.char.inj h

@[simp] theorem text?_ofText (s : Text) : text? s = some s := by
  induction s with
  | nil => rfl
  | cons c s ih =>
    show (text? (ofText s)).map (c :: ·) = _
    rw [ih]
    rfl

/-- Taking a text for a raw one and back undo each other. -/
theorem text?_eq_some_iff {s : RawText} {t : Text} : s.text? = some t ↔ s = t := by
  constructor
  · intro h
    fun_induction text? s generalizing t with
    | case1 =>
      obtain rfl := Option.some.inj h
      rfl
    | case2 c s ih =>
      obtain ⟨r, hr, rfl⟩ := Option.map_eq_some_iff.1 h
      exact congrArg (.char c :: ·) (ih hr)
    | case3 => cases h
  · rintro rfl
    exact text?_ofText t

theorem isText_ofText (s : Text) : IsText s := ⟨s, rfl⟩

theorem text?_eq_none_iff {s : RawText} : s.text? = none ↔ ¬ IsText s := by
  simp only [Option.eq_none_iff_forall_ne_some, ne_eq, text?_eq_some_iff, IsText, not_exists]

@[simp] theorem strip_ofText (s : Text) : strip s = ofText (Text.strip s) := by
  -- A character is a blank as a code point exactly when it is one.
  have hdrop : ∀ s : Text, (ofText s).dropWhile CodePoint.isBlank =
      ofText (s.dropWhile Text.isBlank) := fun s => List.dropWhile_map
  rw [strip, hdrop, ofText, ← List.map_reverse, ← ofText, hdrop, ofText, ← List.map_reverse]
  rfl

end RawText

end AssetBridge
