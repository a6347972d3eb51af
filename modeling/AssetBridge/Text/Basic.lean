/-!
# Text

Versions, ranges, names and URLs are read as lists of characters, so that every scanner of the
library is a recursion on its input and every statement about it an induction. `String` appears
only where text enters and leaves the program.

## Main definitions

* `Text.dropPrefix?`, `Text.startsWith`, `Text.endsWith`, `Text.contains`: where a given text
  stands.
* `Text.fields`, `Text.words`, `Text.pieces`: splitting on a character, a class and a text.
* `Text.replaceAll`: the leftmost occurrences that do not overlap, replaced from left to right.
* `Text.isFinal`: what may follow the last character a version pattern reads.
-/

namespace AssetBridge

/-- A text is the list of its characters. -/
abbrev Text := List Char

namespace Text

/-! ## Prefixes, suffixes and occurrences -/

/-- What follows the prefix `p`, when the text starts with it. -/
def dropPrefix? : Text → Text → Option Text
  | [], s => some s
  | _ :: _, [] => none
  | p :: ps, c :: cs => if p = c then dropPrefix? ps cs else none

@[simp] theorem dropPrefix?_nil (s : Text) : dropPrefix? [] s = some s := by
  cases s <;> rfl

@[simp] theorem dropPrefix?_append (p s : Text) : dropPrefix? p (p ++ s) = some s := by
  induction p with
  | nil => simp
  | cons c p ih => simp [dropPrefix?, ih]

theorem dropPrefix?_eq_some_iff {p s r : Text} : dropPrefix? p s = some r ↔ s = p ++ r := by
  constructor
  · intro h
    induction p generalizing s with
    | nil => simpa using h
    | cons a p ih =>
      cases s with
      | nil => simp [dropPrefix?] at h
      | cons c s =>
        by_cases e : a = c
        · simp only [dropPrefix?, e, if_true] at h
          simp [e, ih h]
        · simp [dropPrefix?, e] at h
  · rintro rfl
    exact dropPrefix?_append p r

/-- Whether the text starts with `p`. -/
def startsWith (p s : Text) : Bool := (dropPrefix? p s).isSome

theorem startsWith_iff {p s : Text} : startsWith p s = true ↔ ∃ r, s = p ++ r := by
  simp [startsWith, Option.isSome_iff_exists, dropPrefix?_eq_some_iff]

/-- Whether the text ends with `p`. -/
def endsWith (p s : Text) : Bool := startsWith p.reverse s.reverse

theorem endsWith_iff {p s : Text} : endsWith p s = true ↔ ∃ r, s = r ++ p := by
  rw [endsWith, startsWith_iff]
  constructor
  · rintro ⟨r, h⟩
    exact ⟨r.reverse, by simpa using congrArg List.reverse h⟩
  · rintro ⟨r, rfl⟩
    exact ⟨r.reverse, by simp⟩

/-- The text without the prefix `p`, or the whole text when it does not start with it. -/
def trimPrefix (p s : Text) : Text := (dropPrefix? p s).getD s

/-- Whether a text is one of the given ones. -/
def isOneOf (texts : List Text) (s : Text) : Bool := texts.any fun t => decide (t = s)

@[simp] theorem isOneOf_iff {texts : List Text} {s : Text} :
    isOneOf texts s = true ↔ s ∈ texts := by
  simp [isOneOf]

/-- Whether `p` stands somewhere in the text. -/
def contains (p : Text) : Text → Bool
  | [] => p.isEmpty
  | c :: cs => startsWith p (c :: cs) || contains p cs

theorem contains_iff {p s : Text} : contains p s = true ↔ ∃ a b, s = a ++ p ++ b := by
  induction s with
  | nil => cases p <;> simp [contains]
  | cons c s ih =>
    simp only [contains, Bool.or_eq_true, startsWith_iff, ih]
    constructor
    · rintro (⟨r, h⟩ | ⟨a, b, h⟩)
      · exact ⟨[], r, by simpa using h⟩
      · exact ⟨c :: a, b, by simp [h]⟩
    · rintro ⟨a, b, h⟩
      cases a with
      | nil => exact Or.inl ⟨b, by simpa using h⟩
      | cons x a =>
        simp only [List.cons_append, List.cons.injEq] at h
        exact Or.inr ⟨a, b, h.2⟩

/-! ## Trimming -/

/-- The text without its longest ending of characters that satisfy `p`. -/
def dropEndWhile (p : Char → Bool) (s : Text) : Text := (s.reverse.dropWhile p).reverse

/-! ## Splitting

A separator that stands `n` times cuts a text into `n + 1` parts, empty ones included. -/

/-- Puts a character in front of the first part. -/
def extendFirst (c : Char) : List Text → List Text
  | [] => [[c]]
  | part :: parts => (c :: part) :: parts

/-- The parts between the characters that satisfy `p`. -/
def splitWhere (p : Char → Bool) : Text → List Text
  | [] => [[]]
  | c :: cs => if p c then [] :: splitWhere p cs else extendFirst c (splitWhere p cs)

/-- The parts between the occurrences of one character. -/
def fields (sep : Char) (s : Text) : List Text := splitWhere (· == sep) s

/-- The maximal runs of characters that are not separators. -/
def words (isSeparator : Char → Bool) (s : Text) : List Text :=
  (splitWhere isSeparator s).filter fun word => !word.isEmpty

theorem splitWhere_ne_nil (p : Char → Bool) (s : Text) : splitWhere p s ≠ [] := by
  cases s with
  | nil => simp [splitWhere]
  | cons c cs =>
    unfold splitWhere
    split
    · simp
    · cases splitWhere p cs <;> simp [extendFirst]

/-- The parts of a text, joined by a separator. -/
def join (sep : Text) (parts : List Text) : Text := sep.intercalate parts

/-- Splitting loses nothing: the parts joined by the separator are the text again. -/
theorem join_fields (sep : Char) (s : Text) : join [sep] (fields sep s) = s := by
  induction s with
  | nil => rfl
  | cons c cs ih =>
    unfold fields at ih ⊢
    unfold splitWhere
    obtain ⟨f, fs, hf⟩ := List.exists_cons_of_ne_nil (splitWhere_ne_nil (· == sep) cs)
    rw [hf] at ih ⊢
    by_cases h : c = sep
    · subst h
      simpa [join, List.intercalate] using ih
    · cases fs with
      | nil => simpa [h, extendFirst, join, List.intercalate] using ih
      | cons g gs => simpa [h, extendFirst, join, List.intercalate] using ih

/-- What stands before the first `sep`, and what stands after it when there is one. -/
def cut (sep : Char) : Text → Text × Option Text
  | [] => ([], none)
  | c :: cs =>
    if c = sep then ([], some cs)
    else (c :: (cut sep cs).1, (cut sep cs).2)

/-- The parts between the leftmost occurrences of `sep`; the first argument counts the characters
of an occurrence that are still to be passed over. -/
def piecesFrom (sep : Text) : Nat → Text → List Text
  | _, [] => [[]]
  | k + 1, _ :: cs => piecesFrom sep k cs
  | 0, c :: cs =>
    if startsWith sep (c :: cs) then [] :: piecesFrom sep (sep.length - 1) cs
    else extendFirst c (piecesFrom sep 0 cs)

/-- The parts between the leftmost occurrences of a separator that is not empty. -/
def pieces (sep s : Text) : List Text := piecesFrom sep 0 s

/-! ## Replacing -/

/-- Replaces the leftmost occurrences; the first argument counts the characters of an occurrence
that are still to be passed over. -/
def replaceFrom (old new : Text) : Nat → Text → Text
  | _, [] => []
  | k + 1, _ :: cs => replaceFrom old new k cs
  | 0, c :: cs =>
    if startsWith old (c :: cs) then new ++ replaceFrom old new (old.length - 1) cs
    else c :: replaceFrom old new 0 cs

/-- **Replacement**: the leftmost occurrences of `old` that do not overlap become `new`. The empty
text occurs before every character and at the end. -/
def replaceAll (old new s : Text) : Text :=
  if old.isEmpty then s.flatMap (fun c => new ++ [c]) ++ new else replaceFrom old new 0 s

/-- Passing over the rest of an occurrence leads to what follows it. -/
theorem replaceFrom_length_append (old new t s : Text) :
    replaceFrom old new t.length (t ++ s) = replaceFrom old new 0 s := by
  induction t with
  | nil => simp
  | cons c t ih => simpa [replaceFrom] using ih

/-- An occurrence at the front is replaced, and replacement goes on behind it. -/
theorem replaceAll_append {old : Text} (h : old ≠ []) (new s : Text) :
    replaceAll old new (old ++ s) = new ++ replaceAll old new s := by
  obtain ⟨c, t, rfl⟩ := List.exists_cons_of_ne_nil h
  have hs : startsWith (c :: t) (c :: (t ++ s)) = true := startsWith_iff.2 ⟨s, by simp⟩
  simp only [replaceAll, List.isEmpty_cons, List.cons_append]
  simp only [replaceFrom, hs, if_true, List.length_cons, Nat.add_sub_cancel,
    replaceFrom_length_append]
  simp

/-- A character that opens no occurrence is kept. -/
theorem replaceAll_cons {old : Text} (h : old ≠ []) (new : Text) {c : Char} {s : Text}
    (hc : startsWith old (c :: s) = false) :
    replaceAll old new (c :: s) = c :: replaceAll old new s := by
  have he : old.isEmpty = false := by simpa using h
  simp [replaceAll, he, replaceFrom, hc]

@[simp] theorem replaceAll_nil {old : Text} (h : old ≠ []) (new : Text) :
    replaceAll old new [] = [] := by
  have he : old.isEmpty = false := by simpa using h
  simp [replaceAll, he, replaceFrom]

/-- Replaces several texts by one, one text after the other. -/
def replaceEach (olds : List Text) (new s : Text) : Text :=
  olds.foldl (fun t old => replaceAll old new t) s

/-- Writes `new` in place of every character that satisfies `p`. -/
def substitute (p : Char → Bool) (new s : Text) : Text :=
  s.flatMap fun c => if p c then new else [c]

@[simp] theorem substitute_nil (p : Char → Bool) (new : Text) : substitute p new [] = [] := rfl

@[simp] theorem substitute_append (p : Char → Bool) (new s t : Text) :
    substitute p new (s ++ t) = substitute p new s ++ substitute p new t := by
  simp [substitute]

/-! ## The end of a pattern -/

/-- A pattern that has to reach the end of its input may stop in front of a final line feed. -/
def isFinal (rest : Text) : Bool := rest = [] || rest = ['\n']

@[simp] theorem isFinal_nil : isFinal [] = true := rfl

end Text

end AssetBridge
