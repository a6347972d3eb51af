import AssetBridge.Text.Basic
import AssetBridge.Text.Ranges
import AssetBridge.Text.CaseTable

/-!
# Letter case

Two ways to disregard case. Small letters replace capitals of every script, one for one apart from
the dotted capital I, which leaves its dot behind, and the sigma, which has a form for the end of a
word. Keywords are compared letter by letter instead: a character counts as the ASCII letter it is
a variant of.

## Main definitions

* `Text.lower`: a text in small letters.
* `Text.foldLetter`: the letter a character counts as where case is ignored.
* `Text.dropKeyword?`, `Text.containsKeyword`: recognising ASCII words whatever their case.
* `Text.capital`: the capital ASCII letter of a character.
-/

namespace AssetBridge.Text

/-! ## Small letters -/

/-- The small letter of a character that has exactly one. -/
def smallLetter (c : Char) : Char :=
  if c.toNat < 0x80 then c.toLower
  else
    match smallLetters.find? fun run =>
      run.first ≤ c.toNat && c.toNat ≤ run.last && (c.toNat - run.first) % run.step == 0 with
    | some run => Char.ofNat (c.toNat + run.distance).toNat
    | none => c

/-- Whether the nearest character that is not passed over is a cased letter. -/
def meetsLetter (neighbours : Text) : Bool :=
  (neighbours.find? fun c => !inRanges ignorableRanges c).any (inRanges casedRanges)

/-- The small form of a character between the characters `before` it, the nearest first, and those
`after` it. A sigma that follows a letter and precedes none is written in its final form. -/
def lowerBetween (before : Text) (c : Char) (after : Text) : Text :=
  if c = 'Σ' then (if meetsLetter before && !meetsLetter after then ['ς'] else ['σ'])
  else if c = 'İ' then ['i', '\u0307']
  else [smallLetter c]

/-- Lowers the characters that follow `before`. -/
def lowerAfter (before : Text) : Text → Text
  | [] => []
  | c :: cs => lowerBetween before c cs ++ lowerAfter (c :: before) cs

/-- A text in small letters. -/
def lower (s : Text) : Text := lowerAfter [] s

@[simp] theorem lower_nil : lower [] = [] := rfl

/-! ## Keywords -/

/-- The letter a character counts as where case is ignored: the long s is an s, the Kelvin sign a k,
and the two Turkish letters are an i. -/
def foldLetter (c : Char) : Char :=
  if c = 'ſ' then 's'
  else if c = '\u212a' then 'k'
  else if c = 'İ' || c = 'ı' then 'i'
  else c.toLower

/-- What follows a word in small letters that opens the text, whatever the case it is written in. -/
def dropKeyword? : Text → Text → Option Text
  | [], s => some s
  | _ :: _, [] => none
  | k :: ks, c :: cs => if foldLetter c = k then dropKeyword? ks cs else none

@[simp] theorem dropKeyword?_nil (s : Text) : dropKeyword? [] s = some s := by cases s <;> rfl

theorem dropKeyword?_eq_some_iff {k s r : Text} :
    dropKeyword? k s = some r ↔ ∃ w, s = w ++ r ∧ w.map foldLetter = k := by
  constructor
  · intro h
    induction k generalizing s with
    | nil => exact ⟨[], by simpa using h, rfl⟩
    | cons a k ih =>
      cases s with
      | nil => simp [dropKeyword?] at h
      | cons c s =>
        by_cases e : foldLetter c = a
        · simp only [dropKeyword?, e, if_true] at h
          obtain ⟨w, hw, hk⟩ := ih h
          exact ⟨c :: w, by simp [hw], by simp [e, hk]⟩
        · simp [dropKeyword?, e] at h
  · rintro ⟨w, rfl, rfl⟩
    induction w with
    | nil => simp
    | cons c w ih => simpa [dropKeyword?] using ih

/-- Whether a word in small letters stands in the text, whatever its case. -/
def containsKeyword (k s : Text) : Bool := contains k (s.map foldLetter)

/-! ## Capitals -/

/-- The capital of a character where it is an ASCII letter: the dotless i is a small I, the long s a
small S. -/
def capital (c : Char) : Char := if c = 'ı' then 'I' else if c = 'ſ' then 'S' else c.toUpper

example : lower "ÀΑΣ Kİ".toList = "àας ki\u0307".toList := by decide +kernel

example : dropKeyword? "stable".toList "ſtaBLE!".toList = some ['!'] := by decide +kernel

end AssetBridge.Text
