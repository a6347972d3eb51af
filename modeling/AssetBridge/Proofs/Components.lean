import AssetBridge.Proofs.Grammar
import AssetBridge.Proofs.WildcardRuns
import AssetBridge.Source.Pending

/-!
# The components of a version

A version of a range is a list of components between points, numbers first and wildcards behind
them. It carries no suffix, so converting it only shortens a run of wildcards, and what fills or
clears its wildcards works on one component at a time.

## Main definitions

* `Numeral.dotted`, `Numeral.points`: numbers with points between them, and behind points
* `Source.IsComponent`: a run of digits or a wildcard
* `Atom.numbers`, `Atom.wilds`, `Atom.filled`: a version as a list
* `Atom.collapsed`: a version with its run of wildcards shortened

## Main results

* `convertSuffix_join`: components carry no suffix
* `Atom.convertVersion_text`: what a version is converted into
* `Atom.zeroWildcards_text`, `Atom.fillWildcards_text`: versions whose wildcards are replaced
-/

namespace AssetBridge

namespace Text

theorem substitute_join {p : Char → Bool} {sep : Char} (h : p sep = false) (new s : Text)
    (l : List Text) : substitute p new (join [sep] (s :: l)) =
      join [sep] ((s :: l).map (substitute p new)) := by
  have hs : substitute p new [sep] = [sep] := substitute_eq_self (by simpa using h) new
  rw [join_cons, List.map_cons, join_cons, substitute_append]
  congr 1
  induction l with
  | nil => rfl
  | cons t l ih =>
    rw [List.flatMap_cons, List.map_cons, List.flatMap_cons, substitute_append, substitute_append,
      hs, ih]

end Text

/-! ## Numbers between points -/

namespace Numeral

/-- Numbers with points between them. -/
def dotted (ns : List Nat) : Text := Text.join ['.'] (ns.map digits)

/-- Numbers with a point in front of each. -/
def points (ns : List Nat) : Text := ns.flatMap fun n => '.' :: digits n

@[simp] theorem points_nil : points [] = [] := rfl

theorem points_cons (n : Nat) (ns : List Nat) :
    points (n :: ns) = '.' :: (digits n ++ points ns) := by
  simp [points]

@[simp] theorem dotted_singleton (n : Nat) : dotted [n] = digits n := by
  simp [dotted]

theorem dotted_cons (n : Nat) (ns : List Nat) : dotted (n :: ns) = digits n ++ points ns := by
  rw [dotted, List.map_cons, Text.join_cons, List.flatMap_map]
  rfl

theorem isDigit_or_eq_of_mem_dotted {ns : List Nat} {c : Char} (h : c ∈ dotted ns) :
    c.isDigit = true ∨ c = '.' := by
  rcases Text.mem_join h with h | ⟨t, ht, h⟩
  · exact .inr (by simpa using h)
  · obtain ⟨n, -, rfl⟩ := List.mem_map.1 ht
    exact .inl (isDigit_of_mem_digits h)

theorem not_mem_dotted {ns : List Nat} {c : Char}
    (h : c.isDigit = false ∧ c ≠ '.') : c ∉ dotted ns := by
  intro hc
  rcases isDigit_or_eq_of_mem_dotted hc with hc | hc
  · simp [h.1] at hc
  · exact h.2 hc

theorem exists_dotted_eq_cons (n : Nat) (ns : List Nat) :
    ∃ c r, dotted (n :: ns) = c :: r ∧ c.isDigit = true := by
  obtain ⟨c, r, hc, hd⟩ := exists_digits_eq_cons n
  exact ⟨c, _, by rw [dotted_cons, hc, List.cons_append], hd⟩

theorem fields_dotted (n : Nat) (ns : List Nat) :
    Text.fields '.' (dotted (n :: ns)) = (n :: ns).map digits := by
  have h : ∀ t ∈ (n :: ns).map digits, '.' ∉ t := by
    intro t ht
    obtain ⟨m, -, rfl⟩ := List.mem_map.1 ht
    exact not_mem_digits rfl
  exact Text.fields_join h

end Numeral

/-! ## Components carry no suffix -/

namespace Source

open Grammar (Wildcard)

/-- A run of digits or a wildcard. -/
inductive IsComponent : Text → Prop
  | digits {t : Text} : t ≠ [] → (∀ c ∈ t, c.isDigit = true) → IsComponent t
  | wild (w : Wildcard) : IsComponent [w.char]

theorem IsComponent.isAtomChar {t : Text} (h : IsComponent t) {c : Char} (hc : c ∈ t) :
    Grammar.isAtomChar c = true := by
  cases h with
  | digits _ hd => exact Grammar.isAtomChar_of_isDigit (hd c hc)
  | wild w =>
    obtain rfl : c = w.char := by simpa using hc
    exact w.isAtomChar_char

/-- The characters of components stay as they are in small letters. -/
theorem isSettled_of_isAtomChar {c : Char} (h : Grammar.isAtomChar c = true) :
    Text.isSettled c = true := by
  simp only [Grammar.isAtomChar, Bool.or_eq_true, decide_eq_true_eq] at h
  rcases h with ((hd | rfl) | rfl) | rfl
  · exact Text.isSettled_of_isDigit hd
  all_goals rfl

theorem IsComponent.point_not_mem {t : Text} (h : IsComponent t) : '.' ∉ t := by
  cases h with
  | digits _ hd => exact fun hp => absurd (hd '.' hp) (by decide)
  | wild w => cases w <;> decide

theorem isAtomChar_of_mem_join {l : List Text} (h : ∀ t ∈ l, IsComponent t) {c : Char}
    (hc : c ∈ Text.join ['.'] l) : Grammar.isAtomChar c = true := by
  rcases Text.mem_join hc with hc | ⟨t, ht, hc⟩
  · obtain rfl : c = '.' := by simpa using hc
    rfl
  · exact (h t ht).isAtomChar hc

theorem not_mem_join {l : List Text} (h : ∀ t ∈ l, IsComponent t) {c : Char}
    (hc : Grammar.isAtomChar c = false) : c ∉ Text.join ['.'] l := by
  intro hm
  simp [isAtomChar_of_mem_join h hm] at hc

/-- A component ends where no digit follows. -/
theorem IsComponent.component?_append {t r : Text} (h : IsComponent t)
    (hr : ∀ c ∈ r.head?, c.isDigit = false) : component? (t ++ r) = some (t, r) := by
  cases h with
  | wild w => cases w <;> rfl
  | digits ht hd =>
    have hr' := Text.scan_eq_of_head? hr
    have htake := Text.takeWhile_isDigit_append hd r
    have hdrop := Text.dropWhile_isDigit_append hd r
    rw [hr'.1, List.append_nil] at htake
    rw [hr'.2] at hdrop
    obtain ⟨c, s, rfl⟩ := List.exists_cons_of_ne_nil ht
    have hx : c ≠ 'x' := Text.ne_of_isDigit (hd c (by simp)) rfl
    have hstar : c ≠ '*' := Text.ne_of_isDigit (hd c (by simp)) rfl
    unfold component?
    split
    · simp_all
    · simp_all
    · rw [htake, hdrop]
      rfl

/-- Where no component has a suffix there is no head. -/
theorem headUpTo_join (k : Nat) {l : List Text} (h : ∀ t ∈ l, IsComponent t) :
    headUpTo k (Text.join ['.'] l) = none := by
  -- Induction on the components: behind each one stands a point, which opens no suffix, or nothing.
  induction l generalizing k with
  | nil => cases k <;> rfl
  | cons t l ih =>
    cases k with
    | zero => rfl
    | succ k =>
      have ht : IsComponent t := h t (by simp)
      cases l with
      | nil =>
        have hc := ht.component?_append (r := []) (by simp)
        rw [List.append_nil] at hc
        rw [Text.join_singleton, headUpTo, hc]
        rfl
      | cons u l =>
        have hu := ih k fun v hv => h v (List.mem_cons_of_mem t hv)
        have hj : Text.join ['.'] (t :: u :: l) = t ++ '.' :: Text.join ['.'] (u :: l) := by
          simp [Text.join_cons]
        have hc := ht.component?_append (r := '.' :: Text.join ['.'] (u :: l)) (by rintro c ⟨⟩; rfl)
        have ho : ∀ s, opensSuffix ('.' :: s) = false := fun _ => rfl
        rw [hj, headUpTo, hc]
        simp [ho, hu]

/-- A suffix ends the head: it is all the components in front of it. -/
theorem headUpTo_join_append (k : Nat) {t : Text} {l : List Text} (hl : l.length < k)
    (h : ∀ u ∈ t :: l, IsComponent u) {r : Text} (hr : ∀ c ∈ r.head?, c.isDigit = false)
    (ho : opensSuffix r = true) :
    headUpTo k (Text.join ['.'] (t :: l) ++ r) = some (Text.join ['.'] (t :: l), r) := by
  -- Induction on the further components: the point in front of one opens no suffix.
  induction l generalizing t k with
  | nil =>
    obtain ⟨k, rfl⟩ : ∃ j, k = j + 1 := ⟨k - 1, by simp at hl; omega⟩
    rw [Text.join_singleton, headUpTo, (h t (by simp)).component?_append hr]
    simp [ho]
  | cons u l ih =>
    obtain ⟨k, rfl⟩ : ∃ j, k = j + 1 := ⟨k - 1, by simp at hl; omega⟩
    have hrest := ih k (by simpa using hl) fun v hv => h v (List.mem_cons_of_mem t hv)
    have hj : Text.join ['.'] (t :: u :: l) = t ++ '.' :: Text.join ['.'] (u :: l) := by
      simp [Text.join_cons]
    have hpoint : ∀ c ∈ ('.' :: (Text.join ['.'] (u :: l) ++ r)).head?, c.isDigit = false := by
      rintro c ⟨⟩
      rfl
    have ho' : ∀ s, opensSuffix ('.' :: s) = false := fun _ => rfl
    rw [hj, List.append_assoc, List.cons_append, headUpTo,
      (h t (by simp)).component?_append hpoint]
    simp [ho', hrest]

theorem dropRegistryMarkers_eq_self {s : Text}
    (h : ∀ m ∈ registryMarkers, Text.contains m s = false) : dropRegistryMarkers s = s := by
  have hr : ∀ m ∈ registryMarkers, Text.replaceAll m [] s = s := by
    intro m hm
    have hne : ∀ m ∈ registryMarkers, m ≠ [] := by decide
    exact Text.replaceAll_eq_self (hne m hm) (h m hm) []
  rw [dropRegistryMarkers, registryMarkers, List.foldl_cons, List.foldl_cons, List.foldl_nil,
    hr _ (by simp [registryMarkers]), hr _ (by simp [registryMarkers])]

/-- A character that stands in both markers and not in the text tells that there is none. -/
theorem dropRegistryMarkers_of_not_mem {s : Text} {c : Char} (hs : c ∉ s)
    (hc : ∀ m ∈ registryMarkers, c ∈ m) : dropRegistryMarkers s = s :=
  dropRegistryMarkers_eq_self fun m hm => Text.contains_eq_false (hc m hm) hs

/-- What no version opens has no suffix: only a run of wildcards is shortened. -/
theorem convertSuffix_of_versionHead?_eq_none {s : Text} (hm : dropRegistryMarkers s = s)
    (hhead : versionHead? s = none) : convertSuffix s = collapseWildcards s := by
  simp only [convertSuffix, hm, hhead]

/-- **Components carry no suffix**. -/
theorem convertSuffix_join {l : List Text} (h : ∀ t ∈ l, IsComponent t) :
    convertSuffix (Text.join ['.'] l) = collapseWildcards (Text.join ['.'] l) := by
  have hm : dropRegistryMarkers (Text.join ['.'] l) = Text.join ['.'] l :=
    dropRegistryMarkers_of_not_mem (c := '-') (not_mem_join h rfl) (by decide)
  exact convertSuffix_of_versionHead?_eq_none hm (headUpTo_join 3 h)

theorem collapseWildcards_eq_self {s : Text} (h : s.count 'x' ≤ 1) : collapseWildcards s = s := by
  refine collapseWildcards_of_contains ?_
  rw [Bool.eq_false_iff, ne_eq, Text.contains_iff]
  -- A pair of wildcards would be two letters.
  rintro ⟨a, b, rfl⟩
  have hp : wildcardPair.count 'x' = 2 := rfl
  simp only [List.count_append, hp] at h
  omega

/-- Only a stamp of seven digits or more is a date. -/
theorem convertDate_eq_self {s : Text} (h : (s.takeWhile Text.isDecimal).length < 7) :
    convertDate s = .ok s := by
  unfold convertDate
  split
  · rw [if_neg (by omega)]
    rfl
  · rfl

/-- **Converting** what has no long dash and is not the word for the newest version: the letter in
front is carried through, and behind it only the suffix and a date are looked at. -/
theorem convertVersion_eq_map {s letter body : Text} (hne : s ≠ []) (hlatest : s ≠ latest)
    (hdash : '–' ∉ s) (hsplit : splitLetter s = (letter, body)) :
    convertVersion s = (letter ++ ·) <$> convertDate (convertSuffix body) := by
  have hsub : Text.substitute (· = '–') ['-'] s = s :=
    Text.substitute_eq_self (fun d hd => decide_eq_false fun e : d = '–' => hdash (e ▸ hd)) _
  have hempty : s.isEmpty = false := by simpa using hne
  simp only [convertVersion, hempty, Bool.false_eq_true, if_false, hlatest, hsub, hsplit]
  cases convertDate (convertSuffix body) <;> rfl

theorem convertVersion_eq {s : Text} (hne : s ≠ []) (hlatest : s ≠ latest) (hdash : '–' ∉ s)
    (hsplit : splitLetter s = ([], s)) : convertVersion s = convertDate (convertSuffix s) := by
  rw [convertVersion_eq_map hne hlatest hdash hsplit]
  cases convertDate (convertSuffix s) <;> rfl

theorem convertVersion_of_isDigit {c : Char} {r : Text} (hc : c.isDigit = true)
    (hdash : '–' ∉ c :: r) : convertVersion (c :: r) = convertDate (convertSuffix (c :: r)) := by
  have hsmall := Text.isSmall_eq_false_of_isDigit hc
  have hlatest : c :: r ≠ latest := by
    have hl : c ≠ 'l' := Text.ne_of_isDigit hc rfl
    intro e
    exact hl (List.cons.inj e).1
  have hsplit : splitLetter (c :: r) = ([], c :: r) := by simp [splitLetter, hsmall]
  exact convertVersion_eq (List.cons_ne_nil c r) hlatest hdash hsplit

/-- Converting components the first of which is a number. -/
theorem convertVersion_join {t : Text} {l : List Text} (ht : t ≠ [])
    (hd : ∀ c ∈ t, c.isDigit = true) (h : ∀ u ∈ l, IsComponent u) :
    convertVersion (Text.join ['.'] (t :: l)) =
      convertDate (collapseWildcards (Text.join ['.'] (t :: l))) := by
  have hl : ∀ u ∈ t :: l, IsComponent u := by
    intro u hu
    rcases List.mem_cons.1 hu with rfl | hu
    · exact .digits ht hd
    · exact h u hu
  have hdash : '–' ∉ Text.join ['.'] (t :: l) := not_mem_join hl rfl
  have hconv := convertSuffix_join hl
  obtain ⟨c, r, hc⟩ := List.exists_cons_of_ne_nil ht
  obtain ⟨s, hs⟩ : ∃ s, Text.join ['.'] (t :: l) = c :: s :=
    ⟨_, by rw [Text.join_cons, hc, List.cons_append]⟩
  rw [hs] at hdash hconv ⊢
  rw [convertVersion_of_isDigit (hd c (by simp [hc])) hdash, hconv]

end Source

/-! ## Versions of a range -/

namespace Grammar

open Source

variable {α : Type} [Numeric α]

open Numeric (digits)

namespace Atom

/-- The components behind the first one. -/
def behind (v : Atom α) : List Text :=
  v.numbers.tail.map digits ++ v.wilds.map fun w => [w.char]

/-- A version is its components between points. -/
theorem text_eq_join (v : Atom α) : v.text = Text.join ['.'] (digits v.first :: v.behind) := by
  cases v <;> simp [text, first, behind, numbers, wilds, Text.join_cons]

theorem isComponent_of_mem_behind {v : Atom α} {t : Text} (h : t ∈ v.behind) : IsComponent t := by
  rcases List.mem_append.1 h with h | h
  · obtain ⟨n, -, rfl⟩ := List.mem_map.1 h
    exact .digits (Numeric.digits_ne_nil n) fun _ => Numeric.isDigit_of_mem
  · obtain ⟨w, -, rfl⟩ := List.mem_map.1 h
    exact .wild w

theorem fields_text (v : Atom α) : Text.fields '.' v.text = digits v.first :: v.behind := by
  have hd : ∀ t ∈ digits v.first :: v.behind, '.' ∉ t := by
    intro t ht
    rcases List.mem_cons.1 ht with rfl | ht
    · exact fun hp => absurd (Numeric.isDigit_of_mem hp) (by decide)
    · exact (isComponent_of_mem_behind ht).point_not_mem
  rw [text_eq_join]
  exact Text.fields_join hd

/-- The version with its run of wildcards shortened. Only letters are. -/
def collapsed : Atom α → Atom α
  | majorWilds n .letter .letter => majorWild n .letter
  | v => v

omit [Numeric α] in
@[simp] theorem first_collapsed (v : Atom α) : v.collapsed.first = v.first := by
  cases v with
  | majorWilds n w w' => cases w <;> cases w' <;> rfl
  | _ => rfl

theorem count_digits (n : α) : (digits n).count 'x' = 0 := by
  refine List.count_eq_zero.2 fun h => ?_
  exact absurd (Numeric.isDigit_of_mem h) (by decide)

/-- At most one letter is left in a version. -/
theorem count_text_collapsed (v : Atom α) : v.collapsed.text.count 'x' ≤ 1 := by
  have hw : ∀ w : Wildcard, List.count 'x' [w.char] ≤ 1 := fun w => by cases w <;> decide
  cases v with
  | major n => simp [collapsed, text, count_digits]
  | minor n m => simp [collapsed, text, count_digits]
  | patch n m p => simp [collapsed, text, count_digits]
  | majorWild n w => cases w <;> simp [collapsed, text, count_digits, Wildcard.char]
  | minorWild n m w => cases w <;> simp [collapsed, text, count_digits, Wildcard.char]
  | majorWilds n w w' =>
    cases w <;> cases w' <;> simp [collapsed, text, count_digits, Wildcard.char]

theorem collapseWildcards_text (v : Atom α) : collapseWildcards v.text = v.collapsed.text := by
  -- Fewer than two letters leave nothing to shorten.
  have hone : ∀ u : Atom α, collapseWildcards u.collapsed.text = u.collapsed.text := fun u =>
    collapseWildcards_eq_self u.count_text_collapsed
  cases v with
  | majorWilds n w w' =>
    cases w <;> cases w'
    case letter.letter =>
      -- The only pair counts as a single wildcard, which is that of a shorter version.
      have hpair := collapseWildcards_pair (digits n) []
      rw [List.append_nil, List.append_nil] at hpair
      exact hpair.trans (hone (.majorWild n .letter))
    case letter.star => exact hone (.majorWilds n .letter .star)
    case star.letter => exact hone (.majorWilds n .star .letter)
    case star.star => exact hone (.majorWilds n .star .star)
  | major n => exact hone (.major n)
  | minor n m => exact hone (.minor n m)
  | patch n m p => exact hone (.patch n m p)
  | majorWild n w => exact hone (.majorWild n w)
  | minorWild n m w => exact hone (.minorWild n m w)

/-- **What a version is converted into**, a date apart. -/
theorem convertVersion_text (v : Atom α) :
    convertVersion v.text = convertDate v.collapsed.text := by
  have hj := convertVersion_join (Numeric.digits_ne_nil v.first)
    (fun _ => Numeric.isDigit_of_mem) (l := v.behind) fun _ => isComponent_of_mem_behind
  rw [← v.text_eq_join, v.collapseWildcards_text] at hj
  exact hj

theorem takeWhile_isDecimal_text (v : Atom α) :
    v.text.takeWhile Text.isDecimal = digits v.first := by
  have hd : ∀ r : Text, (digits v.first ++ r).takeWhile Text.isDecimal =
      digits v.first ++ r.takeWhile Text.isDecimal :=
    Text.takeWhile_isDecimal_append fun _ => Numeric.isDigit_of_mem
  have hp : ∀ r, List.takeWhile Text.isDecimal ('.' :: r) = [] := fun _ => rfl
  -- Behind the first number stands a point or nothing.
  cases v with
  | major n => simpa [text, first] using hd []
  | _ =>
    rw [text, first] at *
    rw [hd, hp, List.append_nil]

/-- A version that opens with no date only loses a wildcard. -/
theorem convertVersion_text_of_short {v : Atom α} (h : (digits v.first).length < 7) :
    convertVersion v.text = .ok v.collapsed.text := by
  rw [convertVersion_text]
  refine convertDate_eq_self ?_
  rwa [takeWhile_isDecimal_text, first_collapsed]

end Atom

end Grammar

/-! ## Wildcards made concrete -/

namespace Numeral

theorem length_digits_lt_seven {n : Nat} (h : n < 100000) : (digits n).length < 7 :=
  Nat.lt_of_le_of_lt (length_digits_le_five h) (by decide)

end Numeral

namespace Source

open Numeral (dotted)

/-- Numbers between points that open with no date are converted into themselves. -/
theorem convertVersion_dotted {n : Nat} (h : n < 100000) (ns : List Nat) :
    convertVersion (dotted (n :: ns)) = .ok (dotted (n :: ns)) := by
  have hc : ∀ t ∈ ns.map Numeral.digits, IsComponent t := by
    intro t ht
    obtain ⟨m, -, rfl⟩ := List.mem_map.1 ht
    exact .digits (Numeral.digits_ne_nil m) fun _ => Numeral.isDigit_of_mem_digits
  -- Neither a wildcard to shorten nor a first number that is long enough for a date.
  have hx : (dotted (n :: ns)).count 'x' = 0 :=
    List.count_eq_zero.2 (Numeral.not_mem_dotted (c := 'x') (by decide))
  have ht : ((dotted (n :: ns)).takeWhile Text.isDecimal).length < 7 := by
    have hp : (Numeral.points ns).takeWhile Text.isDecimal = [] := by
      cases ns <;> rfl
    rw [Numeral.dotted_cons, Numeral.takeWhile_isDecimal_digits_append, hp, List.append_nil]
    exact Numeral.length_digits_lt_seven h
  have hj := convertVersion_join (Numeral.digits_ne_nil n)
    (fun _ => Numeral.isDigit_of_mem_digits) hc
  rw [← List.map_cons (f := Numeral.digits)] at hj
  rw [dotted, hj]
  show convertDate (collapseWildcards (dotted (n :: ns))) = _
  rw [collapseWildcards_eq_self (by omega), convertDate_eq_self ht]
  rfl

/-- The number that stands for a wildcard on a side. -/
def Side.number : Side → Nat
  | .lower => 0
  | .upper => 9999999

theorem Side.component_eq_digits (side : Side) : side.component = Numeral.digits side.number := by
  cases side <;> decide

end Source

namespace Grammar

open Source
open Numeral (dotted)

namespace Atom

/-- The numbers of a version, with one number for all its wildcards. -/
def filled (k : Nat) (v : Atom Nat) : List Nat := v.numbers ++ v.wilds.map fun _ => k

theorem numbers_eq_cons (v : Atom Nat) : v.numbers = v.first :: v.numbers.tail := by
  cases v <;> rfl

theorem filled_eq_cons (k : Nat) (v : Atom Nat) :
    v.filled k = v.first :: (v.numbers.tail ++ v.wilds.map fun _ => k) := by
  rw [filled, numbers_eq_cons]
  rfl

/-- Replacing the wildcards of a version fills it. -/
theorem substitute_text {p : Char → Bool} (hd : ∀ c : Char, c.isDigit = true → p c = false)
    (hp : p '.' = false) (hw : ∀ w : Wildcard, p w.char = true) (k : Nat) (v : Atom Nat) :
    Text.substitute p (Numeral.digits k) v.text = dotted (v.filled k) := by
  have hn : ∀ n : Nat, Text.substitute p (Numeral.digits k) (Numeral.digits n) = Numeral.digits n :=
    fun n => Text.substitute_eq_self (fun c hc => hd c (Numeral.isDigit_of_mem_digits hc)) _
  have hc : ∀ w : Wildcard, Text.substitute p (Numeral.digits k) [w.char] = Numeral.digits k := by
    intro w
    simp [Text.substitute, hw w]
  -- One component at a time: digits stay, a wildcard becomes the number.
  have hm : (Numeric.digits v.first :: v.behind).map (Text.substitute p (Numeral.digits k)) =
      (v.filled k).map Numeral.digits := by
    have hf : Text.substitute p (Numeral.digits k) (Numeric.digits v.first) =
        Numeral.digits v.first := hn v.first
    rw [filled_eq_cons, behind, List.map_cons, List.map_cons, List.map_append, List.map_append,
      List.map_map, List.map_map, List.map_map, hf]
    congr 2
    · exact List.map_congr_left fun n _ => hn n
    · exact List.map_congr_left fun w _ => hc w
  rw [text_eq_join, Text.substitute_join hp, hm]
  rfl

theorem isWildcard_of_isDigit {c : Char} (h : c.isDigit = true) : isWildcard c = false := by
  have hn : c ≠ '*' ∧ c ≠ 'x' ∧ c ≠ 'X' :=
    ⟨Text.ne_of_isDigit h rfl, Text.ne_of_isDigit h rfl, Text.ne_of_isDigit h rfl⟩
  simp [isWildcard, hn]

theorem isSmallWildcard_of_isDigit {c : Char} (h : c.isDigit = true) :
    isSmallWildcard c = false := by
  have hn : c ≠ 'x' ∧ c ≠ '*' := ⟨Text.ne_of_isDigit h rfl, Text.ne_of_isDigit h rfl⟩
  simp [isSmallWildcard, hn]

/-- **Zeros for wildcards**. -/
theorem zeroWildcards_text (v : Atom Nat) : zeroWildcards v.text = dotted (v.filled 0) :=
  substitute_text (fun _ => isWildcard_of_isDigit) rfl (fun w => by cases w <;> rfl) 0 v

/-- The largest numbers for wildcards. -/
theorem substitute_greatest_text (v : Atom Nat) :
    Text.substitute isWildcard greatestComponent v.text = dotted (v.filled 9999999) :=
  substitute_text (fun _ => isWildcard_of_isDigit) rfl (fun w => by cases w <;> rfl) 9999999 v

/-- **Wildcards of a bound** made concrete. -/
theorem fillWildcards_text (side : Side) (v : Atom Nat) :
    fillWildcards side v.text = dotted (v.filled side.number) := by
  rw [fillWildcards, side.component_eq_digits]
  exact substitute_text (fun _ => isSmallWildcard_of_isDigit) rfl (fun w => by cases w <;> rfl) _ v

/-- A version of ordinary size only loses a wildcard. -/
theorem convertVersion_text_of_lt {v : Atom Nat} (h : v.first < 100000) :
    convertVersion v.text = .ok v.collapsed.text :=
  convertVersion_text_of_short (Numeral.length_digits_lt_seven h)

end Atom

end Grammar

end AssetBridge
