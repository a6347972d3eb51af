import AssetBridge.Proofs.Letters
import AssetBridge.Proofs.Outcomes
import AssetBridge.Proofs.Suffixes
import AssetBridge.Proofs.Walk

/-!
# Words as ranges

A word has no blank and no sign, so as a range it is a single token: it is put in small letters, a
letter v in front of a number goes, and what is left is converted. Conversions write digits, points,
hyphens, wildcards and the letters of suffixes, so that a converted word has no blank and no sign
either.

## Main definitions

* `spelled`: a word as a range takes it
* `IsToken`: the texts in which no delimiter stands

## Main results

* `IsToken.convertRange_eq`, `convertRange_of_isWord`: a token and a word as a range
* `forall_convertVersion`: the characters of converted versions
-/

namespace AssetBridge

namespace Text

/-! ## Characters of texts that are rewritten -/

theorem mem_replaceFrom {old new : Text} {k : Nat} {s : Text} {c : Char}
    (h : c ∈ replaceFrom old new k s) : c ∈ s ∨ c ∈ new := by
  induction s generalizing k with
  | nil => cases k <;> cases h
  | cons d s ih =>
    have hbehind : ∀ {k}, c ∈ replaceFrom old new k s → c ∈ d :: s ∨ c ∈ new := fun hc =>
      (ih hc).imp_left (List.mem_cons_of_mem d)
    cases k with
    | succ k => exact hbehind h
    | zero =>
      rw [replaceFrom] at h
      split at h
      · rcases List.mem_append.1 h with h | h
        · exact .inr h
        · exact hbehind h
      · rcases List.mem_cons.1 h with rfl | h
        · exact .inl List.mem_cons_self
        · exact hbehind h

/-- A replacement brings in the characters of the new text only. -/
theorem mem_replaceAll {old new s : Text} (hne : old ≠ []) {c : Char}
    (h : c ∈ replaceAll old new s) : c ∈ s ∨ c ∈ new := by
  have hold : old.isEmpty = false := by simpa using hne
  rw [replaceAll, hold] at h
  exact mem_replaceFrom h

theorem mem_substitute {p : Char → Bool} {new s : Text} {c : Char}
    (h : c ∈ substitute p new s) : c ∈ s ∨ c ∈ new := by
  obtain ⟨d, hd, hc⟩ := List.mem_flatMap.1 h
  split at hc
  · exact .inr hc
  · obtain rfl := List.mem_singleton.1 hc
    exact .inl hd

end Text

namespace Source

open Text (IsWord)

/-! ## One token -/

/-- **A word as a range takes it**: in small letters, and without a letter v in front of a
number. -/
def spelled (s : Text) : Text := dropVersionLetters (Text.lower s)

theorem dropVersionLetters_sublist (s : Text) : (dropVersionLetters s).Sublist s := by
  induction s with
  | nil => exact List.Sublist.refl _
  | cons c s ih =>
    rw [dropVersionLetters]
    split
    · exact ih.cons c
    · exact ih.cons_cons c

/-- The number behind a letter that goes stays. -/
theorem dropVersionLetters_ne_nil {s : Text} (h : s ≠ []) : dropVersionLetters s ≠ [] := by
  induction s with
  | nil => exact absurd rfl h
  | cons c s ih =>
    rw [dropVersionLetters]
    split
    · rename_i hv
      refine ih ?_
      rintro rfl
      simp at hv
    · exact List.cons_ne_nil _ _

theorem isWord_dropVersionLetters {s : Text} (h : IsWord s) : IsWord (dropVersionLetters s) :=
  ⟨dropVersionLetters_ne_nil h.ne_nil,
    fun c hc => h.isReserved_eq_false c ((dropVersionLetters_sublist s).mem hc)⟩

theorem isWord_spelled {s : Text} (h : IsWord s) : IsWord (spelled s) :=
  isWord_dropVersionLetters h.lower

/-- Where no operator has a blank behind it there is nothing to tighten. -/
theorem foldl_tighten_eq_self {s : Text}
    (h : ∀ o ∈ tightOperators, Text.contains (o ++ [' ']) s = false) :
    tightOperators.foldl tighten s = s := by
  have hall : ∀ l : List Text, (∀ o ∈ l, Text.contains (o ++ [' ']) s = false) →
      l.foldl tighten s = s := by
    intro l hl
    induction l with
    | nil => rfl
    | cons o l ih =>
      have ho : tighten s o = s := Text.replaceAll_eq_self (by simp) (hl o List.mem_cons_self) _
      rw [List.foldl_cons, ho]
      exact ih fun o' ho' => hl o' (List.mem_cons_of_mem o ho')
  exact hall _ h

/-- **Cleaning** takes the letters in front of numbers: every other step looks for an operator with
a blank beside it, or for an ampersand. -/
theorem clean_eq {s : Text} (htight : ∀ o ∈ tightOperators, Text.contains (o ++ [' ']) s = false)
    (hbar : ' ' ∉ s ∨ '|' ∉ s) (hand : '&' ∉ s) : clean s = dropVersionLetters s := by
  have hmem : ∀ {c : Char}, c ∉ s → c ∉ dropVersionLetters s := fun h hc =>
    h ((dropVersionLetters_sublist s).mem hc)
  have hbars : Text.replaceAll [' ', '|', '|'] ['|', '|'] (dropVersionLetters s) =
      dropVersionLetters s := by
    refine Text.replaceAll_eq_self (by simp) ?_ _
    rcases hbar with h | h
    · exact Text.contains_eq_false (c := ' ') (by simp) (hmem h)
    · exact Text.contains_eq_false (c := '|') (by simp) (hmem h)
  have hands : ∀ old ∈ [[' ', '&', '&'], ['&', '&']],
      Text.replaceAll old [','] (dropVersionLetters s) = dropVersionLetters s := by
    intro old hold
    refine Text.replaceAll_eq_self (by rintro rfl; simp at hold) ?_ _
    refine Text.contains_eq_false (c := '&') ?_ (hmem hand)
    simp only [List.mem_cons, List.not_mem_nil, or_false] at hold
    rcases hold with rfl | rfl <;> simp
  calc clean s
      = Text.replaceAll ['&', '&'] [','] (Text.replaceAll [' ', '&', '&'] [',']
          (Text.replaceAll [' ', '|', '|'] ['|', '|']
            (dropVersionLetters (tightOperators.foldl tighten s)))) := rfl
    _ = dropVersionLetters s := by
      rw [foldl_tighten_eq_self htight, hbars, hands _ (by simp), hands _ (by simp)]

/-- **Single tokens**: no delimiter stands in the text, and no ampersand, which would become
one. -/
structure IsToken (s : Text) : Prop where
  ne_nil : s ≠ []
  isPlain : ∀ c ∈ s, isPlain c = true
  ampersand_not_mem : '&' ∉ s

theorem isPlain_of_isReserved_eq_false {c : Char} (h : Text.isReserved c = false) :
    isPlain c = true := by
  rw [isPlain, Bool.not_eq_true', Bool.eq_false_iff]
  intro hc
  simp only [Bool.or_eq_true, decide_eq_true_eq] at hc
  rcases hc with ((((((rfl | rfl) | rfl) | rfl) | rfl) | rfl) | rfl) | rfl <;>
    exact absurd h (by decide)

theorem isToken_of_isWord {s : Text} (h : IsWord s) : IsToken s :=
  ⟨h.ne_nil, fun c hc => isPlain_of_isReserved_eq_false (h.isReserved_eq_false c hc),
    h.not_mem rfl⟩

namespace IsToken

theorem dropVersionLetters {s : Text} (h : IsToken s) : IsToken (dropVersionLetters s) where
  ne_nil := dropVersionLetters_ne_nil h.ne_nil
  isPlain c hc := h.isPlain c ((dropVersionLetters_sublist s).mem hc)
  ampersand_not_mem hc := h.ampersand_not_mem ((dropVersionLetters_sublist s).mem hc)

theorem blank_not_mem {s : Text} (h : IsToken s) : ' ' ∉ s := fun hc =>
  absurd (h.isPlain ' ' hc) (by decide)

theorem clean_eq {s : Text} (h : IsToken s) : clean s = Source.dropVersionLetters s :=
  Source.clean_eq (fun _ _ => Text.contains_eq_false (c := ' ') (by simp) h.blank_not_mem)
    (.inl h.blank_not_mem) h.ampersand_not_mem

theorem tokenize_eq {s : Text} (h : IsToken s) : tokenize s = [s] := by
  simpa using tokenize_flatten (.last h.isPlain)

/-- A token is none of the delimiters, so it is an atom. -/
theorem ofToken_eq {s : Text} (h : IsToken s) (atStart : Bool) :
    TokenKind.ofToken s atStart = .atom := by
  have hne : ∀ t : Text, t.all Source.isPlain = false → s ≠ t := by
    rintro t ht rfl
    rw [List.all_eq_true.2 h.isPlain] at ht
    cases ht
  have hstructural :
      Text.isOneOf [[], "<".toList, ">".toList, "=".toList, ",".toList] s = false := by
    rw [Bool.eq_false_iff, ne_eq, Text.isOneOf_iff]
    intro hm
    rcases List.mem_cons.1 hm with rfl | hm
    · exact h.ne_nil rfl
    · have hall : ∀ t ∈ ["<".toList, ">".toList, "=".toList, ",".toList],
          t.all Source.isPlain = false := by decide
      exact hne s (hall s hm) rfl
  have hequal : s ≠ ['='] := hne ['='] rfl
  rw [TokenKind.ofToken, if_neg (hne _ rfl), hstructural, if_neg (hne _ rfl),
    if_neg (hne _ rfl), if_neg (hne _ rfl), if_neg (hne _ rfl)]
  simp [hequal]

/-- **A token is a range of one atom**: it is spelled as ranges are and converted, behind a tilde
if it is a lone number. -/
theorem convertRange_eq {s : Text} (h : IsToken (Text.lower s)) :
    convertRange s = convertVersion
      (if Pending.isLoneMajor (spelled s) 0 none then '~' :: spelled s else spelled s) := by
  have hspelled : IsToken (spelled s) := h.dropVersionLetters
  have htokens : tokenize (clean (Text.lower s)) = [spelled s] := by
    rw [h.clean_eq]
    exact hspelled.tokenize_eq
  rw [convertRange, htokens]
  show Grammar.opening [spelled s] = _
  rw [Grammar.opening_cons hspelled.ne_nil, Pending.step, hspelled.ofToken_eq]
  have hatom : Pending.none.atom (spelled s) 0 none = (fun t => (Pending.none, t)) <$>
      convertVersion
        (if Pending.isLoneMajor (spelled s) 0 none then '~' :: spelled s else spelled s) := rfl
  rw [List.head?_nil]
  show (do
    let x ← Pending.none.atom (spelled s) 0 none
    let r ← later x.1 []
    return (if none = some hyphenMarker then lowerSide x.2 else x.2) ++ r) = _
  rw [hatom]
  generalize convertVersion _ = x
  cases x with
  | error e => rfl
  | ok t => exact congrArg Except.ok (List.append_nil t)

end IsToken

/-- **A word is a range of one atom.** -/
theorem convertRange_of_isWord {s : Text} (h : IsWord s) :
    convertRange s = convertVersion
      (if Pending.isLoneMajor (spelled s) 0 none then '~' :: spelled s else spelled s) :=
  (isToken_of_isWord h.lower).convertRange_eq

/-! ## The characters of conversions -/

section Characters

variable {p : Char → Prop} {s : Text} (hs : ∀ c ∈ s, p c)

include hs

theorem forall_dropRegistryMarkers : ∀ c ∈ dropRegistryMarkers s, p c := by
  intro c hc
  -- The two markers are replaced by nothing, one after the other.
  have hdrop : dropRegistryMarkers s = Text.replaceAll "-bower-packages".toList []
      (Text.replaceAll "-npm-packages".toList [] s) := rfl
  rw [hdrop] at hc
  rcases Text.mem_replaceAll (by decide) hc with hc | hc
  · rcases Text.mem_replaceAll (by decide) hc with hc | hc
    · exact hs c hc
    · cases hc
  · cases hc

theorem forall_collapseWildcards : ∀ c ∈ collapseWildcards s, p c := fun c hc =>
  hs c ((collapseWildcards_sublist s).mem hc)

end Characters

theorem component?_append {s t r : Text} (h : component? s = some (t, r)) : t ++ r = s := by
  unfold component? at h
  split at h
  · obtain ⟨rfl, rfl⟩ := Prod.mk.inj (Option.some.inj h)
    rfl
  · obtain ⟨rfl, rfl⟩ := Prod.mk.inj (Option.some.inj h)
    rfl
  · split at h
    · cases h
    · obtain ⟨rfl, rfl⟩ := Prod.mk.inj (Option.some.inj h)
      exact List.takeWhile_append_dropWhile

/-- The head of a version and its suffix are the version. -/
theorem headUpTo_append {n : Nat} {s head suffix : Text} (h : headUpTo n s = some (head, suffix)) :
    head ++ suffix = s := by
  induction n generalizing s head suffix with
  | zero => cases h
  | succ n ih =>
    rw [headUpTo] at h
    split at h
    · cases h
    · rename_i t r ht
      have hsplit := component?_append ht
      split at h
      · obtain ⟨rfl, rfl⟩ := Prod.mk.inj (Option.some.inj h)
        exact hsplit
      · split at h
        · obtain ⟨⟨head', suffix'⟩, hm, he⟩ := Option.map_eq_some_iff.1 h
          obtain ⟨rfl, rfl⟩ := Prod.mk.inj he
          rw [← hsplit, List.append_assoc, List.cons_append, ih hm]
        · cases h

theorem isComponent_of_component? {s t r : Text} (h : component? s = some (t, r)) :
    IsComponent t := by
  unfold component? at h
  split at h
  · obtain ⟨rfl, -⟩ := Prod.mk.inj (Option.some.inj h)
    exact .wild .letter
  · obtain ⟨rfl, -⟩ := Prod.mk.inj (Option.some.inj h)
    exact .wild .star
  · split at h
    · cases h
    · rename_i hne
      obtain ⟨rfl, -⟩ := Prod.mk.inj (Option.some.inj h)
      exact .digits (by simpa using hne) (List.all_eq_true.1 List.all_takeWhile)

/-- The head of a version is written in the characters of components. -/
theorem isAtomChar_of_mem_headUpTo {n : Nat} {s head suffix : Text}
    (h : headUpTo n s = some (head, suffix)) : ∀ c ∈ head, Grammar.isAtomChar c = true := by
  induction n generalizing s head suffix with
  | zero => cases h
  | succ n ih =>
    rw [headUpTo] at h
    split at h
    · cases h
    · rename_i t r ht
      have hcomponent := isComponent_of_component? ht
      split at h
      · obtain ⟨rfl, -⟩ := Prod.mk.inj (Option.some.inj h)
        exact fun c hc => hcomponent.isAtomChar hc
      · split at h
        · obtain ⟨⟨head', suffix'⟩, hm, he⟩ := Option.map_eq_some_iff.1 h
          obtain ⟨rfl, -⟩ := Prod.mk.inj he
          intro c hc
          rcases List.mem_append.1 hc with hc | hc
          · exact hcomponent.isAtomChar hc
          · rcases List.mem_cons.1 hc with rfl | hc
            · rfl
            · exact ih hm c hc
        · cases h

/-- A single letter and what stands behind it are the version. -/
theorem append_splitLetter (s : Text) : (splitLetter s).1 ++ (splitLetter s).2 = s := by
  unfold splitLetter
  split
  · split <;> rfl
  · rfl

/-- What stands behind the letter is an ending of the version. -/
theorem splitLetter_isSuffix (s : Text) : (splitLetter s).2 <:+ s :=
  ⟨(splitLetter s).1, append_splitLetter s⟩

/-- A version is converted as soon as what stands behind its letter is. -/
theorem exists_convertVersion_of_body {s : Text}
    (h : ∃ t, convertDate (convertSuffix (splitLetter
      (Text.substitute (· = '–') ['-'] s)).2) = .ok t) : ∃ t, convertVersion s = .ok t := by
  obtain ⟨t, ht⟩ := h
  by_cases hempty : s.isEmpty = true
  · exact ⟨anyVersion, by rw [convertVersion, if_pos hempty]; rfl⟩
  by_cases hlatest : s = latest
  · exact ⟨latestConstraint, by rw [convertVersion, if_neg hempty, if_pos hlatest]; rfl⟩
  exact ⟨_, by rw [convertVersion, if_neg hempty, if_neg hlatest]; simp only [ht]; rfl⟩

section Conversion

variable {p : Char → Prop} (hdigit : ∀ c : Char, c.isDigit = true → p c)
  (hwritten : ∀ c ∈ '-' :: suffixChars, p c)

include hdigit hwritten

theorem forall_convertSuffix {s : Text} (hs : ∀ c ∈ s, p c) : ∀ c ∈ convertSuffix s, p c := by
  have hmarkers := forall_dropRegistryMarkers hs
  refine forall_collapseWildcards ?_
  split
  · exact hmarkers
  · rename_i head suffix hhead
    have hsplit := headUpTo_append hhead
    obtain ⟨t, ht, -⟩ := exists_targetSuffix
      (dropSuffixSign ((Text.lower (dropRegistryMarkers s)).drop head.length))
    rw [ht]
    intro c hc
    rcases List.mem_append.1 hc with hc | hc
    · exact hmarkers c (hsplit ▸ List.mem_append_left _ hc)
    · rcases List.mem_cons.1 hc with rfl | hc
      · exact hwritten '-' (by decide)
      · rcases t.isDigit_or_mem hc with hd | hm
        · exact hdigit c hd
        · exact hwritten c (by simp [hm])

theorem forall_padded (width : Nat) (i : Int) : ∀ c ∈ Numeral.padded width i, p c := by
  have hpad : ∀ width n, ∀ c ∈ Numeral.padLeft width (Numeral.digits n), p c := by
    intro width n c hc
    rcases List.mem_append.1 hc with hc | hc
    · obtain ⟨-, rfl⟩ := List.mem_replicate.1 hc
      exact hdigit '0' rfl
    · exact hdigit c (Numeral.isDigit_of_mem_digits hc)
  cases i with
  | ofNat n => exact hpad width n
  | negSucc n =>
    intro c hc
    rcases List.mem_cons.1 hc with rfl | hc
    · exact hwritten '-' (by decide)
    · exact hpad _ _ c hc

theorem forall_convertDate {s t : Text} (hs : ∀ c ∈ s, p c) (h : convertDate s = .ok t) :
    ∀ c ∈ t, p c := by
  unfold convertDate at h
  split at h
  · split at h
    · obtain ⟨minor, hminor, h⟩ := Except.exists_of_bind_eq_ok h
      obtain ⟨revision, hrevision, h⟩ := Except.exists_of_bind_eq_ok h
      obtain rfl := Except.ok.inj h
      obtain ⟨i, -, rfl⟩ := Except.exists_of_map_eq_ok hminor
      obtain ⟨j, -, rfl⟩ := Except.exists_of_map_eq_ok hrevision
      intro c hc
      simp only [List.mem_append, List.mem_cons] at hc
      rcases hc with hc | rfl | hc | hc
      · exact hs c ((List.takeWhile_sublist _).mem hc)
      · exact hwritten '.' (by decide)
      · exact forall_padded hdigit hwritten 3 i c hc
      · exact forall_padded hdigit hwritten 3 j c hc
    · obtain rfl := Except.ok.inj h
      exact hs
  · obtain rfl := Except.ok.inj h
    exact hs

/-- **The characters of a converted version** are those it was written with, digits, and the few
that conversions write. Only for the newest version there is a text of its own. -/
theorem forall_convertVersion {s t : Text} (hne : s ≠ []) (hlatest : s ≠ latest)
    (hs : ∀ c ∈ s, p c) (h : convertVersion s = .ok t) : ∀ c ∈ t, p c := by
  have hsub : ∀ c ∈ Text.substitute (· = '–') ['-'] s, p c := by
    intro c hc
    rcases Text.mem_substitute hc with hc | hc
    · exact hs c hc
    · obtain rfl := List.mem_singleton.1 hc
      exact hwritten '-' (by decide)
  have hempty : s.isEmpty = false := by simpa using hne
  simp only [convertVersion, hempty, hlatest, Bool.false_eq_true, if_false] at h
  rw [← append_splitLetter (Text.substitute (· = '–') ['-'] s)] at hsub
  obtain ⟨body, hbody, h⟩ := Except.exists_of_bind_eq_ok h
  obtain rfl := Except.ok.inj h
  intro c hc
  rcases List.mem_append.1 hc with hc | hc
  · exact hsub c (List.mem_append_left _ hc)
  · exact forall_convertDate hdigit hwritten (forall_convertSuffix hdigit hwritten fun d hd =>
      hsub d (List.mem_append_right _ hd)) hbody c hc

end Conversion

/-- **A converted word** has no reserved character, unless it stands for the newest version. -/
theorem isReserved_eq_false_of_convertVersion {s t : Text} (h : IsWord s) (hlatest : s ≠ latest)
    (ht : convertVersion s = .ok t) : ∀ c ∈ t, Text.isReserved c = false := by
  have hwritten : ∀ c ∈ '-' :: suffixChars, Text.isReserved c = false :=
    List.all_iff_forall_prop.1 rfl
  exact forall_convertVersion (fun _ => Text.isReserved_eq_false_of_isDigit) hwritten h.ne_nil
    hlatest h.isReserved_eq_false ht

end Source

end AssetBridge
