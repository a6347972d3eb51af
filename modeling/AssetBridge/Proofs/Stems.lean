import AssetBridge.Proofs.Suffixes

/-!
# Versions with a suffix

A version with a suffix is a stem, that is, perhaps a letter and one to three components, and what
stands behind them. Converting it shortens a run of wildcards and puts a canonical suffix behind
the stem. What comes out is a version of the same kind, and converting it again changes nothing.

## Main definitions

* `squeeze`: components with their runs of wildcards shortened
* `Stem`, `Stem.collapsed`: what stands in front of a suffix, and what becomes of it

## Main results

* `collapseWildcards_join_append`: a run of wildcards in front of a suffix
* `Stem.convertVersion_append`: the conversion of a version with a suffix
* `Stem.convertVersion_stable`: converted versions are canonical, and stable under conversion
-/

namespace AssetBridge.Source

/-! ## Wildcards in front of a suffix -/

/-- A run of wildcards becomes a single one. -/
def squeeze : List Text → List Text
  | [] => []
  | [t] => [t]
  | t :: u :: l => if t = ['x'] ∧ u = ['x'] then squeeze (u :: l) else t :: squeeze (u :: l)

theorem squeeze_sublist (l : List Text) : (squeeze l).Sublist l := by
  induction l using squeeze.induct with
  | case1 => exact List.Sublist.refl _
  | case2 t => exact List.Sublist.refl _
  | case3 t u l h ih =>
    rw [squeeze, if_pos h]
    exact ih.cons t
  | case4 t u l h ih =>
    rw [squeeze, if_neg h]
    exact ih.cons_cons t

theorem exists_squeeze_cons (t : Text) (l : List Text) : ∃ m, squeeze (t :: l) = t :: m := by
  induction l generalizing t with
  | nil => exact ⟨[], rfl⟩
  | cons u l ih =>
    rw [squeeze]
    by_cases h : t = ['x'] ∧ u = ['x']
    · rw [if_pos h, h.1, ← h.2]
      exact ih u
    · exact ⟨_, if_neg h⟩

/-- Shortened runs are as short as they get. -/
theorem squeeze_squeeze (l : List Text) : squeeze (squeeze l) = squeeze l := by
  induction l using squeeze.induct with
  | case1 => rfl
  | case2 t => rfl
  | case3 t u l h ih => rwa [squeeze, if_pos h]
  | case4 t u l h ih =>
    rw [squeeze, if_neg h]
    -- The next component is still the first one behind this one.
    obtain ⟨m, hm⟩ := exists_squeeze_cons u l
    rw [hm] at ih ⊢
    rw [squeeze, if_neg h, ih]

theorem squeeze_eq_self {l : List Text} (h : ['x'] ∉ l) : squeeze l = l := by
  induction l using squeeze.induct with
  | case1 => rfl
  | case2 t => rfl
  | case3 t u l hx ih => exact absurd (hx.1 ▸ List.mem_cons_self) h
  | case4 t u l hx ih => rw [squeeze, if_neg hx, ih fun hm => h (List.mem_cons_of_mem t hm)]

/-- A point and the component behind it are a wildcard when the component is one. -/
theorem IsComponent.startsWith_wildcard {u : Text} (h : IsComponent u) (r : Text) :
    Text.startsWith wildcard ('.' :: (u ++ r)) = decide (u = ['x']) := by
  rw [Bool.eq_iff_iff, startsWith_wildcard_cons_iff, decide_eq_true_iff, and_iff_right rfl]
  cases h with
  | wild w => cases w <;> simp [Grammar.Wildcard.char]
  | digits hne hd =>
    obtain ⟨c, s, rfl⟩ := List.exists_cons_of_ne_nil hne
    have hc : c ≠ 'x' := Text.ne_of_isDigit (hd c (by simp)) rfl
    simp [hc]

/-- A component that is no wildcard in front of another one is kept. -/
theorem IsComponent.dropRepeats_append {u r : Text} (h : IsComponent u)
    (hr : u = ['x'] → Text.startsWith wildcard r = false) :
    dropRepeats ('.' :: (u ++ r)) = '.' :: (u ++ dropRepeats r) := by
  by_cases hu : u = ['x']
  · have hdrop := dropRepeats_wildcard r
    rw [hr hu] at hdrop
    rw [hu]
    exact hdrop
  · have hstart : Text.startsWith wildcard ('.' :: (u ++ r)) = false := by
      rw [h.startsWith_wildcard, decide_eq_false hu]
    rw [dropRepeats_cons hstart, dropRepeats_append_left h.point_not_mem]

/-- Behind points, of a run of wildcards the last one stays. -/
theorem dropRepeats_flatMap {l : List Text} (h : ∀ u ∈ l, IsComponent u) {t : Text}
    (ht : 'x' ∉ t) :
    dropRepeats (l.flatMap (['.'] ++ ·) ++ '-' :: t) =
      (squeeze l).flatMap (['.'] ++ ·) ++ '-' :: t := by
  have hsuffix : dropRepeats ('-' :: t) = '-' :: t :=
    dropRepeats_eq_self (Text.contains_eq_false (c := 'x') (by decide) (by simpa using ht))
  have hcons : ∀ (u : Text) (l : List Text), (u :: l).flatMap (['.'] ++ ·) ++ '-' :: t =
      '.' :: (u ++ (l.flatMap (['.'] ++ ·) ++ '-' :: t)) := by
    simp
  induction l using squeeze.induct with
  | case1 => exact hsuffix
  | case2 u =>
    have hnone : Text.startsWith wildcard ('-' :: t) = false :=
      Text.startsWith_cons_eq_false (by decide) ['x'] t
    rw [squeeze, hcons, List.flatMap_nil, List.nil_append,
      (h u (by simp)).dropRepeats_append fun _ => hnone, hsuffix]
  | case3 u v l hx ih =>
    obtain ⟨rfl, rfl⟩ := hx
    rw [squeeze, if_pos ⟨rfl, rfl⟩, ← ih fun w hw => h w (List.mem_cons_of_mem _ hw), hcons, hcons]
    exact dropRepeats_pair [] _
  | case4 u v l hx ih =>
    have hnext : u = ['x'] → Text.startsWith wildcard
        ((v :: l).flatMap (['.'] ++ ·) ++ '-' :: t) = false := by
      intro hu
      rw [hcons, (h v (by simp)).startsWith_wildcard, decide_eq_false fun hv => hx ⟨hu, hv⟩]
    rw [squeeze, if_neg hx, hcons u (v :: l), hcons u, (h u (by simp)).dropRepeats_append hnext,
      ih fun w hw => h w (List.mem_cons_of_mem u hw)]

/-- **A run of wildcards** in front of a suffix is shortened, and nothing else changes. -/
theorem collapseWildcards_join_append {first : Text} {l : List Text}
    (h : ∀ t ∈ first :: l, IsComponent t) {t : Text} (ht : 'x' ∉ t) :
    collapseWildcards (Text.join ['.'] (first :: l) ++ '-' :: t) =
      Text.join ['.'] (first :: squeeze l) ++ '-' :: t := by
  have hfirst := (h first (by simp)).point_not_mem
  have hrest : ∀ u ∈ l, IsComponent u := fun u hu => h u (List.mem_cons_of_mem first hu)
  rw [collapseWildcards_eq_dropRepeats, Text.join_cons, Text.join_cons, List.append_assoc,
    List.append_assoc, dropRepeats_append_left hfirst, dropRepeats_flatMap hrest ht]

/-! ## Versions with a suffix -/

/-- A suffix opens with a letter or a sign. -/
theorem isDigit_eq_false_of_opensSuffix {s : Text} (h : opensSuffix s = true) :
    ∀ c ∈ s.head?, c.isDigit = false := by
  rintro c hc
  obtain ⟨r, rfl⟩ := List.head?_eq_some_iff.1 hc
  simp only [opensSuffix, Bool.or_eq_true, Bool.and_eq_true, decide_eq_true_eq] at h
  rcases h with h | ⟨rfl | rfl, -⟩
  · rw [Bool.eq_false_iff]
    intro hd
    simp [Text.isLetter_eq_false_of_isDigit hd] at h
  · rfl
  · rfl

/-- **The stem of a version**: perhaps a small letter, and one to three components, the first of
which is no date. Without a letter it does not open with the letter of a wildcard. -/
structure Stem where
  letter : Option Char
  first : Text
  behind : List Text
  isSmall_letter : ∀ c ∈ letter, Text.isSmall c = true
  isComponent : ∀ t ∈ first :: behind, IsComponent t
  length_behind_le : behind.length ≤ 2
  length_first_lt : first.length < 7
  first_ne : letter = none → first ≠ ['x']

namespace Stem

/-- The components of a stem. -/
def head (p : Stem) : Text := Text.join ['.'] (p.first :: p.behind)

/-- The letter and the components. -/
def text (p : Stem) : Text := p.letter.toList ++ p.head

theorem isComponent_first (p : Stem) : IsComponent p.first := p.isComponent p.first (by simp)

/-- The stem with its run of wildcards shortened. -/
def collapsed (p : Stem) : Stem where
  letter := p.letter
  first := p.first
  behind := squeeze p.behind
  isSmall_letter := p.isSmall_letter
  isComponent := by
    intro t ht
    rcases List.mem_cons.1 ht with rfl | ht
    · exact p.isComponent_first
    · exact p.isComponent t (List.mem_cons_of_mem _ ((squeeze_sublist p.behind).subset ht))
  length_behind_le := Nat.le_trans ((squeeze_sublist p.behind).length_le) p.length_behind_le
  length_first_lt := p.length_first_lt
  first_ne := p.first_ne

theorem not_mem_head (p : Stem) {c : Char} (hc : Grammar.isAtomChar c = false) : c ∉ p.head :=
  not_mem_join p.isComponent hc

/-- A character of a component opens the components; it is a small letter only in a wildcard. -/
theorem exists_head_eq_cons (p : Stem) : ∃ c r, p.head = c :: r ∧ Grammar.isAtomChar c = true ∧
    (p.first ≠ ['x'] → Text.isSmall c = false) := by
  have hfirst := p.isComponent_first
  rw [head, Text.join_cons]
  revert hfirst
  generalize p.first = t
  rintro (⟨hne, hd⟩ | w)
  · obtain ⟨c, r, rfl⟩ := List.exists_cons_of_ne_nil hne
    have hc : c.isDigit = true := hd c (by simp)
    exact ⟨c, _, rfl, Grammar.isAtomChar_of_isDigit hc,
      fun _ => Text.isSmall_eq_false_of_isDigit hc⟩
  · refine ⟨w.char, _, rfl, w.isAtomChar_char, fun hx => ?_⟩
    cases w with
    | letter => exact absurd rfl hx
    | star => rfl

/-- What is behind the letter of a version is its components and its suffix. -/
theorem splitLetter_append (p : Stem) (r : Text) :
    splitLetter (p.text ++ r) = (p.letter.toList, p.head ++ r) := by
  obtain ⟨c, s, hc, hatom, hsmall⟩ := p.exists_head_eq_cons
  rw [text]
  cases hletter : p.letter with
  | none =>
    have hs := hsmall (p.first_ne hletter)
    rw [hc]
    simp [splitLetter, hs]
  | some d =>
    -- The second letter of the prefix of branch names opens no component.
    have hd := p.isSmall_letter d hletter
    have hne : 'e' ≠ c := by
      rintro rfl
      cases hatom
    have hbranch : Text.startsWith branchPrefix (d :: (p.head ++ r)) = false := by
      by_cases hd' : 'd' = d
      · subst hd'
        rw [hc]
        exact (Text.startsWith_cons_self 'd' _ _).trans (Text.startsWith_cons_eq_false hne _ _)
      · exact Text.startsWith_cons_eq_false hd' _ _
    simp [splitLetter, hd, hbranch]

theorem text_append_ne_latest (p : Stem) (r : Text) : p.text ++ r ≠ latest := by
  obtain ⟨c, s, hc, hatom, -⟩ := p.exists_head_eq_cons
  intro h
  have hl : latest = ['l', 'a', 't', 'e', 's', 't'] := rfl
  rw [text, hc, hl] at h
  cases hletter : p.letter with
  | none =>
    obtain rfl : c = 'l' := by simpa [hletter] using (List.cons.inj (hletter ▸ h)).1
    cases hatom
  | some d =>
    obtain rfl : c = 'a' := by
      rw [hletter] at h
      exact (List.cons.inj (List.cons.inj h).2).1
    cases hatom

theorem not_mem_text (p : Stem) {c : Char} (hc : Grammar.isAtomChar c = false)
    (hs : Text.isSmall c = false) : c ∉ p.text := by
  rw [text, List.mem_append, not_or]
  refine ⟨fun hm => ?_, p.not_mem_head hc⟩
  have hsmall := p.isSmall_letter c (by simpa using hm)
  rw [hs] at hsmall
  cases hsmall

/-- The characters of the components stay as they are when the version is put in small letters. -/
theorem isSettled_of_mem_head (p : Stem) : ∀ c ∈ p.head, Text.isSettled c = true := fun _ hc =>
  isSettled_of_isAtomChar (isAtomChar_of_mem_join p.isComponent hc)

/-- No date opens a version with this stem. -/
theorem convertDate_append (p : Stem) (r : Text) :
    convertDate (p.head ++ '-' :: r) = .ok (p.head ++ '-' :: r) := by
  refine convertDate_eq_self (Nat.lt_of_le_of_lt ?_ p.length_first_lt)
  have hrest : (p.behind.flatMap (['.'] ++ ·) ++ '-' :: r).takeWhile Text.isDecimal = [] := by
    cases p.behind <;> rfl
  rw [head, Text.join_cons, List.append_assoc, List.takeWhile_append, hrest, List.append_nil]
  split
  · exact Nat.le_refl _
  · exact (List.takeWhile_prefix _).length_le

/-- **Converting a version with a suffix**: what stands behind the components is read in small
letters and without its sign. -/
theorem convertVersion_append (p : Stem) {s : Text} (hdash : '–' ∉ p.text ++ s)
    (hmarkers : ∀ m ∈ registryMarkers, Text.contains m (p.head ++ s) = false)
    (hhead : versionHead? (p.head ++ s) = some (p.head, s)) :
    convertVersion (p.text ++ s) = .ok (p.collapsed.text ++
      '-' :: targetSuffix (dropSuffixSign (Text.lowerAfter p.head.reverse s))) := by
  have hne : p.text ++ s ≠ [] := by
    obtain ⟨c, r, hc, -⟩ := p.exists_head_eq_cons
    simp [text, hc]
  have hlower : (Text.lower (p.head ++ s)).drop p.head.length =
      Text.lowerAfter p.head.reverse s :=
    Text.drop_lower_append p.isSettled_of_mem_head s
  obtain ⟨t, ht, -⟩ := exists_targetSuffix (dropSuffixSign (Text.lowerAfter p.head.reverse s))
  have hx : 'x' ∉ t.text := t.not_mem_text rfl (by decide)
  have hsuffix : convertSuffix (p.head ++ s) = p.collapsed.head ++ '-' :: t.text := by
    simp only [convertSuffix, dropRegistryMarkers_eq_self hmarkers, hhead, hlower, ht]
    exact collapseWildcards_join_append p.isComponent hx
  rw [convertVersion_eq_map hne (p.text_append_ne_latest s) hdash (p.splitLetter_append s), hsuffix,
    p.collapsed.convertDate_append, ht, text, List.append_assoc]
  rfl

/-- **Converted versions are canonical and stable.** Whatever suffix is read behind the components
of a version, its conversion is the stem with its run of wildcards shortened and a canonical suffix,
and converting that again changes nothing. -/
theorem convertVersion_stable (p : Stem) {s : Text} (hdash : '–' ∉ p.text ++ s)
    (hmarkers : ∀ m ∈ registryMarkers, Text.contains m (p.text ++ s) = false)
    (hhead : versionHead? (p.head ++ s) = some (p.head, s)) :
    ∃ t : CanonicalSuffix,
      convertVersion (p.text ++ s) = .ok (p.collapsed.text ++ '-' :: t.text) ∧
      convertVersion (p.collapsed.text ++ '-' :: t.text) =
        .ok (p.collapsed.text ++ '-' :: t.text) := by
  have hpiece : p.head ++ s <:+: p.text ++ s := by
    rw [text, List.append_assoc]
    exact (List.suffix_append _ _).isInfix
  have hbody : ∀ m ∈ registryMarkers, Text.contains m (p.head ++ s) = false := fun m hm =>
    Text.contains_eq_false_of_isInfix (hmarkers m hm) hpiece
  obtain ⟨t, ht, -⟩ := exists_targetSuffix (dropSuffixSign (Text.lowerAfter p.head.reverse s))
  have hfirst := p.convertVersion_append hdash hbody hhead
  rw [ht] at hfirst
  refine ⟨t, hfirst, ?_⟩
  -- The converted version has a stem and a suffix again, and the suffix is its own conversion.
  have hdash' : '–' ∉ p.collapsed.text ++ '-' :: t.text := by
    rw [List.mem_append, not_or]
    have ht' : '–' ∉ t.text := t.not_mem_text rfl (by decide)
    exact ⟨p.collapsed.not_mem_text rfl rfl, by simpa using ht'⟩
  have hmarkers' : ∀ m ∈ registryMarkers,
      Text.contains m (p.collapsed.head ++ '-' :: t.text) = false := by
    intro m hm
    have hk : ∀ m ∈ registryMarkers, 'k' ∈ m := by decide
    refine Text.contains_eq_false (hk m hm) ?_
    have ht' : 'k' ∉ t.text := t.not_mem_text rfl (by decide)
    rw [List.mem_append, not_or]
    exact ⟨p.collapsed.not_mem_head rfl, by simpa using ht'⟩
  have hhead' : versionHead? (p.collapsed.head ++ '-' :: t.text) =
      some (p.collapsed.head, '-' :: t.text) := by
    refine headUpTo_join_append 3 ?_ p.collapsed.isComponent ?_ t.opensSuffix_text
    · exact Nat.lt_succ_of_le p.collapsed.length_behind_le
    · rintro c ⟨⟩
      rfl
  have hagain := p.collapsed.convertVersion_append hdash' hmarkers' hhead'
  have hsign : ∀ b, dropSuffixSign (Text.lowerAfter b ('-' :: t.text)) =
      Text.lowerAfter ('-' :: b) t.text := fun _ => rfl
  rw [hsign, t.targetSuffix_lower] at hagain
  have hidem : p.collapsed.collapsed.text = p.collapsed.text := by
    simp only [text, head, collapsed, squeeze_squeeze]
  rwa [hidem] at hagain

/-- Behind a letter, and with a run of wildcards in front of the suffix. -/
theorem convertVersion_stable_wildBeta : ∃ t : CanonicalSuffix,
    convertVersion "v1.x.x+Beta_2.0 é".toList = .ok ("v1.x".toList ++ '-' :: t.text) ∧
    convertVersion ("v1.x".toList ++ '-' :: t.text) = .ok ("v1.x".toList ++ '-' :: t.text) := by
  have hcomponents : ∀ t ∈ [['1'], ['x'], ['x']], IsComponent t := by
    intro t ht
    simp only [List.mem_cons, List.not_mem_nil, or_false] at ht
    rcases ht with rfl | rfl | rfl
    · exact .digits (by simp) (by simp)
    · exact .wild .letter
    · exact .wild .letter
  have hletter : ∀ c ∈ some 'v', Text.isSmall c = true := by
    rintro c ⟨⟩
    rfl
  let p : Stem := ⟨some 'v', ['1'], [['x'], ['x']], hletter, hcomponents, by simp, by simp, by simp⟩
  let s : Text := ['+', 'B', 'e', 't', 'a', '_', '2', '.', '0', ' ', 'é']
  have htext : "v1.x.x+Beta_2.0 é".toList = p.text ++ s := rfl
  have hcollapsed : "v1.x".toList = p.collapsed.text := rfl
  have hdash : '–' ∉ "v1.x.x+Beta_2.0 é".toList := by decide
  have hmarkers : ∀ m ∈ registryMarkers,
      Text.contains m "v1.x.x+Beta_2.0 é".toList = false := by decide
  have hhead : versionHead? (p.head ++ s) = some (p.head, s) := rfl
  rw [htext] at hdash hmarkers
  rw [htext, hcollapsed]
  exact p.convertVersion_stable hdash hmarkers hhead

/-! ## Stems of numbers -/

section Numbers

open Numeral (dotted)

theorem isComponent_of_mem_digits {ns : List Nat} :
    ∀ t ∈ ns.map Numeral.digits, IsComponent t := by
  intro t ht
  obtain ⟨m, -, rfl⟩ := List.mem_map.1 ht
  exact .digits (Numeral.digits_ne_nil m) fun _ => Numeral.isDigit_of_mem_digits

variable (letter : Option Char) (hletter : ∀ c ∈ letter, Text.isSmall c = true) {n : Nat}
  (hn : n < 100000) {ns : List Nat} (hl : ns.length ≤ 2)

/-- Numbers between points, perhaps behind a letter. -/
def ofNumbers : Stem where
  letter := letter
  first := Numeral.digits n
  behind := ns.map Numeral.digits
  isSmall_letter := hletter
  isComponent := @isComponent_of_mem_digits (n :: ns)
  length_behind_le := by simpa using hl
  length_first_lt := Numeral.length_digits_lt_seven hn
  first_ne := fun _ hx => Numeral.not_mem_digits (n := n) (c := 'x') rfl (by simp [hx])

include hletter hn hl

/-- There is no wildcard among the numbers. -/
theorem text_collapsed_ofNumbers :
    (ofNumbers letter hletter hn hl).collapsed.text = letter.toList ++ dotted (n :: ns) := by
  have hx : ['x'] ∉ ns.map Numeral.digits := by
    intro hm
    obtain ⟨m, -, he⟩ := List.mem_map.1 hm
    exact Numeral.not_mem_digits (n := m) (c := 'x') rfl (by simp [he])
  show letter.toList ++ Text.join ['.'] (Numeral.digits n :: squeeze (ns.map Numeral.digits)) = _
  rw [squeeze_eq_self hx]
  rfl

/-- Numbers with a suffix keep their numbers. -/
theorem convertVersion_numbers_append {s : Text} (ho : opensSuffix s = true) (hdash : '–' ∉ s)
    (hmarkers : ∀ m ∈ registryMarkers, Text.contains m (dotted (n :: ns) ++ s) = false) :
    convertVersion (letter.toList ++ dotted (n :: ns) ++ s) =
      .ok (letter.toList ++ dotted (n :: ns) ++ '-' ::
        targetSuffix (dropSuffixSign (Text.lowerAfter (dotted (n :: ns)).reverse s))) := by
  let p := ofNumbers letter hletter hn hl
  have hhead : versionHead? (p.head ++ s) = some (p.head, s) :=
    headUpTo_join_append 3 (Nat.lt_succ_of_le p.length_behind_le) p.isComponent
      (isDigit_eq_false_of_opensSuffix ho) ho
  have hdash' : '–' ∉ p.text ++ s := by
    rw [List.mem_append, not_or]
    exact ⟨p.not_mem_text rfl rfl, hdash⟩
  have hconvert := p.convertVersion_append hdash' hmarkers hhead
  rw [text_collapsed_ofNumbers] at hconvert
  exact hconvert

/-- Numbers without a suffix are converted into themselves, behind a letter too. -/
theorem convertVersion_numbers :
    convertVersion (letter.toList ++ dotted (n :: ns)) =
      .ok (letter.toList ++ dotted (n :: ns)) := by
  let p := ofNumbers letter hletter hn hl
  have hne : p.text ≠ [] := by
    obtain ⟨c, r, hc, -⟩ := p.exists_head_eq_cons
    simp [text, hc]
  have hlatest := p.text_append_ne_latest []
  have hsplit := p.splitLetter_append []
  rw [List.append_nil, List.append_nil] at hsplit
  rw [List.append_nil] at hlatest
  have hself := convertVersion_dotted hn ns
  obtain ⟨c, r, hc, hd⟩ := Numeral.exists_dotted_eq_cons n ns
  have hbody : convertDate (convertSuffix (dotted (n :: ns))) = .ok (dotted (n :: ns)) := by
    have hdash : '–' ∉ c :: r := hc ▸ p.not_mem_head rfl
    rw [hc, convertVersion_of_isDigit hd hdash, ← hc] at hself
    exact hself
  have hdash : '–' ∉ p.text := p.not_mem_text rfl rfl
  have hmap := convertVersion_eq_map hne hlatest hdash hsplit
  have hdone : convertVersion (letter.toList ++ dotted (n :: ns)) =
      (letter.toList ++ ·) <$> convertDate (convertSuffix (dotted (n :: ns))) := hmap
  rw [hdone, hbody]
  rfl

end Numbers

end Stem

end AssetBridge.Source
