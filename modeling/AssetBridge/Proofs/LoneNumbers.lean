import AssetBridge.Proofs.Equalities
import AssetBridge.Proofs.Words

/-!
# Lone numbers

A lone number as a range asks for all versions of a release: it is put behind a tilde and not
converted. Whichever script its digits are of, it names the version with that number, and that
version meets the range.

## Main definitions

* `IsNumber`: texts of digits

## Main results

* `Version.exists_of_parse_number`: what is written like a number is the version with that number
* `IsNumber.parse_tilde`: a lone number behind a tilde, as a constraint
* `exists_of_parse_lone`: a word that is spelled as a lone number names that version
-/

namespace AssetBridge

/-- A text of decimal digits of any script. -/
structure IsNumber (s : Text) : Prop where
  ne_nil : s ≠ []
  isDecimal : ∀ c ∈ s, Text.isDecimal c = true

theorem IsNumber.exists_eq_cons {s : Text} (h : IsNumber s) :
    ∃ c r, s = c :: r ∧ Text.isDecimal c = true := by
  obtain ⟨c, r, rfl⟩ := List.exists_cons_of_ne_nil h.ne_nil
  exact ⟨c, r, rfl, h.isDecimal c List.mem_cons_self⟩

theorem IsNumber.not_mem {s : Text} (h : IsNumber s) {c : Char} (hc : Text.isDecimal c = false) :
    c ∉ s := fun hm => by
  rw [h.isDecimal c hm] at hc
  cases hc

/-- Digits open with no letter. -/
theorem IsNumber.dropVersionLetter_append {s : Text} (h : IsNumber s) (r : Text) :
    Target.dropVersionLetter (s ++ r) = s ++ r := by
  obtain ⟨c, t, rfl, hc⟩ := h.exists_eq_cons
  have hv : c ≠ 'v' := Text.ne_of_isDecimal hc rfl
  have hV : c ≠ 'V' := Text.ne_of_isDecimal hc rfl
  simp [Target.dropVersionLetter, hv, hV]

namespace Target

/-! ## Digits at the front of a version -/

/-- The letters that open a keyword of a suffix or the development mark. -/
def suffixLetters : List Char := ['s', 'b', 'r', 'a', 'p', 'd']

theorem dropKeyword?_cons_eq_none {c a : Char} (h : Text.foldLetter c ≠ a) (k r : Text) :
    Text.dropKeyword? (a :: k) (c :: r) = none :=
  if_neg h

theorem dropOne_cons_eq_self {c : Char} {separators : List Char} (h : c ∉ separators) (r : Text) :
    dropOne separators (c :: r) = c :: r :=
  if_neg h

theorem keyword?_cons_eq_none {c : Char} (hc : Text.foldLetter c ∉ suffixLetters) (r : Text) :
    Target.keyword? (c :: r) = none := by
  refine List.findSome?_eq_none_iff.2 fun k hk => ?_
  have hopens : ∀ k ∈ suffixKeywords, k.head?.any (· ∈ suffixLetters) = true := by decide
  obtain ⟨a, ha, hletter⟩ := (Option.any_eq_true _ _).1 (hopens k hk)
  obtain ⟨k, rfl⟩ := List.head?_eq_some_iff.1 ha
  rw [dropKeyword?_cons_eq_none fun e => hc (e ▸ of_decide_eq_true hletter)]
  rfl

theorem devMark?_cons_eq_none {c : Char} (hc : Text.foldLetter c ∉ suffixLetters)
    (hsep : c ∉ ['.', '-']) (hfeed : c ≠ '\n') (r : Text) : devMark? (c :: r) = none := by
  have hd : "dev".toList = 'd' :: ['e', 'v'] := rfl
  have hletter : Text.foldLetter c ≠ 'd' := fun e => hc (e ▸ by simp [suffixLetters])
  have hfinal : Text.isFinal (c :: r) = false := by simp [Text.isFinal, hfeed]
  rw [devMark?, hfinal, dropOne_cons_eq_self hsep, hd, dropKeyword?_cons_eq_none hletter]
  rfl

/-- No suffix opens with the letter e or v. -/
theorem suffix?_cons_eq_none {c : Char} (hc : Text.foldLetter c ∈ ['e', 'v']) (r : Text) :
    suffix? (c :: r) = none := by
  have hsep : c ∉ ['.', '_', '-'] := by
    intro hm
    have hall : ∀ d ∈ ['.', '_', '-'], Text.foldLetter d ∉ ['e', 'v'] :=
      List.all_iff_forall_prop.1 rfl
    exact hall c hm hc
  have hfeed : c ≠ '\n' := by
    rintro rfl
    exact absurd hc (by decide)
  have hletter : Text.foldLetter c ∉ suffixLetters := by
    have hall : ∀ l ∈ ['e', 'v'], l ∉ suffixLetters := List.all_iff_forall_prop.1 rfl
    exact hall _ hc
  have hmark : c ∉ ['.', '-'] := fun hm => hsep (by
    simp only [List.mem_cons, List.not_mem_nil, or_false] at hm ⊢
    exact hm.imp_right .inr)
  simp only [suffix?, dropOne_cons_eq_self hsep, keyword?_cons_eq_none hletter,
    devMark?_cons_eq_none hletter hmark hfeed]
  rfl

/-- These letters go on neither in a number nor in a date. -/
theorem not_number_of_foldLetter {c : Char} (h : Text.foldLetter c ∈ ['e', 'v']) :
    Text.isDecimal c = false ∧ isDateSeparator c = false := by
  constructor
  · rw [Bool.eq_false_iff]
    exact fun hd => foldLetter_not_mem_of_isDecimal hd rfl h
  · rw [Bool.eq_false_iff]
    intro hsep
    simp only [isDateSeparator, Bool.or_eq_true, decide_eq_true_eq] at hsep
    rcases hsep with (rfl | rfl) | rfl <;> exact absurd h (by decide)

section Opening

variable {s ds r n : Text} (hs : dropVersionLetter s = ds ++ r) (hds : IsNumber ds)
  (hr : ∀ c ∈ r.head?, Text.foldLetter c ∈ ['e', 'v'])

include hr

theorem eq_nil_of_suffix? {σ : Suffix} (h : suffix? r = some σ) : r = [] ∧ σ.render = [] := by
  cases r with
  | nil => exact ⟨rfl, Option.some.inj h ▸ rfl⟩
  | cons c r =>
    rw [suffix?_cons_eq_none (hr c rfl)] at h
    cases h

include hs hds

theorem eq_nil_of_classical? (h : classical? s = some n) :
    r = [] ∧ n = Text.join ['.'] [ds, ['0'], ['0'], ['0']] := by
  have hscan := Text.scan_eq_of_head? fun c hc => (not_number_of_foldLetter (hr c hc)).1
  have htake : (ds ++ r).takeWhile Text.isDecimal = ds := by
    rw [List.takeWhile_append_of_pos hds.isDecimal, hscan.1, List.append_nil]
  have hdrop : (ds ++ r).dropWhile Text.isDecimal = r := by
    rw [List.dropWhile_append_of_pos hds.isDecimal, hscan.2]
  have hpoint : pointNumber r = (none, r) := by
    cases r with
    | nil => rfl
    | cons c r =>
      have hc : c ≠ '.' := by
        rintro rfl
        exact absurd (hr _ rfl) (by decide)
      simp [pointNumber, hc]
  simp only [classical?, hs, htake, hdrop, hpoint] at h
  split at h
  · cases h
  · obtain ⟨σ, hσ, rfl⟩ := Option.map_eq_some_iff.1 h
    obtain ⟨hnil, hrender⟩ := eq_nil_of_suffix? hr hσ
    refine ⟨hnil, ?_⟩
    simp [hrender, Text.join_cons, missingComponent]

theorem eq_nil_of_dated? (h : dated? s = some n) : r = [] ∧ n = ds := by
  have hspan : (ds ++ r).takeWhile (fun c => Text.isDecimal c || isDateSeparator c) = ds := by
    have hall : ∀ c ∈ ds, (Text.isDecimal c || isDateSeparator c) = true := by
      intro c hc
      rw [hds.isDecimal c hc, Bool.true_or]
    have hstop := Text.scan_eq_of_head? (p := fun c => Text.isDecimal c || isDateSeparator c)
      fun c hc => by
        obtain ⟨hdecimal, hsep⟩ := not_number_of_foldLetter (hr c hc)
        rw [hdecimal, hsep]
        rfl
    rw [List.takeWhile_append_of_pos hall, hstop.1, List.append_nil]
  have hdate : Text.dropEndWhile (fun c => !Text.isDecimal c) ds = ds := by
    refine Text.dropEndWhile_eq_self fun c hc => ?_
    rw [hds.isDecimal c (List.mem_of_getLast? hc)]
    rfl
  have hpoints : (ds.map fun c => if Text.isDecimal c then c else '.') = ds := by
    refine (List.map_congr_left fun c hc => ?_).trans (List.map_id ds)
    rw [if_pos (hds.isDecimal c hc)]
    rfl
  simp only [dated?, hs, hspan, hdate, List.drop_left, hpoints] at h
  split at h
  · obtain ⟨σ, hσ, rfl⟩ := Option.map_eq_some_iff.1 h
    obtain ⟨hnil, hrender⟩ := eq_nil_of_suffix? hr hσ
    exact ⟨hnil, by rw [hrender, List.append_nil]⟩
  · cases h

/-- **Digits that open a version** are all of it, unless something stands behind them that can open
a suffix or goes on in the number. -/
theorem eq_nil_of_classical?_or_dated? (h : classical? s = some n ∨ dated? s = some n) :
    r = [] ∧ (n = Text.join ['.'] [ds, ['0'], ['0'], ['0']] ∨ n = ds) := by
  rcases h with h | h
  · exact (eq_nil_of_classical? hs hds hr h).imp_right .inl
  · exact (eq_nil_of_dated? hs hds hr h).imp_right .inr

end Opening

/-! ## Reading a number -/

/-- The normal forms of a number are read as that number. -/
theorem Version.ofNormal_join_zeros {ds : Text} (hds : IsNumber ds) {zeros : List Text}
    (hzeros : zeros = [] ∨ zeros = [['0'], ['0'], ['0']]) :
    ofNormal (Text.join ['.'] (ds :: zeros)) = (fun m => ofNumbers [m]) <$> Numeral.read ds := by
  have hzero : ∀ t ∈ zeros, t = ['0'] := by
    rcases hzeros with rfl | rfl <;> simp
  have hbranch : Text.dropPrefix? branchPrefix (Text.join ['.'] (ds :: zeros)) = none := by
    obtain ⟨c, r, hc, hd⟩ := hds.exists_eq_cons
    have hne : 'd' ≠ c := (Text.ne_of_isDecimal hd rfl).symm
    rw [Text.join_cons, hc, List.cons_append]
    exact if_neg hne
  have hfields : Text.fields '-' (Text.join ['.'] (ds :: zeros)) =
      [Text.join ['.'] (ds :: zeros)] := by
    refine Text.fields_eq_singleton fun hm => ?_
    rcases Text.mem_join hm with hsep | ⟨t, ht, hmt⟩
    · exact absurd hsep (by decide)
    · rcases List.mem_cons.1 ht with rfl | ht
      · exact hds.not_mem rfl hmt
      · rw [hzero t ht] at hmt
        exact absurd hmt (by decide)
  have hwords : pointParts (Text.join ['.'] (ds :: zeros)) = ds :: zeros := by
    have hword : Text.words (· = '.') ds = [ds] := Text.words_eq_singleton hds.ne_nil
      fun c hc => decide_eq_false (Text.ne_of_isDecimal (hds.isDecimal c hc) rfl)
    rw [pointParts, Text.words_join (by simp), List.flatMap_cons, hword]
    rcases hzeros with rfl | rfl <;> rfl
  have hliteral := Numeral.literal_eq_read hds.ne_nil hds.isDecimal
  simp only [ofNormal, hbranch, hfields, List.headD_cons, List.tail_cons, hwords, List.mapM_cons,
    hliteral]
  rcases hzeros with rfl | rfl <;> cases Numeral.read ds <;> rfl

/-! ## Texts that are written like numbers -/

/-- What stands in a number cannot name a branch. -/
theorem isNameChar_of_number {c : Char} (h : Text.isDecimal c = true ∨ c ∈ Text.numberSigns) :
    isNameChar c = true ∧ c ≠ '@' ∧ Text.foldLetter c ∉ ['d', 'r'] := by
  rcases h with hd | hm
  · have hblank := Text.isBlank_eq_false_of_isDecimal hd
    have hcomma : c ≠ ',' := Text.ne_of_isDecimal hd rfl
    exact ⟨by simp [isNameChar, hblank, hcomma], Text.ne_of_isDecimal hd rfl,
      foldLetter_not_mem_of_isDecimal hd rfl⟩
  · have hsigns : ∀ c ∈ Text.numberSigns, isNameChar c = true ∧ c ≠ '@' ∧
        Text.foldLetter c ∉ ['d', 'r'] := List.all_iff_forall_prop.1 rfl
    exact hsigns c hm

/-- Build data begin with a plus sign. -/
theorem exists_append_of_dropBuild (s : Text) :
    ∃ r, s = dropBuild s ++ r ∧ ∀ c ∈ r.head?, c = '+' := by
  have hsplit := List.takeWhile_append_dropWhile (p := isBuiltChar) (l := s)
  have hself : ∃ r, s = s ++ r ∧ ∀ c ∈ r.head?, c = '+' := ⟨[], by simp, by simp⟩
  unfold dropBuild
  revert hsplit
  generalize s.dropWhile isBuiltChar = t
  intro hsplit
  split
  · split
    · exact ⟨_, hsplit.symm, by simp⟩
    · exact hself
  · exact hself

theorem dropVersionLetter_append {s : Text} (h : dropVersionLetter s ≠ []) (r : Text) :
    dropVersionLetter (s ++ r) = dropVersionLetter s ++ r := by
  cases s with
  | nil => exact absurd rfl h
  | cons c s =>
    by_cases hv : c = 'v'
    · subst hv
      rfl
    · by_cases hV : c = 'V'
      · subst hV
        rfl
      · simp [dropVersionLetter, hv, hV]

/-- A classical or dated version opens with digits. -/
theorem isNumber_takeWhile {s n : Text} (h : classical? s = some n ∨ dated? s = some n) :
    IsNumber ((dropVersionLetter s).takeWhile Text.isDecimal) := by
  refine ⟨?_, List.all_eq_true.1 List.all_takeWhile⟩
  rcases h with h | h
  · intro hnil
    simp [classical?, hnil] at h
  · obtain ⟨date, -, ⟨t, ht⟩, hyear, -, -⟩ := exists_of_dated? h
    obtain ⟨c, r, rfl, hc⟩ := exists_eq_cons_of_isDate hyear
    rw [← ht, List.cons_append, List.takeWhile_cons_of_pos hc]
    exact List.cons_ne_nil _ _

section Written

variable {s : Text} (hs : ∀ c ∈ s, Text.isDecimal c = true ∨ c ∈ Text.numberSigns)
  (hsign : ∀ ds r, IsNumber ds → dropVersionLetter s = ds ++ r → ∀ c ∈ r.head?, c ≠ '+' ∧ c ≠ '-')

include hs hsign

/-- **What is written like a number**, with no sign behind its digits, has a normal form only when
it is all digits, perhaps behind a letter v. -/
theorem isNumber_of_normalize {n : Text} (hn : normalize s = .ok n) :
    IsNumber (dropVersionLetter s) ∧ (classical? s = some n ∨ dated? s = some n) ∧
      (n = Text.join ['.'] [dropVersionLetter s, ['0'], ['0'], ['0']] ∨
        n = dropVersionLetter s) := by
  have hnumber := fun c hc => isNameChar_of_number (hs c hc)
  have hnumeric := classical?_or_dated?_of_normalize (fun c hc => (hnumber c hc).1)
    (fun hm => (hnumber _ hm).2.1 rfl) (fun c hc => (hnumber c hc).2.2) hn
  obtain ⟨t, ht, hplus⟩ := exists_append_of_dropBuild s
  revert hnumeric ht
  generalize dropBuild s = b
  intro hnumeric ht
  have hds := isNumber_takeWhile hnumeric
  have hsplit := List.takeWhile_append_dropWhile (p := Text.isDecimal) (l := dropVersionLetter b)
  have hstop := List.head?_dropWhile_not Text.isDecimal (dropVersionLetter b)
  -- The digits open the whole text as well, so what is behind them opens with no sign.
  have hwhole : dropVersionLetter s = (dropVersionLetter b).takeWhile Text.isDecimal ++
      ((dropVersionLetter b).dropWhile Text.isDecimal ++ t) := by
    rw [← List.append_assoc, hsplit, ht]
    refine dropVersionLetter_append (fun hnil => hds.ne_nil ?_) t
    rw [hnil]
    rfl
  have hbehind := hsign _ _ hds hwhole
  revert hds hsplit hstop hwhole hbehind
  generalize (dropVersionLetter b).takeWhile Text.isDecimal = ds
  generalize (dropVersionLetter b).dropWhile Text.isDecimal = r
  intro hds hsplit hstop hwhole hbehind
  have hletter : ∀ c ∈ r.head?, Text.foldLetter c ∈ ['e', 'v'] := by
    intro c hc
    have hmem : c ∈ s := (dropVersionLetter_isSuffix s).subset (by
      rw [hwhole]
      exact List.mem_append_right _ (List.mem_append_left _ (List.mem_of_mem_head? hc)))
    rw [Option.mem_def.1 hc] at hstop
    obtain ⟨hnplus, hnminus⟩ := hbehind c (by rw [List.head?_append, Option.mem_def.1 hc]; rfl)
    rcases hs c hmem with hd | hm
    · simp [hd] at hstop
    · simp only [Text.numberSigns, List.mem_cons, List.not_mem_nil, or_false, hnplus, hnminus,
        false_or] at hm
      rcases hm with rfl | rfl | rfl | rfl <;> decide
  obtain ⟨rfl, hform⟩ := eq_nil_of_classical?_or_dated? hsplit.symm hds hletter hnumeric
  have htail : t = [] := by
    cases t with
    | nil => rfl
    | cons c t => exact absurd (hplus c rfl) (hbehind c rfl).1
  rw [htail, List.append_nil] at ht
  rw [htail, List.append_nil, List.append_nil] at hwhole
  rw [← ht] at hnumeric
  rw [hwhole]
  exact ⟨hds, hnumeric, hform⟩

end Written

/-- Digits have a normal form when they have one behind the letter v. -/
theorem exists_normalize_dropVersionLetter {s n : Text} (hds : IsNumber (dropVersionLetter s))
    (h : classical? s = some n ∨ dated? s = some n) :
    ∃ n', normalize (dropVersionLetter s) = .ok n' := by
  have hletter := hds.dropVersionLetter_append []
  rw [List.append_nil] at hletter
  have hsame : classical? (dropVersionLetter s) = classical? s ∧
      dated? (dropVersionLetter s) = dated? s := by
    constructor
    · rw [classical?, hletter, classical?]
    · rw [dated?, hletter, dated?]
  have hsome : ∃ n', numeric? (dropVersionLetter s) = some n' := by
    rw [numeric?, hsame.1, hsame.2]
    rcases h with h | h
    · exact ⟨n, by rw [h]; rfl⟩
    · rw [h]
      cases classical? s with
      | none => exact ⟨n, rfl⟩
      | some n' => exact ⟨n', rfl⟩
  obtain ⟨n', hn'⟩ := hsome
  have hnumber := fun c hc => isNameChar_of_number (.inl (hds.isDecimal c hc))
  have hbuilt : ∀ c ∈ dropVersionLetter s, isBuiltChar c = true := by
    intro c hc
    have hplus : c ≠ '+' := Text.ne_of_isDecimal (hds.isDecimal c hc) rfl
    simp [isBuiltChar, (hnumber c hc).1, hplus]
  obtain ⟨hdefault, hbranch⟩ :=
    nameDefault_and_dropKeyword?_of_letters fun c hc => (hnumber c hc).2.2
  refine ⟨n', ?_⟩
  rw [normalize_of_isBuiltChar hdefault hbranch hbuilt (hds.not_mem rfl), hn']

/-- A version whose normal form is that of a number is read as that number. -/
theorem Version.parse_of_form {s ds n : Text} (hds : IsNumber ds)
    (hn : normalize s = .ok n)
    (hform : n = Text.join ['.'] [ds, ['0'], ['0'], ['0']] ∨ n = ds) :
    Version.parse s = ((fun m => ofNumbers [m]) <$> Numeral.read ds).mapError .numeral := by
  have hof : ofNormal n = (fun m => ofNumbers [m]) <$> Numeral.read ds := by
    rcases hform with rfl | rfl
    · exact ofNormal_join_zeros hds (.inr rfl)
    · have := ofNormal_join_zeros hds (.inl rfl)
      rwa [Text.join_singleton] at this
  rw [Version.parse, hn, ← hof]
  rfl

/-- **What is written like a number** is the version with that number, and so are its digits. -/
theorem Version.exists_of_parse_number {s : Text} {v : Version}
    (hs : ∀ c ∈ s, Text.isDecimal c = true ∨ c ∈ Text.numberSigns)
    (hsign : ∀ ds r, IsNumber ds → dropVersionLetter s = ds ++ r →
      ∀ c ∈ r.head?, c ≠ '+' ∧ c ≠ '-') (hv : Version.parse s = .ok v) :
    IsNumber (dropVersionLetter s) ∧ ∃ m, Numeral.read (dropVersionLetter s) = .ok m ∧
      v = .ofNumbers [m] ∧ Version.parse (dropVersionLetter s) = .ok (.ofNumbers [m]) := by
  obtain ⟨n, hn, -⟩ := Except.exists_of_bind_eq_ok hv
  obtain ⟨hds, hnumeric, hform⟩ := isNumber_of_normalize hs hsign hn
  have hletter := hds.dropVersionLetter_append []
  rw [List.append_nil] at hletter
  -- Nothing but digits stands in the digits.
  obtain ⟨n', hn'⟩ := exists_normalize_dropVersionLetter hds hnumeric
  have hform' : n' = Text.join ['.'] [dropVersionLetter s, ['0'], ['0'], ['0']] ∨
      n' = dropVersionLetter s := by
    have hdigits := isNumber_of_normalize (s := dropVersionLetter s)
      (fun c hc => .inl (hds.isDecimal c hc)) (fun ds r _ he c hc => ?_) hn'
    · rw [hletter] at hdigits
      exact hdigits.2.2
    · have hd := hds.isDecimal c (by
        rw [← hletter, he]
        exact List.mem_append_right _ (List.mem_of_mem_head? hc))
      exact ⟨Text.ne_of_isDecimal hd rfl, Text.ne_of_isDecimal hd rfl⟩
  rw [parse_of_form hds hn hform] at hv
  rw [parse_of_form hds hn' hform']
  obtain ⟨m, hm, hvm⟩ := Except.exists_of_map_eq_ok (Except.eq_ok_of_mapError hv)
  refine ⟨hds, m, hm, hvm.symm, ?_⟩
  rw [hm]
  rfl

/-! ## Numeric texts -/

/-- No sign stands behind the digits of a numeric text. -/
theorem isNumeric_append_eq_false {ds r : Text} (hds : IsNumber ds) {c : Char}
    (hc : c = '+' ∨ c = '-') : Numeral.isNumeric (ds ++ c :: r) = false := by
  obtain ⟨hdecimal, hpoint, hexponent, hblank⟩ : Text.isDecimal c = false ∧ c ≠ '.' ∧
      (c ≠ 'e' ∧ c ≠ 'E') ∧ Text.isBlank c = false := by
    rcases hc with rfl | rfl <;> decide
  have hopens : (ds ++ c :: r).dropWhile Text.isBlank = ds ++ c :: r ∧
      Numeral.dropSign (ds ++ c :: r) = ds ++ c :: r := by
    obtain ⟨d, t, rfl, hd⟩ := hds.exists_eq_cons
    exact ⟨by simp [Text.isBlank_eq_false_of_isDecimal hd], Numeral.dropSign_cons hd _⟩
  have hdrop : (ds ++ c :: r).dropWhile Text.isDecimal = c :: r := by
    rw [List.dropWhile_append_of_pos hds.isDecimal, List.dropWhile_cons_of_neg (by simp [hdecimal])]
  have hends : Numeral.endsNumber (c :: r) = false := by
    simp [Numeral.endsNumber, hexponent.1, hexponent.2, hblank]
  simp only [Numeral.isNumeric, hopens.1, hopens.2, hdrop]
  split
  · rename_i r' he
    exact absurd (List.cons.inj he).1 hpoint
  · rw [hends, Bool.and_false]

/-- A sign is all that is dropped. -/
theorem mem_dropSign {s : Text} {c : Char} (h : c ∈ s) :
    c ∈ Text.numberSigns ∨ c ∈ Numeral.dropSign s := by
  unfold Numeral.dropSign
  split
  · exact (List.mem_cons.1 h).imp_left fun e => by rw [e]; decide
  · exact (List.mem_cons.1 h).imp_left fun e => by rw [e]; decide
  · exact .inr h

/-- **The characters of a numeric text** without a point and blanks are digits and those that may
stand beside them. -/
theorem forall_of_isNumeric {s : Text} (hs : ∀ c ∈ s, Text.isBlank c = false) (hpoint : '.' ∉ s)
    (h : Numeral.isNumeric s = true) :
    ∀ c ∈ s, Text.isDecimal c = true ∨ c ∈ Text.numberSigns := by
  have hblank : s.dropWhile Text.isBlank = s :=
    (Text.scan_eq_of_head? fun c hc => hs c (List.mem_of_mem_head? hc)).2
  have hdigit : ∀ {t : Text} {c : Char}, c ∈ t →
      Text.isDecimal c = true ∨ c ∈ t.dropWhile Text.isDecimal := by
    intro t c hc
    rw [← List.takeWhile_append_dropWhile (p := Text.isDecimal) (l := t)] at hc
    exact (List.mem_append.1 hc).imp_left (List.all_eq_true.1 List.all_takeWhile c)
  -- what is left at the end consists of blanks, and there is none
  have hend : ∀ {t : Text} {c : Char}, t ⊆ s → t.all Text.isBlank = true → c ∉ t := by
    intro t c ht hall hc
    have hb := List.all_eq_true.1 hall c hc
    rw [hs c (ht hc)] at hb
    cases hb
  simp only [Numeral.isNumeric, hblank] at h
  have hrest : (Numeral.dropSign s).dropWhile Text.isDecimal ⊆ s :=
    fun c hc => (Numeral.dropSign_isSuffix s).subset ((List.dropWhile_suffix _).subset hc)
  intro c hc
  rcases mem_dropSign hc with hsign | hc
  · exact .inr hsign
  rcases hdigit hc with hd | hc
  · exact .inl hd
  revert h hrest hc
  generalize (Numeral.dropSign s).dropWhile Text.isDecimal = rest
  intro h hrest hc
  split at h
  · exact absurd (hrest List.mem_cons_self) hpoint
  · rw [Bool.and_eq_true] at h
    have hends := h.2
    unfold Numeral.endsNumber at hends
    split at hends
    · rename_i e r _
      split at hends
      · rename_i he
        simp only [Bool.or_eq_true, decide_eq_true_eq] at he
        rw [Bool.and_eq_true] at hends
        rcases List.mem_cons.1 hc with rfl | hc
        · rcases he with rfl | rfl <;> exact .inr (by decide)
        · rcases mem_dropSign hc with hsign | hc
          · exact .inr hsign
          · refine (hdigit hc).imp_right fun hc => absurd hc (hend (fun d hd => ?_) hends.2)
            exact hrest (List.mem_cons_of_mem e
              ((Numeral.dropSign_isSuffix r).subset ((List.dropWhile_suffix _).subset hd)))
      · exact absurd hc (hend hrest hends)
    · cases hc

end Target

/-! ## Behind a tilde -/

namespace IsNumber

open Target

variable {ds : Text}

/-- **A lone number behind a tilde** asks for the versions from its lowest one up to the next
number. -/
theorem parse_tilde (hds : IsNumber ds) {m : Nat} (hread : Numeral.read ds = .ok m)
    (hv : Version.parse ds = .ok (.ofNumbers [m])) : Constraint.parse ('~' :: ds) =
      .ok ⟨'~' :: ds, [[⟨.ge, .lowestOf [m]⟩, ⟨.lt, .lowestOf [m + 1]⟩]]⟩ := by
  have hseparator : ∀ c ∈ '~' :: ds, Constraint.isPartSeparator c = false := by
    intro c hc
    rcases List.mem_cons.1 hc with rfl | hc
    · rfl
    · have hd := hds.isDecimal c hc
      have hcomma : c ≠ ',' := Text.ne_of_isDecimal hd rfl
      simp [Constraint.isPartSeparator, hcomma, Text.isBlank_eq_false_of_isDecimal hd]
  have hbar : '|' ∉ '~' :: ds := by simpa using hds.not_mem (c := '|') rfl
  have hletter : dropSmallVersionLetter ds = ds := by
    obtain ⟨c, t, rfl, hc⟩ := hds.exists_eq_cons
    have hv : c ≠ 'v' := Text.ne_of_isDecimal hc rfl
    simp [dropSmallVersionLetter, hv]
  have hscan := Text.scan_eq_of_forall hds.isDecimal
  have hempty : ds.isEmpty = false := by simpa using hds.ne_nil
  have hpartial : partialVersion? ds = some ([ds], false) := by
    simp only [partialVersion?, numbers?, hletter, hscan.1, hscan.2, hempty]
    rfl
  have hnumber : readNumber ds = .ok m := by
    rw [readNumber, hread]
    rfl
  have hversion : readVersion ds = .ok (.ofNumbers [m]) := by
    rw [readVersion, hv]
    rfl
  have hpart : parsePart ('~' :: ds) = .ok [⟨.ge, .lowestOf [m]⟩, ⟨.lt, .lowestOf [m + 1]⟩] := by
    show partialBounds tildePosition ds ('~' :: ds) = _
    rw [partialBounds, hpartial]
    simp only [List.mapM_cons, List.mapM_nil, hnumber, hversion]
    rfl
  apply Except.eq_ok_of_toOption
  rw [Constraint.toOption_parse_part (List.cons_ne_nil _ _) hseparator hbar, hpart]
  rfl

/-- The version with a number lies between these bounds. -/
theorem accepts_tilde (s : Text) (m : Nat) : Constraint.accepts
    ⟨s, [[⟨.ge, .lowestOf [m]⟩, ⟨.lt, .lowestOf [m + 1]⟩]]⟩ (.ofNumbers [m]) = true := by
  have hlower : (Version.lowestOf [m]).place ≤ (Version.ofNumbers [m]).place :=
    .inl (.inr ⟨rfl, .inl (Nat.zero_lt_succ 3)⟩)
  have hupper : (Version.ofNumbers [m]).place < (Version.lowestOf [m + 1]).place :=
    .inl (List.Lex.rel (Nat.lt_succ_self m))
  have hge : (Bound.mk .ge (.lowestOf [m])).matches (.ofNumbers [m]) = true := by
    rw [Bound.matches_of_numeric rfl rfl]
    exact decide_eq_true hlower
  have hlt : (Bound.mk .lt (.lowestOf [m + 1])).matches (.ofNumbers [m]) = true := by
    rw [Bound.matches_of_numeric rfl rfl]
    exact decide_eq_true hupper
  simp [Constraint.accepts, hge, hlt]

/-- No version with a suffix is written in digits only. -/
theorem headUpTo_eq_none (hds : IsNumber ds) (n : Nat) : Source.headUpTo n ds = none := by
  cases n with
  | zero => rfl
  | succ n =>
    cases hcomponent : Source.component? ds with
    | none => simp [Source.headUpTo, hcomponent]
    | some p =>
      obtain ⟨t, r⟩ := p
      have hr : ∀ c ∈ r, Text.isDecimal c = true := by
        intro c hc
        refine hds.isDecimal c ?_
        rw [← Source.component?_append hcomponent]
        exact List.mem_append_right t hc
      have hopens : Source.opensSuffix r = false := by
        cases r with
        | nil => rfl
        | cons c r =>
          have hc := hr c List.mem_cons_self
          have hletter : Text.isLetter c = false := by
            rw [Bool.eq_false_iff]
            intro hl
            rw [Text.isDecimal_eq_false_of_isLetter hl] at hc
            cases hc
          have hminus : c ≠ '-' := Text.ne_of_isDecimal hc rfl
          have hplus : c ≠ '+' := Text.ne_of_isDecimal hc rfl
          simp [Source.opensSuffix, hletter, hminus, hplus]
      simp only [Source.headUpTo, hcomponent, hopens, Bool.false_eq_true, if_false]
      split
      · exact absurd (hr '.' List.mem_cons_self) (by decide)
      · rfl

/-- A number has no suffix to convert, and neither has it behind a tilde. -/
theorem convertSuffix_eq_self (hds : IsNumber ds) {s : Text} (hs : s <:+ '~' :: ds)
    (hhead : Source.versionHead? s = none) : Source.convertSuffix s = s := by
  have hnot : ∀ {e : Char}, e ≠ '~' → Text.isDecimal e = false → e ∉ s := by
    intro e htilde hdecimal hm
    rcases List.mem_cons.1 (hs.subset hm) with he | hm
    · exact htilde he
    · exact hds.not_mem hdecimal hm
  have hmarkers : Source.dropRegistryMarkers s = s :=
    Source.dropRegistryMarkers_of_not_mem (hnot (e := '-') (by decide) rfl) (by decide)
  have hx : s.count 'x' ≤ 1 := by
    rw [List.count_eq_zero.2 (hnot (by decide) rfl)]
    exact Nat.zero_le 1
  rw [Source.convertSuffix_of_versionHead?_eq_none hmarkers hhead,
    Source.collapseWildcards_eq_self hx]

/-- **Nothing in a number** can be converted. -/
theorem convertVersion_eq_self (hds : IsNumber ds) : Source.convertVersion ds = .ok ds := by
  have hconvert := hds.convertSuffix_eq_self (List.suffix_cons _ _) (hds.headUpTo_eq_none 3)
  have hdate : Source.convertDate ds = .ok ds := by
    rw [Source.convertDate, (Text.scan_eq_of_forall hds.isDecimal).2]
    rfl
  have hdash := hds.not_mem (c := '–') rfl
  have hne := hds.ne_nil
  obtain ⟨c, r, rfl, hc⟩ := hds.exists_eq_cons
  have hlatest : c :: r ≠ Source.latest := by
    rintro ⟨⟩
    cases hc
  have hsmall : Text.isSmall c = false := by
    rw [Bool.eq_false_iff]
    intro hl
    rw [Text.isDecimal_eq_false_of_isLower hl] at hc
    cases hc
  have hsplit : Source.splitLetter (c :: r) = ([], c :: r) := by
    simp [Source.splitLetter, hsmall]
  rw [Source.convertVersion_eq hne hlatest hdash hsplit, hconvert, hdate]

/-- Neither can it behind a tilde. -/
theorem convertVersion_tilde (hds : IsNumber ds) :
    Source.convertVersion ('~' :: ds) = .ok ('~' :: ds) := by
  have hlatest : '~' :: ds ≠ Source.latest := by
    rintro ⟨⟩
  have hdash : '–' ∉ '~' :: ds := by
    rw [List.mem_cons, not_or]
    exact ⟨by decide, hds.not_mem rfl⟩
  rw [Source.convertVersion_eq (List.cons_ne_nil _ _) hlatest hdash rfl,
    hds.convertSuffix_eq_self (List.suffix_refl _) rfl]
  rfl

end IsNumber

/-! ## Words that are spelled as numbers -/

namespace Source

/-- Only the letter v is dropped. -/
theorem mem_of_dropVersionLetters {s : Text} {c : Char} (h : c ∈ s) :
    c ∈ dropVersionLetters s ∨ c = 'v' ∨ c = 'V' := by
  induction s with
  | nil => cases h
  | cons d s ih =>
    rw [dropVersionLetters]
    split
    · rename_i hd
      rcases List.mem_cons.1 h with rfl | h
      · simp only [Bool.and_eq_true, Bool.or_eq_true, decide_eq_true_eq] at hd
        exact .inr hd.1
      · exact ih h
    · rcases List.mem_cons.1 h with rfl | h
      · exact .inl List.mem_cons_self
      · exact (ih h).imp_left (List.mem_cons_of_mem d)

/-- Digits are spelled as they stand, and without the letter v that they may stand behind. -/
theorem exists_spelled_eq_append {s ds r : Text} (hds : IsNumber ds)
    (h : Target.dropVersionLetter s = ds ++ r) :
    ∃ before, spelled s = ds ++ dropVersionLetters (Text.lowerAfter before r) := by
  have hlower := Text.lowerAfter_append_of_isDecimal hds.isDecimal
  have hdigits : ∀ {ds : Text}, (∀ c ∈ ds, Text.isDecimal c = true) → ∀ t,
      dropVersionLetters (ds ++ t) = ds ++ dropVersionLetters t := by
    intro ds hds t
    induction ds with
    | nil => rfl
    | cons c ds ih =>
      have hc := hds c List.mem_cons_self
      have hv : c ≠ 'v' := Text.ne_of_isDecimal hc rfl
      have hV : c ≠ 'V' := Text.ne_of_isDecimal hc rfl
      simp [dropVersionLetters, hv, hV, ih fun d hd => hds d (List.mem_cons_of_mem c hd)]
  have hletter : ∀ t, dropVersionLetters ('v' :: (ds ++ t)) = ds ++ dropVersionLetters t := by
    intro t
    rw [← hdigits hds.isDecimal t]
    obtain ⟨c, u, rfl, hc⟩ := hds.exists_eq_cons
    simp [dropVersionLetters, hc]
  revert h
  unfold Target.dropVersionLetter
  split
  · rintro rfl
    have hv : Text.lower ('v' :: (ds ++ r)) = 'v' :: Text.lowerAfter ['v'] (ds ++ r) := rfl
    exact ⟨_, by rw [spelled, hv, hlower, hletter]⟩
  · rintro rfl
    have hV : Text.lower ('V' :: (ds ++ r)) = 'v' :: Text.lowerAfter ['V'] (ds ++ r) := rfl
    exact ⟨_, by rw [spelled, hV, hlower, hletter]⟩
  · rintro rfl
    exact ⟨_, by rw [spelled, Text.lower, hlower, hdigits hds.isDecimal]⟩

/-- **A word that is spelled as a lone number** names the version with that number, as the number
does. -/
theorem exists_of_parse_lone {s : Text} (h : Text.IsWord s)
    (hlone : Pending.isLoneMajor (spelled s) 0 none = true) {v : Target.Version}
    (hv : Target.Version.parse s = .ok v) :
    IsNumber (spelled s) ∧ ∃ m, Numeral.read (spelled s) = .ok m ∧ v = .ofNumbers [m] ∧
      Target.Version.parse (spelled s) = .ok (.ofNumbers [m]) := by
  simp only [Pending.isLoneMajor, Bool.and_eq_true, decide_eq_true_eq] at hlone
  obtain ⟨⟨⟨⟨-, hpoint⟩, hnumeric⟩, -⟩, -⟩ := hlone
  have hspelled := Target.forall_of_isNumeric (isWord_spelled h).isBlank_eq_false hpoint hnumeric
  -- What stands in a number is lowered from what stands in a number.
  have hlower : ∀ d ∈ Text.lower s, Text.inRanges Text.numberRanges d = true := by
    intro d hd
    rw [Text.inRanges_numberRanges_iff]
    rcases mem_of_dropVersionLetters hd with hd | rfl | rfl
    · exact hspelled d hd
    · exact .inr (by decide)
    · exact .inr (by decide)
  have hchars : ∀ c ∈ s, Text.isDecimal c = true ∨ c ∈ Text.numberSigns := fun c hc =>
    Text.inRanges_numberRanges_iff.1
      (Text.inRanges_of_lowerAfter Text.isClosed_numberRanges hlower c hc)
  have hsign : ∀ ds r, IsNumber ds → Target.dropVersionLetter s = ds ++ r →
      ∀ c ∈ r.head?, c ≠ '+' ∧ c ≠ '-' := by
    intro ds r hds hs c hc
    obtain ⟨before, he⟩ := exists_spelled_eq_append hds hs
    obtain ⟨t, rfl⟩ : ∃ t, r = c :: t := List.head?_eq_some_iff.1 hc
    have hstays : c = '+' ∨ c = '-' → ∃ u,
        dropVersionLetters (Text.lowerAfter before (c :: t)) = c :: u := by
      rintro (rfl | rfl)
      · exact ⟨_, rfl⟩
      · exact ⟨_, rfl⟩
    rw [← not_or]
    intro hsign
    obtain ⟨u, hu⟩ := hstays hsign
    rw [he, hu, Target.isNumeric_append_eq_false hds hsign] at hnumeric
    cases hnumeric
  obtain ⟨hds, m, hm, hvm, hparse⟩ := Target.Version.exists_of_parse_number hchars hsign hv
  have hself : spelled s = Target.dropVersionLetter s := by
    obtain ⟨before, he⟩ := exists_spelled_eq_append hds (List.append_nil _).symm
    simpa [Text.lowerAfter, dropVersionLetters] using he
  rw [hself]
  exact ⟨hds, m, hm, hvm, hparse⟩

end Source

end AssetBridge
