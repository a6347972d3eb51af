import AssetBridge.Proofs.Tags

/-!
# What normal forms look like

A version is normalized in one of five ways: as a default branch, behind the prefix of branches, as
numbers, as a date, or as a numeric branch in development. The first two end in the name of a
branch. The others end in a text of one shape, numbers between points with a keyword and a mark
behind them, and whichever way it has come about, its parts can be told apart again.

Case is ignored where keywords are read, and the long s counts as an s there. But it is a small
letter already, so it stays where keywords are put in small letters.

## Main definitions

* `Text.JoinedRuns`: runs of digits with separators between them
* `targetKeywords`: the keywords of normal forms
* `IsCanonical`: the texts of numeric normal forms

## Main results

* `isCanonical_of_numeric?`: the three numeric shapes
* `IsNumericForm.ofNormal_ne_malformed`: the parts of a normal form are numbers
* `parse_spec`: what reading a version comes to
-/

namespace AssetBridge

/-! ## Runs of digits -/

namespace Text

/-- **Joined runs**: runs of digits, with one separator between each two of them. -/
inductive JoinedRuns (separators : List Char) : Text → Prop
  | run {t : Text} : t ≠ [] → (∀ c ∈ t, isDecimal c = true) → JoinedRuns separators t
  | join {t r : Text} {c : Char} : t ≠ [] → (∀ d ∈ t, isDecimal d = true) → c ∈ separators →
      JoinedRuns separators r → JoinedRuns separators (t ++ c :: r)

namespace JoinedRuns

variable {separators : List Char} {a b ds : Text} {c : Char}

theorem exists_eq_cons (h : JoinedRuns separators a) :
    ∃ c r, a = c :: r ∧ isDecimal c = true := by
  cases h with
  | run hne hd =>
    obtain ⟨c, r, rfl⟩ := List.exists_cons_of_ne_nil hne
    exact ⟨c, r, rfl, hd c List.mem_cons_self⟩
  | join hne hd _ _ =>
    obtain ⟨c, r, rfl⟩ := List.exists_cons_of_ne_nil hne
    exact ⟨c, _, rfl, hd c List.mem_cons_self⟩

theorem append (ha : JoinedRuns separators a) (hc : c ∈ separators)
    (hb : JoinedRuns separators b) : JoinedRuns separators (a ++ c :: b) := by
  induction ha with
  | run hne hd => exact .join hne hd hc hb
  | join hne hd hc' _ ih =>
    rw [List.append_assoc, List.cons_append]
    exact .join hne hd hc' ih

/-- More digits make the last run longer. -/
theorem append_digits (ha : JoinedRuns separators a) (hds : ∀ c ∈ ds, isDecimal c = true) :
    JoinedRuns separators (a ++ ds) := by
  induction ha with
  | run hne hd =>
    refine .run (List.append_ne_nil_of_left_ne_nil hne ds) fun c hc => ?_
    exact (List.mem_append.1 hc).elim (hd c) (hds c)
  | join hne hd hc _ ih =>
    rw [List.append_assoc, List.cons_append]
    exact .join hne hd hc ih

theorem cons (hc : isDecimal c = true) (ha : JoinedRuns separators a) :
    JoinedRuns separators (c :: a) := by
  have hall : ∀ {t : Text}, (∀ d ∈ t, isDecimal d = true) → ∀ d ∈ c :: t, isDecimal d = true := by
    intro t ht d hd
    rcases List.mem_cons.1 hd with rfl | hd
    · exact hc
    · exact ht d hd
  cases ha with
  | run _ hd => exact .run (List.cons_ne_nil _ _) (hall hd)
  | join _ hd hsep hb => exact .join (List.cons_ne_nil _ _) (hall hd) hsep hb

theorem isDecimal_or_mem (ha : JoinedRuns separators a) :
    ∀ c ∈ a, isDecimal c = true ∨ c ∈ separators := by
  induction ha with
  | run _ hd => exact fun c hc => .inl (hd c hc)
  | join _ hd hsep _ ih =>
    intro c hc
    rcases List.mem_append.1 hc with hc | hc
    · exact .inl (hd c hc)
    · rcases List.mem_cons.1 hc with rfl | hc
      · exact .inr hsep
      · exact ih c hc

/-- Runs stay as they are when their separators become points. -/
theorem map (ha : JoinedRuns separators a) (hsep : ∀ c ∈ separators, isDecimal c = false) :
    JoinedRuns ['.'] (a.map fun c => if isDecimal c then c else '.') := by
  have hrun : ∀ {t : Text}, (∀ c ∈ t, isDecimal c = true) →
      t.map (fun c => if isDecimal c then c else '.') = t := by
    intro t ht
    exact (List.map_congr_left fun c hc => if_pos (ht c hc)).trans (List.map_id t)
  induction ha with
  | run hne hd =>
    rw [hrun hd]
    exact .run hne hd
  | join hne hd hc _ ih =>
    rw [List.map_append, List.map_cons, hrun hd, hsep _ hc]
    exact .join hne hd (List.mem_singleton_self '.') ih

end JoinedRuns

end Text

namespace Target

open Text (JoinedRuns RunsWithin)

/-! ## The number of a suffix -/

/-- The separators in the number of a suffix. -/
def numberSeparators : List Char := ['.', '-']

/-- A separator is read as a part of the number only in front of a digit. -/
theorem joinedRuns_numberRun (s : Text) : (numberRun s).1 = [] ∨
    JoinedRuns numberSeparators (numberRun s).1 ∨
    ∃ c ∈ numberSeparators, ∃ r, (numberRun s).1 = c :: r ∧ JoinedRuns numberSeparators r := by
  induction s with
  | nil => exact .inl rfl
  | cons c s ih =>
    rw [numberRun]
    split
    · rename_i h
      by_cases hc : Text.isDecimal c = true
      · right
        left
        have hone : ∀ d ∈ [c], Text.isDecimal d = true := by simpa using hc
        rcases ih with hnil | hruns | ⟨d, hd, r, hr, hruns⟩
        · rw [hnil]
          exact .run (List.cons_ne_nil c []) hone
        · exact hruns.cons hc
        · rw [hr]
          exact .join (List.cons_ne_nil c []) hone hd hruns
      · right
        right
        rw [Bool.or_eq_true, or_iff_right hc, Bool.and_eq_true, Option.any_eq_true] at h
        obtain ⟨hsep, d, hhead, hd⟩ := h
        -- The digit behind the separator opens what is read next.
        obtain ⟨s, rfl⟩ := List.head?_eq_some_iff.1 hhead
        have hnext : (numberRun (d :: s)).1 = d :: (numberRun s).1 := by
          rw [numberRun, hd]
          rfl
        refine ⟨c, by simpa [numberSeparators] using hsep, _, rfl, ?_⟩
        rcases ih with hnil | hruns | ⟨e, he, r, hr, -⟩
        · rw [hnext] at hnil
          cases hnil
        · exact hruns
        · rw [hnext] at hr
          obtain ⟨rfl, -⟩ := List.cons.inj hr
          have hno : ∀ e ∈ numberSeparators, Text.isDecimal e = false :=
            List.all_iff_forall_prop.1 rfl
          rw [hno d he] at hd
          cases hd
    · exact .inl rfl

/-- Runs that a digit opens have no separators in front of them. -/
theorem bareNumber_eq_self {t : Text} (h : JoinedRuns numberSeparators t) : bareNumber t = t := by
  obtain ⟨c, r, rfl, hc⟩ := h.exists_eq_cons
  have hpoint : c ≠ '.' := Text.ne_of_isDecimal hc rfl
  have hhyphen : c ≠ '-' := Text.ne_of_isDecimal hc rfl
  simp [bareNumber, hpoint, hhyphen]

/-- **The number of a suffix** without the separators in front of it. -/
theorem joinedRuns_bareNumber (s : Text) : bareNumber (numberRun s).1 = [] ∨
    JoinedRuns numberSeparators (bareNumber (numberRun s).1) := by
  rcases joinedRuns_numberRun s with h | h | ⟨c, hc, r, hr, h⟩
  · rw [h]
    exact .inl rfl
  · rw [bareNumber_eq_self h]
    exact .inr h
  · have hdrop : bareNumber (c :: r) = bareNumber r := by
      simp only [numberSeparators, List.mem_cons, List.not_mem_nil, or_false] at hc
      rcases hc with rfl | rfl <;> rfl
    rw [hr, hdrop, bareNumber_eq_self h]
    exact .inr h

/-! ## The keyword of a suffix -/

/-- The keywords of normal forms. -/
def canonicalKeywords : List Text :=
  [Stability.stable.keyword, Stability.alpha.keyword, Stability.beta.keyword,
    Stability.rc.keyword, Stability.patchKeyword]

/-- The word for stable versions, written with a long s. -/
def longStable : Text := 'ſ' :: "table".toList

/-- The keywords that a normal form may have, with the one that only a long s leads to. -/
def targetKeywords (written : Text) : List Text :=
  if 'ſ' ∈ written then longStable :: canonicalKeywords else canonicalKeywords

theorem targetKeywords_subset {s t : Text} (h : s ⊆ t) : targetKeywords s ⊆ targetKeywords t := by
  intro k hk
  unfold targetKeywords at hk ⊢
  split at hk
  · rename_i hs
    rwa [if_pos (h hs)]
  · split
    · exact List.mem_cons_of_mem _ hk
    · exact hk

/-- A character that counts as a small letter is this letter once its case is dropped, apart from
the variants of three letters. -/
theorem toLower_eq_of_foldLetter {c l : Char} (h : Text.foldLetter c = l) (hs : l = 's' → c ≠ 'ſ')
    (hk : l ≠ 'k') (hi : l ≠ 'i') : c.toLower = l := by
  unfold Text.foldLetter at h
  split at h
  · exact absurd ‹_› (hs h.symm)
  · split at h
    · exact absurd h.symm hk
    · split at h
      · exact absurd h.symm hi
      · exact h

/-- A text that counts as a word in small letters has this word for its small form, unless a long s
stands for an s in it. -/
theorem lowerAfter_eq_of_foldLetter {w k : Text} (h : w.map Text.foldLetter = k)
    (hk : k.all Char.isLower = true) (hs : 'ſ' ∉ w) (hplain : 'k' ∉ k ∧ 'i' ∉ k) (before : Text) :
    Text.lowerAfter before w = k := by
  have hlower : ∀ c ∈ w, c.toLower = Text.foldLetter c := by
    intro c hc
    have hmem : Text.foldLetter c ∈ k := h ▸ List.mem_map_of_mem hc
    exact toLower_eq_of_foldLetter rfl (fun _ e => hs (e ▸ hc))
      (fun e => hplain.1 (e ▸ hmem)) fun e => hplain.2 (e ▸ hmem)
  have hascii : ∀ c ∈ w, c.toNat < 0x80 := by
    intro c hc
    apply Text.toNat_lt_of_isLower_toLower
    rw [hlower c hc]
    exact List.all_eq_true.1 hk _ (h ▸ List.mem_map_of_mem hc)
  rw [Text.lowerAfter_of_ascii hascii, List.map_congr_left hlower, h]

/-- The only keyword with an s is the word for stable versions. -/
theorem lower_eq_longStable {w : Text} (h : w.map Text.foldLetter ∈ suffixKeywords)
    (hs : 'ſ' ∈ w) : Text.lower w = longStable := by
  have hstable : ∀ k ∈ suffixKeywords, 's' ∈ k → k = 's' :: "table".toList := by decide
  have hword := hstable _ h (List.mem_map_of_mem (f := Text.foldLetter) hs)
  obtain ⟨c, w, rfl, hc, hw⟩ := List.map_eq_cons_iff.1 hword
  have hrest : 'ſ' ∉ w := fun hm => by
    have hmem : Text.foldLetter 'ſ' ∈ "table".toList := hw ▸ List.mem_map_of_mem hm
    exact absurd hmem (by decide)
  obtain rfl : c = 'ſ' := ((List.mem_cons.1 hs).resolve_right hrest).symm
  have hkeep : Text.lowerBetween [] 'ſ' w = ['ſ'] := rfl
  rw [Text.lower, Text.lowerAfter, hkeep,
    lowerAfter_eq_of_foldLetter hw rfl hrest (by decide)]
  rfl

/-- **The keyword of a suffix**, in full, is one that a normal form may have. -/
theorem expandKeyword_mem {w : Text} (h : w.map Text.foldLetter ∈ suffixKeywords) :
    Stability.expandKeyword w ∈ targetKeywords w := by
  have hplain : ∀ k ∈ suffixKeywords, k.all Char.isLower = true ∧ 'k' ∉ k ∧ 'i' ∉ k := by decide
  by_cases hs : 'ſ' ∈ w
  · have hexpand : Stability.expandKeyword w = longStable := by
      simp only [Stability.expandKeyword, lower_eq_longStable h hs]
      rfl
    rw [targetKeywords, if_pos hs, hexpand]
    exact List.mem_cons_self
  · have hlower : Text.lower w = w.map Text.foldLetter :=
      lowerAfter_eq_of_foldLetter rfl (hplain _ h).1 hs (hplain _ h).2 []
    have hexpand : ∀ k ∈ suffixKeywords, Text.lower k = k ∧
        Stability.expandKeyword k ∈ canonicalKeywords := by
      decide +kernel
    have hsame : Stability.expandKeyword w = Stability.expandKeyword (w.map Text.foldLetter) := by
      simp only [Stability.expandKeyword, hlower, (hexpand _ h).1]
    rw [targetKeywords, if_neg hs, hsame]
    exact (hexpand _ h).2

/-! ## Canonical texts -/

/-- What may stand between the numbers and the development mark: nothing, or a keyword behind a
hyphen, with or without a number. -/
inductive IsStabilityText (keywords : List Text) : Text → Prop
  | nothing : IsStabilityText keywords []
  | keyword {k : Text} : k ∈ keywords → IsStabilityText keywords ('-' :: k)
  | numbered {k number : Text} : k ∈ keywords → JoinedRuns numberSeparators number →
      IsStabilityText keywords ('-' :: k ++ number)

/-- **Canonical texts**: numbers between points, then a keyword with its number and the development
mark, each of which may be missing. -/
def IsCanonical (keywords : List Text) (n : Text) : Prop :=
  ∃ release stability : Text, ∃ dev : Bool, JoinedRuns ['.'] release ∧
    IsStabilityText keywords stability ∧ n = release ++ stability ++ devText dev

theorem IsStabilityText.mono {keywords keywords' : List Text} (hsub : keywords ⊆ keywords')
    {t : Text} (h : IsStabilityText keywords t) : IsStabilityText keywords' t := by
  cases h with
  | nothing => exact .nothing
  | keyword hk => exact .keyword (hsub hk)
  | numbered hk hn => exact .numbered (hsub hk) hn

theorem IsCanonical.mono {keywords keywords' : List Text} (hsub : keywords ⊆ keywords') {n : Text}
    (h : IsCanonical keywords n) : IsCanonical keywords' n := by
  obtain ⟨release, stability, dev, hr, hs, hn⟩ := h
  exact ⟨release, stability, dev, hr, hs.mono hsub, hn⟩

/-- The characters of canonical texts that are no digits are those of separators, keywords and the
development mark. -/
theorem IsCanonical.not_mem {keywords : List Text} {n : Text} (h : IsCanonical keywords n)
    {c : Char} (hd : Text.isDecimal c = false) (hc : c ∉ ".-dev".toList)
    (hk : ∀ k ∈ keywords, c ∉ k) : c ∉ n := by
  obtain ⟨release, stability, dev, hr, hs, rfl⟩ := h
  have hruns : ∀ {separators : List Char} {t : Text}, separators ⊆ ".-dev".toList →
      JoinedRuns separators t → c ∉ t := by
    intro separators t hsub ht hm
    rcases ht.isDecimal_or_mem c hm with h | h
    · rw [hd] at h
      cases h
    · exact hc (hsub h)
  have hhyphen : c ≠ '-' := by
    rintro rfl
    exact hc (by decide)
  have hstability : c ∉ stability := by
    cases hs with
    | nothing => exact List.not_mem_nil
    | keyword hm => simpa [hhyphen] using hk _ hm
    | numbered hm hn => simpa [hhyphen, hk _ hm] using hruns (by decide) hn
  have hdev : c ∉ devText dev := by
    have hsub : devText dev ⊆ ".-dev".toList := by cases dev <;> decide
    exact fun hm => hc (hsub hm)
  simpa [hstability, hdev] using hruns (by decide) hr

/-- **The canonical form of a suffix.** -/
theorem exists_of_render {s : Text} {σ : Suffix} (h : suffix? s = some σ) :
    ∃ stability : Text, ∃ dev : Bool, IsStabilityText (targetKeywords s) stability ∧
      σ.render = stability ++ devText dev := by
  have hsuffix := dropOne_isSuffix ['.', '_', '-'] s
  unfold suffix? at h
  simp only at h
  split at h
  · rename_i w r hkey
    obtain ⟨dev, -, rfl⟩ := Option.map_eq_some_iff.1 h
    obtain ⟨hs, hw⟩ := keyword?_eq_some hkey
    simp only [Suffix.render]
    split
    · exact ⟨[], false, .nothing, rfl⟩
    · have hsub : w ⊆ s := List.Subset.trans (List.subset_append_left w r) (hs ▸ hsuffix.subset)
      have hk := targetKeywords_subset hsub (expandKeyword_mem hw)
      refine ⟨_, dev, ?_, rfl⟩
      rcases joinedRuns_bareNumber r with hnil | hnumber
      · rw [hnil, List.append_nil]
        exact .keyword hk
      · exact .numbered hk hnumber
  · obtain ⟨dev, -, rfl⟩ := Option.map_eq_some_iff.1 h
    exact ⟨[], dev, .nothing, rfl⟩

/-- Numbers with a suffix behind them. -/
theorem isCanonical_append_render {s release : Text} {σ : Suffix} (hr : JoinedRuns ['.'] release)
    (h : suffix? s = some σ) : IsCanonical (targetKeywords s) (release ++ σ.render) := by
  obtain ⟨stability, dev, hs, hrender⟩ := exists_of_render h
  exact ⟨release, stability, dev, hr, hs, by rw [hrender, List.append_assoc]⟩

/-! ## The numeric shapes -/

/-- A component behind the first one: a point and a number. -/
def IsFurther (t : Text) : Prop :=
  ∃ ds, t = '.' :: ds ∧ ds ≠ [] ∧ ∀ c ∈ ds, Text.isDecimal c = true

theorem IsFurther.of_digits {ds : Text} (hne : ds ≠ []) (hd : ∀ c ∈ ds, Text.isDecimal c = true) :
    IsFurther ('.' :: ds) := ⟨ds, rfl, hne, hd⟩

theorem IsFurther.getD {o : Option Text} {t : Text} (ho : ∀ u ∈ o, IsFurther u)
    (h : IsFurther t) : IsFurther (o.getD t) := by
  cases o with
  | none => exact h
  | some u => exact ho u rfl

theorem isFurther_missingComponent : IsFurther missingComponent :=
  .of_digits (by decide) (List.all_iff_forall_prop.1 rfl)

theorem isFurther_openComponent : IsFurther ('.' :: openComponent) :=
  .of_digits (by decide) (List.all_iff_forall_prop.1 rfl)

/-- A number behind a point, and what is left of the text. -/
theorem isFurther_of_pointNumber {s r : Text} {component : Option Text}
    (h : pointNumber s = (component, r)) : (∀ t ∈ component, IsFurther t) ∧ r <:+ s := by
  unfold pointNumber at h
  split at h
  · split at h
    · obtain ⟨rfl, rfl⟩ := Prod.mk.inj h
      exact ⟨by simp, List.suffix_refl _⟩
    · rename_i u hne
      obtain ⟨rfl, rfl⟩ := Prod.mk.inj h
      refine ⟨?_, (List.dropWhile_suffix _).trans (List.suffix_cons '.' u)⟩
      rintro t ⟨⟩
      exact .of_digits (by simpa using hne) (List.all_eq_true.1 List.all_takeWhile)
  · obtain ⟨rfl, rfl⟩ := Prod.mk.inj h
    exact ⟨by simp, List.suffix_refl _⟩

theorem isFurther_of_branchComponent {s r : Text} {component : Option Text}
    (h : branchComponent s = (component, r)) : ∀ t ∈ component, IsFurther t := by
  unfold branchComponent at h
  split at h
  · split at h
    · obtain ⟨rfl, -⟩ := Prod.mk.inj h
      rintro t ⟨⟩
      exact isFurther_openComponent
    · split at h
      · rename_i hd
        obtain ⟨rfl, -⟩ := Prod.mk.inj h
        rintro t ⟨⟩
        refine .of_digits ?_ (List.all_eq_true.1 List.all_takeWhile)
        rw [List.takeWhile_cons_of_pos hd]
        exact List.cons_ne_nil _ _
      · obtain ⟨rfl, -⟩ := Prod.mk.inj h
        simp
  · obtain ⟨rfl, -⟩ := Prod.mk.inj h
    simp

/-- **A number and three components** behind it. -/
structure AreComponents (major second third fourth : Text) : Prop where
  ne_nil : major ≠ []
  isDecimal : ∀ c ∈ major, Text.isDecimal c = true
  second : IsFurther second
  third : IsFurther third
  fourth : IsFurther fourth

theorem AreComponents.joinedRuns {major second third fourth : Text}
    (h : AreComponents major second third fourth) :
    JoinedRuns ['.'] (major ++ second ++ third ++ fourth) := by
  obtain ⟨hne, hd, ⟨ds₂, rfl, h₂⟩, ⟨ds₃, rfl, h₃⟩, ⟨ds₄, rfl, h₄⟩⟩ := h
  have hpoint : '.' ∈ ['.'] := List.mem_singleton_self '.'
  exact (((JoinedRuns.run hne hd).append hpoint (.run h₂.1 h₂.2)).append hpoint
    (.run h₃.1 h₃.2)).append hpoint (.run h₄.1 h₄.2)

section Shapes

variable {s n : Text}

/-- **A classical version** has four numbers, the first of at most five digits, and its suffix. -/
theorem exists_of_classical? (h : classical? s = some n) :
    ∃ major second third fourth r σ, AreComponents major second third fourth ∧
      major.length ≤ 5 ∧ r <:+ s ∧ suffix? r = some σ ∧
      n = major ++ second ++ third ++ fourth ++ σ.render := by
  rcases h₂ : pointNumber ((dropVersionLetter s).dropWhile Text.isDecimal) with ⟨second, r₂⟩
  rcases h₃ : pointNumber r₂ with ⟨third, r₃⟩
  rcases h₄ : pointNumber r₃ with ⟨fourth, r₄⟩
  simp only [classical?, h₂, h₃, h₄] at h
  obtain ⟨hsecond, hr₂⟩ := isFurther_of_pointNumber h₂
  obtain ⟨hthird, hr₃⟩ := isFurther_of_pointNumber h₃
  obtain ⟨hfourth, hr₄⟩ := isFurther_of_pointNumber h₄
  split at h
  · cases h
  · rename_i hne
    simp only [Bool.or_eq_true, List.isEmpty_iff, not_or, decide_eq_true_eq, Nat.not_lt] at hne
    obtain ⟨σ, hσ, rfl⟩ := Option.map_eq_some_iff.1 h
    have hmissing := isFurther_missingComponent
    have hrest : r₄ <:+ s := hr₄.trans (hr₃.trans (hr₂.trans ((List.dropWhile_suffix _).trans
      (dropVersionLetter_isSuffix s))))
    exact ⟨_, _, _, _, r₄, σ, ⟨hne.1, List.all_eq_true.1 List.all_takeWhile,
      .getD hsecond hmissing, .getD hthird hmissing, .getD hfourth hmissing⟩, hne.2, hrest, hσ, rfl⟩

theorem isCanonical_of_classical? (h : classical? s = some n) :
    IsCanonical (targetKeywords s) n := by
  obtain ⟨major, second, third, fourth, r, σ, hcomponents, -, hr, hσ, rfl⟩ :=
    exists_of_classical? h
  exact (isCanonical_append_render hcomponents.joinedRuns hσ).mono
    (targetKeywords_subset hr.subset)

/-! ### Dates -/

/-- The separators in dates. -/
def dateSeparators : List Char := ['.', ':', '-']

theorem exists_of_afterDigits? {k : Nat} {t r : Text} (h : afterDigits? k t = some r) :
    ∃ ds, t = ds ++ r ∧ ds.length = k ∧ ∀ c ∈ ds, Text.isDecimal c = true := by
  unfold afterDigits? at h
  split at h
  · rename_i hk
    rw [Bool.and_eq_true, decide_eq_true_eq, List.all_eq_true] at hk
    obtain rfl := Option.some.inj h
    exact ⟨t.take k, (List.take_append_drop k t).symm, List.length_take_of_le hk.1, hk.2⟩
  · cases h

/-- A group of a date goes on with the runs in front of it, or begins a new one. -/
theorem exists_joinedRuns_of_afterDigits? {k : Nat} (hk : k ≠ 0) {a t r : Text}
    (ha : JoinedRuns dateSeparators a) (h : afterDigits? k (dropDateSeparator t) = some r) :
    ∃ b, JoinedRuns dateSeparators b ∧ a ++ t = b ++ r := by
  obtain ⟨ds, hds, hlength, hd⟩ := exists_of_afterDigits? h
  have hne : ds ≠ [] := by
    rintro rfl
    exact hk hlength.symm
  cases t with
  | nil =>
    obtain ⟨rfl, -⟩ := List.append_eq_nil_iff.1 hds.symm
    exact absurd rfl hne
  | cons c t =>
    rw [dropDateSeparator] at hds
    split at hds
    · rename_i hc
      have hmem : c ∈ dateSeparators := by
        simpa [isDateSeparator, dateSeparators, or_assoc] using hc
      exact ⟨a ++ c :: ds, ha.append hmem (.run hne hd), by simp [hds]⟩
    · exact ⟨a ++ ds, ha.append_digits hd, by simp [hds]⟩

theorem joinedRuns_append_of_isDateTail {k : Nat} {a t : Text} (ha : JoinedRuns dateSeparators a)
    (h : isDateTail k t = true) : JoinedRuns dateSeparators (a ++ t) := by
  induction k generalizing a t with
  | zero =>
    cases t with
    | nil => rwa [List.append_nil]
    | cons c t => cases h
  | succ k ih =>
    cases t with
    | nil => rwa [List.append_nil]
    | cons c t =>
      rw [isDateTail, List.any_eq_true] at h
      · obtain ⟨length, hlength, h⟩ := h
        obtain ⟨r, hr, htail⟩ := (Option.any_eq_true _ _).1 h
        have hpos : length ≠ 0 := by
          rintro rfl
          exact absurd hlength (by decide)
        obtain ⟨b, hb, hab⟩ := exists_joinedRuns_of_afterDigits? hpos ha hr
        rw [hab]
        exact ih hb htail
      · exact List.cons_ne_nil c t

theorem joinedRuns_append_of_isDateBody {k : Nat} {a t : Text} (ha : JoinedRuns dateSeparators a)
    (h : isDateBody k t = true) : JoinedRuns dateSeparators (a ++ t) := by
  induction k generalizing a t with
  | zero => cases h
  | succ k ih =>
    rw [isDateBody] at h
    obtain ⟨r, hr, h⟩ := (Option.any_eq_true _ _).1 h
    obtain ⟨b, hb, hab⟩ := exists_joinedRuns_of_afterDigits? (by decide) ha hr
    rw [Bool.or_eq_true] at h
    rw [hab]
    rcases h with h | h
    · exact joinedRuns_append_of_isDateTail hb h
    · exact ih hb h

/-- **Dates** are runs of digits with single separators, the first of them a year. -/
theorem joinedRuns_of_isDate {date : Text} (h : isDate date = true) :
    JoinedRuns dateSeparators date := by
  obtain ⟨r, hr, hbody⟩ := (Option.any_eq_true _ _).1 h
  obtain ⟨year, rfl, hlength, hd⟩ := exists_of_afterDigits? hr
  have hne : year ≠ [] := by
    rintro rfl
    cases hlength
  exact joinedRuns_append_of_isDateBody (.run hne hd) hbody

theorem isCanonical_of_dated? (h : dated? s = some n) : IsCanonical (targetKeywords s) n := by
  obtain ⟨date, σ, -, hdate, hσ, rfl⟩ := exists_of_dated? h
  have hrest : (dropVersionLetter s).drop date.length <:+ s :=
    (List.drop_suffix _ _).trans (dropVersionLetter_isSuffix s)
  have hruns := (joinedRuns_of_isDate hdate).map (List.all_iff_forall_prop.1 rfl)
  exact (isCanonical_append_render hruns hσ).mono (targetKeywords_subset hrest.subset)

/-! ### Branches in development -/

/-- **The version of a numeric branch** has four numbers. -/
theorem exists_of_numericBranch? (h : numericBranch? s = some n) :
    ∃ major second third fourth, AreComponents major second third fourth ∧
      n = major ++ second ++ third ++ fourth := by
  rcases h₂ : branchComponent ((dropVersionLetter s).dropWhile Text.isDecimal) with ⟨second, r₂⟩
  rcases h₃ : branchComponent r₂ with ⟨third, r₃⟩
  rcases h₄ : branchComponent r₃ with ⟨fourth, r₄⟩
  simp only [numericBranch?, h₂, h₃, h₄] at h
  split at h
  · cases h
  · rename_i hne
    simp only [Bool.or_eq_true, List.isEmpty_iff, not_or] at hne
    obtain rfl := Option.some.inj h
    have hopen := isFurther_openComponent
    exact ⟨_, _, _, _, ⟨hne.1, List.all_eq_true.1 List.all_takeWhile,
      .getD (isFurther_of_branchComponent h₂) hopen, .getD (isFurther_of_branchComponent h₃) hopen,
      .getD (isFurther_of_branchComponent h₄) hopen⟩, rfl⟩

theorem isCanonical_of_development? (h : development? s = some n) :
    IsCanonical (targetKeywords s) n := by
  obtain ⟨name, version, -, hversion, rfl⟩ := exists_of_development? h
  obtain ⟨major, second, third, fourth, hcomponents, rfl⟩ := exists_of_numericBranch? hversion
  exact ⟨_, [], true, hcomponents.joinedRuns, .nothing, by simp⟩

/-- **Numeric versions** have a canonical text. -/
theorem isCanonical_of_numeric? (h : numeric? s = some n) : IsCanonical (targetKeywords s) n := by
  rcases numeric?_eq_some h with h | h | h
  · exact isCanonical_of_classical? h
  · exact isCanonical_of_dated? h
  · exact isCanonical_of_development? h

/-- **Normal forms** are canonical unless they name a branch. -/
theorem isCanonical_of_normalize (h : normalize s = .ok n) :
    (∃ name, n = branchPrefix ++ name) ∨ IsCanonical (targetKeywords s) n := by
  obtain ⟨t, ht, ⟨name, -, hname⟩ | hn⟩ := exists_of_normalize h
  · exact .inl ⟨name, hname⟩
  · have hpiece := ((dropBuild_isPrefix t).trans ht).isInfix.trans (Text.strip_isInfix s)
    exact .inr ((isCanonical_of_numeric? hn).mono (targetKeywords_subset hpiece.subset))

end Shapes

/-! ## Reading -/

/-- Whatever its length, a run of digits is read or has too many of them. -/
theorem literal_ne_malformed {w : Text} (hne : w ≠ []) (hd : ∀ c ∈ w, Text.isDecimal c = true) :
    Numeral.literal w ≠ .error .malformed := by
  rw [Numeral.literal_eq_read hne hd, Numeral.read]
  split <;> intro h <;> cases h

theorem applySuffix_ne_malformed (p : Place) (s : Text) :
    Version.applySuffix p s ≠ .error .malformed := by
  unfold Version.applySuffix
  split
  · intro h
    cases h
  · rename_i rank numbers hplace
    have hnumbers : numbers ≠ .error .malformed := by
      simp only [Version.suffixPlace?] at hplace
      split at hplace
      · cases hplace
      · obtain ⟨-, rfl⟩ := Prod.mk.inj (Option.some.inj hplace)
        refine Except.mapM_ne_error fun w _ => ?_
        rw [Numeral.read]
        split <;> intro h <;> cases h
    refine Except.bind_ne_error hnumbers fun ns _ h => ?_
    cases h

/-- **The parts of a numeric form are numbers**, though they can be too long to be read. -/
theorem IsNumericForm.ofNormal_ne_malformed {k : Nat} {n : Text} (h : IsNumericForm k n) :
    Version.ofNormal n ≠ .error .malformed := by
  rw [Version.ofNormal, h.dropPrefix?_eq_none]
  refine Except.bind_ne_error (Except.mapM_ne_error fun w hw => ?_) fun release _ => ?_
  · obtain ⟨-, hne, hd⟩ := mem_pointParts hw h.headD_fields
    exact literal_ne_malformed hne hd
  · refine Except.bind_ne_error (Except.foldlM_ne_error applySuffix_ne_malformed _ _)
      fun place _ h => ?_
    cases h

/-- A release is filled up, and no suffix changes it. -/
theorem length_release_of_ofNormal {n : Text} {v : Version} (h : Version.ofNormal n = .ok v)
    (hbranch : v.branch = none) : Version.releaseLength ≤ v.place.release.length := by
  unfold Version.ofNormal at h
  split at h
  · obtain rfl := Except.ok.inj h
    cases hbranch
  · obtain ⟨release, -, h⟩ := Except.exists_of_bind_eq_ok h
    obtain ⟨place, hplace, h⟩ := Except.exists_of_bind_eq_ok h
    obtain rfl := Except.ok.inj h
    show Version.releaseLength ≤ place.release.length
    rw [release_of_foldlM_applySuffix hplace, Version.padRelease, List.length_append,
      List.length_replicate]
    omega

/-- The normal form of a text is that of a branch, or numeric up to some length of its runs. -/
theorem ofNormal_ne_malformed {s n : Text} (h : normalize s = .ok n) :
    Version.ofNormal n ≠ .error .malformed := by
  have hruns : RunsWithin (max 7 s.length) s := RunsWithin.of_length_le (Nat.le_max_right 7 _)
  rcases normalize_eq_ok (Nat.le_max_left 7 _) hruns h with ⟨name, rfl⟩ | hform
  · rw [Version.ofNormal, Text.dropPrefix?_append]
    intro h
    cases h
  · exact hform.ofNormal_ne_malformed

/-- The only error of a normal form that is not found is about the text itself. -/
theorem eq_invalid_of_normalize {s : Text} {e : VersionError} (h : normalize s = .error e) :
    e = .invalid s := by
  simp only [normalize] at h
  split at h
  · cases h
  · split at h
    · cases h
    · exact (Except.error.inj h).symm

/-- **Reading a version.** A normal form never comes apart into anything but numbers. When no run of
digits is beyond the limit, every normal form is split, and a text is no version, or names a
branch, or is numeric: then its normal form is canonical and its release has at least four
numbers. -/
theorem parse_spec (s : Text) :
    (∀ n, normalize s = .ok n → Version.ofNormal n ≠ .error .malformed) ∧
    (RunsWithin Numeral.maxDigits s →
      (∀ n, normalize s = .ok n → ∃ v, Version.ofNormal n = .ok v) ∧
      (Version.parse s = .error (.invalid s) ∨
        (∃ name, normalize s = .ok (branchPrefix ++ name) ∧
          Version.parse s = .ok (.ofBranch name)) ∨
        ∃ n v, normalize s = .ok n ∧ IsCanonical (targetKeywords s) n ∧
          Version.parse s = .ok v ∧ v.branch = none ∧
          Version.releaseLength ≤ v.place.release.length)) := by
  refine ⟨fun n hn => ofNormal_ne_malformed hn, fun hruns => ?_⟩
  cases hn : normalize s with
  | error e =>
    obtain rfl := eq_invalid_of_normalize hn
    refine ⟨fun n h => (nomatch h), .inl ?_⟩
    rw [Version.parse, hn]
    rfl
  | ok n =>
    rcases normalize_eq_ok (by decide) hruns hn with ⟨name, rfl⟩ | hform
    · refine ⟨fun n h => ?_, .inr (.inl ⟨name, rfl, Version.parse_of_normalize_eq_branch hn⟩)⟩
      obtain rfl := Except.ok.inj h
      exact ⟨.ofBranch name, rfl⟩
    · obtain ⟨v, hv, hbranch⟩ := hform.exists_ofNormal
      have hcanonical : IsCanonical (targetKeywords s) n := by
        refine (isCanonical_of_normalize hn).resolve_left ?_
        rintro ⟨name, rfl⟩
        have hstarts := hform.not_startsWith
        rw [Text.startsWith_iff.2 ⟨name, rfl⟩] at hstarts
        cases hstarts
      refine ⟨fun n' h => ?_, .inr (.inr ⟨n, v, rfl, hcanonical, ?_, hbranch,
        length_release_of_ofNormal hv hbranch⟩)⟩
      · obtain rfl := Except.ok.inj h
        exact ⟨v, hv⟩
      · rw [Version.parse, hn]
        exact congrArg (Except.mapError VersionError.numeral) hv

/-- A release candidate in development, with separators that are not canonical. -/
theorem parse_spec_candidate :
    (∀ n, normalize "v1.0_rc.2.dev".toList = .ok n →
      Version.ofNormal n ≠ .error .malformed) ∧
    RunsWithin Numeral.maxDigits "v1.0_rc.2.dev".toList ∧
      (∀ n, normalize "v1.0_rc.2.dev".toList = .ok n → ∃ v, Version.ofNormal n = .ok v) ∧
      ∃ n v, normalize "v1.0_rc.2.dev".toList = .ok n ∧
        IsCanonical (targetKeywords "v1.0_rc.2.dev".toList) n ∧
        Version.parse "v1.0_rc.2.dev".toList = .ok v ∧ v.branch = none ∧
        Version.releaseLength ≤ v.place.release.length := by
  obtain ⟨hsplit, hspec⟩ := parse_spec "v1.0_rc.2.dev".toList
  have hruns : RunsWithin Numeral.maxDigits "v1.0_rc.2.dev".toList :=
    RunsWithin.of_length_le (by decide)
  obtain ⟨hof, hcases⟩ := hspec hruns
  refine ⟨hsplit, hruns, hof, ?_⟩
  -- It is a version, and its normal form has no prefix.
  rcases hcases with herror | ⟨name, hname, -⟩ | hnumeric
  · cases herror
  · cases hname
  · exact hnumeric

/-- **A keyword that is none of the target grammar**: the word for stable versions, written with a
long s, is read as this word and stays as it is written. -/
theorem not_isCanonical_longStable :
    RunsWithin Numeral.maxDigits "1.0-ſtable".toList ∧
      normalize "1.0-ſtable".toList = .ok "1.0.0.0-ſtable".toList ∧
      Text.startsWith branchPrefix "1.0.0.0-ſtable".toList = false ∧
      ¬IsCanonical canonicalKeywords "1.0.0.0-ſtable".toList := by
  refine ⟨RunsWithin.of_length_le (by decide), rfl, rfl, fun h => ?_⟩
  exact h.not_mem (c := 'ſ') rfl (by decide) (by decide) (by decide)

end Target

end AssetBridge
