import AssetBridge.Proofs.CanonicalForms
import AssetBridge.Proofs.OpeningNumbers

/-!
# Normal forms are read again

A normal form that names no branch is a version itself. It need not have the shape that it was made
from: a date with points in it reads as a classical version, which fills up its numbers with zeros,
and the version of a numeric branch may read as a classical version or a date. Whichever shape
comes first, the release is the same up to zeros at its end, and the suffix is read as it stands, so
that both texts are the same version.

## Main definitions

* `settledKeywords`, `IsSettledSuffix`: suffixes that are read as they stand
* `pointed`: dates with points in place of their separators

## Main results

* `isSettledSuffix_of_suffix?`: canonical suffixes are settled
* `classical?_join_eq_none`, `exists_of_classical?_join`, `dated?_join`, `development?_join`: how a
  release with a settled suffix is read as each of the three shapes
* `exists_of_numeric?`, `exists_numeric?_join`: normal forms are of that kind and are read again
* `ofNormal_append_zeros`: zeros at the end of a release do not change the version
* `Version.parse_normalForm`: a normal form is a version, and the same one
-/

namespace AssetBridge.Target

open Text (JoinedRuns ContinuesWith RunsWithin join)

/-! ## The number of a suffix -/

theorem numberRun_devText (dev : Bool) : numberRun (devText dev) = ([], devText dev) := by
  cases dev <;> rfl

theorem devMark?_devText (dev : Bool) : devMark? (devText dev) = some dev := by
  cases dev <;> rfl

/-- **A number in front of the development mark** is read as a whole. -/
theorem numberRun_append_devText {number : Text} (h : JoinedRuns numberSeparators number)
    (dev : Bool) : numberRun (number ++ devText dev) = (number, devText dev) := by
  induction h with
  | run hne hd => rw [numberRun_isDecimal_append hd, numberRun_devText, List.append_nil]
  | @join t r c hne hd hc hr ih =>
    obtain ⟨d, r, rfl, hdigit⟩ := hr.exists_eq_cons
    have hsep : (c = '.' || c = '-') = true := by
      simpa [numberSeparators] using hc
    rw [List.append_assoc, numberRun_isDecimal_append hd, List.cons_append, numberRun, ih,
      List.cons_append, List.head?_cons, Option.any_some, hdigit, hsep, Bool.and_self,
      Bool.or_true, if_pos rfl]

/-! ## Suffixes -/

/-- The keywords of canonical suffixes, but for the one that says nothing. -/
def settledKeywords : List Text :=
  [longStable, Stability.alpha.keyword, Stability.beta.keyword, Stability.rc.keyword,
    Stability.patchKeyword]

theorem targetKeywords_subset_cons (s : Text) :
    targetKeywords s ⊆ longStable :: canonicalKeywords := by
  unfold targetKeywords
  split
  · exact List.Subset.refl _
  · exact List.subset_cons_self _ _

/-- A keyword of this kind is read as it stands. -/
theorem keyword?_append_of_mem {k : Text} (hk : k ∈ settledKeywords) (r : Text) :
    keyword? (k ++ r) = some (k, r) := by
  simp only [settledKeywords, List.mem_cons, List.not_mem_nil, or_false] at hk
  rcases hk with rfl | rfl | rfl | rfl | rfl <;> rfl

theorem expandKeyword_of_mem :
    ∀ k ∈ settledKeywords, k ≠ Stability.stable.keyword ∧ Stability.expandKeyword k = k := by
  decide +kernel

/-- **Suffixes that are read as they stand**. They are empty or open with a hyphen, behind which
there is neither a digit nor a separator. -/
structure IsSettledSuffix (t : Text) : Prop where
  exists_suffix? : ∃ σ, suffix? t = some σ ∧ σ.render = t
  eq_nil_or : t = [] ∨ ∃ c r, t = '-' :: c :: r ∧ Text.isDecimal c = false ∧
    isDateSeparator c = false

theorem isSettledSuffix_devText (dev : Bool) : IsSettledSuffix (devText dev) where
  exists_suffix? := by cases dev <;> exact ⟨_, rfl, rfl⟩
  eq_nil_or := by
    cases dev
    · exact .inl rfl
    · exact .inr ⟨'d', _, rfl, rfl, rfl⟩

/-- A keyword with a number, or without one, is settled with the development mark behind it. -/
theorem isSettledSuffix_append {k number : Text} (hk : k ∈ settledKeywords)
    (hnumber : number = [] ∨ JoinedRuns numberSeparators number) (dev : Bool) :
    IsSettledSuffix ('-' :: k ++ number ++ devText dev) where
  exists_suffix? := by
    have hrun : numberRun (number ++ devText dev) = (number, devText dev) := by
      rcases hnumber with rfl | h
      · exact numberRun_devText dev
      · exact numberRun_append_devText h dev
    have hbare : bareNumber number = number := by
      rcases hnumber with rfl | h
      · rfl
      · exact bareNumber_eq_self h
    obtain ⟨hne, hexpand⟩ := expandKeyword_of_mem k hk
    refine ⟨⟨some (k, number), dev⟩, ?_, ?_⟩
    · rw [List.append_assoc, List.cons_append, suffix?]
      have hdrop : dropOne ['.', '_', '-'] ('-' :: (k ++ (number ++ devText dev))) =
          k ++ (number ++ devText dev) := rfl
      simp only [hdrop, keyword?_append_of_mem hk, hrun, devMark?_devText, Option.map_some]
    · simp only [Suffix.render, if_neg hne, hexpand, hbare]
  eq_nil_or := by
    right
    simp only [settledKeywords, List.mem_cons, List.not_mem_nil, or_false] at hk
    rcases hk with rfl | rfl | rfl | rfl | rfl <;> exact ⟨_, _, rfl, rfl, rfl⟩

/-- **Canonical suffixes** are settled, unless the word for stable versions stands in them. -/
theorem isSettledSuffix_of_suffix? {s : Text} {σ : Suffix} (h : suffix? s = some σ)
    (hstable : Text.contains "-stable".toList σ.render = false) : IsSettledSuffix σ.render := by
  obtain ⟨stability, dev, hs, hrender⟩ := exists_of_render h
  rw [hrender] at hstable ⊢
  have hkeyword : ∀ k ∈ targetKeywords s, ∀ r, stability = '-' :: k ++ r →
      k ∈ settledKeywords := by
    rintro k hk r rfl
    have hall := targetKeywords_subset_cons s hk
    simp only [canonicalKeywords, settledKeywords, List.mem_cons, List.not_mem_nil, or_false]
      at hall ⊢
    rcases hall with h | rfl | h
    · exact .inl h
    · have hin : Text.contains "-stable".toList
          ('-' :: Stability.stable.keyword ++ r ++ devText dev) = true :=
        Text.contains_iff.2 ⟨[], r ++ devText dev, by simp [Stability.keyword]⟩
      rw [hin] at hstable
      cases hstable
    · exact .inr h
  cases hs with
  | nothing => exact isSettledSuffix_devText dev
  | keyword hk =>
    have hsettled := hkeyword _ hk [] (by simp)
    simpa using isSettledSuffix_append hsettled (.inl rfl) dev
  | numbered hk hn => exact isSettledSuffix_append (hkeyword _ hk _ rfl) (.inr hn) dev

/-! ## Releases -/

theorem join_cons_cons (t u : Text) (ts : List Text) :
    join ['.'] (t :: u :: ts) = t ++ '.' :: join ['.'] (u :: ts) := by
  simp [Text.join_cons]

theorem exists_isRelease_of_joinedRuns {release : Text} (h : JoinedRuns ['.'] release) :
    ∃ texts, IsRelease texts ∧ release = join ['.'] texts := by
  induction h with
  | @run t hne hd => exact ⟨[t], ⟨by simp, by simpa using ⟨hne, hd⟩⟩, by simp⟩
  | @join t r c hne hd hc _ ih =>
    obtain ⟨texts, htexts, rfl⟩ := ih
    obtain rfl := List.mem_singleton.1 hc
    obtain ⟨u, us, rfl⟩ := List.exists_cons_of_ne_nil htexts.ne_nil
    refine ⟨t :: u :: us, ⟨List.cons_ne_nil _ _, ?_⟩, (join_cons_cons t u us).symm⟩
    intro w hw
    rcases List.mem_cons.1 hw with rfl | hw
    · exact ⟨hne, hd⟩
    · exact htexts.isNumber w hw

/-- A number and three components behind it are four numbers. -/
theorem AreComponents.exists_areNumbers {major second third fourth : Text}
    (h : AreComponents major second third fourth) : ∃ texts, AreNumbers texts ∧
      texts.length = 4 ∧ texts.headD [] = major ∧
      major ++ second ++ third ++ fourth = join ['.'] texts := by
  obtain ⟨hne, hd, ⟨ds₂, rfl, h₂⟩, ⟨ds₃, rfl, h₃⟩, ⟨ds₄, rfl, h₄⟩⟩ := h
  refine ⟨[major, ds₂, ds₃, ds₄], ⟨⟨List.cons_ne_nil _ _, ?_⟩, Nat.le_refl 4⟩, rfl, rfl, ?_⟩
  · simp only [List.mem_cons, List.not_mem_nil, or_false, forall_eq_or_imp, forall_eq]
    exact ⟨⟨hne, hd⟩, ⟨h₂.1, h₂.2⟩, ⟨h₃.1, h₃.2⟩, ⟨h₄.1, h₄.2⟩⟩
  · simp [Text.join_cons]

/-- Zeros behind a release are components behind its text. -/
theorem join_append_replicate {texts : List Text} (hne : texts ≠ []) (k : Nat) :
    join ['.'] (texts ++ List.replicate k ['0']) =
      join ['.'] texts ++ (List.replicate k missingComponent).flatten := by
  obtain ⟨t, ts, rfl⟩ := List.exists_cons_of_ne_nil hne
  have hzeros : (List.replicate k ['0']).flatMap (['.'] ++ ·) =
      (List.replicate k missingComponent).flatten := by
    rw [List.flatMap_def, List.map_replicate]
    rfl
  rw [List.cons_append, Text.join_cons, Text.join_cons, List.flatMap_append, hzeros,
    List.append_assoc]

/-! ## The shapes of a normal form -/

/-- No suffix opens with a point and a digit. -/
theorem suffix?_point_eq_none {u : Text} (hu : IsNumber u) (r : Text) :
    suffix? ('.' :: (u ++ r)) = none := by
  obtain ⟨c, u, rfl, hc⟩ := hu.exists_eq_cons
  have hletter : Text.foldLetter c ∉ suffixLetters := foldLetter_not_mem_of_isDecimal hc rfl
  have hsep : c ∉ ['.', '-'] := by
    simp only [List.mem_cons, List.not_mem_nil, or_false, not_or]
    exact ⟨Text.ne_of_isDecimal hc rfl, Text.ne_of_isDecimal hc rfl⟩
  have hdrop : dropOne ['.', '_', '-'] ('.' :: (c :: u ++ r)) = c :: (u ++ r) := rfl
  simp only [suffix?, hdrop, keyword?_cons_eq_none hletter,
    devMark?_cons_eq_none hletter hsep (Text.ne_of_isDecimal hc rfl)]
  rfl

theorem IsSettledSuffix.continuesWith {t : Text} (h : IsSettledSuffix t) :
    ContinuesWith ['-'] t := by
  rcases h.eq_nil_or with rfl | ⟨c, r, rfl, -⟩
  · rintro c ⟨⟩
  · exact Text.continuesWith_cons '-' (c :: r)

section Shapes

variable {texts : List Text} (hr : IsRelease texts) {t : Text}
include hr

theorem dropVersionLetter_join (t : Text) :
    dropVersionLetter (join ['.'] texts ++ t) = join ['.'] texts ++ t := by
  obtain ⟨c, r, hjoin, hc⟩ := hr.exists_join_eq_cons
  have hnumber : IsNumber [c] := ⟨List.cons_ne_nil c [], by simpa using hc⟩
  rw [hjoin]
  exact hnumber.dropVersionLetter_append (r ++ t)

/-- What has more than four numbers is no classical version. -/
theorem classical?_join_eq_none (ht : ContinuesWith ['-'] t) (hlength : 4 < texts.length) :
    classical? (join ['.'] texts ++ t) = none := by
  have hletter := dropVersionLetter_join hr t
  obtain ⟨a, ts, rfl⟩ := List.exists_cons_of_ne_nil hr.ne_nil
  obtain ⟨htake, hdrop⟩ := scan_join (hr.isNumber a List.mem_cons_self) ts ht
  have hts : ∀ u ∈ ts, IsNumber u := fun u hu => hr.isNumber u (List.mem_cons_of_mem a hu)
  have htail : ∀ u ∈ ts.tail, IsNumber u := fun u hu => hts u (List.mem_of_mem_tail hu)
  have htail' : ∀ u ∈ ts.tail.tail, IsNumber u := fun u hu => htail u (List.mem_of_mem_tail hu)
  have hreads := readsComponents_pointNumber
  -- A fifth number is left for the suffix.
  obtain ⟨e, us, hus⟩ : ∃ e us, ts.tail.tail.tail = e :: us := by
    apply List.exists_cons_of_length_pos
    simp only [List.length_tail, List.length_cons] at hlength ⊢
    omega
  have he : IsNumber e := htail' e (List.mem_of_mem_tail (hus ▸ List.mem_cons_self))
  have hsuffix : suffix? ((e :: us).flatMap (['.'] ++ ·) ++ t) = none := by
    rw [List.flatMap_cons, List.append_assoc, List.append_assoc]
    exact suffix?_point_eq_none he _
  simp only [classical?, hletter, htake, hdrop, hreads.flatMap_append hts ht,
    hreads.flatMap_append htail ht, hreads.flatMap_append htail' ht, hus, hsuffix,
    Option.map_none, ite_self]

/-- **A classical version** is read with zeros behind its numbers. -/
theorem exists_of_classical?_join (ht : IsSettledSuffix t) {n : Text}
    (h : classical? (join ['.'] texts ++ t) = some n) : ∃ k, texts.length + k = 4 ∧
      n = join ['.'] (texts ++ List.replicate k ['0']) ++ t := by
  by_cases hlength : 4 < texts.length
  · rw [classical?_join_eq_none hr ht.continuesWith hlength] at h
    cases h
  · have htexts : AreNumbers texts := ⟨hr, Nat.not_lt.1 hlength⟩
    rw [classical?_eq htexts (dropVersionLetter_join hr t) ht.continuesWith] at h
    split at h
    · cases h
    · obtain ⟨σ, hσ, rfl⟩ := Option.map_eq_some_iff.1 h
      obtain ⟨τ, hτ, hrender⟩ := ht.exists_suffix?
      obtain rfl := Option.some.inj (hσ.symm.trans hτ)
      refine ⟨4 - texts.length, by omega, ?_⟩
      rw [join_append_replicate hr.ne_nil, hrender]

/-- **A date** is read as it stands. -/
theorem dated?_join (ht : IsSettledSuffix t) : dated? (join ['.'] texts ++ t) =
    if isDate (join ['.'] texts) then some (join ['.'] texts ++ t) else none := by
  -- The hyphen of the suffix is a separator of dates, but no digit follows it.
  have hdate : Text.dropEndWhile (fun c => !Text.isDecimal c)
      (t.takeWhile fun c => Text.isDecimal c || isDateSeparator c) = [] := by
    rcases ht.eq_nil_or with rfl | ⟨c, r, rfl, hd, hsep⟩
    · rfl
    · have htake : ('-' :: c :: r).takeWhile (fun c => Text.isDecimal c || isDateSeparator c) =
          ['-'] := by
        rw [List.takeWhile_cons_of_pos (by rfl), List.takeWhile_cons_of_neg (by simp [hd, hsep])]
      rw [htake]
      rfl
  obtain ⟨σ, hσ, hrender⟩ := ht.exists_suffix?
  simp only [dated?, dropVersionLetter_join hr,
    List.takeWhile_append_of_pos (isDecimal_or_isDateSeparator hr),
    Text.dropEndWhile_append (not_isDecimal_getLast? hr), hdate, List.append_nil, List.drop_left,
    hσ, map_join_eq_self hr, hrender, Option.map_some]

omit hr in
/-- What stands in front of a development mark, when it is on one line. -/
theorem beforeDev?_append_devText {name : Text} (h : '\n' ∉ name) :
    beforeDev? (name ++ devText true) = some name := by
  have hback : (name ++ devText true).reverse = "ved".toList ++ '-' :: name.reverse := by
    simp [devText]
  have hfeed : dropFinalFeed (name ++ devText true) = name ++ devText true := by
    have hends : Text.endsWith ['\n'] (name ++ devText true) = false := by
      rw [Text.endsWith, hback]
      rfl
    rw [dropFinalFeed, hends]
    rfl
  have hmark : Text.dropKeyword? "ved".toList ("ved".toList ++ '-' :: name.reverse) =
      some ('-' :: name.reverse) :=
    Text.dropKeyword?_eq_some_iff.2 ⟨_, rfl, rfl⟩
  have hname : (dropOne ['.', '-'] ('-' :: name.reverse)).reverse = name := by
    simp [dropOne]
  simp only [beforeDev?, hfeed, hback, hmark, hname]
  rw [if_neg h]

/-- **The version of a numeric branch** is read as it stands, as the branch of its own numbers. -/
theorem development?_join (hlength : texts.length = 4) :
    development? (join ['.'] texts ++ devText true) = some (join ['.'] texts ++ devText true) := by
  have hnot : ∀ c, Text.isDecimal c = false → c ≠ '.' → c ∉ join ['.'] texts := by
    intro c hd hne hm
    rcases hr.isDecimal_or_eq hm with h | h
    · rw [hd] at h
      cases h
    · exact hne h
  have hblank : ∀ c ∈ join ['.'] texts, Text.isBlank c = false := by
    intro c hc
    rcases hr.isDecimal_or_eq hc with hd | rfl
    · exact Text.isBlank_eq_false_of_isDecimal hd
    · rfl
  have hbranch : normalizeBranch (join ['.'] texts) = join ['.'] texts ++ devText true := by
    have hletter := dropVersionLetter_join hr []
    rw [List.append_nil] at hletter
    have hread := numericBranch?_eq (r := []) ⟨hr, Nat.le_of_eq hlength⟩ (by rintro c ⟨⟩)
      (hletter.trans (List.append_nil _).symm)
    rw [hlength, if_pos Text.isFinal_nil] at hread
    simp only [Nat.sub_self, List.replicate_zero, List.flatten_nil, List.append_nil] at hread
    rw [normalizeBranch, Text.strip_of_forall hblank, hread]
    rfl
  have hprefix : Text.contains branchPrefix (join ['.'] texts ++ devText true) = false := by
    have hd : 'd' ∉ join ['.'] texts ++ ['-'] := by simpa using hnot 'd' rfl (by decide)
    have hmark : join ['.'] texts ++ devText true =
        (join ['.'] texts ++ ['-']) ++ "dev".toList := by
      simp [devText]
    have hcontains := Text.contains_append_left hd ['e', 'v', '-'] "dev".toList
    rw [hmark, show branchPrefix = 'd' :: ['e', 'v', '-'] from rfl, hcontains]
    rfl
  rw [development?, beforeDev?_append_devText (hnot '\n' rfl (by decide))]
  dsimp only
  rw [hbranch, hprefix, if_neg Bool.false_ne_true]

/-- **A text of one of the shapes** is read with zeros behind its numbers, or as it stands. -/
theorem exists_numeric?_join (ht : IsSettledSuffix t)
    (h : (∃ n, classical? (join ['.'] texts ++ t) = some n) ∨ isDate (join ['.'] texts) = true ∨
      (texts.length = 4 ∧ t = devText true)) : ∃ k, (k = 0 ∨ texts.length + k = 4) ∧
      numeric? (join ['.'] texts ++ t) =
        some (join ['.'] (texts ++ List.replicate k ['0']) ++ t) := by
  have hself : join ['.'] (texts ++ List.replicate 0 ['0']) ++ t = join ['.'] texts ++ t := by
    simp
  cases hclassical : classical? (join ['.'] texts ++ t) with
  | some n =>
    obtain ⟨k, hk, rfl⟩ := exists_of_classical?_join hr ht hclassical
    exact ⟨k, .inr hk, by rw [numeric?, hclassical]; rfl⟩
  | none =>
    refine ⟨0, .inl rfl, ?_⟩
    rw [hself, numeric?, hclassical, dated?_join hr ht]
    rcases h with ⟨n, hn⟩ | hdate | ⟨hlength, rfl⟩
    · rw [hclassical] at hn
      cases hn
    · rw [if_pos hdate]
      rfl
    · split
      · rfl
      · exact development?_join hr hlength

end Shapes

/-! ## Dates with points -/

/-- A character of a date in its normal form. -/
def pointed (c : Char) : Char := if Text.isDecimal c then c else '.'

theorem pointed_of_isDecimal {c : Char} (h : Text.isDecimal c = true) : pointed c = c := if_pos h

theorem pointed_of_isDateSeparator {c : Char} (h : isDateSeparator c = true) : pointed c = '.' := by
  simp only [isDateSeparator, Bool.or_eq_true, decide_eq_true_eq] at h
  rcases h with (rfl | rfl) | rfl <;> rfl

theorem afterDigits?_append {ds : Text} (hd : ∀ c ∈ ds, Text.isDecimal c = true) (r : Text) :
    afterDigits? ds.length (ds ++ r) = some r := by
  rw [afterDigits?, List.take_left, List.drop_left, List.all_eq_true.2 hd, List.length_append,
    decide_eq_true (Nat.le_add_right _ _)]
  rfl

variable {k : Nat} {s r : Text}

theorem afterDigits?_map (h : afterDigits? k s = some r) :
    afterDigits? k (s.map pointed) = some (r.map pointed) := by
  obtain ⟨ds, rfl, rfl, hd⟩ := exists_of_afterDigits? h
  have hkeep : ds.map pointed = ds :=
    (List.map_congr_left fun c hc => pointed_of_isDecimal (hd c hc)).trans (List.map_id _)
  rw [List.map_append, hkeep]
  exact afterDigits?_append hd _

/-- A separator of a date is passed over when it has become a point as well. -/
theorem afterDigits?_dropDateSeparator_map (hk : k ≠ 0)
    (h : afterDigits? k (dropDateSeparator s) = some r) :
    afterDigits? k (dropDateSeparator (s.map pointed)) = some (r.map pointed) := by
  cases s with
  | nil => exact afterDigits?_map h
  | cons c s =>
    rw [dropDateSeparator] at h
    split at h
    · rename_i hsep
      rw [List.map_cons, pointed_of_isDateSeparator hsep]
      exact afterDigits?_map h
    · rename_i hsep
      obtain ⟨ds, hs, hlength, hd⟩ := exists_of_afterDigits? h
      have hc : Text.isDecimal c = true := by
        cases ds with
        | nil => exact absurd hlength.symm hk
        | cons e ds =>
          obtain ⟨rfl, -⟩ := List.cons.inj hs
          exact hd c List.mem_cons_self
      have hkeep := afterDigits?_map h
      rw [List.map_cons, pointed_of_isDecimal hc] at hkeep ⊢
      rwa [dropDateSeparator, if_neg hsep]

theorem isDateTail_map (h : isDateTail k s = true) : isDateTail k (s.map pointed) = true := by
  induction k generalizing s with
  | zero =>
    cases s with
    | nil => rfl
    | cons c s => cases h
  | succ k ih =>
    cases s with
    | nil => rfl
    | cons c s =>
      rw [isDateTail, List.any_eq_true] at h
      · obtain ⟨length, hlength, h⟩ := h
        obtain ⟨r, hr, htail⟩ := (Option.any_eq_true _ _).1 h
        have hpos : length ≠ 0 := by
          rintro rfl
          exact absurd hlength (by decide)
        rw [isDateTail, List.any_eq_true]
        · refine ⟨length, hlength, (Option.any_eq_true _ _).2 ⟨_, ?_, ih htail⟩⟩
          exact afterDigits?_dropDateSeparator_map hpos hr
        · exact List.cons_ne_nil _ _
      · exact List.cons_ne_nil c s

theorem isDateBody_map (h : isDateBody k s = true) : isDateBody k (s.map pointed) = true := by
  induction k generalizing s with
  | zero => cases h
  | succ k ih =>
    rw [isDateBody] at h ⊢
    obtain ⟨r, hr, h⟩ := (Option.any_eq_true _ _).1 h
    refine (Option.any_eq_true _ _).2
      ⟨_, afterDigits?_dropDateSeparator_map (by decide) hr, ?_⟩
    rw [Bool.or_eq_true] at h ⊢
    exact h.imp isDateTail_map ih

/-- **A date** is one with points in place of its separators. -/
theorem isDate_map (h : isDate s = true) : isDate (s.map pointed) = true := by
  obtain ⟨r, hr, hbody⟩ := (Option.any_eq_true _ _).1 h
  exact (Option.any_eq_true _ _).2 ⟨_, afterDigits?_map hr, isDateBody_map hbody⟩

/-! ## The normal form -/

/-- **Normal forms that name no branch** are numbers and a settled suffix, and of one of the
shapes. -/
theorem exists_of_numeric? {n : Text} (h : numeric? s = some n)
    (hstable : Text.contains "-stable".toList n = false) :
    ∃ texts t, IsRelease texts ∧ IsSettledSuffix t ∧ n = join ['.'] texts ++ t ∧
      ((∃ n', classical? n = some n') ∨ isDate (join ['.'] texts) = true ∨
        (texts.length = 4 ∧ t = devText true)) := by
  have hsettled : ∀ {r : Text} {σ : Suffix} {release : Text}, suffix? r = some σ →
      n = release ++ σ.render → IsSettledSuffix σ.render := by
    intro r σ release hσ hn
    apply isSettledSuffix_of_suffix? hσ
    exact Text.contains_eq_false_of_isInfix hstable (hn ▸ (List.suffix_append _ _).isInfix)
  rcases numeric?_eq_some h with h | h | h
  · obtain ⟨major, second, third, fourth, r, σ, hcomponents, hfive, -, hσ, hn⟩ :=
      exists_of_classical? h
    have ht := hsettled hσ hn
    obtain ⟨texts, htexts, hlength, hhead, hjoin⟩ := hcomponents.exists_areNumbers
    rw [hjoin] at hn
    refine ⟨texts, σ.render, htexts.toIsRelease, ht, hn, .inl ?_⟩
    obtain ⟨τ, hτ, hrender⟩ := ht.exists_suffix?
    rw [hn, classical?_eq htexts (dropVersionLetter_join htexts.toIsRelease _) ht.continuesWith,
      if_neg (by rw [hhead]; omega), hτ]
    exact ⟨_, rfl⟩
  · obtain ⟨date, σ, -, hdate, hσ, hn⟩ := exists_of_dated? h
    have hruns := (joinedRuns_of_isDate hdate).map (List.all_iff_forall_prop.1 rfl)
    obtain ⟨texts, hr, hjoin⟩ := exists_isRelease_of_joinedRuns hruns
    refine ⟨texts, σ.render, hr, hsettled hσ hn, hjoin ▸ hn, .inr (.inl ?_)⟩
    -- The separators have become points, and the date with points is one again.
    rw [← hjoin]
    exact isDate_map hdate
  · obtain ⟨name, version, -, hversion, hn⟩ := exists_of_development? h
    obtain ⟨major, second, third, fourth, hcomponents, rfl⟩ := exists_of_numericBranch? hversion
    obtain ⟨texts, htexts, hlength, -, hjoin⟩ := hcomponents.exists_areNumbers
    refine ⟨texts, _, htexts.toIsRelease, isSettledSuffix_devText true, hjoin ▸ hn, ?_⟩
    exact .inr (.inr ⟨hlength, rfl⟩)

/-- Nothing stands in a canonical text that is left out of a version. -/
theorem IsCanonical.isBuiltChar {n : Text} (h : IsCanonical (longStable :: canonicalKeywords) n) :
    (∀ c ∈ n, isBuiltChar c = true) ∧ '@' ∉ n := by
  have hsign : ∀ c ∈ [',', '+', '@'], c ∉ n := by
    have hchars : ∀ c ∈ [',', '+', '@'], Text.isDecimal c = false ∧ c ∉ ".-dev".toList ∧
        ∀ k ∈ longStable :: canonicalKeywords, c ∉ k :=
      List.all_iff_forall_prop.1 rfl
    intro c hc
    obtain ⟨hd, hmark, hkeyword⟩ := hchars c hc
    exact h.not_mem hd hmark hkeyword
  have hblank : ∀ c ∈ n, Text.isBlank c = false := by
    have hnone : ∀ c ∈ (".-dev".toList :: longStable :: canonicalKeywords).flatten,
        Text.isBlank c = false :=
      List.all_iff_forall_prop.1 rfl
    intro c hc
    rw [Bool.eq_false_iff]
    intro hblank
    refine h.not_mem ?_ ?_ ?_ hc
    · rw [Bool.eq_false_iff]
      intro hd
      rw [Text.isBlank_eq_false_of_isDecimal hd] at hblank
      cases hblank
    · intro hm
      rw [hnone c (List.mem_flatten.2 ⟨_, List.mem_cons_self, hm⟩)] at hblank
      cases hblank
    · intro k hk hm
      rw [hnone c (List.mem_flatten.2 ⟨k, List.mem_cons_of_mem _ hk, hm⟩)] at hblank
      cases hblank
  refine ⟨fun c hc => ?_, hsign '@' (by simp)⟩
  have hcomma : c ≠ ',' := fun e => hsign ',' (by simp) (e ▸ hc)
  have hplus : c ≠ '+' := fun e => hsign '+' (by simp) (e ▸ hc)
  simp [Target.isBuiltChar, isNameChar, hblank c hc, hcomma, hplus]

/-- **A canonical text** that opens with numbers has to be numeric, and nothing is left out. -/
theorem normalize_of_isCanonical {texts : List Text} (hr : IsRelease texts) {t : Text}
    (h : IsCanonical (longStable :: canonicalKeywords) (join ['.'] texts ++ t)) :
    normalize (join ['.'] texts ++ t) = match numeric? (join ['.'] texts ++ t) with
      | some version => .ok version
      | none => .error (.invalid (join ['.'] texts ++ t)) := by
  obtain ⟨hbuilt, hflag⟩ := h.isBuiltChar
  obtain ⟨a, ts, rfl⟩ := List.exists_cons_of_ne_nil hr.ne_nil
  have ha : AreNumbers [a] :=
    ⟨⟨List.cons_ne_nil a [], by simpa using hr.isNumber a List.mem_cons_self⟩, by simp⟩
  have hhead : IsHead [a] a := .inl (by simp)
  have hopens : join ['.'] (a :: ts) ++ t = a ++ (ts.flatMap (['.'] ++ ·) ++ t) := by
    rw [Text.join_cons, List.append_assoc]
  obtain ⟨hdefault, hbranch⟩ := hhead.nameDefault_and_dropKeyword? ha
    (ts.flatMap (['.'] ++ ·) ++ t)
  rw [← hopens] at hdefault hbranch
  exact normalize_of_isBuiltChar hdefault hbranch hbuilt hflag

/-! ## The version -/

/-- The fields of a release and its suffix. -/
theorem fields_join {texts : List Text} (hr : IsRelease texts) {t : Text}
    (ht : ContinuesWith ['-'] t) :
    Text.fields '-' (join ['.'] texts ++ t) = join ['.'] texts :: (Text.fields '-' t).tail := by
  cases t with
  | nil =>
    rw [List.append_nil, Text.fields_eq_singleton hr.hyphen_not_mem]
    rfl
  | cons c t =>
    obtain rfl := List.mem_singleton.1 (ht c rfl)
    rw [Text.fields_append_cons hr.hyphen_not_mem]
    rfl

/-- **The version of a release with a suffix**: the values of the numbers, filled up. -/
theorem ofNormal_join {texts : List Text} (hr : IsRelease texts)
    (hlength : ∀ u ∈ texts, u.length ≤ Numeral.maxDigits) {t : Text}
    (ht : ContinuesWith ['-'] t) : Version.ofNormal (join ['.'] texts ++ t) = do
      let place : Place := ⟨Version.padRelease (texts.map Numeral.value), Stability.stable.rank, []⟩
      return ⟨← (Text.fields '-' t).tail.foldlM Version.applySuffix place, none⟩ := by
  have hbranch : Text.dropPrefix? branchPrefix (join ['.'] texts ++ t) = none := by
    obtain ⟨c, r, hjoin, hc⟩ := hr.exists_join_eq_cons
    have hne : 'd' ≠ c := (Text.ne_of_isDecimal hc rfl).symm
    rw [hjoin]
    exact if_neg hne
  have hread : texts.mapM Numeral.literal = .ok (texts.map fun u => (Numeral.value u : Int)) :=
    Except.mapM_eq_ok fun u hu => Numeral.literal_of_isDecimal (hr.isNumber u hu).ne_nil
      (hr.isNumber u hu).isDecimal (hlength u hu)
  have hnat : (texts.map fun u => (Numeral.value u : Int)).map Int.toNat =
      texts.map Numeral.value := by
    simp
  simp only [Version.ofNormal, hbranch, fields_join hr ht, List.headD_cons, List.tail_cons,
    Version.pointParts, hr.words_join, hread, Except.ok_bind, hnat]

theorem isInfix_join {texts : List Text} {u : Text} (h : u ∈ texts) : u <:+: join ['.'] texts := by
  obtain ⟨l, m, rfl⟩ := List.append_of_mem h
  have hrest : u <:+: join ['.'] (u :: m) := by
    rw [Text.join_cons]
    exact (List.prefix_append u _).isInfix
  cases l with
  | nil => exact hrest
  | cons w l =>
    rw [Text.join_append]
    exact hrest.trans ((List.suffix_append _ _).trans (List.suffix_append _ _)).isInfix

/-- **Zeros at the end of a release** do not change the version. -/
theorem ofNormal_append_zeros {texts : List Text} (hr : IsRelease texts)
    (hlength : ∀ u ∈ texts, u.length ≤ Numeral.maxDigits) {t : Text} (ht : ContinuesWith ['-'] t)
    {k : Nat} (hk : k = 0 ∨ texts.length + k = 4) :
    Version.ofNormal (join ['.'] (texts ++ List.replicate k ['0']) ++ t) =
      Version.ofNormal (join ['.'] texts ++ t) := by
  have hzero : IsNumber ['0'] := ⟨List.cons_ne_nil _ _, List.all_iff_forall_prop.1 rfl⟩
  have hmem : ∀ u ∈ texts ++ List.replicate k ['0'], u ∈ texts ∨ u = ['0'] := fun u hu =>
    (List.mem_append.1 hu).imp_right List.eq_of_mem_replicate
  have hr' : IsRelease (texts ++ List.replicate k ['0']) := by
    refine ⟨List.append_ne_nil_of_left_ne_nil hr.ne_nil _, fun u hu => ?_⟩
    rcases hmem u hu with hu | rfl
    · exact hr.isNumber u hu
    · exact hzero
  have hlength' : ∀ u ∈ texts ++ List.replicate k ['0'], u.length ≤ Numeral.maxDigits := by
    intro u hu
    rcases hmem u hu with hu | rfl
    · exact hlength u hu
    · decide
  have hpad : Version.padRelease ((texts ++ List.replicate k ['0']).map Numeral.value) =
      Version.padRelease (texts.map Numeral.value) := by
    rw [List.map_append, List.map_replicate, show Numeral.value ['0'] = 0 from rfl]
    rcases hk with rfl | hk
    · simp
    · apply Version.padRelease_append_zeros
      rw [List.length_map, hk]
      exact Nat.le_refl 4
  rw [ofNormal_join hr' hlength' ht, ofNormal_join hr hlength ht, hpad]

/-- **A normal form is the same version.** When no run of digits is beyond the limit, the normal
form of a version that is no branch and has not the word for stable versions has a normal form
itself, and both texts are read as the same version. -/
theorem Version.parse_normalForm {s n : Text} (h : normalize s = .ok n)
    (hbranch : Text.startsWith branchPrefix n = false)
    (hstable : Text.contains "-stable".toList n = false) (hruns : RunsWithin Numeral.maxDigits s) :
    ∃ n' v, normalize n = .ok n' ∧ parse s = .ok v ∧ parse n = .ok v := by
  have hnone : ¬∃ name, n = branchPrefix ++ name := by
    rintro ⟨name, rfl⟩
    rw [Text.startsWith_iff.2 ⟨name, rfl⟩] at hbranch
    cases hbranch
  have hform := (normalize_eq_ok (by decide) hruns h).resolve_left hnone
  have hcanonical := ((isCanonical_of_normalize h).resolve_left hnone).mono
    (targetKeywords_subset_cons s)
  obtain ⟨u, -, ⟨name, -, hname⟩ | hn⟩ := exists_of_normalize h
  · exact absurd ⟨name, hname⟩ hnone
  · obtain ⟨texts, t, hr, ht, rfl, hshape⟩ := exists_of_numeric? hn hstable
    -- Read again, the numbers are the same but for zeros at the end, which fill up the version.
    obtain ⟨k, hk, hagain⟩ := exists_numeric?_join hr ht hshape
    obtain ⟨v, hv, -⟩ := hform.exists_ofNormal
    have hlength : ∀ u ∈ texts, u.length ≤ Numeral.maxDigits := fun u hu =>
      hform.runsWithin u ((isInfix_join hu).trans (List.prefix_append _ _).isInfix)
        (hr.isNumber u hu).isDecimal
    have hnormal := normalize_of_isCanonical hr hcanonical
    rw [hagain] at hnormal
    refine ⟨_, v, hnormal, ?_, ?_⟩
    · rw [parse, h, Except.ok_bind, hv]
      rfl
    · rw [parse, hnormal, Except.ok_bind, ofNormal_append_zeros hr hlength ht.continuesWith hk, hv]
      rfl

/-- A date with a candidate: its normal form reads as a classical version with one more zero. -/
theorem Version.parse_normalForm_date :
    normalize "2017-01-24-RC.2".toList = .ok "2017.01.24-RC2".toList ∧
      normalize "2017.01.24-RC2".toList = .ok "2017.01.24.0-RC2".toList ∧
      Version.parse "2017-01-24-RC.2".toList = Version.parse "2017.01.24-RC2".toList := by
  have hn : normalize "2017-01-24-RC.2".toList = .ok "2017.01.24-RC2".toList := rfl
  obtain ⟨n', v, hn', hs, hv⟩ := Version.parse_normalForm hn rfl rfl
    (RunsWithin.of_length_le (by decide))
  exact ⟨hn, rfl, hs.trans hv.symm⟩

end AssetBridge.Target
