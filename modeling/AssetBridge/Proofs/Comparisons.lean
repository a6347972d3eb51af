import AssetBridge.Proofs.NormalForms
import AssetBridge.Proofs.Parts

/-!
# Comparisons split the versions in two

A comparison and its negation name the same version, lowered to that of its release by both of them
or by none. As places are in a linear order, every numeric version meets just one of the two. A
branch is neither above nor below anything.

## Main definitions

* `Operator.negation`: the comparison that holds where another does not
* `Bound.DownwardClosed`, `Bound.UpwardClosed`: bounds that let through all versions on one side
* `Operator.lowered`: the version that a comparison speaks of

## Main results

* `Place.lt_trichotomy`, `Place.lt_trans`: places are in a linear order
* `Bound.matches_negation`: a version meets a bound or its negation
* `parsePart_sign`: a sign in front of a version is read as a bound
* `comparisons_partition`: the comparisons with one version, as parts of a constraint
-/

namespace AssetBridge.Target

open Text (RunsWithin)

/-! ## Places are in a linear order -/

theorem lt_trichotomy_list (l m : List Nat) : l < m ∨ l = m ∨ m < l := by
  by_cases hlm : l < m
  · exact .inl hlm
  · by_cases hml : m < l
    · exact .inr (.inr hml)
    · exact .inr (.inl (List.le_antisymm (List.not_lt.1 hml) (List.not_lt.1 hlm)))

namespace Place

variable {a b c : Place}

theorem lt_irrefl (a : Place) : ¬ a < a := by
  intro h
  rcases lt_iff.1 h with h | ⟨-, h | ⟨-, h⟩⟩
  · exact List.lt_irrefl _ h
  · exact Nat.lt_irrefl _ h
  · exact List.lt_irrefl _ h

theorem lt_trans (hab : a < b) (hbc : b < c) : a < c := by
  rw [lt_iff] at hab hbc ⊢
  -- The first component in which one of the two differs decides.
  rcases hab with hab | ⟨er, hab⟩
  · rcases hbc with hbc | ⟨er, -⟩
    · exact .inl (List.lt_trans hab hbc)
    · exact .inl (er ▸ hab)
  · rcases hbc with hbc | ⟨er', hbc⟩
    · exact .inl (er ▸ hbc)
    · refine .inr ⟨er.trans er', ?_⟩
      rcases hab with hab | ⟨ek, hab⟩
      · rcases hbc with hbc | ⟨ek, -⟩
        · exact .inl (Nat.lt_trans hab hbc)
        · exact .inl (ek ▸ hab)
      · rcases hbc with hbc | ⟨ek', hbc⟩
        · exact .inl (ek ▸ hbc)
        · exact .inr ⟨ek.trans ek', List.lt_trans hab hbc⟩

/-- **Trichotomy**: of two places that differ one comes first. -/
theorem lt_trichotomy (a b : Place) : a < b ∨ a = b ∨ b < a := by
  simp only [lt_iff]
  rcases lt_trichotomy_list a.release b.release with h | hr | h
  · exact .inl (.inl h)
  · rcases Nat.lt_trichotomy a.rank b.rank with h | hk | h
    · exact .inl (.inr ⟨hr, .inl h⟩)
    · rcases lt_trichotomy_list a.number b.number with h | hn | h
      · exact .inl (.inr ⟨hr, .inr ⟨hk, h⟩⟩)
      · refine .inr (.inl ?_)
        cases a
        cases b
        simp_all
      · exact .inr (.inr (.inr ⟨hr.symm, .inr ⟨hk.symm, h⟩⟩))
    · exact .inr (.inr (.inr ⟨hr.symm, .inl h⟩))
  · exact .inr (.inr (.inl h))

theorem not_lt : ¬ a < b ↔ b ≤ a := by
  constructor
  · intro h
    rcases lt_trichotomy a b with hab | hab | hab
    · exact absurd hab h
    · exact .inr hab.symm
    · exact .inl hab
  · rintro (h | rfl) hab
    · exact lt_irrefl a (lt_trans hab h)
    · exact lt_irrefl _ hab

theorem lt_of_le_of_lt (hab : a ≤ b) (hbc : b < c) : a < c := by
  rcases hab with hab | rfl
  · exact lt_trans hab hbc
  · exact hbc

theorem lt_of_lt_of_le (hab : a < b) (hbc : b ≤ c) : a < c := by
  rcases hbc with hbc | rfl
  · exact lt_trans hab hbc
  · exact hab

theorem le_trans (hab : a ≤ b) (hbc : b ≤ c) : a ≤ c := by
  rcases hab with hab | rfl
  · exact .inl (lt_of_lt_of_le hab hbc)
  · exact hbc

end Place

/-! ## Negations -/

/-- The comparison that holds where another one does not. -/
def Operator.negation : Operator → Operator
  | .eq => .ne
  | .ne => .eq
  | .lt => .ge
  | .le => .gt
  | .gt => .le
  | .ge => .lt

/-- A comparison and its negation lower the version they name alike. -/
theorem Operator.startsRelease_negation (o : Operator) :
    o.negation.startsRelease = o.startsRelease := by
  cases o <;> rfl

theorem Operator.holds_negation (o : Operator) (a b : Place) :
    o.negation.holds a b = !o.holds a b := by
  cases o with
  | eq => simp [negation, holds]
  | ne => simp [negation, holds]
  | lt => simp [negation, holds, ← Place.not_lt]
  | le => simp [negation, holds, ← Place.not_lt]
  | gt => simp [negation, holds, ← Place.not_lt]
  | ge => simp [negation, holds, ← Place.not_lt]

namespace Bound

variable {o : Operator} {v w : Version}

/-- **A numeric version** meets a bound or its negation, and not both. -/
theorem matches_negation (hv : v.branch = none) (hw : w.branch = none) :
    (Bound.mk o.negation w).matches v = !(Bound.mk o w).matches v := by
  rw [matches_of_numeric hv hw, matches_of_numeric hv hw]
  exact o.holds_negation v.place w.place

/-- A bound that lets through every numeric version below one that it lets through. -/
def DownwardClosed (b : Bound) : Prop :=
  ∀ v w : Version, v.branch = none → w.branch = none → w.place ≤ v.place →
    b.matches v = true → b.matches w = true

/-- A bound that lets through every numeric version above one that it lets through. -/
def UpwardClosed (b : Bound) : Prop :=
  ∀ v w : Version, v.branch = none → w.branch = none → v.place ≤ w.place →
    b.matches v = true → b.matches w = true

theorem downwardClosed_lt (hw : w.branch = none) : (Bound.mk .lt w).DownwardClosed := by
  intro u v hu hv hle h
  rw [matches_of_numeric hu hw] at h
  rw [matches_of_numeric hv hw]
  exact decide_eq_true (Place.lt_of_le_of_lt hle (of_decide_eq_true h))

theorem downwardClosed_le (hw : w.branch = none) : (Bound.mk .le w).DownwardClosed := by
  intro u v hu hv hle h
  rw [matches_of_numeric hu hw] at h
  rw [matches_of_numeric hv hw]
  exact decide_eq_true (Place.le_trans hle (of_decide_eq_true h))

theorem upwardClosed_gt (hw : w.branch = none) : (Bound.mk .gt w).UpwardClosed := by
  intro u v hu hv hle h
  rw [matches_of_numeric hu hw] at h
  rw [matches_of_numeric hv hw]
  exact decide_eq_true (Place.lt_of_lt_of_le (of_decide_eq_true h) hle)

theorem upwardClosed_ge (hw : w.branch = none) : (Bound.mk .ge w).UpwardClosed := by
  intro u v hu hv hle h
  rw [matches_of_numeric hu hw] at h
  rw [matches_of_numeric hv hw]
  exact decide_eq_true (Place.le_trans (of_decide_eq_true h) hle)

/-- A branch is neither above nor below any version. -/
theorem matches_eq_false_of_branch (hw : w.isBranch = true) (ho : o ≠ .eq ∧ o ≠ .ne) (v : Version) :
    (Bound.mk o w).matches v = false := by
  simp only [Bound.matches, hw, Bool.or_true, if_true]
  cases o with
  | eq => exact absurd rfl ho.1
  | ne => exact absurd rfl ho.2
  | lt | le | gt | ge => rfl

end Bound

/-! ## What a version opens with -/

/-- The characters of signs. -/
def signChars : List Char := ['<', '>', '=', '!']

/-- The characters that can open a version: digits and letters. -/
def opensVersion (c : Char) : Bool := Text.isDecimal c || Text.isLetter c

theorem not_mem_signChars_of_opensVersion {c : Char} (h : opensVersion c = true) :
    c ∉ signChars := by
  have hsigns : ∀ d ∈ signChars, opensVersion d = false := List.all_iff_forall_prop.1 rfl
  intro hc
  rw [hsigns c hc] at h
  cases h

/-- A number opens the text, or a letter in front of it. -/
theorem exists_eq_cons_of_dropVersionLetter {s r : Text} {c : Char}
    (h : dropVersionLetter s = c :: r) (hc : Text.isDecimal c = true) :
    ∃ d t, s = d :: t ∧ opensVersion d = true := by
  unfold dropVersionLetter at h
  split at h
  · exact ⟨'v', _, rfl, rfl⟩
  · exact ⟨'V', _, rfl, rfl⟩
  · refine ⟨c, r, h, ?_⟩
    rw [opensVersion, hc, Bool.true_or]

/-- Digits that are taken from a text which has some open it. -/
theorem exists_eq_cons_of_takeWhile {p : Char → Bool} {s : Text} (h : s.takeWhile p ≠ []) :
    ∃ c r, s = c :: r ∧ p c = true := by
  cases s with
  | nil => exact absurd rfl h
  | cons c r =>
    by_cases hc : p c = true
    · exact ⟨c, r, rfl, hc⟩
    · exact absurd (List.takeWhile_cons_of_neg hc) h

theorem exists_eq_cons_of_numeric? {s n : Text} (hs : ∀ c ∈ s, Text.isBlank c = false)
    (h : numeric? s = some n) : ∃ c r, s = c :: r ∧ opensVersion c = true := by
  rcases numeric?_eq_some h with h | h | h
  · -- a classical version opens with its first number
    have hmajor : (dropVersionLetter s).takeWhile Text.isDecimal ≠ [] := by
      intro hnil
      simp [classical?, hnil] at h
    obtain ⟨c, r, hcr, hc⟩ := exists_eq_cons_of_takeWhile hmajor
    exact exists_eq_cons_of_dropVersionLetter hcr hc
  · -- a dated one with its year
    obtain ⟨date, -, ⟨t, ht⟩, hyear, -, -⟩ := exists_of_dated? h
    obtain ⟨c, r, rfl, hc⟩ := exists_eq_cons_of_isDate hyear
    exact exists_eq_cons_of_dropVersionLetter ht.symm hc
  · -- and one in development with the first number of the branch
    obtain ⟨name, version, ⟨t, rfl⟩, hversion, -⟩ := exists_of_development? h
    have hstrip : Text.strip name = name :=
      Text.strip_of_forall fun c hc => hs c (List.mem_append_left t hc)
    rw [hstrip] at hversion
    have hmajor : (dropVersionLetter name).takeWhile Text.isDecimal ≠ [] := by
      intro hnil
      simp [numericBranch?, hnil] at hversion
    obtain ⟨c, r, hcr, hc⟩ := exists_eq_cons_of_takeWhile hmajor
    obtain ⟨d, u, rfl, hd⟩ := exists_eq_cons_of_dropVersionLetter hcr hc
    exact ⟨d, u ++ t, rfl, hd⟩

/-- What counts as the letter d where case is ignored is that letter. -/
theorem isLetter_of_foldLetter_eq {c : Char} (h : Text.foldLetter c = 'd') :
    Text.isLetter c = true := by
  unfold Text.foldLetter at h
  split at h
  · exact absurd h (by decide)
  · split at h
    · exact absurd h (by decide)
    · split at h
      · exact absurd h (by decide)
      · by_cases hu : c.isUpper = true
        · exact (Bool.or_eq_true ..).mpr (.inl hu)
        · have hl : c.toLower = c := dif_neg fun hv => hu (decide_eq_true hv)
          rw [hl] at h
          rw [h]
          rfl

/-- The text that names a branch opens with a letter. -/
theorem exists_eq_cons_of_branch {s name : Text}
    (h : Text.dropKeyword? branchPrefix (nameDefault s) = some name) :
    ∃ c r, s = c :: r ∧ opensVersion c = true := by
  unfold nameDefault at h
  split at h
  · rename_i hone
    have hopen : ∀ t ∈ defaultBranches, ∃ c r, t = c :: r ∧ opensVersion c = true := by
      intro t ht
      simp only [defaultBranches, List.mem_cons, List.not_mem_nil, or_false] at ht
      rcases ht with rfl | rfl | rfl
      · exact ⟨'m', _, rfl, rfl⟩
      · exact ⟨'t', _, rfl, rfl⟩
      · exact ⟨'d', _, rfl, rfl⟩
    exact hopen s (Text.isOneOf_iff.1 hone)
  · obtain ⟨w, rfl, hw⟩ := Text.dropKeyword?_eq_some_iff.1 h
    obtain ⟨c, w, rfl⟩ := List.exists_cons_of_ne_nil (l := w) (by rintro rfl; cases hw)
    refine ⟨c, w ++ name, rfl, ?_⟩
    rw [opensVersion, isLetter_of_foldLetter_eq (List.cons.inj hw).1, Bool.or_true]

/-- **Every version opens with a digit or a letter.** -/
theorem exists_eq_cons_of_normalize {s n : Text} (hs : ∀ c ∈ s, Text.isBlank c = false)
    (h : normalize s = .ok n) : ∃ c r, s = c :: r ∧ opensVersion c = true := by
  obtain ⟨t, ht, hn⟩ := exists_of_normalize h
  have hpiece : ∀ u, u <+: t → (∃ c r, u = c :: r ∧ opensVersion c = true) →
      ∃ c r, s = c :: r ∧ opensVersion c = true := by
    rintro u hu ⟨c, r, rfl, hc⟩
    have hstrip : Text.strip s = s := Text.strip_of_forall hs
    obtain ⟨v, hv⟩ := hu.trans (hstrip ▸ ht)
    exact ⟨c, r ++ v, hv.symm, hc⟩
  rcases hn with ⟨name, hname, -⟩ | hn
  · exact hpiece t (List.prefix_refl t) (exists_eq_cons_of_branch hname)
  · refine hpiece _ (dropBuild_isPrefix t) (exists_eq_cons_of_numeric? (fun c hc => ?_) hn)
    exact hs c ((((dropBuild_isPrefix t).trans ht).isInfix.trans (Text.strip_isInfix s)).subset hc)

/-! ## Signs in front of a version -/

/-- A text without blanks is one word. -/
theorem word?_eq_self {s : Text} (hne : s ≠ []) (hs : ∀ c ∈ s, Text.isBlank c = false) :
    word? s = some s := by
  have hfront : s.dropWhile Text.isBlank = s :=
    (Text.scan_eq_of_head? fun c hc => hs c (List.mem_of_mem_head? hc)).2
  have hword := Text.scan_eq_of_forall (p := fun c => !Text.isBlank c) (s := s)
    fun c hc => by simp [hs c hc]
  have hempty : s.isEmpty = false := by simpa using hne
  rw [word?]
  simp only [hfront, hword.1, hword.2, hempty]
  rfl

/-- What stands in front of a word without blanks belongs to it. -/
theorem word?_cons_cons {c d : Char} (hc : Text.isBlank c = false) (hd : Text.isBlank d = false)
    (r : Text) : word? (c :: d :: r) = (word? (d :: r)).map (c :: ·) := by
  simp only [word?, List.dropWhile_cons, List.takeWhile_cons, hc, hd, Bool.not_false, if_true,
    Bool.false_eq_true, if_false, List.isEmpty_cons]
  split
  · rfl
  · rfl

/-- **A sign is taken off** the word behind it, and without a word there is no comparison. -/
theorem comparison?_append {c : Char} (hblank : Text.isBlank c = false) (hc : c ∉ signChars)
    (r : Text) {p : Text × Operator} (hp : p ∈ signs) :
    comparison? (p.1 ++ c :: r) = (word? (c :: r)).map fun word => (p.2, word) := by
  simp only [signChars, List.mem_cons, List.not_mem_nil, or_false, not_or] at hc
  have hgreater : '>' ≠ c := Ne.symm hc.2.1
  have hequal : '=' ≠ c := Ne.symm hc.2.2.1
  have hsigns : ∀ d ∈ signChars, Text.isBlank d = false := List.all_iff_forall_prop.1 rfl
  rw [signs_eq] at hp
  simp only [List.mem_cons, List.not_mem_nil, or_false] at hp
  cases hw : word? (c :: r) with
  | none =>
    -- A shorter sign would leave the rest of the sign in front of the word.
    have hone : ∀ d ∈ signChars, word? (d :: c :: r) = none := by
      intro d hd
      rw [word?_cons_cons (hsigns d hd) hblank, hw]
      rfl
    have htwo : ∀ d ∈ signChars, ∀ e ∈ signChars, word? (d :: e :: c :: r) = none := by
      intro d hd e he
      rw [word?_cons_cons (hsigns d hd) (hsigns e he), hone e he]
      rfl
    simp only [signChars, List.forall_mem_cons] at hone htwo
    rcases hp with rfl | rfl | rfl | rfl | rfl | rfl | rfl | rfl <;>
      simp [comparison?, signs_eq, Text.dropPrefix?, hw, hgreater, hequal, List.findSome?, hone,
        htwo]
  | some word =>
    -- The longer signs are tried first, and the word goes on with none of the characters they need.
    rcases hp with rfl | rfl | rfl | rfl | rfl | rfl | rfl | rfl <;>
      simp [comparison?, signs_eq, Text.dropPrefix?, hw, hgreater, hequal, List.findSome?]

/-- A sign opens a part that is neither a version with wildcards nor a range. -/
theorem wildcardNumbers?_append_sign {p : Text × Operator} (hp : p ∈ signs) (s : Text) :
    ∃ c r, p.1 ++ s = c :: r ∧ IsOpening c ∧ wildcardNumbers? (c :: r) = none := by
  rw [signs_eq] at hp
  simp only [List.mem_cons, List.not_mem_nil, or_false] at hp
  have hless : IsOpening '<' := .inr (.inr (.inl rfl))
  have hgreater : IsOpening '>' := .inr (.inr (.inr (.inl rfl)))
  have hequal : IsOpening '=' := .inr (.inl rfl)
  have hunequal : IsOpening '!' := .inr (.inr (.inr (.inr rfl)))
  rcases hp with rfl | rfl | rfl | rfl | rfl | rfl | rfl | rfl
  · exact ⟨_, _, rfl, hless, rfl⟩
  · exact ⟨_, _, rfl, hunequal, rfl⟩
  · exact ⟨_, _, rfl, hgreater, rfl⟩
  · exact ⟨_, _, rfl, hgreater, rfl⟩
  · exact ⟨_, _, rfl, hless, rfl⟩
  · exact ⟨_, _, rfl, hless, rfl⟩
  · exact ⟨_, _, rfl, hequal, rfl⟩
  · exact ⟨_, _, rfl, hequal, rfl⟩

/-- The version that a comparison speaks of, given the normal form of the one it names. -/
def Operator.lowered (o : Operator) (n : Text) (v : Version) : Version :=
  if o.startsRelease && '-' ∉ n && !v.isBranch then v.asDev else v

theorem Operator.branch_lowered (o : Operator) (n : Text) (v : Version) :
    (o.lowered n v).branch = v.branch := by
  unfold lowered
  split
  · rfl
  · rfl

/-- A comparison and its negation speak of the same version. -/
theorem Operator.lowered_negation (o : Operator) (n : Text) (v : Version) :
    o.negation.lowered n v = o.lowered n v := by
  rw [lowered, lowered, o.startsRelease_negation]

/-- A sign in front of a version makes a comparison of it, whether its numbers can be read or
not. -/
theorem parsePart_comparison {s n : Text} (hs : ∀ c ∈ s, Text.isBlank c = false)
    (hn : normalize s = .ok n) {p : Text × Operator} (hp : p ∈ signs) :
    parsePart (p.1 ++ s) = (fun b => [b]) <$> comparisonBound p.2 s := by
  obtain ⟨c, r, rfl, hc⟩ := exists_eq_cons_of_normalize hs hn
  have hcomparison := comparison?_append (hs c List.mem_cons_self)
    (not_mem_signChars_of_opensVersion hc) r hp
  rw [word?_eq_self (List.cons_ne_nil c r) hs, Option.map_some] at hcomparison
  obtain ⟨d, t, hdt, hd, hwild⟩ := wildcardNumbers?_append_sign hp (c :: r)
  rw [hdt] at hcomparison ⊢
  exact parsePart_of_comparison hd.not_mem_otherOpenings hwild hcomparison

/-- **A sign in front of a version** is read as the bound it speaks of. -/
theorem parsePart_sign {s n : Text} (hs : ∀ c ∈ s, Text.isBlank c = false)
    (hn : normalize s = .ok n) {v : Version} (hv : Version.parse s = .ok v)
    {p : Text × Operator} (hp : p ∈ signs) :
    parsePart (p.1 ++ s) = .ok [⟨p.2, p.2.lowered n v⟩] := by
  rw [parsePart_comparison hs hn hp, comparisonBound, readVersion, hv, hn]
  rfl

/-! ## The comparisons with one version -/

/-- **Comparisons partition the versions.** The signs in front of a numeric version that can be read
give bounds of which each and its negation share the numeric versions among them; `<` and `<=` let
through what is below, `>` and `>=` what is above. In front of a branch these four let nothing
through. -/
theorem comparisons_partition {s n : Text} (hs : ∀ c ∈ s, Text.isBlank c = false)
    (hn : normalize s = .ok n) :
    (Text.startsWith branchPrefix n = false → RunsWithin Numeral.maxDigits s →
      ∃ bound : Operator → Bound,
        (∀ p ∈ signs, parsePart (p.1 ++ s) = .ok [bound p.2]) ∧
        (∀ o v, v.branch = none → (bound o.negation).matches v = !(bound o).matches v) ∧
        (bound .lt).DownwardClosed ∧ (bound .le).DownwardClosed ∧
        (bound .gt).UpwardClosed ∧ (bound .ge).UpwardClosed) ∧
    (Text.startsWith branchPrefix n = true → ∀ p ∈ signs, p.2 ≠ .eq → p.2 ≠ .ne →
      ∃ b, parsePart (p.1 ++ s) = .ok [b] ∧ ∀ v, b.matches v = false) := by
  constructor
  · intro hnumeric hruns
    obtain ⟨v, hv, hb⟩ := Version.exists_parse_of_normalize hruns hn hnumeric
    have hlow : ∀ o : Operator, (o.lowered n v).branch = none := fun o =>
      (o.branch_lowered n v).trans hb
    refine ⟨fun o => ⟨o, o.lowered n v⟩, fun p hp => parsePart_sign hs hn hv hp, ?_, ?_, ?_, ?_, ?_⟩
    · intro o w hw
      show (Bound.mk o.negation (o.negation.lowered n v)).matches w =
        !(Bound.mk o (o.lowered n v)).matches w
      rw [o.lowered_negation]
      exact Bound.matches_negation hw (hlow o)
    · exact Bound.downwardClosed_lt (hlow .lt)
    · exact Bound.downwardClosed_le (hlow .le)
    · exact Bound.upwardClosed_gt (hlow .gt)
    · exact Bound.upwardClosed_ge (hlow .ge)
  · intro hbranch p hp heq hne
    obtain ⟨name, rfl⟩ := Text.startsWith_iff.1 hbranch
    have hv := Version.parse_of_normalize_eq_branch hn
    refine ⟨_, parsePart_sign hs hn hv hp, fun v => ?_⟩
    have hw : (p.2.lowered (branchPrefix ++ name) (.ofBranch name)).isBranch = true := by
      rw [Version.isBranch, Operator.branch_lowered]
      rfl
    exact Bound.matches_eq_false_of_branch hw ⟨heq, hne⟩ v

/-- A prerelease is such a version, and so is a branch of another letter case. -/
theorem comparisons_partition_beta :
    (∃ bound : Operator → Bound,
      (∀ p ∈ signs, parsePart (p.1 ++ "v1.2-BETA.3".toList) = .ok [bound p.2]) ∧
      (∀ o v, v.branch = none → (bound o.negation).matches v = !(bound o).matches v) ∧
      (bound .lt).DownwardClosed ∧ (bound .le).DownwardClosed ∧
      (bound .gt).UpwardClosed ∧ (bound .ge).UpwardClosed) ∧
    ∀ p ∈ signs, p.2 ≠ .eq → p.2 ≠ .ne →
      ∃ b, parsePart (p.1 ++ "Dev-next".toList) = .ok [b] ∧ ∀ v, b.matches v = false := by
  constructor
  · have hblank : ∀ c ∈ "v1.2-BETA.3".toList, Text.isBlank c = false :=
      List.all_iff_forall_prop.1 rfl
    have hn : normalize "v1.2-BETA.3".toList = .ok "1.2.0.0-beta3".toList := rfl
    exact (comparisons_partition hblank hn).1 rfl (RunsWithin.of_length_le (by decide))
  · have hblank : ∀ c ∈ "Dev-next".toList, Text.isBlank c = false := List.all_iff_forall_prop.1 rfl
    have hn : normalize "Dev-next".toList = .ok "dev-next".toList := rfl
    exact (comparisons_partition hblank hn).2 rfl

end AssetBridge.Target
