import AssetBridge.Asset.Dependency
import AssetBridge.Proofs.Composition
import AssetBridge.Proofs.Pinned
import AssetBridge.Proofs.Words

/-!
# The names of branches

A branch that is named in a manifest is written behind the prefix of branches, and its name goes
through two conversions that are made for versions: once alone, and once as a range. The first looks
for a version behind a single letter and converts its suffix, the second puts the name in small
letters and takes the letter v in front of numbers. What is asked for in the end is the branch of
the name that these leave.

## Main definitions

* `IsBranchName`: the names that are read as those of branches
* `IsKeptName`: names of which the conversions leave all but the case of letters and the letter v

## Main results

* `IsKeptName.exists_convertVersion`: a name keeps its letters when it is converted alone
* `IsKeptName.convertRange_branchOf`: a name behind the prefix of branches, converted
* `IsBranchName.spelled_eq_self_iff`: the names that are kept as they are
* `IsBranchName.exists_parse_branchOf`: the constraint for the name of a branch
-/

namespace AssetBridge

/-! ## The characters of names -/

theorem Text.lower_of_ascii {s : Text} (h : ∀ c ∈ s, c.toNat < 0x80) :
    lower s = s.map Char.toLower := lowerAfter_of_ascii h []

namespace Asset

/-- The characters of the names of branches: letters, digits, hyphens, low lines and slashes. -/
def isBranchChar (c : Char) : Bool := c.isAlphanum || c = '-' || c = '_' || c = '/'

theorem toNat_lt_of_isBranchChar {c : Char} (h : isBranchChar c = true) : c.toNat < 0x80 := by
  simp only [isBranchChar, Bool.or_eq_true, decide_eq_true_eq] at h
  rcases h with ((h | rfl) | rfl) | rfl
  · exact Text.toNat_lt_of_isAlphanum h
  all_goals decide

/-- What holds of all characters of names can be checked on the ASCII characters. -/
theorem of_isBranchChar {P : Char → Prop}
    (h : ∀ n < 0x80, isBranchChar (Char.ofNat n) = true → P (Char.ofNat n)) {c : Char}
    (hc : isBranchChar c = true) : P c :=
  Text.of_toNat_lt (P := fun c => isBranchChar c = true → P c) h (toNat_lt_of_isBranchChar hc) hc

theorem not_mem_of_isBranchChar {s : Text} (hs : ∀ c ∈ s, isBranchChar c = true) {c : Char}
    (hc : isBranchChar c = false) : c ∉ s := by
  intro hm
  rw [hs c hm] at hc
  cases hc

theorem isBranchChar_toLower {c : Char} (h : isBranchChar c = true) :
    isBranchChar c.toLower = true :=
  of_isBranchChar (P := fun c => isBranchChar c.toLower = true) (by decide +kernel) h

theorem isReserved_eq_false_of_isBranchChar {c : Char} (h : isBranchChar c = true) :
    Text.isReserved c = false :=
  of_isBranchChar (P := fun c => Text.isReserved c = false) (by decide +kernel) h

theorem isDecimal_eq_isDigit_of_isBranchChar {c : Char} (h : isBranchChar c = true) :
    Text.isDecimal c = c.isDigit :=
  of_isBranchChar (P := fun c => Text.isDecimal c = c.isDigit) (by decide +kernel) h

end Asset

/-! ## The letter v -/

namespace Source

/-- Texts without the letter v stay in front of others. -/
theorem dropVersionLetters_append {m : Text} (hv : 'v' ∉ m) (hV : 'V' ∉ m) (s : Text) :
    dropVersionLetters (m ++ s) = m ++ dropVersionLetters s := by
  induction m with
  | nil => rfl
  | cons c m ih =>
    simp only [List.mem_cons, not_or] at hv hV
    rw [List.cons_append, dropVersionLetters, if_neg (by simp [Ne.symm hv.1, Ne.symm hV.1]),
      ih hv.2 hV.2]
    rfl

theorem exists_dropVersionLetters_append (s t : Text) :
    ∃ r, dropVersionLetters (s ++ t) = r ++ dropVersionLetters t := by
  induction s with
  | nil => exact ⟨[], rfl⟩
  | cons c s ih =>
    obtain ⟨r, hr⟩ := ih
    rw [List.cons_append, dropVersionLetters, hr]
    split
    · exact ⟨r, rfl⟩
    · exact ⟨c :: r, rfl⟩

/-- What has no letter v and stands in a text stays there. -/
theorem contains_dropVersionLetters {m s : Text} (hv : 'v' ∉ m) (hV : 'V' ∉ m)
    (h : Text.contains m s = true) : Text.contains m (dropVersionLetters s) = true := by
  obtain ⟨a, b, rfl⟩ := Text.contains_iff.1 h
  obtain ⟨r, hr⟩ := exists_dropVersionLetters_append a (m ++ b)
  rw [List.append_assoc, hr, dropVersionLetters_append hv hV]
  exact Text.contains_iff.2 ⟨r, dropVersionLetters b, by simp⟩

theorem dropVersionLetters_cons_eq_self_iff {c : Char} {s : Text} :
    dropVersionLetters (c :: s) = c :: s ↔
      ((c = 'v' ∨ c = 'V') → ∀ d ∈ s.head?, Text.isDecimal d = false) ∧
        dropVersionLetters s = s := by
  have hcondition : ((c = 'v' || c = 'V') && s.head?.any Text.isDecimal) = true ↔
      ¬((c = 'v' ∨ c = 'V') → ∀ d ∈ s.head?, Text.isDecimal d = false) := by
    cases s <;> simp
  rw [dropVersionLetters]
  split
  · rename_i h
    refine ⟨fun e => ?_, fun e => absurd e.1 (hcondition.1 h)⟩
    -- A letter that goes is missing.
    have hlength := (dropVersionLetters_sublist s).length_le
    rw [e, List.length_cons] at hlength
    omega
  · rename_i h
    rw [hcondition, Classical.not_not] at h
    exact ⟨fun e => ⟨h, (List.cons.inj e).2⟩, fun e => congrArg (c :: ·) e.2⟩

/-- **A text keeps its letters v** when no number stands behind one. -/
theorem dropVersionLetters_eq_self_iff {s : Text} : dropVersionLetters s = s ↔
    ∀ c d, [c, d] <:+: s → c = 'v' ∨ c = 'V' → Text.isDecimal d = false := by
  induction s with
  | nil => simp [dropVersionLetters]
  | cons e s ih =>
    rw [dropVersionLetters_cons_eq_self_iff, ih]
    simp only [List.infix_cons_iff]
    constructor
    · rintro ⟨hfirst, hrest⟩ c d (hfront | hinfix) hc
      · obtain ⟨rfl, hd⟩ := List.cons_prefix_cons.1 hfront
        obtain ⟨r, rfl⟩ := hd
        exact hfirst hc d rfl
      · exact hrest c d hinfix hc
    · intro h
      refine ⟨fun he d hd => ?_, fun c d hinfix => h c d (.inr hinfix)⟩
      obtain ⟨r, rfl⟩ := List.head?_eq_some_iff.1 hd
      exact h e d (.inl ⟨r, rfl⟩) he

/-! ## Versions without points -/

/-- Without a point there is no run of wildcards. -/
theorem collapseWildcards_of_not_mem {s : Text} (h : '.' ∉ s) : collapseWildcards s = s :=
  collapseWildcards_of_contains (Text.contains_eq_false (by decide) h)

/-- Without a point there is no date. -/
theorem convertDate_of_not_mem {s : Text} (h : '.' ∉ s) : convertDate s = .ok s := by
  unfold convertDate
  split
  · rename_i r hr
    exact absurd ((List.dropWhile_sublist _).mem (hr ▸ List.mem_cons_self)) h
  · rfl

/-- What opens with no component has no suffix. -/
theorem versionHead?_eq_none {c : Char} (hx : c ≠ 'x') (hstar : c ≠ '*') (hd : c.isDigit = false)
    (r : Text) : versionHead? (c :: r) = none := by
  have hcomponent : component? (c :: r) = none := by
    unfold component?
    split
    · rename_i h
      exact absurd (List.cons.inj h).1 hx
    · rename_i h
      exact absurd (List.cons.inj h).1 hstar
    · simp [hd]
  rw [versionHead?, headUpTo, hcomponent]

end Source

/-! ## Names -/

namespace Asset

open Source (branchPrefix convertVersion dropVersionLetters latest registryMarkers spelled
  versionHead?)

/-- **The names of branches**: they open with a letter, have the characters of names, and are
neither tags nor the names of commits. -/
structure IsBranchName (name : Text) : Prop where
  opens : ∃ c r, name = c :: r ∧ Text.isLetter c = true
  chars : ∀ c ∈ name, isBranchChar c = true
  not_tag : ∀ n, validateTag name ≠ .ok (some n)
  isCommit_eq_false : isCommit name = false

/-- **Names that are kept**: the name is not the word for the newest version, it can serve as that
of a branch, no registry has left a marker in it, and what looks like the suffix of a version behind
a single letter is the canonical one, in letters of any case. -/
structure IsKeptName (name : Text) : Prop where
  ne_latest : name ≠ latest
  isUsable : ∃ n, validateBranch name = some n
  not_marked : ∀ m ∈ registryMarkers, Text.contains m (branchOf (spelled name)) = false
  suffix_eq : ∀ c r head suffix, name = c :: r → Text.isSmall c = true →
    versionHead? r = some (head, suffix) →
    ∃ t : Source.CanonicalSuffix, Text.lower suffix = '-' :: Text.lower t.text

namespace IsBranchName

variable {b : Text} (hb : IsBranchName b)

include hb

theorem isWord : Text.IsWord b where
  ne_nil := by
    obtain ⟨c, r, rfl, -⟩ := hb.opens
    exact List.cons_ne_nil c r
  isReserved_eq_false c hc := isReserved_eq_false_of_isBranchChar (hb.chars c hc)

theorem not_mem {c : Char} (hc : isBranchChar c = false) : c ∉ b :=
  not_mem_of_isBranchChar hb.chars hc

theorem toNat_lt : ∀ c ∈ b, c.toNat < 0x80 := fun c hc =>
  toNat_lt_of_isBranchChar (hb.chars c hc)

theorem lower_eq : Text.lower b = b.map Char.toLower := Text.lower_of_ascii hb.toNat_lt

theorem isBranchChar_of_mem_lower : ∀ c ∈ Text.lower b, isBranchChar c = true := by
  intro c hc
  rw [hb.lower_eq] at hc
  obtain ⟨d, hd, rfl⟩ := List.mem_map.1 hc
  exact isBranchChar_toLower (hb.chars d hd)

theorem isBranchChar_of_mem_spelled : ∀ c ∈ spelled b, isBranchChar c = true := fun c hc =>
  hb.isBranchChar_of_mem_lower c ((Source.dropVersionLetters_sublist _).mem hc)

/-- **A name is kept as it is** when it has no capitals and no letter v in front of a digit. -/
theorem spelled_eq_self_iff : spelled b = b ↔
    (∀ c ∈ b, c.isUpper = false) ∧ ∀ d, d.isDigit = true → ¬ ['v', d] <:+: b := by
  have hcase : ∀ c ∈ b, (c.toLower = c ↔ c.isUpper = false) := fun c hc =>
    of_isBranchChar (P := fun c => c.toLower = c ↔ c.isUpper = false) (by decide +kernel)
      (hb.chars c hc)
  have hlower : Text.lower b = b ↔ ∀ c ∈ b, c.isUpper = false := by
    have hmap : b.map Char.toLower = b ↔ ∀ c ∈ b, c.toLower = c := by
      simpa using List.map_inj_left (l := b) (f := Char.toLower) (g := id)
    rw [hb.lower_eq, hmap]
    exact forall₂_congr hcase
  constructor
  · intro h
    -- Nothing is taken from the name, so the letters are small and no letter v goes.
    have hlength : (dropVersionLetters (Text.lower b)).length = (Text.lower b).length := by
      rw [show dropVersionLetters (Text.lower b) = b from h, hb.lower_eq, List.length_map]
    have hsame := (Source.dropVersionLetters_sublist _).eq_of_length hlength
    have hsmall : Text.lower b = b := hsame.symm.trans h
    rw [hsmall] at hsame
    refine ⟨hlower.1 hsmall, fun d hd hinfix => ?_⟩
    have := Source.dropVersionLetters_eq_self_iff.1 hsame 'v' d hinfix (.inl rfl)
    rw [Text.isDecimal_of_isDigit hd] at this
    cases this
  · rintro ⟨hcapitals, hletters⟩
    rw [spelled, hlower.2 hcapitals]
    refine Source.dropVersionLetters_eq_self_iff.2 fun c d hinfix hc => ?_
    have hcm : c ∈ b := hinfix.subset List.mem_cons_self
    have hdm : d ∈ b := hinfix.subset (List.mem_cons_of_mem c List.mem_cons_self)
    rcases hc with rfl | rfl
    · rw [isDecimal_eq_isDigit_of_isBranchChar (hb.chars d hdm), Bool.eq_false_iff]
      exact fun hd => hletters d hd hinfix
    · exact absurd (hcapitals _ hcm) (by decide)

/-- No registry has left a marker in the name as it is written either. -/
theorem not_marked (hmarks : ∀ m ∈ registryMarkers,
    Text.contains m (branchOf (spelled b)) = false) :
    ∀ m ∈ registryMarkers, Text.contains m b = false := by
  intro m hm
  have hletters : ∀ m ∈ registryMarkers, 'v' ∉ m ∧ 'V' ∉ m ∧ m.map Char.toLower = m := by decide
  obtain ⟨hv, hV, hsmall⟩ := hletters m hm
  rw [Bool.eq_false_iff]
  intro h
  have hlower : Text.contains m (Text.lower b) = true := by
    obtain ⟨a, r, rfl⟩ := Text.contains_iff.1 h
    refine Text.contains_iff.2 ⟨a.map Char.toLower, r.map Char.toLower, ?_⟩
    rw [hb.lower_eq, List.map_append, List.map_append, hsmall]
  obtain ⟨a, r, hspelled⟩ :=
    Text.contains_iff.1 (Source.contains_dropVersionLetters hv hV hlower)
  have hbranch : Text.contains m (branchOf (spelled b)) = true :=
    Text.contains_iff.2 ⟨branchPrefix ++ a, r, by rw [branchOf, spelled, hspelled]; simp⟩
  rw [hmarks m hm] at hbranch
  cases hbranch

end IsBranchName

/-! ### A name alone -/

variable {b : Text}

/-- **Converting** a version whose suffix is canonical, but for the case of its letters, leaves it
as it is, but for the case of its letters. -/
theorem map_toLower_convertSuffix {r head suffix : Text} {t : Source.CanonicalSuffix}
    (hr : ∀ c ∈ r, isBranchChar c = true) (hm : Source.dropRegistryMarkers r = r)
    (hhead : versionHead? r = some (head, suffix))
    (ht : Text.lower suffix = '-' :: Text.lower t.text) :
    '.' ∉ Source.convertSuffix r ∧
      (Source.convertSuffix r).map Char.toLower = r.map Char.toLower := by
  have hsplit : head ++ suffix = r := Source.headUpTo_append hhead
  have hascii : ∀ c ∈ suffix, c.toNat < 0x80 := fun c hc =>
    toNat_lt_of_isBranchChar (hr c (hsplit ▸ List.mem_append_right head hc))
  have hlower : Text.lower r = head.map Char.toLower ++ '-' :: Text.lower t.text := by
    rw [Text.lower_of_ascii fun c hc => toNat_lt_of_isBranchChar (hr c hc), ← hsplit,
      List.map_append, ← Text.lower_of_ascii hascii, ht]
  have hmap : (head ++ '-' :: t.text).map Char.toLower = r.map Char.toLower := by
    rw [← Text.lower_of_ascii fun c hc => toNat_lt_of_isBranchChar (hr c hc), hlower,
      List.map_append, List.map_cons, Text.lower_of_ascii t.toNat_lt]
    rfl
  have hpoint : '.' ∉ head ++ '-' :: t.text := by
    intro hc
    have hmem : ('.' : Char).toLower ∈ r.map Char.toLower := hmap ▸ List.mem_map_of_mem hc
    obtain ⟨d, hd, hdot⟩ := List.mem_map.1 hmem
    have hbranch := isBranchChar_toLower (hr d hd)
    rw [hdot] at hbranch
    exact absurd hbranch (by decide)
  have hconvert : Source.convertSuffix r = head ++ '-' :: t.text := by
    have htarget : Source.targetSuffix (Source.dropSuffixSign ((Text.lower r).drop head.length)) =
        t.text := by
      rw [hlower, List.drop_left' (List.length_map _)]
      exact t.targetSuffix_lower []
    simp only [Source.convertSuffix, hm, hhead, htarget]
    exact Source.collapseWildcards_of_not_mem hpoint
  rw [hconvert]
  exact ⟨hpoint, hmap⟩

/-- What is converted without its suffix stays as it is. -/
theorem convertSuffix_eq_self {r : Text} (hr : ∀ c ∈ r, isBranchChar c = true)
    (hm : Source.dropRegistryMarkers r = r) (hhead : versionHead? r = none) :
    Source.convertSuffix r = r := by
  rw [Source.convertSuffix_of_versionHead?_eq_none hm hhead,
    Source.collapseWildcards_of_not_mem (not_mem_of_isBranchChar hr (by decide))]

/-- **A name keeps its letters**, but for their case, when it is converted alone. -/
theorem IsKeptName.exists_convertVersion (hk : IsKeptName b) (hb : IsBranchName b) :
    ∃ t, convertVersion b = .ok t ∧ t.map Char.toLower = b.map Char.toLower := by
  have hdash : '–' ∉ b := hb.not_mem (by decide)
  have hmarks := hb.not_marked hk.not_marked
  have hword := hb.isWord
  obtain ⟨c, r, hcons, hletter⟩ := hb.opens
  have hdigit : c.isDigit = false := by
    rw [Bool.eq_false_iff]
    intro hd
    rw [Text.isLetter_eq_false_of_isDigit hd] at hletter
    cases hletter
  by_cases hsplit : (Text.isSmall c && !Text.startsWith Source.branchPrefix b) = true
  · -- A single letter stands in front of what may be a version.
    have hsplitLetter : Source.splitLetter b = ([c], r) := by
      rw [hcons] at hsplit ⊢
      rw [Source.splitLetter, if_pos hsplit]
    have hr : ∀ d ∈ r, isBranchChar d = true := fun d hd =>
      hb.chars d (hcons ▸ List.mem_cons_of_mem c hd)
    have hm : Source.dropRegistryMarkers r = r := Source.dropRegistryMarkers_eq_self fun m hm =>
      Text.contains_eq_false_of_isInfix (hmarks m hm) (hcons ▸ (List.suffix_cons c r).isInfix)
    obtain ⟨hpoint, hmap⟩ : '.' ∉ Source.convertSuffix r ∧
        (Source.convertSuffix r).map Char.toLower = r.map Char.toLower := by
      cases hhead : versionHead? r with
      | none =>
        rw [convertSuffix_eq_self hr hm hhead]
        exact ⟨not_mem_of_isBranchChar hr (by decide), rfl⟩
      | some split =>
        obtain ⟨head, suffix⟩ := split
        rw [Bool.and_eq_true] at hsplit
        obtain ⟨t, ht⟩ := hk.suffix_eq c r head suffix hcons hsplit.1 hhead
        exact map_toLower_convertSuffix hr hm hhead ht
    refine ⟨c :: Source.convertSuffix r, ?_, ?_⟩
    · rw [Source.convertVersion_eq_map hword.ne_nil hk.ne_latest hdash hsplitLetter,
        Source.convertDate_of_not_mem hpoint]
      rfl
    · rw [hcons, List.map_cons, List.map_cons, hmap]
  · -- The name opens with a capital, or with the prefix of branches.
    have hsplitLetter : Source.splitLetter b = ([], b) := by
      rw [hcons] at hsplit ⊢
      rw [Source.splitLetter, if_neg hsplit]
    have hx : c ≠ 'x' := by
      rintro rfl
      exact hsplit (by rw [hcons]; rfl)
    have hstar : c ≠ '*' := by
      rintro rfl
      exact absurd hletter (by decide)
    have hself : Source.convertSuffix b = b :=
      convertSuffix_eq_self hb.chars (Source.dropRegistryMarkers_eq_self hmarks)
        (hcons ▸ Source.versionHead?_eq_none hx hstar hdigit r)
    refine ⟨b, ?_, rfl⟩
    rw [Source.convertVersion_eq hword.ne_nil hk.ne_latest hdash hsplitLetter, hself,
      Source.convertDate_of_not_mem (hb.not_mem (by decide))]

/-! ### The name behind the prefix -/

theorem isBranchChar_branchOf {w : Text} (hw : ∀ c ∈ w, isBranchChar c = true) :
    ∀ c ∈ branchOf w, isBranchChar c = true := by
  have hopen : ∀ c ∈ branchPrefix, isBranchChar c = true := List.all_iff_forall_prop.1 rfl
  exact fun c hc => (List.mem_append.1 hc).elim (hopen c) (hw c)

theorem convertVersion_branchOf {w : Text} (hw : ∀ c ∈ w, isBranchChar c = true)
    (hm : ∀ m ∈ registryMarkers, Text.contains m (branchOf w) = false) :
    convertVersion (branchOf w) = .ok (branchOf w) := by
  have hchars := isBranchChar_branchOf hw
  have hlatest : branchOf w ≠ latest := fun e => absurd (List.cons.inj e).1 (by decide)
  have hdash : '–' ∉ branchOf w := not_mem_of_isBranchChar hchars (by decide)
  have hpoint : '.' ∉ branchOf w := not_mem_of_isBranchChar hchars (by decide)
  rw [Source.convertVersion_eq (branchOf_ne_nil w) hlatest hdash rfl,
    convertSuffix_eq_self hchars (Source.dropRegistryMarkers_eq_self hm) rfl,
    Source.convertDate_of_not_mem hpoint]

theorem dropVersionLetters_branchOf (w : Text) :
    dropVersionLetters (branchOf w) = branchOf (dropVersionLetters w) := rfl

/-- **A name behind the prefix**, converted as a range: what is left is the name as ranges spell
it. -/
theorem IsKeptName.convertRange_branchOf (hk : IsKeptName b) (hb : IsBranchName b) {t : Text}
    (ht : convertVersion b = .ok t) (hmap : t.map Char.toLower = b.map Char.toLower) :
    Source.convertRange (branchOf t) = .ok (branchOf (spelled b)) := by
  have hascii : ∀ c ∈ branchOf t, c.toNat < 0x80 := by
    have hopen : ∀ c ∈ branchPrefix, c.toNat < 0x80 := List.all_iff_forall_prop.1 rfl
    have hdigit : ∀ c : Char, c.isDigit = true → c.toNat < 0x80 := fun c hc => by
      have := Text.toNat_of_isDigit hc
      omega
    have hname := Source.forall_convertVersion hdigit (List.all_iff_forall_prop.1 rfl)
      hb.isWord.ne_nil hk.ne_latest hb.toNat_lt ht
    exact fun c hc => (List.mem_append.1 hc).elim (hopen c) (hname c)
  have hword : Text.IsWord (branchOf t) := by
    have hopen : ∀ c ∈ branchPrefix, Text.isReserved c = false := List.all_iff_forall_prop.1 rfl
    have hname := Source.isReserved_eq_false_of_convertVersion hb.isWord hk.ne_latest ht
    exact ⟨branchOf_ne_nil t, fun c hc => (List.mem_append.1 hc).elim (hopen c) (hname c)⟩
  have hlower : Text.lower (branchOf t) = branchOf (Text.lower b) := by
    rw [Text.lower_of_ascii hascii, hb.lower_eq, ← hmap]
    rfl
  have hspelled : spelled (branchOf t) = branchOf (spelled b) := by
    rw [spelled, hlower, dropVersionLetters_branchOf, spelled]
  have hlone : Source.Pending.isLoneMajor (branchOf (spelled b)) 0 none = false := by
    have hnumeric : Numeral.isNumeric (branchOf (spelled b)) = false := rfl
    simp [Source.Pending.isLoneMajor, hnumeric]
  rw [Source.convertRange_of_isWord hword, hspelled, if_neg (by simp [hlone])]
  exact convertVersion_branchOf hb.isBranchChar_of_mem_spelled hk.not_marked

/-! ### The constraint -/

open Target (Constraint Version)

/-- **The constraint for the name of a branch** lets through what is read as this branch, and
nothing else. -/
theorem IsBranchName.exists_parse_branchOf (hb : IsBranchName b) :
    ∃ c, Constraint.parse (branchOf (spelled b)) = .ok c ∧
      Version.parse (branchOf (spelled b)) = .ok (.ofBranch (spelled b)) ∧
      ∀ s, c.matchesText s = .ok true ↔ Version.parse s = .ok (.ofBranch (spelled b)) := by
  have hchars := isBranchChar_branchOf hb.isBranchChar_of_mem_spelled
  have hseparator : ∀ c ∈ branchOf (spelled b), Constraint.isPartSeparator c = false := fun c hc =>
    of_isBranchChar (P := fun c => Constraint.isPartSeparator c = false) (by decide +kernel)
      (hchars c hc)
  have hversion : Version.parse (branchOf (spelled b)) = .ok (.ofBranch (spelled b)) :=
    Version.parse_of_normalize_eq_branch
      (Grammar.normalize_branchOf hseparator (not_mem_of_isBranchChar hchars (by decide)))
  refine ⟨_, Constraint.parse_version hseparator (not_mem_of_isBranchChar hchars (by decide))
    hversion, hversion, fun s => ?_⟩
  rw [Constraint.matchesText_eq_ok_true_iff]
  constructor
  · rintro ⟨v, hv, haccepts⟩
    have hmatches : (⟨.eq, .ofBranch (spelled b)⟩ : Target.Bound).matches v = true := by
      simpa [Constraint.accepts] using haccepts
    rw [Target.Bound.matches_eq hv hversion, decide_eq_true_eq] at hmatches
    rw [hv, hmatches]
  · intro h
    refine ⟨_, h, ?_⟩
    have hmatches := Target.Bound.matches_eq h hversion
    simpa [Constraint.accepts] using hmatches

end Asset

end AssetBridge
