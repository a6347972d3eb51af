import AssetBridge.Proofs.Branches
import AssetBridge.Proofs.Resolution

/-!
# Commits behind a hash

The name of a commit behind a hash is required as that commit of the default branch, in a text that
ranges leave as it is. The hash may stand alone, behind a URL, or behind the name of another
package, an alias. A full name behind an alias is a case of its own: the alias is not split off, so
that it ends up in front of the commit, and what they make together is a branch.

## Main definitions

* `pin`: the version that stands for a commit
* `IsPinPrefix`: what may stand in front of the hash
* `IsUnpinned`: commits that are resolved to something else

## Main results

* `Source.exists_convertVersion_of_not_mem`: versions without points are always converted
* `settleVersion_commit`: a commit behind its hash
* `convertRange_pin`: a commit as a range
* `resolve_pin_iff`: when a commit is what is resolved
-/

namespace AssetBridge

/-! ## Versions without points -/

namespace Source

variable {s : Text}

/-- Behind a single component there is no point at which a date could be read. -/
theorem convertDate_component_append {t : Text} (ht : IsComponent t) (r : Text) :
    convertDate (t ++ '-' :: r) = .ok (t ++ '-' :: r) := by
  obtain ⟨c, u, hdrop, hc⟩ :
      ∃ c u, (t ++ '-' :: r).dropWhile Text.isDecimal = c :: u ∧ c ≠ '.' := by
    cases ht with
    | digits _ hd => exact ⟨'-', r, Text.dropWhile_isDecimal_append hd _, by decide⟩
    | wild w => cases w <;> exact ⟨_, _, rfl, by decide⟩
  rw [convertDate, hdrop]
  split
  · rename_i h
    exact absurd (List.cons.inj h).1 hc
  · rfl

/-- **Without a point** a version has no more than one component in front of its suffix, so that no
date is read in it. -/
theorem exists_convertDate_of_not_mem (h : '.' ∉ s) :
    ∃ t, convertDate (convertSuffix s) = .ok t := by
  have hpoint : '.' ∉ dropRegistryMarkers s := fun hm =>
    forall_dropRegistryMarkers (p := (· ≠ '.')) (fun c hc e => h (e ▸ hc)) _ hm rfl
  cases hhead : versionHead? (dropRegistryMarkers s) with
  | none =>
    simp only [convertSuffix, hhead, collapseWildcards_of_not_mem hpoint,
      convertDate_of_not_mem hpoint]
    exact ⟨_, rfl⟩
  | some split =>
    obtain ⟨head, suffix⟩ := split
    obtain ⟨t, ht, -⟩ := exists_targetSuffix
      (dropSuffixSign ((Text.lower (dropRegistryMarkers s)).drop head.length))
    have hcomponent : IsComponent head := by
      rw [versionHead?, headUpTo] at hhead
      split at hhead
      · cases hhead
      · rename_i c r hc
        split at hhead
        · obtain ⟨rfl, -⟩ := Prod.mk.inj (Option.some.inj hhead)
          exact isComponent_of_component? hc
        · split at hhead
          · exact absurd (component?_append hc ▸ by simp) hpoint
          · cases hhead
    have hcount : (head ++ '-' :: t.text).count 'x' ≤ 1 := by
      have hsuffix : ('-' :: t.text).count 'x' = 0 := by
        rw [List.count_eq_zero, List.mem_cons, not_or]
        exact ⟨by decide, t.not_mem_text rfl (by decide)⟩
      rw [List.count_append, hsuffix, Nat.add_zero]
      cases hcomponent with
      | digits _ hd =>
        rw [List.count_eq_zero.2 fun hx => absurd (hd 'x' hx) (by decide)]
        omega
      | wild w => exact List.count_le_length
    simp only [convertSuffix, hhead, ht, collapseWildcards_eq_self hcount,
      convertDate_component_append hcomponent]
    exact ⟨_, rfl⟩

theorem exists_convertVersion_of_not_mem (h : '.' ∉ s) : ∃ t, convertVersion s = .ok t := by
  have hsubstitute : '.' ∉ Text.substitute (· = '–') ['-'] s := by
    intro hm
    rcases Text.mem_substitute hm with hm | hm
    · exact h hm
    · exact absurd hm (by decide)
  refine exists_convertVersion_of_body (exists_convertDate_of_not_mem fun hm => hsubstitute ?_)
  exact (splitLetter_isSuffix _).mem hm

end Source

namespace Asset

variable {context : Context} {sha p : Text}

/-! ## The names of commits -/

/-- The digits of the names of commits. -/
def hashDigits : Text := "0123456789abcdef".toList

theorem mem_hashDigits {c : Char} (h : isHashChar c = true) : c ∈ hashDigits := by
  have hlt : c.toNat < 0x80 := by
    simp only [isHashChar, Bool.or_eq_true, Bool.and_eq_true, decide_eq_true_eq] at h
    rcases h with h | ⟨-, h⟩
    · have := Text.toNat_of_isDigit h
      omega
    · have hf : c.toNat ≤ 'f'.toNat := UInt32.le_iff_toNat_le.1 h
      exact Nat.lt_of_le_of_lt hf (by decide)
  exact Text.of_toNat_lt (P := fun c => isHashChar c = true → c ∈ hashDigits)
    (by decide +kernel) hlt h

theorem isCommit_iff : isCommit sha = true ↔
    4 ≤ sha.length ∧ sha.length ≤ hashLength ∧ ∀ c ∈ sha, isHashChar c = true := by
  simp only [isCommit, Bool.and_eq_true, decide_eq_true_eq, List.all_eq_true, and_assoc]

theorem mentionsUrl_prepareVersion (kind : Kind) (h : Kind.mentionsUrl p = true) :
    Kind.mentionsUrl (kind.prepareVersion p) = true := by
  cases kind with
  | npm => exact h
  | bower =>
    rw [Kind.prepareVersion, Kind.expandShorthand]
    split
    · rw [List.append_assoc, List.append_assoc]
      exact mentionsUrl_append rfl _
    · exact h

section Commit

variable (hsha : isCommit sha = true)

include hsha

theorem forall_of_isCommit {P : Char → Prop} (h : ∀ c ∈ hashDigits, P c) : ∀ c ∈ sha, P c :=
  fun c hc => h c (mem_hashDigits ((isCommit_iff.1 hsha).2.2 c hc))

theorem isWord_of_isCommit : Text.IsWord sha where
  ne_nil := by
    rintro rfl
    exact absurd hsha (by decide)
  isReserved_eq_false := forall_of_isCommit hsha (List.all_iff_forall_prop.1 rfl)

theorem not_mem_of_isCommit {c : Char} (hc : c ∉ hashDigits) : c ∉ sha := fun hm =>
  forall_of_isCommit hsha (P := (· ≠ c)) (fun _ hd e => hc (e ▸ hd)) c hm rfl

/-- A commit of the full length is found at the end of a text, a shorter one is not. -/
theorem endsWithHash_eq : endsWithHash sha = decide (sha.length = hashLength) := by
  obtain ⟨-, hlength, hall⟩ := isCommit_iff.1 hsha
  have hscan := (Text.scan_eq_of_forall (s := sha.reverse) fun c hc =>
    hall c (List.mem_reverse.1 hc)).1
  have hopens : opensWithHash sha.reverse = decide (sha.length = hashLength) := by
    rw [opensWithHash, hscan, List.length_reverse, decide_eq_decide]
    omega
  have hfeed : Text.dropPrefix? ['\n'] sha.reverse = none := by
    rw [Option.eq_none_iff_forall_ne_some]
    intro r hr
    have hm : '\n' ∈ sha.reverse := by
      rw [Text.dropPrefix?_eq_some_iff.1 hr]
      exact List.mem_cons_self
    exact not_mem_of_isCommit hsha (by decide) (List.mem_reverse.1 hm)
  rw [endsWithHash, hopens, hfeed, Option.any_none, Bool.or_false]

/-! ## A commit as a version -/

/-- **The version that stands for a commit.** -/
def pin (sha : Text) : Text := commitPrefix ++ sha

/-- **A commit behind its hash** is settled as the version that stands for it. -/
theorem settleVersion_commit : settleVersion ('#' :: sha) = .ok (pin sha) := by
  have hword := isWord_of_isCommit hsha
  have hempty : Text.isOneOf emptyVersions sha = false := by
    rw [Bool.eq_false_iff, ne_eq, Text.isOneOf_iff]
    intro hm
    simp only [emptyVersions, List.mem_cons, List.not_mem_nil, or_false] at hm
    rcases hm with rfl | rfl <;> exact absurd hsha (by decide)
  have hmem : '#' ∈ '#' :: sha := List.mem_cons_self
  simp only [settleVersion, filter_hash hword, hempty, Text.strip_of_forall hword.isBlank_eq_false,
    hsha, Bool.false_eq_true, hmem, and_self, if_true, if_false]
  rfl

omit hsha in
theorem pin_ne_nil (sha : Text) : pin sha ≠ [] := List.cons_ne_nil _ _

theorem forall_mem_pin {P : Char → Prop} (h : ∀ c ∈ commitPrefix ++ hashDigits, P c) :
    ∀ c ∈ pin sha, P c := by
  intro c hc
  rcases List.mem_append.1 hc with hc | hc
  · exact h c (List.mem_append_left _ hc)
  · exact forall_of_isCommit hsha (fun d hd => h d (List.mem_append_right _ hd)) c hc

theorem not_mem_pin {c : Char} (hc : c ∉ commitPrefix ++ hashDigits) : c ∉ pin sha := fun hm =>
  forall_mem_pin hsha (P := (· ≠ c)) (fun _ hd e => hc (e ▸ hd)) c hm rfl

theorem lower_pin : Text.lower (pin sha) = pin sha :=
  Text.lower_eq_self (forall_mem_pin hsha (List.all_iff_forall_prop.1 rfl))

theorem spelled_pin : Source.spelled (pin sha) = pin sha := by
  have hletters : Source.dropVersionLetters sha = sha :=
    Grammar.dropVersionLetters_eq_self (not_mem_of_isCommit hsha (by decide))
      (not_mem_of_isCommit hsha (by decide))
  -- The only letter v of the prefix stands in front of a hyphen.
  have hfront : Source.dropVersionLetters (pin sha) = pin (Source.dropVersionLetters sha) := rfl
  rw [Source.spelled, lower_pin hsha, hfront, hletters]

theorem convertVersion_pin : Source.convertVersion (pin sha) = .ok (pin sha) := by
  have hlatest : pin sha ≠ Source.latest := fun e => absurd (List.cons.inj e).1 (by decide)
  have hpoint : '.' ∉ pin sha := not_mem_pin hsha (by decide)
  have hmarkers : Source.dropRegistryMarkers (pin sha) = pin sha :=
    Source.dropRegistryMarkers_of_not_mem (c := 'k') (not_mem_pin hsha (by decide)) (by decide)
  rw [Source.convertVersion_eq (pin_ne_nil sha) hlatest (not_mem_pin hsha (by decide)) rfl,
    Source.convertSuffix_of_versionHead?_eq_none hmarkers rfl,
    Source.collapseWildcards_of_not_mem hpoint, Source.convertDate_of_not_mem hpoint]

/-- **A commit as a range** stays as it is. -/
theorem convertRange_pin : Source.convertRange (pin sha) = .ok (pin sha) := by
  have hspelled := spelled_pin hsha
  have htoken : Source.IsToken (Text.lower (pin sha)) := by
    rw [lower_pin hsha]
    exact ⟨pin_ne_nil sha, forall_mem_pin hsha (List.all_iff_forall_prop.1 rfl),
      not_mem_pin hsha (by decide)⟩
  have hlone : Source.Pending.isLoneMajor (pin sha) 0 none = false := by
    have hnumeric : Numeral.isNumeric (pin sha) = false := rfl
    simp [Source.Pending.isLoneMajor, hnumeric]
  rw [htoken.convertRange_eq, hspelled, if_neg (by simp [hlone]), convertVersion_pin hsha]

/-! ## Aliases -/

/-- A commit that is shorter than a full name stays behind the alias it is split from. -/
theorem exists_checkAlias_commit (hash : '#' ∉ p) (hshort : p = [] ∨ sha.length < hashLength)
    (name : Text) :
    ∃ renamed, checkAlias ⟨name, p ++ '#' :: sha⟩ = .ok renamed ∧ renamed.version = '#' :: sha := by
  cases p with
  | nil => exact ⟨_, checkAlias_hash name sha, rfl⟩
  | cons c s =>
    have hlength : sha.length < hashLength := hshort.resolve_left (List.cons_ne_nil c s)
    have hend : endsWithHash (c :: s ++ '#' :: sha) = false := by
      rw [endsWithHash_append _ (isWord_of_isCommit hsha).ne_nil, endsWithHash_eq hsha,
        decide_eq_false (Nat.ne_of_lt hlength)]
    have hstar : '*' ∉ '#' :: sha := by
      rw [List.mem_cons, not_or]
      exact ⟨by decide, not_mem_of_isCommit hsha (by decide)⟩
    -- The tag that the commit may be is found or not, but it is looked for.
    obtain ⟨t, ht⟩ := Source.exists_convertVersion_of_not_mem
      (not_mem_of_isCommit hsha (c := '.') (by decide))
    obtain ⟨tag, htag⟩ := exists_validateTag ht
    have hdrop : validateTag (('#' :: sha).drop 1) = .ok tag := htag
    simp only [checkAlias, splitHash_hash hash, hend, hstar, hdrop, List.isEmpty_cons,
      Bool.or_self, Bool.false_eq_true, if_false, Except.ok_bind]
    split <;> exact ⟨_, rfl, rfl⟩

/-- A full name is not split off the alias in front of it. -/
theorem checkAlias_fullName (hfull : sha.length = hashLength) (name : Text) :
    checkAlias ⟨name, p ++ '#' :: sha⟩ = .ok ⟨name, p ++ '#' :: sha⟩ := by
  have hend : endsWithHash (p ++ '#' :: sha) = true := by
    rw [endsWithHash_append _ (isWord_of_isCommit hsha).ne_nil, endsWithHash_eq hsha,
      decide_eq_true hfull]
  simp only [checkAlias, hend, Bool.or_true, if_true]
  rfl

/-- **A commit is resolved** to the version that stands for it when nothing is in front of its
hash, when a URL is, or when it is shorter than a full name. -/
theorem exists_resolve_commit (hash : '#' ∉ p)
    (h : p = [] ∨ Kind.mentionsUrl p = true ∨ sha.length < hashLength) (name : Text) :
    ∃ d, (resolve context ⟨name, p ++ '#' :: sha⟩).outcome = .ok d ∧ d.version = pin sha := by
  apply exists_resolve_hash hash (isWord_of_isCommit hsha).ne_nil _ (settleVersion_commit hsha)
  have halias : ∀ q : Text, '#' ∉ q → q = [] ∨ sha.length < hashLength → ∀ name, ∃ renamed,
      checkAlias ⟨name, q ++ '#' :: sha⟩ = .ok renamed ∧ renamed.version = '#' :: sha :=
    fun q hq hshort name => exists_checkAlias_commit hsha hq hshort name
  have hprepared := (prepareVersion_hash context.kind hash sha).2
  rcases h with rfl | h | h
  · right
    rw [prepareVersion_eq_self context.kind List.not_mem_nil]
    exact halias [] List.not_mem_nil (.inl rfl)
  · exact .inl (mentionsUrl_prepareVersion context.kind h)
  · exact .inr (halias _ hprepared (.inr h))

end Commit

/-! ## Versions with a hash -/

/-- A branch is required without a hash. -/
theorem hash_not_mem_of_branchVersion {b v : Text} (hash : '#' ∉ b)
    (h : branchVersion b = .ok v) : '#' ∉ v := by
  obtain ⟨t, ht, h⟩ := Except.exists_of_bind_eq_ok h
  have hconverted : '#' ∉ t := by
    by_cases hempty : b = []
    · subst hempty
      obtain rfl := Except.ok.inj ht
      decide
    by_cases hlatest : b = Source.latest
    · subst hlatest
      obtain rfl := Except.ok.inj ht
      decide
    · intro hm
      exact Source.forall_convertVersion (p := (· ≠ '#')) (fun c hc e => by subst e; cases hc)
        (List.all_iff_forall_prop.1 rfl) hempty hlatest (fun c hc e => hash (e ▸ hc)) ht _ hm rfl
  have hfront : '#' ∉ Source.branchPrefix := by decide
  have hbars : '#' ∉ " || ".toList := by decide
  cases hbranch : validateBranch b with
  | some n =>
    rw [hbranch] at h
    obtain rfl := Except.ok.inj h
    simp [hfront, hconverted]
  | none =>
    rw [hbranch] at h
    obtain rfl := Except.ok.inj h
    simp only [List.mem_append, hfront, hconverted, hbars, hash, or_self, not_false_eq_true]

/-- **Only a commit is settled with a hash**: what is left of the specifier without its hashes is
its name. -/
theorem isCommit_of_settleVersion {s v : Text} (h : settleVersion s = .ok v) (hash : '#' ∈ v) :
    isCommit (Text.strip (s.filter (· != '#'))) = true := by
  have hfilter : '#' ∉ s.filter (· != '#') := by simp
  have hstrip : '#' ∉ Text.strip (s.filter (· != '#')) := fun hm =>
    hfilter ((Text.strip_isInfix _).subset hm)
  unfold settleVersion at h
  dsimp only at h
  by_cases hempty : Text.isOneOf emptyVersions (s.filter (· != '#')) = true
  · rw [if_pos hempty] at h
    have hany : isCommit Source.anyVersion = false := rfl
    rw [hany] at h
    simp only [Bool.false_eq_true, and_false, if_false, if_true] at h
    obtain rfl := Except.ok.inj h
    exact absurd hash (by decide)
  · rw [if_neg hempty] at h
    split at h
    · rename_i hcommit
      exact hcommit.2
    · split at h
      · obtain rfl := Except.ok.inj h
        exact absurd hash hstrip
      · obtain ⟨tag, -, h⟩ := Except.exists_of_bind_eq_ok h
        split at h
        · exact absurd hash (hash_not_mem_of_branchVersion hstrip h)
        · obtain rfl := Except.ok.inj h
          exact absurd hash hstrip

/-! ## What may stand in front of the hash -/

/-- A character of the names of packages that have no scope. -/
def isAliasChar (c : Char) : Bool := c.isAlphanum || c = '.' || c = '_' || c = '-'

theorem of_isAliasChar {c : Char} (h : isAliasChar c = true) :
    c ≠ '#' ∧ c ≠ '/' ∧ c ≠ '@' ∧ Text.isBlank c = false := by
  have hlt : c.toNat < 0x80 := by
    simp only [isAliasChar, Bool.or_eq_true, decide_eq_true_eq] at h
    rcases h with ((h | rfl) | rfl) | rfl
    · exact Text.toNat_lt_of_isAlphanum h
    all_goals decide
  exact Text.of_toNat_lt (P := fun c => isAliasChar c = true →
    c ≠ '#' ∧ c ≠ '/' ∧ c ≠ '@' ∧ Text.isBlank c = false) (by decide +kernel) hlt h

/-- **What stands in front of the hash of a commit**: nothing, a URL without a hash of its own, or
the name of a package. -/
inductive IsPinPrefix : Text → Prop
  | nothing : IsPinPrefix []
  | url {p : Text} : Kind.mentionsUrl p = true → '#' ∉ p → IsPinPrefix p
  | name {p : Text} : p ≠ [] → (∀ c ∈ p, isAliasChar c = true) → IsPinPrefix p

theorem IsPinPrefix.hash_not_mem (h : IsPinPrefix p) : '#' ∉ p := by
  cases h with
  | nothing => exact List.not_mem_nil
  | url _ hash => exact hash
  | name _ hp => exact fun hm => (of_isAliasChar (hp _ hm)).1 rfl

/-- A full name behind an alias is not resolved to its commit. -/
theorem version_ne_pin (hsha : isCommit sha = true) (hfull : sha.length = hashLength)
    (hne : p ≠ []) (hp : ∀ c ∈ p, isAliasChar c = true) {name : Text} {d : Resolved}
    (hd : (resolve context ⟨name, p ++ '#' :: sha⟩).outcome = .ok d) : d.version ≠ pin sha := by
  have hslash : '/' ∉ p ++ '#' :: sha := by
    rw [List.mem_append, List.mem_cons, not_or, not_or]
    exact ⟨fun hm => (of_isAliasChar (hp _ hm)).2.1 rfl, by decide,
      not_mem_of_isCommit hsha (by decide)⟩
  have hat : '@' ∉ p ++ '#' :: sha := by
    rw [List.mem_append, List.mem_cons, not_or, not_or]
    exact ⟨fun hm => (of_isAliasChar (hp _ hm)).2.2.1 rfl, by decide,
      not_mem_of_isCommit hsha (by decide)⟩
  rw [outcome_resolve_of_checkAlias context name hslash hat (checkAlias_fullName hsha hfull _)]
    at hd
  obtain ⟨v, hv, rfl⟩ := Except.exists_of_map_eq_ok hd
  rintro rfl
  have hmem : '#' ∈ pin sha := List.mem_append_left sha (by decide)
  have hcommit := isCommit_of_settleVersion hv hmem
  -- The alias and the commit together are too long for the name of a commit.
  have hbare : (p ++ '#' :: sha).filter (· != '#') = p ++ sha := by
    rw [List.filter_append, filter_hash (isWord_of_isCommit hsha)]
    congr 1
    exact List.filter_eq_self.2 fun c hc => by simpa using (of_isAliasChar (hp c hc)).1
  have hblank : ∀ c ∈ p ++ sha, Text.isBlank c = false := by
    intro c hc
    rcases List.mem_append.1 hc with hc | hc
    · exact (of_isAliasChar (hp c hc)).2.2.2
    · exact (isWord_of_isCommit hsha).isBlank_eq_false c hc
  rw [hbare, Text.strip_of_forall hblank, isCommit_iff, List.length_append] at hcommit
  have := List.length_pos_iff.2 hne
  omega

/-- **Commits behind a hash.** A commit is resolved to the version that stands for it, unless its
full name stands behind an alias. As a range this version stays as it is. -/
theorem resolve_pin_iff (hp : IsPinPrefix p) (hsha : isCommit sha = true) (name : Text) :
    ((∃ d, (resolve context ⟨name, p ++ '#' :: sha⟩).outcome = .ok d ∧ d.version = pin sha) ↔
      p = [] ∨ Kind.mentionsUrl p = true ∨ sha.length < hashLength) ∧
    Source.convertRange (pin sha) = .ok (pin sha) := by
  refine ⟨⟨?_, fun h => exists_resolve_commit hsha hp.hash_not_mem h name⟩,
    convertRange_pin hsha⟩
  rintro ⟨d, hd, hversion⟩
  cases hp with
  | nothing => exact .inl rfl
  | url hurl _ => exact .inr (.inl hurl)
  | name hne hall =>
    rcases Nat.lt_or_eq_of_le (isCommit_iff.1 hsha).2.1 with hshort | hfull
    · exact .inr (.inr hshort)
    · exact absurd hversion (version_ne_pin hsha hfull hne hall hd)

/-- A short commit behind an alias, and a full one behind a URL with a user. -/
theorem resolve_pin_iff_mixedPrefixes :
    IsPinPrefix "library".toList ∧ isCommit "0a1b2c3".toList = true ∧
      (((∃ d, (resolve ⟨.npm, none, {}⟩
          ⟨"alias".toList, "library".toList ++ '#' :: "0a1b2c3".toList⟩).outcome = .ok d ∧
          d.version = pin "0a1b2c3".toList) ↔ "library".toList = [] ∨
            Kind.mentionsUrl "library".toList = true ∨ "0a1b2c3".toList.length < hashLength) ∧
        Source.convertRange (pin "0a1b2c3".toList) = .ok (pin "0a1b2c3".toList)) ∧
      IsPinPrefix "git@github.com:o/lib.git".toList ∧
      isCommit "0a1b2c3d4e5f6a7b8c9d0e1f2a3b4c5d6e7f8a9b".toList = true ∧
      ∃ d, (resolve ⟨.bower, none, {}⟩ ⟨"lib".toList, "git@github.com:o/lib.git".toList ++
          '#' :: "0a1b2c3d4e5f6a7b8c9d0e1f2a3b4c5d6e7f8a9b".toList⟩).outcome = .ok d ∧
        d.version = pin "0a1b2c3d4e5f6a7b8c9d0e1f2a3b4c5d6e7f8a9b".toList := by
  have halias : IsPinPrefix "library".toList := .name (by decide) (List.all_iff_forall_prop.1 rfl)
  have hurl : IsPinPrefix "git@github.com:o/lib.git".toList := .url rfl (by decide)
  exact ⟨halias, rfl, resolve_pin_iff halias rfl _, hurl, rfl,
    (resolve_pin_iff hurl rfl _).1.2 (.inr (.inl rfl))⟩

/-- A commit behind a hash that is resolved to something else. -/
def IsUnpinned (context : Context) (name p sha : Text) : Prop :=
  IsPinPrefix p ∧ isCommit sha = true ∧
    ∃ d, (resolve context ⟨name, p ++ '#' :: sha⟩).outcome = .ok d ∧ d.version ≠ pin sha

/-- **A full name behind an alias** is resolved to a branch that is named after both, whatever the
kind of the manifest. -/
theorem resolve_not_pin :
    IsUnpinned ⟨.npm, none, {}⟩ "alias".toList "library".toList
        "0a1b2c3d4e5f6a7b8c9d0e1f2a3b4c5d6e7f8a9b".toList ∧
      IsUnpinned ⟨.bower, none, {}⟩ "alias".toList "library".toList
        "0a1b2c3d4e5f6a7b8c9d0e1f2a3b4c5d6e7f8a9b".toList := by
  have hunpinned : ∀ {kind : Kind}, (resolve ⟨kind, none, {}⟩ ⟨"alias".toList, "library".toList ++
      '#' :: "0a1b2c3d4e5f6a7b8c9d0e1f2a3b4c5d6e7f8a9b".toList⟩).outcome = .ok ⟨⟨"alias".toList,
        "dev-library0a1b2c3d4e5f6a7b8c9d0e1f2a3b4c5d6e7f8a9b".toList⟩, none⟩ →
      IsUnpinned ⟨kind, none, {}⟩ "alias".toList "library".toList
        "0a1b2c3d4e5f6a7b8c9d0e1f2a3b4c5d6e7f8a9b".toList := fun h =>
    ⟨.name (by decide) (List.all_iff_forall_prop.1 rfl), rfl, _, h, by decide⟩
  exact ⟨hunpinned rfl, hunpinned rfl⟩

end Asset

end AssetBridge
