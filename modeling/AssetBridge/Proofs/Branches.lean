import AssetBridge.Proofs.BranchNames
import AssetBridge.Proofs.Downloads

/-!
# Branches behind URLs

A branch that is named behind a URL is neither a tag nor a commit, so it is required as a branch.
Whether version control serves the URL, or it is downloaded, or it is no URL and taken for the name
of another package: the name behind the hash is what is left of the specifier. It is asked for in
small letters and without the letter v in front of numbers.

## Main definitions

* `IsRenamed`: branches that are asked for under another name

## Main results

* `settleVersion_branch`: the name of a branch behind its hash
* `exists_resolve_hash`: what stands behind a hash is what is settled
* `exists_resolve_branch`: a dependency with a branch, resolved
* `convertDependencies_branch`: the requirement for a dependency with a branch
-/

namespace AssetBridge.Asset

open Source (spelled)
open Target (Constraint Version)

variable {context : Context} {url b : Text}

/-! ## Shorthands and hashes -/

theorem isShorthand_append_hash (h : '#' ∉ url) (r : Text) :
    Kind.isShorthand (url ++ '#' :: r) = Kind.isShorthand url := by
  cases hs : Kind.isShorthand url with
  | false => exact isShorthand_hash h hs r
  | true =>
    obtain ⟨owner, c, rest, rfl, hne, howner, hc⟩ := isShorthand_iff.1 hs
    exact isShorthand_iff.2 ⟨owner, c, rest ++ '#' :: r, by simp, hne, howner, hc⟩

/-- **What a kind does to a specifier** it does in front of the hash. -/
theorem prepareVersion_hash (kind : Kind) (h : '#' ∉ url) (r : Text) :
    kind.prepareVersion (url ++ '#' :: r) = kind.prepareVersion url ++ '#' :: r ∧
      '#' ∉ kind.prepareVersion url := by
  cases kind with
  | npm => exact ⟨rfl, h⟩
  | bower =>
    simp only [Kind.prepareVersion, Kind.expandShorthand, isShorthand_append_hash h,
      splitHash_hash h, splitHash_of_not_mem h]
    split
    · refine ⟨by simp, ?_⟩
      simp [h]
    · exact ⟨rfl, h⟩

/-- The name of a commit does not reach over a hash. -/
theorem opensWithHash_append (s r : Text) : opensWithHash (s ++ '#' :: r) = opensWithHash s := by
  have hscan : (s ++ '#' :: r).takeWhile isHashChar = s.takeWhile isHashChar := by
    induction s with
    | nil => rfl
    | cons c s ih =>
      rw [List.cons_append, List.takeWhile_cons, List.takeWhile_cons, ih]
  rw [opensWithHash, hscan, opensWithHash]

theorem endsWithHash_append (url : Text) {s : Text} (hne : s ≠ []) :
    endsWithHash (url ++ '#' :: s) = endsWithHash s := by
  obtain ⟨c, r, hr⟩ := List.exists_cons_of_ne_nil (List.reverse_ne_nil_iff.2 hne)
  have hreverse : (url ++ '#' :: s).reverse = s.reverse ++ '#' :: url.reverse := by simp
  rw [endsWithHash, endsWithHash, hreverse, opensWithHash_append, hr, List.cons_append]
  congr 1
  by_cases hc : '\n' = c
  · subst hc
    exact opensWithHash_append r url.reverse
  · simp [Text.dropPrefix?, hc]

/-! ## Resolving -/

/-- No tag is a name that is kept. -/
theorem IsKeptName.validateTag_eq_none (hk : IsKeptName b) (hb : IsBranchName b) :
    validateTag b = .ok none := by
  obtain ⟨t, ht, -⟩ := hk.exists_convertVersion hb
  have hvalidate : ∃ o, validateTag b = .ok o := by
    unfold validateTag
    split
    · exact ⟨none, rfl⟩
    · rw [ht]
      exact ⟨_, rfl⟩
  obtain ⟨o, ho⟩ := hvalidate
  cases o with
  | none => exact ho
  | some n => exact absurd ho (hb.not_tag n)

/-- **The name of a branch** behind its hash is settled as the branch of the converted name. -/
theorem settleVersion_branch (hb : IsBranchName b) (hk : IsKeptName b) {t : Text}
    (ht : Source.convertVersion b = .ok t) :
    settleVersion ('#' :: b) = .ok (branchOf t) := by
  have hempty : Text.isOneOf emptyVersions b = false := by
    rw [Bool.eq_false_iff, ne_eq, Text.isOneOf_iff]
    intro hm
    obtain ⟨c, r, rfl, hc⟩ := hb.opens
    simp only [emptyVersions, List.mem_cons, List.not_mem_nil, or_false] at hm
    rcases hm with hm | hm
    · cases hm
    · obtain ⟨rfl, -⟩ := List.cons.inj hm
      exact absurd hc (by decide)
  have hany : b ≠ Source.anyVersion := by
    rintro rfl
    exact hb.not_mem (c := '*') (by decide) (by decide)
  have hstrip := Text.strip_of_forall hb.isWord.isBlank_eq_false
  have hrange : dependsOnRange b = false := by
    rw [dependsOnRange, hstrip, List.any_eq_false]
    intro c hc
    simpa using rangeChars_not_mem hb.isWord c hc
  have hbranch : branchVersion b = .ok (branchOf t) := by
    obtain ⟨n, hn⟩ := hk.isUsable
    simp only [branchVersion, ht, hn, Except.ok_bind]
    rfl
  simp only [settleVersion, filter_hash hb.isWord, hempty, hstrip, filter_rangeChars hb.isWord,
    hb.isCommit_eq_false, hk.validateTag_eq_none hb, hany, Bool.false_eq_true, and_false, if_false]
  simp only [hrange, hbranch, Except.ok_bind]
  rfl

/-- A URL with a version behind a hash is located, and the version stays. -/
theorem exists_checkUrl_hash (context : Context) (hash : '#' ∉ url) {r : Text} (hr : r ≠ [])
    (hurl : Kind.mentionsUrl (url ++ '#' :: r) = true) (name : Text) :
    ∃ located, (checkUrl context ⟨name, url ++ '#' :: r⟩).outcome = .ok located ∧
      located.version = '#' :: r := by
  have hversion : fileVersion url ('#' :: r) = .ok r := by
    have hne : ('#' :: r != noVersion) = true := by simpa [noVersion] using hr
    rw [fileVersion, hne]
    rfl
  rw [checkUrl, if_pos hurl, splitUrl_hash hash]
  dsimp only
  split
  · exact ⟨_, rfl, rfl⟩
  · simp only [hversion]
    exact ⟨_, rfl, rfl⟩

/-- What is no URL is the name of another package, and the branch stays. -/
theorem exists_checkAlias_branch (hb : IsBranchName b) (hk : IsKeptName b) (hash : '#' ∉ url)
    (hend : endsWithHash b = false) (name : Text) :
    ∃ renamed, checkAlias ⟨name, url ++ '#' :: b⟩ = .ok renamed ∧ renamed.version = '#' :: b := by
  cases url with
  | nil => exact ⟨_, rfl, rfl⟩
  | cons c s =>
    have hstar : '*' ∉ '#' :: b := by
      rw [List.mem_cons, not_or]
      exact ⟨by decide, hb.not_mem (by decide)⟩
    have htag : validateTag (('#' :: b).drop 1) = .ok none := hk.validateTag_eq_none hb
    simp only [checkAlias, splitHash_hash hash, endsWithHash_append _ hb.isWord.ne_nil, hend, hstar,
      htag, List.isEmpty_cons, Bool.or_self, Bool.false_eq_true, if_false]
    exact ⟨_, rfl, rfl⟩

/-- **What stands behind the hash is what is settled**, whether a URL stands in front of it or an
alias that it is split from. -/
theorem exists_resolve_hash (hash : '#' ∉ url) {r v : Text} (hr : r ≠ [])
    (hfront : Kind.mentionsUrl (context.kind.prepareVersion url) = true ∨
      ∀ name, ∃ renamed, checkAlias ⟨name, context.kind.prepareVersion url ++ '#' :: r⟩ =
        .ok renamed ∧ renamed.version = '#' :: r)
    (hv : settleVersion ('#' :: r) = .ok v) (name : Text) :
    ∃ d, (resolve context ⟨name, url ++ '#' :: r⟩).outcome = .ok d ∧ d.version = v := by
  obtain ⟨hprepared, hhash⟩ := prepareVersion_hash context.kind hash r
  obtain ⟨located, renamed, hlocated, hrenamed, hversion⟩ : ∃ located renamed,
      (checkUrl context ⟨context.kind.localName name,
        context.kind.prepareVersion url ++ '#' :: r⟩).outcome = .ok located ∧
      checkAlias located.toDependency = .ok renamed ∧ renamed.version = '#' :: r := by
    by_cases hmentions : Kind.mentionsUrl (context.kind.prepareVersion url ++ '#' :: r) = true
    · obtain ⟨⟨⟨located, version⟩, repository⟩, hlocated, hversion⟩ :=
        exists_checkUrl_hash context hhash hr hmentions (context.kind.localName name)
      obtain rfl : version = '#' :: r := hversion
      exact ⟨_, _, hlocated, checkAlias_hash located r, rfl⟩
    · obtain ⟨renamed, hrenamed, hversion⟩ :=
        (hfront.resolve_left fun h => hmentions (mentionsUrl_append h _))
          (context.kind.localName name)
      exact ⟨_, renamed, by rw [checkUrl, if_neg hmentions]; rfl, hrenamed, hversion⟩
  refine ⟨{ name := renamed.name, version := v, repository := located.repository }, ?_, rfl⟩
  simp only [outcome_resolve_eq_bind, prepare, hprepared, hlocated, hrenamed, hversion, hv,
    Except.ok_bind]

/-- **A dependency with a branch** is resolved, and its branch is what is left. -/
theorem exists_resolve_branch (hb : IsBranchName b) (hk : IsKeptName b) (hash : '#' ∉ url)
    (hurl : Kind.mentionsUrl (context.kind.prepareVersion url) = true ∨ endsWithHash b = false)
    (name : Text) : ∃ d, (resolve context ⟨name, url ++ '#' :: b⟩).outcome = .ok d ∧
      Source.convertRange d.version = .ok (branchOf (spelled b)) := by
  obtain ⟨t, ht, hmap⟩ := hk.exists_convertVersion hb
  obtain ⟨-, hhash⟩ := prepareVersion_hash context.kind hash b
  obtain ⟨d, hd, hversion⟩ := exists_resolve_hash hash hb.isWord.ne_nil
    (hurl.imp_right fun hend name => exists_checkAlias_branch hb hk hhash hend name)
    (settleVersion_branch hb hk ht) name
  refine ⟨d, hd, ?_⟩
  rw [hversion]
  exact hk.convertRange_branchOf hb ht hmap

/-! ## Requirements -/

/-- What a single dependency adds up to: its requirement, unless that restates its name, and its
repository. -/
def requirementsOf (kind : Kind) (d : Resolved) (constraint : Text) : Requirements where
  require :=
    if Text.startsWith d.name constraint then [] else [(kind.vendorPrefix ++ d.name, constraint)]
  repositories := d.repository.toList

/-- **A single dependency** that is resolved and converted. -/
theorem outcome_convertDependencies_singleton {name specifier constraint : Text} {d : Resolved}
    (hd : (resolve context ⟨name, specifier⟩).outcome = .ok d)
    (hconstraint : Source.convertRange d.version = .ok constraint) :
    (convertDependencies context [(name, .str specifier)]).outcome =
      .ok (requirementsOf context.kind d constraint) := by
  have hlist : [(name, Json.str specifier)].mapM (fun e => (convertEntry context e).outcome) =
      .ok [contribution context.kind d constraint] := by
    rw [List.mapM_cons, outcome_convertEntry, hd, Except.ok_bind, hconstraint]
    rfl
  rw [convertDependencies, Trail.outcome_map, Trail.outcome_mapM, hlist]
  refine congrArg Except.ok ?_
  show Requirements.add {} (contribution context.kind d constraint) = _
  unfold Requirements.add requirementsOf contribution
  dsimp only
  split <;> rfl

/-- **Branches survive** up to the case of their letters and the letter v in front of digits. When
a dependency names a branch behind its first hash, and the conversions keep the name, the dependency
is resolved, and unless its constraint restates its name it is required with the branch as its
constraint. That is read, and lets through what is read as this branch and nothing else. Names
without capitals and without a letter v in front of a digit are kept as they are. -/
theorem convertDependencies_branch (hb : IsBranchName b) (hk : IsKeptName b) (hash : '#' ∉ url)
    (hurl : Kind.mentionsUrl (context.kind.prepareVersion url) = true ∨ endsWithHash b = false)
    (name : Text) :
    ∃ d c, (resolve context ⟨name, url ++ '#' :: b⟩).outcome = .ok d ∧
      (convertDependencies context [(name, .str (url ++ '#' :: b))]).outcome =
        .ok (requirementsOf context.kind d (branchOf (spelled b))) ∧
      Constraint.parse (branchOf (spelled b)) = .ok c ∧
      Version.parse (branchOf (spelled b)) = .ok (.ofBranch (spelled b)) ∧
      (∀ s, c.matchesText s = .ok true ↔ Version.parse s = .ok (.ofBranch (spelled b))) ∧
      (spelled b = b ↔
        (∀ c ∈ b, c.isUpper = false) ∧ ∀ d, d.isDigit = true → ¬ ['v', d] <:+: b) := by
  obtain ⟨d, hd, hconstraint⟩ := exists_resolve_branch hb hk hash hurl name
  obtain ⟨c, hc, hversion, hmatches⟩ := hb.exists_parse_branchOf
  exact ⟨d, c, hd, outcome_convertDependencies_singleton hd hconstraint, hc, hversion, hmatches,
    hb.spelled_eq_self_iff⟩

/-- A single name is checked by what it opens with, its characters and its readings. -/
theorem isBranchName_cons {c : Char} {r : Text} (hopens : Text.isLetter c = true)
    (hchars : (c :: r).all isBranchChar = true) (htag : validateTag (c :: r) = .ok none)
    (hcommit : isCommit (c :: r) = false) : IsBranchName (c :: r) where
  opens := ⟨c, r, rfl, hopens⟩
  chars := List.all_eq_true.1 hchars
  not_tag n hn := by
    rw [htag] at hn
    cases hn
  isCommit_eq_false := hcommit

/-- A branch with a capital, and with a letter v in front of a number. -/
theorem convertDependencies_branch_feature :
    IsBranchName "Feature/v2_fix-1".toList ∧ IsKeptName "Feature/v2_fix-1".toList ∧
      '#' ∉ "https://github.com/o/lib.git".toList ∧
      (Kind.mentionsUrl (Kind.npm.prepareVersion "https://github.com/o/lib.git".toList) = true ∨
        endsWithHash "Feature/v2_fix-1".toList = false) ∧
      ∃ d c, (resolve ⟨.npm, none, {}⟩ ⟨"lib".toList,
          "https://github.com/o/lib.git".toList ++ '#' :: "Feature/v2_fix-1".toList⟩).outcome =
          .ok d ∧
        (convertDependencies ⟨.npm, none, {}⟩ [("lib".toList, .str
            ("https://github.com/o/lib.git".toList ++ '#' :: "Feature/v2_fix-1".toList))]).outcome =
          .ok (requirementsOf .npm d "dev-feature/2_fix-1".toList) ∧
        Constraint.parse "dev-feature/2_fix-1".toList = .ok c ∧
        Version.parse "dev-feature/2_fix-1".toList = .ok (.ofBranch "feature/2_fix-1".toList) ∧
        (∀ s, c.matchesText s = .ok true ↔
          Version.parse s = .ok (.ofBranch "feature/2_fix-1".toList)) ∧
        ("feature/2_fix-1".toList = "Feature/v2_fix-1".toList ↔
          (∀ c ∈ "Feature/v2_fix-1".toList, c.isUpper = false) ∧
            ∀ d, d.isDigit = true → ¬ ['v', d] <:+: "Feature/v2_fix-1".toList) := by
  have hb : IsBranchName "Feature/v2_fix-1".toList := isBranchName_cons rfl rfl rfl rfl
  have hk : IsKeptName "Feature/v2_fix-1".toList := by
    refine ⟨by decide, ⟨_, rfl⟩, by decide, fun c r head suffix hname hsmall => ?_⟩
    -- It opens with a capital, so no version stands behind a small letter.
    obtain ⟨rfl, -⟩ := List.cons.inj hname
    cases hsmall
  exact ⟨hb, hk, by decide, .inl rfl,
    convertDependencies_branch hb hk (by decide) (.inl rfl) "lib".toList⟩

/-- A branch behind the URL of a known host, where something else than this branch is required. -/
def IsRenamed (context : Context) (name url b : Text) : Prop :=
  IsBranchName b ∧ context.domains.isKnown url = true ∧
    ∃ r, (convertDependencies context [(name, .str (url ++ '#' :: b))]).outcome = .ok r ∧
      r.require ≠ [] ∧ ∀ p ∈ r.require, p.2 ≠ branchOf b

/-- **Branches that are asked for under another name**: with a capital, with a letter v in front of
a number, the word for the newest version, with the marker of a registry, spelled like a version
behind a single letter, and a number that is too long for a branch; then a branch behind a URL with
a hash of its own, and one that ends like the name of a commit where no URL is read. -/
theorem convertDependencies_not_branch :
    IsRenamed ⟨.npm, none, {}⟩ "lib".toList "https://github.com/o/lib.git".toList
        "Feature".toList ∧
      IsRenamed ⟨.npm, none, {}⟩ "lib".toList "https://github.com/o/lib.git".toList
        "release-v2".toList ∧
      IsRenamed ⟨.npm, none, {}⟩ "lib".toList "https://github.com/o/lib.git".toList
        "latest".toList ∧
      IsRenamed ⟨.npm, none, {}⟩ "lib".toList "https://github.com/o/lib.git".toList
        "fix-npm-packages".toList ∧
      IsRenamed ⟨.npm, none, {}⟩ "lib".toList "https://github.com/o/lib.git".toList
        "experimental".toList ∧
      IsRenamed ⟨.npm, none, {}⟩ "lib".toList "https://github.com/o/lib.git".toList
        "v12345678901234567890123".toList ∧
      IsRenamed ⟨.npm, none, {}⟩ "lib".toList "https://github.com/o/lib.git#x".toList
        "main".toList ∧
      IsRenamed ⟨.npm, none, {}⟩ "lib".toList "svn.example/lib".toList
        "fix-0123456789012345678901234567890123456789".toList := by
  have hrenamed : ∀ {url r s : Text} {c : Char} {repositories : List SideRepository},
      IsBranchName (c :: r) → ({} : Domains).isKnown url = true →
      (convertDependencies ⟨.npm, none, {}⟩
        [("lib".toList, .str (url ++ '#' :: c :: r))]).outcome =
          .ok ⟨[("npm-asset/lib".toList, s)], repositories⟩ →
      s ≠ branchOf (c :: r) → IsRenamed ⟨.npm, none, {}⟩ "lib".toList url (c :: r) := by
    intro url r s c repositories hb hknown houtcome hne
    refine ⟨hb, hknown, _, houtcome, List.cons_ne_nil _ _, fun p hp => ?_⟩
    obtain rfl := List.mem_singleton.1 hp
    exact hne
  refine ⟨?_, ?_, ?_, ?_, ?_, ?_, ?_, ?_⟩
  · exact hrenamed (s := "dev-feature".toList)
      (isBranchName_cons rfl rfl rfl rfl) rfl rfl (by decide)
  · exact hrenamed (s := "dev-release-2".toList)
      (isBranchName_cons rfl rfl rfl rfl) rfl rfl (by decide)
  · exact hrenamed (s := "dev-default|*".toList)
      (isBranchName_cons rfl rfl rfl rfl) rfl rfl (by decide)
  · exact hrenamed (s := "dev-fix".toList)
      (isBranchName_cons rfl rfl rfl rfl) rfl rfl (by decide)
  · exact hrenamed (s := "dev-ex-patch1".toList)
      (isBranchName_cons rfl rfl rfl rfl) rfl rfl (by decide)
  · exact hrenamed
      (s := "dev-12345678901234567890123|12345678901234567890123".toList)
      (isBranchName_cons rfl rfl rfl rfl) rfl rfl (by decide)
  · exact hrenamed (s := "dev-xmain".toList)
      (isBranchName_cons rfl rfl rfl rfl) rfl rfl (by decide)
  · exact hrenamed
      (s := "dev-svn.example/libfix-0123456789012345678901234567890123456789".toList)
      (isBranchName_cons rfl rfl rfl rfl) rfl rfl (by decide)

end AssetBridge.Asset
