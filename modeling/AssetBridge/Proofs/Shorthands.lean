import AssetBridge.Proofs.DateStamps
import AssetBridge.Proofs.Downloads
import AssetBridge.Proofs.Resolution
import AssetBridge.Proofs.StoredSettings
import AssetBridge.Proofs.Weights

/-!
# Shorthands of bower

A specifier of bower that opens with an owner and a repository is a repository at GitHub, whatever
stands behind them. Its URL has the scheme of git, so that it is no archive and its host is known
without any domain, and the version behind it has a hash, so that it is no alias. What is left is
settled as any other version, and that fails only where its numbers cannot be read once the blanks
and the signs around them are gone.

## Main definitions

* `shorthandUrl`: the URL that is written for a shorthand
* `checkedText`: the text in which the check for a tag looks for numbers

## Main results

* `exists_settleVersion_iff`: which versions are settled
* `outcome_resolve_shorthand`: a shorthand, resolved
* `resolve_shorthand`: a shorthand becomes a repository at GitHub
* `convertVersion_date_eq_error`: dates that cannot be converted
-/

namespace AssetBridge

namespace Asset

/-! ## Versions that are settled -/

/-- **What the check for a tag sees** of a version: neither hashes, nor signs of ranges, nor
blanks. -/
def checkedText (specifier : Text) : Text :=
  (Text.strip (specifier.filter (· != '#'))).filter (· ∉ rangeChars)

theorem weight_checkedText_le (f : Char → Nat) (s : Text) :
    Text.weight f (checkedText s) ≤ Text.weight f s :=
  Text.weight_le_of_sublist f (List.filter_sublist.trans
    ((Text.strip_isInfix _).sublist.trans List.filter_sublist))

/-- A branch name is only written for a text without the signs of ranges. -/
theorem filter_rangeChars_eq_self {s : Text} (htrimmed : Text.strip s = s)
    (h : dependsOnRange s = false) : s.filter (· ∉ rangeChars) = s := by
  rw [dependsOnRange, htrimmed, List.any_eq_false] at h
  exact List.filter_eq_self.2 fun c hc => by simpa using h c hc

/-- **A version is settled** exactly when the numbers that the check for a tag sees can be read. -/
theorem exists_settleVersion_iff {s : Text} : (∃ v, settleVersion s = .ok v) ↔
    ∃ t, Source.convertVersion (checkedText s) = .ok t := by
  have hfew : ∀ t : Text, t.length ≤ hashLength →
      ∃ w, Source.convertVersion (t.filter (· ∉ rangeChars)) = .ok w := by
    intro t ht
    refine Source.exists_convertVersion_of_weight_le (Nat.lt_of_le_of_lt ?_
      (by decide : hashLength < Numeral.maxDigits))
    exact Nat.le_trans (Text.weight_le_of_sublist _ List.filter_sublist)
      (Nat.le_trans (Text.weight_digitWeight_le_length t) ht)
  unfold settleVersion checkedText
  by_cases hempty : Text.isOneOf emptyVersions (s.filter (· != '#')) = true
  · -- No condition is set, so that any version is settled.
    refine iff_of_true ?_ (hfew _ ?_)
    · simp only [hempty, if_true]
      split <;> exact ⟨_, rfl⟩
    · rw [Text.isOneOf_iff] at hempty
      simp only [emptyVersions, List.mem_cons, List.not_mem_nil, or_false] at hempty
      rcases hempty with he | he <;> rw [he] <;> decide
  · have htrimmed : Text.strip (Text.strip (s.filter (· != '#'))) =
        Text.strip (s.filter (· != '#')) := (Text.IsTrimmed.of_strip _).strip_eq_self
    simp only [hempty, Bool.false_eq_true, if_false]
    generalize Text.strip (s.filter (· != '#')) = version at htrimmed
    by_cases hcommit : '#' ∈ s ∧ isCommit version = true
    · refine iff_of_true ?_ (hfew version ?_)
      · exact ⟨_, if_pos hcommit⟩
      · have h := hcommit.2
        simp only [isCommit, Bool.and_eq_true, decide_eq_true_eq] at h
        exact h.1.2
    · rw [if_neg hcommit]
      by_cases hany : version = Source.anyVersion
      · subst hany
        exact iff_of_true ⟨_, rfl⟩ ⟨_, rfl⟩
      · rw [if_neg hany, ← exists_validateTag_iff]
        constructor
        · rintro ⟨v, h⟩
          obtain ⟨tag, htag, -⟩ := Except.exists_of_bind_eq_ok h
          exact ⟨tag, htag⟩
        · rintro ⟨tag, htag⟩
          rw [htag]
          simp only [Except.ok_bind]
          split
          · -- The name of the branch is the text that has been checked.
            rename_i hbranch
            rw [Bool.and_eq_true, Bool.not_eq_true'] at hbranch
            rw [filter_rangeChars_eq_self htrimmed hbranch.2] at htag
            obtain ⟨t, ht⟩ := exists_validateTag_iff.1 ⟨tag, htag⟩
            exact ⟨_, by rw [branchVersion, ht]; rfl⟩
          · exact ⟨_, rfl⟩

/-! ## Shorthands -/

/-- What stands in front of a shorthand in its URL. -/
def shorthandScheme : Text := "git://github.com/".toList

/-- **The URL of a shorthand** is written around what stands in front of its first hash. -/
def shorthandUrl (s : Text) : Text := shorthandScheme ++ (Kind.splitHash s).1 ++ ".git".toList

theorem isShorthand_append {owner repo : Text} (rest : Text) (hne : owner ≠ [] ∧ repo ≠ [])
    (howner : ∀ c ∈ owner, Kind.isOwnerChar c = true)
    (hrepo : ∀ c ∈ repo, Kind.isOwnerChar c = true ∨ c = '.') :
    Kind.isShorthand (owner ++ '/' :: repo ++ rest) = true := by
  obtain ⟨c, r, rfl⟩ := List.exists_cons_of_ne_nil hne.2
  exact isShorthand_iff.2 ⟨owner, c, r ++ rest, by simp, hne.1, howner, hrepo c List.mem_cons_self⟩

theorem hash_not_mem_shorthandUrl (s : Text) : '#' ∉ shorthandUrl s := by
  have hfront : '#' ∉ (Kind.splitHash s).1 := by
    intro hm
    have := List.all_eq_true.1 (List.all_takeWhile (p := (· != '#')) (l := s)) '#' hm
    simp at this
  simp only [shorthandUrl, List.mem_append, not_or]
  exact ⟨⟨by decide, hfront⟩, by decide⟩

/-- The version behind a URL is the one behind the shorthand that it is written for. -/
theorem splitUrl_append_splitHash {url : Text} (h : '#' ∉ url) (s : Text) :
    splitUrl (url ++ (Kind.splitHash s).2) = (url, (splitUrl s).2) := by
  have hhead : ∀ c ∈ (Kind.splitHash s).2.head?, (c != '#') = false :=
    Text.head?_dropWhile_eq_false (· != '#') s
  simp only [splitUrl]
  cases hrest : (Kind.splitHash s).2 with
  | nil => rw [List.append_nil, splitHash_of_not_mem h]
  | cons c r =>
    have hc := hhead c (by rw [hrest]; rfl)
    rw [bne_eq_false_iff_eq] at hc
    rw [hc, splitHash_hash h]

/-- Whatever its domain is, a URL with the scheme of git is served by version control. -/
theorem isKnown_git (domains : Domains) (r : Text) :
    domains.isKnown ("git://".toList ++ r) = true := by
  rw [Domains.isKnown, Domains.find?, List.find?_isSome]
  refine ⟨.git, by decide, ?_⟩
  have hscheme : "git://".toList.map Text.foldLetter = "git://".toList := by decide
  have hstarts : Text.startsWith "git://".toList (("git://".toList ++ r).map Text.foldLetter) =
      true := by
    rw [List.map_append, hscheme]
    exact Text.startsWith_iff.2 ⟨_, rfl⟩
  simp only [Domains.supports, Host.isGit, hstarts, Bool.true_or]

section Resolving

variable (package : Option Text) (domains : Domains) (name : Text) {s : Text}

/-- A shorthand is served by version control, under its own name. -/
theorem outcome_checkUrl_shorthand : (checkUrl ⟨.bower, package, domains⟩
      ⟨name, shorthandUrl s ++ (Kind.splitHash s).2⟩).outcome =
    .ok ⟨⟨name, (splitUrl s).2⟩,
      some (.vcs .bower (shorthandUrl s) (Kind.bower.qualify name))⟩ := by
  have hscheme : shorthandUrl s = "git://".toList ++
      ("github.com/".toList ++ (Kind.splitHash s).1 ++ ".git".toList) := by
    rw [shorthandUrl, ← List.append_assoc, ← List.append_assoc]
    rfl
  have hmentions :
      Kind.mentionsUrl (shorthandUrl s ++ (Kind.splitHash s).2) = true := by
    rw [hscheme, List.append_assoc]
    exact mentionsUrl_append (by decide) _
  have harchive : isArchive (shorthandUrl s) = false := by
    rw [hscheme]
    rfl
  have hknown : domains.isKnown (shorthandUrl s) = true := hscheme ▸ isKnown_git domains _
  simp only [checkUrl, hmentions, splitUrl_append_splitHash (hash_not_mem_shorthandUrl s), harchive,
    hknown]
  rfl

/-- **A shorthand, resolved**: its name stays, its repository is at GitHub, and the version behind
it is settled. -/
theorem outcome_resolve_shorthand (h : Kind.isShorthand s = true) :
    (resolve ⟨.bower, package, domains⟩ ⟨name, s⟩).outcome =
      (fun version => ⟨⟨name, version⟩,
        some (.vcs .bower (shorthandUrl s) (Kind.bower.qualify name))⟩) <$>
          settleVersion (splitUrl s).2 := by
  have hprepare : prepare .bower ⟨name, s⟩ =
      ⟨name, shorthandUrl s ++ (Kind.splitHash s).2⟩ := by
    have hversion : Kind.bower.prepareVersion s =
        shorthandUrl s ++ (Kind.splitHash s).2 := if_pos h
    rw [prepare, hversion]
    rfl
  obtain ⟨r, hr⟩ := exists_splitUrl_eq_cons s
  rw [outcome_resolve_eq_bind, hprepare, outcome_checkUrl_shorthand, Except.ok_bind]
  simp only [hr, checkAlias_hash, Except.ok_bind]
  cases settleVersion ('#' :: r) <;> rfl

theorem exists_resolve_shorthand_iff (h : Kind.isShorthand s = true) :
    (∃ r, (resolve ⟨.bower, package, domains⟩ ⟨name, s⟩).outcome = .ok r) ↔
      ∃ t, Source.convertVersion (checkedText (splitUrl s).2) = .ok t := by
  rw [← exists_settleVersion_iff, outcome_resolve_shorthand package domains name h]
  cases settleVersion (splitUrl s).2 with
  | error e => exact iff_of_false (fun ⟨_, hr⟩ => nomatch hr) fun ⟨_, hv⟩ => nomatch hv
  | ok v => exact iff_of_true ⟨_, rfl⟩ ⟨v, rfl⟩

end Resolving

/-- What stands behind a URL has no more digits than the specifier. -/
theorem weight_splitUrl_le (s : Text) : Text.weight Text.digitWeight (splitUrl s).2 ≤
    Text.weight Text.digitWeight s := by
  simp only [splitUrl]
  split
  · exact Nat.zero_le _
  · exact Text.weight_le_of_sublist _ (List.dropWhile_sublist _)

/-- **Shorthands of bower become repositories at GitHub.** A specifier that opens with an owner and
a repository keeps the name of its dependency, has one repository, which version control serves, and
the version that the text from its first hash on is settled as. It is resolved exactly when the
numbers of that text can be read once its hashes, signs and blanks are gone, and always when there
are not too many digits in it. -/
theorem resolve_shorthand (package : Option Text) (domains : Domains) (name : Text)
    {owner repo : Text} (rest : Text) (hne : owner ≠ [] ∧ repo ≠ [])
    (howner : ∀ c ∈ owner, Kind.isOwnerChar c = true)
    (hrepo : ∀ c ∈ repo, Kind.isOwnerChar c = true ∨ c = '.') :
    let s := owner ++ '/' :: repo ++ rest
    let outcome := (resolve ⟨.bower, package, domains⟩ ⟨name, s⟩).outcome
    (outcome = (fun version => ⟨⟨name, version⟩,
        some (.vcs .bower (shorthandUrl s) (Kind.bower.qualify name))⟩) <$>
          settleVersion (splitUrl s).2) ∧
      ((∃ r, outcome = .ok r) ↔
        ∃ t, Source.convertVersion (checkedText (splitUrl s).2) = .ok t) ∧
      (Text.weight Text.digitWeight s < Numeral.maxDigits → ∃ r, outcome = .ok r) := by
  have hshort := isShorthand_append rest hne howner hrepo
  intro s outcome
  have hiff := exists_resolve_shorthand_iff package domains name hshort
  refine ⟨outcome_resolve_shorthand package domains name hshort, hiff, fun hfew => hiff.2 ?_⟩
  refine Source.exists_convertVersion_of_weight_le (Nat.lt_of_le_of_lt ?_ hfew)
  exact Nat.le_trans (weight_checkedText_le Text.digitWeight _) (weight_splitUrl_le s)

/-- Nothing that stands behind the repository diverts a shorthand: neither an address and an ending
of archives, nor a second hash. -/
theorem resolve_shorthand_archive :
    (∀ c ∈ "owner".toList, Kind.isOwnerChar c = true) ∧
      (∀ c ∈ "lib.js".toList, Kind.isOwnerChar c = true ∨ c = '.') ∧
      (resolve ⟨.bower, none, {}⟩
        ⟨"lib".toList, "owner/lib.js@http://a.zip#^1.0#x".toList⟩).outcome =
          .ok ⟨⟨"lib".toList, "^1.0x".toList⟩,
            some (.vcs .bower "git://github.com/owner/lib.js@http://a.zip.git".toList
              "bower-asset/lib".toList)⟩ := by
  have howner : ∀ c ∈ "owner".toList, Kind.isOwnerChar c = true := List.all_iff_forall_prop.1 rfl
  have hrepo : ∀ c ∈ "lib.js".toList, Kind.isOwnerChar c = true ∨ c = '.' :=
    List.all_iff_forall_prop.1 rfl
  have hresolve := (resolve_shorthand none {} "lib".toList "@http://a.zip#^1.0#x".toList
    ⟨by decide, by decide⟩ howner hrepo).1
  exact ⟨howner, hrepo, hresolve.trans rfl⟩

/-! ## Numbers that run together -/

/-- A date whose next component has too many digits cannot be converted. -/
theorem convertVersion_date_eq_error {stamp run : Text} (hstamp : ∀ c ∈ stamp, c.isDigit = true)
    (hrun : ∀ c ∈ run, c.isDigit = true) (hdate : 7 ≤ stamp.length)
    (hlong : Numeral.maxDigits < run.length) :
    Source.convertVersion (stamp ++ '.' :: run) = .error .tooLong := by
  have hne : run ≠ [] := List.length_pos_iff.1 (by omega)
  have hjoin : stamp ++ '.' :: run = Text.join ['.'] [stamp, run] := by simp [Text.join_cons]
  have hleading : Numeral.leading run = .error .tooLong := by
    rw [Numeral.leading_eq_read hne fun c hc => Text.isDecimal_of_isDigit (hrun c hc),
      Numeral.read, if_neg (by omega)]
    rfl
  rw [hjoin, Source.convertVersion_stamp ⟨hstamp, hdate⟩ (by simpa using ⟨hne, hrun⟩),
    Source.paddedComponent, hleading]
  rfl

/-- A shorthand with a range whose numbers can all be read on their own. -/
def joiningShorthand : Text :=
  "o/r#99998 99998.".toList ++ (List.replicate 4300 '1' ++ " 99998".toList)

/-- No run of digits in it is too long. -/
theorem runsWithin_joiningShorthand : Text.RunsWithin Numeral.maxDigits joiningShorthand := by
  have hsplit : joiningShorthand = "o/r#99998 99998".toList ++
      '.' :: (List.replicate 4300 '1' ++ ' ' :: "99998".toList) := rfl
  have hones : (List.replicate 4300 '1').length ≤ Numeral.maxDigits :=
    Nat.le_of_eq List.length_replicate
  rw [hsplit]
  exact (Text.RunsWithin.of_length_le (by decide)).append_cons rfl
    ((Text.RunsWithin.of_length_le hones).append_cons rfl
      (Text.RunsWithin.of_length_le (by decide)))

/-- Without the blanks they are a date and one number more, which has too many digits. -/
theorem checkedText_joiningShorthand : checkedText (splitUrl joiningShorthand).2 =
    "9999899998".toList ++ '.' :: (List.replicate 4300 '1' ++ "99998".toList) := by
  let range : Text := "99998 99998.".toList ++ (List.replicate 4300 '1' ++ " 99998".toList)
  have hversion : (splitUrl joiningShorthand).2 = '#' :: range := rfl
  have hones : ∀ p : Char → Bool, p '1' = true →
      (List.replicate 4300 '1').filter p = List.replicate 4300 '1' := fun p hp =>
    List.filter_eq_self.2 fun c hc => (List.mem_replicate.1 hc).2 ▸ hp
  have hbare : ('#' :: range).filter (· != '#') = range := by
    have hfront : "99998 99998.".toList.filter (· != '#') = "99998 99998.".toList := by decide
    have hback : " 99998".toList.filter (· != '#') = " 99998".toList := by decide
    rw [List.filter_cons_of_neg (by decide), List.filter_append, List.filter_append, hfront,
      hones _ (by decide), hback]
  have hstrip : Text.strip range = range := by
    refine Text.strip_eq_self (fun c hc => ?_) fun c hc => ?_
    · obtain rfl : '9' = c := Option.some.inj hc
      decide
    · have hlast : range.getLast? = some '8' := by
        rw [List.getLast?_append, List.getLast?_append]
        rfl
      obtain rfl := Option.some.inj (hlast.symm.trans hc)
      decide
  have hfront : "99998 99998.".toList.filter (· ∉ rangeChars) = "9999899998.".toList := by decide
  have hback : " 99998".toList.filter (· ∉ rangeChars) = "99998".toList := by decide
  rw [hversion, checkedText, hbare, hstrip, List.filter_append, List.filter_append, hfront,
    hones _ (by decide), hback]
  rfl

/-- **Numbers that are too long only together** make a shorthand fail, although each of them can be
read where it stands. -/
theorem resolve_shorthand_not_returned :
    Kind.isShorthand joiningShorthand = true ∧
      Text.RunsWithin Numeral.maxDigits joiningShorthand ∧
      ∀ r, (resolve ⟨.bower, none, {}⟩ ⟨"lib".toList, joiningShorthand⟩).outcome ≠ .ok r := by
  have hshort : Kind.isShorthand joiningShorthand = true := rfl
  refine ⟨hshort, runsWithin_joiningShorthand, fun r hr => ?_⟩
  obtain ⟨t, ht⟩ := (exists_resolve_shorthand_iff none {} "lib".toList hshort).1 ⟨r, hr⟩
  have hlong : Numeral.maxDigits < (List.replicate 4300 '1' ++ "99998".toList).length := by
    rw [List.length_append, List.length_replicate]
    decide
  have hdigits : ∀ c ∈ List.replicate 4300 '1' ++ "99998".toList, c.isDigit = true := by
    intro c hc
    rcases List.mem_append.1 hc with hc | hc
    · exact (List.mem_replicate.1 hc).2 ▸ rfl
    · have hend : ∀ d ∈ "99998".toList, d.isDigit = true := List.all_iff_forall_prop.1 rfl
      exact hend c hc
  have hstamp : ∀ c ∈ "9999899998".toList, c.isDigit = true := List.all_iff_forall_prop.1 rfl
  rw [checkedText_joiningShorthand,
    convertVersion_date_eq_error hstamp hdigits (by decide) hlong] at ht
  cases ht

end Asset

end AssetBridge
