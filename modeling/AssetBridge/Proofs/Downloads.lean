import AssetBridge.Proofs.ExactVersions
import AssetBridge.Proofs.LoneNumbers
import AssetBridge.Proofs.Provision

/-!
# Downloads

A dependency whose URL no version control serves is downloaded as a file, under a name of its own
and with the tag behind the URL as its version. The tag is what is required as well, but there it is
a range: it is spelled as ranges are and converted. So a package meets what is required of it
exactly when both readings of its tag name the same version. The name of a commit is no tag: it is
required as a commit of the default branch, which no download has as its version.

## Main definitions

* `IsDownload`: the URLs that are downloaded
* `IsPlainTag`: the tags of a single word that name no commit
* `IsUnmet`: the tags under which what is required is not met

## Main results

* `outcome_resolve_download`: a download, resolved
* `matchesText_settledTag`: a tag against what is required for it
* `resolve_download_matches`: when a download meets its requirement
* `resolve_download_labelled`: releases and stages of them as tags
-/

namespace AssetBridge.Asset

/-! ## The parts of a specifier -/

/-- **URLs that are downloaded**: they stand in front of the first hash, are no shorthand of their
kind, and point to an archive or to an unknown host. -/
structure IsDownload (context : Context) (url : Text) : Prop where
  mentionsUrl : Kind.mentionsUrl url = true
  hash_not_mem : '#' ∉ url
  isShorthand_eq_false : context.kind = .bower → Kind.isShorthand url = false
  not_served : isArchive url = true ∨ context.domains.isKnown url = false

/-- **Plain tags**: words that are tags and do not name a commit. -/
structure IsPlainTag (tag : Text) : Prop where
  isWord : Text.IsWord tag
  isTag : ∃ n, validateTag tag = .ok (some n)
  isCommit_eq_false : isCommit tag = false

theorem splitHash_hash {url : Text} (h : '#' ∉ url) (tag : Text) :
    Kind.splitHash (url ++ '#' :: tag) = (url, '#' :: tag) := by
  obtain ⟨htake, hdrop⟩ := Text.scan_append_cons (Text.bne_of_not_mem h) (c := '#') rfl tag
  rw [Kind.splitHash, htake, hdrop]

theorem splitHash_of_not_mem {url : Text} (h : '#' ∉ url) : Kind.splitHash url = (url, []) := by
  obtain ⟨htake, hdrop⟩ := Text.scan_eq_of_forall (Text.bne_of_not_mem h)
  rw [Kind.splitHash, htake, hdrop]

theorem splitUrl_hash {url : Text} (h : '#' ∉ url) (tag : Text) :
    splitUrl (url ++ '#' :: tag) = (url, '#' :: tag) := by
  rw [splitUrl, splitHash_hash h]
  rfl

theorem mentionsUrl_append {url : Text} (h : Kind.mentionsUrl url = true) (r : Text) :
    Kind.mentionsUrl (url ++ r) = true := by
  simp only [Kind.mentionsUrl, Bool.or_eq_true, decide_eq_true_eq] at h ⊢
  rcases h with h | h
  · obtain ⟨a, b, rfl⟩ := Text.contains_iff.1 h
    exact .inl (Text.contains_iff.2 ⟨a, b ++ r, by simp⟩)
  · exact .inr (List.mem_append_left r h)

/-- A shorthand opens with an owner, a slash and the first character of a repository. -/
theorem isShorthand_iff {s : Text} : Kind.isShorthand s = true ↔
    ∃ owner c r, s = owner ++ '/' :: c :: r ∧ owner ≠ [] ∧
      (∀ d ∈ owner, Kind.isOwnerChar d = true) ∧ (Kind.isOwnerChar c = true ∨ c = '.') := by
  constructor
  · intro h
    simp only [Kind.isShorthand, Bool.and_eq_true, Bool.not_eq_true',
      List.isEmpty_eq_false_iff] at h
    obtain ⟨hne, h⟩ := h
    split at h
    · rename_i c r hrest
      rw [Bool.or_eq_true, decide_eq_true_eq] at h
      refine ⟨_, c, r, ?_, hne, List.all_eq_true.1 List.all_takeWhile, h⟩
      rw [← hrest, List.takeWhile_append_dropWhile]
    · cases h
  · rintro ⟨owner, c, r, rfl, hne, howner, hc⟩
    have hslash : Kind.isOwnerChar '/' = false := rfl
    have hscan : (owner ++ '/' :: c :: r).takeWhile Kind.isOwnerChar = owner ∧
        (owner ++ '/' :: c :: r).dropWhile Kind.isOwnerChar = '/' :: c :: r :=
      Text.scan_append_cons howner hslash (c :: r)
    simpa [Kind.isShorthand, hscan.1, hscan.2, hne] using hc

/-- What stands behind a hash makes no shorthand of a URL. -/
theorem isShorthand_hash {url : Text} (hash : '#' ∉ url) (h : Kind.isShorthand url = false)
    (tag : Text) : Kind.isShorthand (url ++ '#' :: tag) = false := by
  rw [Bool.eq_false_iff, ne_eq, isShorthand_iff] at h ⊢
  rintro ⟨owner, c, r, he, hne, howner, hc⟩
  refine h ⟨owner, c, r.takeWhile (· != '#'), ?_, hne, howner, hc⟩
  -- An owner, the slash and what follows it have no hash, so they are in front of it.
  have hfront : ∀ d ∈ owner ++ ['/', c], (d != '#') = true := by
    intro d hd
    rw [bne_iff_ne]
    rintro rfl
    simp only [List.mem_append, List.mem_cons, List.not_mem_nil, or_false] at hd
    rcases hd with hd | hd | rfl
    · exact absurd (howner _ hd) (by decide)
    · cases hd
    · exact absurd hc (by decide)
  have hurl := congrArg Prod.fst (splitHash_hash hash tag)
  rw [he, Kind.splitHash] at hurl
  have hsplit : owner ++ '/' :: c :: r = owner ++ ['/', c] ++ r := by simp
  rw [hsplit, List.takeWhile_append_of_pos hfront] at hurl
  simpa using hurl.symm

theorem prepareVersion_download {context : Context} {url : Text} (h : IsDownload context url)
    (tag : Text) :
    context.kind.prepareVersion (url ++ '#' :: tag) = url ++ '#' :: tag := by
  have hshort := h.isShorthand_eq_false
  revert hshort
  cases context.kind with
  | npm => exact fun _ => rfl
  | bower =>
    intro hshort
    exact if_neg (by simp [isShorthand_hash h.hash_not_mem (hshort rfl)])

/-! ## Resolving -/

/-- What a plain tag behind a hash is settled as: zero sets no condition. -/
def settledTag (tag : Text) : Text := if tag = ['0'] then Source.anyVersion else tag

/-- Behind its hash a word is bare. -/
theorem filter_hash {s : Text} (h : Text.IsWord s) : ('#' :: s).filter (· != '#') = s := by
  rw [List.filter_cons_of_neg (by simp)]
  exact List.filter_eq_self.2 (Text.bne_of_not_mem (h.not_mem rfl))

/-- A word has none of the signs of ranges. -/
theorem rangeChars_not_mem {s : Text} (h : Text.IsWord s) : ∀ c ∈ s, c ∉ rangeChars := by
  intro c hc hm
  have hall : ∀ d ∈ rangeChars, Text.isReserved d = true := List.all_iff_forall_prop.1 rfl
  exact h.not_mem (hall c hm) hc

theorem filter_rangeChars {s : Text} (h : Text.IsWord s) : s.filter (· ∉ rangeChars) = s :=
  List.filter_eq_self.2 fun c hc => decide_eq_true (rangeChars_not_mem h c hc)

theorem settleVersion_hash {tag : Text} (h : IsPlainTag tag) :
    settleVersion ('#' :: tag) = .ok (settledTag tag) := by
  have hbare := filter_hash h.isWord
  have hstrip := Text.strip_of_forall h.isWord.isBlank_eq_false
  have hsigns := filter_rangeChars h.isWord
  have hmem : '#' ∈ '#' :: tag := List.mem_cons_self
  by_cases hzero : tag = ['0']
  · subst hzero
    rfl
  · have hempty : Text.isOneOf emptyVersions tag = false := by
      rw [Bool.eq_false_iff, ne_eq, Text.isOneOf_iff]
      simp [emptyVersions, hzero, h.isWord.ne_nil]
    obtain ⟨n, hn⟩ := h.isTag
    rw [settledTag, if_neg hzero]
    simp only [settleVersion, hbare, hempty, hstrip, hsigns, h.isCommit_eq_false, hn,
      Bool.false_eq_true, and_false, if_false]
    split
    · rfl
    · rfl

/-- The package that is described for a download. -/
def downloadOf (context : Context) (name tag url : Text) : FilePackage :=
  ⟨context.kind, context.kind.qualify (fileName context name), tag, url⟩

theorem outcome_checkUrl_download {context : Context} {url tag : Text}
    (h : IsDownload context url) (ht : IsPlainTag tag) (name : Text) :
    (checkUrl context ⟨name, url ++ '#' :: tag⟩).outcome = .ok
      { name := fileName context name
        version := '#' :: tag
        repository := some (.file (downloadOf context name tag url)) } := by
  have hurl : Kind.mentionsUrl (url ++ '#' :: tag) = true := mentionsUrl_append h.mentionsUrl _
  have hserved : ¬(!isArchive url && context.domains.isKnown url) = true := by
    rcases h.not_served with h | h <;> simp [h]
  have hversion : fileVersion url ('#' :: tag) = .ok tag := by
    have hne : ('#' :: tag != noVersion) = true := by simpa [noVersion] using ht.isWord.ne_nil
    rw [fileVersion, hne]
    rfl
  rw [checkUrl, if_pos hurl, splitUrl_hash h.hash_not_mem]
  simp only [if_neg hserved, hversion]
  rfl

/-- **A download**: the file is a package under its own name, with the tag as its version. -/
theorem outcome_resolve_download {context : Context} {url tag : Text} (h : IsDownload context url)
    (ht : IsPlainTag tag) (name : Text) :
    (resolve context ⟨name, url ++ '#' :: tag⟩).outcome = .ok
      { name := fileName context (context.kind.localName name)
        version := settledTag tag
        repository := some
          (.file (downloadOf context (context.kind.localName name) tag url)) } := by
  have hname := checkAlias_hash (fileName context (context.kind.localName name)) tag
  simp only [outcome_resolve_eq_bind, prepare, prepareVersion_download h,
    outcome_checkUrl_download h ht, hname, settleVersion_hash ht, Except.ok_bind]

/-! ## A tag and what is required for it -/

/-- **A tag meets what is required for it** exactly when it names the version that its conversion
names. -/
theorem matchesText_settledTag {tag a : Text} (ht : IsPlainTag tag) {v w : Target.Version}
    (hv : Target.Version.parse tag = .ok v)
    (ha : Source.convertVersion (Source.spelled tag) = .ok a)
    (hw : Target.Version.parse a = .ok w) :
    ∃ c, constraintFor (settledTag tag) = .ok c ∧ c.matchesText tag = .ok (decide (v = w)) := by
  by_cases hzero : tag = ['0']
  · -- zero sets no condition, and it is a version
    subst hzero
    obtain rfl := Except.ok.inj ha
    obtain rfl := Except.ok.inj (hv.symm.trans hw)
    refine ⟨_, constraintFor_eq rfl rfl, ?_⟩
    rw [Target.Constraint.matchesText_of_parse _ hv, decide_eq_true rfl]
    rfl
  rw [settledTag, if_neg hzero]
  by_cases hlone : Source.Pending.isLoneMajor (Source.spelled tag) 0 none = true
  · -- a lone number asks for its release, which it is the first version of
    have hrange := Source.convertRange_of_isWord ht.isWord
    obtain ⟨hnumber, m, hm, rfl, hparse⟩ := Source.exists_of_parse_lone ht.isWord hlone hv
    rw [hnumber.convertVersion_eq_self] at ha
    obtain rfl := Except.ok.inj ha
    obtain rfl := Except.ok.inj (hparse.symm.trans hw)
    rw [if_pos hlone, hnumber.convertVersion_tilde] at hrange
    refine ⟨_, constraintFor_eq hrange (hnumber.parse_tilde hm hparse), ?_⟩
    rw [Target.Constraint.matchesText_of_parse _ hv, IsNumber.accepts_tilde, decide_eq_true rfl]
  · -- any other tag asks for the version that it is converted into
    obtain ⟨c, hc, -, hmatches⟩ :=
      exists_constraintFor_word ht.isWord (Bool.eq_false_iff.2 hlone) hv ha hw
    exact ⟨c, hc, hmatches⟩

/-- **A download meets its requirement** exactly when its tag names one version in both readings.
The file is a package with the tag as its version, and what is required of it is a constraint that
can be held against that version. -/
theorem resolve_download_matches {context : Context} {url tag a : Text}
    (h : IsDownload context url) (ht : IsPlainTag tag) (name : Text) {v w : Target.Version}
    (hv : Target.Version.parse tag = .ok v)
    (ha : Source.convertVersion (Source.spelled tag) = .ok a)
    (hw : Target.Version.parse a = .ok w) :
    ∃ resolved p c, (resolve context ⟨name, url ++ '#' :: tag⟩).outcome = .ok resolved ∧
      resolved.repository = some (.file p) ∧ p.version = tag ∧
      constraintFor resolved.version = .ok c ∧
      c.matchesText p.version = .ok (decide (v = w)) := by
  obtain ⟨c, hc, hmatches⟩ := matchesText_settledTag ht hv ha hw
  exact ⟨_, _, c, outcome_resolve_download h ht name, rfl, rfl, hc, hmatches⟩

/-- The URL of an archive is downloaded. -/
theorem isDownload_archive : IsDownload ⟨.npm, none, {}⟩ "https://example.com/lib.zip".toList :=
  ⟨by decide +kernel, by decide, by simp, .inl (by decide +kernel)⟩

/-- An archive with a tag in front of whose number a letter v stands. -/
theorem resolve_download_matches_archive :
    IsDownload ⟨.npm, none, {}⟩ "https://example.com/lib.zip".toList ∧
    IsPlainTag "v1.0.0-beta.2".toList ∧
    ∃ resolved p c, (resolve ⟨.npm, none, {}⟩ ⟨"lib".toList,
        "https://example.com/lib.zip".toList ++ '#' :: "v1.0.0-beta.2".toList⟩).outcome =
          .ok resolved ∧
      resolved.repository = some (.file p) ∧ p.version = "v1.0.0-beta.2".toList ∧
      constraintFor resolved.version = .ok c ∧
      c.matchesText p.version = .ok (decide
        ((⟨⟨[1, 0, 0, 0], Stability.beta.rank, [2]⟩, none⟩ : Target.Version) =
          ⟨⟨[1, 0, 0, 0], Stability.beta.rank, [2]⟩, none⟩)) := by
  have htag : IsPlainTag "v1.0.0-beta.2".toList :=
    ⟨⟨by decide, List.all_iff_forall_prop.1 rfl⟩, ⟨_, rfl⟩, by decide⟩
  exact ⟨isDownload_archive, htag, resolve_download_matches isDownload_archive htag "lib".toList
    (a := "1.0.0-beta.2".toList) rfl rfl rfl⟩

/-- A version of the npm dialect is a plain tag: it has points, which no commit has. -/
theorem isPlainTag_labelled {u : Npm.Labelled} (h : u.IsReadable) : IsPlainTag u.text where
  isWord := h.version.isWord_text
  isTag := by
    obtain ⟨s, a, b, hs, -, hb, -⟩ := h.exists_convertVersion
    obtain ⟨n, hn, -⟩ := Except.exists_of_bind_eq_ok hb
    have hdefault : Text.isOneOf Target.defaultBranches u.text = false := by
      rw [Bool.eq_false_iff, ne_eq, Text.isOneOf_iff]
      intro hm
      have hpoints : ∀ branch ∈ Target.defaultBranches, '.' ∉ branch := by decide
      exact hpoints _ hm u.point_mem_text
    refine ⟨n, ?_⟩
    rw [validateTag, hdefault, hs]
    show Except.ok (Target.normalize s).toOption = _
    rw [hn]
    rfl
  isCommit_eq_false := by
    rw [Bool.eq_false_iff]
    intro hcommit
    simp only [isCommit, Bool.and_eq_true, List.all_eq_true] at hcommit
    exact absurd (hcommit.2 _ u.point_mem_text) (by decide)

/-- **A download with a version as its tag**, a release or a stage of one, meets its requirement as
long as the conversion has no number to add: a stage without one is required as the first. -/
theorem resolve_download_labelled {context : Context} {url : Text} (h : IsDownload context url)
    (name : Text) {u : Npm.Labelled} (hu : u.IsReadable) :
    ∃ resolved p c, (resolve context ⟨name, url ++ '#' :: u.text⟩).outcome = .ok resolved ∧
      resolved.repository = some (.file p) ∧ p.version = u.text ∧
      constraintFor resolved.version = .ok c ∧
      c.matchesText p.version = .ok u.isExplicit := by
  have htag := isPlainTag_labelled hu
  obtain ⟨s, a, b, hs, ha, hb, hab⟩ := hu.exists_convertVersion
  obtain ⟨c, hc, hmatches⟩ := matchesText_settledTag htag ha (by rw [u.spelled_text, hs]) hb
  rw [hab] at hmatches
  exact ⟨_, _, c, outcome_resolve_download h htag name, rfl, rfl, hc, hmatches⟩

/-- A tag under which a download resolves to a package that does not meet what is required of
it. -/
def IsUnmet (context : Context) (name url tag : Text) : Prop :=
  IsDownload context url ∧ (∃ n, validateTag tag = .ok (some n)) ∧
    ∃ resolved p, (resolve context ⟨name, url ++ '#' :: tag⟩).outcome = .ok resolved ∧
      resolved.repository = some (.file p) ∧
      ∀ c, constraintFor resolved.version = .ok c → c.matchesText p.version ≠ .ok true

/-- **Tags whose download does not meet its requirement**: the name of a commit, a date and a
version with build data, whose readings differ, a tag that is a version only when it is converted,
one whose spelling is converted into no version, and an alias, which is no word. -/
theorem resolve_download_not_matches :
    IsUnmet ⟨.npm, none, {}⟩ "lib".toList "https://example.com/lib.zip".toList
        "20170124".toList ∧
      IsUnmet ⟨.npm, none, {}⟩ "lib".toList "https://example.com/lib.zip".toList
        "20170124-1".toList ∧
      IsUnmet ⟨.npm, none, {}⟩ "lib".toList "https://example.com/lib.zip".toList
        "1.0.0+build".toList ∧
      IsUnmet ⟨.npm, none, {}⟩ "lib".toList "https://example.com/lib.zip".toList
        "1.0-SNAPSHOT".toList ∧
      IsUnmet ⟨.npm, none, {}⟩ "lib".toList "https://example.com/lib.zip".toList
        "V201701241.".toList ∧
      IsUnmet ⟨.npm, none, {}⟩ "lib".toList "https://example.com/lib.zip".toList
        "1.0 as 2.0".toList := by
  have hunmet : ∀ {tag s n : Text}, validateTag tag = .ok (some n) →
      (resolve ⟨.npm, none, {}⟩
        ⟨"lib".toList, "https://example.com/lib.zip".toList ++ '#' :: tag⟩).outcome = .ok
          ⟨⟨"lib-file".toList, s⟩, some (.file ⟨.npm, "npm-asset/lib-file".toList, tag,
            "https://example.com/lib.zip".toList⟩)⟩ →
      ((constraintFor s).toOption.bind fun c => (c.matchesText tag).toOption) ≠ some true →
      IsUnmet ⟨.npm, none, {}⟩ "lib".toList "https://example.com/lib.zip".toList tag := by
    intro tag s n htag hresolve hmatch
    refine ⟨isDownload_archive, ⟨n, htag⟩, _, _, hresolve, rfl, fun c hc hm => hmatch ?_⟩
    rw [hc]
    show (c.matchesText tag).toOption = some true
    rw [hm]
    rfl
  refine ⟨?_, ?_, ?_, ?_, ?_, ?_⟩
  · exact hunmet (s := "dev-default#20170124".toList) rfl rfl (by decide +kernel)
  · exact hunmet (s := "20170124-1".toList) rfl rfl (by decide +kernel)
  · exact hunmet (s := "1.0.0+build".toList) rfl rfl (by decide +kernel)
  · exact hunmet (s := "1.0-SNAPSHOT".toList) rfl rfl (by decide +kernel)
  · exact hunmet (s := "V201701241.".toList) rfl rfl (by decide +kernel)
  · exact hunmet (s := "1.0 as 2.0".toList) rfl rfl (by decide +kernel)

end AssetBridge.Asset
