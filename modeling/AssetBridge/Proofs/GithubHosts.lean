import AssetBridge.Proofs.CommandEffects
import AssetBridge.Proofs.Downloads
import AssetBridge.Proofs.RepositoryUrls
import AssetBridge.Proofs.SmallLetters
import Mathlib.Data.List.Basic

/-!
# Hosts that are set

The domains of GitHub are a setting, a list that is split, put in small letters and joined again
before it is stored, and split once more when it is read. The host of a URL goes another way: it is
cut out of the URL, put in small letters, and loses the mark of a web server. A domain of the list
and a host that is written for it come out the same, so that version control serves the URL.

## Main definitions

* `IsListed`: the domains that are split off a list
* `Asset.IsBare`, `Asset.Names`: domains as hosts have them, and the hosts that name a domain
* `Asset.repositoryUrls`: the URLs that are written for a repository
* `Asset.IsServed`: the URLs that GitHub serves
* `Cli.SetsDomains`: command lines that set the domains

## Main results

* `splitDomains_join_splitDomains`: a list that was split and joined is split into the same domains
* `Asset.isServed_of_mem_repositoryUrls`: a host that names a domain is recognised
* `Cli.isServed_of_setsDomains`: what a run sets is recognised afterwards
-/

namespace AssetBridge

/-! ## Lists of domains -/

/-- **Domains that are split off a list**: they are in small letters and hold no comma. -/
structure IsListed (d : Text) : Prop where
  ne_nil : d ≠ []
  lower_eq_self : Text.lower d = d
  comma_not_mem : ',' ∉ d

theorem isClosed_comma : Text.IsClosed [((',' : Char).toNat, (',' : Char).toNat)] where
  ascii := by decide +kernel
  runs := by decide +kernel
  zero := by decide
  special := List.all_iff_forall_prop.1 rfl

theorem isListed_of_mem_splitDomains {s d : Text} (h : d ∈ splitDomains s) : IsListed d := by
  obtain ⟨t, ht, hd⟩ := List.mem_filterMap.1 h
  split at hd
  · cases hd
  · rename_i hne
    obtain rfl := Option.some.inj hd
    obtain ⟨field, hfield, rfl⟩ := List.mem_map.1 ht
    refine ⟨Text.lower_ne_nil (by simpa using hne), Text.lower_lower _, fun hm => ?_⟩
    have hcomma := (Text.mem_splitWhere hfield).2 ','
      ((Text.strip_isInfix field).subset (Text.mem_of_mem_lower isClosed_comma hm))
    cases hcomma

theorem isClosed_blankRanges : Text.IsClosed Text.blankRanges where
  ascii := by decide +kernel
  runs := by decide +kernel
  zero := by decide
  special := List.all_iff_forall_prop.1 rfl

/-- What a text in small letters ends with comes from what the text ends with. -/
theorem Text.exists_of_mem_getLast?_lowerAfter {s : Text} {before : Text} {d : Char}
    (h : d ∈ (lowerAfter before s).getLast?) :
    ∃ c ∈ s.getLast?, ∃ before', d ∈ lowerBetween before' c [] := by
  induction s generalizing before with
  | nil => cases h
  | cons c s ih =>
    cases s with
    | nil =>
      rw [lowerAfter, lowerAfter, List.append_nil] at h
      exact ⟨c, rfl, before, List.mem_of_getLast? h⟩
    | cons e s =>
      have hne : lowerAfter (c :: before) (e :: s) ≠ [] := by
        rw [lowerAfter, ne_eq, List.append_eq_nil_iff, not_and]
        exact fun hnil => absurd hnil (lowerBetween_ne_nil _ _ _)
      rw [lowerAfter, List.getLast?_append_of_ne_nil _ hne] at h
      rw [List.getLast?_cons_cons]
      exact ih h

/-- No blank comes or goes when a text is put in small letters. -/
theorem Text.IsTrimmed.lower {s : Text} (h : IsTrimmed s) : IsTrimmed (Text.lower s) where
  head := by
    intro d hd
    cases s with
    | nil => cases hd
    | cons c s =>
      rw [Bool.eq_false_iff]
      intro hblank
      obtain ⟨e, l, hl⟩ := List.exists_cons_of_ne_nil (lowerBetween_ne_nil [] c s)
      rw [Text.lower, lowerAfter, hl] at hd
      obtain rfl := Option.some.inj hd
      have hc := inRanges_of_mem_lowerBetween isClosed_blankRanges
        (hl ▸ List.mem_cons_self : e ∈ lowerBetween [] c s) hblank
      rw [← isBlank, h.head c rfl] at hc
      cases hc
  last := by
    intro d hd
    rw [Bool.eq_false_iff]
    intro hblank
    obtain ⟨c, hc, before, hbetween⟩ := exists_of_mem_getLast?_lowerAfter hd
    have hlast := inRanges_of_mem_lowerBetween isClosed_blankRanges hbetween hblank
    rw [← isBlank, h.last c hc] at hlast
    cases hlast

theorem isTrimmed_of_mem_splitDomains {s d : Text} (h : d ∈ splitDomains s) : Text.IsTrimmed d := by
  obtain ⟨t, ht, hd⟩ := List.mem_filterMap.1 h
  split at hd
  · cases hd
  · obtain rfl := Option.some.inj hd
    obtain ⟨field, -, rfl⟩ := List.mem_map.1 ht
    exact (Text.IsTrimmed.of_strip field).lower

/-- **Domains that are joined** are split off as they stand. -/
theorem splitDomains_join {ds : List Text} (hne : ds ≠ []) (h : ∀ d ∈ ds, IsListed d)
    (htrimmed : ∀ d ∈ ds, Text.IsTrimmed d) : splitDomains (Text.join [','] ds) = ds := by
  obtain ⟨d, ds, rfl⟩ := List.exists_cons_of_ne_nil hne
  have hstrip : (d :: ds).map Text.strip = d :: ds :=
    (List.map_congr_left fun e he => (htrimmed e he).strip_eq_self).trans (List.map_id _)
  rw [splitDomains, Text.fields_join fun e he => (h e he).comma_not_mem, hstrip]
  refine (List.filterMap_eq_map_iff_forall_eq_some.2 fun e he => ?_).trans (List.map_id _)
  have hempty : e.isEmpty = false := by simpa using (h e he).ne_nil
  rw [hempty, (h e he).lower_eq_self]
  rfl

/-- What was split off a list is split off the joined list again. -/
theorem splitDomains_join_splitDomains {s : Text} (h : splitDomains s ≠ []) :
    splitDomains (Text.join [','] (splitDomains s)) = splitDomains s :=
  splitDomains_join h (fun _ => isListed_of_mem_splitDomains)
    fun _ => isTrimmed_of_mem_splitDomains

/-- The settings that are lists of domains. -/
def domainSettings : List Setting := [.githubDomains, .gitlabDomains]

/-- **Domains are stored** joined by commas. -/
theorem Setting.normalize_eq_ok_iff_of_mem_domainSettings {s : Setting} (hs : s ∈ domainSettings)
    {value stored : Text} : s.normalize value = .ok stored ↔
      splitDomains value ≠ [] ∧ stored = Text.join [','] (splitDomains value) := by
  have hnormalize : s.normalize value =
      if (splitDomains value).isEmpty then .error ⟨s, value⟩
      else .ok (Text.join [','] (splitDomains value)) := by
    simp only [domainSettings, List.mem_cons, List.not_mem_nil, or_false] at hs
    rcases hs with rfl | rfl <;> rfl
  rw [hnormalize]
  split
  · rename_i hnil
    simp [List.isEmpty_iff.1 hnil]
  · rename_i hne
    rw [List.isEmpty_iff] at hne
    rw [Except.ok.injEq, eq_comm, and_iff_right hne]

theorem Text.isBlank_of_isLineBoundary {c : Char} (h : isLineBoundary c = true) :
    isBlank c = true := by
  have hall : ∀ d ∈ ['\n', '\r', '\x0b', '\x0c', '\x1c', '\x1d', '\x1e', '\u0085', '\u2028',
      '\u2029'], isBlank d = true := List.all_iff_forall_prop.1 rfl
  exact hall c (of_decide_eq_true h)

/-- A text without blanks can be stored. -/
theorem isStorable_of_forall {s : Text} (h : ∀ c ∈ s, Text.isBlank c = false) :
    IsStorable s := by
  refine isStorable_ofText_iff.2 ⟨Text.isTrimmed_iff.2 (Text.strip_of_forall h), fun c hc => ?_⟩
  rw [Bool.eq_false_iff]
  intro hline
  have hblank := Text.isBlank_of_isLineBoundary hline
  rw [h c hc] at hblank
  cases hblank

/-! ## Recognition of hosts -/

namespace Asset

/-- **Domains as hosts have them**: without the mark of a web server and without the signs that end
a host. -/
structure IsBare (d : Text) : Prop where
  www_not_prefix : Text.startsWith "www.".toList d = false
  slash_not_mem : '/' ∉ d
  hash_not_mem : '#' ∉ d

/-- **Hosts that name a domain**, with or without the mark of a web server, whatever their case. -/
def Names (host d : Text) : Prop :=
  Text.lower host = d ∨ Text.lower host = "www.".toList ++ d

/-- **Parts of a path**, neither empty nor with a sign that ends one. -/
structure IsPathPart (s : Text) : Prop where
  ne_nil : s ≠ []
  slash_not_mem : '/' ∉ s
  hash_not_mem : '#' ∉ s

/-- The URLs that are written for a repository. -/
def repositoryUrls (host owner repository : Text) : List Text :=
  ["https://".toList ++ (host ++ '/' :: (owner ++ '/' :: repository)),
    "http://".toList ++ (host ++ '/' :: (owner ++ '/' :: (repository ++ ".git".toList))),
    "git://".toList ++ (host ++ '/' :: (owner ++ '/' :: (repository ++ ['/'])))]

section Hosts

variable {host d : Text}

theorem Names.bareDomain_eq (h : Names host d) (hd : IsBare d) : Host.bareDomain host = d := by
  rcases h with h | h
  · rw [Host.bareDomain, h, Text.trimPrefix_eq_self hd.www_not_prefix]
  · rw [Host.bareDomain, h, Text.trimPrefix_append]

/-- A sign that is no letter stands in a host only if it stands in the domain. -/
theorem Names.not_mem (h : Names host d) {c : Char} (hc : Text.isSettled c = true)
    (hwww : c ∉ "www.".toList) (hd : c ∉ d) : c ∉ host := by
  intro hm
  have hlower := Text.mem_lower_of_mem hm (Text.isSmall_of_isSettled hc)
  rcases h with h | h
  · rw [h] at hlower
    exact hd hlower
  · rw [h] at hlower
    exact (List.mem_append.1 hlower).elim hwww hd

theorem Names.ne_nil (h : Names host d) (hd : d ≠ []) : host ≠ [] := by
  rintro rfl
  rcases h with h | h
  · exact hd h.symm
  · cases h

end Hosts

namespace Host

/-- Every URL of a repository has a scheme, and an owner and a last component in its path. -/
theorem exists_of_mem_repositoryUrls {host owner repository url : Text}
    (hrepository : IsPathPart repository) (h : url ∈ repositoryUrls host owner repository) :
    ∃ scheme ∈ webSchemes, ∃ last, IsRepository last ∧ '#' ∉ last ∧
      url = scheme ++ (host ++ '/' :: (owner ++ '/' :: last)) := by
  obtain ⟨hne, hslash, hhash⟩ := hrepository
  simp only [repositoryUrls, List.mem_cons, List.not_mem_nil, or_false] at h
  rcases h with rfl | rfl | rfl
  · exact ⟨_, by simp [webSchemes], repository, ⟨repository, hne, hslash, .inl rfl⟩, hhash, rfl⟩
  · refine ⟨_, by simp [webSchemes], repository ++ ".git".toList, ?_, by simp [hhash], rfl⟩
    exact ⟨repository ++ ".git".toList, by simp, by simp [hslash], .inl rfl⟩
  · refine ⟨_, by simp [webSchemes], repository ++ ['/'], ?_, by simp [hhash], rfl⟩
    exact ⟨repository, hne, hslash, .inr (.inl rfl)⟩

end Host

/-! ## URLs that are served -/

/-- **URLs that GitHub serves**: they are recognised, and unless the URL is that of an archive, a
dependency with this URL, with or without a version behind it, keeps its name and is provided from
version control. -/
structure IsServed (domains : Domains) (url : Text) : Prop where
  find?_eq : domains.find? url = some .github
  outcome_checkUrl : isArchive url = false → ∀ kind package name version,
    version = [] ∨ version.head? = some '#' →
      (checkUrl ⟨kind, package, domains⟩ ⟨name, url ++ version⟩).outcome = .ok
        { name
          version := if version.isEmpty then noVersion else version
          repository := some (.vcs kind url (kind.qualify name)) }

theorem splitUrl_append {url : Text} (h : '#' ∉ url) {version : Text}
    (hv : version = [] ∨ version.head? = some '#') :
    splitUrl (url ++ version) = (url, if version.isEmpty then noVersion else version) := by
  rcases hv with rfl | hv
  · rw [List.append_nil, splitUrl, splitHash_of_not_mem h]
  · obtain ⟨tag, rfl⟩ := List.head?_eq_some_iff.1 hv
    rw [splitUrl_hash h]
    rfl

/-- A URL that is recognised is served. -/
theorem isServed_of_find?_eq {domains : Domains} {url : Text}
    (hurl : Kind.mentionsUrl url = true) (hhash : '#' ∉ url)
    (h : domains.find? url = some .github) : IsServed domains url := by
  refine ⟨h, fun harchive kind package name version hv => ?_⟩
  have hknown : domains.isKnown url = true := by rw [Domains.isKnown, h]; rfl
  rw [checkUrl, if_pos (mentionsUrl_append hurl version), splitUrl_append hhash hv]
  simp only [harchive, hknown]
  rfl

/-- **A host that names one of the domains** is recognised as one of GitHub. -/
theorem isServed_of_mem_repositoryUrls {domains : Domains} {d : Text} (hd : d ∈ domains.github)
    (hne : d ≠ []) (hbare : IsBare d) {host owner repository : Text} (hhost : Names host d)
    (howner : IsPathPart owner) (hrepository : IsPathPart repository) {url : Text}
    (h : url ∈ repositoryUrls host owner repository) : IsServed domains url := by
  obtain ⟨scheme, hscheme, last, hlast, hhash, rfl⟩ :=
    Host.exists_of_mem_repositoryUrls hrepository h
  have hslash : '/' ∉ host := hhost.not_mem rfl (by decide) hbare.slash_not_mem
  have hform : Host.HasForm host (scheme ++ (host ++ '/' :: (owner ++ '/' :: last))) :=
    ⟨_, owner, last, .web hscheme (hhost.ne_nil hne) hslash, howner.ne_nil, howner.slash_not_mem,
      hlast, by simp⟩
  have hgithub := Host.githubHost?_eq_some_iff.2 hform
  apply isServed_of_find?_eq
  · apply mentionsUrl_append
    have hall : ∀ s ∈ Host.webSchemes, Kind.mentionsUrl s = true := by decide
    exact hall scheme hscheme
  · have hall : ∀ s ∈ Host.webSchemes, '#' ∉ s := by decide
    have hhostHash : '#' ∉ host := hhost.not_mem rfl (by decide) hbare.hash_not_mem
    simp [hall scheme hscheme, hhostHash, howner.hash_not_mem, hhash]
  · rw [find?_eq_github_iff]
    simp only [Domains.supports, hgithub, Option.any_some, Text.isOneOf_iff]
    rw [hhost.bareDomain_eq hbare]
    exact hd

end Asset

/-! ## Setting the domains -/

namespace Cli

/-- **Command lines that set the domains of GitHub**: the value is accepted, no domain in it has a
blank, the settings file, if there is one, is a text, and no variable overrides it. -/
structure SetsDomains (w : Surroundings) (args : List Text) (value : Text) : Prop where
  isConfigSet : IsConfigSet args Setting.githubDomains.flag value
  accepted : ∃ stored, Setting.githubDomains.normalize value = .ok stored
  isBlank_eq_false : ∀ d ∈ splitDomains value, ∀ c ∈ d, Text.isBlank c = false
  holdsText : ∃ content, w.HoldsText content
  not_overridden : w.environment.get? Setting.githubDomains.envName = none

/-- **The domains that are set** are read afterwards as they were split off. -/
theorem exists_load_of_setsDomains {state : State} {args : List Text} {value : Text}
    (h : SetsDomains state.surroundings args value) :
    ∃ settings, (run state args).1.surroundings.load = .ok settings ∧
      settings.domains.github = splitDomains value := by
  obtain ⟨hargs, ⟨stored, hstored⟩, hblank, ⟨content, hcontent⟩, henv⟩ := h
  obtain ⟨hne, rfl⟩ := (Setting.normalize_eq_ok_iff_of_mem_domainSettings
    (List.mem_cons_self : Setting.githubDomains ∈ domainSettings)).1 hstored
  have hsplit := splitDomains_join_splitDomains hne
  have hstorable : IsStorable (Text.join [','] (splitDomains value)) := by
    refine isStorable_of_forall fun c hc => ?_
    rcases Text.mem_join hc with hc | ⟨d, hd, hc⟩
    · obtain rfl := List.mem_singleton.1 hc
      rfl
    · exact hblank d hd c hc
  have hafter := (run_configSet hargs (Setting.ofFlag?_flag .githubDomains) hstored hcontent).1
  have hholds : (run state args).1.surroundings.HoldsText (some (Surroundings.contentWith content
      .githubDomains (Text.join [','] (splitDomains value)))) := by
    rw [hafter]
    exact Surroundings.holdsText_contentWith _ content _ _
  refine ⟨_, hholds.load_eq, ?_⟩
  -- The entry in the file counts, as the environment has none.
  have hfile : Table.get? Setting.githubDomains.envName ((storedIn content).insert
      Setting.githubDomains.envName (Text.join [','] (splitDomains value))) =
        some (Text.join [','] (splitDomains value)) := by
    rw [Table.get?_insert, if_pos rfl]
  show splitDomains (Surroundings.resolved _ _ .githubDomains).value = _
  rw [Surroundings.storedIn_contentWith content .githubDomains hstorable,
    Surroundings.resolved_of_file (by rw [hafter]; exact henv) hfile]
  exact hsplit

/-- **What a run sets is recognised afterwards.** When the domains of GitHub are set, the settings
that are read from the file have the domains of the value. A host that names one of them, with or
without the mark of a web server and whatever the case it is written in, is recognised in the URLs
of its repositories, and version control serves every dependency with such a URL under its own
name, unless the URL is that of an archive. -/
theorem isServed_of_setsDomains {state : State} {args : List Text} {value : Text}
    (h : SetsDomains state.surroundings args value) :
    ∃ settings, (run state args).1.surroundings.load = .ok settings ∧
      settings.domains.github = splitDomains value ∧
      ∀ d ∈ splitDomains value, Asset.IsBare d → ∀ host, Asset.Names host d →
        ∀ owner repository, Asset.IsPathPart owner → Asset.IsPathPart repository →
          ∀ url ∈ Asset.repositoryUrls host owner repository,
            Asset.IsServed settings.domains url := by
  obtain ⟨settings, hload, hdomains⟩ := exists_load_of_setsDomains h
  refine ⟨settings, hload, hdomains, fun d hd hbare host hhost owner repository howner
    hrepository url hurl => ?_⟩
  exact Asset.isServed_of_mem_repositoryUrls (hdomains ▸ hd)
    (isListed_of_mem_splitDomains hd).ne_nil hbare hhost howner hrepository hurl

/-- A list with blanks around its domains, capitals, and nothing between two of its commas. -/
def mixedDomains : Text := " GHE.example.com ,, Git.Example.org".toList

/-- Sets the domains to that list. -/
def domainsArgs : List Text :=
  ["config".toList, "set".toList, "github-domains".toList, mixedDomains]

/-- A host in other letters and with the mark of a web server names the first of the domains. -/
theorem isServed_of_setsDomains_mixedDomains :
    SetsDomains ⟨some (Text.encode Surroundings.mixedFile), [], .empty⟩ domainsArgs mixedDomains ∧
    Asset.IsBare "ghe.example.com".toList ∧
    Asset.Names "WWW.Ghe.Example.com".toList "ghe.example.com".toList ∧
    ∃ settings, (run ⟨⟨some (Text.encode Surroundings.mixedFile), [], .empty⟩, .usual⟩
        domainsArgs).1.surroundings.load = .ok settings ∧
      settings.domains.github = ["ghe.example.com".toList, "git.example.org".toList] ∧
      ∀ url ∈ Asset.repositoryUrls "WWW.Ghe.Example.com".toList "owner".toList "lib".toList,
        Asset.IsServed settings.domains url := by
  have hdomains : splitDomains mixedDomains =
      ["ghe.example.com".toList, "git.example.org".toList] := by decide +kernel
  let state : State := ⟨⟨some (Text.encode Surroundings.mixedFile), [], .empty⟩, .usual⟩
  have hsets : SetsDomains state.surroundings domainsArgs mixedDomains := by
    have hread : Request.read .config ["set".toList, "github-domains".toList, mixedDomains] =
        .run (.configSet "github-domains".toList mixedDomains) := rfl
    refine ⟨exists_read_eq_configSet_iff.1 ⟨false, .config, _, rfl, hread⟩,
      ⟨"ghe.example.com,git.example.org".toList, ?_⟩, ?_, ⟨some Surroundings.mixedFile, rfl⟩, rfl⟩
    · rw [Setting.normalize, hdomains]
      rfl
    · rw [hdomains]
      intro d hd
      simp only [List.mem_cons, List.not_mem_nil, or_false] at hd
      rcases hd with rfl | rfl <;> exact List.all_iff_forall_prop.1 rfl
  have hbare : Asset.IsBare "ghe.example.com".toList := ⟨rfl, by decide, by decide⟩
  have hnames : Asset.Names "WWW.Ghe.Example.com".toList "ghe.example.com".toList :=
    .inr (by decide +kernel)
  have hpart : ∀ s ∈ ["owner".toList, "lib".toList], Asset.IsPathPart s := by
    rintro s hs
    simp only [List.mem_cons, List.not_mem_nil, or_false] at hs
    rcases hs with rfl | rfl <;> exact ⟨by decide, by decide, by decide⟩
  obtain ⟨settings, hload, hgithub, hserved⟩ := isServed_of_setsDomains hsets
  rw [hdomains] at hgithub hserved
  exact ⟨hsets, hbare, hnames, settings, hload, hgithub, hserved _ List.mem_cons_self hbare _
    hnames _ _ (hpart _ List.mem_cons_self) (hpart _ (List.mem_cons_of_mem _ List.mem_cons_self))⟩

end Cli

end AssetBridge
