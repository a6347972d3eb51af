import AssetBridge.Proofs.GithubHosts

/-!
# Settings that are read again

A run that sets a setting reports the value in the form in which it is stored. That form is checked
once, and then written into a file of lines. What is read back is the same value as long as it
stands on one line: the names of kinds and levels do, but a domain may hold a character that ends a
line.

## Main definitions

* `Setting.names`: the names that a setting can hold
* `Cli.IsReread`: surroundings from which a stored value is read again

## Main results

* `Setting.normalize_normalize`: a stored value is accepted and stays as it is
* `Setting.isStorable_of_normalize_iff`: stored values are trimmed
* `Cli.run_configSet_isReread_iff`: what a run reports is what is read again, for values on one line
-/

namespace AssetBridge

/-! ## Stored values -/

namespace Setting

variable {s : Setting} {value stored : Text}

/-- The names that a setting which is no list of domains can hold. -/
def names : Setting → List Text
  | assetType => Asset.Kind.all.map Asset.Kind.name
  | logLevel => Level.ofEvents.map Level.name
  | githubDomains | gitlabDomains => []

theorem mem_names_of_normalize (hs : s ∉ domainSettings) (h : s.normalize value = .ok stored) :
    stored ∈ s.names := by
  cases s with
  | assetType =>
    simp only [normalize] at h
    split at h
    · rename_i hname
      obtain rfl := Except.ok.inj h
      exact Text.isOneOf_iff.1 hname
    · cases h
  | logLevel =>
    simp only [normalize] at h
    split at h
    · rename_i name hname
      obtain rfl := Except.ok.inj h
      exact List.mem_of_find?_eq_some hname
    · cases h
  | githubDomains => exact absurd List.mem_cons_self hs
  | gitlabDomains => exact absurd (List.mem_cons_of_mem _ List.mem_cons_self) hs

/-- A name is accepted as it stands. -/
theorem normalize_of_mem_names {name : Text} (h : name ∈ s.names) :
    s.normalize name = .ok name := by
  cases s with
  | assetType => exact if_pos (Text.isOneOf_iff.2 h)
  | logLevel =>
    -- The capitals that a level is looked up in are what its name is written in.
    have hnames : ∀ name ∈ Level.ofEvents.map Level.name, levelName? name = some name := by
      decide +kernel
    rw [normalize, hnames name h]
  | githubDomains => cases h
  | gitlabDomains => cases h

theorem isStorable_of_mem_names {name : Text} (h : name ∈ s.names) : IsStorable name := by
  have hnames : ∀ s : Setting, ∀ name ∈ s.names, IsStorable name := by
    intro s
    cases s <;> decide +kernel
  exact hnames s name h

/-- **A stored value is accepted** and stays as it is. -/
theorem normalize_normalize (h : s.normalize value = .ok stored) :
    s.normalize stored = .ok stored := by
  by_cases hs : s ∈ domainSettings
  · rw [normalize_eq_ok_iff_of_mem_domainSettings hs] at h ⊢
    obtain ⟨hne, rfl⟩ := h
    rw [splitDomains_join_splitDomains hne]
    exact ⟨hne, rfl⟩
  · exact normalize_of_mem_names (mem_names_of_normalize hs h)

end Setting

/-- Domains that are joined are trimmed, as the first and the last of them are. -/
theorem isTrimmed_join_splitDomains (value : Text) :
    Text.IsTrimmed (Text.join [','] (splitDomains value)) := by
  have hlisted : ∀ d ∈ splitDomains value, IsListed d := fun _ => isListed_of_mem_splitDomains
  have htrimmed : ∀ d ∈ splitDomains value, Text.IsTrimmed d := fun _ =>
    isTrimmed_of_mem_splitDomains
  generalize splitDomains value = ds at hlisted htrimmed
  cases ds with
  | nil => exact Text.isTrimmed_iff.2 rfl
  | cons d ds =>
    constructor
    · intro c hc
      obtain ⟨e, r, rfl⟩ := List.exists_cons_of_ne_nil (hlisted d List.mem_cons_self).ne_nil
      rw [Text.join_cons] at hc
      exact (htrimmed _ List.mem_cons_self).head c hc
    · intro c hc
      obtain ⟨e, he, hce⟩ := Text.mem_getLast?_join (fun e he => (hlisted e he).ne_nil) hc
      exact (htrimmed e he).last c hce

/-- **A stored value can be stored** when it stands on one line. -/
theorem Setting.isStorable_of_normalize_iff {s : Setting} {value stored : Text}
    (h : s.normalize value = .ok stored) :
    IsStorable stored ↔ ∀ c ∈ stored, Text.isLineBoundary c = false := by
  constructor
  · exact fun hstorable => (isStorable_ofText_iff.1 hstorable).2
  · intro hline
    by_cases hs : s ∈ domainSettings
    · obtain ⟨-, rfl⟩ := (normalize_eq_ok_iff_of_mem_domainSettings hs).1 h
      exact isStorable_ofText_iff.2 ⟨isTrimmed_join_splitDomains value, hline⟩
    · exact isStorable_of_mem_names (mem_names_of_normalize hs h)

/-! ## Reading it again -/

namespace Surroundings

variable {environment stored : Table Text} {s t : Setting} {value : Text}

theorem get?_of_resolved_eq (h : resolved environment stored s = ⟨s, value, .file⟩) :
    stored.get? s.envName = some value := by
  have hvalue := (isResolved_resolved environment stored s).value_eq
  rwa [h] at hvalue

theorem resolved_insert_of_ne (h : t ≠ s) :
    resolved environment (stored.insert s.envName value) t = resolved environment stored t := by
  have hname : s.envName ≠ t.envName := fun he => h (Setting.envName_inj he).symm
  rw [resolved, resolved, Table.get?_insert, if_neg hname]

/-- A value that is read from the file stands on one line. -/
theorem isLineBoundary_eq_false_of_resolved {content : Option Text}
    (h : resolved environment (storedIn content) s = ⟨s, value, .file⟩) :
    ∀ c ∈ value, Text.isLineBoundary c = false := by
  intro c hc
  have hentry := (isStored_storedIn content).isEntry _ (Table.mem_of_get?_eq_some
    (get?_of_resolved_eq h))
  exact hentry.on_one_line c (List.mem_append_right _ hc)

end Surroundings

namespace Cli

/-- **A stored value is read again**: it is the value of its setting and comes from the file, the
other settings are what they were, and every run that sets the setting to this value reports the
same value and leaves everything as it is. -/
structure IsReread (before after : Surroundings) (s : Setting) (flag stored : Text) : Prop where
  getKey_eq : after.getKey s.key = .ok ⟨s, stored, .file⟩
  getKey_of_ne : ∀ t, t ≠ s → after.getKey t.key = before.getKey t.key
  run_again : ∀ state args, state.surroundings = after → IsConfigSet args flag stored →
    (run state args).1.surroundings = after ∧
      (run state args).2 = { exit := .ok 0, out := [.line (storedLine flag stored)] }

variable {w : Surroundings} {flag value stored : Text} {s : Setting} {content : Option Text}

/-- The surroundings once a value has been stored. -/
def storing (w : Surroundings) (content : Option Text) (s : Setting) (stored : Text) :
    Surroundings :=
  { w with settings := some (Text.encode (Surroundings.contentWith content s stored)) }

theorem holdsText_storing (w : Surroundings) (content : Option Text) (s : Setting)
    (stored : Text) :
    (storing w content s stored).HoldsText (some (Surroundings.contentWith content s stored)) :=
  Surroundings.holdsText_contentWith w content s stored

/-- A value that can be stored is read again. -/
theorem isReread_of_isStorable (hs : Setting.ofFlag? flag = some s)
    (hstored : s.normalize value = .ok stored) (hcontent : w.HoldsText content)
    (henv : w.environment.get? s.envName = none) (h : IsStorable stored) :
    IsReread w (storing w content s stored) s flag stored := by
  have hholds := holdsText_storing w content s stored
  have hread := Surroundings.storedIn_contentWith content s h
  constructor
  · have henv' : (storing w content s stored).environment.get? s.envName = none := henv
    have hfile : ((storedIn content).insert s.envName stored).get? s.envName = some stored := by
      rw [Table.get?_insert, if_pos rfl]
    rw [hholds.getKey_eq, hread, Surroundings.resolved_of_file henv' hfile]
  · intro t ht
    rw [hholds.getKey_eq, hcontent.getKey_eq, hread, Surroundings.resolved_insert_of_ne ht]
    rfl
  · rintro state args hstate hargs
    have hagain := run_configSet hargs hs (Setting.normalize_normalize hstored)
      (hstate ▸ hholds)
    refine ⟨?_, hagain.2⟩
    rw [hagain.1, hstate, Surroundings.contentWith, hread, Table.insert_insert]
    rfl

/-- **What a run reports is what is read again.** When a setting is set to a value that it accepts,
nothing in the environment overrides it and the settings file, if there is one, is a text, the run
reports the value as it is stored. The value is read again exactly when no character of it ends a
line, and always when the setting is no list of domains. -/
theorem run_configSet_isReread_iff {state : State} {args : List Text}
    (hargs : IsConfigSet args flag value) (hs : Setting.ofFlag? flag = some s)
    (hstored : s.normalize value = .ok stored) (hcontent : state.surroundings.HoldsText content)
    (henv : state.surroundings.environment.get? s.envName = none) :
    (run state args).2 = { exit := .ok 0, out := [.line (storedLine flag stored)] } ∧
      (IsReread state.surroundings (run state args).1.surroundings s flag stored ↔
        ∀ c ∈ stored, Text.isLineBoundary c = false) ∧
      (s ∉ domainSettings →
        IsReread state.surroundings (run state args).1.surroundings s flag stored) := by
  obtain ⟨hafter, hreport⟩ := run_configSet hargs hs hstored hcontent
  rw [hafter]
  refine ⟨hreport, ⟨fun h => ?_, fun h => ?_⟩, fun h => ?_⟩
  · have hkey := h.getKey_eq
    rw [← storing, (holdsText_storing _ content s stored).getKey_eq] at hkey
    exact Surroundings.isLineBoundary_eq_false_of_resolved (Except.ok.inj hkey)
  · exact isReread_of_isStorable hs hstored hcontent henv
      ((Setting.isStorable_of_normalize_iff hstored).2 h)
  · exact isReread_of_isStorable hs hstored hcontent henv
      (Setting.isStorable_of_mem_names (Setting.mem_names_of_normalize h hstored))

/-- A command line that sets the domains of GitHub, whatever the value opens with. -/
def githubArgs (value : Text) : List Text :=
  ["config".toList, "set".toList, "--".toList, "github-domains".toList, value]

theorem isConfigSet_githubArgs (value : Text) :
    IsConfigSet (githubArgs value) "github-domains".toList value := by
  have hconfig : IsPlain "config".toList := .inl (by simp)
  have hset : IsPlain "set".toList := .inl (by simp)
  exact ⟨_, _, .last hconfig _, .last hset _, .marked true _⟩

/-- A state without a settings file and with an empty environment. -/
def bareState : State := ⟨⟨none, [], .empty⟩, .usual⟩

/-- Domains with a blank inside and capitals are read again in the form in which they are stored. -/
theorem run_configSet_isReread_iff_spaced :
    IsConfigSet (githubArgs " Git Hub.ORG ,,Ä".toList) "github-domains".toList
      " Git Hub.ORG ,,Ä".toList ∧
    Setting.githubDomains.normalize " Git Hub.ORG ,,Ä".toList = .ok "git hub.org,ä".toList ∧
    (run bareState (githubArgs " Git Hub.ORG ,,Ä".toList)).2 = { exit := .ok 0, out :=
      [.line (storedLine "github-domains".toList "git hub.org,ä".toList)] } ∧
    IsReread bareState.surroundings
      (run bareState (githubArgs " Git Hub.ORG ,,Ä".toList)).1.surroundings .githubDomains
      "github-domains".toList "git hub.org,ä".toList := by
  have hargs := isConfigSet_githubArgs " Git Hub.ORG ,,Ä".toList
  have hstored : Setting.githubDomains.normalize " Git Hub.ORG ,,Ä".toList =
      .ok "git hub.org,ä".toList := Except.eq_ok_of_toOption (by decide +kernel)
  have hholds : bareState.surroundings.HoldsText none := rfl
  obtain ⟨hreport, hreread, -⟩ := run_configSet_isReread_iff hargs rfl hstored hholds rfl
  exact ⟨hargs, hstored, hreport, hreread.2 (List.all_iff_forall_prop.1 rfl)⟩

/-- A domain with a line feed in it is reported, but only what stands in front of the line feed is
read again. -/
theorem run_configSet_not_isReread :
    IsConfigSet (githubArgs "a\nb".toList) "github-domains".toList "a\nb".toList ∧
    Setting.githubDomains.normalize "a\nb".toList = .ok "a\nb".toList ∧
    (run bareState (githubArgs "a\nb".toList)).2 =
      { exit := .ok 0, out := [.line (storedLine "github-domains".toList "a\nb".toList)] } ∧
    (run bareState (githubArgs "a\nb".toList)).1.surroundings.getKey "github_domains".toList =
      .ok ⟨.githubDomains, "a".toList, .file⟩ := by
  have hargs := isConfigSet_githubArgs "a\nb".toList
  have hstored : Setting.githubDomains.normalize "a\nb".toList = .ok "a\nb".toList :=
    Except.eq_ok_of_toOption (by decide +kernel)
  have hholds : bareState.surroundings.HoldsText none := rfl
  refine ⟨hargs, hstored, (run_configSet hargs rfl hstored hholds).2, ?_⟩
  exact Except.eq_ok_of_toOption (by decide +kernel)

end Cli

end AssetBridge
