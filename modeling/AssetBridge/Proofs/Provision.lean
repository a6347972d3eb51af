import AssetBridge.Asset.Requirements
import AssetBridge.Proofs.Outcomes

/-!
# Repositories and requirements

A dependency with a URL brings a repository along, which provides a package by name. The package is
required behind the vendor prefix, whatever its name is. The repository provides a qualified name
instead, which has no prefix when the name mentions a URL or has the prefix already, so only for
other names the package that is required is the one that is provided.

The requirements of a manifest are what its entries contribute one after the other. An entry adds
its key and its repository, and takes none away.

## Main definitions

* `Kind.IsUnqualified`: the names that qualifying puts behind the vendor prefix

## Main results

* `Requirements.mem_keys_ofContributions`, `Requirements.repositories_ofContributions`: what the
  entries add up to
* `provides_of_resolve`: a repository provides the qualified name of its dependency
* `convertDependencies_provides`: when the required package is the provided one
-/

namespace AssetBridge.Asset

/-! ## Qualified names -/

namespace Kind

variable {kind : Kind} {name : Text}

/-- A name that neither mentions a URL nor has the vendor prefix. -/
def IsUnqualified (kind : Kind) (name : Text) : Prop :=
  mentionsUrl name = false ∧ Text.startsWith kind.vendorPrefix name = false

/-- Only such a name is qualified by the prefix: every other one stays as it is, and is shorter. -/
theorem qualify_eq_append_iff :
    kind.qualify name = kind.vendorPrefix ++ name ↔ kind.IsUnqualified name := by
  by_cases h : (mentionsUrl name || Text.startsWith kind.vendorPrefix name) = true
  · rw [qualify, if_pos h]
    constructor
    · intro he
      have hlen := congrArg List.length he
      rw [List.length_append] at hlen
      have hprefix : 0 < kind.vendorPrefix.length := by cases kind <;> decide
      omega
    · rintro ⟨hurl, hstarts⟩
      rw [hurl, hstarts] at h
      cases h
  · rw [qualify, if_neg h]
    rw [Bool.not_eq_true, Bool.or_eq_false_iff] at h
    exact iff_of_true rfl h

end Kind

/-! ## What the entries add up to -/

namespace Requirements

variable {r : Requirements} {c : Contribution} {key : Text}

/-- An entry adds the key of its requirement, and no key is lost. -/
theorem mem_keys_add : key ∈ (r.add c).require.keys ↔
    key ∈ r.require.keys ∨ ∃ constraint, c.requirement = some (key, constraint) := by
  obtain ⟨requirement, repository⟩ := c
  cases requirement with
  | none =>
    show key ∈ r.require.keys ↔ _
    simp
  | some entry =>
    obtain ⟨k, constraint⟩ := entry
    show key ∈ (r.require.insert k constraint).keys ↔ _
    rw [Table.mem_keys_insert]
    simp [eq_comm]

theorem mem_keys_foldl_add {cs : List Contribution} : key ∈ (cs.foldl add r).require.keys ↔
    key ∈ r.require.keys ∨ ∃ c ∈ cs, ∃ constraint, c.requirement = some (key, constraint) := by
  -- Induction on the entries: the first one is added before the others.
  induction cs generalizing r with
  | nil => simp
  | cons c cs ih =>
    rw [List.foldl_cons, ih, mem_keys_add]
    simp only [List.mem_cons, exists_eq_or_imp, or_assoc]

/-- **The required packages** are those that the entries require. -/
theorem mem_keys_ofContributions {cs : List Contribution} :
    key ∈ (ofContributions cs).require.keys ↔
      ∃ c ∈ cs, ∃ constraint, c.requirement = some (key, constraint) := by
  rw [ofContributions, mem_keys_foldl_add]
  have hnone : key ∉ ({} : Requirements).require.keys := List.not_mem_nil
  simp only [hnone, false_or]

theorem repositories_foldl_add {cs : List Contribution} : (cs.foldl add r).repositories =
    r.repositories ++ cs.flatMap fun c => c.repository.toList := by
  induction cs generalizing r with
  | nil => simp
  | cons c cs ih =>
    rw [List.foldl_cons, ih, List.flatMap_cons, ← List.append_assoc]
    rfl

/-- **The repositories** are those of the entries, in their order. -/
theorem repositories_ofContributions (cs : List Contribution) :
    (ofContributions cs).repositories = cs.flatMap fun c => c.repository.toList :=
  repositories_foldl_add

end Requirements

/-! ## What a repository provides -/

/-- What is behind a URL opens with a hash. -/
theorem exists_splitUrl_eq_cons (s : Text) : ∃ r, (splitUrl s).2 = '#' :: r := by
  have hversion : (splitUrl s).2 = if (s.dropWhile (· != '#')).isEmpty then noVersion
      else s.dropWhile (· != '#') := rfl
  rw [hversion]
  cases hd : s.dropWhile (· != '#') with
  | nil => exact ⟨[], rfl⟩
  | cons c r =>
    have hne : s.dropWhile (· != '#') ≠ [] := by simp [hd]
    have hhead := List.head_dropWhile_not (· != '#') hne
    simp only [hd, List.head_cons, bne_eq_false_iff_eq] at hhead
    exact ⟨r, by rw [hhead]; rfl⟩

/-- A version behind a hash names no other dependency. -/
theorem checkAlias_hash (name r : Text) :
    checkAlias ⟨name, '#' :: r⟩ = .ok ⟨name, '#' :: r⟩ := rfl

/-- **A located dependency** has no repository, or one that provides its qualified name, and a
version behind a hash. -/
theorem spec_of_checkUrl {context : Context} {d : Dependency} {located : Resolved}
    (h : (checkUrl context d).outcome = .ok located) :
    located.repository = none ∨ (∃ r, located.version = '#' :: r) ∧
      ∀ p ∈ located.repository, p.provides = context.kind.qualify located.name := by
  obtain ⟨r, hr⟩ := exists_splitUrl_eq_cons d.version
  unfold checkUrl at h
  split at h
  · refine .inr ?_
    simp only at h
    split at h
    · -- version control serves the dependency under its own name
      obtain rfl := Except.ok.inj h
      refine ⟨⟨r, hr⟩, ?_⟩
      rintro p ⟨⟩
      rfl
    · -- or it is downloaded under another one
      simp only [Trail.outcome_bind, Trail.outcome_note, Trail.outcome_ofExcept,
        Trail.outcome_pure] at h
      obtain ⟨-, -, h⟩ := Except.exists_of_bind_eq_ok h
      obtain ⟨found, -, h⟩ := Except.exists_of_bind_eq_ok h
      obtain rfl := Except.ok.inj h
      refine ⟨⟨r, hr⟩, ?_⟩
      rintro p ⟨⟩
      rfl
  · left
    obtain rfl := Except.ok.inj h
    rfl

/-- **The repository of a resolved dependency** provides its qualified name: what renames it before
it is located changes both, and nothing renames it afterwards. -/
theorem provides_of_resolve {context : Context} {d : Dependency} {resolved : Resolved}
    (h : (resolve context d).outcome = .ok resolved) :
    ∀ p ∈ resolved.repository, p.provides = context.kind.qualify resolved.name := by
  rw [outcome_resolve_eq_bind] at h
  obtain ⟨located, hlocated, h⟩ := Except.exists_of_bind_eq_ok h
  obtain ⟨renamed, hrenamed, h⟩ := Except.exists_of_bind_eq_ok h
  obtain ⟨version, -, h⟩ := Except.exists_of_bind_eq_ok h
  obtain rfl := Except.ok.inj h
  intro p hp
  rcases spec_of_checkUrl hlocated with hnone | ⟨⟨r, hr⟩, hprovides⟩
  · rw [hnone] at hp
    cases hp
  · have hsame : checkAlias located.toDependency = .ok located.toDependency := by
      obtain ⟨⟨name, version⟩, repository⟩ := located
      obtain rfl : version = '#' :: r := hr
      exact checkAlias_hash name r
    rw [hsame] at hrenamed
    obtain rfl := Except.ok.inj hrenamed
    exact hprovides p hp

/-! ## Whole tables of dependencies -/

/-- An entry with a specifier is resolved, and then its version is converted. -/
theorem outcome_convertEntry (context : Context) (name specifier : Text) :
    (convertEntry context (name, .str specifier)).outcome =
      (resolve context ⟨name, specifier⟩).outcome >>= fun d =>
        Source.convertRange d.version >>= fun constraint =>
          .ok (contribution context.kind d constraint) := by
  simp only [convertEntry, Trail.outcome_bind, Trail.outcome_ofExcept, Trail.outcome_noteWhen,
    Trail.outcome_pure, Except.ok_bind]

/-- What an entry with a specifier contributes is that of its resolution. -/
theorem exists_of_convertEntry {context : Context} {name specifier : Text} {c : Contribution}
    (h : (convertEntry context (name, .str specifier)).outcome = .ok c) :
    ∃ d constraint, (resolve context ⟨name, specifier⟩).outcome = .ok d ∧
      Source.convertRange d.version = .ok constraint ∧
      c = contribution context.kind d constraint := by
  rw [outcome_convertEntry] at h
  obtain ⟨d, hd, h⟩ := Except.exists_of_bind_eq_ok h
  obtain ⟨constraint, hconstraint, h⟩ := Except.exists_of_bind_eq_ok h
  exact ⟨d, constraint, hd, hconstraint, (Except.ok.inj h).symm⟩

/-- **The required package is the provided one exactly for unqualified names.** When the
dependencies of a manifest are converted, an entry with a specifier is resolved; its repository is
listed, and unless its constraint restates its name, its name behind the vendor prefix is required.
That is the package which the repository provides exactly when the name neither mentions a URL nor
has the prefix already. -/
theorem convertDependencies_provides {context : Context} {dependencies : Table Json}
    {r : Requirements} (h : (convertDependencies context dependencies).outcome = .ok r)
    {name specifier : Text} (hm : (name, .str specifier) ∈ dependencies) :
    ∃ d constraint, (resolve context ⟨name, specifier⟩).outcome = .ok d ∧
      Source.convertRange d.version = .ok constraint ∧
      (Text.startsWith d.name constraint = false →
        context.kind.vendorPrefix ++ d.name ∈ r.require.keys) ∧
      ∀ p ∈ d.repository, p ∈ r.repositories ∧
        (p.provides = context.kind.vendorPrefix ++ d.name ↔
          context.kind.IsUnqualified d.name) := by
  simp only [convertDependencies, Trail.outcome_map, Trail.outcome_mapM] at h
  obtain ⟨cs, hcs, rfl⟩ := Except.exists_of_map_eq_ok h
  obtain ⟨c, hc, hentry⟩ := Except.exists_mem_of_mapM_eq_ok hcs _ hm
  obtain ⟨d, constraint, hd, hconstraint, rfl⟩ := exists_of_convertEntry hentry
  refine ⟨d, constraint, hd, hconstraint, fun hstarts => ?_, fun p hp => ⟨?_, ?_⟩⟩
  · refine Requirements.mem_keys_ofContributions.2 ⟨_, hc, constraint, ?_⟩
    simp [contribution, hstarts]
  · rw [Requirements.repositories_ofContributions, List.mem_flatMap]
    exact ⟨_, hc, Option.mem_toList.2 hp⟩
  · rw [provides_of_resolve hd p hp]
    exact Kind.qualify_eq_append_iff

/-- A repository at GitHub, under an unqualified name. -/
theorem convertDependencies_provides_served :
    (convertDependencies ⟨.npm, none, {}⟩
        [("lib".toList, .str "https://github.com/o/lib.git#1.0.0".toList)]).outcome =
      .ok ⟨[("npm-asset/lib".toList, "1.0.0".toList)],
        [.vcs .npm "https://github.com/o/lib.git".toList "npm-asset/lib".toList]⟩ ∧
    ∃ d constraint, (resolve ⟨.npm, none, {}⟩
        ⟨"lib".toList, "https://github.com/o/lib.git#1.0.0".toList⟩).outcome = .ok d ∧
      Source.convertRange d.version = .ok constraint ∧
      (Text.startsWith d.name constraint = false →
        Kind.npm.vendorPrefix ++ d.name ∈ ["npm-asset/lib".toList]) ∧
      ∀ p ∈ d.repository,
        p ∈ [.vcs .npm "https://github.com/o/lib.git".toList "npm-asset/lib".toList] ∧
        (p.provides = Kind.npm.vendorPrefix ++ d.name ↔ Kind.npm.IsUnqualified d.name) := by
  have h : (convertDependencies ⟨.npm, none, {}⟩
        [("lib".toList, .str "https://github.com/o/lib.git#1.0.0".toList)]).outcome =
      .ok ⟨[("npm-asset/lib".toList, "1.0.0".toList)],
        [.vcs .npm "https://github.com/o/lib.git".toList "npm-asset/lib".toList]⟩ := rfl
  exact ⟨h, convertDependencies_provides h List.mem_cons_self⟩

/-- **A name with the prefix** is required behind a second one, and the repository provides it as it
is: what is required is not what is provided. -/
theorem convertDependencies_not_provided :
    ∃ (r : Requirements) (p : SideRepository),
      (convertDependencies ⟨.bower, none, {}⟩
        [("bower-asset/lib".toList, .str "https://github.com/o/lib.git#1.0.0".toList)]).outcome =
          .ok r ∧
      r.repositories = [p] ∧ p.provides = "bower-asset/lib".toList ∧
      r.require.keys = ["bower-asset/bower-asset/lib".toList] :=
  ⟨⟨[("bower-asset/bower-asset/lib".toList, "1.0.0".toList)],
    [.vcs .bower "https://github.com/o/lib.git".toList "bower-asset/lib".toList]⟩, _, rfl, rfl,
    rfl, rfl⟩

end AssetBridge.Asset
