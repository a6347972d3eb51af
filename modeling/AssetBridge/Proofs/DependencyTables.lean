import AssetBridge.Proofs.Provision
import AssetBridge.Proofs.Tables

/-!
# Tables of dependencies

A table of dependencies is converted entry by entry. Different entries can end up under one package:
an alias renames its dependency, a scope is joined to the name, and a download gets a new name. The
last of them sets the constraint, in the place of the first. An entry whose constraint restates its
name requires nothing, so it disturbs no entry before it, but its repository stays.

## Main definitions

* `specifiers`: the entries of a table that are specifiers
* `Translated`: an entry that is resolved and whose version is translated
* `Requirements.update`: requirements with others written over them

## Main results

* `outcome_convertDependencies_append`: a table may be converted part by part
* `convertDependencies_translated`: what is required of a table whose entries can be translated, and
  where it is looked for
-/

namespace AssetBridge.Asset

/-! ## Requirements in parts -/

namespace Requirements

/-- Requirements with others written over them. -/
def update (r s : Requirements) : Requirements where
  require := r.require.insertAll s.require
  repositories := r.repositories ++ s.repositories

theorem require_foldl_add {r : Requirements} {cs : List Contribution} :
    (cs.foldl add r).require =
      r.require.insertAll (cs.flatMap fun c => c.requirement.toList) := by
  induction cs generalizing r with
  | nil => rfl
  | cons c cs ih =>
    rw [List.foldl_cons, ih, List.flatMap_cons, Table.insertAll_append]
    rfl

/-- **The required packages** are those of the entries, written one after the other. -/
theorem require_ofContributions (cs : List Contribution) : (ofContributions cs).require =
    Table.ofList (cs.flatMap fun c => c.requirement.toList) :=
  require_foldl_add

/-- Adding entries is writing over what they add up to on their own. -/
theorem foldl_add_eq_update (r : Requirements) (cs : List Contribution) :
    cs.foldl add r = r.update (ofContributions cs) := by
  have hempty : (Table.keys ([] : Table Text)).Nodup := List.nodup_nil
  have hrequire : (cs.foldl add r).require = r.require.insertAll (ofContributions cs).require := by
    rw [require_foldl_add, require_ofContributions, Table.ofList,
      Table.insertAll_insertAll hempty]
    rfl
  have hrepositories :
      (cs.foldl add r).repositories = r.repositories ++ (ofContributions cs).repositories := by
    rw [repositories_foldl_add, repositories_ofContributions]
  rw [update, ← hrequire, ← hrepositories]

end Requirements

/-- **A table may be converted part by part**: what a later part requires is written over what the
earlier part requires. -/
theorem outcome_convertDependencies_append (context : Context) (D₁ D₂ : Table Json) :
    (convertDependencies context (D₁ ++ D₂)).outcome =
      (convertDependencies context D₁).outcome >>= fun r₁ =>
        (convertDependencies context D₂).outcome >>= fun r₂ => .ok (r₁.update r₂) := by
  simp only [convertDependencies, Trail.outcome_map, Trail.outcome_mapM]
  rw [List.mapM_append]
  cases D₁.mapM fun e => (convertEntry context e).outcome with
  | error e => rfl
  | ok a =>
    cases D₂.mapM fun e => (convertEntry context e).outcome with
    | error e => rfl
    | ok b =>
      show Except.ok _ = Except.ok _
      rw [Requirements.ofContributions_append, Requirements.foldl_add_eq_update]

/-! ## Entries that are translated -/

/-- The entries of a table that are specifiers, each with its name. -/
def specifiers (D : Table Json) : Table Text :=
  D.filterMap fun e => e.2.text?.map fun specifier => (e.1, specifier)

/-- An entry that is resolved and whose version is translated. -/
structure Translated (context : Context) where
  name : Text
  specifier : Text
  resolved : Resolved
  constraint : Text
  outcome_resolve : (resolve context ⟨name, specifier⟩).outcome = .ok resolved
  convertRange_version : Source.convertRange resolved.version = .ok constraint

namespace Translated

variable {context : Context}

/-- The entry itself. -/
def entry (t : Translated context) : Text × Text := (t.name, t.specifier)

/-- The package that stands for the entry. -/
def key (t : Translated context) : Text := context.kind.vendorPrefix ++ t.resolved.name

/-- Whether the entry requires its package: its constraint does not restate the name. -/
def isKept (t : Translated context) : Bool := !Text.startsWith t.resolved.name t.constraint

/-- What the entry contributes. -/
def contributed (t : Translated context) : Contribution :=
  contribution context.kind t.resolved t.constraint

theorem outcome_convertEntry_entry (t : Translated context) :
    (convertEntry context (t.name, .str t.specifier)).outcome = .ok t.contributed := by
  rw [outcome_convertEntry, t.outcome_resolve, Except.ok_bind, t.convertRange_version]
  rfl

/-- The requirements of entries are those that are kept. -/
theorem flatMap_requirement (ts : List (Translated context)) :
    (ts.map contributed).flatMap (fun c => c.requirement.toList) =
      (ts.filter isKept).map fun t => (t.key, t.constraint) := by
  induction ts with
  | nil => rfl
  | cons t ts ih =>
    rw [List.map_cons, List.flatMap_cons, ih, List.filter_cons, contributed, contribution, isKept]
    cases Text.startsWith t.resolved.name t.constraint <;> rfl

/-- A located dependency has a repository exactly when its version speaks of a URL. -/
theorem isSome_repository_of_checkUrl {d : Dependency} {located : Resolved}
    (h : (checkUrl context d).outcome = .ok located) :
    located.repository.isSome = Kind.mentionsUrl d.version := by
  unfold checkUrl at h
  split at h
  · rename_i hurl
    rw [hurl]
    simp only at h
    split at h
    · obtain rfl := Except.ok.inj h
      rfl
    · simp only [Trail.outcome_bind, Trail.outcome_note, Trail.outcome_ofExcept,
        Trail.outcome_pure] at h
      obtain ⟨-, -, h⟩ := Except.exists_of_bind_eq_ok h
      obtain ⟨found, -, h⟩ := Except.exists_of_bind_eq_ok h
      obtain rfl := Except.ok.inj h
      rfl
  · rename_i hurl
    obtain rfl := Except.ok.inj h
    exact (Bool.eq_false_iff.2 hurl).symm

/-- **An entry has a repository** exactly when its specifier speaks of a URL, as its kind reads
it. -/
theorem isSome_repository (t : Translated context) : t.resolved.repository.isSome =
    Kind.mentionsUrl (context.kind.prepareVersion t.specifier) := by
  have h := t.outcome_resolve
  rw [outcome_resolve_eq_bind] at h
  obtain ⟨located, hlocated, h⟩ := Except.exists_of_bind_eq_ok h
  obtain ⟨renamed, -, h⟩ := Except.exists_of_bind_eq_ok h
  obtain ⟨version, -, h⟩ := Except.exists_of_bind_eq_ok h
  -- Nothing after the location changes the repository.
  rw [← Except.ok.inj h]
  exact isSome_repository_of_checkUrl hlocated

/-- The entries that are kept under the key of a package are those with its name. -/
theorem isKept_and_key_eq_iff (t : Translated context) (m : Text) :
    t.isKept = true ∧ t.key = context.kind.vendorPrefix ++ m ↔
      t.resolved.name = m ∧ Text.startsWith m t.constraint = false := by
  rw [key, List.append_cancel_left_eq, isKept, Bool.not_eq_true', and_comm]
  exact and_congr_right fun hname => by rw [hname]

end Translated

/-! ## Whole tables -/

section Tables

variable {context : Context} {D : Table Json}

/-- A value that is no text adds nothing. -/
theorem outcome_convertEntry_of_text?_eq_none {e : Text × Json} (h : e.2.text? = none) :
    (convertEntry context e).outcome = .ok {} := by
  obtain ⟨name, value⟩ := e
  cases value with
  | str specifier => cases h
  | null | bool _ | int _ | real _ | arr _ | obj _ => rfl

theorem Requirements.add_empty (r : Requirements) : r.add {} = r := by
  show Requirements.mk r.require (r.repositories ++ []) = r
  rw [List.append_nil]

/-- A table whose specifiers can all be translated is converted, and its requirements are what the
specifiers add up to. -/
theorem exists_translated (h : ∀ name specifier, (name, .str specifier) ∈ D →
    ∃ d constraint, (resolve context ⟨name, specifier⟩).outcome = .ok d ∧
      Source.convertRange d.version = .ok constraint) :
    ∃ ts : List (Translated context), ts.map Translated.entry = specifiers D ∧
      (convertDependencies context D).outcome =
        .ok (Requirements.ofContributions (ts.map Translated.contributed)) := by
  suffices hsteps : ∃ (ts : List (Translated context)) (cs : List Contribution),
      ts.map Translated.entry = specifiers D ∧
      (D.mapM fun e => (convertEntry context e).outcome) = .ok cs ∧
      ∀ r : Requirements, cs.foldl .add r = (ts.map Translated.contributed).foldl .add r by
    obtain ⟨ts, cs, hts, hcs, hsame⟩ := hsteps
    refine ⟨ts, hts, ?_⟩
    rw [convertDependencies, Trail.outcome_map, Trail.outcome_mapM, hcs]
    exact congrArg Except.ok (hsame {})
  -- Induction on the entries: a specifier adds one to both lists, another value an empty
  -- contribution.
  induction D with
  | nil => exact ⟨[], [], rfl, rfl, fun r => rfl⟩
  | cons e D ih =>
    obtain ⟨ts, cs, hts, hcs, hsame⟩ :=
      ih fun name specifier hm => h name specifier (List.mem_cons_of_mem e hm)
    cases htext : e.2.text? with
    | none =>
      refine ⟨ts, {} :: cs, ?_, ?_, fun r => ?_⟩
      · rw [hts, specifiers, specifiers, List.filterMap_cons, htext, Option.map_none]
      · rw [List.mapM_cons, outcome_convertEntry_of_text?_eq_none htext, hcs]
        rfl
      · rw [List.foldl_cons, Requirements.add_empty]
        exact hsame r
    | some specifier =>
      obtain ⟨name, value⟩ := e
      obtain rfl : value = .str specifier := by
        cases value with
        | str s => exact congrArg Json.str (Option.some.inj htext)
        | null | bool _ | int _ | real _ | arr _ | obj _ => cases htext
      obtain ⟨d, constraint, hd, hconstraint⟩ := h name specifier List.mem_cons_self
      let t : Translated context := ⟨name, specifier, d, constraint, hd, hconstraint⟩
      refine ⟨t :: ts, t.contributed :: cs, ?_, ?_, fun r => ?_⟩
      · rw [List.map_cons, hts]
        rfl
      · rw [List.mapM_cons, t.outcome_convertEntry_entry, hcs]
        rfl
      · exact hsame _

/-- **A table of dependencies** whose specifiers can all be translated is converted entry by entry.
The repositories are those of the specifiers in their order, one for each that speaks of a URL,
whether its entry is kept or not. A package is required under the constraint of its last entry that
is kept, in the place of its first one. What two parts of the table require on their own gives what
the table requires, the later part written over the earlier one. -/
theorem convertDependencies_translated (h : ∀ name specifier, (name, .str specifier) ∈ D →
    ∃ d constraint, (resolve context ⟨name, specifier⟩).outcome = .ok d ∧
      Source.convertRange d.version = .ok constraint) :
    ∃ (ts : List (Translated context)) (r : Requirements),
      ts.map Translated.entry = specifiers D ∧
      (convertDependencies context D).outcome = .ok r ∧
      r.repositories = ts.flatMap (fun t => t.resolved.repository.toList) ∧
      (∀ t ∈ ts, t.resolved.repository.isSome =
        Kind.mentionsUrl (context.kind.prepareVersion t.specifier)) ∧
      r.require.keys = ((ts.filter Translated.isKept).map Translated.key).eraseDups ∧
      (∀ m, r.require.get? (context.kind.vendorPrefix ++ m) =
        (ts.reverse.find? fun t => t.resolved.name = m ∧ Text.startsWith m t.constraint = false).map
          Translated.constraint) ∧
      ∀ D₁ D₂, D = D₁ ++ D₂ → ∃ r₁ r₂, (convertDependencies context D₁).outcome = .ok r₁ ∧
        (convertDependencies context D₂).outcome = .ok r₂ ∧ r = r₁.update r₂ := by
  obtain ⟨ts, hts, houtcome⟩ := exists_translated h
  have hrequire : (Requirements.ofContributions (ts.map Translated.contributed)).require =
      Table.ofList ((ts.filter Translated.isKept).map fun t => (t.key, t.constraint)) := by
    rw [Requirements.require_ofContributions, Translated.flatMap_requirement]
  refine ⟨ts, _, hts, houtcome, ?_, fun t _ => t.isSome_repository, ?_, fun m => ?_, ?_⟩
  · rw [Requirements.repositories_ofContributions, List.flatMap_map]
    rfl
  · rw [hrequire, Table.keys_ofList, Table.keys, List.map_map]
    rfl
  · rw [hrequire, Table.get?_ofList, ← List.map_reverse, ← List.filter_reverse, Table.get?_map,
      List.find?_filter]
    refine congrArg (Option.map Translated.constraint) (congrArg (List.find? · ts.reverse) ?_)
    funext t
    rw [decide_eq_decide, decide_eq_true_iff]
    exact t.isKept_and_key_eq_iff m
  · rintro D₁ D₂ rfl
    rw [outcome_convertDependencies_append] at houtcome
    obtain ⟨r₁, hr₁, houtcome⟩ := Except.exists_of_bind_eq_ok houtcome
    obtain ⟨r₂, hr₂, houtcome⟩ := Except.exists_of_bind_eq_ok houtcome
    exact ⟨r₁, r₂, hr₁, hr₂, (Except.ok.inj houtcome).symm⟩

end Tables

/-- An alias that writes over the dependency which it names, a value that is no specifier, and a
version that restates the name of its dependency. -/
def colliding : Table Json :=
  [("lib".toList, .str "^1.2.0".toList), ("private".toList, .bool true),
    ("alias".toList, .str "lib#*".toList),
    ("1".toList, .str "https://github.com/o/r.git#1.0".toList)]

theorem convertDependencies_translated_colliding :
    ∃ (ts : List (Translated ⟨.npm, none, {}⟩)) (r : Requirements),
      ts.map Translated.entry = specifiers colliding ∧
      (convertDependencies ⟨.npm, none, {}⟩ colliding).outcome = .ok r ∧
      r = ⟨[("npm-asset/lib".toList, "*".toList)],
        [.vcs .npm "https://github.com/o/r.git".toList "npm-asset/1".toList]⟩ ∧
      r.repositories = ts.flatMap (fun t => t.resolved.repository.toList) ∧
      r.require.keys = ((ts.filter Translated.isKept).map Translated.key).eraseDups ∧
      r.require.get? "npm-asset/lib".toList =
        (ts.reverse.find? fun t => t.resolved.name = "lib".toList ∧
          Text.startsWith "lib".toList t.constraint = false).map Translated.constraint := by
  have hspecifiers : ∀ name specifier, (name, .str specifier) ∈ colliding →
      ∃ d constraint, (resolve ⟨.npm, none, {}⟩ ⟨name, specifier⟩).outcome = .ok d ∧
        Source.convertRange d.version = .ok constraint := by
    intro name specifier hm
    simp only [colliding, List.mem_cons, Prod.mk.injEq, Json.str.injEq, reduceCtorEq, and_false,
      false_or, List.not_mem_nil, or_false] at hm
    obtain ⟨rfl, rfl⟩ | ⟨rfl, rfl⟩ | ⟨rfl, rfl⟩ := hm <;> exact ⟨_, _, rfl, rfl⟩
  obtain ⟨ts, r, hts, houtcome, hrepositories, -, hkeys, hget, -⟩ :=
    convertDependencies_translated hspecifiers
  exact ⟨ts, r, hts, houtcome, (Except.ok.inj houtcome).symm, hrepositories, hkeys, hget _⟩

end AssetBridge.Asset
