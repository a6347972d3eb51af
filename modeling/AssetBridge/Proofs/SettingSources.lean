import AssetBridge.Proofs.Outcomes
import AssetBridge.Proofs.StoredSettings

/-!
# Where the values of settings come from

The values of the settings can be asked for in three ways: all at once, one by one, and as a list.
The first lays the file over the defaults and the environment over both, the others look into the
environment, then into the file, and take the default when neither has a value. As long as the file
is a text, all of them give the same values, and name the source that the values are from. A text it
remains, also when writing a setting fails.

## Main definitions

* `Surroundings.Origin.value?`: the value that a setting has at a source
* `Surroundings.Entry.IsResolved`: entries that name their source and have its value
* `Surroundings.Change`, `Surroundings.changeAll`: what happens to the surroundings of a program

## Main results

* `Surroundings.holdsText_changeAll`: the file remains a text
* `Surroundings.changeAll_readers_agree`: all ways of reading give the same values
-/

namespace AssetBridge

theorem Setting.mem_all (s : Setting) : s ∈ all := by cases s <;> decide

namespace Surroundings

/-! ## Sources -/

/-- The value of a setting at a source, if it has one there. -/
def Origin.value? (environment stored : Table Text) (s : Setting) : Origin → Option Text
  | .environment => environment.get? s.envName
  | .file => stored.get? s.envName
  | .default => some s.default

/-- **Entries that are resolved**: the source is the environment exactly when the variable is set,
else the file exactly when it has an entry, else the default, and the value is the one there. -/
structure Entry.IsResolved (e : Entry) (environment stored : Table Text) : Prop where
  environment_iff : e.origin = .environment ↔ e.setting.envName ∈ environment.keys
  file_iff : e.origin = .file ↔
    e.setting.envName ∉ environment.keys ∧ e.setting.envName ∈ stored.keys
  default_iff : e.origin = .default ↔
    e.setting.envName ∉ environment.keys ∧ e.setting.envName ∉ stored.keys
  value_eq : e.origin.value? environment stored e.setting = some e.value

/-- The entry of a setting. -/
def resolved (environment stored : Table Text) (s : Setting) : Entry :=
  match environment.get? s.envName, stored.get? s.envName with
  | some value, _ => ⟨s, value, .environment⟩
  | none, some value => ⟨s, value, .file⟩
  | none, none => ⟨s, s.default, .default⟩

variable {environment stored : Table Text} {s : Setting} {value : Text}

theorem resolved_of_environment (h : environment.get? s.envName = some value) :
    resolved environment stored s = ⟨s, value, .environment⟩ := by
  rw [resolved, h]

theorem resolved_of_file (he : environment.get? s.envName = none)
    (hf : stored.get? s.envName = some value) :
    resolved environment stored s = ⟨s, value, .file⟩ := by
  rw [resolved, he, hf]

theorem resolved_of_default (he : environment.get? s.envName = none)
    (hf : stored.get? s.envName = none) :
    resolved environment stored s = ⟨s, s.default, .default⟩ := by
  rw [resolved, he, hf]

@[simp] theorem resolved_setting (environment stored : Table Text) (s : Setting) :
    (resolved environment stored s).setting = s := by
  unfold resolved
  split <;> rfl

theorem isResolved_resolved (environment stored : Table Text) (s : Setting) :
    (resolved environment stored s).IsResolved environment stored := by
  cases he : environment.get? s.envName with
  | some value =>
    have hm := Table.mem_keys_of_get?_eq_some he
    rw [resolved_of_environment he]
    exact ⟨by simp [hm], by simp [hm], by simp [hm], he⟩
  | none =>
    have hm := Table.get?_eq_none_iff.1 he
    cases hf : stored.get? s.envName with
    | some value =>
      have hmf := Table.mem_keys_of_get?_eq_some hf
      rw [resolved_of_file he hf]
      exact ⟨by simp [hm], by simp [hm, hmf], by simp [hmf], hf⟩
    | none =>
      have hmf := Table.get?_eq_none_iff.1 hf
      rw [resolved_of_default he hf]
      exact ⟨by simp [hm], by simp [hmf], by simp [hm, hmf], rfl⟩

/-! ## Readers -/

variable {w : Surroundings} {content : Option Text}

/-- **One setting** is resolved. -/
theorem HoldsText.get_eq (h : w.HoldsText content) (s : Setting) :
    w.get s = .ok (resolved w.environment (storedIn content) s) := by
  unfold get
  split
  · rename_i value he
    rw [resolved_of_environment he]
  · rename_i he
    rw [h.entries_eq]
    cases hf : (storedIn content).get? s.envName with
    | some value =>
      rw [resolved_of_file he hf]
      simp only [bind, Except.bind, hf]
      rfl
    | none =>
      rw [resolved_of_default he hf]
      simp only [bind, Except.bind, hf]
      rfl

/-- A setting that is asked for by its name is resolved as well. -/
theorem HoldsText.getKey_eq (h : w.HoldsText content) (s : Setting) :
    w.getKey s.key = .ok (resolved w.environment (storedIn content) s) := by
  rw [getKey, Setting.ofKey?_key]
  exact h.get_eq s

/-- **All settings** are resolved one by one. -/
theorem HoldsText.load_eq (h : w.HoldsText content) :
    w.load = .ok fun s => (resolved w.environment (storedIn content) s).value := by
  rw [load, h.entries_eq]
  refine congrArg Except.ok (funext fun s => ?_)
  show (w.environment.get? s.envName).getD (((storedIn content).get? s.envName).getD s.default) = _
  cases he : w.environment.get? s.envName with
  | some value => rw [resolved_of_environment he]; rfl
  | none =>
    cases hf : (storedIn content).get? s.envName with
    | some value => rw [resolved_of_file he hf]; rfl
    | none => rw [resolved_of_default he hf]; rfl

/-- **The list of settings** has the entry of each. -/
theorem HoldsText.list_eq (h : w.HoldsText content) :
    w.list = .ok (Setting.all.map (resolved w.environment (storedIn content))) :=
  Except.mapM_eq_ok fun s _ => h.get_eq s

/-! ## Changes -/

/-- **What happens to the surroundings**: a variable is set or removed, the settings file is
replaced or removed by other means, or a setting is written. -/
inductive Change where
  | setVariable (name : Text) (value : Option Text)
  | write (content : Option Text)
  | set (key : Text) (value : RawText)

/-- The surroundings after a change; what writing a setting leaves counts also when it fails. -/
def change (w : Surroundings) : Change → Surroundings
  | .setVariable name value => w.setVariable name value
  | .write content => { w with settings := content.map Text.encode }
  | .set key value => (w.setKey key value).1

/-- The surroundings after several changes. -/
def changeAll (w : Surroundings) (changes : List Change) : Surroundings := changes.foldl change w

/-- **Writing a setting** leaves a text, whether it goes well or not. -/
theorem HoldsText.exists_setKey (h : w.HoldsText content) (key : Text) (value : RawText) :
    ∃ content', (w.setKey key value).1.HoldsText content' := by
  rw [setKey, h.entries_eq]
  cases Setting.ofKey? key with
  | none => exact ⟨content, h⟩
  | some s =>
    show ∃ content', (w.set s value).1.HoldsText content'
    by_cases hv : value.IsText
    · obtain ⟨text, rfl⟩ := hv
      rw [h.set_eq]
      exact ⟨_, holdsText_contentWith w content s text⟩
    · rw [h.set_of_not_isText s hv]
      exact ⟨_, holdsText_empty w⟩

/-- **The file is a text** after a change. -/
theorem HoldsText.change (h : w.HoldsText content) (c : Change) :
    ∃ content', (w.change c).HoldsText content' := by
  cases c with
  | setVariable name value => exact ⟨content, h⟩
  | write content' => exact ⟨content', rfl⟩
  | set key value => exact h.exists_setKey key value

/-- The file is a text after any changes. -/
theorem holdsText_changeAll (h : w.HoldsText content) (changes : List Change) :
    ∃ content', (w.changeAll changes).HoldsText content' := by
  induction changes generalizing w content with
  | nil => exact ⟨content, h⟩
  | cons c changes ih =>
    obtain ⟨content', h'⟩ := h.change c
    exact ih h'

/-- **All readers agree.** Whatever text the settings file holds, or when there is none, and
whatever the environment is: after any changes all readers succeed. The settings that are loaded at
once, the entry of each setting and the entries of the list have the same values, the list has one
entry for each setting, and every entry names the source that its value is from. -/
theorem changeAll_readers_agree (h : w.HoldsText content) (changes : List Change) :
    ∃ content' settings entries, (w.changeAll changes).HoldsText content' ∧
      (w.changeAll changes).load = .ok settings ∧ (w.changeAll changes).list = .ok entries ∧
      entries.map Entry.setting = Setting.all ∧
      ∀ s, ∃ e ∈ entries, e.setting = s ∧ (w.changeAll changes).getKey s.key = .ok e ∧
        settings s = e.value ∧
        e.IsResolved (w.changeAll changes).environment (storedIn content') := by
  obtain ⟨content', h'⟩ := holdsText_changeAll h changes
  refine ⟨content', _, _, h', h'.load_eq, h'.list_eq, ?_, fun s => ?_⟩
  · rw [List.map_map]
    exact (List.map_congr_left fun s _ => resolved_setting _ _ s).trans (List.map_id _)
  · exact ⟨_, List.mem_map_of_mem (Setting.mem_all s), resolved_setting _ _ s, h'.getKey_eq s, rfl,
      isResolved_resolved _ _ s⟩

/-- A variable is emptied, a setting is written and two others are not, the file is replaced by one
that repeats a name, and a setting is written into that. -/
def mixedChanges : List Change :=
  [.setVariable "ASSETVER_LOG_LEVEL".toList (some []), .set "asset_type".toList "bower".toList,
    .set "color".toList "red".toList, .set "asset_type".toList strayByte,
    .write (some "ASSETVER_GITHUB_DOMAINS=a\n# b\nASSETVER_GITHUB_DOMAINS=\nc".toList),
    .set "log_level".toList "ERROR".toList]

/-- The environment, the file and a default give a value each, and two of these are empty. -/
theorem changeAll_readers_agree_mixedChanges :
    HoldsText ⟨some (Text.encode mixedFile), [], .empty⟩ (some mixedFile) ∧
    ∃ w, changeAll ⟨some (Text.encode mixedFile), [], .empty⟩ mixedChanges = w ∧
    w.list = .ok [⟨.assetType, "npm".toList, .default⟩, ⟨.githubDomains, [], .file⟩,
      ⟨.gitlabDomains, "gitlab.com".toList, .default⟩, ⟨.logLevel, [], .environment⟩] ∧
    ∃ content' settings entries, w.HoldsText content' ∧ w.load = .ok settings ∧
      w.list = .ok entries ∧ entries.map Entry.setting = Setting.all ∧
      ∀ s, ∃ e ∈ entries, e.setting = s ∧ w.getKey s.key = .ok e ∧ settings s = e.value ∧
        e.IsResolved w.environment (storedIn content') := by
  have hholds : HoldsText ⟨some (Text.encode mixedFile), [], .empty⟩ (some mixedFile) := rfl
  exact ⟨hholds, _, rfl, Except.eq_ok_of_toOption (by decide +kernel),
    changeAll_readers_agree hholds mixedChanges⟩

end Surroundings

end AssetBridge
