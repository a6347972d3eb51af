import AssetBridge.Cli.Request

/-!
# Which command lines set a setting

What options leave of a list of arguments can be said without reading the options: they end at the
mark for it or, where options and ordinary arguments may not be mixed, at the first argument that is
plain. In this way a command line that sets a setting is described as a text.

## Main definitions

* `Cli.Leaves`: the arguments that options leave
* `Cli.IsConfigSet`: command lines that set a setting

## Main results

* `Cli.exists_scan?_iff`: scanning gives the arguments that options leave
* `Cli.exists_read_eq_configSet_iff`: a setting is set by these command lines and no others
-/

namespace AssetBridge

theorem Text.of_cut_eq_none {sep : Char} {s a : Text} (h : cut sep s = (a, none)) : s = a := by
  induction s generalizing a with
  | nil => exact (Prod.mk.inj h).1
  | cons c s ih =>
    rw [cut] at h
    split at h
    · cases h
    · obtain ⟨rfl, hb⟩ := Prod.mk.inj h
      exact congrArg (c :: ·) (ih (Prod.ext rfl hb))

namespace Cli

/-! ## Arguments -/

/-- **Plain arguments** do not start with a hyphen, or are a single one. -/
def IsPlain (arg : Text) : Prop := arg.head? ≠ some '-' ∨ arg = ['-']

/-- **Arguments for a verbose run**: the long option, or the short one any number of times. -/
def IsVerbose (arg : Text) : Prop :=
  arg = "--verbose".toList ∨ ∃ n, arg = '-' :: List.replicate (n + 1) 'v'

/-- **The arguments that options leave**, where options and plain arguments may be mixed or not. -/
inductive Leaves (isOption : Text → Prop) : Bool → List Text → List Text → Prop
  | nil (mixed : Bool) : Leaves isOption mixed [] []
  /-- Behind the mark everything is left. -/
  | marked (mixed : Bool) (args : List Text) : Leaves isOption mixed (endOfOptions :: args) args
  | option {mixed : Bool} {arg : Text} {args rest : List Text} (h : isOption arg)
      (hrest : Leaves isOption mixed args rest) : Leaves isOption mixed (arg :: args) rest
  /-- A plain argument ends the options when the two may not be mixed. -/
  | last {arg : Text} (h : IsPlain arg) (args : List Text) :
      Leaves isOption false (arg :: args) (arg :: args)
  | plain {arg : Text} {args rest : List Text} (h : IsPlain arg)
      (hrest : Leaves isOption true args rest) : Leaves isOption true (arg :: args) (arg :: rest)

theorem not_isPlain_endOfOptions : ¬ IsPlain endOfOptions := by simp [IsPlain, endOfOptions]

theorem option?_eq_none_iff {known : List Flag} {arg : Text} :
    option? known arg = none ↔ IsPlain arg := by
  unfold option?
  split
  · simp [IsPlain]
  · simp [IsPlain]
  · rename_i hshort
    refine ⟨fun _ => ?_, fun _ => rfl⟩
    cases arg with
    | nil => exact .inl (by simp)
    | cons c s =>
      cases s with
      | nil =>
        by_cases hc : c = '-'
        · exact .inr (by rw [hc])
        · exact .inl (by simpa using hc)
      | cons d s => exact .inl fun hc => hshort d s (by simpa using hc)

/-- An option that is known and is not the one for help. -/
def IsOther (known : List Flag) (arg : Text) : Prop :=
  ∃ said, option? known arg = some (some said) ∧ isGiven .help said.given = false

theorem long?_nil (known : List Flag) : long? known [] = none := by
  have hlong : ∀ {flag : Flag}, known.find? (fun flag => flag.long = []) ≠ some flag := by
    intro flag h
    have hempty := List.find?_some h
    cases flag <;> cases hempty
  unfold long?
  dsimp only
  split
  · rfl
  · rename_i h _
    exact absurd h hlong
  · rename_i h _
    exact absurd h hlong

theorem not_isOther_endOfOptions (known : List Flag) : ¬ IsOther known endOfOptions := by
  rintro ⟨said, h, -⟩
  rw [endOfOptions, option?, long?_nil] at h
  cases h

section Valueless

variable {known : List Flag} (hknown : ∀ flag ∈ known, flag.takesValue = false)

include hknown

/-- A long option says itself. -/
theorem exists_of_long? {s : Text} {said : Said} (h : long? known s = some said) :
    ∃ flag ∈ known, s = flag.long ∧ said = { given := [⟨flag, []⟩] } := by
  unfold long? at h
  dsimp only at h
  split at h
  · cases h
  · rename_i flag value hflag _
    rw [if_neg (by simp [hknown flag (List.mem_of_find?_eq_some hflag)])] at h
    cases h
  · rename_i flag hflag hvalue
    have hmem := List.mem_of_find?_eq_some hflag
    rw [if_neg (by simp [hknown flag hmem])] at h
    have hlong : flag.long = (Text.cut '=' s).1 := by simpa using List.find?_some hflag
    have hs : s = (Text.cut '=' s).1 := Text.of_cut_eq_none (Prod.ext rfl hvalue)
    exact ⟨flag, hmem, hs.trans hlong.symm, (Option.some.inj h).symm⟩

/-- A cluster says an option for each of its letters. -/
theorem exists_of_cluster? {s : Text} {said : Said} (h : cluster? known s = some said) :
    ∃ flags : List Flag, (∀ flag ∈ flags, flag ∈ known) ∧ flags.map Flag.short = s.map some ∧
      said = { given := flags.map fun flag => ⟨flag, []⟩ } := by
  induction s generalizing said with
  | nil =>
    obtain rfl := Option.some.inj h
    exact ⟨[], by simp, rfl, rfl⟩
  | cons c s ih =>
    rw [cluster?] at h
    split at h
    · cases h
    · rename_i flag hflag
      have hmem := List.mem_of_find?_eq_some hflag
      rw [if_neg (by simp [hknown flag hmem])] at h
      obtain ⟨rest, hrest, rfl⟩ := Option.map_eq_some_iff.1 h
      obtain ⟨flags, hflags, hshort, rfl⟩ := ih hrest
      have hletter : flag.short = some c := by simpa using List.find?_some hflag
      refine ⟨flag :: flags, List.forall_mem_cons.2 ⟨hmem, hflags⟩, ?_, rfl⟩
      rw [List.map_cons, List.map_cons, hshort, hletter]

/-- **What an option says**: it is a long one, or a cluster with at least one letter. -/
theorem exists_of_option? {arg : Text} {said : Said} (h : option? known arg = some (some said)) :
    (∃ flag ∈ known, arg = '-' :: '-' :: flag.long ∧ said = { given := [⟨flag, []⟩] }) ∨
      ∃ c s, ∃ flags : List Flag, (∀ flag ∈ flags, flag ∈ known) ∧ arg = '-' :: c :: s ∧
        flags.map Flag.short = (c :: s).map some ∧
        said = { given := flags.map fun flag => ⟨flag, []⟩ } := by
  unfold option? at h
  split at h
  · obtain ⟨flag, hflag, rfl, hsaid⟩ := exists_of_long? hknown (Option.some.inj h)
    exact .inl ⟨flag, hflag, rfl, hsaid⟩
  · rename_i c s _
    obtain ⟨flags, hflags, hshort, hsaid⟩ := exists_of_cluster? hknown (Option.some.inj h)
    exact .inr ⟨c, s, flags, hflags, rfl, hshort, hsaid⟩
  · cases h

/-- Options without values do not wait for one. -/
theorem awaiting_of_option? {arg : Text} {said : Said} (h : option? known arg = some (some said)) :
    said.awaiting = none := by
  rcases exists_of_option? hknown h with ⟨_, _, _, rfl⟩ | ⟨_, _, _, _, _, _, rfl⟩ <;> rfl

/-- **Scanning** gives the arguments that options leave. -/
theorem exists_scan?_iff {mixed : Bool} {args rest : List Text} :
    (∃ given, scan? known mixed args = some (given, rest) ∧ isGiven .help given = false) ↔
      Leaves (IsOther known) mixed args rest := by
  constructor
  · rintro ⟨given, hscan, hhelp⟩
    induction args generalizing given rest with
    | nil =>
      cases hscan
      exact .nil mixed
    | cons arg args ih =>
      by_cases hend : arg = endOfOptions
      · subst hend
        rw [scan?, if_pos rfl] at hscan
        cases hscan
        exact .marked mixed args
      rw [scan?, if_neg hend] at hscan
      rcases hoption : option? known arg with _ | _ | ⟨said, awaiting⟩
      · rw [hoption] at hscan
        cases mixed with
        | false =>
          cases hscan
          exact .last (option?_eq_none_iff.1 hoption) args
        | true =>
          obtain ⟨⟨given', rest'⟩, hscan', hrest⟩ := Option.map_eq_some_iff.1 hscan
          cases hrest
          exact .plain (option?_eq_none_iff.1 hoption) (ih _ hscan' hhelp)
      · rw [hoption] at hscan
        cases hscan
      · obtain rfl : awaiting = none := awaiting_of_option? hknown hoption
        rw [hoption] at hscan
        obtain ⟨⟨given', rest'⟩, hscan', hrest⟩ := Option.map_eq_some_iff.1 hscan
        cases hrest
        rw [isGiven, List.any_append, Bool.or_eq_false_iff] at hhelp
        exact .option ⟨_, hoption, hhelp.1⟩ (ih _ hscan' hhelp.2)
  · intro h
    induction h with
    | nil mixed => exact ⟨[], rfl, rfl⟩
    | marked mixed args => exact ⟨[], by rw [scan?, if_pos rfl], rfl⟩
    | @option mixed arg args rest h _ ih =>
      obtain ⟨given, hscan, hhelp⟩ := ih
      have hend : arg ≠ endOfOptions := fun e => not_isOther_endOfOptions known (e ▸ h)
      obtain ⟨⟨said, awaiting⟩, hoption, hsaid⟩ := h
      obtain rfl : awaiting = none := awaiting_of_option? hknown hoption
      refine ⟨said ++ given, by rw [scan?, if_neg hend, hoption, hscan]; rfl, ?_⟩
      rw [isGiven, List.any_append, Bool.or_eq_false_iff]
      exact ⟨hsaid, hhelp⟩
    | @last arg h args =>
      have hend : arg ≠ endOfOptions := fun e => not_isPlain_endOfOptions (e ▸ h)
      exact ⟨[], by rw [scan?, if_neg hend, option?_eq_none_iff.2 h]; rfl, rfl⟩
    | @plain arg args rest h _ ih =>
      obtain ⟨given, hscan, hhelp⟩ := ih
      have hend : arg ≠ endOfOptions := fun e => not_isPlain_endOfOptions (e ▸ h)
      exact ⟨given, by rw [scan?, if_neg hend, option?_eq_none_iff.2 h, hscan]; rfl, hhelp⟩

end Valueless

/-! ## The options of the program -/

/-- Help has no letter, so letters stand for other options. -/
theorem ne_help_of_mem {flags : List Flag} {s : Text} (h : flags.map Flag.short = s.map some)
    {flag : Flag} (hm : flag ∈ flags) : flag ≠ .help := by
  rintro rfl
  have hshort : (none : Option Char) ∈ s.map some := h ▸ List.mem_map_of_mem hm
  obtain ⟨c, -, hc⟩ := List.mem_map.1 hshort
  cases hc

/-- **Where only help is known**, no option is left but help. -/
theorem not_isOther_help (arg : Text) : ¬ IsOther [.help] arg := by
  rintro ⟨said, hoption, hhelp⟩
  rcases exists_of_option? (by decide) hoption with
    ⟨flag, hflag, -, rfl⟩ | ⟨c, s, flags, hflags, -, hshort, -⟩
  · obtain rfl := List.mem_singleton.1 hflag
    cases hhelp
  · cases flags with
    | nil => cases hshort
    | cons flag flags =>
      have hflag := List.mem_singleton.1 (hflags flag List.mem_cons_self)
      exact ne_help_of_mem hshort List.mem_cons_self hflag

theorem cluster?_replicate (n : Nat) : cluster? [.help, .verbose] (List.replicate n 'v') =
    some { given := List.replicate n ⟨.verbose, []⟩ } := by
  induction n with
  | zero => rfl
  | succ n ih =>
    rw [List.replicate_succ, cluster?]
    show (cluster? [.help, .verbose] (List.replicate n 'v')).map _ = _
    rw [ih]
    rfl

/-- **In front of a command** the other options are those for a verbose run. -/
theorem isOther_verbose_iff {arg : Text} : IsOther [.help, .verbose] arg ↔ IsVerbose arg := by
  constructor
  · rintro ⟨said, hoption, hhelp⟩
    rcases exists_of_option? (by decide) hoption with
      ⟨flag, hflag, rfl, rfl⟩ | ⟨c, s, flags, hflags, rfl, hshort, -⟩
    · rcases List.mem_cons.1 hflag with rfl | hflag
      · cases hhelp
      · obtain rfl := List.mem_singleton.1 hflag
        exact .inl rfl
    · have hverbose : ∀ flag ∈ flags, flag = .verbose := fun flag hm => List.mem_singleton.1
        ((List.mem_cons.1 (hflags flag hm)).resolve_left (ne_help_of_mem hshort hm))
      have hletters : ∀ d ∈ c :: s, d = 'v' := by
        intro d hd
        have hmem : some d ∈ flags.map Flag.short := hshort ▸ List.mem_map_of_mem hd
        obtain ⟨flag, hflag, hd⟩ := List.mem_map.1 hmem
        rw [hverbose flag hflag] at hd
        exact (Option.some.inj hd).symm
      exact .inr ⟨s.length, congrArg _ (List.eq_replicate_of_mem hletters)⟩
  · rintro (rfl | ⟨n, rfl⟩)
    · exact ⟨_, rfl, rfl⟩
    · refine ⟨_, congrArg some (cluster?_replicate (n + 1)), ?_⟩
      simp [isGiven]

/-! ## Command lines -/

/-- **Command lines that set a setting**: `config`, perhaps behind options for a verbose run, `set`
behind no option, and two arguments behind it, which are plain unless the mark stands in front. -/
def IsConfigSet (args : List Text) (flag value : Text) : Prop :=
  ∃ group operands, Leaves IsVerbose false args ("config".toList :: group) ∧
    Leaves (fun _ => False) false group ("set".toList :: operands) ∧
    Leaves (fun _ => False) true operands [flag, value]

theorem exists_scan?_help_iff (mixed : Bool) {args rest : List Text} :
    (∃ given, scan? [.help] mixed args = some (given, rest) ∧ isGiven .help given = false) ↔
      Leaves (fun _ => False) mixed args rest := by
  rw [exists_scan?_iff (by decide), show IsOther [.help] = fun _ => False from
    funext fun arg => eq_false (not_isOther_help arg)]

theorem exists_scan?_verbose_iff {args rest : List Text} :
    (∃ given, scan? [.help, .verbose] false args = some (given, rest) ∧
        isGiven .help given = false) ↔ Leaves IsVerbose false args rest := by
  rw [exists_scan?_iff (by decide), show IsOther [.help, .verbose] = IsVerbose from
    funext fun arg => propext isOther_verbose_iff]

theorem mem_of_named? {α : Type} {names : List (Text × α)} {s : Text} {a : α}
    (h : named? names s = some a) : (s, a) ∈ names := by
  obtain ⟨⟨name, b⟩, hfind, rfl⟩ := Option.map_eq_some_iff.1 h
  obtain rfl : name = s := by simpa using List.find?_some hfind
  exact List.mem_of_find?_eq_some hfind

theorem named?_config_iff {s : Text} :
    named? CommandName.byText s = some .config ↔ s = "config".toList :=
  ⟨fun h => by simpa [CommandName.byText] using mem_of_named? h, fun h => h ▸ rfl⟩

theorem named?_set_iff {s : Text} : named? ConfigName.byText s = some .set ↔ s = "set".toList :=
  ⟨fun h => by simpa [ConfigName.byText] using mem_of_named? h, fun h => h ▸ rfl⟩

/-- A command is opened by its name behind options for a verbose run. -/
theorem exists_openingRead_iff {args rest : List Text} {name : CommandName} :
    (∃ verbose, Opening.read args = .command verbose name rest) ↔
      ∃ s, Leaves IsVerbose false args (s :: rest) ∧ named? CommandName.byText s = some name := by
  simp only [← exists_scan?_verbose_iff]
  constructor
  · rintro ⟨verbose, h⟩
    unfold Opening.read at h
    split at h
    · cases h
    · rename_i given args' hscan
      split at h
      · cases h
      · rename_i hhelp
        split at h
        · cases h
        · rename_i s args''
          split at h
          · rename_i hname
            cases h
            exact ⟨s, ⟨given, hscan, Bool.eq_false_iff.2 hhelp⟩, hname⟩
          · cases h
  · rintro ⟨s, ⟨given, hscan, hhelp⟩, hname⟩
    exact ⟨isGiven .verbose given, by simp only [Opening.read, hscan, hhelp, hname]; rfl⟩

/-- A command is run when its arguments are the ones that it takes. -/
theorem readArguments_eq_run_iff {known : List Flag} {args : List Text}
    {command? : List Given → List Text → Option Command} {c : Command} :
    readArguments known args command? = .run c ↔ ∃ given rest,
      scan? (.help :: known) true args = some (given, rest) ∧ isGiven .help given = false ∧
        command? given rest = some c := by
  constructor
  · intro h
    unfold readArguments at h
    split at h
    · cases h
    · rename_i given rest hscan
      split at h
      · cases h
      · rename_i hhelp
        split at h
        · rename_i hcommand
          cases h
          exact ⟨given, rest, hscan, Bool.eq_false_iff.2 hhelp, hcommand⟩
        · cases h
  · rintro ⟨given, rest, hscan, hhelp, hcommand⟩
    simp only [readArguments, hscan, hhelp, hcommand]
    rfl

theorem exists_of_one? {command : Text → Command} {rest : List Text} {c : Command}
    (h : one? command rest = some c) : ∃ a, c = command a := by
  unfold one? at h
  split at h
  · exact ⟨_, (Option.some.inj h).symm⟩
  · cases h

theorem two?_configSet_iff {rest : List Text} {flag value : Text} :
    two? .configSet rest = some (.configSet flag value) ↔ rest = [flag, value] := by
  unfold two?
  split
  · simp
  · rename_i h
    exact ⟨nofun, fun e => absurd e (h flag value)⟩

theorem readConfigCommand_eq_configSet_iff {name : ConfigName} {args : List Text}
    {flag value : Text} : readConfigCommand name args = .run (.configSet flag value) ↔
      name = .set ∧ Leaves (fun _ => False) true args [flag, value] := by
  rw [← exists_scan?_help_iff]
  cases name with
  | set =>
    rw [readConfigCommand, readArguments_eq_run_iff]
    simp only [two?_configSet_iff, true_and]
    constructor
    · rintro ⟨given, rest, hscan, hhelp, rfl⟩
      exact ⟨given, hscan, hhelp⟩
    · rintro ⟨given, hscan, hhelp⟩
      exact ⟨given, _, hscan, hhelp, rfl⟩
  | get =>
    refine ⟨fun h => ?_, nofun⟩
    obtain ⟨given, rest, -, -, hcommand⟩ := readArguments_eq_run_iff.1 h
    obtain ⟨a, ha⟩ := exists_of_one? hcommand
    cases ha
  | list =>
    refine ⟨fun h => ?_, nofun⟩
    obtain ⟨given, rest, -, -, hcommand⟩ := readArguments_eq_run_iff.1 h
    split at hcommand <;> cases hcommand

theorem readConfig_eq_configSet_iff {args : List Text} {flag value : Text} :
    readConfig args = .run (.configSet flag value) ↔
      ∃ operands, Leaves (fun _ => False) false args ("set".toList :: operands) ∧
        Leaves (fun _ => False) true operands [flag, value] := by
  simp only [← exists_scan?_help_iff false]
  constructor
  · intro h
    unfold readConfig at h
    split at h
    · cases h
    · rename_i given rest hscan
      split at h
      · cases h
      · rename_i hhelp
        split at h
        · cases h
        · split at h
          · rename_i s operands _ name hname
            obtain ⟨rfl, hleaves⟩ := readConfigCommand_eq_configSet_iff.1 h
            obtain rfl := named?_set_iff.1 hname
            exact ⟨operands, ⟨given, hscan, Bool.eq_false_iff.2 hhelp⟩, hleaves⟩
          · cases h
  · rintro ⟨operands, ⟨given, hscan, hhelp⟩, hleaves⟩
    simp only [readConfig, hscan, hhelp, named?_set_iff.2]
    exact readConfigCommand_eq_configSet_iff.2 ⟨rfl, hleaves⟩

/-- Only the command for the settings sets one. -/
theorem eq_config_of_read {name : CommandName} {args : List Text} {flag value : Text}
    (h : Request.read name args = .run (.configSet flag value)) : name = .config := by
  cases name with
  | config => rfl
  | convertVersion | convertRange | convertName | convertManifest =>
    obtain ⟨given, rest, -, -, hcommand⟩ := readArguments_eq_run_iff.1 h
    obtain ⟨a, ha⟩ := exists_of_one? hcommand
    cases ha
  | check =>
    obtain ⟨given, rest, -, -, hcommand⟩ := readArguments_eq_run_iff.1 h
    unfold check? at hcommand
    split at hcommand <;> cases hcommand

/-- **A setting is set** by the command lines that set one, and by no others. -/
theorem exists_read_eq_configSet_iff {args : List Text} {flag value : Text} :
    (∃ verbose name rest, Opening.read args = .command verbose name rest ∧
        Request.read name rest = .run (.configSet flag value)) ↔ IsConfigSet args flag value := by
  constructor
  · rintro ⟨verbose, name, group, hopening, hread⟩
    obtain rfl := eq_config_of_read hread
    obtain ⟨s, hleaves, hname⟩ := exists_openingRead_iff.1 ⟨verbose, hopening⟩
    obtain rfl := named?_config_iff.1 hname
    obtain ⟨operands, hset, hoperands⟩ := readConfig_eq_configSet_iff.1 hread
    exact ⟨group, operands, hleaves, hset, hoperands⟩
  · rintro ⟨group, operands, hleaves, hset, hoperands⟩
    obtain ⟨verbose, hopening⟩ :=
      exists_openingRead_iff.2 ⟨_, hleaves, named?_config_iff.2 rfl⟩
    exact ⟨verbose, .config, group, hopening,
      readConfig_eq_configSet_iff.2 ⟨operands, hset, hoperands⟩⟩

end Cli

end AssetBridge
