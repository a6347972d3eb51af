import AssetBridge.Proofs.Runs
import AssetBridge.Proofs.Tables
import AssetBridge.Settings.Surroundings
import Mathlib.Data.Bool.AllAny

/-!
# The settings file as a map

Every time a setting is written, the settings file is read and written anew, so what is read from it
must be read from what is written for it. An entry that is read stands on one line, its name and its
value are trimmed, and the name neither holds the separator nor opens like a comment. Such an entry
is read again from its line, and the settings that are written are of the same kind. So the entries
of the file change as those of a table do, as long as the values are texts. One that is not is found
out when the file has been emptied, and all entries are lost.

## Main definitions

* `Text.IsTrimmed`: texts without blanks at their ends
* `SettingsFile.IsEntry`, `SettingsFile.IsStored`: entries and tables that a file can hold
* `Surroundings.HoldsText`, `storedIn`: the settings file as a text, and the entries in it
* `Surroundings.setAll`: writing several settings
* `IsUpdated`: a table before and after updates

## Main results

* `SettingsFile.isStored_parse`: what a file can hold is what is read
* `SettingsFile.parse_render`: it is read again from what is written for it
* `Surroundings.setAll_updates`: the file is a map under updates by texts, and empty behind others
-/

namespace AssetBridge

/-! ## Texts on lines -/

namespace Text

theorem unifyLineEnds_eq_self {s : Text} (h : '\r' ∉ s) : unifyLineEnds s = s := by
  induction s with
  | nil => rfl
  | cons c s ih =>
    have hc : c ≠ '\r' := fun e => h (by simp [e])
    have hs := ih fun hm => h (List.mem_cons_of_mem c hm)
    rw [unifyLineEnds, if_neg hc, hs]
    rintro r rfl
    exact absurd rfl hc

theorem dropFinalEmpty_sublist (l : List Text) : (dropFinalEmpty l).Sublist l := by
  fun_induction dropFinalEmpty l with
  | case1 => exact List.Sublist.refl _
  | case2 => exact List.nil_sublist _
  | case3 part parts _ ih => exact ih.cons_cons part

theorem dropFinalEmpty_append (l : List Text) : dropFinalEmpty (l ++ [[]]) = l := by
  induction l with
  | nil => rfl
  | cons part l ih =>
    rw [List.cons_append, dropFinalEmpty, ih]
    intro _ h
    exact absurd h (by simp)

/-- **The lines of a text** hold no line boundary. -/
theorem isLineBoundary_eq_false_of_mem_lines {s l : Text} (h : l ∈ lines s) :
    ∀ c ∈ l, isLineBoundary c = false := by
  obtain ⟨hpiece, hfeed⟩ := mem_splitWhere ((dropFinalEmpty_sublist _).mem h)
  intro c hc
  obtain ⟨d, -, rfl⟩ := List.mem_map.1 (hpiece.subset hc)
  -- Every boundary is a line feed by now, and a line holds none.
  have hne := hfeed _ hc
  split at hne
  · exact absurd hne (by decide)
  · rename_i hd
    rw [if_neg hd]
    exact Bool.eq_false_iff.2 hd

/-- **Lines that end with line feeds** are the lines of the whole. -/
theorem lines_flatMap {ls : List Text} (h : ∀ l ∈ ls, ∀ c ∈ l, isLineBoundary c = false) :
    lines (ls.flatMap (· ++ ['\n'])) = ls := by
  have hchars : ∀ c ∈ ls.flatMap (· ++ ['\n']), c = '\n' ∨ isLineBoundary c = false := by
    intro c hc
    obtain ⟨l, hl, hc⟩ := List.mem_flatMap.1 hc
    rcases List.mem_append.1 hc with hc | hc
    · exact .inr (h l hl c hc)
    · exact .inl (List.mem_singleton.1 hc)
  have hmark : markLines (ls.flatMap (· ++ ['\n'])) = ls.flatMap (· ++ ['\n']) := by
    rw [markLines, unifyLineEnds_eq_self]
    · refine (List.map_congr_left fun c hc => ?_).trans (List.map_id _)
      rcases hchars c hc with rfl | hc
      · rfl
      · simp [hc]
    · intro hm
      exact absurd (hchars _ hm) (by decide)
  have hfields : ∀ ls : List Text, (∀ l ∈ ls, '\n' ∉ l) →
      fields '\n' (ls.flatMap (· ++ ['\n'])) = ls ++ [[]] := by
    intro ls hls
    induction ls with
    | nil => rfl
    | cons l ls ih =>
      rw [List.flatMap_cons, List.append_assoc, List.singleton_append,
        fields_append_cons (hls l List.mem_cons_self),
        ih fun m hm => hls m (List.mem_cons_of_mem l hm)]
      rfl
  rw [lines, hmark, hfields ls, dropFinalEmpty_append]
  intro l hl hm
  exact absurd (h l hl _ hm) (by decide)

/-! ## Trimmed texts -/

/-- **Trimmed texts** neither open nor end with a blank. -/
structure IsTrimmed (s : Text) : Prop where
  head : ∀ c ∈ s.head?, isBlank c = false
  last : ∀ c ∈ s.getLast?, isBlank c = false

theorem IsTrimmed.strip_eq_self {s : Text} (h : IsTrimmed s) : strip s = s :=
  Text.strip_eq_self h.head h.last

theorem head?_dropWhile_eq_false (p : Char → Bool) (s : Text) :
    ∀ c ∈ (s.dropWhile p).head?, p c = false := by
  intro c hc
  have hne : s.dropWhile p ≠ [] := by
    intro he
    rw [he] at hc
    cases hc
  rw [List.head?_eq_some_head hne] at hc
  obtain rfl := Option.some.inj hc
  exact List.head_dropWhile_not p hne

/-- A text opens as the pieces at its front do. -/
theorem mem_head?_of_isPrefix {s t : Text} (h : s <+: t) : ∀ c ∈ s.head?, c ∈ t.head? := by
  obtain ⟨r, rfl⟩ := h
  intro c hc
  cases s with
  | nil => cases hc
  | cons d s => exact hc

theorem IsTrimmed.of_strip (s : Text) : IsTrimmed (strip s) where
  head c hc := head?_dropWhile_eq_false isBlank s c
    (mem_head?_of_isPrefix (dropEndWhile_isPrefix isBlank _) c hc)
  last := by
    intro c hc
    rw [strip, dropEndWhile, List.getLast?_reverse] at hc
    exact head?_dropWhile_eq_false isBlank _ c hc

theorem isTrimmed_iff {s : Text} : IsTrimmed s ↔ strip s = s :=
  ⟨IsTrimmed.strip_eq_self, fun h => h ▸ IsTrimmed.of_strip s⟩

/-! ## Cutting -/

theorem of_cut_eq_some {sep : Char} {s a b : Text} (h : cut sep s = (a, some b)) :
    s = a ++ sep :: b ∧ sep ∉ a := by
  induction s generalizing a with
  | nil => cases h
  | cons c s ih =>
    rw [cut] at h
    split at h
    · rename_i hc
      obtain ⟨rfl, hb⟩ := Prod.mk.inj h
      obtain rfl := Option.some.inj hb
      exact ⟨by rw [hc]; rfl, List.not_mem_nil⟩
    · rename_i hc
      obtain ⟨rfl, hb⟩ := Prod.mk.inj h
      obtain ⟨hs, hm⟩ := ih (Prod.ext rfl hb)
      refine ⟨congrArg (c :: ·) hs, fun hsep => ?_⟩
      rcases List.mem_cons.1 hsep with rfl | hsep
      · exact hc rfl
      · exact hm hsep

end Text

/-! ## Entries -/

namespace SettingsFile

/-- **Entries of a settings file**: name and value are trimmed and on one line, and the name neither
holds the equals sign nor opens with the hash of comments. -/
structure IsEntry (e : Text × Text) : Prop where
  name_trimmed : Text.IsTrimmed e.1
  value_trimmed : Text.IsTrimmed e.2
  separator_not_mem : '=' ∉ e.1
  hash_not_mem_head? : '#' ∉ e.1.head?
  on_one_line : ∀ c ∈ e.1 ++ e.2, Text.isLineBoundary c = false

/-- What a line says that is neither empty nor a comment. -/
theorem entry?_of_strip {line s : Text} (h : Text.strip line = s) (hne : s ≠ [])
    (hhash : '#' ∉ s.head?) : entry? line = match Text.cut '=' s with
      | (name, some value) => some (Text.strip name, Text.strip value)
      | (_, none) => none := by
  subst h
  unfold entry?
  split
  · rename_i hs
    exact absurd hs hne
  · rename_i r hs
    rw [hs] at hhash
    exact absurd rfl hhash
  · rfl

/-- **What is read from a line** is an entry. -/
theorem isEntry_of_eq_some {line : Text} {e : Text × Text}
    (hline : ∀ c ∈ line, Text.isLineBoundary c = false) (h : entry? line = some e) : IsEntry e := by
  by_cases hne : Text.strip line = []
  · unfold entry? at h
    rw [hne] at h
    cases h
  by_cases hhash : '#' ∈ (Text.strip line).head?
  · obtain ⟨r, hr⟩ := List.head?_eq_some_iff.1 hhash
    unfold entry? at h
    rw [hr] at h
    cases h
  rw [entry?_of_strip rfl hne hhash] at h
  split at h
  · rename_i name value hcut
    obtain rfl := Option.some.inj h
    obtain ⟨hs, hsep⟩ := Text.of_cut_eq_some hcut
    have hpiece : ∀ c ∈ name ++ value, c ∈ line := by
      intro c hc
      refine (Text.strip_isInfix line).subset ?_
      rw [hs]
      simp only [List.mem_append, List.mem_cons] at hc ⊢
      exact hc.imp_right .inr
    refine ⟨.of_strip name, .of_strip value, fun hm => ?_, fun hm => ?_, fun c hc => ?_⟩
    · exact hsep ((Text.strip_isInfix name).subset hm)
    · -- The name opens the line, which is no comment and has no blank in front.
      have hopen : ∀ c ∈ name.head?, c ∈ (Text.strip line).head? :=
        Text.mem_head?_of_isPrefix ⟨_, hs.symm⟩
      have hfront : name.dropWhile Text.isBlank = name :=
        (Text.scan_eq_of_head? fun c hc =>
          (Text.IsTrimmed.of_strip line).head c (hopen c hc)).2
      rw [Text.strip, hfront] at hm
      exact hhash (hopen '#'
        (Text.mem_head?_of_isPrefix (Text.dropEndWhile_isPrefix Text.isBlank name) '#' hm))
    · refine hline c (hpiece c ?_)
      rcases List.mem_append.1 hc with hc | hc
      · exact List.mem_append_left _ ((Text.strip_isInfix name).subset hc)
      · exact List.mem_append_right _ ((Text.strip_isInfix value).subset hc)
  · cases h

/-- The line of an entry, without its end. -/
def written (e : Text × Text) : Text := e.1 ++ '=' :: e.2

theorem lineOf_eq (e : Text × Text) : lineOf e = written e ++ ['\n'] := by
  simp [lineOf, written]

/-- **An entry is read again** from its line. -/
theorem IsEntry.entry?_written {e : Text × Text} (h : IsEntry e) : entry? (written e) = some e := by
  obtain ⟨name, value⟩ := e
  have htrimmed : Text.IsTrimmed (name ++ '=' :: value) := by
    refine ⟨fun c hc => ?_, fun c hc => ?_⟩
    · cases name with
      | nil =>
        obtain rfl := Option.some.inj hc
        rfl
      | cons d name => exact h.name_trimmed.head c hc
    · rw [List.getLast?_append] at hc
      cases hv : value.getLast? with
      | none =>
        rw [List.getLast?_eq_none_iff] at hv
        subst hv
        obtain rfl := Option.some.inj hc
        rfl
      | some d =>
        rw [List.getLast?_cons, hv] at hc
        obtain rfl := Option.some.inj hc
        exact h.value_trimmed.last _ hv
  have hhash : '#' ∉ (name ++ '=' :: value).head? := by
    cases name with
    | nil => simp
    | cons d name => exact h.hash_not_mem_head?
  rw [written, entry?_of_strip htrimmed.strip_eq_self (by simp) hhash,
    Text.cut_append_cons h.separator_not_mem]
  simp only [h.name_trimmed.strip_eq_self, h.value_trimmed.strip_eq_self]

/-! ## Tables -/

/-- **Tables that a file holds**: no name stands twice, and every entry is one of a file. -/
structure IsStored (t : Table Text) : Prop where
  nodup : t.keys.Nodup
  isEntry : ∀ e ∈ t, IsEntry e

theorem IsStored.insert {t : Table Text} (h : IsStored t) {e : Text × Text} (he : IsEntry e) :
    IsStored (t.insert e.1 e.2) where
  nodup := Table.nodup_keys_insert h.nodup
  isEntry _ hm := (Table.mem_insert hm).elim (fun hd => hd ▸ he) (h.isEntry _)

theorem IsStored.insertAll {t : Table Text} (h : IsStored t) {entries : List (Text × Text)}
    (he : ∀ e ∈ entries, IsEntry e) : IsStored (t.insertAll entries) where
  nodup := Table.nodup_keys_insertAll h.nodup
  isEntry e hm := (Table.mem_insertAll hm).elim (h.isEntry e) (he e)

/-- **What is read** is a table that a file holds, whatever the text. -/
theorem isStored_parse (s : Text) : IsStored (parse s) := by
  have hnil : IsStored ([] : Table Text) := ⟨List.nodup_nil, fun e he => by cases he⟩
  refine hnil.insertAll fun e he => ?_
  obtain ⟨line, hline, hentry⟩ := List.mem_filterMap.1 he
  exact isEntry_of_eq_some (Text.isLineBoundary_eq_false_of_mem_lines hline) hentry

theorem filterMap_written {t : Table Text} (h : ∀ e ∈ t, IsEntry e) :
    (t.map written).filterMap entry? = t := by
  induction t with
  | nil => rfl
  | cons e t ih =>
    rw [List.map_cons, List.filterMap_cons_some (h e List.mem_cons_self).entry?_written,
      ih fun d hd => h d (List.mem_cons_of_mem e hd)]

/-- **What is written for a table** is read as that table. -/
theorem parse_render {t : Table Text} (h : IsStored t) : parse (render t) = t := by
  have hlines : Text.lines (render t) = t.map written := by
    have hrender : render t = (t.map written).flatMap (· ++ ['\n']) := by
      rw [List.flatMap_map]
      exact congrArg (t.flatMap ·) (funext lineOf_eq)
    rw [hrender]
    refine Text.lines_flatMap fun l hl c hc => ?_
    obtain ⟨e, he, rfl⟩ := List.mem_map.1 hl
    rcases List.mem_append.1 hc with hc | hc
    · exact (h.isEntry e he).on_one_line c (List.mem_append_left _ hc)
    · rcases List.mem_cons.1 hc with rfl | hc
      · rfl
      · exact (h.isEntry e he).on_one_line c (List.mem_append_right _ hc)
  rw [parse, hlines, filterMap_written h.isEntry, Table.ofList_eq_self h.nodup]

end SettingsFile

/-! ## Updates -/

/-- The entries in the settings file, given its text when there is one. -/
def storedIn (content : Option Text) : Table Text := content.elim [] SettingsFile.parse

theorem isStored_storedIn (content : Option Text) : SettingsFile.IsStored (storedIn content) := by
  cases content with
  | none => exact ⟨List.nodup_nil, fun e he => by cases he⟩
  | some s => exact SettingsFile.isStored_parse s

/-- **Values on a line of their own**: they are trimmed, and nothing in them ends a line. -/
structure IsStorable (value : RawText) : Prop where
  strip_eq_self : value.strip = value
  on_one_line : ∀ p ∈ value, p.isLineBoundary = false

instance (value : RawText) : Decidable (IsStorable value) :=
  decidable_of_iff (value.strip = value ∧
      value.all (fun p => p.isLineBoundary = false) = true)
    ⟨fun h => ⟨h.1, List.all_iff_forall_prop.1 h.2⟩, fun h => ⟨h.1, List.all_iff_forall_prop.2 h.2⟩⟩

theorem isStorable_ofText_iff {value : Text} : IsStorable value ↔
    Text.IsTrimmed value ∧ ∀ c ∈ value, Text.isLineBoundary c = false := by
  have hline : (∀ p ∈ RawText.ofText value, p.isLineBoundary = false) ↔
      ∀ c ∈ value, Text.isLineBoundary c = false := List.forall_mem_map
  rw [Text.isTrimmed_iff, ← hline, ← RawText.ofText_inj, ← RawText.strip_ofText]
  exact ⟨fun h => ⟨h.1, h.2⟩, fun h => ⟨h.1, h.2⟩⟩

/-- The entries that updates write. -/
def entriesOf {α : Type} (updates : List (Setting × α)) : List (Text × α) :=
  updates.map fun update => (update.1.envName, update.2)

/-- The value that updates write last for a name. -/
def lastWritten {α : Type} (updates : List (Setting × α)) (name : Text) : Option α :=
  Table.get? name (entriesOf updates).reverse

/-- **Tables before and after updates**: every name that was written has its last value and every
other name the value it had; the names that were there keep their order, and new ones follow in the
order in which they were first written. -/
structure IsUpdated (before after : Table Text) (updates : List (Setting × RawText)) : Prop where
  get?_eq : ∀ name, (after.get? name).map RawText.ofText =
    (lastWritten updates name).or ((before.get? name).map RawText.ofText)
  keys_eq : after.keys = before.keys ++
    ((entriesOf updates).map Prod.fst |>.filter (· ∉ before.keys)).eraseDups

/-- The names of settings in the file are names of entries. -/
theorem isEntry_envName (s : Setting) : SettingsFile.IsEntry (s.envName, []) where
  name_trimmed := Text.isTrimmed_iff.2 (by cases s <;> rfl)
  value_trimmed := Text.isTrimmed_iff.2 rfl
  separator_not_mem := by cases s <;> decide
  hash_not_mem_head? := by cases s <;> decide
  on_one_line := by cases s <;> exact List.all_iff_forall_prop.1 rfl

theorem IsStorable.isEntry {value : Text} (h : IsStorable value) (s : Setting) :
    SettingsFile.IsEntry (s.envName, value) :=
  { isEntry_envName s with
    value_trimmed := (isStorable_ofText_iff.1 h).1
    on_one_line := by
      intro c hc
      rcases List.mem_append.1 hc with hc | hc
      · exact (isEntry_envName s).on_one_line c (List.mem_append_left _ hc)
      · exact (isStorable_ofText_iff.1 h).2 c hc }

namespace Surroundings

/-- The settings file holds a text, or there is none. -/
def HoldsText (w : Surroundings) (content : Option Text) : Prop :=
  w.settings = content.map Text.encode

/-- Writes settings one after the other, each by its name inside the program, up to the first that
cannot be written. -/
def setAll (w : Surroundings) : List (Setting × RawText) → Surroundings × Except Error Unit
  | [] => (w, .ok ())
  | (s, value) :: updates =>
    match w.setKey s.key value with
    | (w', .ok ()) => setAll w' updates
    | (w', .error e) => (w', .error e)

variable {w : Surroundings} {content : Option Text}

theorem HoldsText.entries_eq (h : w.HoldsText content) : w.entries = .ok (storedIn content) := by
  cases content with
  | none => simp [entries, show w.settings = none from h, storedIn]
  | some s => simp [entries, show w.settings = some (Text.encode s) from h, storedIn]

/-- **Only a file that is a text can be read.** -/
theorem exists_holdsText {t : Table Text} (h : w.entries = .ok t) :
    ∃ content, w.HoldsText content := by
  unfold entries at h
  split at h
  · rename_i hnone
    exact ⟨none, hnone⟩
  · rename_i bytes hbytes
    split at h
    · rename_i s hs
      exact ⟨some s, by rw [HoldsText, hbytes, Text.decode?_eq_some_iff.1 hs]; rfl⟩
    · cases h

/-- The text of the settings file once a setting is written. -/
def contentWith (content : Option Text) (s : Setting) (value : Text) : Text :=
  SettingsFile.render ((storedIn content).insert s.envName value)

/-- The file holds the text that is stored in it. -/
theorem holdsText_contentWith (w : Surroundings) (content : Option Text) (s : Setting)
    (value : Text) :
    HoldsText { w with settings := some (Text.encode (contentWith content s value)) }
      (some (contentWith content s value)) := rfl

/-- An empty file holds the text without characters. -/
theorem holdsText_empty (w : Surroundings) :
    HoldsText { w with settings := some .empty } (some []) := rfl

/-- **Writing a text** replaces the file by one for the entries with the new value. -/
theorem HoldsText.set_eq (h : w.HoldsText content) (s : Setting) (value : Text) : w.set s value =
    ({ w with settings := some (Text.encode (contentWith content s value)) }, .ok ()) := by
  rw [set, h.entries_eq, RawText.text?_ofText]
  rfl

/-- **Writing anything else** empties the file. -/
theorem HoldsText.set_of_not_isText (h : w.HoldsText content) (s : Setting) {value : RawText}
    (hv : ¬ value.IsText) :
    w.set s value = ({ w with settings := some .empty }, .error .unencodable) := by
  rw [set, h.entries_eq, RawText.text?_eq_none_iff.2 hv]

/-- Every name inside the program can be used for writing. -/
theorem HoldsText.setKey_eq (h : w.HoldsText content) (s : Setting) (value : RawText) :
    w.setKey s.key value = w.set s value := by
  rw [setKey, h.entries_eq, Setting.ofKey?_key]

/-- **An update**: the entries that are read afterwards are those from before with the new one. -/
theorem storedIn_contentWith (content : Option Text) (s : Setting) {value : Text}
    (h : IsStorable value) : storedIn (some (contentWith content s value)) =
      (storedIn content).insert s.envName value :=
  SettingsFile.parse_render ((isStored_storedIn content).insert (h.isEntry s))

/-- Updates by texts, as updates by raw texts. -/
def rawUpdates (updates : List (Setting × Text)) : List (Setting × RawText) :=
  updates.map fun update => (update.1, update.2)

/-- **Updates by texts** succeed one after the other, and write their entries into the table. -/
theorem HoldsText.exists_setAll (h : w.HoldsText content) {updates : List (Setting × Text)}
    (hu : ∀ update ∈ updates, IsStorable update.2) :
    ∃ w' content', w.setAll (rawUpdates updates) = (w', .ok ()) ∧ w'.HoldsText content' ∧
      storedIn content' = (storedIn content).insertAll (entriesOf updates) := by
  -- Induction on the updates: behind the first one the file is a text again.
  induction updates generalizing w content with
  | nil => exact ⟨w, content, rfl, h, rfl⟩
  | cons update updates ih =>
    obtain ⟨s, value⟩ := update
    have hvalue : IsStorable value := hu _ List.mem_cons_self
    obtain ⟨w', content', hw', hcontent', hstored⟩ :=
      ih (holdsText_contentWith w content s value) fun update hm =>
        hu update (List.mem_cons_of_mem _ hm)
    refine ⟨w', content', ?_, hcontent', ?_⟩
    · rw [rawUpdates, List.map_cons, setAll, h.setKey_eq, h.set_eq]
      exact hw'
    · rw [hstored, storedIn_contentWith content s hvalue]
      rfl

/-- **An update by anything else** is the last one, and leaves an empty file. -/
theorem HoldsText.setAll_of_not_isText (h : w.HoldsText content)
    {updates : List (Setting × RawText)} (hu : ∃ update ∈ updates, ¬ update.2.IsText) :
    w.setAll updates = ({ w with settings := some .empty }, .error .unencodable) := by
  induction updates generalizing w content with
  | nil => exact absurd hu (by simp)
  | cons update updates ih =>
    obtain ⟨s, value⟩ := update
    rw [setAll, h.setKey_eq]
    by_cases hv : value.IsText
    · obtain ⟨text, rfl⟩ := hv
      obtain ⟨later, hlater, hnot⟩ := hu
      rcases List.mem_cons.1 hlater with rfl | hlater
      · exact absurd (RawText.isText_ofText text) hnot
      rw [h.set_eq]
      exact ih (holdsText_contentWith w content s text) ⟨later, hlater, hnot⟩
    · rw [h.set_of_not_isText s hv]

/-- Updates by raw texts that are texts. -/
theorem exists_rawUpdates {updates : List (Setting × RawText)}
    (hu : ∀ update ∈ updates, update.2.IsText) : ∃ texts, updates = rawUpdates texts := by
  induction updates with
  | nil => exact ⟨[], rfl⟩
  | cons update updates ih =>
    obtain ⟨text, htext⟩ := hu update List.mem_cons_self
    obtain ⟨texts, rfl⟩ := ih fun update hm => hu update (List.mem_cons_of_mem _ hm)
    exact ⟨(update.1, text) :: texts, congrArg (· :: rawUpdates texts) (Prod.ext rfl htext)⟩

theorem entriesOf_rawUpdates (updates : List (Setting × Text)) : entriesOf (rawUpdates updates) =
    (entriesOf updates).map fun entry => (entry.1, RawText.ofText entry.2) := by
  simp [entriesOf, rawUpdates]

/-- What is written into a table updates it. -/
theorem isUpdated_insertAll (t : Table Text) (updates : List (Setting × Text)) :
    IsUpdated t (t.insertAll (entriesOf updates)) (rawUpdates updates) where
  get?_eq name := by
    rw [Table.get?_insertAll, lastWritten, entriesOf_rawUpdates, ← List.map_reverse,
      Table.get?_map_values, Option.map_or]
  keys_eq := by
    rw [Table.keys_insertAll, entriesOf_rawUpdates, List.map_map]
    rfl

/-- **The settings file under updates.** Whatever text the file holds, or when there is none, values
that are trimmed and on one line are written for settings any number of times. When all of them are
texts, this succeeds and the file has changed as a map does. When one is not, it fails and the file
is empty, so that every entry is lost. And reading a file that was written for what was read gives
the same again. -/
theorem setAll_updates (h : w.HoldsText content) {updates : List (Setting × RawText)}
    (hu : ∀ update ∈ updates, IsStorable update.2) :
    ((∀ update ∈ updates, update.2.IsText) → ∃ w' t, w.setAll updates = (w', .ok ()) ∧
      w'.entries = .ok t ∧ IsUpdated (storedIn content) t updates) ∧
    ((∃ update ∈ updates, ¬ update.2.IsText) → ∃ w', w.setAll updates = (w', .error .unencodable) ∧
      w'.settings = some .empty ∧ w'.entries = .ok []) ∧
    ∀ s, SettingsFile.parse (SettingsFile.render (SettingsFile.parse s)) =
      SettingsFile.parse s := by
  refine ⟨fun htexts => ?_, fun hnot => ?_,
    fun s => SettingsFile.parse_render (SettingsFile.isStored_parse s)⟩
  · obtain ⟨texts, rfl⟩ := exists_rawUpdates htexts
    obtain ⟨w', content', hw', hcontent', hstored⟩ := h.exists_setAll fun update hm =>
      hu (update.1, update.2) (List.mem_map_of_mem hm)
    exact ⟨w', _, hw', hcontent'.entries_eq, hstored ▸ isUpdated_insertAll _ texts⟩
  · exact ⟨_, h.setAll_of_not_isText hnot, rfl, (holdsText_empty w).entries_eq⟩

/-- A settings file with a comment, an empty line, a name that stands twice, an empty name, a line
that says nothing, and a setting on a line without an end. -/
def mixedFile : Text :=
  "# A=0\n\nA = 1\r\n =x=y\nnonsense\nA=2\nASSETVER_LOG_LEVEL=DEBUG".toList

/-- A setting is written twice, and another one in between. -/
def mixedUpdates : List (Setting × RawText) :=
  rawUpdates [(.logLevel, []), (.assetType, "a = b".toList), (.logLevel, ['#'])]

/-- A setting that is in the file and one that is not are written among other entries. -/
theorem setAll_updates_mixedFile :
    (⟨some (Text.encode mixedFile), [], .empty⟩ : Surroundings).HoldsText (some mixedFile) ∧
    storedIn (some mixedFile) = [(['A'], ['2']), ([], "x=y".toList),
      ("ASSETVER_LOG_LEVEL".toList, "DEBUG".toList)] ∧
    (∀ update ∈ mixedUpdates, IsStorable update.2) ∧
    (∀ update ∈ mixedUpdates, update.2.IsText) ∧
    (∃ w' t, (⟨some (Text.encode mixedFile), [], .empty⟩ : Surroundings).setAll mixedUpdates =
          (w', .ok ()) ∧ w'.entries = .ok t ∧
        IsUpdated (storedIn (some mixedFile)) t mixedUpdates ∧
        t.keys = [['A'], [], "ASSETVER_LOG_LEVEL".toList, "ASSETVER_ASSET_TYPE".toList]) ∧
    ∀ s, SettingsFile.parse (SettingsFile.render (SettingsFile.parse s)) =
      SettingsFile.parse s := by
  have hstorable : ∀ update ∈ mixedUpdates, IsStorable update.2 := by decide +kernel
  have htexts : ∀ update ∈ mixedUpdates, update.2.IsText := by
    simp [mixedUpdates, rawUpdates, RawText.isText_ofText]
  have hkeys : (storedIn (some mixedFile)).keys ++
      ((entriesOf mixedUpdates).map Prod.fst
        |>.filter (· ∉ (storedIn (some mixedFile)).keys)).eraseDups =
      [['A'], [], "ASSETVER_LOG_LEVEL".toList, "ASSETVER_ASSET_TYPE".toList] := by decide +kernel
  have hholds : HoldsText ⟨some (Text.encode mixedFile), [], .empty⟩ (some mixedFile) := rfl
  obtain ⟨hupdated, -, hagain⟩ := setAll_updates hholds hstorable
  obtain ⟨w', t, hw', ht, hupdated⟩ := hupdated htexts
  exact ⟨hholds, by decide +kernel, hstorable, htexts,
    ⟨w', t, hw', ht, hupdated, hupdated.keys_eq.trans hkeys⟩, hagain⟩

/-- What the byte FF of an argument comes in as. -/
def strayByte : RawText := [.surrogate 0x4FF]

/-- **A stray byte** is trimmed and on one line, but when it is written into a file all entries of
that are lost. -/
theorem setAll_strayByte :
    (⟨some (Text.encode mixedFile), [], .empty⟩ : Surroundings).HoldsText (some mixedFile) ∧
    IsStorable strayByte ∧
    Table.get? "ASSETVER_LOG_LEVEL".toList (storedIn (some mixedFile)) = some "DEBUG".toList ∧
    ∃ w', (⟨some (Text.encode mixedFile), [], .empty⟩ : Surroundings).setAll
        [(.githubDomains, strayByte)] = (w', .error .unencodable) ∧
      w'.entries = .ok [] ∧
      ¬ IsUpdated (storedIn (some mixedFile)) [] [(.githubDomains, strayByte)] := by
  have hholds : HoldsText ⟨some (Text.encode mixedFile), [], .empty⟩ (some mixedFile) := rfl
  have hnot : ¬ strayByte.IsText := RawText.text?_eq_none_iff.1 rfl
  refine ⟨hholds, by decide, by decide +kernel, _,
    hholds.setAll_of_not_isText ⟨_, List.mem_singleton_self _, hnot⟩,
    (holdsText_empty _).entries_eq, fun h => ?_⟩
  exact absurd (h.get?_eq Setting.githubDomains.envName) nofun

end Surroundings

end AssetBridge
