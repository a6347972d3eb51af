import AssetBridge.Proofs.Outcomes
import AssetBridge.Proofs.Splitting
import AssetBridge.Target.Constraint

/-!
# Reading constraints

A constraint is read in two steps that do not know of each other: the text is cut into alternatives
and these into parts, and each part is read by itself. Errors apart, nothing else counts, so the
blanks around a constraint do not, and a bar between two constraints puts their alternatives behind
each other.

## Main definitions

* `Constraint.partLists`: the parts of the alternatives of a text
* `Constraint.readParts`: the bounds of the parts of one alternative

## Main results

* `Constraint.toOption_parse`: reading is cutting, and then reading the parts
* `Constraint.parse_append_bar`: two constraints with a bar between them
-/

namespace AssetBridge

namespace Target.Constraint

/-! ## Cutting -/

/-- The parts of the alternatives of a text. -/
def partLists (s : Text) : List (List Text) := (splitBars false s).map (Text.words isPartSeparator)

theorem splitBars_ne_nil (b : Bool) (s : Text) : splitBars b s ≠ [] := by
  induction s generalizing b with
  | nil => simp [splitBars]
  | cons c s ih =>
    rw [splitBars]
    split
    · split
      · exact ih false
      · simp
    · obtain ⟨w, ws, hw⟩ := List.exists_cons_of_ne_nil (ih false)
      simp [hw, Text.extendFirst]

/-- What is not a bar belongs to the alternative at hand. -/
theorem splitBars_cons_of_ne {c : Char} (h : c ≠ '|') (b : Bool) (s : Text) :
    splitBars b (c :: s) = Text.extendFirst c (splitBars false s) := by
  rw [splitBars, if_neg h]

/-- **A bar** divides what does not end with one from what is behind it. -/
theorem splitBars_append_pending {a : Text} {b : Bool} (ha : a.getLast? ≠ some '|')
    (hb : b = true → a ≠ []) (s : Text) :
    splitBars b (a ++ '|' :: s) = splitBars b a ++ splitBars true s := by
  -- Induction on the first text, for either state: behind a bar and elsewhere.
  induction a generalizing b with
  | nil =>
    have hf : b = false := by
      rw [Bool.eq_false_iff]
      exact fun h => hb h rfl
    subst hf
    rfl
  | cons c a ih =>
    by_cases hc : c = '|'
    · subst hc
      -- the bar is not the last character, so something is left of the first text
      have hne : a ≠ [] := by
        rintro rfl
        exact ha rfl
      have ha' : a.getLast? ≠ some '|' := by
        obtain ⟨d, r, rfl⟩ := List.exists_cons_of_ne_nil hne
        rwa [List.getLast?_cons_cons] at ha
      cases b with
      | true => exact ih ha' fun h => absurd h (by decide)
      | false => exact congrArg ([] :: ·) (ih ha' fun _ => hne)
    · have ha' : a.getLast? ≠ some '|' := by
        cases a with
        | nil => simp
        | cons d r => rwa [List.getLast?_cons_cons] at ha
      rw [List.cons_append, splitBars_cons_of_ne hc, splitBars_cons_of_ne hc,
        ih ha' fun h => absurd h (by decide), Text.extendFirst_append (splitBars_ne_nil _ _)]

/-- What does not begin with a bar is split alike behind a bar and elsewhere. -/
theorem splitBars_true_eq_false {s : Text} (hs : s.head? ≠ some '|') :
    splitBars true s = splitBars false s := by
  cases s with
  | nil => rfl
  | cons c s =>
    have hc : c ≠ '|' := fun e => hs (by simp [e])
    rw [splitBars_cons_of_ne hc, splitBars_cons_of_ne hc]

/-- A single bar between texts that have none next to it. -/
theorem splitBars_append_bar {a s : Text} {b : Bool} (ha : a.getLast? ≠ some '|')
    (hb : b = true → a ≠ []) (hs : s.head? ≠ some '|') :
    splitBars b (a ++ '|' :: s) = splitBars b a ++ splitBars false s := by
  rw [splitBars_append_pending ha hb, splitBars_true_eq_false hs]

theorem splitBars_eq_singleton {s : Text} (h : '|' ∉ s) : splitBars false s = [s] := by
  induction s with
  | nil => rfl
  | cons c s ih =>
    have hc : c ≠ '|' := fun e => h (by simp [e])
    rw [splitBars_cons_of_ne hc, ih fun e => h (by simp [e])]
    rfl

/-- A bar at the end leaves an empty alternative behind it. -/
theorem splitBars_append_final (a : Text) (b : Bool) :
    ∃ l, splitBars b (a ++ ['|']) = l ++ [[]] ∧ (b = false → l ≠ []) := by
  -- Behind a bar the last one is the second of a pair, so nothing need stand in front of it.
  induction a generalizing b with
  | nil =>
    cases b with
    | true => exact ⟨[], rfl, fun h => absurd h (by decide)⟩
    | false => exact ⟨[[]], rfl, fun _ => by simp⟩
  | cons c a ih =>
    by_cases hc : c = '|'
    · subst hc
      cases b with
      | true =>
        obtain ⟨l, hl, -⟩ := ih false
        exact ⟨l, hl, fun h => absurd h (by decide)⟩
      | false =>
        obtain ⟨l, hl, -⟩ := ih true
        exact ⟨[] :: l, congrArg ([] :: ·) hl, fun _ => by simp⟩
    · obtain ⟨l, hl, hne⟩ := ih false
      obtain ⟨w, ws, rfl⟩ := List.exists_cons_of_ne_nil (hne rfl)
      refine ⟨(c :: w) :: ws, ?_, fun _ => by simp⟩
      rw [List.cons_append, splitBars_cons_of_ne hc, hl]
      rfl

/-- What is added behind a text that is not a bar belongs to the last alternative. -/
theorem splitBars_append_of_ne {c : Char} (h : c ≠ '|') (s : Text) (b : Bool) :
    ∃ l w, splitBars b s = l ++ [w] ∧ splitBars b (s ++ [c]) = l ++ [w ++ [c]] := by
  induction s generalizing b with
  | nil => exact ⟨[], [], rfl, by rw [List.nil_append, splitBars_cons_of_ne h]; rfl⟩
  | cons d s ih =>
    by_cases hd : d = '|'
    · subst hd
      cases b with
      | true => exact ih false
      | false =>
        obtain ⟨l, w, hl, hw⟩ := ih true
        exact ⟨[] :: l, w, congrArg ([] :: ·) hl, congrArg ([] :: ·) hw⟩
    · obtain ⟨l, w, hl, hw⟩ := ih false
      rw [List.cons_append, splitBars_cons_of_ne hd, splitBars_cons_of_ne hd, hl, hw]
      cases l with
      | nil => exact ⟨[], d :: w, rfl, rfl⟩
      | cons u l => exact ⟨(d :: u) :: l, w, rfl, rfl⟩

/-- Texts without bars are found again when bars were put between them. -/
theorem splitBars_join {s : Text} {l : List Text} (h : ∀ t ∈ s :: l, t ≠ [] ∧ '|' ∉ t) :
    splitBars false (Text.join ['|'] (s :: l)) = s :: l := by
  -- Induction on the texts behind the first: a bar divides what has no bar at its ends.
  induction l generalizing s with
  | nil => simpa using splitBars_eq_singleton (h s (by simp)).2
  | cons t l ih =>
    have hrest := ih (s := t) fun u hu => h u (List.mem_cons_of_mem s hu)
    have hlast : s.getLast? ≠ some '|' := fun e =>
      (h s (by simp)).2 (List.mem_of_getLast? e)
    have hhead : (Text.join ['|'] (t :: l)).head? ≠ some '|' := by
      obtain ⟨hne, hbar⟩ := h t (by simp)
      obtain ⟨c, r, rfl⟩ := List.exists_cons_of_ne_nil hne
      intro e
      rw [Text.join_cons] at e
      exact hbar (by simp [Option.some.inj e])
    have hj : Text.join ['|'] (s :: t :: l) = s ++ '|' :: Text.join ['|'] (t :: l) := by
      simp [Text.join_cons]
    rw [hj, splitBars_append_bar hlast (fun h => absurd h (by decide)) hhead, hrest,
      splitBars_eq_singleton (h s (by simp)).2]
    rfl

/-! ## Blanks around a constraint -/

theorem isPartSeparator_of_isBlank {c : Char} (h : Text.isBlank c = true) :
    isPartSeparator c = true := by
  simp [isPartSeparator, h]

theorem ne_bar_of_isBlank {c : Char} (h : Text.isBlank c = true) : c ≠ '|' := by
  rintro rfl
  exact absurd h (by decide)

theorem partLists_blank_cons {c : Char} (h : Text.isBlank c = true) (s : Text) :
    partLists (c :: s) = partLists s := by
  obtain ⟨w, ws, hw⟩ := List.exists_cons_of_ne_nil (splitBars_ne_nil false s)
  have hwords : Text.words isPartSeparator (c :: w) = Text.words isPartSeparator w :=
    Text.words_append_cons (isPartSeparator_of_isBlank h) [] w
  rw [partLists, partLists, splitBars_cons_of_ne (ne_bar_of_isBlank h), hw, Text.extendFirst,
    List.map_cons, List.map_cons, hwords]

theorem partLists_append_blank {c : Char} (h : Text.isBlank c = true) (s : Text) :
    partLists (s ++ [c]) = partLists s := by
  obtain ⟨l, w, hl, hw⟩ := splitBars_append_of_ne (ne_bar_of_isBlank h) s false
  have hwords : Text.words isPartSeparator (w ++ [c]) = Text.words isPartSeparator w := by
    rw [Text.words_append_cons (isPartSeparator_of_isBlank h) w []]
    exact List.append_nil _
  rw [partLists, partLists, hl, hw, List.map_append, List.map_append, List.map_cons,
    List.map_cons, hwords]

/-- **Blanks** around a constraint do not count. -/
theorem partLists_strip (s : Text) : partLists (Text.strip s) = partLists s := by
  -- The front loses its blanks from the left, the back from the right when it is reversed.
  have hfront : ∀ t : Text, partLists (t.dropWhile Text.isBlank) = partLists t := by
    intro t
    induction t with
    | nil => rfl
    | cons c t ih =>
      by_cases hc : Text.isBlank c = true
      · rw [List.dropWhile_cons_of_pos hc, ih, partLists_blank_cons hc]
      · rw [List.dropWhile_cons_of_neg hc]
  have hback : ∀ t : Text, partLists (t.dropWhile Text.isBlank).reverse = partLists t.reverse := by
    intro t
    induction t with
    | nil => rfl
    | cons c t ih =>
      by_cases hc : Text.isBlank c = true
      · rw [List.dropWhile_cons_of_pos hc, ih, List.reverse_cons, partLists_append_blank hc]
      · rw [List.dropWhile_cons_of_neg hc]
  rw [Text.strip, Text.dropEndWhile, hback, List.reverse_reverse, hfront]

/-! ## Reading -/

/-- The bounds of the parts of one alternative. There has to be a part. -/
def readParts (parts : List Text) : Option (List Bound) :=
  if parts.isEmpty then none
  else List.flatten <$> parts.mapM fun part => (parsePart part).toOption

theorem toOption_parseAlternative (whole alternative : Text) :
    (parseAlternative whole alternative).toOption =
      readParts (Text.words isPartSeparator alternative) := by
  simp only [parseAlternative, readParts]
  split
  · rfl
  · rw [Except.toOption_map, Except.toOption_mapM]
    simp only [Except.toOption_mapError]

/-- **Reading** is cutting, and then reading the parts. -/
theorem toOption_parse (s : Text) :
    (parse s).toOption = ((partLists s).mapM readParts).map fun l => ⟨s, l⟩ := by
  rw [← partLists_strip]
  -- Without anything but blanks there is no alternative to read.
  by_cases hs : Text.strip s = []
  · rw [parse, hs]
    rfl
  · have hm : ((splitBars false (Text.strip s)).mapM (parseAlternative s)).toOption =
        (partLists (Text.strip s)).mapM readParts := by
      rw [Except.toOption_mapM, partLists, List.mapM_map]
      simp only [toOption_parseAlternative]
      rfl
    have he : (Text.strip s).isEmpty = false := by simpa using hs
    rw [parse, he, ← hm]
    cases (splitBars false (Text.strip s)).mapM (parseAlternative s) <;> rfl

theorem mapM_readParts_of_parse {s : Text} {c : Constraint} (h : parse s = .ok c) :
    c.source = s ∧ (partLists s).mapM readParts = some c.alternatives := by
  have ho := toOption_parse s
  rw [h] at ho
  obtain ⟨l, hl, hc⟩ := Option.map_eq_some_iff.1 ho.symm
  subst hc
  exact ⟨rfl, hl⟩

theorem parse_of_mapM_readParts {s : Text} {l : List (List Bound)}
    (h : (partLists s).mapM readParts = some l) : parse s = .ok ⟨s, l⟩ := by
  apply Except.eq_ok_of_toOption
  rw [toOption_parse, h]
  rfl

/-- A text without separators is one part, so it is read as that part is. -/
theorem toOption_parse_part {s : Text} (hne : s ≠ []) (hs : ∀ c ∈ s, isPartSeparator c = false)
    (hbar : '|' ∉ s) : (parse s).toOption = (parsePart s).toOption.map fun bs => ⟨s, [bs]⟩ := by
  have hlists : partLists s = [[s]] := by
    rw [partLists, splitBars_eq_singleton hbar]
    exact congrArg (fun ws => [ws]) (Text.words_eq_singleton hne hs)
  rw [toOption_parse, hlists, List.mapM_cons, readParts, List.mapM_cons]
  cases (parsePart s).toOption with
  | none => rfl
  | some bs => simp

/-- A text that can be read has no alternative without parts. -/
theorem nil_not_mem_partLists {s : Text} {l : List (List Bound)}
    (h : (partLists s).mapM readParts = some l) : [] ∉ partLists s := by
  intro hm
  obtain ⟨before, behind, hl⟩ := List.append_of_mem hm
  rw [hl, List.mapM_append, List.mapM_cons] at h
  cases hb : before.mapM readParts <;> simp [hb, readParts] at h

/-- What can be read neither begins nor ends with a bar. -/
theorem bar_not_mem_ends {s : Text} {l : List (List Bound)}
    (h : (partLists s).mapM readParts = some l) : s.head? ≠ some '|' ∧ s.getLast? ≠ some '|' := by
  have hnil := nil_not_mem_partLists h
  constructor
  -- A bar in front leaves an empty alternative before it, and a bar at the end one behind it.
  · intro hh
    obtain ⟨r, rfl⟩ : ∃ r, s = '|' :: r := by
      cases s with
      | nil => cases hh
      | cons c r => exact ⟨r, by rw [Option.some.inj hh]⟩
    exact hnil (List.mem_cons_self ..)
  · intro hl
    obtain ⟨a, rfl⟩ : ∃ a, s = a ++ ['|'] := by
      rcases List.eq_nil_or_concat s with rfl | ⟨a, c, rfl⟩
      · cases hl
      · simp only [List.concat_eq_append, List.getLast?_append, List.getLast?_singleton] at hl
        exact ⟨a, by rw [List.concat_eq_append, Option.some.inj hl]⟩
    obtain ⟨t, ht, -⟩ := splitBars_append_final a false
    apply hnil
    rw [partLists, ht, List.map_append]
    exact List.mem_append_right _ (List.mem_cons_self ..)

/-- **A bar between two constraints** puts their alternatives behind each other. -/
theorem parse_append_bar {s t : Text} {c d : Constraint} (hs : parse s = .ok c)
    (ht : parse t = .ok d) :
    parse (s ++ '|' :: t) = .ok ⟨s ++ '|' :: t, c.alternatives ++ d.alternatives⟩ := by
  obtain ⟨-, hc⟩ := mapM_readParts_of_parse hs
  obtain ⟨-, hd⟩ := mapM_readParts_of_parse ht
  -- Neither text has a bar at its end, so the bar between them is a single one.
  have hsplit : partLists (s ++ '|' :: t) = partLists s ++ partLists t := by
    rw [partLists, splitBars_append_bar (bar_not_mem_ends hc).2 (fun h => absurd h (by decide))
      (bar_not_mem_ends hd).1, List.map_append]
    rfl
  apply parse_of_mapM_readParts
  rw [hsplit, List.mapM_append, hc, hd]
  rfl

/-- A version that can be read is matched without an error. -/
theorem matchesText_of_parse (c : Constraint) {w : Text} {v : Version}
    (h : Version.parse w = .ok v) : c.matchesText w = .ok (c.accepts v) := by
  rw [matchesText, h]
  rfl

/-- A version meets one of two lists of alternatives put behind each other. -/
theorem accepts_append (s : Text) (l m : List (List Bound)) (v : Version) :
    accepts ⟨s, l ++ m⟩ v = (l.any (·.all (·.matches v)) || m.any (·.all (·.matches v))) :=
  List.any_append

end Target.Constraint

end AssetBridge
