import AssetBridge.Proofs.Splitting
import AssetBridge.Source.Suffix
import Mathlib.Logic.Relation

/-!
# Runs of wildcards

Wildcards are collapsed in passes. A pass replaces the pairs that it finds from the left, so it
about halves every run of wildcards, and new pairs appear where it has replaced old ones. What the
passes end with does not depend on the order of the replacements: a wildcard that stands in front of
another one is dropped, and nothing else is. Replacing a pair anywhere keeps this text, and a text
without a pair is this text already, so it is the normal form of the replacements. Each of them
makes the text shorter, hence the passes come to an end.

## Main definitions

* `wildcards n`: a run of `n` wildcards
* `dropRepeats`: a text without the wildcards that stand in front of another one
* `Merges`: the replacement of one pair, wherever it stands
* `CollapsesTo`: the passes over a text, and what they end with
* `RunsMerged`: the maximal runs of a text as single wildcards

## Main results

* `dropRepeats_pair`: a single wildcard for a pair drops the same wildcards
* `transGen_collapseOnce`: a pass replaces pairs one by one
* `collapseWildcards_eq_dropRepeats`: the passes drop the wildcards in front of another one
* `contains_convertSuffix`: no version with a converted suffix has a pair
* `collapseWildcards_normalForm`: the passes end with the normal form, which has every maximal run
  as a single wildcard
-/

namespace AssetBridge.Source

open Relation (ReflTransGen TransGen)

/-! ## Wildcards behind a point -/

/-- A wildcard component and the point in front of it. -/
def wildcard : Text := ".x".toList

/-- A run of `n` wildcards. -/
def wildcards (n : Nat) : Text := (List.replicate n wildcard).flatten

@[simp] theorem wildcards_zero : wildcards 0 = [] := rfl

@[simp] theorem wildcards_succ (n : Nat) : wildcards (n + 1) = wildcard ++ wildcards n := rfl

theorem wildcard_ne_nil : wildcard ≠ [] := by decide

theorem wildcardPair_ne_nil : wildcardPair ≠ [] := by decide

theorem wildcardPair_eq : wildcardPair = wildcard ++ wildcard := rfl

theorem startsWith_wildcard_cons_iff {c : Char} {s : Text} :
    Text.startsWith wildcard (c :: s) = true ↔ c = '.' ∧ s.head? = some 'x' := by
  rw [Text.startsWith_iff, List.head?_eq_some_iff]
  constructor
  · rintro ⟨r, hr⟩
    obtain ⟨rfl, rfl⟩ := List.cons.inj hr
    exact ⟨rfl, r, rfl⟩
  · rintro ⟨rfl, r, rfl⟩
    exact ⟨r, rfl⟩

/-- Whether a text opens with a wildcard does not depend on one behind it. -/
theorem startsWith_wildcard_append {a : Text} (h : a ≠ []) (s : Text) :
    Text.startsWith wildcard (a ++ wildcard ++ s) = Text.startsWith wildcard a := by
  obtain ⟨c, a, rfl⟩ := List.exists_cons_of_ne_nil h
  -- Behind a lone point stands the point of the wildcard.
  have hhead : (a ++ wildcard ++ s).head? = some 'x' ↔ a.head? = some 'x' := by
    cases a with
    | nil => simp [wildcard]
    | cons d a => rfl
  rw [Bool.eq_iff_iff, List.cons_append, List.cons_append, startsWith_wildcard_cons_iff,
    startsWith_wildcard_cons_iff, hhead]

/-- A pair opens with a wildcard, or it stands behind that wildcard. -/
theorem contains_wildcardPair_append (s : Text) : Text.contains wildcardPair (wildcard ++ s) =
    (Text.startsWith wildcard s || Text.contains wildcardPair s) := by
  show Text.contains ['.', 'x', '.', 'x'] ('.' :: 'x' :: s) = _
  rw [Text.contains, Text.contains, Text.startsWith_cons_self, Text.startsWith_cons_self,
    Text.startsWith_cons_eq_false (by decide), Bool.false_or]
  rfl

/-- A character that opens no wildcard opens no pair. -/
theorem contains_wildcardPair_cons {c : Char} {s : Text}
    (h : Text.startsWith wildcard (c :: s) = false) :
    Text.contains wildcardPair (c :: s) = Text.contains wildcardPair s := by
  have hstart : Text.startsWith wildcardPair (c :: s) = false := by
    rw [Bool.eq_false_iff] at h ⊢
    intro hpair
    obtain ⟨r, hr⟩ := Text.startsWith_iff.1 hpair
    exact h (Text.startsWith_iff.2 ⟨wildcard ++ r, hr⟩)
  rw [Text.contains, hstart, Bool.false_or]

theorem contains_wildcardPair_eq_false {s : Text} (h : Text.contains wildcard s = false) :
    Text.contains wildcardPair s = false := by
  rw [Bool.eq_false_iff, ne_eq, Text.contains_iff] at h ⊢
  rintro ⟨a, b, rfl⟩
  exact h ⟨a, wildcard ++ b, by simp [wildcardPair_eq]⟩

/-! ## Wildcards in front of another one -/

/-- **The last wildcards**: a text without the wildcards that stand in front of another one. -/
def dropRepeats : Text → Text
  | '.' :: 'x' :: s =>
    if Text.startsWith wildcard s then dropRepeats s else wildcard ++ dropRepeats s
  | c :: s => c :: dropRepeats s
  | [] => []

theorem dropRepeats_wildcard (s : Text) : dropRepeats (wildcard ++ s) =
    if Text.startsWith wildcard s then dropRepeats s else wildcard ++ dropRepeats s := by
  show dropRepeats ('.' :: 'x' :: s) = _
  rw [dropRepeats]

theorem dropRepeats_cons {c : Char} {s : Text} (h : Text.startsWith wildcard (c :: s) = false) :
    dropRepeats (c :: s) = c :: dropRepeats s := by
  rw [dropRepeats]
  rintro r rfl rfl
  cases h

theorem head?_dropRepeats (s : Text) : (dropRepeats s).head? = s.head? := by
  induction s using Text.occurrence_induction wildcard_ne_nil with
  | nil => rfl
  | occurrence s ih =>
    rw [dropRepeats_wildcard]
    split
    · rename_i hstart
      obtain ⟨r, rfl⟩ := Text.startsWith_iff.1 hstart
      exact ih
    · rfl
  | cons c s h _ =>
    rw [dropRepeats_cons h]
    rfl

/-- The last wildcard of a run stays, so a text opens with one if it did before. -/
theorem startsWith_dropRepeats (s : Text) :
    Text.startsWith wildcard (dropRepeats s) = Text.startsWith wildcard s := by
  induction s using Text.occurrence_induction wildcard_ne_nil with
  | nil => rfl
  | occurrence s ih =>
    rw [dropRepeats_wildcard]
    split
    · rename_i hstart
      rw [ih, hstart]
      rfl
    · rfl
  | cons c s h _ =>
    rw [dropRepeats_cons h, Bool.eq_iff_iff, startsWith_wildcard_cons_iff, head?_dropRepeats,
      ← startsWith_wildcard_cons_iff]

/-- **No pair is left**. -/
theorem contains_dropRepeats (s : Text) : Text.contains wildcardPair (dropRepeats s) = false := by
  induction s using Text.occurrence_induction wildcard_ne_nil with
  | nil => rfl
  | occurrence s ih =>
    rw [dropRepeats_wildcard]
    split
    · exact ih
    · rename_i hstart
      rw [contains_wildcardPair_append, startsWith_dropRepeats, ih, Bool.or_false]
      exact Bool.eq_false_iff.2 hstart
  | cons c s h ih =>
    have hfirst : Text.startsWith wildcard (c :: dropRepeats s) = false := by
      rw [← dropRepeats_cons h, startsWith_dropRepeats, h]
    rw [dropRepeats_cons h, contains_wildcardPair_cons hfirst, ih]

/-- A text without a pair stays as it is. -/
theorem dropRepeats_eq_self {s : Text} (h : Text.contains wildcardPair s = false) :
    dropRepeats s = s := by
  induction s using Text.occurrence_induction wildcard_ne_nil with
  | nil => rfl
  | occurrence s ih =>
    rw [contains_wildcardPair_append, Bool.or_eq_false_iff] at h
    rw [dropRepeats_wildcard, h.1, ih h.2]
    rfl
  | cons c s hc ih =>
    rw [contains_wildcardPair_cons hc] at h
    rw [dropRepeats_cons hc, ih h]

/-- **A single wildcard for a pair**: the first wildcard of the pair is dropped anyway, and the one
in front of it, if there is one, still stands in front of a wildcard. -/
theorem dropRepeats_pair (a b : Text) :
    dropRepeats (a ++ wildcardPair ++ b) = dropRepeats (a ++ wildcard ++ b) := by
  have hpair : ∀ a, a ++ wildcardPair ++ b = a ++ wildcard ++ (wildcard ++ b) := by
    simp [wildcardPair_eq]
  simp only [hpair]
  -- Induction on the text in front, wildcard by wildcard.
  induction a using Text.occurrence_induction wildcard_ne_nil with
  | nil => exact (dropRepeats_wildcard (wildcard ++ b)).trans (if_pos rfl)
  | occurrence a ih =>
    have hstart : ∀ s t, Text.startsWith wildcard (a ++ wildcard ++ s) =
        Text.startsWith wildcard (a ++ wildcard ++ t) := by
      intro s t
      cases a with
      | nil => rfl
      | cons c a => rw [startsWith_wildcard_append (by simp), startsWith_wildcard_append (by simp)]
    have hassoc : ∀ s, wildcard ++ a ++ wildcard ++ s = wildcard ++ (a ++ wildcard ++ s) := by
      simp
    rw [hassoc, hassoc, dropRepeats_wildcard, dropRepeats_wildcard, hstart _ b, ih]
  | cons c a h ih =>
    have hfirst : ∀ s, Text.startsWith wildcard (c :: (a ++ wildcard ++ s)) = false := fun s =>
      (startsWith_wildcard_append (List.cons_ne_nil c a) s).trans h
    simp only [List.cons_append]
    rw [dropRepeats_cons (hfirst _), dropRepeats_cons (hfirst _), ih]

/-- A part without a point is passed over. -/
theorem dropRepeats_append_left {a : Text} (h : '.' ∉ a) (s : Text) :
    dropRepeats (a ++ s) = a ++ dropRepeats s := by
  induction a with
  | nil => rfl
  | cons c a ih =>
    have hfirst : Text.startsWith wildcard (c :: (a ++ s)) = false := by
      rw [Bool.eq_false_iff]
      intro hstart
      exact h (by simp [(startsWith_wildcard_cons_iff.1 hstart).1])
    rw [List.cons_append, dropRepeats_cons hfirst, ih fun hm => h (List.mem_cons_of_mem c hm)]
    rfl

theorem dropRepeats_sublist (s : Text) : (dropRepeats s).Sublist s := by
  induction s using Text.occurrence_induction wildcard_ne_nil with
  | nil => exact List.Sublist.refl []
  | occurrence s ih =>
    rw [dropRepeats_wildcard]
    split
    · exact ih.trans (List.sublist_append_right wildcard s)
    · exact ih.append_left wildcard
  | cons c s h ih =>
    rw [dropRepeats_cons h]
    exact ih.cons_cons c

/-- A run of wildcards counts as a single one, whatever stands around it. -/
theorem dropRepeats_wildcards (a : Text) (n : Nat) (b : Text) :
    dropRepeats (a ++ wildcards (n + 1) ++ b) = dropRepeats (a ++ wildcard ++ b) := by
  induction n with
  | zero => simp
  | succ n ih =>
    calc dropRepeats (a ++ wildcards (n + 1 + 1) ++ b)
        = dropRepeats (a ++ wildcardPair ++ (wildcards n ++ b)) := by simp [wildcardPair_eq]
      _ = dropRepeats (a ++ wildcard ++ (wildcards n ++ b)) := dropRepeats_pair a _
      _ = dropRepeats (a ++ wildcards (n + 1) ++ b) := by simp
      _ = dropRepeats (a ++ wildcard ++ b) := ih

/-! ## Pairs one by one -/

/-- **One replacement**: a pair becomes a single wildcard, wherever it stands. -/
def Merges (s t : Text) : Prop :=
  ∃ a b, s = a ++ wildcardPair ++ b ∧ t = a ++ wildcard ++ b

variable {s t : Text}

namespace Merges

theorem length_lt (h : Merges s t) : t.length < s.length := by
  obtain ⟨a, b, rfl, rfl⟩ := h
  simp [wildcardPair_eq, wildcard]

theorem append_left (h : Merges s t) (a : Text) : Merges (a ++ s) (a ++ t) := by
  obtain ⟨b, c, rfl, rfl⟩ := h
  exact ⟨a ++ b, c, by simp, by simp⟩

theorem dropRepeats_eq (h : Merges s t) : dropRepeats s = dropRepeats t := by
  obtain ⟨a, b, rfl, rfl⟩ := h
  exact dropRepeats_pair a b

end Merges

theorem length_lt_of_transGen (h : TransGen Merges s t) : t.length < s.length := by
  induction h with
  | single hstep => exact hstep.length_lt
  | tail _ hstep ih => exact Nat.lt_trans hstep.length_lt ih

theorem transGen_append_left (h : TransGen Merges s t) (a : Text) :
    TransGen Merges (a ++ s) (a ++ t) :=
  TransGen.lift (a ++ ·) (fun _ _ hstep => Merges.append_left hstep a) s t h

theorem dropRepeats_eq_of_reflTransGen (h : ReflTransGen Merges s t) :
    dropRepeats s = dropRepeats t := by
  induction h with
  | refl => rfl
  | tail _ hstep ih => exact ih.trans hstep.dropRepeats_eq

/-- **Whatever the order**, replacements that leave no pair drop the same wildcards. -/
theorem eq_dropRepeats_of_reflTransGen (h : ReflTransGen Merges s t)
    (ht : Text.contains wildcardPair t = false) : t = dropRepeats s := by
  rw [dropRepeats_eq_of_reflTransGen h, dropRepeats_eq_self ht]

/-! ## Passes -/

theorem collapseOnce_eq_self (h : Text.contains wildcardPair s = false) : collapseOnce s = s :=
  Text.replaceAll_eq_self wildcardPair_ne_nil h _

/-- **A pass that finds a pair** replaces pairs one by one, from the left. -/
theorem transGen_collapseOnce (h : Text.contains wildcardPair s = true) :
    TransGen Merges s (collapseOnce s) := by
  induction s using Text.occurrence_induction wildcardPair_ne_nil with
  | nil => cases h
  | occurrence s ih =>
    have hfirst : Merges (wildcardPair ++ s) (wildcard ++ s) := ⟨[], s, rfl, rfl⟩
    have hpass : collapseOnce (wildcardPair ++ s) = wildcard ++ collapseOnce s :=
      Text.replaceAll_append wildcardPair_ne_nil _ s
    rw [hpass]
    by_cases hs : Text.contains wildcardPair s = true
    · exact .head hfirst (transGen_append_left (ih hs) wildcard)
    · rw [collapseOnce_eq_self (Bool.eq_false_iff.2 hs)]
      exact .single hfirst
  | cons c s hc ih =>
    rw [Text.contains, hc, Bool.false_or] at h
    rw [collapseOnce, Text.replaceAll_cons wildcardPair_ne_nil _ hc]
    exact transGen_append_left (ih h) [c]

/-- **The passes over a text**: they are over when no pair is left, and otherwise they go on with
the text behind a pass. Nothing bounds their number. -/
inductive CollapsesTo : Text → Text → Prop
  | done {s : Text} : Text.contains wildcardPair s = false → CollapsesTo s s
  | pass {s t : Text} : Text.contains wildcardPair s = true → CollapsesTo (collapseOnce s) t →
      CollapsesTo s t

/-- Every pass that is needed shortens the text, so the bound is never reached. -/
theorem collapsesTo_collapseWithin (n : Nat) (s : Text) (h : s.length ≤ n) :
    CollapsesTo s (collapseWithin n s) := by
  induction n generalizing s with
  | zero =>
    obtain rfl := List.length_eq_zero_iff.1 (Nat.le_zero.1 h)
    exact .done rfl
  | succ n ih =>
    rw [collapseWithin]
    split
    · rename_i hpair
      have hshorter := length_lt_of_transGen (transGen_collapseOnce hpair)
      exact .pass hpair (ih _ (by omega))
    · rename_i hpair
      exact .done (Bool.eq_false_iff.2 hpair)

/-- **The passes come to an end.** -/
theorem collapsesTo_collapseWildcards (s : Text) : CollapsesTo s (collapseWildcards s) :=
  collapsesTo_collapseWithin s.length s (Nat.le_refl _)

namespace CollapsesTo

theorem reflTransGen (h : CollapsesTo s t) : ReflTransGen Merges s t := by
  induction h with
  | done _ => exact .refl
  | pass hpair _ ih => exact (transGen_collapseOnce hpair).to_reflTransGen.trans ih

theorem contains_eq_false (h : CollapsesTo s t) : Text.contains wildcardPair t = false := by
  induction h with
  | done hpair => exact hpair
  | pass _ _ ih => exact ih

theorem eq_dropRepeats (h : CollapsesTo s t) : t = dropRepeats s :=
  eq_dropRepeats_of_reflTransGen h.reflTransGen h.contains_eq_false

end CollapsesTo

/-- **Collapsed wildcards** are the text without the wildcards in front of another one. -/
theorem collapseWildcards_eq_dropRepeats (s : Text) : collapseWildcards s = dropRepeats s :=
  (collapsesTo_collapseWildcards s).eq_dropRepeats

theorem collapseWildcards_sublist (s : Text) : (collapseWildcards s).Sublist s := by
  rw [collapseWildcards_eq_dropRepeats]
  exact dropRepeats_sublist s

theorem collapseWildcards_of_contains (h : Text.contains wildcardPair s = false) :
    collapseWildcards s = s := by
  rw [collapseWildcards_eq_dropRepeats, dropRepeats_eq_self h]

theorem collapseWildcards_pair (a b : Text) :
    collapseWildcards (a ++ wildcardPair ++ b) = collapseWildcards (a ++ wildcard ++ b) := by
  rw [collapseWildcards_eq_dropRepeats, collapseWildcards_eq_dropRepeats, dropRepeats_pair]

/-- A version with its suffix converted has no pair of wildcards, wherever they stood before. -/
theorem contains_convertSuffix (s : Text) :
    Text.contains wildcardPair (convertSuffix s) = false :=
  (collapsesTo_collapseWildcards _).contains_eq_false

/-! ## Maximal runs -/

/-- **Every maximal run becomes a single wildcard**, and nothing else changes. A text is cut into
its runs and the parts between them: no part holds a wildcard, and no wildcard stands behind a run.
A run of one stays as it is. -/
inductive RunsMerged : Text → Text → Prop
  | last {a : Text} : Text.contains wildcard a = false → RunsMerged a a
  | run {a s t : Text} {n : Nat} : Text.contains wildcard a = false → 1 ≤ n →
      Text.startsWith wildcard s = false → RunsMerged s t →
      RunsMerged (a ++ wildcards n ++ s) (a ++ wildcard ++ t)

/-- A part without a wildcard is passed over, up to the run behind it. -/
theorem dropRepeats_append {a : Text} (h : Text.contains wildcard a = false) (s : Text) :
    dropRepeats (a ++ wildcard ++ s) = a ++ dropRepeats (wildcard ++ s) := by
  induction a with
  | nil => rfl
  | cons c a ih =>
    rw [Text.contains, Bool.or_eq_false_iff] at h
    have hfirst : Text.startsWith wildcard (c :: (a ++ wildcard ++ s)) = false :=
      (startsWith_wildcard_append (List.cons_ne_nil c a) s).trans h.1
    simp only [List.cons_append]
    rw [dropRepeats_cons hfirst, ih h.2]

namespace RunsMerged

theorem eq_dropRepeats (h : RunsMerged s t) : t = dropRepeats s := by
  induction h with
  | last ha => exact (dropRepeats_eq_self (contains_wildcardPair_eq_false ha)).symm
  | @run a s t n ha hn hs _ ih =>
    obtain ⟨m, rfl⟩ := Nat.exists_eq_add_of_le' hn
    rw [dropRepeats_wildcards, dropRepeats_append ha, dropRepeats_wildcard, hs, ih]
    simp

/-- A character that opens no wildcard belongs to the first part. -/
theorem cons {c : Char} (h : RunsMerged s t) (hc : Text.startsWith wildcard (c :: s) = false) :
    RunsMerged (c :: s) (c :: t) := by
  cases h with
  | last ha => exact .last (by rw [Text.contains, hc, ha]; rfl)
  | @run a s t n ha hn hs h =>
    have hfront : Text.startsWith wildcard (c :: a) = false := by
      rw [Bool.eq_false_iff] at hc ⊢
      intro hstart
      have happend := Text.startsWith_append hstart (wildcards n ++ s)
      exact hc (by simpa using happend)
    exact .run (a := c :: a) (by rw [Text.contains, hfront, ha]; rfl) hn hs h

/-- A wildcard in front of a run belongs to it. -/
theorem wildcard_append (h : RunsMerged s t) (hs : Text.startsWith wildcard s = true) :
    RunsMerged (wildcard ++ s) t := by
  cases h with
  | last ha =>
    rw [Text.startsWith_eq_false ha] at hs
    cases hs
  | @run a s t n ha hn hmax h =>
    obtain ⟨m, rfl⟩ := Nat.exists_eq_add_of_le' hn
    -- The run opens the text: a part in front of it would hold the wildcard that does.
    have hempty : a = [] := by
      cases a with
      | nil => rfl
      | cons c a =>
        have hfirst := startsWith_wildcard_append (List.cons_ne_nil c a) (wildcards m ++ s)
        rw [Text.startsWith_eq_false ha] at hfirst
        rw [wildcards_succ] at hs
        simp only [List.append_assoc] at hs hfirst
        rw [hs] at hfirst
        cases hfirst
    subst hempty
    exact .run (a := []) (n := m + 1 + 1) ha (by omega) hmax h

end RunsMerged

/-- **Dropping the wildcards in front of another one** leaves the last one of each run. -/
theorem runsMerged_dropRepeats (s : Text) : RunsMerged s (dropRepeats s) := by
  induction s using Text.occurrence_induction wildcard_ne_nil with
  | nil => exact .last rfl
  | occurrence s ih =>
    rw [dropRepeats_wildcard]
    split
    · exact ih.wildcard_append ‹_›
    · rename_i hs
      exact .run (a := []) (n := 1) rfl (Nat.le_refl 1) (Bool.eq_false_iff.2 hs) ih
  | cons c s h ih =>
    rw [dropRepeats_cons h]
    exact ih.cons h

/-! ## The normal form -/

/-- **The normal form of wildcards.** The passes over a text come to an end, and they end with the
collapsed text alone. It has no pair, it is the text with every maximal run as a single wildcard,
and it is what replacing pairs one by one leads to, in any order, once no pair is left. So a run
counts as a single wildcard, whatever its length and whatever stands around it. -/
theorem collapseWildcards_normalForm (s : Text) :
    (∀ t, CollapsesTo s t ↔ t = collapseWildcards s) ∧
    Text.contains wildcardPair (collapseWildcards s) = false ∧
    (∀ t, RunsMerged s t ↔ t = collapseWildcards s) ∧
    (∀ t, ReflTransGen Merges s t ∧ Text.contains wildcardPair t = false ↔
      t = collapseWildcards s) ∧
    ∀ (p q : Text) (n : Nat), 1 ≤ n → collapseWildcards (p ++ wildcards n ++ q) =
      collapseWildcards (p ++ wildcard ++ q) := by
  have hpasses := collapsesTo_collapseWildcards s
  simp only [collapseWildcards_eq_dropRepeats] at hpasses ⊢
  refine ⟨fun t => ⟨fun h => ?_, fun h => ?_⟩, contains_dropRepeats s,
    fun t => ⟨fun h => ?_, fun h => ?_⟩, fun t => ⟨fun h => ?_, fun h => ?_⟩, fun p q n hn => ?_⟩
  · exact h.eq_dropRepeats
  · exact h ▸ hpasses
  · exact h.eq_dropRepeats
  · exact h ▸ runsMerged_dropRepeats s
  · exact eq_dropRepeats_of_reflTransGen h.1 h.2
  · exact h ▸ ⟨hpasses.reflTransGen, contains_dropRepeats s⟩
  · obtain ⟨m, rfl⟩ := Nat.exists_eq_add_of_le' hn
    exact dropRepeats_wildcards p m q

/-- Runs of three and of two wildcards, with a point in front of the second and an `x` behind it. -/
theorem collapseWildcards_normalForm_threeAndTwo :
    RunsMerged "1.x.x.x..x.xx".toList "1.x..xx".toList ∧
    "1.x..xx".toList = collapseWildcards "1.x.x.x..x.xx".toList ∧
    1 ≤ 3 ∧ collapseWildcards ("1".toList ++ wildcards 3 ++ "..x.xx".toList) =
      collapseWildcards ("1".toList ++ wildcard ++ "..x.xx".toList) := by
  have hruns : RunsMerged "1.x.x.x..x.xx".toList "1.x..xx".toList :=
    .run (a := ['1']) (n := 3) (by decide) (by decide) (by decide)
      (.run (a := ['.']) (n := 2) (by decide) (by decide) (by decide)
        (.last (a := ['x']) (by decide)))
  obtain ⟨-, -, hmerged, -, hrun⟩ := collapseWildcards_normalForm "1.x.x.x..x.xx".toList
  exact ⟨hruns, (hmerged _).1 hruns, by decide, hrun _ _ 3 (by decide)⟩

end AssetBridge.Source
