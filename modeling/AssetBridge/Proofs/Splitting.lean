import AssetBridge.Text.Blank
import AssetBridge.Text.Case

/-!
# Splitting and replacing

A text put together from parts comes apart into them again, as long as the parts do not hold the
separator. A replacement passes over a part in which its pattern cannot begin.

## Main results

* `splitWhere_append_cons`: a separator divides a split in two
* `fields_join`, `words_join`: parts that were joined by a separator
* `occurrence_induction`: induction along the occurrences of a text
* `pieces_append`: the part in front of a separator of several characters
* `replaceAll_append_left`, `replaceAll_eq_self`: where nothing is replaced
* `replaceAll_append_cons`: a replacement in two parts of a text
* `strip_eq_self`, `lower_eq_self`: texts that are as they should be
-/

namespace AssetBridge.Text

/-! ## One separating character -/

theorem extendFirst_append {c : Char} {l m : List Text} (h : l ≠ []) :
    extendFirst c (l ++ m) = extendFirst c l ++ m := by
  obtain ⟨a, l, rfl⟩ := List.exists_cons_of_ne_nil h
  rfl

/-- A separator divides a split in two. -/
theorem splitWhere_append_cons {p : Char → Bool} {sep : Char} (hs : p sep = true) (s t : Text) :
    splitWhere p (s ++ sep :: t) = splitWhere p s ++ splitWhere p t := by
  induction s with
  | nil => simp [splitWhere, hs]
  | cons c s ih =>
    by_cases hc : p c = true
    · simp [splitWhere, hc, ih]
    · simp [splitWhere, hc, ih, extendFirst_append (splitWhere_ne_nil p s)]

theorem splitWhere_eq_singleton {p : Char → Bool} {s : Text} (h : ∀ c ∈ s, p c = false) :
    splitWhere p s = [s] := by
  induction s with
  | nil => rfl
  | cons c s ih =>
    rw [splitWhere, h c (by simp), ih fun d hd => h d (by simp [hd])]
    rfl

theorem fields_append_cons {sep : Char} {w : Text} (h : sep ∉ w) (r : Text) :
    fields sep (w ++ sep :: r) = w :: fields sep r := by
  rw [fields, splitWhere_append_cons (by simp), splitWhere_eq_singleton]
  · rfl
  · rintro c hc
    simpa using fun e : c = sep => h (e ▸ hc)

theorem fields_eq_singleton {sep : Char} {w : Text} (h : sep ∉ w) : fields sep w = [w] :=
  splitWhere_eq_singleton fun c hc => by simpa using fun e : c = sep => h (e ▸ hc)

theorem words_append_cons {p : Char → Bool} {sep : Char} (hs : p sep = true) (s t : Text) :
    words p (s ++ sep :: t) = words p s ++ words p t := by
  rw [words, splitWhere_append_cons hs, List.filter_append]
  rfl

theorem words_eq_singleton {p : Char → Bool} {w : Text} (hw : w ≠ [])
    (h : ∀ c ∈ w, p c = false) : words p w = [w] := by
  rw [words, splitWhere_eq_singleton h]
  simp [hw]

/-! ## Cutting -/

theorem cut_eq_self {c : Char} {s : Text} (h : c ∉ s) : cut c s = (s, none) := by
  induction s with
  | nil => rfl
  | cons d s ih =>
    have hd : d ≠ c := fun e => h (by simp [e])
    have hs := ih fun e => h (by simp [e])
    simp [cut, hd, hs]

/-- What stands before a separator is a front of the text. -/
theorem cut_isPrefix (sep : Char) (s : Text) : (cut sep s).1 <+: s := by
  induction s with
  | nil => exact List.prefix_refl []
  | cons c s ih =>
    rw [cut]
    split
    · exact List.nil_prefix
    · exact List.cons_prefix_cons.2 ⟨rfl, ih⟩

theorem cut_append_cons {sep : Char} {a : Text} (h : sep ∉ a) (b : Text) :
    cut sep (a ++ sep :: b) = (a, some b) := by
  induction a with
  | nil => simp [cut]
  | cons c a ih =>
    have hc : c ≠ sep := fun e => h (by simp [e])
    rw [List.cons_append, cut, if_neg hc, ih fun hm => h (List.mem_cons_of_mem c hm)]

/-! ## Joining -/

@[simp] theorem join_singleton (sep s : Text) : join sep [s] = s := by
  simp [join, List.intercalate]

theorem join_cons (sep s : Text) (l : List Text) :
    join sep (s :: l) = s ++ l.flatMap (sep ++ ·) := by
  induction l generalizing s with
  | nil => simp
  | cons t l ih =>
    have hj : join sep (s :: t :: l) = s ++ (sep ++ join sep (t :: l)) := by
      simp [join, List.intercalate]
    rw [hj, ih, List.flatMap_cons, List.append_assoc]

theorem join_append (sep s t : Text) (l m : List Text) :
    join sep (s :: l ++ t :: m) = join sep (s :: l) ++ (sep ++ join sep (t :: m)) := by
  simp [join_cons]

/-- Joining what was joined by the same separator. -/
theorem join_join (sep : Text) {l : List (List Text)} (h : ∀ ts ∈ l, ts ≠ []) :
    join sep (l.map (join sep)) = join sep l.flatten := by
  induction l with
  | nil => rfl
  | cons ts l ih =>
    obtain ⟨s, ts, rfl⟩ := List.exists_cons_of_ne_nil (h ts (by simp))
    have hrest := ih fun us hu => h us (by simp [hu])
    cases l with
    | nil => simp
    | cons us l =>
      obtain ⟨t, us, rfl⟩ := List.exists_cons_of_ne_nil (h us (by simp))
      -- The separator behind the first list stands where the one between the lists stood.
      have hsep := join_append sep (join sep (s :: ts)) (join sep (t :: us)) [] (l.map (join sep))
      have hj := join_append sep s t ts (us ++ l.flatten)
      rw [join_singleton, ← List.map_cons, hrest] at hsep
      exact hsep.trans hj.symm

theorem mem_join {c : Char} {sep : Text} {l : List Text} (h : c ∈ join sep l) :
    c ∈ sep ∨ ∃ t ∈ l, c ∈ t := by
  cases l with
  | nil => simp [join, List.intercalate] at h
  | cons s l =>
    simp only [join_cons, List.mem_append, List.mem_flatMap] at h
    rcases h with h | ⟨t, ht, h | h⟩
    · exact .inr ⟨s, by simp, h⟩
    · exact .inl h
    · exact .inr ⟨t, by simp [ht], h⟩

/-- Texts that were joined end with the end of one of them. -/
theorem mem_getLast?_join {c : Char} {sep s : Text} {l : List Text} (h : ∀ t ∈ s :: l, t ≠ [])
    (hc : c ∈ (join sep (s :: l)).getLast?) : ∃ t ∈ s :: l, c ∈ t.getLast? := by
  induction l generalizing s with
  | nil => exact ⟨s, by simp, by simpa using hc⟩
  | cons t l ih =>
    have hj : join sep (s :: t :: l) = s ++ sep ++ join sep (t :: l) := by simp [join_cons]
    have hne : join sep (t :: l) ≠ [] := by
      rw [join_cons]
      simp [h t (by simp)]
    -- What is joined behind the first text is not empty, so it ends the whole.
    rw [hj, List.getLast?_append, List.getLast?_eq_some_getLast hne, Option.some_or,
      ← List.getLast?_eq_some_getLast hne] at hc
    obtain ⟨u, hu, hcu⟩ := ih (fun v hv => h v (List.mem_cons_of_mem s hv)) hc
    exact ⟨u, List.mem_cons_of_mem s hu, hcu⟩

/-- The fields of parts without the separator that were joined by it. -/
theorem fields_join {sep : Char} {s : Text} {l : List Text} (h : ∀ t ∈ s :: l, sep ∉ t) :
    fields sep (join [sep] (s :: l)) = s :: l := by
  rw [join_cons]
  induction l generalizing s with
  | nil => simpa using fields_eq_singleton (h s (by simp))
  | cons t l ih =>
    have ht := ih (s := t) fun u hu => h u (List.mem_cons_of_mem s hu)
    rw [List.flatMap_cons, List.singleton_append, List.cons_append,
      fields_append_cons (h s (by simp)), ht]

/-- The words of texts that were joined by a separator are those of each text. -/
theorem words_join {p : Char → Bool} {sep : Char} (hs : p sep = true) (s : Text) (l : List Text) :
    words p (join [sep] (s :: l)) = (s :: l).flatMap (words p) := by
  rw [join_cons]
  induction l generalizing s with
  | nil => simp
  | cons t l ih =>
    rw [List.flatMap_cons, List.singleton_append, List.cons_append, words_append_cons hs, ih]
    rfl

/-! ## Occurrences -/

theorem startsWith_cons_eq_false {a c : Char} (h : a ≠ c) (p s : Text) :
    startsWith (a :: p) (c :: s) = false := by
  simp [startsWith, dropPrefix?, h]

theorem startsWith_cons_self (c : Char) (p s : Text) :
    startsWith (c :: p) (c :: s) = startsWith p s := by
  simp [startsWith, dropPrefix?]

/-- Whether a text starts with a pattern is decided before a character that the pattern lacks. -/
theorem startsWith_append_cons {p : Text} {d : Char} (h : d ∉ p) (a s : Text) :
    startsWith p (a ++ d :: s) = startsWith p a := by
  induction p generalizing a with
  | nil => simp [startsWith]
  | cons c p ih =>
    simp only [List.mem_cons, not_or] at h
    cases a with
    | nil => exact startsWith_cons_eq_false (Ne.symm h.1) p s
    | cons e a =>
      by_cases hc : c = e
      · rw [hc, List.cons_append, startsWith_cons_self, startsWith_cons_self, ih h.2]
      · rw [List.cons_append, startsWith_cons_eq_false hc, startsWith_cons_eq_false hc]

theorem startsWith_append {p s : Text} (h : startsWith p s = true) (t : Text) :
    startsWith p (s ++ t) = true := by
  obtain ⟨r, rfl⟩ := startsWith_iff.1 h
  exact startsWith_iff.2 ⟨r ++ t, List.append_assoc p r t⟩

theorem trimPrefix_append (p s : Text) : trimPrefix p (p ++ s) = s := by
  rw [trimPrefix, dropPrefix?_append, Option.getD_some]

theorem trimPrefix_eq_self {p s : Text} (h : startsWith p s = false) : trimPrefix p s = s := by
  rw [startsWith, Option.isSome_eq_false_iff, Option.isNone_iff_eq_none] at h
  rw [trimPrefix, h, Option.getD_none]

/-- A text without one of the characters of another does not contain it. -/
theorem contains_eq_false {p s : Text} {c : Char} (hp : c ∈ p) (hs : c ∉ s) :
    contains p s = false := by
  rw [Bool.eq_false_iff, ne_eq, contains_iff]
  rintro ⟨a, b, rfl⟩
  simp [hp] at hs

/-- What does not stand in a text does not stand in a piece of it. -/
theorem contains_eq_false_of_isInfix {p s t : Text} (h : contains p s = false) (ht : t <:+: s) :
    contains p t = false := by
  rw [Bool.eq_false_iff, ne_eq, contains_iff] at h ⊢
  obtain ⟨u, v, rfl⟩ := ht
  rintro ⟨a, b, rfl⟩
  exact h ⟨u ++ a, b ++ v, by simp⟩

theorem startsWith_eq_false {p s : Text} (h : contains p s = false) : startsWith p s = false := by
  rw [Bool.eq_false_iff, ne_eq, contains_iff] at h
  rw [Bool.eq_false_iff, ne_eq, startsWith_iff]
  rintro ⟨r, rfl⟩
  exact h ⟨[], r, rfl⟩

/-- What stands in a text behind a part in which it cannot begin, stands behind that part. -/
theorem contains_append_left {c : Char} {a : Text} (h : c ∉ a) (p s : Text) :
    contains (c :: p) (a ++ s) = contains (c :: p) s := by
  induction a with
  | nil => rfl
  | cons d a ih =>
    have hd : c ≠ d := fun e => h (by simp [e])
    rw [List.cons_append, contains, startsWith_cons_eq_false hd, ih fun e => h (by simp [e])]
    rfl

/-- **Induction along the occurrences** of a text, as they are found from the left. -/
@[elab_as_elim]
theorem occurrence_induction {old : Text} (hold : old ≠ []) {motive : Text → Prop}
    (nil : motive []) (occurrence : ∀ s, motive s → motive (old ++ s))
    (cons : ∀ c s, startsWith old (c :: s) = false → motive s → motive (c :: s)) (s : Text) :
    motive s := by
  -- Behind an occurrence the text is shorter, as it is not empty.
  induction hn : s.length using Nat.strongRecOn generalizing s with
  | _ n ih =>
    cases s with
    | nil => exact nil
    | cons c s =>
      by_cases hstart : startsWith old (c :: s) = true
      · obtain ⟨r, hr⟩ := startsWith_iff.1 hstart
        have hlength : r.length < n := by
          have hpos := List.length_pos_iff.2 hold
          rw [← hn, hr, List.length_append]
          omega
        rw [hr]
        exact occurrence r (ih _ hlength r rfl)
      · have hlength : s.length < n := by
          rw [← hn, List.length_cons]
          omega
        exact cons c s (Bool.eq_false_iff.2 hstart) (ih _ hlength s rfl)

/-- Neither does the pair `a b` stand in the text nor does the text end with an `a`, so that no
text behind it completes the pair. -/
def Avoids (a b : Char) (s : Text) : Prop := contains [a, b] s = false ∧ a ∉ s.getLast?

theorem avoids_of_not_mem {a b : Char} {s : Text} (h : a ∉ s) : Avoids a b s :=
  ⟨contains_eq_false (by simp) h, fun hl => h (List.mem_of_getLast? hl)⟩

theorem Avoids.append {a b : Char} {s t : Text} (hs : Avoids a b s) (ht : Avoids a b t) :
    Avoids a b (s ++ t) := by
  refine ⟨?_, ?_⟩
  · rw [Bool.eq_false_iff, ne_eq, contains_iff]
    rintro ⟨x, y, h⟩
    have hsc := hs.1
    have htc := ht.1
    rw [Bool.eq_false_iff, ne_eq, contains_iff] at hsc htc
    rw [List.append_assoc, List.append_eq_append_iff] at h
    -- The pair would lie in the second text, in the first one, or across the seam.
    rcases h with ⟨u, rfl, hu⟩ | ⟨u, rfl, hu⟩
    · exact htc ⟨u, y, by simp [hu]⟩
    · match u, hu with
      | [], hu => exact htc ⟨[], y, by simpa using hu.symm⟩
      | [c], hu =>
        simp only [List.cons_append, List.nil_append, List.cons.injEq] at hu
        exact hs.2 (by simp [hu.1])
      | c :: d :: u, hu =>
        simp only [List.cons_append, List.nil_append, List.cons.injEq] at hu
        exact hsc ⟨x, u, by simp [hu.1, hu.2.1]⟩
  -- The whole ends as its second text does, or as the first one where that is empty.
  · rw [List.getLast?_append]
    cases h : t.getLast? with
    | none => simpa using hs.2
    | some c => simpa [h] using ht.2

theorem Avoids.join {a b : Char} {sep : Text} (hsep : a ∉ sep) {l : List Text}
    (hl : ∀ t ∈ l, Avoids a b t) : Avoids a b (join sep l) := by
  cases l with
  | nil => exact avoids_of_not_mem (by simp [Text.join, List.intercalate])
  | cons s l =>
    rw [join_cons]
    refine (hl s (by simp)).append ?_
    have hl' : ∀ t ∈ l, Avoids a b t := fun t ht => hl t (by simp [ht])
    clear hl
    -- Induction on the texts behind the first: each comes with a separator, which holds no `a`.
    induction l with
    | nil => exact avoids_of_not_mem (by simp)
    | cons t l ih =>
      rw [List.flatMap_cons]
      exact ((avoids_of_not_mem hsep).append (hl' t (by simp))).append
        (ih fun u hu => hl' u (by simp [hu]))

theorem piecesFrom_length_append (sep t s : Text) :
    piecesFrom sep t.length (t ++ s) = piecesFrom sep 0 s := by
  induction t with
  | nil => simp
  | cons c t ih => simpa [piecesFrom] using ih

/-- The first piece is what stands before the first separator. -/
theorem pieces_append {c : Char} {sep a : Text} (h : c ∉ a) (s : Text) :
    pieces (c :: sep) (a ++ (c :: sep) ++ s) = a :: pieces (c :: sep) s := by
  unfold pieces
  induction a with
  | nil =>
    -- The separator itself: what is behind it is cut anew.
    have hs : startsWith (c :: sep) (c :: (sep ++ s)) = true := startsWith_iff.2 ⟨s, by simp⟩
    simp [piecesFrom, hs, piecesFrom_length_append]
  | cons d a ih =>
    -- A character of the piece does not open the separator.
    have hd : c ≠ d := fun e => h (by simp [e])
    simp only [List.cons_append, piecesFrom, startsWith_cons_eq_false hd, Bool.false_eq_true,
      if_false]
    simp only [List.append_assoc, List.cons_append] at ih
    rw [List.append_assoc, List.cons_append, ih fun e => h (by simp [e])]
    rfl

theorem pieces_eq_singleton {c : Char} {sep a : Text} (h : c ∉ a) :
    pieces (c :: sep) a = [a] := by
  unfold pieces
  induction a with
  | nil => rfl
  | cons d a ih =>
    have hd : c ≠ d := fun e => h (by simp [e])
    rw [piecesFrom, startsWith_cons_eq_false hd, ih fun e => h (by simp [e])]
    rfl

/-! ## Where nothing is replaced -/

/-- A replacement passes over a part in which its pattern cannot begin. -/
theorem replaceAll_append_left {c : Char} {a : Text} (h : c ∉ a) (old new s : Text) :
    replaceAll (c :: old) new (a ++ s) = a ++ replaceAll (c :: old) new s := by
  induction a with
  | nil => rfl
  | cons d a ih =>
    have hd : c ≠ d := fun e => h (by simp [e])
    rw [List.cons_append, replaceAll_cons (by simp) new (startsWith_cons_eq_false hd _ _),
      ih fun e => h (by simp [e])]
    rfl

theorem replaceAll_eq_self_of_not_mem {c : Char} {s : Text} (h : c ∉ s) (old new : Text) :
    replaceAll (c :: old) new s = s := by
  simpa using replaceAll_append_left h old new []

/-- Without an occurrence of the pattern a text stays as it is. -/
theorem replaceAll_eq_self {old s : Text} (ho : old ≠ []) (h : contains old s = false)
    (new : Text) : replaceAll old new s = s := by
  induction s with
  | nil => exact replaceAll_nil ho new
  | cons c s ih =>
    simp only [contains, Bool.or_eq_false_iff] at h
    rw [replaceAll_cons ho new h.1, ih h.2]

/-- A replacement is divided before a character that can only open its pattern. -/
theorem replaceAll_append_cons {old : Text} {d : Char} (h : d ∉ old) (c : Char) (new a s : Text) :
    replaceAll (c :: old) new (a ++ d :: s) =
      replaceAll (c :: old) new a ++ replaceAll (c :: old) new (d :: s) := by
  have hfrom : ∀ k ≤ a.length, replaceFrom (c :: old) new k (a ++ d :: s) =
      replaceFrom (c :: old) new k a ++ replaceFrom (c :: old) new 0 (d :: s) := by
    -- Induction on the text in front: an occurrence that begins there ends there.
    induction a with
    | nil =>
      intro k hk
      obtain rfl : k = 0 := Nat.le_zero.1 hk
      rfl
    | cons e a ih =>
      intro k hk
      cases k with
      | succ k => exact ih k (Nat.le_of_succ_le_succ hk)
      | zero =>
        have hs : startsWith (c :: old) (e :: (a ++ d :: s)) = startsWith (c :: old) (e :: a) := by
          by_cases hc : c = e
          · rw [hc, startsWith_cons_self, startsWith_cons_self, startsWith_append_cons h]
          · rw [startsWith_cons_eq_false hc, startsWith_cons_eq_false hc]
        rw [List.cons_append, replaceFrom, replaceFrom, hs]
        by_cases ho : startsWith (c :: old) (e :: a) = true
        · obtain ⟨r, hr⟩ := startsWith_iff.1 ho
          have hlen : (c :: old).length - 1 ≤ a.length := by
            have := congrArg List.length hr
            simp only [List.length_append, List.length_cons] at this ⊢
            omega
          rw [if_pos ho, if_pos ho, ih _ hlen, List.append_assoc]
        · rw [if_neg ho, if_neg ho, ih 0 (Nat.zero_le _), List.cons_append]
  simpa [replaceAll] using hfrom 0 (Nat.zero_le _)

/-- A replacement that turns the separator behind each part into another one and leaves the parts
alone. -/
theorem replaceAll_join {old new sep sep' : Text} {l : List Text}
    (hs : ∀ a ∈ l, ∀ s, replaceAll old new (a ++ (sep ++ s)) =
      a ++ (sep' ++ replaceAll old new s))
    (he : ∀ a ∈ l, replaceAll old new a = a) (hl : l ≠ []) :
    replaceAll old new (join sep l) = join sep' l := by
  obtain ⟨a, l, rfl⟩ := List.exists_cons_of_ne_nil hl
  rw [join_cons, join_cons]
  clear hl
  -- Induction on the parts behind the first, with the first one passed over at each step.
  induction l generalizing a with
  | nil => simpa using he a (by simp)
  | cons b l ih =>
    have hb := ih b (fun c hc => hs c (by simp at hc; simp [hc]))
      (fun c hc => he c (by simp at hc; simp [hc]))
    rw [List.flatMap_cons, List.append_assoc, hs a (by simp), hb, List.flatMap_cons,
      List.append_assoc]

theorem substitute_eq_self {p : Char → Bool} {s : Text} (h : ∀ c ∈ s, p c = false) (new : Text) :
    substitute p new s = s := by
  induction s with
  | nil => rfl
  | cons c s ih =>
    have hs := ih fun d hd => h d (by simp [hd])
    simp only [substitute] at hs
    simp [substitute, h c (by simp), hs]

/-! ## Scanners -/

/-- A scanner stops at once where the first character does not belong. -/
theorem scan_eq_of_head? {p : Char → Bool} {s : Text} (h : ∀ c ∈ s.head?, p c = false) :
    s.takeWhile p = [] ∧ s.dropWhile p = s := by
  cases s with
  | nil => exact ⟨rfl, rfl⟩
  | cons c s => simp [h c rfl]

/-- A scanner reaches the end where every character belongs. -/
theorem scan_eq_of_forall {p : Char → Bool} {s : Text} (h : ∀ c ∈ s, p c = true) :
    s.takeWhile p = s ∧ s.dropWhile p = [] := by
  induction s with
  | nil => exact ⟨rfl, rfl⟩
  | cons c s ih =>
    obtain ⟨ht, hd⟩ := ih fun d hd => h d (by simp [hd])
    simp [h c (by simp), ht, hd]

/-- A scanner stops in front of the first character that does not belong. -/
theorem scan_append_cons {p : Char → Bool} {w : Text} (hw : ∀ c ∈ w, p c = true) {c : Char}
    (hc : p c = false) (r : Text) :
    (w ++ c :: r).takeWhile p = w ∧ (w ++ c :: r).dropWhile p = c :: r := by
  rw [List.takeWhile_append_of_pos hw, List.dropWhile_append_of_pos hw]
  simp [hc]

theorem bne_of_not_mem {s : Text} {c : Char} (h : c ∉ s) : ∀ d ∈ s, (d != c) = true := by
  intro d hd
  rw [bne_iff_ne]
  rintro rfl
  exact h hd

/-! ## Blanks and letters -/

theorem dropEndWhile_eq_self {p : Char → Bool} {s : Text}
    (h : ∀ c ∈ s.getLast?, p c = false) : dropEndWhile p s = s := by
  rcases List.eq_nil_or_concat s with rfl | ⟨s, c, rfl⟩
  · rfl
  · simp [dropEndWhile, h c (by simp)]

/-- A text that neither opens nor ends with a blank is not stripped of anything. -/
theorem strip_eq_self {s : Text} (hh : ∀ c ∈ s.head?, isBlank c = false)
    (hl : ∀ c ∈ s.getLast?, isBlank c = false) : strip s = s := by
  have hd : s.dropWhile isBlank = s := by
    cases s with
    | nil => rfl
    | cons c s => simp [hh c (by simp)]
  rw [strip, hd, dropEndWhile_eq_self hl]

theorem strip_of_forall {s : Text} (h : ∀ c ∈ s, isBlank c = false) : strip s = s :=
  strip_eq_self (fun c hc => h c (List.mem_of_mem_head? hc)) fun c hc =>
    h c (List.mem_of_getLast? hc)

/-- Blanks around a text do not matter to what is left of it. -/
theorem strip_blank_cons {c : Char} (h : isBlank c = true) (s : Text) :
    strip (c :: s) = strip s := by
  simp [strip, h]

theorem strip_append_blank {c : Char} (h : isBlank c = true) (s : Text) :
    strip (s ++ [c]) = strip s := by
  unfold strip
  by_cases hs : ∀ d ∈ s, isBlank d = true
  -- Only blanks: nothing is left of either text.
  · have h₁ : (s ++ [c]).dropWhile isBlank = [] := by
      rw [List.dropWhile_append_of_pos hs]
      simp [h]
    have h₂ : s.dropWhile isBlank = [] := by
      have := @List.dropWhile_append_of_pos _ isBlank s [] hs
      simpa using this
    rw [h₁, h₂]
  -- The blank stays behind what the front leaves, and goes first at the end.
  · have h₁ : (s ++ [c]).dropWhile isBlank = s.dropWhile isBlank ++ [c] := by
      rw [List.dropWhile_append]
      have : (s.dropWhile isBlank).isEmpty = false := by
        rw [List.isEmpty_eq_false_iff]
        intro he
        have ht := List.takeWhile_append_dropWhile (p := isBlank) (l := s)
        rw [he, List.append_nil] at ht
        exact hs (List.all_eq_true.1 (ht ▸ List.all_takeWhile))
      simp [this]
    rw [h₁, dropEndWhile, dropEndWhile, List.reverse_append]
    simp [h]

/-- What holds of the ASCII characters one by one holds of all of them. -/
theorem of_toNat_lt {P : Char → Prop} (h : ∀ n < 0x80, P (Char.ofNat n)) {c : Char}
    (hc : c.toNat < 0x80) : P c := by
  have hn := h c.toNat hc
  rwa [Char.ofNat_toNat] at hn

/-- A character below the code points with letters beyond ASCII, and no capital. -/
def isSettled (c : Char) : Bool := c.toNat < 0x80 && c.toLower = c

theorem isSettled_of_isDigit {c : Char} (h : c.isDigit = true) : isSettled c = true := by
  have hc : 48 ≤ c.toNat ∧ c.toNat ≤ 57 := Char.isDigit_iff_toNat.1 h
  have hu : ¬ (c.val ≥ 'A'.val ∧ c.val ≤ 'Z'.val) := fun ⟨hl, _⟩ => by
    have : 65 ≤ c.toNat := hl
    omega
  have hl : c.toLower = c := dif_neg hu
  simp only [isSettled, hl, decide_true, Bool.and_true, decide_eq_true_eq]
  omega

/-- Both letters with a rule of their own lie beyond ASCII. -/
theorem lowerBetween_of_ascii {c : Char} (h : c.toNat < 0x80) (before after : Text) :
    lowerBetween before c after = [c.toLower] := by
  have h₁ : c ≠ 'Σ' := by rintro rfl; exact absurd h (by decide)
  have h₂ : c ≠ 'İ' := by rintro rfl; exact absurd h (by decide)
  rw [lowerBetween, if_neg h₁, if_neg h₂, smallLetter, if_pos h]

/-- ASCII characters are lowered one by one. -/
theorem lowerAfter_of_ascii {s : Text} (h : ∀ c ∈ s, c.toNat < 0x80) (before : Text) :
    lowerAfter before s = s.map Char.toLower := by
  induction s generalizing before with
  | nil => rfl
  | cons c s ih =>
    rw [lowerAfter, lowerBetween_of_ascii (h c (by simp)), ih fun d hd => h d (by simp [hd])]
    rfl

/-- What is in small letters already stays in front of a text that is lowered. -/
theorem lowerAfter_append_of_settled {s : Text} (h : ∀ c ∈ s, isSettled c = true)
    (before r : Text) : lowerAfter before (s ++ r) = s ++ lowerAfter (s.reverse ++ before) r := by
  induction s generalizing before with
  | nil => rfl
  | cons c s ih =>
    have hc := h c (by simp)
    simp only [isSettled, Bool.and_eq_true, decide_eq_true_eq] at hc
    rw [List.cons_append, lowerAfter, lowerBetween_of_ascii hc.1, hc.2,
      ih fun d hd => h d (by simp [hd])]
    simp

/-- Behind a text that is in small letters already, what follows is lowered on its own. -/
theorem drop_lower_append {s : Text} (h : ∀ c ∈ s, isSettled c = true) (r : Text) :
    (lower (s ++ r)).drop s.length = lowerAfter s.reverse r := by
  rw [lower, lowerAfter_append_of_settled h, List.drop_left, List.append_nil]

theorem lowerAfter_eq_self {s : Text} (h : ∀ c ∈ s, isSettled c = true) (before : Text) :
    lowerAfter before s = s := by
  have hs := lowerAfter_append_of_settled h before []
  rwa [List.append_nil, lowerAfter, List.append_nil] at hs

/-- A text in small ASCII letters stays as it is. -/
theorem lower_eq_self {s : Text} (h : ∀ c ∈ s, isSettled c = true) : lower s = s :=
  lowerAfter_eq_self h []

end AssetBridge.Text
