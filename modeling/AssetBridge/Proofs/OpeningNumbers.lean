import AssetBridge.Proofs.LoneNumbers
import AssetBridge.Proofs.Tags

/-!
# Opening numbers

The version behind a tilde or a caret is read twice: once for the numbers that open it, which place
the upper bound, and once as a version, which is the lower bound. The second reading knows more
shapes, such as dates and numeric branches, and may find further numbers. Whatever shape it finds,
the numbers that open the text open the release.

## Main definitions

* `Text.ContinuesWith`: what may stand behind the numbers
* `IsRelease`, `AreNumbers`: numbers, and a few of them
* `IsHead`: the text of numbers that opens a version

## Main results

* `numbers?_spec`, `partialVersion?_spec`: the numbers that open a text
* `IsHead.goesOnFrom_of_normalize`: a normal form goes on from the numbers that open the text
* `IsHead.isPrefix_release`: the release goes on from them as well
-/

namespace AssetBridge

/-- A text that is empty or opens with one of the given characters. -/
def Text.ContinuesWith (l : List Char) (r : Text) : Prop := ∀ c ∈ r.head?, c ∈ l

namespace Text.ContinuesWith

variable {l : List Char} {r u : Text}

theorem of_isPrefix (h : ContinuesWith l r) (hu : u <+: r) : ContinuesWith l u := by
  obtain ⟨t, rfl⟩ := hu
  intro c hc
  exact h c (by rw [List.head?_append, Option.mem_def.1 hc]; rfl)

theorem head?_eq_false {p : Char → Bool} (h : ContinuesWith l r)
    (hl : l.all (!p ·) = true) : ∀ c ∈ r.head?, p c = false := fun c hc =>
  Bool.not_eq_true' (p c) ▸ List.all_eq_true.1 hl c (h c hc)

end Text.ContinuesWith

theorem Text.continuesWith_cons (c : Char) (r : Text) : ContinuesWith [c] (c :: r) := by
  rintro d ⟨⟩
  exact List.mem_singleton_self c

/-- What ends with no character to be dropped is kept, whatever follows. -/
theorem Text.dropEndWhile_append {p : Char → Bool} {h : Text} (hl : ∀ c ∈ h.getLast?, p c = false)
    (r : Text) : dropEndWhile p (h ++ r) = h ++ dropEndWhile p r := by
  have hself : h.reverse.dropWhile p = h.reverse :=
    (scan_eq_of_head? fun c hc => hl c (by rwa [List.head?_reverse] at hc)).2
  rw [dropEndWhile, List.reverse_append, List.dropWhile_append, hself, dropEndWhile]
  split
  · rename_i hnil
    simp [List.isEmpty_iff.1 hnil]
  · simp

theorem Text.strip_append_of_forall {h : Text} (hne : h ≠ [])
    (hblank : ∀ c ∈ h, isBlank c = false) (r : Text) :
    strip (h ++ r) = h ++ dropEndWhile isBlank r := by
  have hfront : (h ++ r).dropWhile isBlank = h ++ r := by
    obtain ⟨c, t, rfl⟩ := List.exists_cons_of_ne_nil hne
    exact (scan_eq_of_head? (by rintro d ⟨⟩; exact hblank c List.mem_cons_self)).2
  rw [strip, hfront, dropEndWhile_append fun c hc => hblank c (List.mem_of_getLast? hc)]

/-- An end of other characters does not reach into what stands in front. -/
theorem Text.exists_eq_append {p : Char → Bool} {h r name rest : Text}
    (hl : ∀ c ∈ h.getLast?, p c = true) (hrest : ∀ c ∈ rest, p c = false)
    (heq : h ++ r = name ++ rest) : ∃ u, name = h ++ u := by
  rcases List.append_eq_append_iff.1 heq with ⟨u, hname, -⟩ | ⟨u, hh, hu⟩
  · exact ⟨u, hname⟩
  · rcases List.eq_nil_or_concat u with rfl | ⟨u, c, rfl⟩
    · exact ⟨[], by simpa using hh.symm⟩
    · have hlast := hl c (by simp [hh])
      rw [hrest c (by simp [hu])] at hlast
      cases hlast

open Text (ContinuesWith join)

/-! ## Numbers with points between them -/

/-- **The texts of a release**: numbers, and at least one. -/
structure IsRelease (texts : List Text) : Prop where
  ne_nil : texts ≠ []
  isNumber : ∀ t ∈ texts, IsNumber t

namespace IsRelease

variable {texts : List Text} (h : IsRelease texts)
include h

theorem exists_join_eq_cons : ∃ c r, join ['.'] texts = c :: r ∧ Text.isDecimal c = true := by
  obtain ⟨t, ts, rfl⟩ := List.exists_cons_of_ne_nil h.ne_nil
  obtain ⟨c, r, rfl, hc⟩ := (h.isNumber t List.mem_cons_self).exists_eq_cons
  exact ⟨c, r ++ ts.flatMap (['.'] ++ ·), by rw [Text.join_cons, List.cons_append], hc⟩

theorem isDecimal_or_eq {c : Char} (hc : c ∈ join ['.'] texts) :
    Text.isDecimal c = true ∨ c = '.' := by
  rcases Text.mem_join hc with hsep | ⟨t, ht, hct⟩
  · exact .inr (List.mem_singleton.1 hsep)
  · exact .inl ((h.isNumber t ht).isDecimal c hct)

theorem hyphen_not_mem : '-' ∉ join ['.'] texts := by
  intro hm
  rcases h.isDecimal_or_eq hm with hd | he
  · exact Text.ne_of_isDecimal hd rfl rfl
  · cases he

theorem isDecimal_getLast? : ∀ c ∈ (join ['.'] texts).getLast?, Text.isDecimal c = true := by
  intro c hc
  obtain ⟨t, ts, rfl⟩ := List.exists_cons_of_ne_nil h.ne_nil
  obtain ⟨u, hu, hcu⟩ := Text.mem_getLast?_join (fun u hu => (h.isNumber u hu).ne_nil) hc
  exact (h.isNumber u hu).isDecimal c (List.mem_of_getLast? hcu)

/-- Numbers come apart again at the points between them. -/
theorem words_join : Text.words (· = '.') (join ['.'] texts) = texts := by
  have hword : ∀ l : List Text, (∀ u ∈ l, IsNumber u) → l.flatMap (Text.words (· = '.')) = l := by
    intro l hl
    induction l with
    | nil => rfl
    | cons u l ih =>
      have hu := hl u List.mem_cons_self
      rw [List.flatMap_cons, ih fun t ht => hl t (List.mem_cons_of_mem u ht),
        Text.words_eq_singleton hu.ne_nil fun c hc =>
          decide_eq_false (Text.ne_of_isDecimal (hu.isDecimal c hc) rfl)]
      rfl
  obtain ⟨t, ts, rfl⟩ := List.exists_cons_of_ne_nil h.ne_nil
  rw [Text.words_join (by simp), hword _ h.isNumber]

end IsRelease

/-- One to four texts of decimal digits. -/
structure AreNumbers (texts : List Text) : Prop extends IsRelease texts where
  length_le : texts.length ≤ 4

theorem AreNumbers.exists_eq_cons {texts : List Text} (h : AreNumbers texts) :
    ∃ t ts, texts = t :: ts ∧ IsNumber t ∧ ts.length ≤ 3 ∧ ∀ u ∈ ts, IsNumber u := by
  obtain ⟨t, ts, rfl⟩ := List.exists_cons_of_ne_nil h.ne_nil
  exact ⟨t, ts, rfl, h.isNumber t List.mem_cons_self, Nat.le_of_succ_le_succ h.length_le,
    fun u hu => h.isNumber u (List.mem_cons_of_mem t hu)⟩

namespace Target

/-- The numbers behind points that a text opens with. -/
theorem pointNumbers_spec {k : Nat} {s r : Text} {texts : List Text}
    (h : pointNumbers k s = (texts, r)) : texts.length ≤ k ∧ (∀ t ∈ texts, IsNumber t) ∧
      s = texts.flatMap (['.'] ++ ·) ++ r := by
  induction k generalizing s r texts with
  | zero =>
    obtain ⟨rfl, rfl⟩ := Prod.mk.inj h
    exact ⟨Nat.le_refl 0, by simp, rfl⟩
  | succ k ih =>
    rw [pointNumbers] at h
    split at h
    · rename_i digits u hpoint
      obtain ⟨rfl, rfl⟩ := Prod.mk.inj h
      obtain ⟨hlength, hnumber, hu⟩ := ih (s := u) rfl
      unfold pointNumber at hpoint
      split at hpoint
      · split at hpoint
        · cases hpoint
        · rename_i v hne
          obtain ⟨hdigits, rfl⟩ := Prod.mk.inj hpoint
          obtain rfl := Option.some.inj hdigits
          have hfirst : IsNumber (v.takeWhile Text.isDecimal) :=
            ⟨by simpa using hne, List.all_eq_true.1 List.all_takeWhile⟩
          refine ⟨Nat.succ_le_succ hlength, ?_, ?_⟩
          · rintro t (- | ⟨-, ht⟩)
            · exact hfirst
            · exact hnumber t ht
          · rw [List.flatMap_cons, List.append_assoc, ← hu]
            simp [List.takeWhile_append_dropWhile]
      · cases (Prod.mk.inj hpoint).1
    · obtain ⟨rfl, rfl⟩ := Prod.mk.inj h
      exact ⟨Nat.zero_le _, by simp, rfl⟩

/-- **The numbers that open a text**, perhaps behind the letter v. -/
theorem numbers?_spec {most : Nat} (hmost : most ≤ 4) {s r : Text} {texts : List Text}
    (h : numbers? most s = some (texts, r)) : AreNumbers texts ∧ texts.length ≤ most - 1 + 1 ∧
      dropSmallVersionLetter s = join ['.'] texts ++ r := by
  have hsplit := List.takeWhile_append_dropWhile (p := Text.isDecimal)
    (l := dropSmallVersionLetter s)
  have hdecimal : ∀ c ∈ (dropSmallVersionLetter s).takeWhile Text.isDecimal,
    Text.isDecimal c = true := List.all_eq_true.1 List.all_takeWhile
  unfold numbers? at h
  simp only at h
  split at h
  · cases h
  · rename_i hne
    obtain ⟨rfl, rfl⟩ := Prod.mk.inj (Option.some.inj h)
    obtain ⟨hlength, hnumber, hrest⟩ :=
      pointNumbers_spec (k := most - 1) (s := (dropSmallVersionLetter s).dropWhile Text.isDecimal)
        rfl
    refine ⟨⟨⟨by simp, ?_⟩, ?_⟩, Nat.succ_le_succ hlength, ?_⟩
    · rintro t (- | ⟨-, ht⟩)
      · exact ⟨by simpa using hne, hdecimal⟩
      · exact hnumber t ht
    · rw [List.length_cons]
      omega
    · rw [Text.join_cons, List.append_assoc, ← hrest, hsplit]

/-- The text of numbers, perhaps behind the letter v. -/
def IsHead (texts : List Text) (h : Text) : Prop :=
  h = join ['.'] texts ∨ h = 'v' :: join ['.'] texts

theorem exists_isHead_of_dropSmallVersionLetter {texts : List Text} {s r : Text}
    (hs : dropSmallVersionLetter s = join ['.'] texts ++ r) :
    ∃ h, IsHead texts h ∧ s = h ++ r := by
  unfold dropSmallVersionLetter at hs
  split at hs
  · exact ⟨_, .inr rfl, by rw [hs, List.cons_append]⟩
  · exact ⟨_, .inl rfl, hs⟩

/-- **The numbers of a version behind a tilde or caret** open it. Behind them stands a hyphen, or
nothing but what is stripped. -/
theorem partialVersion?_spec {s : Text} {texts : List Text} {suffixed : Bool}
    (h : partialVersion? s = some (texts, suffixed)) : AreNumbers texts ∧
      ∃ h r, IsHead texts h ∧ s = h ++ r ∧
        ContinuesWith ['-'] (Text.dropEndWhile Text.isBlank r) := by
  unfold partialVersion? at h
  split at h
  · rename_i numbers r hnumbers
    obtain ⟨b, hb, hp⟩ := Option.map_eq_some_iff.1 h
    obtain ⟨rfl, -⟩ := Prod.mk.inj hp
    obtain ⟨htexts, -, hs⟩ := numbers?_spec (Nat.le_refl 4) hnumbers
    obtain ⟨h, hh, rfl⟩ := exists_isHead_of_dropSmallVersionLetter hs
    refine ⟨htexts, h, r, hh, rfl, ?_⟩
    unfold partialSuffix? at hb
    split at hb
    · rename_i hfinal
      simp only [Text.isFinal, Bool.or_eq_true, decide_eq_true_eq] at hfinal
      rcases hfinal with rfl | rfl <;> rintro c ⟨⟩
    · split at hb
      · have hhyphen : ∀ t : Text, ContinuesWith ['-'] ('-' :: t) := by
          rintro t c ⟨⟩
          exact List.mem_singleton_self _
        exact (hhyphen _).of_isPrefix (Text.dropEndWhile_isPrefix _ _)
      · cases hb
  · cases h

/-! ## Components one by one -/

/-- A scanner of single components, which stops in front of a hyphen. -/
structure ReadsComponents (f : Text → Option Text × Text) : Prop where
  point : ∀ t r, IsNumber t → (∀ c ∈ r.head?, Text.isDecimal c = false) →
    f ('.' :: (t ++ r)) = (some ('.' :: t), r)
  stop : ∀ r, ContinuesWith ['-'] r → f r = (none, r)

theorem readsComponents_pointNumber : ReadsComponents pointNumber where
  point t r ht hr := by
    have hscan := Text.scan_eq_of_head? hr
    simp only [pointNumber, List.takeWhile_append_of_pos ht.isDecimal,
      List.dropWhile_append_of_pos ht.isDecimal, hscan.1, hscan.2, List.append_nil]
    rw [if_neg (by simpa using ht.ne_nil)]
  stop r hr := by
    cases r with
    | nil => rfl
    | cons c r =>
      obtain rfl := List.mem_singleton.1 (hr c rfl)
      rfl

theorem isOpenMark_eq_false_of_isDecimal {c : Char} (h : Text.isDecimal c = true) :
    isOpenMark c = false :=
  isOpenMark_eq_false_of_isNumericChar (isNumericChar_of_isDecimal h)

theorem readsComponents_branchComponent : ReadsComponents branchComponent where
  point t r ht hr := by
    have hscan := Text.scan_eq_of_head? hr
    have htake : (t ++ r).takeWhile Text.isDecimal = t := by
      rw [List.takeWhile_append_of_pos ht.isDecimal, hscan.1, List.append_nil]
    have hdrop : (t ++ r).dropWhile Text.isDecimal = r := by
      rw [List.dropWhile_append_of_pos ht.isDecimal, hscan.2]
    obtain ⟨c, t, rfl, hc⟩ := ht.exists_eq_cons
    rw [List.cons_append] at htake hdrop ⊢
    simp only [branchComponent, isOpenMark_eq_false_of_isDecimal hc, hc, htake, hdrop, if_true,
      Bool.false_eq_true, if_false]
  stop r hr := by
    cases r with
    | nil => rfl
    | cons c r =>
      obtain rfl := List.mem_singleton.1 (hr c rfl)
      rfl

/-- The first of the components that stand in front of a suffix is read, if there is one. -/
theorem ReadsComponents.flatMap_append {f : Text → Option Text × Text} (hf : ReadsComponents f)
    {ts : List Text} (hts : ∀ t ∈ ts, IsNumber t) {r : Text} (hr : ContinuesWith ['-'] r) :
    f (ts.flatMap (['.'] ++ ·) ++ r) =
      (ts.head?.map ('.' :: ·), ts.tail.flatMap (['.'] ++ ·) ++ r) := by
  cases ts with
  | nil => exact hf.stop r hr
  | cons t ts =>
    rw [List.flatMap_cons, List.append_assoc, List.append_assoc]
    apply hf.point t _ (hts t List.mem_cons_self)
    intro c hc
    cases ts with
    | nil => exact hr.head?_eq_false rfl c hc
    | cons u ts =>
      obtain rfl := Option.some.inj hc
      rfl

/-- Up to three components, with others behind them in place of those that are missing. -/
theorem getD_components {ts : List Text} (hlength : ts.length ≤ 3) (missing : Text) :
    (ts.head?.map ('.' :: ·)).getD missing ++ (ts.tail.head?.map ('.' :: ·)).getD missing ++
        (ts.tail.tail.head?.map ('.' :: ·)).getD missing =
      ts.flatMap (['.'] ++ ·) ++ (List.replicate (3 - ts.length) missing).flatten := by
  match ts, hlength with
  | [], _ => simp [List.replicate]
  | [_], _ => simp [List.replicate]
  | [_, _], _ => simp
  | [_, _, _], _ => simp
  | _ :: _ :: _ :: _ :: _, h => exact absurd h (by simp)

/-- **Up to three components** are read in their order, and what follows them is left. -/
theorem ReadsComponents.exists_eq_append {f : Text → Option Text × Text} (hf : ReadsComponents f)
    {ts : List Text} (hlength : ts.length ≤ 3) (hts : ∀ t ∈ ts, IsNumber t) {r : Text}
    (hr : ContinuesWith ['-'] r) (missing : Text) : ∃ second third fourth r₂ r₃,
      f (ts.flatMap (['.'] ++ ·) ++ r) = (second, r₂) ∧ f r₂ = (third, r₃) ∧
        f r₃ = (fourth, r) ∧
      second.getD missing ++ third.getD missing ++ fourth.getD missing =
        ts.flatMap (['.'] ++ ·) ++ (List.replicate (3 - ts.length) missing).flatten := by
  have htail : ∀ t ∈ ts.tail, IsNumber t := fun t ht => hts t (List.mem_of_mem_tail ht)
  have htail' : ∀ t ∈ ts.tail.tail, IsNumber t := fun t ht => htail t (List.mem_of_mem_tail ht)
  refine ⟨_, _, _, _, _, hf.flatMap_append hts hr, hf.flatMap_append htail hr, ?_,
    getD_components hlength missing⟩
  have hnil : ts.tail.tail.tail = [] := by
    apply List.eq_nil_of_length_eq_zero
    simp only [List.length_tail]
    omega
  rw [hf.flatMap_append htail' hr, hnil]
  rfl

theorem continuesWith_flatten_replicate {l : List Char} {t : Text} (h : ContinuesWith l t)
    (n : Nat) : ContinuesWith l (List.replicate n t).flatten := by
  intro c hc
  induction n with
  | zero => cases hc
  | succ n ih =>
    rw [List.replicate_succ, List.flatten_cons] at hc
    cases t with
    | nil => exact ih hc
    | cons d t => exact h c hc

/-! ## The three numeric shapes -/

/-- A normal form that goes on from the given numbers. -/
def GoesOnFrom (texts : List Text) (n : Text) : Prop :=
  ∃ t, n = join ['.'] texts ++ t ∧ ContinuesWith ['.', '-'] t

theorem GoesOnFrom.append {texts : List Text} {t u : Text} (ht : ContinuesWith ['.'] t)
    (hu : ContinuesWith ['-'] u) : GoesOnFrom texts (join ['.'] texts ++ t ++ u) := by
  refine ⟨t ++ u, by rw [List.append_assoc], ?_⟩
  cases t with
  | nil =>
    intro c hc
    exact List.mem_cons_of_mem '.' (hu c hc)
  | cons d t =>
    intro c hc
    obtain rfl := Option.some.inj hc
    exact List.mem_cons.2 (.inl (List.mem_singleton.1 (ht _ rfl)))

theorem Suffix.continuesWith_render (σ : Suffix) : ContinuesWith ['-'] σ.render :=
  fun c hc => List.mem_singleton.2 (σ.head?_render c hc)

/-- The characters of a release are characters of dates. -/
theorem isDecimal_or_isDateSeparator {texts : List Text} (h : IsRelease texts) :
    ∀ c ∈ join ['.'] texts, (Text.isDecimal c || isDateSeparator c) = true := by
  intro c hc
  rcases h.isDecimal_or_eq hc with hd | rfl
  · rw [hd, Bool.true_or]
  · rfl

theorem not_isDecimal_getLast? {texts : List Text} (h : IsRelease texts) :
    ∀ c ∈ (join ['.'] texts).getLast?, (!Text.isDecimal c) = false := by
  intro c hc
  rw [h.isDecimal_getLast? c hc]
  rfl

/-- The separators of a release are points already. -/
theorem map_join_eq_self {texts : List Text} (h : IsRelease texts) :
    ((join ['.'] texts).map fun c => if Text.isDecimal c then c else '.') = join ['.'] texts := by
  refine (List.map_congr_left fun c hc => ?_).trans (List.map_id _)
  rcases h.isDecimal_or_eq hc with hd | rfl
  · exact if_pos hd
  · rfl

/-- The first number of a release, and the components behind it. -/
theorem scan_join {a : Text} (ha : IsNumber a) (ts : List Text) {r : Text}
    (hr : ContinuesWith ['-'] r) :
    (join ['.'] (a :: ts) ++ r).takeWhile Text.isDecimal = a ∧
      (join ['.'] (a :: ts) ++ r).dropWhile Text.isDecimal = ts.flatMap (['.'] ++ ·) ++ r := by
  have hscan := Text.scan_eq_of_head? (p := Text.isDecimal) (s := ts.flatMap (['.'] ++ ·) ++ r) (by
    cases ts with
    | nil => exact hr.head?_eq_false rfl
    | cons u ts =>
      intro c hc
      obtain rfl := Option.some.inj hc
      rfl)
  rw [Text.join_cons, List.append_assoc, List.takeWhile_append_of_pos ha.isDecimal,
    List.dropWhile_append_of_pos ha.isDecimal, hscan.1, hscan.2, List.append_nil]
  exact ⟨rfl, rfl⟩

section Shapes

variable {texts : List Text} (htexts : AreNumbers texts) {s r n : Text}
  (hs : dropVersionLetter s = join ['.'] texts ++ r) (hr : ContinuesWith ['-'] r)
include htexts hs hr

theorem exists_takeWhile_isDecimal : ∃ t ts, texts = t :: ts ∧ IsNumber t ∧ ts.length ≤ 3 ∧
    (∀ u ∈ ts, IsNumber u) ∧ (dropVersionLetter s).takeWhile Text.isDecimal = t ∧
      (dropVersionLetter s).dropWhile Text.isDecimal = ts.flatMap (['.'] ++ ·) ++ r := by
  obtain ⟨t, ts, rfl, ht, hlength, hts⟩ := htexts.exists_eq_cons
  rw [hs]
  exact ⟨t, ts, rfl, ht, hlength, hts, scan_join ht ts hr⟩

/-- **A classical version** is filled up with zeros. -/
theorem classical?_eq : classical? s = if 5 < (texts.headD []).length then none
    else (suffix? r).map fun σ => join ['.'] texts ++
      (List.replicate (4 - texts.length) missingComponent).flatten ++ σ.render := by
  obtain ⟨a, ts, rfl, ha, hlength, hts, htake, hdrop⟩ := exists_takeWhile_isDecimal htexts hs hr
  obtain ⟨second, third, fourth, r₂, r₃, h₂, h₃, h₄, hjoin⟩ :=
    readsComponents_pointNumber.exists_eq_append hlength hts hr missingComponent
  have hne : a.isEmpty = false := by simpa using ha.ne_nil
  simp only [classical?, htake, hdrop, h₂, h₃, h₄, hne, List.headD_cons, Bool.false_or,
    decide_eq_true_eq]
  rw [Text.join_cons, List.append_assoc a, List.append_assoc a, hjoin, List.append_assoc a,
    List.length_cons, Nat.add_sub_add_right 3 1]
  rfl

theorem goesOnFrom_of_classical? (h : classical? s = some n) : GoesOnFrom texts n := by
  rw [classical?_eq htexts hs hr] at h
  split at h
  · cases h
  · obtain ⟨σ, -, rfl⟩ := Option.map_eq_some_iff.1 h
    exact .append (continuesWith_flatten_replicate (Text.continuesWith_cons '.' ['0']) _)
      σ.continuesWith_render

theorem goesOnFrom_of_dated? (h : dated? s = some n) : GoesOnFrom texts n := by
  have hrelease := htexts.toIsRelease
  simp only [dated?, hs, List.takeWhile_append_of_pos (isDecimal_or_isDateSeparator hrelease),
    Text.dropEndWhile_append (not_isDecimal_getLast? hrelease)] at h
  split at h
  · obtain ⟨σ, -, rfl⟩ := Option.map_eq_some_iff.1 h
    rw [List.map_append, map_join_eq_self hrelease]
    refine .append (fun c hc => ?_) σ.continuesWith_render
    -- What the date goes on with is the hyphen behind the numbers, which becomes a point.
    have hdate : ContinuesWith ['-'] (Text.dropEndWhile (fun c => !Text.isDecimal c)
        (r.takeWhile fun c => Text.isDecimal c || isDateSeparator c)) :=
      hr.of_isPrefix ((Text.dropEndWhile_isPrefix _ _).trans (List.takeWhile_prefix _))
    rw [List.head?_map] at hc
    obtain ⟨d, hd, rfl⟩ := Option.map_eq_some_iff.1 hc
    rw [List.mem_singleton.1 (hdate d hd)]
    decide
  · cases h

omit hs in
/-- **A numeric branch** is filled up with the largest component. -/
theorem numericBranch?_eq {name : Text} (hname : dropVersionLetter name = join ['.'] texts ++ r) :
    numericBranch? name = if Text.isFinal r then some (join ['.'] texts ++
      (List.replicate (4 - texts.length) ('.' :: openComponent)).flatten) else none := by
  obtain ⟨a, ts, rfl, ha, hlength, hts, htake, hdrop⟩ :=
    exists_takeWhile_isDecimal htexts hname hr
  obtain ⟨second, third, fourth, r₂, r₃, h₂, h₃, h₄, hjoin⟩ :=
    readsComponents_branchComponent.exists_eq_append hlength hts hr ('.' :: openComponent)
  have hne : a.isEmpty = false := by simpa using ha.ne_nil
  simp only [numericBranch?, htake, hdrop, h₂, h₃, h₄, hne, Bool.false_or, Bool.not_eq_true']
  rw [Text.join_cons, List.append_assoc a, List.append_assoc a, hjoin, List.append_assoc a,
    List.length_cons, Nat.add_sub_add_right 3 1]
  cases Text.isFinal r <;> rfl

omit hs in
theorem goesOnFrom_of_numericBranch? {name : Text} (hname : dropVersionLetter name =
    join ['.'] texts ++ r) (h : numericBranch? name = some n) {suffix : Text}
    (hsuffix : ContinuesWith ['-'] suffix) : GoesOnFrom texts (n ++ suffix) := by
  rw [numericBranch?_eq htexts hr hname] at h
  split at h
  · obtain rfl := Option.some.inj h
    exact .append (continuesWith_flatten_replicate (Text.continuesWith_cons '.' openComponent) _)
      hsuffix
  · cases h

end Shapes

/-! ## Development versions -/

theorem exists_eq_append_dropOne (separators : List Char) (s : Text) :
    ∃ sep, s = sep ++ dropOne separators s ∧ ∀ c ∈ sep, c ∈ separators := by
  cases s with
  | nil => exact ⟨[], rfl, by simp⟩
  | cons c r =>
    by_cases hc : c ∈ separators
    · exact ⟨[c], by simp [dropOne, hc], by simpa using hc⟩
    · exact ⟨[], by simp [dropOne, hc], by simp⟩

theorem exists_eq_dropFinalFeed_append (s : Text) :
    ∃ feed, s = dropFinalFeed s ++ feed ∧ ∀ c ∈ feed, c = '\n' := by
  unfold dropFinalFeed
  split
  · rename_i hends
    obtain ⟨r, rfl⟩ := Text.endsWith_iff.1 hends
    exact ⟨['\n'], by simp, by simp⟩
  · exact ⟨[], by simp, by simp⟩

/-- What a development mark takes from the end of a text has no digits. -/
theorem exists_append_of_beforeDev? {s name : Text} (h : beforeDev? s = some name) :
    ∃ rest, s = name ++ rest ∧ ∀ c ∈ rest, Text.isDecimal c = false := by
  obtain ⟨feed, hs, hfeed⟩ := exists_eq_dropFinalFeed_append s
  simp only [beforeDev?] at h
  split at h
  · rename_i r hr
    split at h
    · cases h
    · obtain rfl := Option.some.inj h
      obtain ⟨w, hw, hletters⟩ := Text.dropKeyword?_eq_some_iff.1 hr
      obtain ⟨sep, hsep, hchars⟩ := exists_eq_append_dropOne ['.', '-'] r
      refine ⟨sep.reverse ++ w.reverse ++ feed, ?_, fun c hc => ?_⟩
      · have hback := congrArg List.reverse (hw.trans (congrArg (w ++ ·) hsep))
        rw [List.reverse_reverse] at hback
        rw [hs, hback]
        simp
      · simp only [List.mem_append, List.mem_reverse] at hc
        rw [Bool.eq_false_iff]
        intro hd
        rcases hc with (hc | hc) | hc
        · have hall : ∀ c ∈ ['.', '-'], Text.isDecimal c = false :=
            List.all_iff_forall_prop.1 rfl
          rw [hall c (hchars c hc)] at hd
          cases hd
        · have hmem : Text.foldLetter c ∈ "ved".toList := hletters ▸ List.mem_map_of_mem hc
          exact foldLetter_not_mem_of_isDecimal hd rfl hmem
        · exact Text.ne_of_isDecimal hd rfl (hfeed c hc)
  · cases h

/-! ## The normal form

What is left out of a version on the way to its normal form never reaches into its opening. -/

theorem isPrefix_dropAlias_append {h : Text} (hname : ∀ c ∈ h, isNameChar c = true) (r : Text) :
    h <+: dropAlias (h ++ r) := by
  have hnames : h <+: (h ++ r).takeWhile isNameChar := by
    rw [List.takeWhile_append_of_pos hname]
    exact List.prefix_append _ _
  have hif : ∀ b : Bool, h <+: if b then (h ++ r).takeWhile isNameChar else h ++ r := by
    intro b
    cases b with
    | true => exact hnames
    | false => exact List.prefix_append _ _
  exact hif _

theorem dropFlag_append_of_forall {h : Text} (hflag : ∀ c ∈ h, c ≠ '@') (r : Text) :
    dropFlag (h ++ r) = h ++ dropFlag r := by
  induction h with
  | nil => rfl
  | cons c h ih =>
    rw [List.cons_append, dropFlag, ih fun d hd => hflag d (List.mem_cons_of_mem c hd)]
    simp [hflag c List.mem_cons_self]

/-- The letters that the prefix of branches and the default branches open with. -/
def branchLetters : List Char := ['d', 'm', 't']

/-- **What names a branch** opens with one of these letters. -/
theorem nameDefault_and_dropKeyword?_cons {c : Char} (hc : Text.foldLetter c ∉ branchLetters)
    (r : Text) :
    nameDefault (c :: r) = c :: r ∧ Text.dropKeyword? branchPrefix (c :: r) = none := by
  constructor
  · have hdefault : ∀ t ∈ defaultBranches, t.head?.all (Text.foldLetter · ∈ branchLetters) :=
      List.all_iff_forall_prop.1 rfl
    exact if_neg fun hm => hc (by simpa using hdefault (c :: r) (Text.isOneOf_iff.1 hm))
  · exact dropKeyword?_cons_eq_none (fun hd => hc (hd ▸ List.mem_cons_self)) _ r

namespace IsHead

variable {texts : List Text} (htexts : AreNumbers texts) {h r n : Text} (hh : IsHead texts h)
include htexts hh

theorem isDecimal_or_mem {c : Char} (hc : c ∈ h) : Text.isDecimal c = true ∨ c ∈ ['.', 'v'] := by
  have hjoin : c ∈ join ['.'] texts → Text.isDecimal c = true ∨ c ∈ ['.', 'v'] := fun hm =>
    (htexts.isDecimal_or_eq hm).imp_right fun hp => List.mem_cons.2 (.inl hp)
  rcases hh with rfl | rfl
  · exact hjoin hc
  · rcases List.mem_cons.1 hc with rfl | hc
    · exact .inr (by decide)
    · exact hjoin hc

theorem isDecimal_getLast? : ∀ c ∈ h.getLast?, Text.isDecimal c = true := by
  obtain ⟨d, t, hjoin, -⟩ := htexts.exists_join_eq_cons
  have hlast := htexts.isDecimal_getLast?
  rcases hh with rfl | rfl
  · exact hlast
  · rw [hjoin] at hlast ⊢
    rwa [List.getLast?_cons_cons]

theorem exists_isDecimal : ∃ c ∈ h, Text.isDecimal c = true := by
  obtain ⟨c, t, hjoin, hc⟩ := htexts.exists_join_eq_cons
  refine ⟨c, ?_, hc⟩
  rcases hh with rfl | rfl <;> simp [hjoin]

theorem dropVersionLetter_append (r : Text) :
    dropVersionLetter (h ++ r) = join ['.'] texts ++ r := by
  obtain ⟨c, t, hjoin, hc⟩ := htexts.exists_join_eq_cons
  have hnumber : IsNumber [c] := ⟨List.cons_ne_nil c [], by simpa using hc⟩
  rcases hh with rfl | rfl
  · rw [hjoin]
    exact hnumber.dropVersionLetter_append (t ++ r)
  · rfl

/-- No character of the numbers ends a version before its end. -/
theorem isBuiltChar_and_ne {c : Char} (hc : c ∈ h) :
    isBuiltChar c = true ∧ c ≠ '@' ∧ Text.isBlank c = false := by
  rcases hh.isDecimal_or_mem htexts hc with hd | hm
  · have hblank := Text.isBlank_eq_false_of_isDecimal hd
    have hplus : c ≠ '+' := Text.ne_of_isDecimal hd rfl
    exact ⟨by simp [isBuiltChar, (isNameChar_of_number (.inl hd)).1, hplus],
      Text.ne_of_isDecimal hd rfl, hblank⟩
  · have hall : ∀ c ∈ ['.', 'v'], isBuiltChar c = true ∧ c ≠ '@' ∧ Text.isBlank c = false :=
      List.all_iff_forall_prop.1 rfl
    exact hall c hm

theorem isNameChar {c : Char} (hc : c ∈ h) : isNameChar c = true :=
  (Bool.and_eq_true _ _ ▸ (hh.isBuiltChar_and_ne htexts hc).1 :).1

theorem strip_append (r : Text) :
    Text.strip (h ++ r) = h ++ Text.dropEndWhile Text.isBlank r := by
  exact Text.strip_append_of_forall (List.ne_nil_of_mem (hh.exists_isDecimal htexts).choose_spec.1)
    (fun c hc => (hh.isBuiltChar_and_ne htexts hc).2.2) r

theorem isPrefix_dropAlias (r : Text) : h <+: dropAlias (h ++ r) :=
  isPrefix_dropAlias_append (fun _ => hh.isNameChar htexts) r

theorem dropFlag_append (r : Text) : dropFlag (h ++ r) = h ++ dropFlag r :=
  dropFlag_append_of_forall (fun _ hc => (hh.isBuiltChar_and_ne htexts hc).2.1) r

theorem isPrefix_dropBuild (r : Text) : h <+: dropBuild (h ++ r) := by
  have hbuilt : h <+: (h ++ r).takeWhile isBuiltChar := by
    rw [List.takeWhile_append_of_pos fun c hc => (hh.isBuiltChar_and_ne htexts hc).1]
    exact List.prefix_append _ _
  unfold dropBuild
  split
  · split
    · exact hbuilt
    · exact List.prefix_append _ _
  · exact List.prefix_append _ _

/-- What the numbers open names no branch. -/
theorem nameDefault_and_dropKeyword? (r : Text) :
    nameDefault (h ++ r) = h ++ r ∧ Text.dropKeyword? branchPrefix (h ++ r) = none := by
  obtain ⟨c, t, rfl⟩ := List.exists_cons_of_ne_nil
    (List.ne_nil_of_mem (hh.exists_isDecimal htexts).choose_spec.1)
  apply nameDefault_and_dropKeyword?_cons
  rcases hh.isDecimal_or_mem htexts List.mem_cons_self with hd | hm
  · exact foldLetter_not_mem_of_isDecimal hd rfl
  · have hall : ∀ c ∈ ['.', 'v'], Text.foldLetter c ∉ branchLetters :=
      List.all_iff_forall_prop.1 rfl
    exact hall c hm

theorem goesOnFrom_of_development? (hr : ContinuesWith ['-'] r)
    (hn : development? (h ++ r) = some n) : GoesOnFrom texts n := by
  simp only [development?] at hn
  split at hn
  · rename_i name hname
    split at hn
    · cases hn
    · rename_i hbranch
      obtain rfl := Option.some.inj hn
      obtain ⟨rest, hs, hrest⟩ := exists_append_of_beforeDev? hname
      -- The mark has no digits, so it does not reach into the numbers.
      obtain ⟨u, rfl⟩ := Text.exists_eq_append (hh.isDecimal_getLast? htexts) hrest hs
      have hu : u <+: r := (List.prefix_append_right_inj h).1 ⟨rest, hs.symm⟩
      have hstrip := hr.of_isPrefix ((Text.dropEndWhile_isPrefix Text.isBlank u).trans hu)
      unfold normalizeBranch at hbranch ⊢
      split
      · rename_i version hversion
        rw [hh.strip_append htexts] at hversion
        exact goesOnFrom_of_numericBranch? htexts hstrip (hh.dropVersionLetter_append htexts _)
          hversion (Text.continuesWith_cons '-' _)
      · rename_i hnone
        rw [hnone] at hbranch
        exact absurd (Text.contains_iff.2 ⟨[], _, rfl⟩) hbranch
  · cases hn

/-- **The numbers that open a text** open its normal form. -/
theorem goesOnFrom_of_normalize
    (hr : ContinuesWith ['-'] (Text.dropEndWhile Text.isBlank r))
    (hn : normalize (h ++ r) = .ok n) : GoesOnFrom texts n := by
  have hpiece : ∀ {t u : Text}, h <+: t → t <+: h ++ u → ∃ w, t = h ++ w ∧ w <+: u := by
    rintro t u ⟨w, rfl⟩ ht
    exact ⟨w, rfl, (List.prefix_append_right_inj h).1 ht⟩
  obtain ⟨u, hu, hur⟩ := hpiece (hh.isPrefix_dropAlias htexts _) (dropAlias_isPrefix _)
  obtain ⟨hdefault, hkeyword⟩ := hh.nameDefault_and_dropKeyword? htexts (dropFlag u)
  obtain ⟨w, hw, hwu⟩ := hpiece (hh.isPrefix_dropBuild htexts (dropFlag u)) (dropBuild_isPrefix _)
  have hrest := hr.of_isPrefix (hwu.trans ((dropFlag_isPrefix u).trans hur))
  have hletter := hh.dropVersionLetter_append htexts w
  simp only [normalize, hh.strip_append htexts, hu, hh.dropFlag_append htexts, hdefault, hkeyword,
    hw] at hn
  split at hn
  · rename_i version hversion
    obtain rfl := Except.ok.inj hn
    rcases numeric?_eq_some hversion with h | h | h
    · exact goesOnFrom_of_classical? htexts hletter hrest h
    · exact goesOnFrom_of_dated? htexts hletter hrest h
    · exact hh.goesOnFrom_of_development? htexts hrest h
  · cases hn

end IsHead

/-! ## Reading -/

theorem eq_value_of_read {t : Text} {m : Nat} (h : Numeral.read t = .ok m) :
    m = Numeral.value t := by
  unfold Numeral.read at h
  split at h
  · exact (Except.ok.inj h).symm
  · cases h

/-- The numbers of a constraint are the values of their digits. -/
theorem eq_map_value_of_readNumber {texts : List Text} {ns : List Nat}
    (h : texts.mapM readNumber = .ok ns) : ns = texts.map Numeral.value :=
  Except.eq_map_of_mapM_eq_ok (fun _ _ _ hm => eq_value_of_read (Except.eq_ok_of_mapError hm)) h

/-- The numbers of a release are the values of their digits. -/
theorem eq_map_value_of_literal {texts : List Text} (htexts : ∀ t ∈ texts, IsNumber t)
    {release : List Int} (h : texts.mapM Numeral.literal = .ok release) :
    release = texts.map fun t => (Numeral.value t : Int) := by
  refine Except.eq_map_of_mapM_eq_ok (fun t ht m hm => ?_) h
  rw [Numeral.literal_eq_read (htexts t ht).ne_nil (htexts t ht).isDecimal] at hm
  obtain ⟨k, hk, rfl⟩ := Except.exists_of_map_eq_ok hm
  rw [eq_value_of_read hk]
  rfl

/-- The first field behind a text without the separator goes on from that text. -/
theorem headD_fields_append {sep : Char} {w : Text} (h : sep ∉ w) (r : Text) :
    (Text.fields sep (w ++ r)).headD [] = w ++ (Text.fields sep r).headD [] := by
  induction w with
  | nil => rfl
  | cons c w ih =>
    have hc : (c == sep) = false := beq_false_of_ne fun hc => h (hc ▸ List.mem_cons_self)
    have hw := ih fun hm => h (List.mem_cons_of_mem c hm)
    obtain ⟨f, fs, hf⟩ := List.exists_cons_of_ne_nil (Text.splitWhere_ne_nil (· == sep) (w ++ r))
    simp only [Text.fields] at hw ⊢
    simp only [List.cons_append, Text.splitWhere, hc, Bool.false_eq_true, if_false]
    rw [hf] at hw ⊢
    rw [Text.extendFirst, List.headD_cons, ← hw, List.headD_cons]

/-- The numbers that a normal form goes on from are the first of its release. -/
theorem GoesOnFrom.exists_pointParts {texts : List Text} (htexts : AreNumbers texts) {n : Text}
    (hn : GoesOnFrom texts n) :
    ∃ more, Version.pointParts ((Text.fields '-' n).headD []) = texts ++ more := by
  obtain ⟨t, rfl, ht⟩ := hn
  rw [headD_fields_append htexts.hyphen_not_mem, Version.pointParts]
  cases t with
  | nil => exact ⟨[], by simpa [Text.fields, Text.splitWhere] using htexts.words_join⟩
  | cons c t =>
    have hc := ht c rfl
    simp only [List.mem_cons, List.not_mem_nil, or_false] at hc
    rcases hc with rfl | rfl
    · obtain ⟨f, fs, hf⟩ := List.exists_cons_of_ne_nil (Text.splitWhere_ne_nil (· == '-') t)
      have hfields : (Text.fields '-' ('.' :: t)).headD [] = '.' :: f := by
        rw [Text.fields, Text.splitWhere, if_neg (by decide), hf]
        rfl
      exact ⟨_, by rw [hfields, Text.words_append_cons (by simp), htexts.words_join]⟩
    · exact ⟨[], by simpa [Text.fields, Text.splitWhere] using htexts.words_join⟩

/-- **The release** goes on from the numbers of its normal form. -/
theorem isPrefix_release_of_ofNormal {texts : List Text} (htexts : AreNumbers texts) {n : Text}
    (hn : GoesOnFrom texts n) {v : Version} (hv : Version.ofNormal n = .ok v) :
    v.branch = none ∧ texts.map Numeral.value <+: v.place.release := by
  have hbranch : Text.dropPrefix? branchPrefix n = none := by
    obtain ⟨t, rfl, -⟩ := hn
    obtain ⟨c, r, hjoin, hc⟩ := htexts.exists_join_eq_cons
    have hne : 'd' ≠ c := (Text.ne_of_isDecimal hc rfl).symm
    rw [hjoin]
    exact if_neg hne
  obtain ⟨more, hparts⟩ := hn.exists_pointParts htexts
  simp only [Version.ofNormal, hbranch, hparts, List.mapM_append] at hv
  obtain ⟨release, hrelease, hv⟩ := Except.exists_of_bind_eq_ok hv
  obtain ⟨numbers, hnumbers, hrelease⟩ := Except.exists_of_bind_eq_ok hrelease
  obtain ⟨further, -, hrelease⟩ := Except.exists_of_bind_eq_ok hrelease
  obtain rfl := Except.ok.inj hrelease
  obtain ⟨place, hplace, hv⟩ := Except.exists_of_bind_eq_ok hv
  obtain rfl := Except.ok.inj hv
  refine ⟨rfl, ?_⟩
  show _ <+: place.release
  rw [release_of_foldlM_applySuffix hplace, eq_map_value_of_literal htexts.isNumber hnumbers,
    Version.padRelease, List.map_append, List.map_map, List.append_assoc]
  exact List.prefix_append (texts.map Numeral.value) _

/-- **The numbers that open a text** open the release that it names. -/
theorem IsHead.isPrefix_release {texts : List Text} (htexts : AreNumbers texts) {h r : Text}
    (hh : IsHead texts h) (hr : ContinuesWith ['-'] (Text.dropEndWhile Text.isBlank r))
    {v : Version} (hv : Version.parse (h ++ r) = .ok v) :
    v.branch = none ∧ texts.map Numeral.value <+: v.place.release := by
  obtain ⟨n, hn, hv⟩ := Except.exists_of_bind_eq_ok hv
  exact isPrefix_release_of_ofNormal htexts (hh.goesOnFrom_of_normalize htexts hr hn)
    (Except.eq_ok_of_mapError hv)

end Target

end AssetBridge
