import AssetBridge.Asset.Dependency
import AssetBridge.Proofs.Pinned

/-!
# Resolving a range

A range in a manifest stays as it is when a sign or a blank says that it is one. A lone version is
kept when it is a tag, and otherwise stands behind a branch that is named after it. Either way the
constraint for it lets the same releases through as before. Bars alone do not make a range, so
alternatives that nothing but bars separate are taken for the name of a branch.

## Main definitions

* `Grammar.Spaced`: ranges with blanks around their double bars or without
* `Asset.IsCheckable`: what the check for a tag can read

## Main results

* `outcome_resolve`: resolving what is neither a URL nor an alias
* `settleVersion_of_mem_rangeChars`, `settleVersion_atom`: what a range and a lone version settle to
* `resolve_keeps_releases`: resolution does not change the releases of a range
* `exists_error_of_not_isCheckable`: what cannot be checked is not resolved
-/

namespace AssetBridge

/-! ## Ranges with blanks around their bars or without -/

namespace Grammar

/-- The blanks around a double bar. -/
structure Spacing where
  before : Bool
  behind : Bool
deriving DecidableEq, Repr

/-- The text of a double bar. -/
def Spacing.text (s : Spacing) : Text :=
  (if s.before then [' '] else []) ++ ['|', '|'] ++ (if s.behind then [' '] else [])

/-- A range of conjunctions, in which every double bar has blanks of its own. -/
structure Spaced (α : Type) where
  first : Conjunction α
  rest : List (Spacing × Conjunction α) := []
deriving DecidableEq, Repr

section Texts

variable {α : Type} [Numeric α]

/-- The text of a range. -/
def Spaced.text (r : Spaced α) : Text :=
  r.first.text ++ r.rest.flatMap fun p => p.1.text ++ p.2.text

/-- The characters of a range. -/
def isSpacedChar (c : Char) : Bool := isItemChar c || c = ' ' || c = '|'

namespace Spaced

variable {r : Spaced α} {c : Char}

theorem isSpacedChar_of_mem (h : c ∈ r.text) : isSpacedChar c = true := by
  have hconj : ∀ d : Conjunction α, c ∈ d.text → isSpacedChar c = true := by
    intro d hd
    rcases Conjunction.mem_text hd with h | rfl
    · simp [isSpacedChar, h]
    · decide
  rcases List.mem_append.1 h with h | h
  · exact hconj _ h
  · obtain ⟨⟨s, d⟩, -, h⟩ := List.mem_flatMap.1 h
    rcases List.mem_append.1 h with h | h
    · have hs : ∀ s : Spacing, ∀ e ∈ s.text, isSpacedChar e = true := by
        rintro ⟨_ | _, _ | _⟩ <;> exact List.all_iff_forall_prop.1 rfl
      exact hs s c h
    · exact hconj d h

theorem not_mem_text (h : isSpacedChar c = false) : c ∉ r.text := by
  intro hm
  rw [isSpacedChar_of_mem hm] at h
  cases h

/-- There is no blank at the ends of a range. -/
theorem strip_text (r : Spaced α) : Text.strip r.text = r.text := by
  obtain ⟨hne, hhead, hlast⟩ := r.first.ends_text
  refine Text.strip_eq_self (fun c hc => ?_) fun c hc => ?_
  · refine isBlank_eq_false_of_isItemChar (hhead c ?_)
    rwa [text, List.head?_append, List.head?_eq_some_head hne, Option.some_or,
      ← List.head?_eq_some_head hne] at hc
  · rcases List.eq_nil_or_concat r.rest with h | ⟨l, ⟨s, d⟩, h⟩
    · rw [text, h, List.flatMap_nil, List.append_nil] at hc
      exact isBlank_eq_false_of_isItemChar (hlast c hc)
    -- The last of the conjunctions ends the text.
    · obtain ⟨hne', -, hlast'⟩ := d.ends_text
      have htext : r.text = (r.first.text ++ (l.flatMap fun p => p.1.text ++ p.2.text) ++ s.text) ++
          d.text := by
        rw [text, h]
        simp
      rw [htext, List.getLast?_append, List.getLast?_eq_some_getLast hne', Option.some_or,
        ← List.getLast?_eq_some_getLast hne'] at hc
      exact isBlank_eq_false_of_isItemChar (hlast' c hc)

/-- A range that has no sign and no blank, and no bar either, is a star or a lone version. -/
theorem eq_star_or_atom {r : Spaced α} (hrest : r.rest = [])
    (h : ∀ c ∈ r.text, c ∉ Asset.rangeChars) : r.text = ['*'] ∨ ∃ v : Atom α, r.text = v.text := by
  have htext : r.text = r.first.text := by rw [text, hrest, List.flatMap_nil, List.append_nil]
  obtain ⟨⟨i, items⟩, rest⟩ := r
  have hjoin : (⟨i, items⟩ : Conjunction α).text = i.text ++ items.flatMap (' ' :: ·.text) := by
    simp [Conjunction.text, Conjunction.items, Text.join_cons, List.flatMap_map]
  rw [htext, hjoin] at h ⊢
  -- A second item would stand behind a blank.
  cases items with
  | cons j items => exact absurd (by decide) (h ' ' (by simp))
  | nil =>
    rw [List.flatMap_nil, List.append_nil] at h ⊢
    cases i with
    | star => exact .inl rfl
    | version op v =>
      cases op with
      | bare => exact .inr ⟨v, rfl⟩
      | equal => exact absurd (by decide) (h '=' (by simp [Item.text, Operator.sign]))
      | less | atMost => exact absurd (by decide) (h '<' (by simp [Item.text, Operator.sign]))
      | greater | atLeast => exact absurd (by decide) (h '>' (by simp [Item.text, Operator.sign]))
      | caret => exact absurd (by decide) (h '^' (by simp [Item.text, Operator.sign]))
      | tilde | tildeGreater =>
        exact absurd (by decide) (h '~' (by simp [Item.text, Operator.sign]))

end Spaced

end Texts

end Grammar

/-! ## Resolving what is neither a URL nor an alias -/

namespace Asset

theorem expandShorthand_eq_self {s : Text} (h : '/' ∉ s) : Kind.expandShorthand s = s := by
  have hs : Kind.isShorthand s = false := by
    unfold Kind.isShorthand
    split
    · rename_i c r hdrop
      exact absurd ((List.dropWhile_suffix _).mem (hdrop ▸ List.mem_cons_self ..)) h
    · exact Bool.and_false _
  rw [Kind.expandShorthand, hs]
  rfl

theorem prepareVersion_eq_self (kind : Kind) {s : Text} (h : '/' ∉ s) :
    kind.prepareVersion s = s := by
  cases kind with
  | npm => rfl
  | bower => exact expandShorthand_eq_self h

theorem checkAlias_eq_self {d : Dependency} (h : '#' ∉ d.version) : checkAlias d = .ok d := by
  have hdrop : d.version.dropWhile (· != '#') = [] :=
    (Text.scan_eq_of_forall (Text.bne_of_not_mem h)).2
  simp only [checkAlias, Kind.splitHash, hdrop, List.isEmpty_nil, Bool.or_true, Bool.true_or,
    if_true]
  rfl

theorem mentionsUrl_eq_false {s : Text} (hslash : '/' ∉ s) (hat : '@' ∉ s) :
    Kind.mentionsUrl s = false := by
  have hmark : Text.contains "://".toList s = false :=
    Text.contains_eq_false (c := '/') (by decide) hslash
  rw [Kind.mentionsUrl, hmark]
  simpa using hat

/-- **Resolution** keeps the name of what is neither a URL nor an alias and settles its version. -/
theorem outcome_resolve_of_checkAlias (context : Context) (name : Text) {s : Text}
    (hslash : '/' ∉ s) (hat : '@' ∉ s)
    (halias : checkAlias ⟨context.kind.localName name, s⟩ =
      .ok ⟨context.kind.localName name, s⟩) :
    (resolve context ⟨name, s⟩).outcome =
      (fun version => ⟨⟨context.kind.localName name, version⟩, none⟩) <$> settleVersion s := by
  have hcheck : checkUrl context ⟨context.kind.localName name, s⟩ =
      pure { name := context.kind.localName name, version := s } := by
    simp only [checkUrl, mentionsUrl_eq_false hslash hat]
    rfl
  simp only [outcome_resolve_eq_bind, prepare, prepareVersion_eq_self context.kind hslash, hcheck,
    Trail.outcome_pure, halias, Except.ok_bind]
  cases settleVersion s <;> rfl

theorem outcome_resolve (context : Context) (name : Text) {s : Text} (hslash : '/' ∉ s)
    (hat : '@' ∉ s) (hhash : '#' ∉ s) :
    (resolve context ⟨name, s⟩).outcome =
      (fun version => ⟨⟨context.kind.localName name, version⟩, none⟩) <$> settleVersion s :=
  outcome_resolve_of_checkAlias context name hslash hat (checkAlias_eq_self hhash)

/-! ## What is left of a range -/

/-- Whether the check for a tag can read the numbers of a specifier, which it sees without operators
and blanks. -/
def IsCheckable (s : Text) : Prop :=
  ∃ t, Source.convertVersion (s.filter (· ∉ rangeChars)) = .ok t

/-- A specifier that sets a condition and has no hash is kept, or it names a branch. -/
theorem settleVersion_eq {s : Text} (hempty : s ∉ emptyVersions) (hstrip : Text.strip s = s)
    (hany : s ≠ Source.anyVersion) (hhash : '#' ∉ s) :
    settleVersion s = do
      let tag ← validateTag (s.filter (· ∉ rangeChars))
      if tag.isNone && !dependsOnRange s then branchVersion s else return s := by
  have hfilter : s.filter (· != '#') = s := List.filter_eq_self.2 (Text.bne_of_not_mem hhash)
  have hone : Text.isOneOf emptyVersions s = false := by
    rwa [Bool.eq_false_iff, ne_eq, Text.isOneOf_iff]
  simp only [settleVersion, hfilter, hone, hstrip, hhash, false_and, hany, Bool.false_eq_true,
    if_false]

/-- The check for a tag reads what it can convert. -/
theorem exists_validateTag {s t : Text} (h : Source.convertVersion s = .ok t) :
    ∃ tag, validateTag s = .ok tag := by
  rw [validateTag, h]
  split
  · exact ⟨none, rfl⟩
  · exact ⟨(Target.normalize t).toOption, rfl⟩

/-- The names of default branches can be converted as well. -/
theorem exists_convertVersion_of_isOneOf {s : Text}
    (h : Text.isOneOf Target.defaultBranches s = true) :
    ∃ t, Source.convertVersion s = .ok t := by
  rw [Text.isOneOf_iff] at h
  simp only [Target.defaultBranches, List.mem_cons, List.not_mem_nil, or_false] at h
  rcases h with rfl | rfl | rfl <;> exact ⟨_, rfl⟩

/-- The check for a tag fails only where the text cannot be converted. -/
theorem exists_validateTag_iff {s : Text} :
    (∃ tag, validateTag s = .ok tag) ↔ ∃ t, Source.convertVersion s = .ok t := by
  constructor
  · rintro ⟨tag, h⟩
    rw [validateTag] at h
    split at h
    · exact exists_convertVersion_of_isOneOf ‹_›
    · obtain ⟨t, ht, -⟩ := Except.exists_of_bind_eq_ok h
      exact ⟨t, ht⟩
  · rintro ⟨t, ht⟩
    exact exists_validateTag ht

/-- **A range** is kept when one of its characters says that it is one. -/
theorem settleVersion_of_mem_rangeChars {s : Text} (hempty : s ∉ emptyVersions)
    (hstrip : Text.strip s = s) (hany : s ≠ Source.anyVersion) (hhash : '#' ∉ s)
    (hcheck : IsCheckable s) (h : ∃ c ∈ s, c ∈ rangeChars) : settleVersion s = .ok s := by
  obtain ⟨t, ht⟩ := hcheck
  obtain ⟨tag, htag⟩ := exists_validateTag ht
  have hrange : dependsOnRange s = true := by
    obtain ⟨c, hc, hr⟩ := h
    rw [dependsOnRange, hstrip]
    exact List.any_eq_true.2 ⟨c, hc, by simpa using hr⟩
  rw [settleVersion_eq hempty hstrip hany hhash, htag, hrange]
  show (if tag.isNone && !true then branchVersion s else return s) = _
  rw [Bool.not_true, Bool.and_false]
  rfl

/-! ## A lone version, resolved -/

open Grammar (Atom Numeric Spaced isAtomChar)
open Numeral (dotted)
open Target (Constraint Version)

variable {α : Type} [Numeric α]

/-- **A lone version** is kept when it is a tag, and otherwise stands behind a branch. -/
theorem settleVersion_atom (v : Atom α) (hzero : v.text ≠ ['0']) {w : Text}
    (hw : Source.convertVersion v.text = .ok w) :
    settleVersion v.text =
      .ok (if (Target.normalize w).toOption.isNone then pinned w v.text else v.text) := by
  obtain ⟨c, r, hc, hd⟩ := v.exists_text_eq_cons
  have hempty : v.text ∉ emptyVersions := by
    simp only [emptyVersions, List.mem_cons, List.not_mem_nil, or_false, not_or]
    exact ⟨v.text_ne_nil, hzero⟩
  have hany : v.text ≠ Source.anyVersion := by
    have hne : c ≠ '*' := Text.ne_of_isDigit hd rfl
    rw [hc]
    exact fun e => hne (List.cons.inj e).1
  have hdefault : Text.isOneOf Target.defaultBranches v.text = false := by
    rw [hc]
    exact Target.isOneOf_defaultBranches_of_isDigit hd r
  have hnone : ∀ e ∈ v.text, e ∉ rangeChars := by
    intro e he hr
    have hsigns : ∀ d ∈ rangeChars, isAtomChar d = false := List.all_iff_forall_prop.1 rfl
    exact Atom.not_mem_text (hsigns e hr) he
  have hfilter : v.text.filter (· ∉ rangeChars) = v.text :=
    List.filter_eq_self.2 fun e he => decide_eq_true (hnone e he)
  have htag : validateTag v.text = .ok (Target.normalize w).toOption := by
    rw [validateTag, hdefault, hw]
    rfl
  have hrange : dependsOnRange v.text = false := by
    rw [dependsOnRange, v.strip_text, List.any_eq_false]
    exact fun e he => by simpa using hnone e he
  have hbranch : branchVersion v.text = .ok (pinned w v.text) := by
    rw [branchVersion, hw, v.validateBranch_text]
    rfl
  rw [settleVersion_eq hempty v.strip_text hany (Atom.not_mem_text rfl), hfilter, htag, hrange,
    hbranch]
  cases (Target.normalize w).toOption <;> rfl

/-! ## Resolution keeps the releases -/

/-- **What a range settles to** lets the same versions through that are no branches, unless it has
a bar but neither a sign nor a blank. -/
theorem exists_settleVersion {r : Spaced α} (hzero : r.text ≠ ['0'])
    (hbars : r.rest = [] ∨ ∃ c ∈ r.text, c ∈ rangeChars) (hcheck : IsCheckable r.text) :
    ∃ version, settleVersion r.text = .ok version ∧ KeepsVersions r.text version := by
  by_cases hrange : ∃ c ∈ r.text, c ∈ rangeChars
  · have hne : ∀ t : Text, (∀ c ∈ t, c ∉ rangeChars) → r.text ≠ t := by
      rintro t ht rfl
      obtain ⟨c, hc, hr⟩ := hrange
      exact ht c hc hr
    have hempty : r.text ∉ emptyVersions := by
      simp only [emptyVersions, List.mem_cons, List.not_mem_nil, or_false, not_or]
      exact ⟨hne _ (by simp), hzero⟩
    have hany : r.text ≠ Source.anyVersion := hne _ (List.all_iff_forall_prop.1 rfl)
    exact ⟨r.text, settleVersion_of_mem_rangeChars hempty r.strip_text hany
      (Spaced.not_mem_text rfl)
      hcheck hrange, .refl _⟩
  · have hnone : ∀ c ∈ r.text, c ∉ rangeChars := fun c hc hr => hrange ⟨c, hc, hr⟩
    rcases Spaced.eq_star_or_atom (hbars.resolve_right hrange) hnone with hstar | ⟨v, hv⟩
    · rw [hstar]
      exact ⟨Source.anyVersion, rfl, .refl _⟩
    · obtain ⟨w, hw⟩ := hcheck
      rw [List.filter_eq_self.2 fun c hc => decide_eq_true (hnone c hc), hv] at hw
      have hsettle := settleVersion_atom v (hv ▸ hzero) hw
      rw [hv]
      cases htag : (Target.normalize w).toOption with
      | some n =>
        rw [htag] at hsettle
        exact ⟨v.text, hsettle, .refl _⟩
      | none =>
        rw [htag] at hsettle
        exact ⟨pinned w v.text, hsettle, Grammar.keepsVersions_pinned hw htag⟩

/-- **Resolving a range** keeps the name of the dependency, asks for no repository, and settles on
a version whose constraint lets the same releases through. The range has to say by a sign or a blank
that it is one when it has more than one alternative, and the check for a tag has to be able to read
the numbers that it sees there. A lone zero is no range, as it stands for the lack of a version. -/
theorem resolve_keeps_releases (context : Context) (name : Text) {r : Spaced α}
    (hzero : r.text ≠ ['0']) (hbars : r.rest = [] ∨ ∃ c ∈ r.text, c ∈ rangeChars)
    (hcheck : IsCheckable r.text) :
    ∃ version, (resolve context ⟨name, r.text⟩).outcome =
        .ok { name := context.kind.localName name, version, repository := none } ∧
      ∀ c, constraintFor r.text = .ok c → ∃ d, constraintFor version = .ok d ∧
        ∀ x y z b, d.matchesText (dotted [x, y, z]) = .ok b ↔
          c.matchesText (dotted [x, y, z]) = .ok b := by
  obtain ⟨version, hversion, hkeeps⟩ := exists_settleVersion hzero hbars hcheck
  refine ⟨version, ?_, fun c => hkeeps.releases⟩
  rw [outcome_resolve context name (Spaced.not_mem_text rfl) (Spaced.not_mem_text rfl)
      (Spaced.not_mem_text rfl),
    hversion]
  rfl

/-- A range whose numbers the check for a tag cannot read is not resolved. -/
theorem exists_error_of_not_isCheckable (context : Context) (name : Text) {r : Spaced α}
    (h : ¬ IsCheckable r.text) : ∃ e, (resolve context ⟨name, r.text⟩).outcome = .error e := by
  have hne : ∀ t w : Text, Source.convertVersion (t.filter (· ∉ rangeChars)) = .ok w →
      r.text ≠ t := by
    rintro t w hw rfl
    exact h ⟨w, hw⟩
  have hempty : r.text ∉ emptyVersions := by
    simp only [emptyVersions, List.mem_cons, List.not_mem_nil, or_false, not_or]
    exact ⟨hne _ _ rfl, hne _ _ rfl⟩
  have hdefault : Text.isOneOf Target.defaultBranches (r.text.filter (· ∉ rangeChars)) = false := by
    rw [Bool.eq_false_iff]
    exact fun hm => h (exists_convertVersion_of_isOneOf hm)
  cases hw : Source.convertVersion (r.text.filter (· ∉ rangeChars)) with
  | ok w => exact absurd ⟨w, hw⟩ h
  | error e =>
    refine ⟨e, ?_⟩
    rw [outcome_resolve context name (Spaced.not_mem_text rfl) (Spaced.not_mem_text rfl)
      (Spaced.not_mem_text rfl),
      settleVersion_eq hempty r.strip_text (hne _ _ rfl) (Spaced.not_mem_text rfl), validateTag,
      hdefault, hw]
    rfl

/-- The range `1.x`. -/
def wildRange : Spaced Nat := ⟨⟨.version .bare (.majorWild 1 .letter), []⟩, []⟩

theorem resolve_keeps_releases_wildRange :
    ∃ version, (resolve { kind := .npm } ⟨"lib".toList, wildRange.text⟩).outcome =
        .ok { name := "lib".toList, version, repository := none } ∧
      ∃ c d, constraintFor wildRange.text = .ok c ∧ constraintFor version = .ok d ∧
        ∀ x y z b, d.matchesText (dotted [x, y, z]) = .ok b ↔
          c.matchesText (dotted [x, y, z]) = .ok b := by
  have hcheck : IsCheckable wildRange.text := ⟨"1.x".toList, rfl⟩
  obtain ⟨c, hc⟩ : ∃ c, constraintFor wildRange.text = .ok c := ⟨_, rfl⟩
  obtain ⟨version, hversion, hsame⟩ :=
    resolve_keeps_releases { kind := .npm } "lib".toList (r := wildRange) (by decide) (.inl rfl)
      hcheck
  obtain ⟨d, hd, hmatches⟩ := hsame c hc
  exact ⟨version, hversion, c, d, hc, hd, hmatches⟩

/-- Bars without a blank do not say that the text is a range: all of it names a branch, and the
releases that only the first alternative lets through are lost. -/
theorem resolve_loses_release :
    ∃ version c d, (resolve { kind := .npm } ⟨"lib".toList, "1||2".toList⟩).outcome =
        .ok { name := "lib".toList, version, repository := none } ∧
      constraintFor "1||2".toList = .ok c ∧ c.matchesText "1.5.0".toList = .ok true ∧
      constraintFor version = .ok d ∧ d.matchesText "1.5.0".toList = .ok false :=
  ⟨"dev-1||2".toList, _, _, rfl, rfl, rfl, rfl, rfl⟩

end Asset

end AssetBridge
