import AssetBridge.Npm.Range
import AssetBridge.Proofs.Components
import AssetBridge.Proofs.Outcomes
import AssetBridge.Proofs.Tokens

/-!
# Ranges as the npm dialect reads them

The dialect that a range comes from reads every item as one bound or two on releases. A number that
is missing or wild leaves a block open, and each operator makes its own bounds of an open block.

## Main definitions

* `Atom.npmBounds`, `Item.npmBounds`, `Alternative.npmBounds`: the bounds of the pieces of a range
* `Npm.Release.text`, `Npm.Release.Within`, `Npm.Release.IsReadable`: releases and their sizes

## Main results

* `scan?_text`: the block that an item is
* `Npm.Range.parse_text`: a range is read as the bounds of its alternatives
* `Npm.Range.matchesText_text`: what a range accepts
-/

namespace AssetBridge

open Numeral (dotted digits length_digits_le_maxDigits maxDigits)

/-! ## Components -/

namespace Npm.Block

theorem component?_digits (n : Nat) {r : Text} (hr : ∀ c ∈ r.head?, c.isDigit = false) :
    component? (digits n ++ r) = some (some (digits n), r) := by
  -- Zero is a component of its own; no other number opens with a zero.
  by_cases h : n = 0
  · subst h
    rfl
  · obtain ⟨ht, hd⟩ := Text.scan_eq_of_head? hr
    have hzero := Numeral.head?_digits h
    have htake := Numeral.takeWhile_isDigit_digits_append n r
    have hdrop := Numeral.dropWhile_isDigit_digits_append n r
    rw [ht, List.append_nil] at htake
    rw [hd] at hdrop
    obtain ⟨c, ds, hc, hdigit⟩ := Numeral.exists_digits_eq_cons n
    have hx : c ≠ 'x' ∧ c ≠ 'X' ∧ c ≠ '*' :=
      ⟨Text.ne_of_isDigit hdigit rfl, Text.ne_of_isDigit hdigit rfl, Text.ne_of_isDigit hdigit rfl⟩
    rw [hc] at htake hdrop hzero ⊢
    have hc0 : c ≠ '0' := fun e => hzero (by simp [e])
    rw [List.cons_append, List.takeWhile_cons_of_pos hdigit] at htake
    rw [List.cons_append, List.dropWhile_cons_of_pos hdigit] at hdrop
    simp [component?, hx.1, hx.2.1, hx.2.2, hc0, hdigit, (List.cons.inj htake).2, hdrop]

theorem component?_digits_end (n : Nat) : component? (digits n) = some (some (digits n), []) := by
  simpa using component?_digits n (r := []) (by simp)

theorem component?_digits_point (n : Nat) (s : Text) :
    component? (digits n ++ '.' :: s) = some (some (digits n), '.' :: s) := by
  refine component?_digits n ?_
  rintro c ⟨⟩
  decide

theorem component?_wild (w : Grammar.Wildcard) (s : Text) :
    component? (w.char :: s) = some (none, s) := by
  cases w <;> rfl

/-- A block without a suffix is its operator and its three components. -/
theorem scan?_of_components {s t u w : Text} {sign : Sign} {a b c : Option Text}
    (hs : Sign.split (Text.trimPrefix ['v'] s) = (sign, t)) (ha : component? t = some (a, u))
    (hb : furtherComponent? u = some (b, w)) (hc : furtherComponent? w = some (c, [])) :
    scan? s = some ⟨sign, a, b, c, [], []⟩ := by
  rw [scan?, hs]
  show (component? t >>= _) = _
  rw [ha]
  show (furtherComponent? u >>= _) = _
  rw [hb]
  show (furtherComponent? w >>= _) = _
  rw [hc]
  rfl

theorem furtherComponent?_nil : furtherComponent? [] = some (none, []) := rfl

end Npm.Block

namespace Grammar

open Npm (Release)
open Npm.Block (onRelease openBounds versionBounds scan?_of_components component?_digits_end
  component?_digits_point component?_wild furtherComponent?_nil)

/-! ## The bounds of the pieces of a range -/

/-- The operator of a block. The dialect has none for a tilde with a comparator. -/
def Operator.npmSign : Operator → Npm.Sign
  | bare | equal => .eq
  | less => .lt
  | atMost => .le
  | greater => .gt
  | atLeast => .ge
  | caret => .caret
  | tilde | tildeGreater => .tilde

/-- **The bounds** of a version under an operator. -/
def Atom.npmBounds (sign : Npm.Sign) : Atom Nat → List Npm.Bound
  | major n | majorWild n _ | majorWilds n _ _ =>
    openBounds sign ⟨n, 0, 0⟩ ⟨n + 1, 0, 0⟩ ⟨n + 1, 0, 0⟩
  | minor n m | minorWild n m _ =>
    openBounds sign ⟨n, m, 0⟩ ⟨n, m + 1, 0⟩ (if 0 < n then ⟨n + 1, 0, 0⟩ else ⟨n, m + 1, 0⟩)
  | patch n m p => versionBounds sign ⟨⟨n, m, p⟩, [], []⟩

/-- The bounds of an item. -/
def Item.npmBounds : Item Nat → List Npm.Bound
  | star => [onRelease .ge ⟨0, 0, 0⟩]
  | version op v => v.npmBounds op.npmSign

/-- The bounds of an alternative. -/
def Alternative.npmBounds : Alternative Nat → List Npm.Bound
  | all c => c.items.flatMap Item.npmBounds
  | hyphen low high => low.npmBounds .ge ++ high.npmBounds .le

/-- Whether the dialect knows the operator of an item. -/
def Item.IsNpm (i : Item Nat) : Prop := i.operator ≠ .tildeGreater

/-! ## Blocks -/

theorem Operator.split_text {op : Operator} (h : op ≠ .tildeGreater) (v : Atom Nat) :
    Npm.Sign.split (Text.trimPrefix ['v'] (op.sign ++ v.text)) = (op.npmSign, v.text) := by
  obtain ⟨c, r, hc, hd⟩ := v.exists_text_eq_cons
  -- The version opens with a digit, so no character of it belongs to the operator.
  have hv : 'v' ≠ c := (Text.ne_of_isDigit hd rfl).symm
  have hs : c ≠ '<' ∧ c ≠ '>' ∧ c ≠ '=' ∧ c ≠ '^' ∧ c ≠ '~' :=
    ⟨Text.ne_of_isDigit hd rfl, Text.ne_of_isDigit hd rfl, Text.ne_of_isDigit hd rfl,
      Text.ne_of_isDigit hd rfl, Text.ne_of_isDigit hd rfl⟩
  have htrim : Text.trimPrefix ['v'] (op.sign ++ v.text) = op.sign ++ v.text := by
    cases op <;> simp [Operator.sign, hc, Text.trimPrefix, Text.dropPrefix?, hv]
  rw [htrim, hc]
  cases op with
  | tildeGreater => exact absurd rfl h
  | _ => simp [Operator.sign, Operator.npmSign, Npm.Sign.split, hs.1, hs.2.1, hs.2.2.1,
      hs.2.2.2.1, hs.2.2.2.2]

/-- **The block** that a version under an operator is. -/
theorem scan?_text (op : Operator) (h : op ≠ .tildeGreater) (v : Atom Nat) :
    Npm.Block.scan? (op.sign ++ v.text) = some ⟨op.npmSign, some (digits v.first),
      v.numbers[1]?.map digits, v.numbers[2]?.map digits, [], []⟩ := by
  have hs := Operator.split_text h v
  cases v with
  | major n =>
    exact scan?_of_components hs (component?_digits_end n) furtherComponent?_nil
      furtherComponent?_nil
  | minor n m =>
    exact scan?_of_components hs (component?_digits_point n _) (component?_digits_end m)
      furtherComponent?_nil
  | patch n m p =>
    exact scan?_of_components hs (component?_digits_point n _) (component?_digits_point m _)
      (component?_digits_end p)
  | majorWild n w =>
    exact scan?_of_components hs (component?_digits_point n _) (component?_wild w [])
      furtherComponent?_nil
  | majorWilds n w w' =>
    exact scan?_of_components hs (component?_digits_point n _) (component?_wild w _)
      (component?_wild w' [])
  | minorWild n m w =>
    exact scan?_of_components hs (component?_digits_point n _) (component?_digits_point m _)
      (component?_wild w [])

theorem mapM_number?_digits {n : Nat} (h : (digits n).length ≤ maxDigits) :
    (some (digits n)).mapM Npm.Block.number? = some (some n) := by
  have hn : Npm.Block.number? (digits n) = some n := by
    rw [Npm.Block.number?, Numeral.read_digits_of_length_le h]
    rfl
  rw [Option.mapM_some, hn]
  rfl

/-- The bounds of the block that a version under an operator is. -/
theorem bounds?_block {k : Nat} (hk : k ≤ 9999999) {v : Atom Nat} (h : v.Within k)
    (sign : Npm.Sign) : Npm.Block.bounds? ⟨sign, some (digits v.first), v.numbers[1]?.map digits,
      v.numbers[2]?.map digits, [], []⟩ = some (v.npmBounds sign) := by
  have hfirst := mapM_number?_digits
    (length_digits_le_maxDigits (Nat.lt_trans (Nat.lt_succ_of_le h.first_le) (by decide)))
  -- All numbers are small enough to be read, and there is no build part to compare.
  have hnumber : ∀ m ∈ v.numbers.tail,
      (some (digits m)).mapM Npm.Block.number? = some (some m) := fun m hm =>
    mapM_number?_digits (length_digits_le_maxDigits (by have := h.le m hm; omega))
  have hbuild : Npm.Block.countedBuild ⟨sign, some (digits v.first), v.numbers[1]?.map digits,
      v.numbers[2]?.map digits, [], []⟩ = [] := by
    rw [Npm.Block.countedBuild, ite_self]
  rw [Npm.Block.bounds?, hbuild, hfirst]
  cases v with
  | major n | majorWild n w | majorWilds n w w' => rfl
  | minor n m | minorWild n m w =>
    have hm := hnumber m (by simp [Atom.numbers])
    show ((some (digits m)).mapM Npm.Block.number? >>= _) = _
    rw [hm]
    rfl
  | patch n m p =>
    have hm := hnumber m (by simp [Atom.numbers])
    have hp := hnumber p (by simp [Atom.numbers])
    show ((some (digits m)).mapM Npm.Block.number? >>= _) = _
    rw [hm]
    show ((some (digits p)).mapM Npm.Block.number? >>= _) = _
    rw [hp]
    rfl

/-! ## Alternatives -/

/-- The bounds of an item are read from its text. -/
theorem Item.blockBounds_text {k : Nat} (hk : k ≤ 9999999) {i : Item Nat} (h : i.Within k)
    (hn : i.IsNpm) (whole : Text) : Npm.Alternative.blockBounds whole i.text = .ok i.npmBounds := by
  cases i with
  | star => rfl
  | version op v =>
    have hs := scan?_text op hn v
    rw [Npm.Alternative.blockBounds, text, hs, Option.bind_some, bounds?_block hk h]
    rfl

theorem Atom.sideBounds_text {k : Nat} (hk : k ≤ 9999999) {v : Atom Nat} (h : v.Within k)
    (op : Operator) (hn : op ≠ .tildeGreater) (whole : Text) :
    Npm.Alternative.sideBounds whole (op.sign ++ v.text) = .ok (v.npmBounds op.npmSign) := by
  have hb := Item.blockBounds_text hk (i := .version op v) h hn whole
  rw [Npm.Alternative.sideBounds, scan?_text op hn v]
  exact hb

theorem Conjunction.hyphen_not_mem_text (c : Conjunction Nat) : '-' ∉ c.text := by
  intro h
  rcases Text.mem_join h with h | ⟨t, ht, h⟩
  · exact absurd h (by decide)
  · obtain ⟨i, -, rfl⟩ := List.mem_map.1 ht
    exact absurd (Item.isItemChar_of_mem h) (by decide)

theorem Item.blank_not_mem_text (i : Item Nat) : ' ' ∉ i.text := fun h =>
  absurd (Item.isItemChar_of_mem h) (by decide)

/-- An alternative whose operators the dialect knows. -/
def Alternative.IsNpm : Alternative Nat → Prop := Alternative.Forall Item.IsNpm fun _ _ => True

/-- **The bounds of an alternative** are read from its text. -/
theorem Alternative.readBounds_text {k : Nat} (hk : k ≤ 9999999) {a : Alternative Nat}
    (h : a.Within k) (hn : a.IsNpm) (whole : Text) :
    Npm.Alternative.readBounds whole a.text = .ok a.npmBounds := by
  cases a with
  | all c =>
    -- A conjunction has no minus sign, so it is cut at its blanks.
    have hh : Text.contains Npm.Alternative.hyphen c.text = false :=
      Text.contains_eq_false (c := '-') (by decide) c.hyphen_not_mem_text
    have hf : Text.fields ' ' c.text = c.items.map Item.text := by
      refine Text.fields_join fun t ht => ?_
      rw [← List.map_cons] at ht
      obtain ⟨i, -, rfl⟩ := List.mem_map.1 ht
      exact i.blank_not_mem_text
    have hm : c.items.mapM (fun i => Npm.Alternative.blockBounds whole i.text) =
        .ok (c.items.map Item.npmBounds) :=
      Except.mapM_eq_ok fun i hi => Item.blockBounds_text hk (h i hi) (hn i hi) whole
    rw [text, Npm.Alternative.readBounds, hh, hf, List.mapM_map]
    show List.flatten <$> c.items.mapM (fun i => Npm.Alternative.blockBounds whole i.text) = _
    rw [hm, npmBounds, List.flatMap_def]
    rfl
  | hyphen low high =>
    have hc : Text.contains Npm.Alternative.hyphen (hyphen low high).text = true :=
      Text.contains_iff.2 ⟨low.text, high.text, rfl⟩
    -- The hyphen cuts the alternative into its sides, each a bound of its own.
    have hp : Text.pieces Npm.Alternative.hyphen (hyphen low high).text =
        [low.text, high.text] := by
      have happ : Text.pieces [' ', '-', ' '] (low.text ++ [' ', '-', ' '] ++ high.text) =
          low.text :: Text.pieces [' ', '-', ' '] high.text :=
        Text.pieces_append (Atom.not_mem_text rfl) high.text
      rw [Text.pieces_eq_singleton (Atom.not_mem_text rfl)] at happ
      exact happ
    have hlow := Atom.sideBounds_text hk h.1 .atLeast (by decide) whole
    have hhigh := Atom.sideBounds_text hk h.2 .atMost (by decide) whole
    rw [Npm.Alternative.readBounds, hc, hp]
    show (do
      let lower ← Npm.Alternative.sideBounds whole (Operator.atLeast.sign ++ low.text)
      return lower ++ (← Npm.Alternative.sideBounds whole (Operator.atMost.sign ++ high.text))) = _
    rw [hlow, hhigh]
    rfl

/-! ## Whole ranges -/

/-- An alternative neither begins nor ends with a blank. -/
theorem Alternative.strip_text (a : Alternative Nat) : Text.strip a.text = a.text := by
  have hatom : ∀ {v : Atom Nat} {c : Char}, c ∈ v.text → Text.isBlank c = false :=
    Atom.isBlank_eq_false_of_mem
  cases a with
  | all c =>
    obtain ⟨-, hhead, hlast⟩ := c.ends_text
    exact Text.strip_eq_self (fun d hd => isBlank_eq_false_of_isItemChar (hhead d hd)) fun d hd =>
      isBlank_eq_false_of_isItemChar (hlast d hd)
  | hyphen low high =>
    refine Text.strip_eq_self (fun d hd => ?_) fun d hd => ?_
    · obtain ⟨e, r, he, -⟩ := low.exists_text_eq_cons
      have hde : e = d := by simpa [text, he] using hd
      exact hatom (v := low) (by simp [← hde, he])
    · have hl := List.getLast?_eq_some_getLast high.text_ne_nil
      rw [text, List.getLast?_append, hl, Option.some_or] at hd
      exact hatom (List.mem_of_getLast? (hl.trans hd))

theorem Alternative.text_ne_nil (a : Alternative Nat) : a.text ≠ [] := by
  cases a with
  | all c => simp [text, Conjunction.text, Conjunction.items, Text.join_cons, c.first.text_ne_nil]
  | hyphen low high => simp [text]

/-- The alternatives of a range between its bars. -/
theorem map_strip_pieces (a : Alternative Nat) (l : List (Alternative Nat)) (pre : Text)
    (hpre : pre = [] ∨ pre = [' ']) :
    (Text.pieces ['|', '|'] (pre ++ Text.join [' ', '|', '|', ' ']
      ((a :: l).map Alternative.text))).map Text.strip = (a :: l).map Alternative.text := by
  have hblank : ∀ s : Text, Text.strip (pre ++ s) = Text.strip s := by
    intro s
    rcases hpre with rfl | rfl
    · rfl
    · exact Text.strip_blank_cons (by decide) s
  have hbar : '|' ∉ pre ++ a.text := by
    intro h
    rcases List.mem_append.1 h with h | h
    · rcases hpre with rfl | rfl <;> simp at h
    · exact Alternative.not_mem_text (c := '|') (by decide) h
  -- Induction on the alternatives behind the first: each piece after it opens with a blank.
  induction l generalizing a pre with
  | nil =>
    rw [List.map_cons, List.map_nil, Text.join_singleton, Text.pieces_eq_singleton hbar]
    simp only [List.map_cons, List.map_nil, hblank, a.strip_text]
  | cons b l ih =>
    have hj : pre ++ Text.join [' ', '|', '|', ' '] ((a :: b :: l).map Alternative.text) =
        (pre ++ a.text ++ [' ']) ++ ['|', '|'] ++ ([' '] ++ Text.join [' ', '|', '|', ' ']
          ((b :: l).map Alternative.text)) := by
      simp [Text.join_cons]
    have hbar' : '|' ∉ pre ++ a.text ++ [' '] := by
      intro h
      rcases List.mem_append.1 h with h | h
      · exact hbar h
      · exact absurd h (by decide)
    have hrest := ih b [' '] (.inr rfl) (fun s => Text.strip_blank_cons (by decide) s)
      (by simpa using Alternative.not_mem_text (a := b) (c := '|') (by decide))
    rw [hj, Text.pieces_append hbar', List.map_cons, hrest,
      Text.strip_append_blank (by decide), hblank, a.strip_text]
    rfl

/-- A range whose operators the dialect knows. -/
def Expression.IsNpm : Expression Nat → Prop := Expression.Forall Item.IsNpm fun _ _ => True

end Grammar

namespace Npm

open Grammar

/-- The alternative that a text without blanks around it is. -/
def Alternative.parseStripped (whole s : Text) : Except Error Alternative :=
  ofBounds <$> readBounds whole (if s.isEmpty then anyVersion else s)

/-- **A range** is read as the bounds of its alternatives. -/
theorem Range.parse_text {k : Nat} (hk : k ≤ 9999999) {e : Expression Nat} (h : e.Within k)
    (hn : e.IsNpm) : Range.parse e.text =
      .ok (e.alternatives.map fun a => Alternative.ofBounds a.npmBounds) := by
  have hp : (Text.pieces "||".toList e.text).map Text.strip =
      e.alternatives.map Grammar.Alternative.text :=
    map_strip_pieces e.first e.rest [] (.inl rfl)
  have hparse : ∀ a ∈ e.alternatives, Alternative.parseStripped e.text a.text =
      .ok (Alternative.ofBounds a.npmBounds) := by
    intro a ha
    have he : a.text.isEmpty = false := by simpa using a.text_ne_nil
    rw [Alternative.parseStripped, he]
    show Alternative.ofBounds <$> Alternative.readBounds e.text a.text = _
    rw [Grammar.Alternative.readBounds_text hk (h a ha) (hn a ha)]
    rfl
  have hm : (Text.pieces "||".toList e.text).mapM (Alternative.parse e.text) =
      ((Text.pieces "||".toList e.text).map Text.strip).mapM
        (Alternative.parseStripped e.text) := by
    rw [List.mapM_map]
    rfl
  rw [Range.parse, hm, hp, List.mapM_map]
  exact Except.mapM_eq_ok hparse

/-! ## Releases -/

namespace Release

/-- The text of a release. -/
def text (r : Release) : Text := dotted [r.major, r.minor, r.patch]

/-- The first number is at most 99998 and the others are at most `k`. -/
structure Within (k : Nat) (r : Release) : Prop where
  major_le : r.major ≤ 99998
  minor_le : r.minor ≤ k
  patch_le : r.patch ≤ k

instance (k : Nat) (r : Release) : Decidable (r.Within k) :=
  decidable_of_iff (r.major ≤ 99998 ∧ r.minor ≤ k ∧ r.patch ≤ k)
    ⟨fun h => ⟨h.1, h.2.1, h.2.2⟩, fun h => ⟨h.1, h.2, h.3⟩⟩

end Release

/-- A release whose numbers have no more digits than can be read. -/
def Release.IsReadable (r : Release) : Prop :=
  ∀ n ∈ [r.major, r.minor, r.patch], (digits n).length ≤ maxDigits

theorem Release.Within.isReadable {k : Nat} (hk : k ≤ 9999999) {r : Release} (h : r.Within k) :
    r.IsReadable := by
  obtain ⟨hmajor, hminor, hpatch⟩ := h
  intro n hn
  refine length_digits_le_maxDigits ?_
  simp only [List.mem_cons, List.not_mem_nil, or_false] at hn
  omega

theorem Release.text_append (r : Release) (s : Text) : r.text ++ s =
    digits r.major ++ '.' :: (digits r.minor ++ '.' :: (digits r.patch ++ s)) := by
  simp [Release.text, Numeral.dotted_cons, Numeral.points_cons]

/-- A number has a leading zero only when it is zero. -/
theorem not_leading_zero (n : Nat) : ¬((digits n).head? = some '0' ∧ digits n ≠ ['0']) := by
  rintro ⟨hh, hne⟩
  by_cases h : n = 0
  · exact hne (by rw [h, Numeral.digits_zero])
  · exact Numeral.head?_digits h hh

namespace Version

theorem number?_digits {n : Nat} (hn : (digits n).length ≤ maxDigits) {r : Text}
    (hr : ∀ c ∈ r.head?, Text.isDecimal c = false) : number? (digits n ++ r) = some (n, r) := by
  obtain ⟨ht, hd⟩ := Text.scan_eq_of_head? hr
  have hzero : ¬((digits n).isEmpty = true ∨
      ((digits n).head? = some '0' ∧ digits n ≠ ['0'])) := by
    rw [not_or]
    exact ⟨by simpa using Numeral.digits_ne_nil n, not_leading_zero n⟩
  simp only [number?, Numeral.takeWhile_isDecimal_digits_append, ht, List.append_nil,
    Numeral.dropWhile_isDecimal_digits_append, hd, hzero, if_false,
    Numeral.read_digits_of_length_le hn]
  rfl

/-- **The three numbers** are read one after the other, up to what follows them. -/
theorem release?_text_append {r : Release} (h : r.IsReadable) {s : Text}
    (hs : ∀ c ∈ s.head?, Text.isDecimal c = false) : release? (r.text ++ s) = some (r, s) := by
  have hpoint : ∀ s : Text, ∀ c ∈ ('.' :: s).head?, Text.isDecimal c = false := by
    rintro s c ⟨⟩
    decide
  rw [Release.text_append]
  simp only [release?, number?_digits (h r.major (by simp)) (hpoint _), Option.bind_eq_bind,
    Option.bind_some, Text.dropPrefix?, if_true, number?_digits (h r.minor (by simp)) (hpoint _),
    number?_digits (h r.patch (by simp)) hs]
  rfl

/-- A release opens with a digit, so no letter stands in front of it. -/
theorem trimPrefix_text_append (r : Release) (s : Text) :
    Text.trimPrefix ['v'] (r.text ++ s) = r.text ++ s := by
  obtain ⟨c, t, hc, hd⟩ := Numeral.exists_dotted_eq_cons r.major [r.minor, r.patch]
  have hv : 'v' ≠ c := (Text.ne_of_isDigit hd rfl).symm
  rw [Release.text, hc]
  simp [Text.trimPrefix, Text.dropPrefix?, hv]

/-- **A release** is read as the version that it is. -/
theorem parse_text {k : Nat} (hk : k ≤ 9999999) {r : Release} (h : r.Within k) :
    parse r.text = .ok ⟨r, [], []⟩ := by
  have htrim := trimPrefix_text_append r []
  have hrelease := release?_text_append (h.isReadable hk) (s := []) (by simp)
  rw [List.append_nil] at htrim hrelease
  have hp : parse? r.text = some ⟨r, [], []⟩ := by
    rw [parse?, htrim, hrelease]
    rfl
  rw [parse, hp]
  rfl

end Version

end Npm

/-! ## Acceptance -/

namespace Grammar

open Npm (Release)

theorem Atom.prerelease_of_mem_npmBounds {v : Atom Nat} {sign : Npm.Sign} {b : Npm.Bound}
    (h : b ∈ v.npmBounds sign) : b.target.prerelease = [] := by
  cases v <;> cases sign <;>
    simp only [npmBounds, Npm.Block.openBounds, Npm.Block.versionBounds, List.mem_cons,
      List.not_mem_nil, or_false] at h
  all_goals first
    | (subst h; rfl)
    | (rcases h with rfl | rfl <;> rfl)

theorem Alternative.prerelease_of_mem_npmBounds {a : Alternative Nat} {b : Npm.Bound}
    (h : b ∈ a.npmBounds) : b.target.prerelease = [] := by
  cases a with
  | all c =>
    obtain ⟨i, -, hb⟩ := List.mem_flatMap.1 h
    cases i with
    | star =>
      obtain rfl := List.mem_singleton.1 hb
      rfl
    | version op v => exact Atom.prerelease_of_mem_npmBounds hb
  | hyphen low high =>
    rcases List.mem_append.1 h with h | h
    · exact Atom.prerelease_of_mem_npmBounds h
    · exact Atom.prerelease_of_mem_npmBounds h

/-- Whether the npm dialect lets a release through an alternative. -/
def Alternative.npmAccepts (a : Alternative Nat) (r : Release) : Bool :=
  a.npmBounds.all (·.matches ⟨r, [], []⟩)

end Grammar

/-- **What a range accepts**: a release meets all bounds of one of the alternatives. -/
theorem Npm.Range.matchesText_text {k : Nat} (hk : k ≤ 9999999) {e : Grammar.Expression Nat}
    (h : e.Within k) (hn : e.IsNpm) {r : Npm.Release} (hr : r.Within k) :
    Npm.Range.matchesText e.text r.text = .ok (e.alternatives.any (·.npmAccepts r)) := by
  -- No bound names a prerelease, so a release meets them by the order of releases alone.
  have hany : (e.alternatives.map fun a => Npm.Alternative.ofBounds a.npmBounds).any
      (·.accepts ⟨r, [], []⟩) = e.alternatives.any (·.npmAccepts r) := by
    rw [List.any_map]
    congr 1
    funext a
    exact Npm.Alternative.accepts_ofBounds
      (fun b hb => Grammar.Alternative.prerelease_of_mem_npmBounds hb) _
  rw [Npm.Range.matchesText, Npm.Range.parse_text hk h hn]
  show (do return Npm.Range.accepts _ (← Npm.Version.parse r.text)) = _
  rw [Npm.Version.parse_text hk hr]
  exact congrArg Except.ok hany

end AssetBridge
