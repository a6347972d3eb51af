import AssetBridge.Proofs.Outcomes
import AssetBridge.Proofs.Walk

/-!
# How far pending marks reach

What an operator leaves pending is used up by the next atom, whatever that atom is. Only a caret
keeps the comparator in front of it for one atom more. So the state of a walk is all that its later
steps know of the tokens before: not their texts, not how many they are, and not which of them was
the first that is not empty, once there is one. A hyphen marker writes back into the token in front
of it, which lies before the place where the later tokens begin. It also looks at the token behind
it, and no other token does so where the state is concerned.

## Main definitions

* `Source.marksAfter`: the marks that are pending after the first tokens of a walk
* `Source.Pending.afterAtom`: what an atom leaves pending

## Main results

* `Pending.eq_afterAtom_of_step`, `Pending.comparator_of_step_hyphen`: what one step leaves pending
* `map_drop_walk`: the later texts of a walk are those of a walk from the marks pending there
* `marksAfter_reach`: pending marks reach the next atom, and nothing but them reaches further
-/

namespace AssetBridge.Source

/-! ## What a step leaves pending -/

namespace Pending

/-- **What an atom leaves pending**: no modifier, and a comparator only under a caret. -/
def afterAtom (p : Pending) : Pending where
  comparator := if p.modifier = some .caret then p.comparator else Option.none

variable {p q : Pending} {i : Nat} {b : Bool} {token w : Text} {next : Option Text}

theorem eq_none_of_finalize (h : p.finalize token = .ok (q, w)) : q = Pending.none := by
  obtain ⟨converted, -, h⟩ := Except.exists_of_bind_eq_ok h
  split at h
  · exact (congrArg Prod.fst (Except.ok.inj h)).symm
  · split at h
    · exact (congrArg Prod.fst (Except.ok.inj h)).symm
    · exact (congrArg Prod.fst (Except.ok.inj h)).symm

/-- Every atom clears the marks in the same way. -/
theorem eq_afterAtom_of_atom (h : p.atom token i next = .ok (q, w)) : q = p.afterAtom := by
  have hcleared : p.modifier ≠ some .caret → Pending.none = p.afterAtom := by
    intro hne
    rw [afterAtom, if_neg hne]
    rfl
  unfold Pending.atom at h
  split at h
  case h_1 hcaret =>
    obtain ⟨t, -, h⟩ := Except.exists_of_bind_eq_ok h
    rw [afterAtom, if_pos hcaret]
    exact (congrArg Prod.fst (Except.ok.inj h)).symm
  case h_2 hpartial =>
    obtain ⟨t, -, h⟩ := Except.exists_of_bind_eq_ok h
    exact (eq_none_of_finalize h).trans (hcleared (by rw [hpartial]; decide))
  case h_3 hmark | h_4 hmark | h_5 hmark =>
    exact (eq_none_of_finalize h).trans (hcleared (by rw [hmark]; decide))

/-- **After an atom** no modifier is pending, and no comparator unless the atom was under a
caret. -/
theorem eq_afterAtom_of_step (hkind : TokenKind.ofToken token b = .atom)
    (h : p.step i b token next = .ok (q, w)) : q = p.afterAtom := by
  rw [step, hkind] at h
  exact eq_afterAtom_of_atom h

/-- **A hyphen marker** never changes the comparator. -/
theorem comparator_of_step_hyphen (hkind : TokenKind.ofToken token b = .hyphen)
    (h : p.step i b token next = .ok (q, w)) : q.comparator = p.comparator := by
  rw [step, hkind] at h
  obtain rfl : (p.hyphen (next.getD [])).1 = q := congrArg Prod.fst (Except.ok.inj h)
  unfold hyphen
  split <;> rfl

/-- Only a hyphen marker asks for the token behind it before it decides what is pending. -/
theorem eq_of_step (hne : token ≠ hyphenMarker) {q' : Pending} {w' : Text} {next' : Option Text}
    (h : p.step i b token next = .ok (q, w)) (h' : p.step i b token next' = .ok (q', w')) :
    q = q' := by
  unfold step at h h'
  cases hkind : TokenKind.ofToken token b with
  | atom =>
    rw [hkind] at h h'
    exact (eq_afterAtom_of_atom h).trans (eq_afterAtom_of_atom h').symm
  | hyphen =>
    refine absurd hkind ?_
    unfold TokenKind.ofToken
    rw [if_neg hne]
    repeat' split
    all_goals exact fun h => nomatch h
  | structural | tilde | consumedModifier | conjunction | disjunction =>
    rw [hkind] at h h'
    exact congrArg Prod.fst (Except.ok.inj (h.symm.trans h'))

end Pending

/-! ## The marks along a walk -/

/-- Whether a token that is not empty is among the tokens. -/
def hasText (tokens : List Text) : Bool := tokens.any fun t => !t.isEmpty

/-- The marks that are pending after the first `n` tokens, where `index`, `seen` and `p` say how
the walk over them begins. -/
def pendingAfter (index : Nat) (seen : Bool) (p : Pending) :
    Nat → List Text → Except Numeral.Error Pending
  | 0, _ => return p
  | _ + 1, [] => return p
  | n + 1, token :: rest => do
    let (q, _) ← p.step index (!seen && !token.isEmpty) token rest.head?
    pendingAfter (index + 1) (seen || !token.isEmpty) q n rest

/-- **The marks that are pending** after the first `n` tokens of a walk over all of them. -/
def marksAfter (tokens : List Text) (n : Nat) : Except Numeral.Error Pending :=
  pendingAfter 0 false Pending.none n tokens

/-- Whether the token at a place is the first that is not empty. -/
def opensAt (tokens : List Text) (i : Nat) (token : Text) : Bool :=
  !hasText (tokens.take i) && !token.isEmpty

variable {index : Nat} {seen : Bool} {p q : Pending} {tokens ps qs ss : List Text}

/-- One token more is one step more. -/
theorem pendingAfter_succ {n : Nat} {token : Text} (h : tokens[n]? = some token) :
    pendingAfter index seen p (n + 1) tokens = (do
      let q ← pendingAfter index seen p n tokens
      Prod.fst <$> q.step (index + n) (!(seen || hasText (tokens.take n)) && !token.isEmpty) token
        tokens[n + 1]?) := by
  -- Induction on the tokens in front, each of which moves the walk on by a step.
  induction n generalizing index seen p tokens with
  | zero =>
    cases tokens with
    | nil => cases h
    | cons t ts =>
      obtain rfl : t = token := Option.some.inj h
      have hhead : ts.head? = (t :: ts)[0 + 1]? := by rw [List.head?_eq_getElem?]; rfl
      simp only [pendingAfter, hhead, List.take_zero, hasText, List.any_nil, Bool.or_false,
        Nat.add_zero]
      rfl
  | succ n ih =>
    cases tokens with
    | nil => cases h
    | cons t ts =>
      have hplace : index + (n + 1) = index + 1 + n := by omega
      rw [pendingAfter, pendingAfter, bind_assoc, hplace]
      congr 1
      funext x
      obtain ⟨r, w⟩ := x
      rw [List.take_succ_cons, hasText, List.any_cons, ← Bool.or_assoc]
      exact ih h

/-- The marks after one token more come from a step over that token. -/
theorem exists_step_of_marksAfter {i : Nat} {token : Text} (htoken : tokens[i]? = some token)
    (hp : marksAfter tokens i = .ok p) (hq : marksAfter tokens (i + 1) = .ok q) :
    ∃ w, p.step i (opensAt tokens i token) token tokens[i + 1]? = .ok (q, w) := by
  rw [marksAfter] at hp hq
  rw [pendingAfter_succ htoken, hp] at hq
  obtain ⟨⟨r, w⟩, hstep, rfl⟩ := Except.exists_of_map_eq_ok hq
  rw [Nat.zero_add, Bool.false_or] at hstep
  exact ⟨w, hstep⟩

/-- **The later texts of a walk** are those of a walk that begins there, with the marks that are
pending. -/
theorem map_drop_walk (index : Nat) (seen : Bool) (p : Pending) (ps ss : List Text) :
    List.drop ps.length <$> walk index seen p (ps ++ ss) = (do
      let q ← pendingAfter index seen p ps.length (ps ++ ss)
      walk (index + ps.length) (seen || hasText ps) q ss) := by
  induction ps generalizing index seen p with
  | nil =>
    rw [List.nil_append, hasText, List.any_nil, Bool.or_false]
    exact id_map _
  | cons t ps ih =>
    rw [List.cons_append, walk, List.length_cons, pendingAfter]
    cases p.step index (!seen && !t.isEmpty) t (ps ++ ss).head? with
    | error e => rfl
    | ok x =>
      have hplace : index + (ps.length + 1) = index + 1 + ps.length := by omega
      have hrest := ih (index + 1) (seen || !t.isEmpty) x.1
      rw [hasText] at hrest
      simp only [Except.ok_bind]
      rw [hasText, List.any_cons, ← Bool.or_assoc, hplace]
      refine Eq.trans ?_ hrest
      -- The text of the first token is dropped on both sides.
      cases walk (index + 1) (seen || !t.isEmpty) x.1 (ps ++ ss) <;> rfl

/-- Behind a token that is not empty, a walk goes on from its marks as it does from any place. -/
theorem map_drop_walk_of_marksAfter (hps : hasText ps = true)
    (h : marksAfter (ps ++ ss) ps.length = .ok p) :
    List.drop ps.length <$> walk 0 false Pending.none (ps ++ ss) = walk 1 true p ss := by
  have hne : 0 + ps.length ≠ 0 := by
    cases ps with
    | nil => cases hps
    | cons t ps =>
      rw [List.length_cons]
      omega
  rw [marksAfter] at h
  rw [map_drop_walk, h, hps, Bool.or_true, Except.ok_bind, walk_of_ne_zero hne]

/-- Behind any token but a hyphen marker, the marks are the same whatever follows. -/
theorem pendingAfter_append_inj {q' : Pending} {ss' : List Text}
    (hlast : ps.getLast? ≠ some hyphenMarker)
    (h : pendingAfter index seen p ps.length (ps ++ ss) = .ok q)
    (h' : pendingAfter index seen p ps.length (ps ++ ss') = .ok q') : q = q' := by
  induction ps generalizing index seen p with
  | nil => exact Except.ok.inj (h.symm.trans h')
  | cons t ps ih =>
    rw [List.cons_append, List.length_cons, pendingAfter] at h h'
    obtain ⟨⟨r, w⟩, hstep, h⟩ := Except.exists_of_bind_eq_ok h
    obtain ⟨⟨r', w'⟩, hstep', h'⟩ := Except.exists_of_bind_eq_ok h'
    have hmarks : r = r' := by
      cases ps with
      | nil => exact Pending.eq_of_step (fun e => hlast (congrArg some e)) hstep hstep'
      | cons u ps => exact congrArg Prod.fst (Except.ok.inj (hstep.symm.trans hstep'))
    subst hmarks
    refine ih ?_ h h'
    cases ps with
    | nil => exact fun h => nomatch h
    | cons u ps => rwa [List.getLast?_cons_cons] at hlast

/-- **Pending marks reach the next atom, and nothing else reaches further.** After an atom no
modifier is pending, and a comparator only when the atom was under a caret, namely the one before
it. A hyphen marker never changes the comparator. When two walks have the same marks pending behind
their first tokens, one of which is not empty, and the same tokens follow, those become the same
texts in both. What is pending there does not depend on what follows, unless the last of the first
tokens is a hyphen marker, which looks at the token behind it. -/
theorem marksAfter_reach :
    (∀ tokens i token p q, tokens[i]? = some token → marksAfter tokens i = .ok p →
      marksAfter tokens (i + 1) = .ok q →
        (TokenKind.ofToken token (opensAt tokens i token) = .atom → q.modifier = none ∧
          q.comparator = if p.modifier = some .caret then p.comparator else none) ∧
        (TokenKind.ofToken token (opensAt tokens i token) = .hyphen →
          q.comparator = p.comparator)) ∧
    (∀ ps qs ss p, (∃ t ∈ ps, t ≠ []) → (∃ t ∈ qs, t ≠ []) →
      marksAfter (ps ++ ss) ps.length = .ok p → marksAfter (qs ++ ss) qs.length = .ok p →
        List.drop ps.length <$> walk 0 false Pending.none (ps ++ ss) =
          List.drop qs.length <$> walk 0 false Pending.none (qs ++ ss)) ∧
    ∀ ps ss ss' p q, ps.getLast? ≠ some hyphenMarker →
      marksAfter (ps ++ ss) ps.length = .ok p → marksAfter (ps ++ ss') ps.length = .ok q →
        p = q := by
  have htext : ∀ ts : List Text, (∃ t ∈ ts, t ≠ []) → hasText ts = true := by
    rintro ts ⟨t, ht, hne⟩
    exact List.any_eq_true.2 ⟨t, ht, by simpa using hne⟩
  refine ⟨fun tokens i token p q htoken hp hq => ?_, fun ps qs ss p hps hqs hp hq => ?_,
    fun ps ss ss' p q hlast hp hq => pendingAfter_append_inj hlast hp hq⟩
  · obtain ⟨w, hstep⟩ := exists_step_of_marksAfter htoken hp hq
    refine ⟨fun hatom => ?_, fun hhyphen => Pending.comparator_of_step_hyphen hhyphen hstep⟩
    rw [Pending.eq_afterAtom_of_step hatom hstep]
    exact ⟨rfl, rfl⟩
  · rw [map_drop_walk_of_marksAfter (htext ps hps) hp, map_drop_walk_of_marksAfter (htext qs hqs) hq]

/-- A comparator in front of a caret, and a hyphen behind the atom under both. -/
def caretBeforeHyphen : List Text := tokenize "<^1.2.3 - 2.x".toList

/-- An exact version and the bar behind it. -/
def exactFront : List Text := ["1.0.0".toList, "||".toList]

/-- A version under a caret and the blank behind it. -/
def caretFront : List Text := [[], "^".toList, "2.x".toList, " ".toList]

/-- The comparator stays pending over the atom under the caret and over the hyphen marker. A lone
number behind a bar becomes the same text as behind a blank. -/
theorem marksAfter_reach_caretBeforeHyphen :
    marksAfter caretBeforeHyphen 4 = .ok ⟨some .caret, some .less⟩ ∧
    (∃ q, marksAfter caretBeforeHyphen 5 = .ok q ∧ q.modifier = none ∧
      q.comparator = some .less) ∧
    (∃ q, marksAfter caretBeforeHyphen 6 = .ok q ∧ q.comparator = some .less) ∧
    marksAfter (exactFront ++ ["3".toList]) 2 = .ok Pending.none ∧
    marksAfter (caretFront ++ ["3".toList]) 4 = .ok Pending.none ∧
    List.drop 2 <$> walk 0 false Pending.none (exactFront ++ ["3".toList]) =
      List.drop 4 <$> walk 0 false Pending.none (caretFront ++ ["3".toList]) ∧
    ∀ q, marksAfter (exactFront ++ []) 2 = .ok q → q = Pending.none := by
  obtain ⟨hsteps, hsuffix, hfront⟩ := marksAfter_reach
  have h₄ : marksAfter caretBeforeHyphen 4 = .ok ⟨some .caret, some .less⟩ := rfl
  have h₅ : marksAfter caretBeforeHyphen 5 = .ok ⟨none, some .less⟩ := rfl
  have h₆ : marksAfter caretBeforeHyphen 6 = .ok ⟨some .partialUpperBound, some .less⟩ := rfl
  have hexact : marksAfter (exactFront ++ ["3".toList]) 2 = .ok Pending.none := rfl
  have hcaret : marksAfter (caretFront ++ ["3".toList]) 4 = .ok Pending.none := rfl
  refine ⟨h₄, ⟨_, h₅, ?_⟩, ⟨_, h₆, ?_⟩, hexact, hcaret, ?_, fun q hq => ?_⟩
  · exact (hsteps caretBeforeHyphen 4 "1.2.3".toList _ _ rfl h₄ h₅).1 rfl
  · exact (hsteps caretBeforeHyphen 5 hyphenMarker _ _ rfl h₅ h₆).2 rfl
  · exact hsuffix exactFront caretFront ["3".toList] _ (by decide) (by decide) hexact hcaret
  · exact (hfront exactFront ["3".toList] [] _ _ (by decide) hexact hq).symm

end AssetBridge.Source
