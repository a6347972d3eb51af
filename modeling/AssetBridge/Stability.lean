import AssetBridge.Text.Case

/-!
# Stabilities

A version is as stable as the keyword behind its numbers says, from `dev` up to `stable`. A `patch`
is no stability: it marks a build made after the release and comes behind `stable`.

## Main definitions

* `Stability`, `Stability.rank`: the five stabilities in their order.
* `Stability.ofAlias?`: the spellings that source manifests use.
* `Stability.rankOf`: the rank of a keyword.
* `Stability.normalizeKeyword`, `Stability.expandKeyword`, `Stability.classify`: the keyword of a
  suffix on its way into the target grammar.
-/

namespace AssetBridge

/-- How far a version is from its release. -/
inductive Stability where
  | dev
  | alpha
  | beta
  | rc
  | stable
deriving DecidableEq, Repr

namespace Stability

/-- The keyword of a stability in the target grammar. -/
def keyword : Stability → Text
  | dev => "dev".toList
  | alpha => "alpha".toList
  | beta => "beta".toList
  | rc => "RC".toList
  | stable => "stable".toList

/-- The place of a stability in the order. -/
def rank : Stability → Nat
  | dev => 0
  | alpha => 1
  | beta => 2
  | rc => 3
  | stable => 4

/-- The keyword of a build made after the release. -/
def patchKeyword : Text := "patch".toList

/-- The rank of such a build: behind every stability. -/
def patchRank : Nat := stable.rank + 1

/-- The stability behind a spelling in small letters. -/
def ofAlias? (s : Text) : Option Stability :=
  if s = "dev".toList ∨ s = "snapshot".toList then some dev
  else if s = "a".toList ∨ s = "alpha".toList then some alpha
  else if s = "b".toList ∨ s = "beta".toList ∨ s = "pre".toList then some beta
  else if s = "rc".toList then some rc
  else if s = "stable".toList then some stable
  else none

/-- **Rank of a keyword**: a patch is behind `stable`, an unknown keyword beside it. -/
def rankOf (s : Text) : Nat :=
  if Text.lower s = patchKeyword then patchRank
  else ((ofAlias? (Text.lower s)).getD stable).rank

/-- A keyword in small letters, but for the release candidate, which is written in capitals. Its
length is that of the text it was read from. -/
def normalizeKeyword (s : Text) : Text :=
  if Text.lower s = "rc".toList then rc.keyword else Text.lower s

/-- The full form of a short keyword of the target grammar. -/
def expandKeyword (s : Text) : Text :=
  let s := Text.lower s
  if s = "a".toList then alpha.keyword
  else if s = "b".toList then beta.keyword
  else if s = "p".toList ∨ s = "pl".toList then patchKeyword
  else if s = "rc".toList then rc.keyword
  else s

/-- The keyword that the target grammar writes for a normalized one, and whether a number follows
it. Development versions are never numbered, and an unknown keyword marks a patch. -/
def classify (s : Text) : Text × Bool :=
  if s = "dev".toList ∨ s = "snapshot".toList then (dev.keyword, false)
  else if s = "a".toList ∨ s = alpha.keyword then (alpha.keyword, true)
  else if s = "b".toList ∨ s = "pre".toList ∨ s = beta.keyword then (beta.keyword, true)
  else if s = rc.keyword then (rc.keyword, true)
  else (patchKeyword, true)

end Stability

end AssetBridge
