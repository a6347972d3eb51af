/-!
# Ranges of code points

The character classes below ASCII and beyond are sets of code points, given as lists of closed
ranges in ascending order.

## Main definitions

* `Text.inRanges`: membership of a character in such a set.
-/

namespace AssetBridge.Text

/-- Whether the code point of a character lies in one of the ranges. -/
def inRanges (ranges : List (Nat × Nat)) (c : Char) : Bool :=
  ranges.any fun (first, last) => first ≤ c.toNat && c.toNat ≤ last

theorem inRanges_iff {ranges : List (Nat × Nat)} {c : Char} :
    inRanges ranges c = true ↔ ∃ r ∈ ranges, r.1 ≤ c.toNat ∧ c.toNat ≤ r.2 := by
  simp [inRanges]

end AssetBridge.Text
