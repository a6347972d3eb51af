import AssetBridge.Source.Pending

/-!
# Range expressions

A range of the source dialect, converted into a constraint of the target grammar: a comma joins
conditions and a bar separates alternatives. Nothing is rejected here; what is not understood
passes through token by token, and only numerals beyond the digit limit make the conversion fail.

## Main definitions

* `Source.walk`: the texts that the tokens become.
* `Source.convertRange`: the constraint for a range.
-/

namespace AssetBridge.Source

/-- **The walk**: the texts of the tokens from the given place on. `seen` says that a token that is
not empty stands before it. An atom before a hyphen marker becomes the lower bound of the range. -/
def walk (index : Nat) (seen : Bool) (p : Pending) :
    List Text → Except Numeral.Error (List Text)
  | [] => return []
  | token :: rest => do
    let (p, written) ← p.step index (!seen && !token.isEmpty) token rest.head?
    let behind ← walk (index + 1) (seen || !token.isEmpty) p rest
    return (if rest.head? = some hyphenMarker then lowerSide written else written) :: behind

/-- **Conversion**: the constraint for a range expression. -/
def convertRange (s : Text) : Except Numeral.Error Text :=
  List.flatten <$> walk 0 false Pending.none (tokenize (clean (Text.lower s)))

example : convertRange ">=1.0 <1.1 || ^1.2.3".toList =
    .ok ">=1.0,<1.1|>=1.2.3,<2.0.0".toList := rfl

end AssetBridge.Source
