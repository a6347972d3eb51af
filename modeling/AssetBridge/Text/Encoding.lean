import AssetBridge.Text.Basic

/-!
# Texts as bytes

Files hold bytes. A text is stored as UTF-8, and bytes that are no UTF-8 are no text.

## Main definitions

* `Text.encode`, `Text.decode?`: a text as bytes, and back.

## Main results

* `Text.decode?_eq_some_iff`: the two undo each other, so a text has one stored form.
-/

namespace AssetBridge.Text

/-- The bytes that store a text. -/
def encode (s : Text) : ByteArray := (String.ofList s).toUTF8

/-- The text that bytes store. -/
def decode? (bytes : ByteArray) : Option Text := (String.fromUTF8? bytes).map String.toList

@[simp] theorem decode?_encode (s : Text) : decode? (encode s) = some s := by
  have h : (encode s).IsValidUTF8 := ⟨s, rfl⟩
  have e : String.fromUTF8 (encode s) h = String.ofList s := rfl
  simp [decode?, String.fromUTF8?, h, e]

theorem encode_of_decode? {bytes : ByteArray} {s : Text} (h : decode? bytes = some s) :
    encode s = bytes := by
  by_cases valid : bytes.IsValidUTF8
  · obtain ⟨t, rfl⟩ := valid
    have e : some t = some s := (decode?_encode t).symm.trans h
    rw [Option.some.inj e]
    rfl
  · simp [decode?, String.fromUTF8?, valid] at h

/-- Reading and storing undo each other. -/
theorem decode?_eq_some_iff {bytes : ByteArray} {s : Text} :
    decode? bytes = some s ↔ bytes = encode s :=
  ⟨fun h => (encode_of_decode? h).symm, fun h => h ▸ decode?_encode s⟩

end AssetBridge.Text
