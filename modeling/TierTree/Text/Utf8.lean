/-!
Text as bytes. Every text is one UTF-8 byte string, and decoding accepts
exactly these byte strings (`decode?_encode`, `encode_of_decode?`).
-/

namespace TierTree.Utf8

/-- The UTF-8 bytes of a text. -/
def encode (text : String) : List UInt8 :=
  text.toList.flatMap String.utf8EncodeChar

/-- The text with these UTF-8 bytes, `none` if they are malformed. -/
def decode? (bytes : List UInt8) : Option String :=
  String.fromUTF8? bytes.toByteArray

theorem toByteArray_encode (text : String) : (encode text).toByteArray = text.toByteArray := by
  rw [encode, ← List.utf8Encode, ← String.toByteArray_ofList, String.ofList_toList]

@[simp] theorem decode?_encode (text : String) : decode? (encode text) = some text := by
  simp only [decode?, toByteArray_encode, String.fromUTF8?]
  rw [dif_pos text.isValidUTF8]
  rfl

theorem encode_of_decode? {bytes : List UInt8} {text : String} (h : decode? bytes = some text) :
    encode text = bytes := by
  simp only [decode?, String.fromUTF8?] at h
  split at h
  next valid =>
    cases h
    apply List.toByteArray_inj.mp
    rw [toByteArray_encode]
    rfl
  next => cases h

end TierTree.Utf8
