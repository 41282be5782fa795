/-!
# UTF-8

A text is a list of characters, and in UTF-8 each of them takes up to four bytes. Places in a text
are counted in these bytes (`byteLength`).

Bytes are a text if they are its UTF-8 form: every character in the shortest form that there is for
it, and no surrogates (`Text.decodeUtf8?`). The text then is as long as the bytes
(`Text.byteLength_of_decodeUtf8?_eq_some`).
-/

namespace Reckon

/-- The number of bytes that a list of characters takes in UTF-8. -/
def byteLength (text : List Char) : Nat :=
  text.foldl (fun n c => n + c.utf8Size) 0

theorem foldl_utf8Size (n : Nat) (text : List Char) :
    text.foldl (fun n c => n + c.utf8Size) n = n + byteLength text := by
  induction text generalizing n with
  | nil => rfl
  | cons c text ih =>
    have h : byteLength (c :: text) = c.utf8Size + byteLength text := by
      rw [byteLength, List.foldl_cons, ih, Nat.zero_add]
    rw [List.foldl_cons, ih, h, Nat.add_assoc]

@[simp]
theorem byteLength_nil : byteLength [] = 0 := rfl

@[simp]
theorem byteLength_cons (c : Char) (text : List Char) :
    byteLength (c :: text) = c.utf8Size + byteLength text := by
  rw [byteLength, List.foldl_cons, foldl_utf8Size, Nat.zero_add]

@[simp]
theorem byteLength_append (s t : List Char) :
    byteLength (s ++ t) = byteLength s + byteLength t := by
  induction s with
  | nil => simp
  | cons c s ih => simp [ih, Nat.add_assoc]

/-- It is the size of the UTF-8 form. -/
theorem byteLength_eq_size_utf8Encode (text : List Char) :
    byteLength text = text.utf8Encode.size := by
  induction text with
  | nil => rfl
  | cons c text ih =>
    rw [List.utf8Encode_cons, ByteArray.size_append, byteLength_cons, ih,
      List.utf8Encode_singleton]
    simp

namespace Text

/-- The text that bytes stand for, if they are UTF-8. -/
def decodeUtf8? (bytes : List UInt8) : Option (List Char) :=
  (String.fromUTF8? ⟨bytes.toArray⟩).map String.toList

theorem byteLength_of_decodeUtf8?_eq_some {bytes : List UInt8} {text : List Char}
    (h : decodeUtf8? bytes = some text) : byteLength text = bytes.length := by
  obtain ⟨s, hs, rfl⟩ := Option.map_eq_some_iff.1 h
  rw [byteLength_eq_size_utf8Encode, ← String.toByteArray_ofList, String.ofList_toList]
  unfold String.fromUTF8? at hs
  split at hs
  · obtain rfl := Option.some.inj hs
    rfl
  · contradiction

end Text

end Reckon
