import Padwork.Bytes

/-!
# UTF-8

Texts as byte strings and back. Reading undoes writing (`ofUtf8?_utf8`), and a
byte string that is not the UTF-8 of any text is refused.
-/
namespace Padwork

def utf8 (text : String) : Bytes := text.toList.flatMap String.utf8EncodeChar

def ofUtf8? (bytes : Bytes) : Option String := String.fromUTF8? bytes.toByteArray

theorem toByteArray_utf8 (text : String) : (utf8 text).toByteArray = text.toByteArray := by
  rw [utf8, ← List.utf8Encode.eq_1, String.utf8Encode_toList]

@[simp] theorem ofUtf8?_utf8 (text : String) : ofUtf8? (utf8 text) = some text := by
  rw [ofUtf8?, toByteArray_utf8, String.fromUTF8?, dif_pos text.isValidUTF8]
  rfl

theorem utf8_of_ofUtf8? {bytes : Bytes} {text : String} (h : ofUtf8? bytes = some text) :
    utf8 text = bytes := by
  rw [ofUtf8?, String.fromUTF8?] at h
  split at h
  · rw [← List.toByteArray_inj, toByteArray_utf8, ← Option.some.inj h]
    rfl
  · cases h

@[simp] theorem utf8_append (a b : String) : utf8 (a ++ b) = utf8 a ++ utf8 b := by
  rw [utf8, String.toList_append, List.flatMap_append]
  rfl

end Padwork
