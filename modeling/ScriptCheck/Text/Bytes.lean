import ScriptCheck.Total

/-!
# Byte lengths

A text is worked on as its list of characters. Offsets into it count bytes of
its UTF-8 form, so a character contributes between one and four.
-/

namespace ScriptCheck.Text

/-- Number of bytes that a list of characters takes in UTF-8. -/
def byteLength (cs : List Char) : Nat := total Char.utf8Size cs

@[simp] theorem byteLength_nil : byteLength [] = 0 := rfl

@[simp] theorem byteLength_cons (c : Char) (cs : List Char) :
    byteLength (c :: cs) = c.utf8Size + byteLength cs := rfl

@[simp] theorem byteLength_append (xs ys : List Char) :
    byteLength (xs ++ ys) = byteLength xs + byteLength ys :=
  total_append ..

theorem utf8ByteSize_ofList (cs : List Char) :
    (String.ofList cs).utf8ByteSize = byteLength cs := by
  induction cs with
  | nil => rfl
  | cons c cs ih =>
    rw [String.ofList_cons, String.utf8ByteSize_append, String.utf8ByteSize_singleton, ih,
      byteLength_cons]

theorem byteLength_toList (text : String) : byteLength text.toList = text.utf8ByteSize := by
  rw [← utf8ByteSize_ofList, String.ofList_toList]

/-- Wherever the characters of a text are parted, there is a boundary between characters. -/
theorem isValid_of_append {text : String} {xs ys : List Char} (h : text.toList = xs ++ ys) :
    String.Pos.Raw.IsValid text ⟨byteLength xs⟩ := by
  refine String.Pos.Raw.isValid_iff_exists_append.2 ⟨String.ofList xs, String.ofList ys, ?_, ?_⟩
  · rw [← String.ofList_append, ← h, String.ofList_toList]
  · rw [String.rawEndPos, utf8ByteSize_ofList]

end ScriptCheck.Text
