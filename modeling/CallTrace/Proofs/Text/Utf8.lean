/-
Plain ASCII as bytes.

Each character of a plain ASCII text is one byte, and the bytes are read
as the text they were written for.
-/
import CallTrace.Text.Utf8

namespace CallTrace.Text.Utf8

/-- The bytes are listed from the place on, behind those that were listed
before. -/
theorem toList_loop (bytes : ByteArray) (i : Nat) (done : List UInt8) :
    ByteArray.toList.loop bytes i done =
      done.reverse ++ bytes.data.toList.drop i := by
  fun_induction ByteArray.toList.loop bytes i done with
  | case1 i done h ih =>
    have hi : i < bytes.data.size := h
    have hget : bytes.get! i = bytes.data[i] := getElem!_pos bytes.data i hi
    rw [ih, hget, List.reverse_cons, List.append_assoc,
      List.singleton_append, ← Array.getElem_toList,
      List.getElem_cons_drop]
  | case2 i done h =>
    have hi : bytes.data.toList.length ≤ i := by
      rw [Array.length_toList]
      exact Nat.le_of_not_lt h
    rw [List.drop_eq_nil_of_le hi, List.append_nil]

/-- The bytes of a text are those of its characters. -/
theorem encode_ofList (cs : List Char) :
    encode (String.ofList cs) = cs.flatMap String.utf8EncodeChar := by
  rw [encode, String.toUTF8_eq_toByteArray, String.toByteArray_ofList,
    ByteArray.toList, toList_loop, List.utf8Encode,
    List.toList_data_toByteArray]
  simp

/-- The byte of an ASCII character. -/
theorem utf8EncodeChar_ascii {c : Char} (h : c.toNat < 0x80) :
    String.utf8EncodeChar c = [c.val.toUInt8] := by
  refine String.utf8EncodeChar_eq_singleton ?_
  rw [Char.utf8Size, if_pos]
  show c.val.toNat ≤ _
  have : c.val.toNat < 0x80 := h
  exact Nat.le_of_lt_succ this

theorem step_ascii {c : Char} (h : c.toNat < 0x80) (done : List Piece)
    (position : Nat) :
    step done position c.val.toUInt8 none = (.char c :: done, none) := by
  have hbyte : c.val.toUInt8.toNat = c.toNat := by
    rw [UInt32.toNat_toUInt8]
    exact Nat.mod_eq_of_lt (Nat.lt_trans h (by decide))
  simp only [step, opening, first?, hbyte, if_pos h, if_true,
    Char.ofNat_toNat]

/-- A text in ASCII is read as its characters, none of them broken. -/
theorem piecesFrom_ascii {cs : List Char} (h : ∀ c ∈ cs, c.toNat < 0x80)
    (done : List Piece) (position : Nat) :
    piecesFrom done position none (cs.flatMap String.utf8EncodeChar) =
      done.reverse ++ cs.map .char := by
  induction cs generalizing done position with
  | nil => simp [piecesFrom]
  | cons c cs ih =>
    have hc := h c (List.mem_cons_self ..)
    rw [List.flatMap_cons, utf8EncodeChar_ascii hc, List.singleton_append,
      piecesFrom, step_ascii hc]
    simp [ih fun c hc => h c (List.mem_cons_of_mem _ hc)]

theorem go_chars (cs done : List Char) :
    decode.go done (cs.map .char) = .ok (done.reverse ++ cs) := by
  induction cs generalizing done with
  | nil => simp [decode.go]
  | cons c cs ih => simp [decode.go, ih]

/-- Plain ASCII is read as what was written. -/
theorem decode_encode {cs : List Char} (h : ∀ c ∈ cs, c.toNat < 0x80) :
    decode (encode (String.ofList cs)) = .ok cs := by
  rw [decode, encode_ofList, pieces, piecesFrom_ascii h, List.reverse_nil,
    List.nil_append, go_chars, List.reverse_nil, List.nil_append]

end CallTrace.Text.Utf8
