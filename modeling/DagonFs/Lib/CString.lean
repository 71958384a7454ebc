import DagonFs.Lib.Buffer

/-!
# C strings in zero-filled fields

An object is the list of its bytes.  `memcpy` copies into it, and is undefined past its end; `cString`
reads what is at an offset up to the first NUL, and is undefined when the object ends before one.  Neither
sees the borders of the fields inside the object.

A zero-filled field of `size` bytes reads back what was copied into it exactly when a byte of it is left
for the NUL (`cString_field`, `cString_full`); a string that fills its field runs on into the next one
(`cString_full_append`).
-/

namespace DagonFs.Lib.CString

open DagonFs.Lib.Buffer

/-- `memcpy(object + offset, data, data.size())`. -/
def memcpy (object : List UInt8) (offset : ℕ) (data : List UInt8) : Option (List UInt8) :=
  if offset + data.length ≤ object.length then some (splice object offset data) else none

/-- The C string at an offset. -/
def cString (object : List UInt8) (offset : ℕ) : Option (List UInt8) :=
  let bytes := object.drop offset
  if 0 ∈ bytes then some (bytes.takeWhile (· ≠ 0)) else none

/-- A field of `size` bytes that holds `s`. -/
def field (size : ℕ) (s : List UInt8) : List UInt8 := s ++ List.replicate (size - s.length) 0

variable {size : ℕ} {s t rest : List UInt8}

theorem length_field (h : s.length ≤ size) : (field size s).length = size := by
  rw [field, List.length_append, List.length_replicate]
  omega

/-! ### Copying -/

/-- A copy into an object of one field. -/
theorem memcpy_zeros (h : s.length ≤ size) : memcpy (List.replicate size 0) 0 s = some (field size s) := by
  rw [memcpy, if_pos (by simpa using h), splice, field, List.take_zero, List.nil_append, Nat.zero_add,
    List.drop_replicate]

/-- Two copies into an object of two fields, each within its own. -/
theorem memcpy_two_fields (hs : s.length ≤ size) (ht : t.length ≤ size) :
    ((memcpy (List.replicate (size + size) 0) 0 s).bind fun object => memcpy object size t) =
      some (field size s ++ field size t) := by
  have hsplit : field (size + size) s = field size s ++ List.replicate size 0 := by
    have hcount : size + size - s.length = (size - s.length) + size := by omega
    rw [field, field, hcount, List.append_assoc, List.replicate_append_replicate]
  have hlength := length_field hs
  rw [memcpy_zeros (by omega), Option.bind_some, hsplit, memcpy,
    if_pos (by rw [List.length_append, hlength, List.length_replicate]; omega), splice,
    List.take_left' hlength, List.drop_append, hlength, Nat.add_sub_cancel_left, List.drop_replicate,
    List.drop_of_length_le (by omega), List.nil_append, List.append_assoc]
  rfl

/-! ### Reading back -/

theorem cString_of_prefix (hs : 0 ∉ s) : cString (s ++ 0 :: rest) 0 = some s := by
  have hwhile : (s ++ 0 :: rest).takeWhile (· ≠ 0) = s := by
    rw [List.takeWhile_append_of_pos]
    · simp
    · intro b hb
      exact decide_eq_true fun hzero => hs (hzero ▸ hb)
  rw [cString, List.drop_zero, if_pos (by simp), hwhile]

theorem cString_drop (object : List UInt8) (offset : ℕ) :
    cString object offset = cString (object.drop offset) 0 := rfl

/-- A string that leaves a byte of its field reads back. -/
theorem cString_field (hs : 0 ∉ s) (h : s.length < size) (rest : List UInt8) :
    cString (field size s ++ rest) 0 = some s := by
  have hcount : size - s.length = (size - s.length - 1) + 1 := by omega
  rw [field, hcount, List.replicate_succ, List.append_assoc, List.cons_append]
  exact cString_of_prefix hs

/-- A string that fills the last field has no end. -/
theorem cString_full (hs : 0 ∉ s) (h : s.length = size) : cString (field size s) 0 = none := by
  rw [field, h, Nat.sub_self, List.replicate_zero, List.append_nil]
  exact if_neg hs

/-- A string that fills its field runs on into what follows. -/
theorem cString_full_append (hs : 0 ∉ s) (h : s.length = size) (rest : List UInt8) :
    cString (field size s ++ rest) 0 = (cString rest 0).map (s ++ ·) := by
  have hmem : 0 ∈ s ++ rest ↔ 0 ∈ rest := by simp [hs]
  have hwhile : (s ++ rest).takeWhile (· ≠ 0) = s ++ rest.takeWhile (· ≠ 0) :=
    List.takeWhile_append_of_pos fun b hb => decide_eq_true fun hzero => hs (hzero ▸ hb)
  rw [field, h, Nat.sub_self, List.replicate_zero, List.append_nil]
  simp only [cString, List.drop_zero, hmem, hwhile]
  split <;> rfl

end DagonFs.Lib.CString
