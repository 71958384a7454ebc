import Mathlib.Data.List.Basic
import Mathlib.Data.List.Induction
import Mathlib.Tactic.Ring

/-!
# Byte buffers and their write history

A buffer is a list; `splice` copies data over a part of it (`memcpy`) and `grow` changes its length,
filling the new part from `junk` (`realloc`).

A `Patch` is one write: data at an offset.  `lastByte` reads a history of patches: at each position
the byte of the last patch that covers it.  `Agrees` says that a buffer holds what its history says;
`agrees_splice` and `agrees_grow` are the two ways a buffer that agrees may change.

`overlay` copies a history over a buffer.  A buffer that agrees with the history after the whole buffer as its
first patch is the overlay (`take_eq_overlay`).
-/

namespace DagonFs.Lib.Buffer

variable {α : Type*}

/-- Copy `data` over the buffer at `off`. -/
def splice (buf : List α) (off : ℕ) (data : List α) : List α :=
  buf.take off ++ data ++ buf.drop (off + data.length)

/-- Change the length of a buffer to `size`; positions past the old end come from `junk`. -/
def grow (buf : List α) (size : ℕ) (junk : ℕ → α) : List α :=
  buf.take size ++ (List.range' buf.length (size - buf.length)).map junk

theorem length_splice {buf : List α} {off : ℕ} {data : List α}
    (h : off + data.length ≤ buf.length) : (splice buf off data).length = buf.length := by
  simp only [splice, List.length_append, List.length_take, List.length_drop]
  omega

/-- Copying over the end makes the buffer longer. -/
theorem length_splice_max {buf : List α} {off : ℕ} {data : List α} (h : off ≤ buf.length) :
    (splice buf off data).length = max buf.length (off + data.length) := by
  simp only [splice, List.length_append, List.length_take, List.length_drop]
  omega

theorem getElem?_splice {buf : List α} {off : ℕ} {data : List α} (h : off ≤ buf.length) (k : ℕ) :
    (splice buf off data)[k]? = if off ≤ k ∧ k < off + data.length then data[k - off]? else buf[k]? := by
  have htake : (buf.take off).length = off := by rw [List.length_take]; omega
  rcases Nat.lt_or_ge k off with hlt | hge
  · rw [splice, List.append_assoc, List.getElem?_append_left (by omega), List.getElem?_take,
      if_pos hlt, if_neg (by omega)]
  · rw [splice, List.append_assoc, List.getElem?_append_right (by omega), htake]
    rcases Nat.lt_or_ge k (off + data.length) with hin | hout
    · rw [List.getElem?_append_left (by omega), if_pos ⟨hge, hin⟩]
    · rw [List.getElem?_append_right (by omega), List.getElem?_drop, if_neg (by omega)]
      congr 1
      omega

@[simp] theorem length_grow (buf : List α) (size : ℕ) (junk : ℕ → α) :
    (grow buf size junk).length = size := by
  simp only [grow, List.length_append, List.length_take, List.length_map, List.length_range']
  omega

/-- What was in the buffer stays, as far as it still fits. -/
theorem getElem?_grow {buf : List α} {size k : ℕ} (junk : ℕ → α) (hk : k < buf.length)
    (hs : k < size) : (grow buf size junk)[k]? = buf[k]? := by
  rw [grow, List.getElem?_append_left (by rw [List.length_take]; omega), List.getElem?_take,
    if_pos hs]

/-- What is new comes from `junk`. -/
theorem getElem?_grow_new {buf : List α} {size k : ℕ} (junk : ℕ → α) (hk : buf.length ≤ k)
    (hs : k < size) : (grow buf size junk)[k]? = some (junk k) := by
  rw [grow, List.take_of_length_le (by omega), List.getElem?_append_right hk, List.getElem?_map,
    List.getElem?_range' (by omega), Option.map_some]
  congr 2
  omega

/-! ### Histories -/

/-- One write: the offset and the bytes. -/
structure Patch (α : Type*) where
  off : ℕ
  data : List α

/-- The first position after the patch. -/
def Patch.stop (p : Patch α) : ℕ := p.off + p.data.length

/-- The byte the patch writes at position `k`, if it covers it. -/
def Patch.byteAt (p : Patch α) (k : ℕ) : Option α :=
  if p.off ≤ k then p.data[k - p.off]? else none

/-- The byte of the last patch of a history that covers position `k`. -/
def lastByte (ps : List (Patch α)) (k : ℕ) : Option α :=
  ps.foldl (fun acc p => (p.byteAt k).or acc) none

/-- The furthest stop of a history. -/
def extent (ps : List (Patch α)) : ℕ := ps.foldl (fun acc p => max acc p.stop) 0

@[simp] theorem lastByte_nil (k : ℕ) : lastByte ([] : List (Patch α)) k = none := rfl

@[simp] theorem extent_nil : extent ([] : List (Patch α)) = 0 := rfl

theorem lastByte_snoc (ps : List (Patch α)) (p : Patch α) (k : ℕ) :
    lastByte (ps ++ [p]) k = (p.byteAt k).or (lastByte ps k) := by
  simp [lastByte, List.foldl_append]

theorem extent_snoc (ps : List (Patch α)) (p : Patch α) :
    extent (ps ++ [p]) = max (extent ps) p.stop := by
  simp [extent, List.foldl_append]

theorem Patch.byteAt_eq_none {p : Patch α} {k : ℕ} (h : p.stop ≤ k) : p.byteAt k = none := by
  rw [stop] at h
  rw [byteAt, if_pos (by omega), List.getElem?_eq_none (by omega)]

theorem Patch.byteAt_of_lt {p : Patch α} {k : ℕ} (h : k < p.off) : p.byteAt k = none := by
  rw [byteAt, if_neg (Nat.not_le.mpr h)]

theorem lastByte_cons (p : Patch α) (ps : List (Patch α)) (k : ℕ) :
    lastByte (p :: ps) k = (lastByte ps k).or (p.byteAt k) := by
  induction ps using List.reverseRecOn with
  | nil => simp [lastByte]
  | append_singleton ps q ih => rw [← List.cons_append, lastByte_snoc, ih, lastByte_snoc, Option.or_assoc]

theorem extent_cons (p : Patch α) (ps : List (Patch α)) : extent (p :: ps) = max p.stop (extent ps) := by
  induction ps using List.reverseRecOn with
  | nil => simp [extent]
  | append_singleton ps q ih => rw [← List.cons_append, extent_snoc, ih, extent_snoc, max_assoc]

/-- A patch of no bytes may be anywhere. -/
theorem getElem?_splice_patch {buf : List α} {p : Patch α}
    (h : p.data.length = 0 ∨ p.off ≤ buf.length) (k : ℕ) :
    (splice buf p.off p.data)[k]? = (p.byteAt k).or buf[k]? := by
  rcases h with hempty | hfit
  · rw [List.length_eq_zero_iff] at hempty
    have hnone : p.byteAt k = none := by
      rw [Patch.byteAt, hempty, List.getElem?_nil, ite_self]
    rw [hnone, Option.none_or, splice, hempty, List.append_nil, List.length_nil, Nat.add_zero,
      List.take_append_drop]
  · rw [getElem?_splice hfit]
    split
    · rename_i hin
      have hlt : k - p.off < p.data.length := by omega
      rw [Patch.byteAt, if_pos hin.1, List.getElem?_eq_getElem hlt, Option.some_or]
    · rename_i hout
      have hnone : p.byteAt k = none := by
        rcases Nat.lt_or_ge k p.off with hlt | hge
        · exact Patch.byteAt_of_lt hlt
        · exact Patch.byteAt_eq_none (by rw [Patch.stop]; omega)
      rw [hnone, Option.none_or]

/-- Nothing is written past the extent. -/
theorem lastByte_eq_none {ps : List (Patch α)} {k : ℕ} (h : extent ps ≤ k) : lastByte ps k = none := by
  induction ps using List.reverseRecOn with
  | nil => rfl
  | append_singleton ps p ih =>
    rw [extent_snoc] at h
    rw [lastByte_snoc, p.byteAt_eq_none (by omega), ih (by omega)]
    rfl

/-- The buffer holds, wherever the history wrote, the byte written last. -/
def Agrees (buf : List α) (ps : List (Patch α)) : Prop :=
  ∀ k a, lastByte ps k = some a → buf[k]? = some a

theorem agrees_nil (buf : List α) : Agrees buf [] := by
  intro k a h
  simp at h

/-- Copying a patch over a buffer that agrees makes it agree with the longer history. -/
theorem agrees_splice {buf : List α} {ps : List (Patch α)} {p : Patch α} (h : Agrees buf ps)
    (hfit : p.stop ≤ buf.length) : Agrees (splice buf p.off p.data) (ps ++ [p]) := by
  intro k a hk
  rw [lastByte_snoc] at hk
  rw [getElem?_splice_patch (Or.inr (Nat.le_trans (Nat.le_add_right _ _) hfit))]
  cases hbyte : p.byteAt k with
  | some b =>
    rw [hbyte] at hk
    exact hk
  | none =>
    rw [hbyte, Option.none_or] at hk
    rw [Option.none_or]
    exact h k a hk

/-- A longer buffer still agrees. -/
theorem agrees_grow {buf : List α} {ps : List (Patch α)} {size : ℕ} (junk : ℕ → α)
    (h : Agrees buf ps) (hsize : buf.length ≤ size) : Agrees (grow buf size junk) ps := by
  intro k a hk
  have hbuf := h k a hk
  have hlt : k < buf.length := (List.getElem?_eq_some_iff.mp hbuf).1
  rw [getElem?_grow junk hlt (by omega), hbuf]

/-! ### A history over a buffer -/

/-- The buffer with the patches copied over it one after the other. -/
def overlay (buf : List α) (ps : List (Patch α)) : List α :=
  ps.foldl (fun buf p => splice buf p.off p.data) buf

/-- Each patch starts inside of what is there, or at its end. -/
def StartWithin : ℕ → List (Patch α) → Prop
  | _, [] => True
  | size, p :: ps => p.off ≤ size ∧ StartWithin (max size p.stop) ps

instance decidableStartWithin : ∀ (size : ℕ) (ps : List (Patch α)), Decidable (StartWithin size ps)
  | _, [] => isTrue trivial
  | size, p :: ps =>
    have : Decidable (StartWithin (max size p.stop) ps) := decidableStartWithin (max size p.stop) ps
    inferInstanceAs (Decidable (_ ∧ _))

theorem length_overlay {buf : List α} {ps : List (Patch α)} (h : StartWithin buf.length ps) :
    (overlay buf ps).length = max buf.length (extent ps) := by
  induction ps generalizing buf with
  | nil => simp [overlay]
  | cons p ps ih =>
    have hlength : (splice buf p.off p.data).length = max buf.length p.stop := length_splice_max h.1
    have hrest : StartWithin (splice buf p.off p.data).length ps := by
      rw [hlength]
      exact h.2
    show (overlay (splice buf p.off p.data) ps).length = _
    rw [ih hrest, hlength, extent_cons, max_assoc]

/-- The byte of the last patch, and where there is none the byte of the buffer. -/
theorem getElem?_overlay {buf : List α} {ps : List (Patch α)} (h : StartWithin buf.length ps) (k : ℕ) :
    (overlay buf ps)[k]? = (lastByte ps k).or buf[k]? := by
  induction ps generalizing buf with
  | nil => simp [overlay]
  | cons p ps ih =>
    have hrest : StartWithin (splice buf p.off p.data).length ps := by
      rw [length_splice_max h.1]
      exact h.2
    show (overlay (splice buf p.off p.data) ps)[k]? = _
    rw [ih hrest, getElem?_splice_patch (Or.inr h.1), lastByte_cons, Option.or_assoc]

theorem byteAt_whole (buf : List α) (k : ℕ) : Patch.byteAt ⟨0, buf⟩ k = buf[k]? := if_pos (Nat.zero_le k)

/-- A buffer that agrees with all of `buf` and then the patches holds the overlay. -/
theorem take_eq_overlay {bytes buf : List α} {ps : List (Patch α)} (h : StartWithin buf.length ps)
    (hagrees : Agrees bytes (⟨0, buf⟩ :: ps)) :
    bytes.take (max buf.length (extent ps)) = overlay buf ps := by
  apply List.ext_getElem?
  intro k
  rw [List.getElem?_take]
  split
  · rename_i hk
    have hlt : k < (overlay buf ps).length := by rwa [length_overlay h]
    have hbyte : lastByte (⟨0, buf⟩ :: ps) k = some (overlay buf ps)[k] := by
      rw [lastByte_cons, byteAt_whole, ← getElem?_overlay h, List.getElem?_eq_getElem hlt]
    rw [hagrees k _ hbyte, List.getElem?_eq_getElem hlt]
  · rename_i hk
    rw [List.getElem?_eq_none (by rw [length_overlay h]; omega)]

end DagonFs.Lib.Buffer
