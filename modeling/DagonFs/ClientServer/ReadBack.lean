import DagonFs.ClientServer.Exposure

/-!
# Reading back

The bytes of a read, after any run of FUSE's requests: `fuseRead_recorded` says that they are those which were
written last, wherever the file's buffer has been written or loaded since, and that a read of such bytes only
is always served.
-/

namespace DagonFs

open DagonFs.Lib.Runs

/-- The bytes of a list were written from a position on. -/
def Contents.HasAt (c : Contents) (off : ℕ) (data : List UInt8) : Prop :=
  ∀ k b, data[k]? = some b → c.buffered (off + k) = some b

namespace System

variable {L : Launch} {entrySize : Name → ℕ} {x : ℕ} {s : System} {v : FileState} {c : Contents}

/-- Written bytes are before the end of the file, and of its buffer. -/
theorem le_of_hasAt (h : Recorded L s x c v) {off : ℕ} {data : List UInt8} (hne : data ≠ [])
    (hhas : c.HasAt off data) :
    off + data.length ≤ v.stSize ∧ off + data.length ≤ v.file.bytes.length := by
  have hpos := List.length_pos_iff.mpr hne
  have hlast : data.length - 1 < data.length := by omega
  obtain ⟨hget, hsize, -⟩ := h.buffered _ _ (hhas _ _ (List.getElem?_eq_getElem hlast))
  have hlt := (List.getElem?_eq_some_iff.mp hget).1
  omega

/-- The part of the buffer that holds written bytes. -/
theorem slice_of_hasAt (h : Recorded L s x c v) {off : ℕ} {data : List UInt8} (hne : data ≠ [])
    (hhas : c.HasAt off data) : (v.file.bytes.drop off).take data.length = data := by
  obtain ⟨-, hlen⟩ := le_of_hasAt h hne hhas
  apply List.ext_getElem?
  intro k
  by_cases hk : k < data.length
  · rw [List.getElem?_take, if_pos hk, List.getElem?_drop, List.getElem?_eq_getElem hk]
    exact (h.buffered _ _ (hhas k _ (List.getElem?_eq_getElem hk))).1
  · rw [List.getElem?_take, if_neg hk, List.getElem?_eq_none (Nat.le_of_not_lt hk)]

/-- A read that is served replies with a part of the buffer. -/
theorem bytes_of_fuseRead (hfile : s.iNodeManager.fileAt x = some v) {size off : ℕ} {s' : System}
    {replies : List Reply} (hread : s.fuseRead x size off = some (s', replies)) :
    s' = s ∧ replies = [.buf ((v.file.bytes.drop off).take (min size (v.stSize - off)))] := by
  obtain ⟨i, hsize, -, hkind, hwith⟩ := withINode_file hfile
  have hcount : (if v.stSize < off + size then v.stSize - off else size) = min size (v.stSize - off) := by
    split <;> omega
  simp only [fuseRead, hwith, hkind, hsize, hcount] at hread
  obtain ⟨-, hread⟩ := Option.ite_none_left_eq_some.mp hread
  obtain ⟨-, hread⟩ := Option.ite_none_right_eq_some.mp hread
  obtain ⟨rfl, rfl⟩ := Prod.mk.inj (Option.some.inj hread)
  exact ⟨rfl, rfl⟩

/-- **A read gets what was written last.**  After any run of requests, a read of written bytes is served with
exactly these bytes; and whatever a read that is served asks for, each byte of its reply that has been
written is the one that was written last. -/
theorem fuseRead_recorded {process : Ids} {rs : List FuseRequest} {t : Watched}
    (hrun : run (Watched.step L entrySize x) (Watched.mounted process) rs = some t)
    (hfile : t.system.iNodeManager.fileAt x = some v) :
    (∀ off data, data ≠ [] → t.contents.HasAt off data →
      t.system.fuseRead x data.length off = some (t.system, [.buf data])) ∧
    ∀ size off s' replies, t.system.fuseRead x size off = some (s', replies) →
      s' = t.system ∧ ∃ bytes, replies = [.buf bytes] ∧ bytes.length ≤ size ∧
        ∀ k < size, ∀ b, t.contents.buffered (off + k) = some b → bytes[k]? = some b := by
  have hrecorded := (Watched.inv_run hrun).recorded v hfile
  constructor
  · intro off data hne hhas
    obtain ⟨hinside, hlen⟩ := le_of_hasAt hrecorded hne hhas
    rw [fuseRead_inside hfile hinside, if_pos hlen, slice_of_hasAt hrecorded hne hhas]
  · intro size off s' replies hread
    obtain ⟨rfl, rfl⟩ := bytes_of_fuseRead hfile hread
    refine ⟨rfl, _, rfl, ?_, ?_⟩
    · rw [List.length_take]
      omega
    · intro k hk b hb
      obtain ⟨hget, hlt, -⟩ := hrecorded.buffered _ _ hb
      rw [List.getElem?_take, if_pos (by omega), List.getElem?_drop]
      exact hget

/-- A file is written, cut off, flushed, opened again and written over the old end. -/
theorem fuseRead_recorded_cut : ∃ t, run (Watched.step ⟨2, 4, by decide, by decide⟩ (fun _ => 32) 2)
      (Watched.mounted ⟨0, 0⟩) [.names (.create ⟨0, 0⟩ 1 [97] oRdwr),
        .write 2 (some [1, 2, 3, 4, 5, 6]) 0 (fun _ => 9) true, .setAttr 2 ⟨0, 0, 0, 0, 5, 0⟩ fuseSetAttrSize,
        .flush 2 true, .open 2 oRdwr true, .write 2 (some [7, 8]) 4 (fun _ => 9) true] = some t ∧
    t.system.fuseRead 2 4 2 = some (t.system, [.buf [3, 4, 7, 8]]) := by
  have hfacts : (run (Watched.step ⟨2, 4, by decide, by decide⟩ (fun _ => 32) 2) (Watched.mounted ⟨0, 0⟩)
      [.names (.create ⟨0, 0⟩ 1 [97] oRdwr),
        .write 2 (some [1, 2, 3, 4, 5, 6]) 0 (fun _ => 9) true, .setAttr 2 ⟨0, 0, 0, 0, 5, 0⟩ fuseSetAttrSize,
        .flush 2 true, .open 2 oRdwr true, .write 2 (some [7, 8]) 4 (fun _ => 9) true]).map
      (fun t => ((t.system.iNodeManager.fileAt 2).isSome,
        (List.range 4).map fun k => t.contents.buffered (2 + k))) =
      some (true, [some 3, some 4, some 7, some 8]) := by decide +kernel
  obtain ⟨t, hrun, ht⟩ := Option.map_eq_some_iff.mp hfacts
  obtain ⟨hsome, hbytes⟩ := Prod.mk.inj ht
  obtain ⟨v, hfile⟩ := Option.isSome_iff_exists.mp hsome
  have hhas : t.contents.HasAt 2 [3, 4, 7, 8] := by
    simp only [List.range, List.range.loop, List.map_cons, List.map_nil, List.cons.injEq, and_true] at hbytes
    obtain ⟨h0, h1, h2, h3⟩ := hbytes
    intro k b hk
    match k with
    | 0 => exact h0.trans hk
    | 1 => exact h1.trans hk
    | 2 => exact h2.trans hk
    | 3 => exact h3.trans hk
    | _ + 4 => cases hk
  exact ⟨t, hrun, (fuseRead_recorded hrun hfile).1 2 [3, 4, 7, 8] (by decide) hhas⟩

end System

end DagonFs
