import DagonFs.Lib.Buffer

/-!
# Vector collectives

Each of `n` ranks passes its own arguments (`VectorCall`) to a collective.  The call has a defined
outcome when the ranks agree on the root, each rank's local count is the root's entry for it, and
every segment lies inside the root's buffer; then segment `[displs i, displs i + counts i)` of the
root's buffer moves to rank `i` (`scatterv`) or is filled from rank `i` (`gatherv`, and for every
rank at once `allgatherv`).  Counts and displacements are in bytes, and a buffer's elements have
`width` bytes each.

`fillLayout` is the loop that programs fill these arrays with: a running offset, so that the
displacements are the prefix sums of the counts.
-/

namespace DagonFs.Lib.Collective

open DagonFs.Lib.Buffer

variable {α : Type*}

/-- Counts, displacements and the running offset. -/
structure Layout where
  counts : List ℕ
  displs : List ℕ
  offset : ℕ

/-- The loop `counts[i] = count i; displs[i] = offset; offset += counts[i]` for `i < n`. -/
def fillLayout (count : ℕ → ℕ) : ℕ → Layout
  | 0 => ⟨[], [], 0⟩
  | i + 1 =>
    let l := fillLayout count i
    ⟨l.counts ++ [count i], l.displs ++ [l.offset], l.offset + count i⟩

/-- The sum of the first `i` counts. -/
def prefixSum (count : ℕ → ℕ) : ℕ → ℕ
  | 0 => 0
  | i + 1 => prefixSum count i + count i

theorem prefixSum_mul (count : ℕ → ℕ) (w i : ℕ) :
    prefixSum (fun j => count j * w) i = prefixSum count i * w := by
  induction i with
  | zero => simp [prefixSum]
  | succ i ih => simp only [prefixSum, ih, Nat.add_mul]

theorem prefixSum_congr {count count' : ℕ → ℕ} {i : ℕ} (h : ∀ j < i, count j = count' j) :
    prefixSum count i = prefixSum count' i := by
  induction i with
  | zero => rfl
  | succ i ih =>
    rw [prefixSum, prefixSum, ih fun j hj => h j (Nat.lt_succ_of_lt hj), h i (Nat.lt_succ_self i)]

theorem prefixSum_mono (count : ℕ → ℕ) : Monotone (prefixSum count) :=
  monotone_nat_of_le_succ fun _ => Nat.le_add_right _ _

@[simp] theorem fillLayout_offset (count : ℕ → ℕ) (n : ℕ) :
    (fillLayout count n).offset = prefixSum count n := by
  induction n with
  | zero => rfl
  | succ n ih => simp [fillLayout, prefixSum, ih]

@[simp] theorem fillLayout_length (count : ℕ → ℕ) (n : ℕ) :
    (fillLayout count n).counts.length = n ∧ (fillLayout count n).displs.length = n := by
  induction n with
  | zero => exact ⟨rfl, rfl⟩
  | succ n ih => simp [fillLayout, ih.1, ih.2]

theorem fillLayout_counts (count : ℕ → ℕ) {n i : ℕ} (hi : i < n) :
    (fillLayout count n).counts[i]? = some (count i) := by
  induction n with
  | zero => omega
  | succ n ih =>
    have hlen := (fillLayout_length count n).1
    rcases Nat.lt_or_ge i n with h | h
    · rw [fillLayout, List.getElem?_append_left (by omega), ih h]
    · obtain rfl : i = n := by omega
      rw [fillLayout, List.getElem?_append_right (by omega), hlen, Nat.sub_self]
      rfl

theorem fillLayout_displs (count : ℕ → ℕ) {n i : ℕ} (hi : i < n) :
    (fillLayout count n).displs[i]? = some (prefixSum count i) := by
  induction n with
  | zero => omega
  | succ n ih =>
    have hlen := (fillLayout_length count n).2
    rcases Nat.lt_or_ge i n with h | h
    · rw [fillLayout, List.getElem?_append_left (by omega), ih h]
    · obtain rfl : i = n := by omega
      rw [fillLayout, List.getElem?_append_right (by omega), hlen, Nat.sub_self]
      simp

/-! ### The collectives -/

/-- The arguments one rank passes: the root, the arrays (significant at the root, and at every rank of
an all-gather), and the count for its own segment, `none` for `MPI_IN_PLACE`. -/
structure VectorCall where
  root : ℕ
  layout : Layout
  localCount : Option ℕ

/-- The entry of an array for rank `i`. -/
def entry (l : List ℕ) (i : ℕ) : ℕ := l.getD i 0

/-- A call in which `rank` passes its own entry of the counts it filled. -/
def VectorCall.own (root : ℕ) (layout : Layout) (rank : ℕ) : VectorCall :=
  ⟨root, layout, some (entry layout.counts rank)⟩

/-- A call with `MPI_IN_PLACE` for the segment that stays where it is. -/
def VectorCall.inPlace (root : ℕ) (layout : Layout) : VectorCall := ⟨root, layout, none⟩

/-- Rank `i`'s segment of a buffer, by a layout. -/
def segment (width : ℕ) (l : Layout) (i : ℕ) (buf : List α) : List α :=
  (buf.drop (entry l.displs i / width)).take (entry l.counts i / width)

/-- Every rank names `root`, and passes the count that the root's arrays have for it. -/
def Matching (n root : ℕ) (calls : ℕ → VectorCall) : Prop :=
  ∀ i < n, (calls i).root = root ∧
    ((calls i).localCount = none ∨ (calls i).localCount = some (entry (calls root).layout.counts i))

instance (n root : ℕ) (calls : ℕ → VectorCall) : Decidable (Matching n root calls) :=
  inferInstanceAs (Decidable (∀ i < n, _))

/-- Every segment of the layout lies inside a buffer of the given length. -/
def Fits (n width : ℕ) (l : Layout) (length : ℕ) : Prop :=
  ∀ i < n, entry l.displs i / width + entry l.counts i / width ≤ length

instance (n width : ℕ) (l : Layout) (length : ℕ) : Decidable (Fits n width l length) :=
  inferInstanceAs (Decidable (∀ i < n, _))

/-- `MPI_Scatterv`: what each rank receives of the root's buffer. -/
def scatterv (n width root : ℕ) (calls : ℕ → VectorCall) (sendBuf : List α) :
    Option (ℕ → List α) :=
  if Matching n root calls ∧ Fits n width (calls root).layout sendBuf.length then
    some fun i => segment width (calls root).layout i sendBuf
  else none

/-- The pieces of the first `m` ranks, each copied to its displacement. -/
def collect (width : ℕ) (l : Layout) (pieces : ℕ → List α) (recvBuf : List α) : ℕ → List α
  | 0 => recvBuf
  | m + 1 => splice (collect width l pieces recvBuf m) (entry l.displs m / width) (pieces m)

/-- The pieces have the lengths the layout gives them. -/
def Filled (n width : ℕ) (l : Layout) (pieces : ℕ → List α) : Prop :=
  ∀ i < n, (pieces i).length * width = entry l.counts i

instance (n width : ℕ) (l : Layout) (pieces : ℕ → List α) : Decidable (Filled n width l pieces) :=
  inferInstanceAs (Decidable (∀ i < n, _))

/-- `MPI_Gatherv`: the root's buffer once every rank's piece is in it. -/
def gatherv (n width root : ℕ) (calls : ℕ → VectorCall) (pieces : ℕ → List α)
    (recvBuf : List α) : Option (List α) :=
  if Matching n root calls ∧ Fits n width (calls root).layout recvBuf.length ∧
      Filled n width (calls root).layout pieces then
    some (collect width (calls root).layout pieces recvBuf n)
  else none

/-- Every rank's arrays have, for each rank, the count that rank passes. -/
def AllMatching (n : ℕ) (calls : ℕ → VectorCall) : Prop :=
  ∀ j < n, ∀ i < n, (calls i).localCount = some (entry (calls j).layout.counts i)

instance (n : ℕ) (calls : ℕ → VectorCall) : Decidable (AllMatching n calls) :=
  inferInstanceAs (Decidable (∀ j < n, _))

/-- `MPI_Allgatherv`: every rank's buffer, filled by its own arrays. -/
def allgatherv (n width : ℕ) (calls : ℕ → VectorCall) (pieces : ℕ → List α)
    (recvBuf : ℕ → List α) : Option (ℕ → List α) :=
  if AllMatching n calls ∧ ∀ j < n, Fits n width (calls j).layout (recvBuf j).length ∧
      Filled n width (calls j).layout pieces then
    some fun j => collect width (calls j).layout pieces (recvBuf j) n
  else none

/-! ### Layouts in elements

A layout filled with `count i * width` bytes for rank `i` describes consecutive segments of
`count i` elements. -/

section Elements

variable {n width : ℕ} {count : ℕ → ℕ}

theorem entry_counts {i : ℕ} (hi : i < n) :
    entry (fillLayout (fun j => count j * width) n).counts i = count i * width := by
  rw [entry, List.getD_eq_getElem?_getD, fillLayout_counts _ hi]
  rfl

theorem entry_displs {i : ℕ} (hi : i < n) :
    entry (fillLayout (fun j => count j * width) n).displs i = prefixSum count i * width := by
  rw [entry, List.getD_eq_getElem?_getD, fillLayout_displs _ hi, prefixSum_mul]
  rfl

theorem segment_fillLayout {i : ℕ} (hw : 0 < width) (hi : i < n) (buf : List α) :
    segment width (fillLayout (fun j => count j * width) n) i buf =
      (buf.drop (prefixSum count i)).take (count i) := by
  rw [segment, entry_counts hi, entry_displs hi, Nat.mul_div_cancel _ hw, Nat.mul_div_cancel _ hw]

theorem fits_fillLayout {length : ℕ} (hw : 0 < width) (h : prefixSum count n ≤ length) :
    Fits n width (fillLayout (fun j => count j * width) n) length := by
  intro i hi
  rw [entry_counts hi, entry_displs hi, Nat.mul_div_cancel _ hw, Nat.mul_div_cancel _ hw]
  exact (prefixSum_mono count hi).trans h

/-- **A scatter of consecutive segments.** -/
theorem scatterv_fillLayout {root : ℕ} {calls : ℕ → VectorCall} {sendBuf : List α}
    (hw : 0 < width) (hroot : (calls root).layout = fillLayout (fun j => count j * width) n)
    (hcalls : ∀ i < n, (calls i).root = root ∧
      ((calls i).localCount = none ∨ (calls i).localCount = some (count i * width)))
    (hfit : prefixSum count n ≤ sendBuf.length) :
    ∃ local_, scatterv n width root calls sendBuf = some local_ ∧
      ∀ i < n, local_ i = (sendBuf.drop (prefixSum count i)).take (count i) := by
  have hmatch : Matching n root calls := by
    intro i hi
    rw [hroot, entry_counts hi]
    exact hcalls i hi
  refine ⟨_, if_pos ⟨hmatch, hroot ▸ fits_fillLayout hw hfit⟩, fun i hi => ?_⟩
  rw [hroot, segment_fillLayout hw hi]

theorem length_flatMap_pieces {pieces : ℕ → List α} (hlen : ∀ i < n, (pieces i).length = count i) :
    ((List.range n).flatMap pieces).length = prefixSum count n := by
  induction n with
  | zero => rfl
  | succ n ih =>
    rw [List.range_succ, List.flatMap_append, List.length_append, ih fun i hi => hlen i (by omega)]
    simp [prefixSum, hlen n (by omega)]

/-- After the pieces of the first `m` ranks, the buffer starts with them and is otherwise as it was. -/
theorem collect_fillLayout (hw : 0 < width) {pieces : ℕ → List α} {recvBuf : List α}
    (hlen : ∀ i < n, (pieces i).length = count i) :
    ∀ m ≤ n, collect width (fillLayout (fun j => count j * width) n) pieces recvBuf m =
      (List.range m).flatMap pieces ++ recvBuf.drop (prefixSum count m) := by
  intro m
  induction m with
  | zero => intro _; rfl
  | succ m ih =>
    intro hm
    have hpiece := hlen m (by omega)
    have hflat : ((List.range m).flatMap pieces).length = prefixSum count m :=
      length_flatMap_pieces fun i hi => hlen i (by omega)
    rw [collect, ih (by omega), entry_displs (by omega), Nat.mul_div_cancel _ hw, splice, ← hflat,
      List.take_left, List.drop_append, hflat, hpiece, List.drop_eq_nil_of_le (by omega),
      List.drop_drop, List.range_succ, List.flatMap_append]
    simp only [List.flatMap_cons, List.flatMap_nil, List.append_nil, List.nil_append, prefixSum]
    congr 2
    omega

/-- A gather keeps the length of the root's buffer. -/
theorem length_of_gatherv {root : ℕ} {calls : ℕ → VectorCall} {pieces : ℕ → List α}
    {recvBuf out : List α} (hw : 0 < width)
    (h : gatherv n width root calls pieces recvBuf = some out) : out.length = recvBuf.length := by
  unfold gatherv at h
  split at h
  · rename_i hargs
    obtain ⟨-, hfits, hfilled⟩ := hargs
    obtain rfl := Option.some.inj h
    have hcollect : ∀ m ≤ n,
        (collect width (calls root).layout pieces recvBuf m).length = recvBuf.length := by
      intro m
      induction m with
      | zero => intro _; rfl
      | succ m ih =>
        intro hm
        have hsegment := hfits m (by omega)
        rw [← hfilled m (by omega), Nat.mul_div_cancel _ hw] at hsegment
        rw [collect, length_splice (by rw [ih (by omega)]; exact hsegment), ih (by omega)]
    exact hcollect n (le_refl n)
  · cases h

/-- A gather depends on the pieces of the `n` ranks only. -/
theorem gatherv_congr {root : ℕ} {calls : ℕ → VectorCall} {pieces pieces' : ℕ → List α}
    {recvBuf : List α} (h : ∀ i < n, pieces i = pieces' i) :
    gatherv n width root calls pieces recvBuf = gatherv n width root calls pieces' recvBuf := by
  have hfilled : Filled n width (calls root).layout pieces ↔
      Filled n width (calls root).layout pieces' :=
    forall₂_congr fun i hi => by rw [h i hi]
  have hcollect : ∀ m ≤ n, collect width (calls root).layout pieces recvBuf m =
      collect width (calls root).layout pieces' recvBuf m := by
    intro m
    induction m with
    | zero => intro _; rfl
    | succ m ih =>
      intro hm
      rw [collect, collect, ih (by omega), h m hm]
  simp only [gatherv, hfilled, hcollect n (le_refl n)]

/-- **A gather of consecutive segments that fill the buffer**: the pieces in rank order. -/
theorem gatherv_fillLayout {root : ℕ} {calls : ℕ → VectorCall} {pieces : ℕ → List α}
    {recvBuf : List α} (hw : 0 < width)
    (hroot : (calls root).layout = fillLayout (fun j => count j * width) n)
    (hcalls : ∀ i < n, (calls i).root = root ∧
      ((calls i).localCount = none ∨ (calls i).localCount = some (count i * width)))
    (hlen : ∀ i < n, (pieces i).length = count i) (hfit : prefixSum count n = recvBuf.length) :
    gatherv n width root calls pieces recvBuf = some ((List.range n).flatMap pieces) := by
  have hmatch : Matching n root calls := by
    intro i hi
    rw [hroot, entry_counts hi]
    exact hcalls i hi
  have hfilled : Filled n width (calls root).layout pieces := by
    intro i hi
    rw [hroot, entry_counts hi, hlen i hi]
  rw [gatherv, if_pos ⟨hmatch, hroot ▸ fits_fillLayout hw hfit.le, hfilled⟩, hroot,
    collect_fillLayout hw hlen n (le_refl n), List.drop_eq_nil_of_le hfit.ge,
    List.append_nil]

/-- **An all-gather of consecutive segments that fill the buffers**: every rank ends with the pieces in
rank order. -/
theorem allgatherv_fillLayout {calls : ℕ → VectorCall} {pieces : ℕ → List α}
    {recvBuf : ℕ → List α} (hw : 0 < width)
    (hcalls : ∀ i < n, (calls i).layout = fillLayout (fun j => count j * width) n ∧
      (calls i).localCount = some (count i * width))
    (hlen : ∀ i < n, (pieces i).length = count i)
    (hfit : ∀ i < n, prefixSum count n = (recvBuf i).length) :
    ∃ all, allgatherv n width calls pieces recvBuf = some all ∧
      ∀ j < n, all j = (List.range n).flatMap pieces := by
  have hmatch : AllMatching n calls := by
    intro j hj i hi
    rw [(hcalls j hj).1, entry_counts hi]
    exact (hcalls i hi).2
  have hfits : ∀ j < n, Fits n width (calls j).layout (recvBuf j).length ∧
      Filled n width (calls j).layout pieces := by
    intro j hj
    rw [(hcalls j hj).1]
    refine ⟨fits_fillLayout hw (hfit j hj).le, fun i hi => ?_⟩
    rw [entry_counts hi, hlen i hi]
  refine ⟨_, if_pos ⟨hmatch, hfits⟩, fun j hj => ?_⟩
  rw [(hcalls j hj).1, collect_fillLayout hw hlen n (le_refl n),
    List.drop_eq_nil_of_le (hfit j hj).ge, List.append_nil]

/-- Element `j` of rank `i`'s piece is element `prefixSum count i + j` of the gathered buffer. -/
theorem getElem?_flatMap {pieces : ℕ → List α} (hlen : ∀ i < n, (pieces i).length = count i)
    {i j : ℕ} (hi : i < n) (hj : j < count i) :
    ((List.range n).flatMap pieces)[prefixSum count i + j]? = (pieces i)[j]? := by
  induction n with
  | zero => omega
  | succ m ih =>
    have hflat : ((List.range m).flatMap pieces).length = prefixSum count m :=
      length_flatMap_pieces fun i hi => hlen i (by omega)
    rw [List.range_succ, List.flatMap_append]
    rcases Nat.lt_or_ge i m with h | h
    · have hle := prefixSum_mono count h
      simp only [prefixSum] at hle
      rw [List.getElem?_append_left (by omega)]
      exact ih (fun i hi => hlen i (by omega)) h
    · obtain rfl : i = m := by omega
      rw [List.getElem?_append_right (by omega), hflat, Nat.add_sub_cancel_left]
      simp

end Elements

end DagonFs.Lib.Collective
