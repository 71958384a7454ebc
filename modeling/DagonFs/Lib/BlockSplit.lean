import DagonFs.Lib.Collective

/-!
# Splitting `N` blocks over `n` parts

Part `i` gets `N / n` blocks, and one more when `i < N % n`: the first parts take the remainder.  The
parts are consecutive, so part `i` begins at `start N n i`.

* `start_self`: the parts cover exactly `[0, N)`.
* `owner`: the closed form of the part that holds block `b`; `owner_spec` says that it does and
  `owner_unique` that no other part does.
* `IsSplit`, `isSplit_fillLayout`: the arrays of a collective that are filled with the shares.
* `owners_agree_iff`: when a smaller number of blocks is split over the same parts as a larger one.
-/

namespace DagonFs.Lib.BlockSplit

open DagonFs.Lib.Collective

variable {N n i b : ℕ}

/-- The number of blocks of part `i`. -/
def share (N n i : ℕ) : ℕ := N / n + if i < N % n then 1 else 0

/-- The first block of part `i`. -/
def start (N n i : ℕ) : ℕ := i * (N / n) + min i (N % n)

/-- The part that holds block `b`: the first `N % n` parts have one block more than the others. -/
def owner (N n b : ℕ) : ℕ :=
  if b < N % n * (N / n + 1) then b / (N / n + 1)
  else N % n + (b - N % n * (N / n + 1)) / (N / n)

@[simp] theorem start_zero (N n : ℕ) : start N n 0 = 0 := by simp [start]

theorem start_succ (N n i : ℕ) : start N n (i + 1) = start N n i + share N n i := by
  simp only [start, share, Nat.succ_mul]
  split <;> omega

/-- The parts cover exactly the `N` blocks. -/
theorem start_self (N : ℕ) (hn : 0 < n) : start N n n = N := by
  have hmod : N % n < n := Nat.mod_lt N hn
  rw [start, Nat.min_eq_right hmod.le]
  exact Nat.div_add_mod N n

/-- The parts begin where the shares before them end. -/
theorem prefixSum_share (N n i : ℕ) : prefixSum (share N n) i = start N n i := by
  induction i with
  | zero => simp [prefixSum]
  | succ i ih => rw [prefixSum, start_succ, ih]

theorem start_mono (N n : ℕ) : Monotone (start N n) :=
  monotone_nat_of_le_succ fun i => by rw [start_succ]; omega

theorem share_le (hn : 0 < n) (hin : i < n) : share N n i ≤ N := by
  have h := start_mono N n (Nat.succ_le_of_lt hin)
  rw [Nat.succ_eq_add_one, start_succ, start_self N hn] at h
  omega

/-- The parts that have nothing are the ones past the blocks, when there are fewer blocks than parts. -/
theorem share_eq_zero_iff (hin : i < n) : share N n i = 0 ↔ N ≤ i := by
  have hn : 0 < n := by omega
  constructor
  · intro h
    rw [share] at h
    have hq : N / n = 0 := Nat.eq_zero_of_add_eq_zero_right h
    rw [hq, Nat.zero_add, Nat.mod_eq_of_lt ((Nat.div_eq_zero_iff_lt hn).mp hq)] at h
    by_contra hlt
    rw [if_pos (Nat.lt_of_not_le hlt)] at h
    omega
  · intro h
    have hlt : N < n := by omega
    rw [share, Nat.div_eq_of_lt hlt, Nat.mod_eq_of_lt hlt, if_neg (Nat.not_lt.mpr h)]

/-- Inside the parts that carry one extra block, part `i` begins at `i * (N / n + 1)`. -/
theorem start_of_le_mod (h : i ≤ N % n) : start N n i = i * (N / n + 1) := by
  rw [start, Nat.min_eq_left h]
  ring

theorem start_of_mod_le (h : N % n ≤ i) : start N n i = N % n * (N / n + 1) + (i - N % n) * (N / n) := by
  obtain ⟨k, rfl⟩ := Nat.exists_eq_add_of_le h
  rw [start, Nat.min_eq_right h, Nat.add_sub_cancel_left]
  ring

/-- **Every block is in the part its owner names.** -/
theorem owner_spec (hn : 0 < n) (hb : b < N) :
    owner N n b < n ∧ start N n (owner N n b) ≤ b ∧ b < start N n (owner N n b + 1) := by
  have hmod : N % n < n := Nat.mod_lt N hn
  have hdiv : n * (N / n) + N % n = N := Nat.div_add_mod N n
  unfold owner
  split
  · -- one of the longer parts
    rename_i hlt
    have hi : b / (N / n + 1) < N % n := Nat.div_lt_of_lt_mul (by rw [Nat.mul_comm]; exact hlt)
    rw [start_of_le_mod hi.le, start_of_le_mod hi]
    refine ⟨hi.trans hmod, Nat.div_mul_le_self b _, ?_⟩
    exact Nat.lt_mul_of_div_lt (Nat.lt_succ_self _) (Nat.succ_pos _)
  · -- one of the shorter parts, so they are not empty
    rename_i hge
    have hge' : N % n * (N / n + 1) ≤ b := Nat.le_of_not_lt hge
    obtain ⟨k, rfl⟩ := Nat.exists_eq_add_of_le hge'
    rw [Nat.add_sub_cancel_left]
    have htail : k < (n - N % n) * (N / n) := by
      have hsplit : n * (N / n) = N % n * (N / n) + (n - N % n) * (N / n) := by
        rw [← Nat.add_mul, Nat.add_sub_cancel' hmod.le]
      have hexp : N % n * (N / n + 1) = N % n * (N / n) + N % n := by ring
      omega
    have hq : 0 < N / n := Nat.pos_of_ne_zero fun h0 => by rw [h0, Nat.mul_zero] at htail; omega
    have hk : k / (N / n) < n - N % n := Nat.div_lt_of_lt_mul (by rw [Nat.mul_comm]; exact htail)
    rw [Nat.add_assoc (N % n), start_of_mod_le (Nat.le_add_right _ _),
      start_of_mod_le (Nat.le_add_right _ _), Nat.add_sub_cancel_left, Nat.add_sub_cancel_left]
    refine ⟨Nat.add_lt_of_lt_sub' hk, Nat.add_le_add_left (Nat.div_mul_le_self k _) _,
      Nat.add_lt_add_left ?_ _⟩
    exact Nat.lt_mul_of_div_lt (Nat.lt_succ_self _) hq

/-- **No block is in two parts.** -/
theorem owner_unique (hn : 0 < n) (hin : i < n) (hlo : start N n i ≤ b)
    (hhi : b < start N n (i + 1)) : i = owner N n b := by
  have hb : b < N := by
    rw [← start_self N hn]
    exact hhi.trans_le (start_mono N n hin)
  obtain ⟨-, hlo', hhi'⟩ := owner_spec hn hb
  rcases Nat.lt_trichotomy i (owner N n b) with h | h | h
  · have := start_mono N n (Nat.succ_le_of_lt h)
    simp only [Nat.succ_eq_add_one] at this
    omega
  · exact h
  · have := start_mono N n (Nat.succ_le_of_lt h)
    simp only [Nat.succ_eq_add_one] at this
    omega

/-- Block `j` of part `i` is block `start N n i + j` of the whole. -/
theorem owner_start_add (hn : 0 < n) {j : ℕ} (hin : i < n) (hj : j < share N n i) :
    owner N n (start N n i + j) = i :=
  (owner_unique hn hin (Nat.le_add_right _ _) (by rw [start_succ]; omega)).symm

theorem start_add_lt (hn : 0 < n) {j : ℕ} (hin : i < n) (hj : j < share N n i) :
    start N n i + j < N := by
  have h := start_mono N n hin
  rw [Nat.succ_eq_add_one, start_succ, start_self N hn] at h
  omega

/-- What the parts hold, one part after the other, is what the blocks hold, one block after the other. -/
theorem flatMap_parts {β : Type*} (hn : 0 < n) (f : ℕ → List β) :
    ((List.range n).flatMap fun i => (List.range (share N n i)).flatMap fun j => f (start N n i + j)) =
      (List.range N).flatMap f := by
  have hfirst : ∀ m, ((List.range m).flatMap fun i =>
      (List.range (share N n i)).flatMap fun j => f (start N n i + j)) =
      (List.range (start N n m)).flatMap f := by
    intro m
    induction m with
    | zero => simp
    | succ m ih =>
      rw [List.range_succ, List.flatMap_append, ih, start_succ, List.range_add, List.flatMap_append,
        List.flatMap_singleton, List.flatMap_map]
  rw [hfirst, start_self N hn]

/-! ### The arrays of a collective -/

/-- The arrays give the `n` ranks consecutive segments of `N` elements of `width` bytes: the displacements are the
prefix sums of the counts, every byte is in exactly one segment and no segment goes further, the shares differ by
one element at most, and the segment of element `b` is that of its owner. -/
structure IsSplit (n N width : ℕ) (l : Layout) : Prop where
  lengths : l.counts.length = n ∧ l.displs.length = n
  prefixSums : ∀ i < n, entry l.displs i = prefixSum (entry l.counts) i
  inside : ∀ i < n, entry l.displs i + entry l.counts i ≤ N * width
  covers : ∀ k < N * width, ∃! i, i < n ∧ entry l.displs i ≤ k ∧ k < entry l.displs i + entry l.counts i
  balanced : ∀ i < n, ∀ j < n, entry l.counts i / width ≤ entry l.counts j / width + 1
  owners : ∀ b < N, ∀ i < n, (entry l.displs i ≤ b * width ∧
    (b + 1) * width ≤ entry l.displs i + entry l.counts i) ↔ i = owner N n b

/-- **The loop that fills the arrays with the shares.** -/
theorem isSplit_fillLayout {width : ℕ} (hn : 0 < n) (hw : 0 < width) (N : ℕ) :
    IsSplit n N width (fillLayout (fun i => share N n i * width) n) := by
  have hcount : ∀ i < n, entry (fillLayout (fun i => share N n i * width) n).counts i = share N n i * width :=
    fun i hi => entry_counts hi
  have hdispl : ∀ i < n, entry (fillLayout (fun i => share N n i * width) n).displs i = start N n i * width := by
    intro i hi
    rw [entry_displs hi, prefixSum_share]
  have hend : ∀ i, start N n i * width + share N n i * width = start N n (i + 1) * width := by
    intro i
    rw [start_succ, Nat.add_mul]
  constructor
  case lengths => exact fillLayout_length _ n
  case prefixSums =>
    intro i hi
    rw [hdispl i hi, ← prefixSum_share, ← prefixSum_mul]
    exact prefixSum_congr fun j hj => (hcount j (hj.trans hi)).symm
  case inside =>
    intro i hi
    have hle := start_mono N n (Nat.succ_le_of_lt hi)
    rw [Nat.succ_eq_add_one, start_self N hn] at hle
    rw [hcount i hi, hdispl i hi, hend]
    exact Nat.mul_le_mul_right width hle
  case covers =>
    intro k hk
    have hkN : k / width < N := Nat.div_lt_of_lt_mul (by rwa [Nat.mul_comm])
    obtain ⟨hr, hlo, hhi⟩ := owner_spec hn hkN
    refine ⟨owner N n (k / width), ⟨hr, ?_⟩, ?_⟩
    · rw [hcount _ hr, hdispl _ hr, hend]
      exact ⟨(Nat.le_div_iff_mul_le hw).mp hlo, (Nat.div_lt_iff_lt_mul hw).mp hhi⟩
    · rintro i ⟨hi, hfrom, hto⟩
      rw [hdispl i hi] at hfrom hto
      rw [hcount i hi, hend] at hto
      exact owner_unique hn hi ((Nat.le_div_iff_mul_le hw).mpr hfrom) ((Nat.div_lt_iff_lt_mul hw).mpr hto)
  case balanced =>
    intro i hi j hj
    rw [hcount i hi, hcount j hj, Nat.mul_div_cancel _ hw, Nat.mul_div_cancel _ hw, share, share]
    split <;> split <;> omega
  case owners =>
    intro b hb i hi
    rw [hcount i hi, hdispl i hi, hend, Nat.mul_le_mul_right_iff hw, Nat.mul_le_mul_right_iff hw]
    constructor
    · rintro ⟨hlo, hhi⟩
      exact owner_unique hn hi hlo hhi
    · rintro rfl
      exact (owner_spec hn hb).2

/-- The next block has the same owner or the next one. -/
theorem owner_succ (hb : b + 1 < N) :
    owner N n (b + 1) = owner N n b ∨ owner N n (b + 1) = owner N n b + 1 := by
  rcases Nat.eq_zero_or_pos n with rfl | hn
  · simp only [owner, Nat.div_zero, Nat.mod_zero, Nat.zero_add, Nat.mul_one, Nat.div_one, if_pos hb,
      if_pos (Nat.lt_of_succ_lt hb), or_true]
  obtain ⟨hr, hlo, hhi⟩ := owner_spec hn (Nat.lt_of_succ_lt hb)
  generalize owner N n b = r at hr hlo hhi
  rcases Nat.lt_or_ge (b + 1) (start N n (r + 1)) with hsame | hnext
  · exact Or.inl (owner_unique hn hr (Nat.le_succ_of_le hlo) hsame).symm
  · -- the next part begins here, and it is not empty
    have hstart : start N n (r + 1) = b + 1 := by omega
    have hr1 : r + 1 < n := by
      by_contra hlast
      obtain rfl : r + 1 = n := by omega
      rw [start_self N hn] at hstart
      omega
    have hshare : 0 < share N n (r + 1) := by
      by_contra hzero
      rw [share] at hzero
      have hq : N / n = 0 := Nat.eq_zero_of_not_pos fun hpos => hzero (Nat.add_pos_left hpos _)
      have hge : N % n ≤ r + 1 := by
        by_contra hlt
        rw [if_pos (Nat.lt_of_not_le hlt)] at hzero
        exact hzero (Nat.succ_pos _)
      rw [start, hq, Nat.mul_zero, Nat.zero_add, Nat.min_eq_right hge,
        Nat.mod_eq_of_lt ((Nat.div_eq_zero_iff_lt hn).mp hq)] at hstart
      omega
    refine Or.inr (owner_unique hn hr1 hstart.le ?_).symm
    rw [start_succ, hstart]
    omega

/-! ### Two numbers of blocks -/

theorem owner_zero (hn : 0 < n) (hN : 0 < N) : owner N n 0 = 0 := by
  have hfirst : 0 < start N n (0 + 1) := by
    rw [start_succ, start_zero, Nat.zero_add, share]
    by_cases hq : N / n = 0
    · rw [Nat.mod_eq_of_lt ((Nat.div_eq_zero_iff_lt hn).mp hq), if_pos hN]
      exact Nat.succ_pos _
    · exact Nat.add_pos_left (Nat.pos_of_ne_zero hq) _
  exact (owner_unique hn hn (start_zero N n).le hfirst).symm

/-- Where every part has at most one block. -/
theorem owner_of_le (hN : N ≤ n) (hb : b < N) : owner N n b = b := by
  have hstart : ∀ i ≤ N, start N n i = i := by
    intro i hi
    rcases Nat.lt_or_eq_of_le hN with hlt | rfl
    · rw [start, Nat.div_eq_of_lt hlt, Nat.mod_eq_of_lt hlt, Nat.mul_zero, Nat.zero_add, Nat.min_eq_left hi]
    · rw [start, Nat.div_self (by omega), Nat.mod_self, Nat.mul_one, Nat.min_zero, Nat.add_zero]
  have hn : 0 < n := by omega
  refine (owner_unique hn (hb.trans_le hN) ?_ ?_).symm
  · rw [hstart b hb.le]
  · rw [hstart (b + 1) hb]
    exact Nat.lt_succ_self b

theorem share_mono {M : ℕ} (h : M ≤ N) (n i : ℕ) : share M n i ≤ share N n i := by
  have hdiv := Nat.div_le_div_right (c := n) h
  rcases Nat.lt_or_eq_of_le hdiv with hlt | heq
  · rw [share, share]
    split <;> split <;> omega
  · have hM := Nat.div_add_mod M n
    have hN := Nat.div_add_mod N n
    rw [heq] at hM
    rw [share, share, heq]
    split <;> split <;> omega

theorem start_mono_left {M : ℕ} (h : M ≤ N) (n i : ℕ) : start M n i ≤ start N n i := by
  induction i with
  | zero => rw [start_zero, start_zero]
  | succ i ih =>
    rw [start_succ, start_succ]
    exact Nat.add_le_add ih (share_mono h n i)

/-- A part that has a block begins at the same one, when the blocks have the same owners. -/
theorem start_eq_of_agree {M : ℕ} (hn : 0 < n) (hMN : M ≤ N)
    (h : ∀ b < M, owner M n b = owner N n b) (hin : i < n) (hi : 0 < share M n i) :
    start M n i = start N n i := by
  have hlt := start_add_lt hn hin hi
  have hsame := h _ hlt
  rw [owner_start_add hn hin hi] at hsame
  have hlo := (owner_spec hn (hlt.trans_le hMN)).2.1
  rw [← hsame] at hlo
  exact le_antisymm (start_mono_left hMN n i) hlo

/-- The last part has none of the remainder. -/
theorem start_last (N : ℕ) (hn : 0 < n) : start N n (n - 1) + N / n = N := by
  have hmod := Nat.mod_lt N hn
  have hlast := start_succ N n (n - 1)
  rw [Nat.sub_add_cancel hn, start_self N hn, share, if_neg (by omega), Nat.add_zero] at hlast
  exact hlast.symm

/-- So the smaller number gives every part a block, if the larger one gives some part two. -/
theorem le_of_agree {M : ℕ} (hn : 0 < n) (hM : 1 < M) (hMN : M ≤ N) (hnN : n < N)
    (h : ∀ b < M, owner M n b = owner N n b) : n ≤ M := by
  by_contra hlt
  have hlt : M < n := Nat.lt_of_not_le hlt
  have hshare : share M n (M - 1) = 1 := by
    rw [share, Nat.div_eq_of_lt hlt, Nat.mod_eq_of_lt hlt, if_pos (by omega)]
  have hstart := start_eq_of_agree hn hMN h (by omega : M - 1 < n) (by rw [hshare]; exact Nat.one_pos)
  rw [start, start, Nat.div_eq_of_lt hlt, Nat.mod_eq_of_lt hlt, Nat.mul_zero, Nat.zero_add,
    Nat.min_eq_left (Nat.sub_le M 1)] at hstart
  -- the last of these parts begins later for the larger number
  have hdiv := Nat.div_add_mod N n
  have hq : 0 < N / n := Nat.div_pos hnN.le hn
  by_cases hq1 : N / n = 1
  · rw [hq1, Nat.mul_one] at hdiv hstart
    omega
  · have hmul : (M - 1) * 2 ≤ (M - 1) * (N / n) := Nat.mul_le_mul_left _ (by omega)
    omega

/-- One block less than full parts is taken from the last part. -/
theorem start_eq_of_full {M : ℕ} (hn : 0 < n) (hdvd : n ∣ N) (hone : M + 1 = N) (hin : i < n) :
    start M n i = start N n i := by
  obtain ⟨k, rfl⟩ := hdvd
  obtain ⟨m, rfl⟩ : ∃ m, k = m + 1 := by
    cases k with
    | zero => omega
    | succ m => exact ⟨m, rfl⟩
  have hparts : M / n = m ∧ M % n = n - 1 := by
    rw [Nat.div_mod_unique hn, Nat.mul_succ] at *
    omega
  rw [start_of_le_mod (by omega : i ≤ M % n), hparts.1, start, Nat.mul_div_cancel_left _ hn,
    Nat.mul_mod_right, Nat.min_zero]
  rfl

/-- **Two splits agree** on the blocks of the smaller one when there is one part or one block, when the numbers
are equal, when no part gets two blocks, and when all parts are full and one block is missing. -/
theorem owners_agree_iff {M : ℕ} (hn : 0 < n) (hM : 0 < M) (hMN : M ≤ N) :
    (∀ b < M, owner M n b = owner N n b) ↔
      n = 1 ∨ M = 1 ∨ M = N ∨ N ≤ n ∨ (n ∣ N ∧ M + 1 = N) := by
  constructor
  · intro h
    by_contra hnot
    simp only [not_or] at hnot
    obtain ⟨hn1, hM1, hne, hnN, hfull⟩ := hnot
    have hnM : n ≤ M := le_of_agree hn (by omega) hMN (by omega) h
    have hq : 0 < M / n := Nat.div_pos hnM hn
    -- all parts but the last have the same blocks
    have hlast := start_eq_of_agree hn hMN h (by omega : n - 1 < n) (Nat.add_pos_left hq _)
    have hM' := start_last M hn
    have hN' := start_last N hn
    have hMmod := Nat.div_add_mod M n
    have hNmod := Nat.div_add_mod N n
    have hMlt := Nat.mod_lt M hn
    have hdiv := Nat.div_le_div_right (c := n) hMN
    obtain ⟨k, hk⟩ := Nat.exists_eq_add_of_le hdiv
    have hmul : n * (N / n) = n * (M / n) + n * k := by rw [hk, Nat.mul_add]
    rcases k with _ | k
    · omega
    have htwo : 2 * k ≤ n * k := Nat.mul_le_mul_right k (by omega)
    rw [Nat.mul_succ] at hmul
    have hzero : N % n = 0 := by omega
    exact hfull ⟨Nat.dvd_of_mod_eq_zero hzero, by omega⟩
  · intro h b hb
    have hbN : b < N := hb.trans_le hMN
    rcases h with rfl | rfl | rfl | hnN | ⟨hdvd, hone⟩
    · have hM' := (owner_spec Nat.one_pos hb).1
      have hN' := (owner_spec Nat.one_pos hbN).1
      omega
    · obtain rfl : b = 0 := by omega
      rw [owner_zero hn Nat.one_pos, owner_zero hn hbN]
    · rfl
    · rw [owner_of_le (hMN.trans hnN) hb, owner_of_le hnN hbN]
    · -- the parts begin at the same blocks
      obtain ⟨hlt, hlo, hhi⟩ := owner_spec hn hbN
      refine (owner_unique hn hlt ((start_mono_left hMN n _).trans hlo) ?_).symm
      rcases Nat.lt_or_eq_of_le (Nat.succ_le_of_lt hlt) with hnext | hlast
      · rwa [start_eq_of_full hn hdvd hone hnext]
      · rwa [← Nat.succ_eq_add_one, hlast, start_self M hn]

end DagonFs.Lib.BlockSplit
