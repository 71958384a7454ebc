import DagonFs.Blocks.Growth
import DagonFs.ClientServer.PartialReads

/-!
# The ranks that the master records

`DataBlock::setRank` is called when a list grows, and never again: a write that moves a block to another process
leaves the rank of its entry as it was.

* `ranked_run`: the ranks in the lists, by the lengths at which the writes have found them.
* `recordsHolders_iff`: when they are the ranks that have the blocks.
-/

namespace DagonFs.DataPath

open DagonFs.Lib.BlockSplit DagonFs.Lib.Runs DagonFs.System

variable {L : Launch} {writes : List BlockWrite} {x : ℕ} {w : BlockWrite}

/-- A list gets as long as its longest write. -/
def listLengths (L : Launch) (writes : List BlockWrite) (x : ℕ) : List ℕ :=
  lengthsReached (List.foldl max 0) (blockCounts L writes x)

theorem foldl_max_snoc (counts : List ℕ) (c : ℕ) :
    (counts ++ [c]).foldl max 0 = max (counts.foldl max 0) c := by
  rw [List.foldl_append]
  rfl

/-- The list of an inode: its length, and the ranks that it records. -/
structure ListInv (L : Launch) (st : Store) (writes : List BlockWrite) (x : ℕ) : Prop where
  length : (st.blockList x).length = (blockCounts L writes x).foldl max 0
  ranked : Ranked L.mpiWorldSize (listLengths L writes x) (st.blockList x)

/-- The step lemma. -/
theorem ListInv.step {st st' : Store} (h : ListInv L st writes x) (hstep : st.step L w = some st') :
    ListInv L st' (writes ++ [w]) x := by
  have hstepped := Store.step_spec hstep
  by_cases hx : w.inode = x
  · subst hx
    have hlen : max (st.blockList w.inode).length (w.blocks L) =
        (blockCounts L writes w.inode ++ [w.blocks L]).foldl max 0 := by
      rw [foldl_max_snoc, h.length]
    have hle : ∀ g ∈ listLengths L writes w.inode, g ≤ (st.blockList w.inode).length := by
      intro g hg
      rw [h.length]
      refine le_of_mem_lengthsReached (fun counts c => ?_) hg
      rw [foldl_max_snoc]
      exact Nat.le_max_left _ _
    have hmem : (st.blockList w.inode).length ∈ listLengths L writes w.inode := by
      rw [h.length]
      exact length_mem_lengthsReached _ _
    constructor
    · rw [hstepped.list, recordAddresses_length, blockCounts_snoc, if_pos rfl, hlen]
    · rw [hstepped.list, listLengths, blockCounts_snoc, if_pos rfl]
      intro i block hblock
      have hi := (List.getElem?_eq_some_iff.mp hblock).1
      rw [recordAddresses_length, hlen] at hi
      rw [recordedRank_snoc hi]
      exact h.ranked.recordAddresses hmem hle _ _ i block hblock
  · have hother := hstepped.others x (Ne.symm hx)
    constructor
    · rw [hother, blockCounts_snoc, if_neg hx, h.length]
    · rw [hother, listLengths, blockCounts_snoc, if_neg hx]
      exact h.ranked

/-- **The run lemma**, from empty lists. -/
theorem listInv_run {st st' : Store} (hempty : st.blockList x = [])
    (hrun : run (Store.step L) st writes = some st') : ListInv L st' writes x := by
  refine history_run (I := fun writes st => ListInv L st writes x) ?_ ?_ hrun
  · constructor
    · rw [hempty]
      rfl
    · rw [hempty]
      intro i block hblock
      cases hblock
  · intro writes w st₁ st₂ h hstep
    exact h.step hstep

/-- The rank that entry `i` records is the one that has allocated its block. -/
def RecordsHolder (s : System) (x i : ℕ) : Prop := ∃ block address, (s.blockList x)[i]? = some block ∧
  block.getData = some address ∧ block.getRank = address.rank

/-- **When the recorded ranks are the holders.**  After any writes, for the blocks of the last write of a file: on
one process, or when the list of the file has grown at exactly the places between two blocks of one owner. -/
theorem recordsHolders_iff {process : Ids} {s : System}
    (hrun : run (systemStep L) (System.mounted process) writes = some s)
    (hlast : (writesTo writes x).getLast? = some w) : (∀ i < w.blocks L, RecordsHolder s x i) ↔
      L.mpiWorldSize = 1 ∨ ∀ i, i + 1 < w.blocks L → (i + 1 ∈ listLengths L writes x ↔
        owner (w.blocks L) L.mpiWorldSize (i + 1) = owner (w.blocks L) L.mpiWorldSize i) := by
  have hinv := listInv_run (x := x) rfl (storeOf_run hrun)
  have hwrite := hasWrite_run hrun hlast
  rw [← recordedRank_eq_owner_iff L.worldSize_pos]
  refine forall₂_congr fun i hi => ?_
  obtain ⟨block, hblock, index, hdata, -⟩ := hwrite.2 i hi
  have hrank : block.getRank = recordedRank L.mpiWorldSize (listLengths L writes x) i :=
    hinv.ranked i block hblock
  constructor
  · rintro ⟨block', address, hblock', hdata', hsame⟩
    obtain rfl := Option.some.inj (hblock.symm.trans hblock')
    obtain rfl := Option.some.inj (hdata.symm.trans hdata')
    rw [← hrank, hsame]
  · intro howner
    exact ⟨block, _, hblock, hdata, by rw [hrank, howner]⟩

/-- Two processes: a file of one block gets two more, and the first two are those of the first process. -/
theorem recordsHolders_iff_grown : ∃ s, run (systemStep ⟨2, 4, by decide, by decide⟩) (System.mounted ⟨0, 0⟩)
      [⟨2, [1, 2, 3, 4], 4⟩, ⟨2, [1, 2, 3, 4, 5, 6, 7, 8, 9, 0, 0, 0], 9⟩] = some s ∧
    ∀ i < 3, RecordsHolder s 2 i := by
  have hdefined : (run (systemStep ⟨2, 4, by decide, by decide⟩) (System.mounted ⟨0, 0⟩)
      [⟨2, [1, 2, 3, 4], 4⟩, ⟨2, [1, 2, 3, 4, 5, 6, 7, 8, 9, 0, 0, 0], 9⟩]).isSome = true := by
    decide +kernel
  obtain ⟨s, hrun⟩ := Option.isSome_iff_exists.mp hdefined
  refine ⟨s, hrun, (recordsHolders_iff (x := 2) hrun rfl).mpr (Or.inr fun i hi => ?_)⟩
  have hi : i + 1 < 3 := hi
  rcases i with _ | _ | i
  · decide
  · decide
  · omega

/-- **A rank that has not got the block.**  Two processes, a file of three blocks: the first process has two of
them, and the second is recorded for one of these. -/
theorem not_recordsHolders : ¬ ∀ (L : Launch) (process : Ids) (writes : List BlockWrite) (s : System) (x : ℕ)
    (w : BlockWrite), run (systemStep L) (System.mounted process) writes = some s →
      (writesTo writes x).getLast? = some w → ∀ i < w.blocks L, RecordsHolder s x i := by
  intro h
  have hfacts : (run (systemStep ⟨2, 4, by decide, by decide⟩) (System.mounted ⟨0, 0⟩)
      [⟨2, [1, 2, 3, 4, 5, 6, 7, 8, 9, 0, 0, 0], 9⟩]).map
        (fun s => ((s.blockList 2)[1]?).map fun block => (block.getData.map Address.rank, block.getRank)) =
          some (some (some 0, 1)) := by decide +kernel
  obtain ⟨s, hrun, hentry⟩ := Option.map_eq_some_iff.mp hfacts
  obtain ⟨block, address, hblock, hdata, hrank⟩ := h _ _ _ s 2 _ hrun rfl 1 (by decide)
  rw [hblock, Option.map_some, hdata, hrank, Option.map_some, Option.some.injEq, Prod.mk.injEq,
    Option.some.injEq] at hentry
  omega

end DagonFs.DataPath
