import DagonFs.Blocks.LostBlocks
import DagonFs.ClientServer.BlockWrites
import DagonFs.PeerToPeer.BlockWrites

/-!
# Lost blocks in both programs

The block lists that a read goes by are the master's, or those of the peer that reads.  `noneLost_iff`: in both
programs, when every block that is allocated is in exactly one place.
-/

namespace DagonFs.DataPath

open DagonFs.Lib.Collective DagonFs.Lib.BlockSplit DagonFs.Lib.Runs

variable {L : Launch}

/-- No peer has a block yet. -/
structure PeersUnwritten (peers : ℕ → PeerToPeer.Peer) : Prop where
  lists : ∀ rank x, (peers rank).blockList x = []
  heaps : ∀ rank, (peers rank).heap = []

/-- **When no block is lost**, in either program, after any sequence of completed writes: when every inode has been
written at most once with a block. -/
theorem noneLost_iff (L : Launch) :
    (∀ process writes s, run (systemStep L) (System.mounted process) writes = some s →
      (NoneLost L (storeOf s) ↔ WrittenOnce L writes)) ∧
    ∀ peers writes peers', PeersUnwritten peers → (∀ w ∈ writes, w.sourceRank < L.mpiWorldSize) →
      run (PeerToPeer.Write.step L) peers writes = some peers' → ∀ t < L.mpiWorldSize,
        (NoneLost L (storeAt t peers') ↔ WrittenOnce L (writes.map blockWrite)) := by
  constructor
  · intro process writes s hrun
    have hempty : Unwritten (storeOf (System.mounted process)) := ⟨fun _ => rfl, fun _ => rfl⟩
    exact (noneLost_run hempty (storeOf_run hrun)).2
  · intro peers writes peers' hunwritten hsource hrun t ht
    have hempty : Unwritten (storeAt t peers) := ⟨hunwritten.lists t, hunwritten.heaps⟩
    exact (noneLost_run hempty (storeAt_run ht hsource hrun)).2

/-- Two processes have two files of two blocks, one of them emptied afterwards: no block is lost. -/
theorem noneLost_iff_twoFiles :
    let L : Launch := ⟨2, 4, by decide, by decide⟩
    let peers := fun _ : ℕ => (⟨⟨List.replicate 3 (Nodes.createEmptyINode .regularFile), []⟩,
      Blocks.new, []⟩ : PeerToPeer.Peer)
    (∃ s, run (systemStep L) (System.mounted ⟨0, 0⟩) [⟨1, [1, 2, 3, 4, 5, 6, 7, 8], 8⟩,
        ⟨2, [1, 2, 3, 4, 5, 6, 7, 8], 8⟩, ⟨1, [], 0⟩] = some s ∧ NoneLost L (storeOf s)) ∧
      ∃ peers', run (PeerToPeer.Write.step L) peers [⟨0, 1, [1, 2, 3, 4, 5, 6, 7, 8], 8⟩,
        ⟨1, 2, [1, 2, 3, 4, 5, 6, 7, 8], 8⟩, ⟨0, 1, [], 0⟩] = some peers' ∧
          NoneLost L (storeAt 1 peers') := by
  intro L peers
  have honce : WrittenOnce L ((([] ++ [⟨1, [1, 2, 3, 4, 5, 6, 7, 8], 8⟩]) ++
      [⟨2, [1, 2, 3, 4, 5, 6, 7, 8], 8⟩]) ++ [⟨1, [], 0⟩]) := by
    refine writtenOnce_snoc.mpr ⟨writtenOnce_snoc.mpr ⟨writtenOnce_snoc.mpr ⟨?_, ?_⟩, ?_⟩, ?_⟩
    · exact fun x => Nat.zero_le 1
    · exact Or.inr rfl
    · exact Or.inr rfl
    · exact Or.inl (by decide)
  constructor
  · have hdefined : (run (systemStep L) (System.mounted ⟨0, 0⟩) [⟨1, [1, 2, 3, 4, 5, 6, 7, 8], 8⟩,
        ⟨2, [1, 2, 3, 4, 5, 6, 7, 8], 8⟩, ⟨1, [], 0⟩]).isSome = true := by decide +kernel
    obtain ⟨s, hrun⟩ := Option.isSome_iff_exists.mp hdefined
    exact ⟨s, hrun, ((noneLost_iff L).1 _ _ s hrun).mpr honce⟩
  · have hdefined : (run (PeerToPeer.Write.step L) peers [⟨0, 1, [1, 2, 3, 4, 5, 6, 7, 8], 8⟩,
        ⟨1, 2, [1, 2, 3, 4, 5, 6, 7, 8], 8⟩, ⟨0, 1, [], 0⟩]).isSome = true := by decide +kernel
    obtain ⟨peers', hrun⟩ := Option.isSome_iff_exists.mp hdefined
    have hsource : ∀ w ∈ ([⟨0, 1, [1, 2, 3, 4, 5, 6, 7, 8], 8⟩, ⟨1, 2, [1, 2, 3, 4, 5, 6, 7, 8], 8⟩,
        ⟨0, 1, [], 0⟩] : List PeerToPeer.Write), w.sourceRank < L.mpiWorldSize := by decide
    exact ⟨peers', hrun,
      ((noneLost_iff L).2 _ _ peers' ⟨fun _ _ => rfl, fun _ => rfl⟩ hsource hrun 1 (by decide)).mpr honce⟩

/-- **A file that is written again** loses its first block, on one process, in both programs. -/
theorem not_noneLost :
    (¬ ∀ (L : Launch) (process : Ids) (writes : List BlockWrite) (s : System),
      run (systemStep L) (System.mounted process) writes = some s → NoneLost L (storeOf s)) ∧
    ¬ ∀ (L : Launch) (peers : ℕ → PeerToPeer.Peer) (writes : List PeerToPeer.Write)
      (peers' : ℕ → PeerToPeer.Peer), PeersUnwritten peers →
        (∀ w ∈ writes, w.sourceRank < L.mpiWorldSize) →
          run (PeerToPeer.Write.step L) peers writes = some peers' →
            ∀ t < L.mpiWorldSize, NoneLost L (storeAt t peers') := by
  have htwice : ¬ WrittenOnce ⟨1, 4, by decide, by decide⟩ [⟨1, [1, 2, 3, 4], 4⟩, ⟨1, [5, 6, 7, 8], 4⟩] :=
    fun honce => absurd (honce 1) (by decide)
  constructor
  · intro h
    have hdefined : (run (systemStep ⟨1, 4, by decide, by decide⟩) (System.mounted ⟨0, 0⟩)
        [⟨1, [1, 2, 3, 4], 4⟩, ⟨1, [5, 6, 7, 8], 4⟩]).isSome = true := by decide +kernel
    obtain ⟨s, hrun⟩ := Option.isSome_iff_exists.mp hdefined
    have hempty : Unwritten (storeOf (System.mounted ⟨0, 0⟩)) := ⟨fun _ => rfl, fun _ => rfl⟩
    exact htwice ((noneLost_run hempty (storeOf_run hrun)).2.mp (h _ _ _ s hrun))
  · intro h
    have hdefined : (run (PeerToPeer.Write.step ⟨1, 4, by decide, by decide⟩)
        (fun _ => ⟨⟨List.replicate 2 (Nodes.createEmptyINode .regularFile), []⟩, Blocks.new, []⟩)
        [⟨0, 1, [1, 2, 3, 4], 4⟩, ⟨0, 1, [5, 6, 7, 8], 4⟩]).isSome = true := by decide +kernel
    obtain ⟨peers', hrun⟩ := Option.isSome_iff_exists.mp hdefined
    have hsource : ∀ w ∈ ([⟨0, 1, [1, 2, 3, 4], 4⟩, ⟨0, 1, [5, 6, 7, 8], 4⟩] : List PeerToPeer.Write),
        w.sourceRank < 1 := by decide
    have hempty : Unwritten (storeAt 0 fun _ =>
        ⟨⟨List.replicate 2 (Nodes.createEmptyINode .regularFile), []⟩, Blocks.new, []⟩) :=
      ⟨fun _ => rfl, fun _ => rfl⟩
    have hstore := storeAt_run (L := ⟨1, 4, by decide, by decide⟩) (t := 0) Nat.one_pos hsource hrun
    exact htwice ((noneLost_run hempty hstore).2.mp
      (h _ _ _ peers' ⟨fun _ _ => rfl, fun _ => rfl⟩ hsource hrun 0 Nat.one_pos))

end DagonFs.DataPath
