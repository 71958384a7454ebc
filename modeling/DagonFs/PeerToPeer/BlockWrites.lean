import DagonFs.Blocks.Store
import DagonFs.PeerToPeer.DistributedCode

/-!
# Sequences of distributed writes of the peers

`storeAt t` is what the block lists of peer `t` and the heaps make up; a write of the peers, from any source, is one
of every such store (`storeAt_step`), and so is a sequence of writes (`storeAt_run`).
-/

namespace DagonFs.DataPath

open DagonFs.Lib.Collective DagonFs.Lib.BlockSplit DagonFs.Lib.Runs

variable {L : Launch}

/-- The block lists of peer `t`, and the blocks of all peers. -/
def storeAt (t : ℕ) (peers : ℕ → PeerToPeer.Peer) : Store :=
  ⟨(peers t).blockList, fun rank => (peers rank).heap⟩

/-- A write, whatever its source. -/
def blockWrite (w : PeerToPeer.Write) : BlockWrite := ⟨w.inode, w.buffer, w.fileSize⟩

/-- What the end of `DAGonFS_Write` leaves of the blocks on one rank. -/
theorem finishWrite_blocks {sourceRank rank inode fileSize : ℕ} {p p' : PeerToPeer.Peer} {heap : Heap}
    {addresses : List (Option Address)}
    (h : PeerToPeer.DistributedCode.finishWrite L sourceRank rank p inode fileSize heap addresses = some p') :
    p'.heap = heap ∧ p'.blockList = Function.update p.blockList inode (recordAddresses L inode
      (numberOfBlocks L.blockSize fileSize) addresses (p.blockList inode)) := by
  have hlists : ∀ l, (p.blocksManager.setBlockListForInode inode l).getDataBlockListOfInode =
      Function.update p.blockList inode l := fun l =>
    update_blockList (Blocks.getDataBlockListOfInode_set ..)
      fun x hx => p.blocksManager.getDataBlockListOfInode_set_ne l hx
  unfold PeerToPeer.DistributedCode.finishWrite at h
  split at h
  · obtain rfl := Option.some.inj h
    exact ⟨rfl, hlists _⟩
  · obtain ⟨i, -, rfl⟩ := Option.map_eq_some_iff.mp h
    exact ⟨rfl, hlists _⟩

/-- **A write of the peers**, from any source, as every peer sees it. -/
theorem storeAt_step {peers peers' : ℕ → PeerToPeer.Peer} {w : PeerToPeer.Write} {t : ℕ}
    (ht : t < L.mpiWorldSize) (hsource : w.sourceRank < L.mpiWorldSize) (h : w.step L peers = some peers') :
    (storeAt t peers).step L (blockWrite w) = some (storeAt t peers') := by
  have hfit := PeerToPeer.le_of_dagonFS_Write hsource h
  generalize hN : numberOfBlocks L.blockSize w.fileSize = N at hfit
  obtain ⟨localScatBuf, all, hsegments, haddresses, hwrite⟩ :=
    PeerToPeer.dagonFS_Write_eq peers w.inode hN hsource hfit
  have hends : PeerToPeer.everyPeer L peers _ = some peers' := hwrite.symm.trans h
  have hblocks : ∀ rank < L.mpiWorldSize, _ := fun rank hr =>
    finishWrite_blocks (PeerToPeer.everyPeer_some hends hr)
  show (storeAt t peers).write L w.buffer w.inode w.fileSize = _
  unfold Store.write
  rw [hN, if_pos hfit]
  show some (Store.mk _ _) = some (Store.mk _ _)
  congr 2
  · rw [(hblocks t ht).2, hN, haddresses t ht, flatMap_stored]
    rfl
  · funext rank
    by_cases hr : rank < L.mpiWorldSize
    · show (peers rank).heap ++ _ = (peers' rank).heap
      rw [(hblocks rank hr).1]
      exact (storeBlocks_segment hr (hsegments rank hr) _).symm
    · show (peers rank).heap ++ _ = (peers' rank).heap
      rw [PeerToPeer.everyPeer_away hends hr, newBlocks, if_neg hr, List.append_nil]

theorem storeAt_run {peers peers' : ℕ → PeerToPeer.Peer} {writes : List PeerToPeer.Write} {t : ℕ}
    (ht : t < L.mpiWorldSize) (hsource : ∀ w ∈ writes, w.sourceRank < L.mpiWorldSize)
    (hrun : run (PeerToPeer.Write.step L) peers writes = some peers') :
    run (Store.step L) (storeAt t peers) (writes.map blockWrite) = some (storeAt t peers') := by
  apply run_map_of _ hsource hrun
  intro peers w peers' hw hstep
  exact storeAt_step ht hw hstep

end DagonFs.DataPath
