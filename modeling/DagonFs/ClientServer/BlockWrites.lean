import DagonFs.Blocks.Store
import DagonFs.ClientServer.Distributed

/-!
# Sequences of distributed writes in the client-server model

`storeOf` is what the master and the heaps make up; a write of the model is one of its store (`write_store`), and
so is a sequence of writes (`storeOf_run`).
-/

namespace DagonFs.DataPath

open DagonFs.Lib.Collective DagonFs.Lib.BlockSplit DagonFs.Lib.Runs

/-- What rank 0 and the heaps of the client-server model make up. -/
def storeOf (s : System) : Store := ⟨s.blockList, s.heaps⟩

/-- `DAGonFS_Write` on all ranks. -/
def systemStep (L : Launch) (s : System) (w : BlockWrite) : Option System :=
  s.dagonFS_Write L w.buffer w.inode w.fileSize

variable {L : Launch}

/-- **A write of the client-server model.** -/
theorem write_store (L : Launch) (s : System) (buffer : List UInt8) (inode fileSize : ℕ) :
    (s.dagonFS_Write L buffer inode fileSize).map storeOf =
      (storeOf s).write L buffer inode fileSize := by
  unfold Store.write
  generalize hN : numberOfBlocks L.blockSize fileSize = blocks
  by_cases hfit : blocks * L.blockSize ≤ buffer.length
  · obtain ⟨localScatBuf, hsegments, hwrite⟩ := System.dagonFS_Write_eq inode hN hfit (s := s)
    rw [hwrite, if_pos hfit]
    show some (Store.mk _ _) = some (Store.mk _ _)
    congr 2
    · refine update_blockList ?_ fun x hx => savePointers_ne _ _ _ _ hx
      show Blocks.getDataBlockListOfInode _ inode = _
      rw [savePointers_self, flatMap_stored]
      rfl
    · funext rank
      show (if _ then _ else _ : Heap) = s.heaps rank ++ _
      split
      · rename_i hr
        exact storeBlocks_segment hr (hsegments rank hr) _
      · rename_i hr
        rw [newBlocks, if_neg hr, List.append_nil]
  · rw [if_neg hfit]
    cases h : s.dagonFS_Write L buffer inode fileSize with
    | none => rfl
    | some s' => exact absurd (hN ▸ System.le_of_dagonFS_Write h) hfit

theorem storeOf_step {s s' : System} {w : BlockWrite} (h : systemStep L s w = some s') :
    (storeOf s).step L w = some (storeOf s') := by
  have hstore := write_store L s w.buffer w.inode w.fileSize
  have hwrite : s.dagonFS_Write L w.buffer w.inode w.fileSize = some s' := h
  rw [hwrite] at hstore
  exact hstore.symm

theorem storeOf_run {s s' : System} {writes : List BlockWrite}
    (hrun : run (systemStep L) s writes = some s') :
    run (Store.step L) (storeOf s) writes = some (storeOf s') := by
  have hmap := run_map (g := id) (fun s w s' => storeOf_step) hrun
  rwa [List.map_id] at hmap

end DagonFs.DataPath
