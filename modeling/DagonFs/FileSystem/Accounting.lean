import DagonFs.FileSystem.OtherFiles

/-!
# The counters of free blocks and free inodes

`drift` is what the four counters are off by from the table: 0 when the free blocks are the total less the
`st_blocks` of all slots, and the free inodes the total less the number of slots.

* `registerINode_drift`: a registration keeps the drift, also when it gives back the blocks of the inode
  whose number it reuses.
* `handle_drift`: no request on the namespace changes it.
-/

namespace DagonFs

open DagonFs.Nodes

/-- The blocks in use, by the inodes of all slots. -/
def Nodes.usedBlocks (ns : Nodes) : ℕ := (ns.iNodes.map fun i => i.attr.stBlocks).sum

/-- An operation on an inode that does not touch `st_blocks`. -/
def KeepsBlocks (f : INode → INode) : Prop := ∀ i, (f i).attr.stBlocks = i.attr.stBlocks

/-- By how much each counter is off. -/
structure Drift where
  bfree : BitVec 64
  bavail : BitVec 64
  ffree : BitVec 64
  favail : BitVec 64
  deriving DecidableEq

namespace FileSystem

/-- The counters are what the table says, on unsigned 64-bit integers. -/
structure Exact (fs : FileSystem) : Prop where
  bfree : fs.mStbuf.fBfree = fs.mStbuf.fBlocks - BitVec.ofNat 64 fs.iNodeManager.usedBlocks
  bavail : fs.mStbuf.fBavail = fs.mStbuf.fBlocks - BitVec.ofNat 64 fs.iNodeManager.usedBlocks
  ffree : fs.mStbuf.fFfree = fs.mStbuf.fFiles - BitVec.ofNat 64 fs.iNodeManager.getNumberOfINodes
  favail : fs.mStbuf.fFavail = fs.mStbuf.fFiles - BitVec.ofNat 64 fs.iNodeManager.getNumberOfINodes

def drift (fs : FileSystem) : Drift where
  bfree := fs.mStbuf.fBfree + BitVec.ofNat 64 fs.iNodeManager.usedBlocks - fs.mStbuf.fBlocks
  bavail := fs.mStbuf.fBavail + BitVec.ofNat 64 fs.iNodeManager.usedBlocks - fs.mStbuf.fBlocks
  ffree := fs.mStbuf.fFfree + BitVec.ofNat 64 fs.iNodeManager.getNumberOfINodes - fs.mStbuf.fFiles
  favail := fs.mStbuf.fFavail + BitVec.ofNat 64 fs.iNodeManager.getNumberOfINodes - fs.mStbuf.fFiles

theorem exact_iff_drift {fs : FileSystem} : fs.Exact ↔ fs.drift = ⟨0, 0, 0, 0⟩ := by
  have hzero : ∀ free total used : BitVec 64, free = total - used ↔ free + used - total = 0 := by
    intro free total used
    constructor <;> intro h <;> bv_omega
  constructor
  · intro h
    simp only [drift, Drift.mk.injEq]
    exact ⟨(hzero _ _ _).mp h.bfree, (hzero _ _ _).mp h.bavail, (hzero _ _ _).mp h.ffree,
      (hzero _ _ _).mp h.favail⟩
  · intro h
    simp only [drift, Drift.mk.injEq] at h
    obtain ⟨hbfree, hbavail, hffree, hfavail⟩ := h
    exact ⟨(hzero _ _ _).mpr hbfree, (hzero _ _ _).mpr hbavail, (hzero _ _ _).mpr hffree,
      (hzero _ _ _).mpr hfavail⟩

end FileSystem

/-! ### Blocks of a table -/

theorem sum_map_modify {α : Type} (g : α → ℕ) (f : α → α) {l : List α} {y : ℕ} {a : α}
    (h : l[y]? = some a) : ((l.modify y f).map g).sum + g a = (l.map g).sum + g (f a) := by
  induction l generalizing y with
  | nil => cases h
  | cons b l ih =>
    cases y with
    | zero =>
      obtain rfl := Option.some.inj h
      show g (f b) + (l.map g).sum + g b = g b + (l.map g).sum + g (f b)
      omega
    | succ y =>
      have hrest := ih (y := y) h
      show g b + ((l.modify y f).map g).sum + g a = g b + (l.map g).sum + g (f a)
      omega

namespace Nodes

variable {ns : Nodes} {y : ℕ} {i : INode}

theorem usedBlocks_modifyINode (f : INode → INode) (h : ns.iNodes[y]? = some i) :
    (ns.modifyINode y f).usedBlocks + i.attr.stBlocks = ns.usedBlocks + (f i).attr.stBlocks :=
  sum_map_modify (fun i => i.attr.stBlocks) f h

theorem usedBlocks_keeps {f : INode → INode} (hf : KeepsBlocks f) (ns : Nodes) (y : ℕ) :
    (ns.modifyINode y f).usedBlocks = ns.usedBlocks := by
  cases h : ns.iNodes[y]? with
  | none =>
    have hlen := List.getElem?_eq_none_iff.mp h
    have hmodify : ns.iNodes.modify y f = ns.iNodes := List.modify_eq_self hlen
    rw [usedBlocks, modifyINode, hmodify]
    rfl
  | some i =>
    have hchange := usedBlocks_modifyINode f h
    rw [hf i] at hchange
    omega

theorem usedBlocks_setINodeAt (i' : INode) (h : ns.iNodes[y]? = some i) :
    (ns.setINodeAt y i').usedBlocks + i.attr.stBlocks = ns.usedBlocks + i'.attr.stBlocks := by
  rw [setINodeAt, List.set_eq_modify]
  exact usedBlocks_modifyINode (fun _ => i') h

theorem usedBlocks_addINode (ns : Nodes) (i : INode) :
    (ns.addINode i).1.usedBlocks = ns.usedBlocks + i.attr.stBlocks := by
  simp [addINode, usedBlocks]

end Nodes

/-! ### What keeps the drift -/

namespace FileSystem

variable {fs fs' : FileSystem}

/-- The drift depends on the counters, the blocks in use and the number of slots. -/
theorem drift_congr (hstbuf : fs'.mStbuf = fs.mStbuf)
    (hblocks : fs'.iNodeManager.usedBlocks = fs.iNodeManager.usedBlocks)
    (hlength : fs'.iNodeManager.iNodes.length = fs.iNodeManager.iNodes.length) :
    fs'.drift = fs.drift := by
  simp only [drift, hstbuf, hblocks, getNumberOfINodes, hlength]

theorem drift_modifyINode {f : INode → INode} (hf : KeepsBlocks f) (fs : FileSystem) (y : ℕ) :
    (fs.setNodes (fs.iNodeManager.modifyINode y f)).drift = fs.drift :=
  drift_congr rfl (usedBlocks_keeps hf _ y) (modifyINode_length ..)

/-- A change of the blocks in use that is counted. -/
theorem drift_updateUsedBlocks {ns : Nodes} {added : ℤ}
    (hblocks : (ns.usedBlocks : ℤ) = fs.iNodeManager.usedBlocks + added)
    (hlength : ns.iNodes.length = fs.iNodeManager.iNodes.length) :
    ((fs.setNodes ns).updateUsedBlocks added).drift = fs.drift := by
  have hused : BitVec.ofNat 64 ns.usedBlocks =
      BitVec.ofNat 64 fs.iNodeManager.usedBlocks + BitVec.ofInt 64 added := by
    rw [← BitVec.ofInt_natCast, ← BitVec.ofInt_natCast, hblocks, BitVec.ofInt_add]
  have hcancel : ∀ free added used total : BitVec 64,
      free - added + (used + added) - total = free + used - total := by
    intro free added used total
    bv_omega
  simp only [drift, updateUsedBlocks, setNodes, hused, hcancel, getNumberOfINodes, hlength]

/-- A slot more that is counted. -/
theorem drift_updateUsedINodes {ns : Nodes} (hblocks : ns.usedBlocks = fs.iNodeManager.usedBlocks)
    (hlength : ns.iNodes.length = fs.iNodeManager.iNodes.length + 1) :
    ((fs.setNodes ns).updateUsedINodes 1).drift = fs.drift := by
  have hcount : BitVec.ofNat 64 ns.iNodes.length =
      BitVec.ofNat 64 fs.iNodeManager.iNodes.length + 1 := by
    rw [hlength, BitVec.ofNat_add]
    rfl
  have hcancel : ∀ free count total : BitVec 64,
      free - BitVec.ofInt 64 1 + (count + 1) - total = free + count - total := by
    intro free count total
    have hone : BitVec.ofInt 64 1 = 1 := rfl
    rw [hone]
    bv_omega
  simp only [drift, updateUsedINodes, setNodes, hblocks, getNumberOfINodes, hcount, hcancel]

theorem createEmptyINode_stBlocks (type : INodeType) : (createEmptyINode type).attr.stBlocks = 0 := rfl

/-- `InitializeINode` on an inode without blocks. -/
theorem initINode_drift {ino : ℕ} {i : INode} (hget : fs.iNodeManager.iNodes[ino]? = some i)
    (hblocks : i.attr.stBlocks = 0) (mode nlink gid uid : ℕ) :
    (fs.initINode ino mode nlink gid uid).1.drift = fs.drift := by
  have hchange := usedBlocks_modifyINode (initializeINode · ino mode nlink gid uid) hget
  refine drift_congr rfl ?_ (modifyINode_length ..)
  rw [hblocks] at hchange
  exact hchange

/-- **A registration** counts its new slot, or gives back the blocks of the inode that it replaces. -/
theorem registerINode_drift {type : INodeType} {mode nlink gid uid ino : ℕ}
    (hres : fs.registerINode type mode nlink gid uid = some (fs', ino)) : fs'.drift = fs.drift := by
  have hstop : fs.stopReclaiming.drift = fs.drift := by
    unfold stopReclaiming
    split <;> rfl
  rw [← hstop]
  simp only [registerINode] at hres
  generalize fs.stopReclaiming = fs₁ at hres ⊢
  split at hres
  · obtain ⟨⟨x, ns⟩, hqueue, hres⟩ := Option.bind_eq_some_iff.mp hres
    obtain ⟨del, hdel, hend⟩ := Option.map_eq_some_iff.mp hres
    have hnodes : ns.iNodes = fs₁.iNodeManager.iNodes := by
      unfold reclaimINode at hqueue
      split at hqueue
      · cases hqueue
      · rw [← (Prod.mk.inj (Option.some.inj hqueue)).2]
    have hdel : ns.iNodes[x]? = some del := hdel
    have hset := usedBlocks_setINodeAt (createEmptyINode type) hdel
    rw [createEmptyINode_stBlocks] at hset
    have hused : ns.usedBlocks = fs₁.iNodeManager.usedBlocks := by rw [usedBlocks, hnodes, usedBlocks]
    have hgives : ((ns.setINodeAt x (createEmptyINode type)).usedBlocks : ℤ) =
        fs₁.iNodeManager.usedBlocks + -(del.attr.stBlocks : ℤ) := by omega
    have hlength : (ns.setINodeAt x (createEmptyINode type)).iNodes.length =
        fs₁.iNodeManager.iNodes.length := by rw [setINodeAt, List.length_set, hnodes]
    have hget : (ns.setINodeAt x (createEmptyINode type)).iNodes[x]? = some (createEmptyINode type) :=
      List.getElem?_set_self (List.getElem?_eq_some_iff.mp hdel).1
    obtain rfl : _ = fs' := (Prod.mk.inj hend).1
    have hinit := @initINode_drift ((fs₁.setNodes (ns.setINodeAt x
      (createEmptyINode type))).updateUsedBlocks (-(del.attr.stBlocks : ℤ))) _ _ hget
      (createEmptyINode_stBlocks type) mode nlink gid uid
    exact hinit.trans (drift_updateUsedBlocks hgives hlength)
  · obtain rfl : _ = fs' := (Prod.mk.inj (Option.some.inj hres)).1
    have hget : (fs₁.iNodeManager.addINode (createEmptyINode type)).1.iNodes[
        fs₁.iNodeManager.iNodes.length]? = some (createEmptyINode type) := by
      rw [addINode, List.getElem?_concat_length]
    have hused := usedBlocks_addINode fs₁.iNodeManager (createEmptyINode type)
    have hlength : (fs₁.iNodeManager.addINode (createEmptyINode type)).1.iNodes.length =
        fs₁.iNodeManager.iNodes.length + 1 := by rw [addINode, List.length_append]; rfl
    have hinit := @initINode_drift ((fs₁.setNodes (fs₁.iNodeManager.addINode
      (createEmptyINode type)).1).updateUsedINodes 1) _ _ hget (createEmptyINode_stBlocks type) mode nlink
      gid uid
    exact hinit.trans (drift_updateUsedINodes hused hlength)

/-! ### Requests on the namespace -/

theorem stable_drift (d : Drift) : Stable fun fs => fs.drift = d where
  modifyINode := fun hf h y => (drift_modifyINode (fun i => (hf i).1) _ y).trans h
  queue := fun h _ _ => h
  blockList := fun h _ => h

/-- **No request on the namespace changes the drift.**  The inode whose size a creation clears has no
blocks. -/
theorem handle_drift (fs : FileSystem) (r : Request) :
    Ensures (fun fs' => fs'.drift = fs.drift) (fs.handle r) := by
  refine handle_ensures (stable_drift _) rfl r ?_ ?_
  · intro _ fs₁ fs₂ type mode nlink gid uid ino _ h hres
    exact (registerINode_drift hres).trans h
  · intro _ fs₁ i hget hzero h
    have hchange := usedBlocks_modifyINode clearSize hget
    rw [hzero] at hchange
    have hcleared : (fs₁.setNodes (fs₁.iNodeManager.modifyINode fs.nextINode clearSize)).drift =
        fs₁.drift := drift_congr rfl hchange (modifyINode_length ..)
    exact hcleared.trans h

/-- The counters of the mounted file system. -/
theorem mounted_exact (process : Ids) : (mounted process).Exact := by
  have hblocks : BitVec.allOnes 64 = BitVec.allOnes 64 - BitVec.ofNat 64 0 := by decide
  have hinodes : BitVec.allOnes 64 - BitVec.ofInt 64 1 - BitVec.ofInt 64 1 =
      BitVec.allOnes 64 - BitVec.ofNat 64 2 := by decide
  exact ⟨hblocks, hblocks, hinodes, hinodes⟩

end FileSystem

end DagonFs
