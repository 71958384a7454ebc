import DagonFs.ClientServer.FileEffects
import DagonFs.PeerToPeer.DistributedCode

/-!
# The file handlers of the peer-to-peer model

Every peer has the handlers of the client-server model for its own file system.  They differ in
`FuseOpen` and `FuseFlush` only, which start a distributed operation with the peer as its source.

Files are opened one at a time, at any peer (`Peers.step`).  A new file is told to the other peers before
anything else of its session is, so that a creation is one step with its repetitions.
-/

namespace DagonFs

open DagonFs.Nodes

/-- `st_size` of a file. -/
def Nodes.sizeOf (ns : Nodes) (x : ℕ) : Option ℕ := (ns.fileAt x).map FileState.stSize

namespace PeerToPeer

/-- One process, with its whole file system. -/
structure Process where
  fs : FileSystem
  heap : Heap

namespace Process

variable (p : Process)

/-- The part that the distributed operations work on. -/
def peer : Peer := ⟨p.fs.iNodeManager, p.fs.blocksManager, p.heap⟩

def setPeer (q : Peer) : Process :=
  ⟨{ p.fs with iNodeManager := q.iNodeManager, blocksManager := q.blocksManager }, q.heap⟩

/-- The process as the handlers that distribute nothing see it: they are the same in both models. -/
def system : System := ⟨p.fs, fun _ => [], fun _ _ => []⟩

def sizeOf (x : ℕ) : Option ℕ := p.fs.iNodeManager.sizeOf x

end Process

/-! ### The handlers -/

section Handlers

/-- What a handler of one peer does: the next state of every process, and the replies sent. -/
abbrev PeersResult := Option ((ℕ → Process) × List Reply)

variable (L : Launch) (s : ℕ → Process) (rank : ℕ)

/-- The end of a handler that works on its own file system only. -/
def locally (res : System.Result) : PeersResult :=
  res.map fun r => (Function.update s rank { s rank with fs := r.1.fs }, r.2)

def modifyINode (ino : ℕ) (f : INode → INode) : ℕ → Process :=
  let fs := (s rank).fs
  Function.update s rank { s rank with fs := fs.setNodes (fs.iNodeManager.modifyINode ino f) }

/-- The check that the handlers begin with, and the inode they go on with. -/
def withINode (ino : ℕ) (k : INode → PeersResult) : PeersResult :=
  if (s rank).fs.iNodeManager.getNumberOfINodes ≤ ino then some (s, [.err .enoent])
  else ((s rank).fs.iNodeManager.getINodeByINodeNumber ino).bind k

def fuseOpen (ino flags : ℕ) : PeersResult :=
  withINode s rank ino fun inode =>
    match inode.kind with
    | .directory _ => some (s, [.err .eisdir])
    | .file _ =>
      if opensForWriting flags then some (modifyINode s rank ino FileSystem.clearSize, [.opened])
      else
        (dagonFS_Read L (fun r => (s r).peer) rank ⟨ino, inode.attr.stSize, inode.attr.stSize, 0⟩).map
          fun buf => (modifyINode s rank ino (System.onFile ({ · with mBuf := buf })), [.opened])
    | _ => some (s, [.err .eperm])

def fuseWrite (ino : ℕ) (buf : Option (List UInt8)) (off : ℕ) (junk : ℕ → UInt8) : PeersResult :=
  locally s rank ((s rank).system.fuseWrite L ino buf off junk)

def fuseRead (ino size off : ℕ) : PeersResult :=
  locally s rank ((s rank).system.fuseRead ino size off)

def fuseSetAttr (ino : ℕ) (attr : Stat) (toSet : ℕ) : PeersResult :=
  locally s rank ((s rank).system.fuseSetAttr ino attr toSet)

def fuseFlush (ino : ℕ) : PeersResult :=
  withINode s rank ino fun inode =>
    inode.asFile.bind fun f =>
      match f.mBuf with
      | none => some (s, [.ok])
      | some buf =>
        if f.isWaitingForDistributedWrite then
          (dagonFS_Write L (fun r => (s r).peer) rank buf ino inode.attr.stSize).map fun peers =>
            (modifyINode (fun r => (s r).setPeer (peers r)) rank ino
              (System.onFile fun f => f.removeWaiting.freeBuf), [.ok])
        else some (modifyINode s rank ino (System.onFile File.freeBuf), [.ok])

def fuseRelease (ino : ℕ) : PeersResult := locally s rank ((s rank).system.fuseRelease ino)

end Handlers

/-- `createFile` at another peer: its kernel calls `FuseCreate` for `fopen`, with the number that the
directory has there.  The flush and the release of `fclose` find no buffer.  `none` when the file does
not get the number that it has at the peer that made it. -/
def Process.createFile (p : Process) (ino parent : ℕ) (name : Name) : Option Process :=
  (p.fs.fuseCreate p.fs.process parent name (oWronly ||| oTrunc)).bind fun r =>
    match r.2 with
    | [.create number _] => if number = ino then some { p with fs := r.1 } else none
    | _ => none

/-! ### One handle at a time -/

/-- The open handle. -/
structure Session where
  rank : ℕ
  ino : ℕ
  /-- The size has been changed, and the file has not been stored since. -/
  unsent : Bool

/-- All processes, and the handle that is open. -/
structure Peers where
  processes : ℕ → Process
  session : Option Session

inductive FileEvent where
  /-- `parents`: the number that the directory of the new file has at each rank. -/
  | create (rank : ℕ) (ctx : Ids) (parents : ℕ → ℕ) (name : Name) (flags : ℕ)
  | open (rank ino flags : ℕ)
  | write (buf : Option (List UInt8)) (off : ℕ) (junk : ℕ → UInt8)
  | setAttr (rank ino : ℕ) (attr : Stat) (toSet : ℕ)
  | flush
  | release

namespace Peers

variable (L : Launch) (s : Peers)

def sizeOf (rank x : ℕ) : Option ℕ := (s.processes rank).sizeOf x

/-- A creation with its repetitions. -/
def created (rank ino : ℕ) (parents : ℕ → ℕ) (name : Name) (fs : FileSystem) : Option Peers :=
  let next := fun t =>
    if t = rank then some { s.processes rank with fs := fs }
    else (s.processes t).createFile ino (parents t) name
  if ∀ t < L.mpiWorldSize, (next t).isSome then
    some ⟨fun t => if t < L.mpiWorldSize then (next t).getD (s.processes t) else s.processes t,
      some ⟨rank, ino, false⟩⟩
  else none

/-- An open with `O_WRONLY` or `O_TRUNC`, of a file that is not empty. -/
def truncates (rank ino flags : ℕ) : Bool :=
  opensForWriting flags && (s.sizeOf rank ino).any (· != 0)

/-- A write past the end of the file. -/
def grows (rank ino : ℕ) (buf : Option (List UInt8)) (off : ℕ) : Bool :=
  buf.any fun data => (s.sizeOf rank ino).any (· < off + data.length)

/-- Attributes with another size. -/
def resizes (rank ino : ℕ) (attr : Stat) (toSet : ℕ) : Bool :=
  isSet toSet fuseSetAttrSize && (s.sizeOf rank ino).any (· != attr.stSize)

/-- A flush that stores the file on all peers. -/
def stores (rank ino : ℕ) : Bool :=
  ((s.processes rank).fs.iNodeManager.fileAt ino).any fun v => decide v.IsDirty

/-- One step; `none` when it cannot be taken.  A file is opened when no handle is open, and the handle is
open when the handler has replied so. -/
def step : FileEvent → Option Peers
  | .create rank ctx parents name flags =>
    if rank < L.mpiWorldSize ∧ s.session.isNone then
      ((s.processes rank).fs.fuseCreate ctx (parents rank) name flags).bind fun r =>
        match r.2 with
        | [.create ino _] => s.created L rank ino parents name r.1
        | _ => some s
    else none
  | .open rank ino flags =>
    if rank < L.mpiWorldSize ∧ s.session.isNone then
      (fuseOpen L s.processes rank ino flags).map fun r =>
        ⟨r.1, if r.2 = [.opened] then some ⟨rank, ino, s.truncates rank ino flags⟩ else none⟩
    else none
  | .write buf off junk =>
    s.session.bind fun h => (fuseWrite L s.processes h.rank h.ino buf off junk).map fun r =>
      ⟨r.1, some { h with unsent := h.unsent || s.grows h.rank h.ino buf off }⟩
  | .setAttr rank ino attr toSet =>
    if rank < L.mpiWorldSize then
      (fuseSetAttr s.processes rank ino attr toSet).map fun r =>
        ⟨r.1, s.session.map fun h =>
          if h.rank = rank ∧ h.ino = ino then
            { h with unsent := h.unsent || s.resizes rank ino attr toSet }
          else h⟩
    else none
  | .flush =>
    s.session.bind fun h => (fuseFlush L s.processes h.rank h.ino).map fun r =>
      ⟨r.1, some { h with unsent := h.unsent && !s.stores h.rank h.ino }⟩
  | .release =>
    s.session.bind fun h => (fuseRelease s.processes h.rank h.ino).map fun r => ⟨r.1, none⟩

/-- The peers as they are mounted. -/
def mounted (process : ℕ → Ids) : Peers := ⟨fun rank => ⟨FileSystem.mounted (process rank), []⟩, none⟩

end Peers

end PeerToPeer

end DagonFs
