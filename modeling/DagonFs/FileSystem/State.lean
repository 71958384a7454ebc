import Mathlib.Data.Int.Notation
import DagonFs.Blocks.DataBlock
import DagonFs.Nodes.Table

/-!
# The file system state

`FileSystem`: the static members that the FUSE handlers share, the replies they send, and the
registration of inodes.  A handler maps a state to the next one with its replies in order; `none`
stands for undefined behaviour of the source (a vector index out of range, a use of a deleted inode).

Time stamps, `st_blksize`, logging and the timing file are left out: no handler reads them back.
-/

namespace DagonFs

/-- The error numbers that handlers reply with. -/
inductive Errno where
  | eperm
  | enoent
  | eacces
  | eexist
  | eisdir
  | enametoolong
  | enotdir
  | enodata
  | erange
  | e2big
  | eio
  deriving DecidableEq

/-- The counters of `struct statvfs` that change: unsigned 64-bit integers. -/
structure Statvfs where
  fBlocks : BitVec 64
  fBfree : BitVec 64
  fBavail : BitVec 64
  fFiles : BitVec 64
  fFfree : BitVec 64
  fFavail : BitVec 64
  deriving DecidableEq

/-- One reply to the kernel.  `ok` is `fuse_reply_err(req, 0)`. -/
inductive Reply where
  | err (e : Errno)
  | ok
  | noReply
  | entry (ino : ℕ) (attr : Stat)
  | create (ino : ℕ) (attr : Stat)
  | attr (attr : Stat)
  | opened
  | write (count : ℕ)
  | buf (bytes : List UInt8)
  | readlink (link : Name)
  | xattr (count : ℕ)
  | statfs (stbuf : Statvfs)
  deriving DecidableEq

/-- A user and a group: those of a request (`fuse_ctx`), or of the process itself. -/
structure Ids where
  uid : ℕ
  gid : ℕ
  deriving DecidableEq

structure FileSystem where
  iNodeManager : Nodes
  blocksManager : Blocks
  mReclaimingINodes : Bool
  mStbuf : Statvfs
  process : Ids

/-- What a handler does: the next state and the replies sent. -/
abbrev Result := Option (FileSystem × List Reply)

/-! ### Constants -/

/-- `~0`. -/
def kTotalBlocks : BitVec 64 := BitVec.allOnes 64
def kTotalInodes : BitVec 64 := BitVec.allOnes 64
def kMaxFilenameLength : ℕ := 1024
def kINodeReclamationThreshold : ℕ := 256

def sIfmt : ℕ := 0xF000
def sIfdir : ℕ := 0x4000
def sIfreg : ℕ := 0x8000
def sIflnk : ℕ := 0xA000

def sIsdir (mode : ℕ) : Bool := mode &&& sIfmt == sIfdir
def sIsreg (mode : ℕ) : Bool := mode &&& sIfmt == sIfreg

namespace FileSystem

/-- The constructor. -/
def new (process : Ids) : FileSystem where
  iNodeManager := ⟨[], []⟩
  blocksManager := Blocks.new
  mReclaimingINodes := false
  mStbuf := ⟨kTotalBlocks, kTotalBlocks, kTotalBlocks, kTotalInodes, kTotalInodes, kTotalInodes⟩
  process := process

def setNodes (fs : FileSystem) (ns : Nodes) : FileSystem := { fs with iNodeManager := ns }

/-- End with one reply and the state as it is. -/
def reply (fs : FileSystem) (r : Reply) : Result := some (fs, [r])

def updateUsedBlocks (fs : FileSystem) (blocksAdded : ℤ) : FileSystem :=
  { fs with mStbuf := { fs.mStbuf with
      fBfree := fs.mStbuf.fBfree - BitVec.ofInt 64 blocksAdded
      fBavail := fs.mStbuf.fBavail - BitVec.ofInt 64 blocksAdded } }

def updateUsedINodes (fs : FileSystem) (inodesAdded : ℤ) : FileSystem :=
  { fs with mStbuf := { fs.mStbuf with
      fFfree := fs.mStbuf.fFfree - BitVec.ofInt 64 inodesAdded
      fFavail := fs.mStbuf.fFavail - BitVec.ofInt 64 inodesAdded } }

/-- `InitializeINode` on the inode just put at `ino`, whose number is then returned. -/
def initINode (fs : FileSystem) (ino mode nlink gid uid : ℕ) : FileSystem × ℕ :=
  (fs.setNodes (fs.iNodeManager.modifyINode ino (Nodes.initializeINode · ino mode nlink gid uid)), ino)

/-- Stop reclaiming inodes if there are no more to reclaim. -/
def stopReclaiming (fs : FileSystem) : FileSystem :=
  if fs.iNodeManager.getNumberOfDeletedINodes = 0 then { fs with mReclaimingINodes := false } else fs

/-- `RegisterINode`: the new inode takes the number at the front of the queue while the file system is
reclaiming, and a new position otherwise. -/
def registerINode (fs : FileSystem) (type : INodeType) (mode nlink gid uid : ℕ) :
    Option (FileSystem × ℕ) :=
  let fs := fs.stopReclaiming
  let inode := Nodes.createEmptyINode type
  if fs.mReclaimingINodes then
    fs.iNodeManager.reclaimINode.bind fun (ino, ns) =>
      (ns.getINodeByINodeNumber ino).map fun del =>
        let fs := (fs.setNodes (ns.setINodeAt ino inode)).updateUsedBlocks (-del.attr.stBlocks)
        fs.initINode ino mode nlink gid uid
  else
    let (ns, ino) := fs.iNodeManager.addINode inode
    some (((fs.setNodes ns).updateUsedINodes 1).initINode ino mode nlink gid uid)

/-- `FuseInit`: inode 0 is a special inode, and inode 1 the root directory with three hard links. -/
def fuseInit (fs : FileSystem) : Option FileSystem :=
  let fs := { fs with
    mReclaimingINodes := false
    mStbuf := { fs.mStbuf with
      fBfree := fs.mStbuf.fBlocks, fBavail := fs.mStbuf.fBlocks
      fFfree := fs.mStbuf.fFiles, fFavail := fs.mStbuf.fFiles } }
  let gid := fs.process.gid
  let uid := fs.process.uid
  (fs.registerINode .specialInodeTypeNoBlock 0o777 0 gid uid).bind fun (fs, _) =>
    (fs.registerINode .directory (sIfdir ||| 0o777) 3 gid uid).map Prod.fst

theorem fuseInit_isSome (process : Ids) : (fuseInit (new process)).isSome := rfl

/-- The file system as it is mounted. -/
def mounted (process : Ids) : FileSystem := (fuseInit (new process)).get (fuseInit_isSome process)

@[simp] theorem stopReclaiming_iNodeManager (fs : FileSystem) :
    fs.stopReclaiming.iNodeManager = fs.iNodeManager := by unfold stopReclaiming; split <;> rfl

@[simp] theorem stopReclaiming_blocksManager (fs : FileSystem) :
    fs.stopReclaiming.blocksManager = fs.blocksManager := by unfold stopReclaiming; split <;> rfl

@[simp] theorem stopReclaiming_process (fs : FileSystem) :
    fs.stopReclaiming.process = fs.process := by unfold stopReclaiming; split <;> rfl

/-- The number of the root directory. -/
def rootINode : ℕ := 1

end FileSystem

end DagonFs
