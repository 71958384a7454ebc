import DagonFs.ClientServer.System
import DagonFs.FileSystem.Namespace
import DagonFs.Lib.Buffer

/-!
# The file handlers of the client-server model

`FuseCreate`, `FuseOpen`, `FuseRead`, `FuseWrite`, `FuseSetAttr`, `FuseFlush` and `FuseRelease`.  A
file's bytes are in its buffer while it is open: an open that does not drop the content loads the
buffer with a distributed read, and a flush stores it with a distributed write.
-/

namespace DagonFs

open DagonFs.Lib.Buffer

/-- `FUSE_SET_ATTR_MODE`, `FUSE_SET_ATTR_UID`, `FUSE_SET_ATTR_GID` and `FUSE_SET_ATTR_SIZE`. -/
def fuseSetAttrMode : ℕ := 0x1
def fuseSetAttrUid : ℕ := 0x2
def fuseSetAttrGid : ℕ := 0x4
def fuseSetAttrSize : ℕ := 0x8

def isSet (toSet flag : ℕ) : Bool := toSet &&& flag != 0

/-- `SetINodeAttributes`, on the attributes that the file system reads back. -/
def Nodes.setINodeAttributes (attr : Stat) (toSet : ℕ) (i : INode) : INode :=
  { i with attr := { i.attr with
      stMode := if isSet toSet fuseSetAttrMode then attr.stMode else i.attr.stMode
      stUid := if isSet toSet fuseSetAttrUid then attr.stUid else i.attr.stUid
      stGid := if isSet toSet fuseSetAttrGid then attr.stGid else i.attr.stGid
      stSize := if isSet toSet fuseSetAttrSize then attr.stSize else i.attr.stSize } }

/-- The bytes behind `m_buf`; a null pointer has none. -/
def File.bytes (f : File) : List UInt8 := f.mBuf.getD []

namespace System

/-- What a handler does: the next state and the replies sent. -/
abbrev Result := Option (System × List Reply)

variable (L : Launch) (s : System)

def reply (r : Reply) : Result := some (s, [r])

def iNodeManager : Nodes := s.fs.iNodeManager

/-- An operation through a pointer to the inode `ino`. -/
def modifyINode (ino : ℕ) (f : INode → INode) : System :=
  s.setFs (s.fs.setNodes (s.fs.iNodeManager.modifyINode ino f))

/-- An operation on the `File` part of an inode. -/
def onFile (f : File → File) (i : INode) : INode :=
  match i.kind with
  | .file file => i.setFile (f file)
  | _ => i

/-- The size, the block count and the `File` part that a write leaves. -/
def putFile (stSize stBlocks : ℕ) (file : File) (i : INode) : INode :=
  { i with attr := { i.attr with stSize := stSize, stBlocks := stBlocks }, kind := .file file }

/-- The check that the handlers begin with, and the inode they go on with. -/
def withINode (ino : ℕ) (k : INode → Result) : Result :=
  if s.iNodeManager.getNumberOfINodes ≤ ino then s.reply (.err .enoent)
  else (s.iNodeManager.getINodeByINodeNumber ino).bind k

def fuseCreate (ctx : Ids) (parent : ℕ) (name : Name) (flags : ℕ) : Result :=
  (s.fs.fuseCreate ctx parent name flags).map fun r => (s.setFs r.1, r.2)

def fuseOpen (ino flags : ℕ) : Result :=
  s.withINode ino fun inode =>
    match inode.kind with
    | .directory _ => s.reply (.err .eisdir)
    | .file _ =>
      if opensForWriting flags then some (s.modifyINode ino FileSystem.clearSize, [.opened])
      else
        (s.dagonFS_Read L ⟨ino, inode.attr.stSize, inode.attr.stSize, 0⟩).map fun buf =>
          (s.modifyINode ino (onFile ({ · with mBuf := buf })), [.opened])
    | _ => s.reply (.err .eperm)

/-- Past the end of the file the handler replies once with no bytes, and goes on to a second reply whose
length has wrapped around. -/
def fuseRead (ino size off : ℕ) : Result :=
  s.withINode ino fun inode =>
    match inode.kind with
    | .directory _ => s.reply (.err .eisdir)
    | .specialINode _ => s.reply (.err .enoent)
    | .symbolicLink _ => s.reply (.err .eisdir)
    | .file f =>
      if inode.attr.stSize < off then none
      else
        let bytesRead := if inode.attr.stSize < off + size then inode.attr.stSize - off else size
        if off + bytesRead ≤ f.bytes.length then s.reply (.buf ((f.bytes.drop off).take bytesRead))
        else none

/-- `FuseWrite`; `junk` is what a longer buffer has in its new part. -/
def fuseWrite (ino : ℕ) (buf : Option (List UInt8)) (off : ℕ) (junk : ℕ → UInt8) : Result :=
  match buf with
  | none => s.reply (.err .eperm)
  | some data =>
    s.withINode ino fun inode =>
      match inode.kind with
      | .directory _ => s.reply (.err .eisdir)
      | .symbolicLink _ => s.reply (.err .enoent)
      | .specialINode _ => s.reply (.err .eisdir)
      | .file f =>
        let newSize := off + data.length
        let originalCapacity := L.blockSize * inode.attr.stBlocks
        let newBlocks := numberOfBlocks L.blockSize newSize
        let grows := originalCapacity < newSize
        let mBuf := if grows then some (grow f.bytes (newBlocks * L.blockSize) junk) else f.mBuf
        let stBlocks := if grows then newBlocks else inode.attr.stBlocks
        if newSize ≤ (mBuf.getD []).length then
          let stSize := if inode.attr.stSize < newSize then newSize else inode.attr.stSize
          let fs := s.fs.updateUsedBlocks (stBlocks - inode.attr.stBlocks)
          let f := { f.setWaiting with mBuf := mBuf.map (splice · off data) }
          some ((s.setFs fs).modifyINode ino (putFile stSize stBlocks f), [.write data.length])
        else none

/-- `FuseSetAttr` does not return after it has replied that the inode is out of range. -/
def fuseSetAttr (ino : ℕ) (attr : Stat) (toSet : ℕ) : Result :=
  (s.iNodeManager.getINodeByINodeNumber ino).map fun inode =>
    (s.modifyINode ino (Nodes.setINodeAttributes attr toSet),
      [.attr (Nodes.setINodeAttributes attr toSet inode).attr])

/-- `FuseFlush` reads the buffer of the inode without a check that it is a file. -/
def fuseFlush (ino : ℕ) : Result :=
  s.withINode ino fun inode =>
    inode.asFile.bind fun f =>
      match f.mBuf with
      | none => s.reply .ok
      | some buf =>
        if f.isWaitingForDistributedWrite then
          (s.dagonFS_Write L buf ino inode.attr.stSize).map fun s =>
            (s.modifyINode ino (onFile fun f => f.removeWaiting.freeBuf), [.ok])
        else some (s.modifyINode ino (onFile File.freeBuf), [.ok])

def fuseRelease (ino : ℕ) : Result :=
  s.withINode ino fun inode =>
    match inode.kind with
    | .directory _ => s.reply (.err .eisdir)
    | _ => some (s.modifyINode ino (onFile File.freeBuf), [.ok])

/-! ### Requests -/

/-- A request of the kernel on files. -/
inductive Request where
  | create (ctx : Ids) (parent : ℕ) (name : Name) (flags : ℕ)
  | open (ino flags : ℕ)
  | read (ino size off : ℕ)
  | write (ino : ℕ) (buf : Option (List UInt8)) (off : ℕ) (junk : ℕ → UInt8)
  | setAttr (ino : ℕ) (attr : Stat) (toSet : ℕ)
  | flush (ino : ℕ)
  | release (ino : ℕ)

def handle : Request → Result
  | .create ctx parent name flags => s.fuseCreate ctx parent name flags
  | .open ino flags => s.fuseOpen L ino flags
  | .read ino size off => s.fuseRead ino size off
  | .write ino buf off junk => s.fuseWrite L ino buf off junk
  | .setAttr ino attr toSet => s.fuseSetAttr ino attr toSet
  | .flush ino => s.fuseFlush L ino
  | .release ino => s.fuseRelease ino

end System

end DagonFs
