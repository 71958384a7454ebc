import DagonFs.FileSystem.State

/-!
# The namespace handlers

Lookup and forget, the handlers that make an inode (`FuseMknod`, `FuseMkdir`, `FuseSymlink`,
`FuseCreate`), and those that add, drop or move a name (`FuseLink`, `FuseUnlink`, `FuseRmdir`,
`FuseRename`).

The handlers keep a pointer to the parent directory across `RegisterINode`.  If the registration
reuses the number of the parent itself, that pointer is to a deleted object, and the handler has no
defined behaviour.
-/

namespace DagonFs

/-- `O_WRONLY`, `O_RDWR` and `O_TRUNC`. -/
def oWronly : ℕ := 0o1
def oRdwr : ℕ := 0o2
def oTrunc : ℕ := 0o1000

/-- `flags & (O_WRONLY | O_TRUNC)`: the open drops the content. -/
def opensForWriting (flags : ℕ) : Bool := flags &&& (oWronly ||| oTrunc) != 0

namespace FileSystem

variable (fs : FileSystem)

/-- The checks that the handlers begin with: `parent` is in the table, and it is a directory. -/
def withDirectory (parent : ℕ) (notADirectory : Errno) (k : Directory → Result) : Result :=
  if fs.iNodeManager.getNumberOfINodes ≤ parent then fs.reply (.err .enoent)
  else match fs.iNodeManager.directoryAt parent with
    | none => fs.reply (.err notADirectory)
    | some dir => k dir

/-- Count the reference that the reply hands out, and reply with the entry. -/
def replyEntry (ino : ℕ) : Result :=
  (fs.iNodeManager.getINodeByINodeNumber ino).map fun inode =>
    (fs.setNodes (fs.iNodeManager.lookupINode ino), [.entry inode.inodeNumber inode.attr])

/-- Register an inode and go on with it. -/
def withINode (type : INodeType) (mode nlink gid uid : ℕ) (k : FileSystem → ℕ → Result) : Result :=
  match fs.registerINode type mode nlink gid uid with
  | none => none
  | some (fs, ino) => k fs ino

/-- `UpdateChild` through the pointer to the parent that was taken before `ino` was registered. -/
def insertChild (parent : ℕ) (name : Name) (ino : ℕ) : Option FileSystem :=
  if ino = parent then none
  else some (fs.setNodes (fs.iNodeManager.updateChild parent name ino))

def fuseLookup (parent : ℕ) (name : Name) : Result :=
  fs.withDirectory parent .enoent fun dir =>
    match dir.childINodeNumberWithName name with
    | none => fs.reply (.err .enoent)
    | some ino => fs.replyEntry ino

/-- An inode that is forgotten and has no links goes to the queue; past the threshold the file system
starts to reclaim. -/
def fuseForget (ino nlookup : ℕ) : Result :=
  (fs.iNodeManager.getINodeByINodeNumber ino).map fun inode =>
    let inode := inode.forget nlookup
    let ns := fs.iNodeManager.forget ino nlookup
    if inode.forgotten && inode.hasNoLinks then
      let ns := ns.deleteINode ino
      let reclaiming := decide (kINodeReclamationThreshold < ns.getNumberOfDeletedINodes)
      ({ fs with iNodeManager := ns, mReclaimingINodes := fs.mReclaimingINodes || reclaiming },
        [.noReply])
    else (fs.setNodes ns, [.noReply])

/-! ### New inodes -/

/-- The part of `FuseMknod` after the choice of the type.  It passes the user where `RegisterINode`
takes the group, and the group for the user. -/
def mknodAs (ctx : Ids) (parent : ℕ) (name : Name) (type : INodeType) (nlink mode : ℕ) : Result :=
  fs.withINode type (mode ||| 0o777) nlink ctx.uid ctx.gid fun fs ino =>
    (fs.insertChild parent name ino).bind fun fs => fs.replyEntry ino

def fuseMknod (ctx : Ids) (parent : ℕ) (name : Name) (mode : ℕ) : Result :=
  fs.withDirectory parent .eisdir fun _ =>
    if kMaxFilenameLength < name.length then fs.reply (.err .enametoolong)
    else if sIsdir mode then
      -- Update the number of hardlinks in the parent dir
      (fs.setNodes (fs.iNodeManager.addHardLink parent)).mknodAs ctx parent name .directory 2 sIfdir
    else if sIsreg mode then fs.mknodAs ctx parent name .regularFile 1 sIfreg
    else fs.reply (.err .enoent)

def fuseMkdir (parent : ℕ) (name : Name) : Result :=
  fs.withDirectory parent .eisdir fun _ =>
    fs.withINode .directory (sIfdir ||| 0o777) 2 fs.process.gid fs.process.uid fun fs ino =>
      (fs.insertChild parent name ino).bind fun fs =>
        (fs.setNodes (fs.iNodeManager.addHardLink parent)).replyEntry ino

def setLink (link : Name) (i : INode) : INode :=
  match i.kind with
  | .symbolicLink _ => { i with kind := .symbolicLink link }
  | _ => i

def fuseSymlink (ctx : Ids) (link : Name) (parent : ℕ) (name : Name) : Result :=
  fs.withDirectory parent .eisdir fun _ =>
    fs.withINode .symbolicLink (sIflnk ||| 0o755) 1 ctx.gid ctx.uid fun fs ino =>
      let fs := fs.setNodes (fs.iNodeManager.modifyINode ino (setLink link))
      (fs.insertChild parent name ino).bind fun fs => fs.replyEntry ino

/-- `st_size = 0; st_blocks = 0`. -/
def clearSize (i : INode) : INode := { i with attr := { i.attr with stSize := 0, stBlocks := 0 } }

def fuseCreate (ctx : Ids) (parent : ℕ) (name : Name) (flags : ℕ) : Result :=
  fs.withDirectory parent .enoent fun _ =>
    if kMaxFilenameLength < name.length then fs.reply (.err .enametoolong)
    else
      fs.withINode .regularFile (sIfreg ||| 0o777) 1 ctx.gid ctx.uid fun fs ino =>
        let fs := { fs with blocksManager := fs.blocksManager.createEmptyBlockListForInode ino }
        (fs.insertChild parent name ino).bind fun fs =>
          let ns := fs.iNodeManager.lookupINode ino
          let ns := if opensForWriting flags then ns.modifyINode ino clearSize else ns
          (ns.getINodeByINodeNumber ino).map fun inode =>
            (fs.setNodes ns, [.create inode.inodeNumber inode.attr])

/-! ### Names -/

def fuseUnlink (parent : ℕ) (name : Name) : Result :=
  fs.withDirectory parent .eisdir fun parentDir =>
    match parentDir.childINodeNumberWithName name with
    | none => fs.reply (.err .enoent)
    | some ino =>
      (fs.iNodeManager.getINodeByINodeNumber ino).map fun _ =>
        let ns := fs.iNodeManager.removeHardLink ino
        (fs.setNodes (ns.deleteChild parent name), [.ok])

/-- `FuseRmdir` takes all links off the directory, so that it can be cleaned up later. -/
def fuseRmdir (parent : ℕ) (name : Name) : Result :=
  fs.withDirectory parent .eisdir fun parentDir =>
    match parentDir.childINodeNumberWithName name with
    | none => fs.reply (.err .enoent)
    | some ino =>
      (fs.iNodeManager.getINodeByINodeNumber ino).bind fun inode =>
        match inode.asDirectory with
        | none => fs.reply (.err .eisdir)
        | some dir =>
          if dir.hasChildren then fs.reply (.err .eperm)
          else
            let ns := fs.iNodeManager.removeHardLink parent
            let ns := ns.removeAllHardLinks ino
            some (fs.setNodes (ns.deleteChild parent name), [.ok])

/-- The counts that `FuseRename` adjusts for the entry it replaces: those of the two parents, when the
entry names a directory. -/
def displace (ns : Nodes) (parent newparent : ℕ) : Option ℕ → Option Nodes
  | none => some ns
  | some existingIno =>
    if existingIno = 0 then some ns
    else (ns.getINodeByINodeNumber existingIno).map fun existingInode =>
      if existingInode.isDirectory then (ns.removeHardLink parent).addHardLink newparent else ns

def fuseRename (parent : ℕ) (name : Name) (newparent : ℕ) (newname : Name) : Result :=
  fs.withDirectory parent .eisdir fun parentDir =>
    match parentDir.childINodeNumberWithName name with
    | none => fs.reply (.err .enoent)
    | some ino =>
      fs.withDirectory newparent .eisdir fun newParentDir =>
        let existingIno := newParentDir.childINodeNumberWithName newname
        (displace fs.iNodeManager parent newparent existingIno).map fun ns =>
          let ns := ns.updateChild newparent newname ino
          (fs.setNodes (ns.deleteChild parent name), [.ok])

/-- `FuseLink` does not return after it has replied that the name exists. -/
def fuseLink (ino newparent : ℕ) (newname : Name) : Result :=
  fs.withDirectory newparent .eisdir fun newParentDir =>
    if fs.iNodeManager.getNumberOfINodes ≤ ino then fs.reply (.err .enoent)
    else
      let existingIno := newParentDir.childINodeNumberWithName newname
      let refused := if existingIno.any (0 < ·) then [Reply.err .eexist] else []
      let ns := (fs.iNodeManager.updateChild newparent newname ino).addHardLink ino
      ((fs.setNodes ns).replyEntry ino).map fun r => (r.1, refused ++ r.2)

/-! ### Requests -/

/-- A request of the kernel to a namespace handler. -/
inductive Request where
  | lookup (parent : ℕ) (name : Name)
  | forget (ino nlookup : ℕ)
  | mknod (ctx : Ids) (parent : ℕ) (name : Name) (mode : ℕ)
  | mkdir (parent : ℕ) (name : Name)
  | symlink (ctx : Ids) (link : Name) (parent : ℕ) (name : Name)
  | create (ctx : Ids) (parent : ℕ) (name : Name) (flags : ℕ)
  | link (ino newparent : ℕ) (newname : Name)
  | unlink (parent : ℕ) (name : Name)
  | rmdir (parent : ℕ) (name : Name)
  | rename (parent : ℕ) (name : Name) (newparent : ℕ) (newname : Name)

def handle : Request → Result
  | .lookup parent name => fs.fuseLookup parent name
  | .forget ino nlookup => fs.fuseForget ino nlookup
  | .mknod ctx parent name mode => fs.fuseMknod ctx parent name mode
  | .mkdir parent name => fs.fuseMkdir parent name
  | .symlink ctx link parent name => fs.fuseSymlink ctx link parent name
  | .create ctx parent name flags => fs.fuseCreate ctx parent name flags
  | .link ino newparent newname => fs.fuseLink ino newparent newname
  | .unlink parent name => fs.fuseUnlink parent name
  | .rmdir parent name => fs.fuseRmdir parent name
  | .rename parent name newparent newname => fs.fuseRename parent name newparent newname

/-- The state after a request. -/
def step (r : Request) : Option FileSystem := (fs.handle r).map Prod.fst

end FileSystem

end DagonFs
