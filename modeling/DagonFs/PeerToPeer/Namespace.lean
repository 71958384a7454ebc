import DagonFs.FileSystem.Namespace
import DagonFs.PeerToPeer.Messages

/-!
# The namespace handlers of a peer

The handlers of the peer-to-peer model are those of the client-server model with a last part: unless the
change came from the MPI thread, the other peers are told.  One flag for each type of change says that
it did; the MPI thread sets the flag when it receives a request, and the next handler of the type that
gets to its last part clears it.

`FuseMkdir` also keeps the absolute name of the new directory, which the messages are made of.
-/

namespace DagonFs

/-- `getDirName`; empty for what is no directory. -/
def INode.dirName (i : INode) : Name := i.asDirectory.elim [] Directory.dirName

namespace Nodes

def dirNameOf (ns : Nodes) (x : ℕ) : Name := (ns.iNodes[x]?).elim [] INode.dirName

def setDirName (ns : Nodes) (x : ℕ) (name : Name) : Nodes :=
  ns.modifyINode x (onDirectory fun d => { d with dirName := name })

def setParent (ns : Nodes) (x parent : ℕ) : Nodes :=
  ns.modifyINode x (onDirectory fun d => { d with parentDir := some parent })

end Nodes

def Reply.isErr : Reply → Bool
  | .err _ => true
  | _ => false

namespace PeerToPeer

/-- The byte of `"/"`. -/
def slash : UInt8 := 47

/-- The file system of one peer, with the flags `createFileFromThread`, `deleteFileFromThread`,
`createDirFromThread`, `deleteDirFromThread` and `renameFromThread`. -/
structure Replica where
  fs : FileSystem
  fromThread : RequestType → Bool

/-- What a handler does: the next state, the replies, and the requests it has the peer send. -/
structure Outcome where
  replica : Replica
  replies : List Reply
  sent : List Request

namespace Replica

/-- `FuseInit` of a peer. -/
def mounted (process : Ids) : Replica where
  fs :=
    let fs := FileSystem.mounted process
    fs.setNodes (fs.iNodeManager.setDirName FileSystem.rootINode [slash])
  fromThread _ := false

variable (r : Replica)

def setFromThread (type : RequestType) (value : Bool) : Replica :=
  { r with fromThread := Function.update r.fromThread type value }

/-- The last part of a handler that has changed the namespace; `none` when a path does not fit its field. -/
def announce (request : Request) (replies : List Reply) : Option Outcome :=
  let cleared := r.setFromThread request.type false
  if r.fromThread request.type then some ⟨cleared, replies, []⟩
  else if request.Fits then some ⟨cleared, replies, [request]⟩
  else none

/-- What follows the part that both models have in common; an error has ended the handler already. -/
def finish (res : FileSystem × List Reply) (request : FileSystem → Request) : Option Outcome :=
  let r := { r with fs := res.1 }
  if res.2.any Reply.isErr then some ⟨r, res.2, []⟩ else r.announce (request res.1) res.2

def fuseCreate (ctx : Ids) (parent : ℕ) (name : Name) (flags : ℕ) : Option Outcome :=
  (r.fs.fuseCreate ctx parent name flags).bind fun res =>
    r.finish res fun fs => .createFile (fs.iNodeManager.dirNameOf parent ++ name)

def fuseUnlink (parent : ℕ) (name : Name) : Option Outcome :=
  (r.fs.fuseUnlink parent name).bind fun res =>
    r.finish res fun fs => .deleteFile (fs.iNodeManager.dirNameOf parent ++ name)

/-- The part of `FuseMkdir` before the last one. -/
def makeDirectory (fs : FileSystem) (parent : ℕ) (name : Name) : Result :=
  fs.withDirectory parent .eisdir fun _ =>
    fs.withINode .directory (sIfdir ||| 0o777) 2 fs.process.gid fs.process.uid fun fs ino =>
      (fs.insertChild parent name ino).bind fun fs =>
        let ns := (fs.iNodeManager.addHardLink parent).setParent ino parent
        -- `parentDir_p->getDirName() + name + "/"`
        let dirName := ns.dirNameOf parent ++ name ++ [slash]
        (fs.setNodes (ns.setDirName ino dirName)).replyEntry ino

def fuseMkdir (parent : ℕ) (name : Name) : Option Outcome :=
  (makeDirectory r.fs parent name).bind fun res =>
    r.finish res fun fs =>
      .createDir (((fs.iNodeManager.childrenOf parent)[name]?).elim [] fs.iNodeManager.dirNameOf)

/-- The name that is sent is the one the directory was made with. -/
def fuseRmdir (parent : ℕ) (name : Name) : Option Outcome :=
  let dir := (r.fs.iNodeManager.childrenOf parent)[name]?
  (r.fs.fuseRmdir parent name).bind fun res =>
    r.finish res fun fs => .deleteDir (dir.elim [] fs.iNodeManager.dirNameOf)

def fuseRename (parent : ℕ) (name : Name) (newparent : ℕ) (newname : Name) : Option Outcome :=
  (r.fs.fuseRename parent name newparent newname).bind fun res =>
    r.finish res fun fs => .rename (fs.iNodeManager.dirNameOf parent ++ name)
      (fs.iNodeManager.dirNameOf newparent ++ newname)

end Replica

/-- A run of one of the handlers that tell the other peers. -/
inductive Operation where
  | create (ctx : Ids) (parent : ℕ) (name : Name) (flags : ℕ)
  | unlink (parent : ℕ) (name : Name)
  | mkdir (parent : ℕ) (name : Name)
  | rmdir (parent : ℕ) (name : Name)
  | rename (parent : ℕ) (name : Name) (newparent : ℕ) (newname : Name)

def Operation.type : Operation → RequestType
  | .create .. => .createFile
  | .unlink .. => .deleteFile
  | .mkdir .. => .createDir
  | .rmdir .. => .deleteDir
  | .rename .. => .rename

def Replica.handle (r : Replica) : Operation → Option Outcome
  | .create ctx parent name flags => r.fuseCreate ctx parent name flags
  | .unlink parent name => r.fuseUnlink parent name
  | .mkdir parent name => r.fuseMkdir parent name
  | .rmdir parent name => r.fuseRmdir parent name
  | .rename parent name newparent newname => r.fuseRename parent name newparent newname

/-- The part of a handler before its announcement. -/
def Operation.perform (fs : FileSystem) : Operation → Result
  | .create ctx parent name flags => fs.fuseCreate ctx parent name flags
  | .unlink parent name => fs.fuseUnlink parent name
  | .mkdir parent name => Replica.makeDirectory fs parent name
  | .rmdir parent name => fs.fuseRmdir parent name
  | .rename parent name newparent newname => fs.fuseRename parent name newparent newname

/-- What the operation is announced as, from the file systems before and after it. -/
def Operation.request (before after : FileSystem) : Operation → Request
  | .create _ parent name _ => .createFile (after.iNodeManager.dirNameOf parent ++ name)
  | .unlink parent name => .deleteFile (after.iNodeManager.dirNameOf parent ++ name)
  | .mkdir parent name =>
    .createDir (((after.iNodeManager.childrenOf parent)[name]?).elim [] after.iNodeManager.dirNameOf)
  | .rmdir parent name =>
    .deleteDir (((before.iNodeManager.childrenOf parent)[name]?).elim [] after.iNodeManager.dirNameOf)
  | .rename parent name newparent newname =>
    .rename (after.iNodeManager.dirNameOf parent ++ name)
      (after.iNodeManager.dirNameOf newparent ++ newname)

theorem Operation.request_type (op : Operation) (before after : FileSystem) :
    (op.request before after).type = op.type := by
  cases op <;> rfl

theorem handle_eq (r : Replica) (op : Operation) :
    r.handle op = (op.perform r.fs).bind fun res => r.finish res (op.request r.fs) := by
  cases op <;> rfl

/-- The handler has changed the namespace. -/
def Outcome.succeeded (o : Outcome) : Bool := !o.replies.any Reply.isErr

/-- What a handler does with the flag of its type. -/
structure Announced (r : Replica) (type : RequestType) (request : FileSystem → Request)
    (o : Outcome) : Prop where
  failed : o.succeeded = false → o.replica.fromThread = r.fromThread ∧ o.sent = []
  cleared : o.succeeded = true → o.replica.fromThread = Function.update r.fromThread type false
  replayed : o.succeeded = true → r.fromThread type = true → o.sent = []
  told : o.succeeded = true → r.fromThread type = false → o.sent = [request o.replica.fs]

theorem finish_announced {r : Replica} {res : FileSystem × List Reply} {request : FileSystem → Request}
    {type : RequestType} {o : Outcome} (htype : ∀ fs, (request fs).type = type)
    (h : r.finish res request = some o) : Announced r type request o := by
  simp only [Replica.finish] at h
  split at h
  · rename_i herr
    obtain rfl := Option.some.inj h
    have hfailed : Outcome.succeeded ⟨{ r with fs := res.1 }, res.2, []⟩ = false := by
      simp only [Outcome.succeeded, herr, Bool.not_true]
    refine ⟨fun _ => ⟨rfl, rfl⟩, fun hs => ?_, fun _ _ => rfl, fun hs => ?_⟩ <;>
      exact absurd (hfailed.symm.trans hs) Bool.false_ne_true
  · rename_i hok
    have hsucceeded : ∀ replica sent, Outcome.succeeded ⟨replica, res.2, sent⟩ ≠ false := by
      intro replica sent hs
      simp only [Outcome.succeeded, Bool.not_eq_false'] at hs
      exact hok hs
    simp only [Replica.announce, htype] at h
    split at h
    · rename_i hflag
      obtain rfl := Option.some.inj h
      exact ⟨fun hs => absurd hs (hsucceeded _ _), fun _ => rfl, fun _ _ => rfl,
        fun _ hfree => absurd (hfree.symm.trans hflag) Bool.false_ne_true⟩
    · rename_i hflag
      split at h
      · obtain rfl := Option.some.inj h
        exact ⟨fun hs => absurd hs (hsucceeded _ _), fun _ => rfl, fun _ hset => absurd hset hflag,
          fun _ _ => rfl⟩
      · cases h

/-- **Every handler** that succeeds tells the other peers, once, exactly when the flag of its type is
not set, and clears the flag; one that fails does neither. -/
theorem handle_announced {r : Replica} {op : Operation} {o : Outcome} (h : r.handle op = some o) :
    Announced r op.type (op.request r.fs) o := by
  have htype := fun fs => op.request_type r.fs fs
  cases op <;>
    · obtain ⟨res, -, hfinish⟩ := Option.bind_eq_some_iff.mp h
      exact finish_announced htype hfinish

end PeerToPeer

end DagonFs
