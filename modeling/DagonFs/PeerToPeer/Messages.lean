import DagonFs.PeerToPeer.DistributedCode

/-!
# Requests and messages of the peer-to-peer model

A peer announces what it does by a header (`RequestPacket`) and, to the other peers, a body.  All
messages have tag 0.  `Request.program` is what the FUSE thread of the peer does for a request: the
sends in the order of the source, then the collectives of a read or a write.

A message carries the number of its request among those of its sender (`origin`).  No code reads it: it
only says which header and which body belong together.

* `sendsTo_program`: what a request sends to one rank.
* `callsOf_program`: the collectives that its source enters, which every rank that serves it enters.
-/

namespace DagonFs.PeerToPeer

open DagonFs.Lib.Collective

inductive RequestType where
  | write
  | read
  | createFile
  | deleteFile
  | createDir
  | deleteDir
  | rename
  | terminate
  deriving DecidableEq

/-- `IORequestPacket`, the four structs of one 256-byte name, and `RenameRequest`. -/
inductive Body where
  | ioRequest (packet : IORequestPacket)
  | path (name : Name)
  | rename (oldName newName : Name)
  deriving DecidableEq

/-- The handler of the type receives its body into a struct of this kind. -/
def Body.fits : Body → RequestType → Bool
  | .ioRequest _, .write => true
  | .ioRequest _, .read => true
  | .path _, .createFile => true
  | .path _, .deleteFile => true
  | .path _, .createDir => true
  | .path _, .deleteDir => true
  | .rename _ _, .rename => true
  | _, _ => false

inductive Content where
  | header (type : RequestType)
  | body (body : Body)
  deriving DecidableEq

structure Message where
  origin : ℕ
  content : Content
  deriving DecidableEq

def Message.isBody (m : Message) : Bool :=
  match m.content with
  | .header _ => false
  | .body _ => true

/-! ### Collective calls -/

inductive CollectiveKind where
  | scatterv
  | allgatherv
  | gatherv
  deriving DecidableEq

/-- A collective as the other ranks must match it.  The inode is the one of the operation. -/
structure CollectiveCall where
  kind : CollectiveKind
  root : ℕ
  inode : ℕ
  counts : List ℕ
  deriving DecidableEq

def CollectiveCall.of (kind : CollectiveKind) (inode : ℕ) (call : VectorCall) : CollectiveCall :=
  ⟨kind, call.root, inode, call.layout.counts⟩

namespace DistributedCode

variable (L : Launch) (sourceRank rank : ℕ)

/-- The collectives of `DAGonFS_Write` on one rank. -/
def writeCalls (inode fileSize : ℕ) : List CollectiveCall :=
  [.of .scatterv inode (writeScatter L sourceRank rank fileSize),
    .of .allgatherv inode (writeAllgather L rank fileSize)]

/-- The collectives of `DAGonFS_Read` on one rank; an empty file has none. -/
def readCalls (packet : IORequestPacket) : List CollectiveCall :=
  if packet.fileSize = 0 then []
  else
    let blocks := numberOfBlocksForRequest L.blockSize packet.fileSize packet.reqSize
    [.of .scatterv packet.inode (readScatter L sourceRank rank blocks),
      .of .gatherv packet.inode (readGather L sourceRank rank blocks)]

/-- What `start` does with a body: the collectives of a read or a write, and none for the other
handlers, which repeat the change on the mounted file system. -/
def serve (type : RequestType) : Body → List CollectiveCall
  | .ioRequest packet =>
    match type with
    | .write => writeCalls L sourceRank rank packet.inode packet.fileSize
    | .read => readCalls L sourceRank rank packet
    | _ => []
  | _ => []

/-- All ranks enter the same collectives. -/
theorem serve_rank (type : RequestType) (body : Body) (rank' : ℕ) :
    serve L sourceRank rank type body = serve L sourceRank rank' type body := by
  cases body <;> rfl

end DistributedCode

/-! ### Requests -/

/-- What a FUSE handler, or the end of the program, has the peer send.  The packet of a write has no
`reqSize` and `offset` set. -/
inductive Request where
  | write (packet : IORequestPacket)
  | read (packet : IORequestPacket)
  | createFile (name : Name)
  | deleteFile (name : Name)
  | createDir (dirAbsPath : Name)
  | deleteDir (dirAbsPath : Name)
  | rename (oldName newName : Name)
  | terminate
  deriving DecidableEq

namespace Request

def type : Request → RequestType
  | .write _ => .write
  | .read _ => .read
  | .createFile _ => .createFile
  | .deleteFile _ => .deleteFile
  | .createDir _ => .createDir
  | .deleteDir _ => .deleteDir
  | .rename _ _ => .rename
  | .terminate => .terminate

def body : Request → Option Body
  | .write packet => some (.ioRequest packet)
  | .read packet => some (.ioRequest packet)
  | .createFile name => some (.path name)
  | .deleteFile name => some (.path name)
  | .createDir dirAbsPath => some (.path dirAbsPath)
  | .deleteDir dirAbsPath => some (.path dirAbsPath)
  | .rename oldName newName => some (.rename oldName newName)
  | .terminate => none

/-- The header of a read or a write is not sent to the source itself. -/
def isIO : Request → Bool
  | .write _ => true
  | .read _ => true
  | _ => false

/-- The names that go into 256-byte fields. -/
def names : Request → List Name
  | .createFile name => [name]
  | .deleteFile name => [name]
  | .createDir dirAbsPath => [dirAbsPath]
  | .deleteDir dirAbsPath => [dirAbsPath]
  | .rename oldName newName => [oldName, newName]
  | _ => []

/-- Every name fits its field; a longer one is copied past the end of it. -/
def Fits (r : Request) : Prop := ∀ name ∈ r.names, name.length ≤ 256

instance : DecidablePred Fits := fun r => inferInstanceAs (Decidable (∀ name ∈ r.names, _))

/-- Every name leaves room for the NUL at which its receiver stops to read. -/
def NulTerminated (r : Request) : Prop := ∀ name ∈ r.names, name.length < 256

instance : DecidablePred NulTerminated := fun r => inferInstanceAs (Decidable (∀ name ∈ r.names, _))

theorem fits_type {r : Request} {b : Body} (h : r.body = some b) : b.fits r.type = true := by
  cases r <;> cases h <;> rfl

theorem type_ne_terminate {r : Request} {b : Body} (h : r.body = some b) : r.type ≠ .terminate := by
  cases r <;> cases h <;> exact nofun

theorem type_eq_terminate {r : Request} (h : r.body = none) : r.type = .terminate := by
  cases r <;> first | rfl | cases h

theorem eq_terminate {r : Request} (h : r.type = .terminate) : r = .terminate := by
  cases r <;> first | rfl | cases h

end Request

/-! ### What a request has its peer do -/

inductive Action where
  | send (destination : ℕ) (message : Message)
  | enter (call : CollectiveCall)
  deriving DecidableEq

namespace RequestSender

variable (origin sourceRank mpiWorldSize : ℕ)

/-- `for (int i = 0; i < mpiWorldSize; i++) if (i != sourceRank) MPI_Send(…)`. -/
def sendToOthers (content : Content) : List Action :=
  (List.range mpiWorldSize).flatMap fun i =>
    if i ≠ sourceRank then [.send i ⟨origin, content⟩] else []

/-- The loop that sends a header to every rank, and the body to every other rank. -/
def sendWithBody (type : RequestType) (body : Body) : List Action :=
  (List.range mpiWorldSize).flatMap fun i =>
    .send i ⟨origin, .header type⟩ ::
      if i ≠ sourceRank then [.send i ⟨origin, .body body⟩] else []

def sendWriteRequest : List Action := sendToOthers origin sourceRank mpiWorldSize (.header .write)
def sendReadRequest : List Action := sendToOthers origin sourceRank mpiWorldSize (.header .read)

def sendCreateFileRequest (name : Name) : List Action :=
  sendWithBody origin sourceRank mpiWorldSize .createFile (.path name)

def sendDeleteFileRequest (name : Name) : List Action :=
  sendWithBody origin sourceRank mpiWorldSize .deleteFile (.path name)

def sendCreateDirectoryRequest (dirAbsPath : Name) : List Action :=
  sendWithBody origin sourceRank mpiWorldSize .createDir (.path dirAbsPath)

def sendDeleteDirectoryRequest (dirAbsPath : Name) : List Action :=
  sendWithBody origin sourceRank mpiWorldSize .deleteDir (.path dirAbsPath)

def sendRenameRequest (oldName newName : Name) : List Action :=
  sendWithBody origin sourceRank mpiWorldSize .rename (.rename oldName newName)

/-- The one header that the source also acts on. -/
def sendTerminationRequest : List Action :=
  (List.range mpiWorldSize).flatMap fun i => [.send i ⟨origin, .header .terminate⟩]

end RequestSender

open RequestSender in
/-- The actions of the FUSE thread: the call of `RequestSender`, and for a read (`FuseOpen`) or a write
(`FuseFlush`) the source's part of `DAGonFS_Read` or `DAGonFS_Write`. -/
def Request.program (L : Launch) (rank origin : ℕ) : Request → List Action
  | .write packet =>
    sendWriteRequest origin rank L.mpiWorldSize ++
      sendToOthers origin rank L.mpiWorldSize (.body (.ioRequest packet)) ++
      (DistributedCode.writeCalls L rank rank packet.inode packet.fileSize).map .enter
  | .read packet =>
    sendReadRequest origin rank L.mpiWorldSize ++
      sendToOthers origin rank L.mpiWorldSize (.body (.ioRequest packet)) ++
      (DistributedCode.readCalls L rank rank packet).map .enter
  | .createFile name => sendCreateFileRequest origin rank L.mpiWorldSize name
  | .deleteFile name => sendDeleteFileRequest origin rank L.mpiWorldSize name
  | .createDir dirAbsPath => sendCreateDirectoryRequest origin rank L.mpiWorldSize dirAbsPath
  | .deleteDir dirAbsPath => sendDeleteDirectoryRequest origin rank L.mpiWorldSize dirAbsPath
  | .rename oldName newName => sendRenameRequest origin rank L.mpiWorldSize oldName newName
  | .terminate => sendTerminationRequest origin L.mpiWorldSize

/-- The messages to one rank among some actions. -/
def sendsTo (rank : ℕ) : List Action → List Message
  | [] => []
  | .send destination m :: rest =>
    if destination = rank then m :: sendsTo rank rest else sendsTo rank rest
  | .enter _ :: rest => sendsTo rank rest

/-- The collectives among some actions. -/
def callsOf : List Action → List CollectiveCall
  | [] => []
  | .send _ _ :: rest => callsOf rest
  | .enter call :: rest => call :: callsOf rest

@[simp] theorem sendsTo_append (rank : ℕ) (as bs : List Action) :
    sendsTo rank (as ++ bs) = sendsTo rank as ++ sendsTo rank bs := by
  induction as with
  | nil => rfl
  | cons a as ih =>
    cases a with
    | send destination m =>
      simp only [List.cons_append, sendsTo, ih]
      split <;> rfl
    | enter call => exact ih

@[simp] theorem callsOf_append (as bs : List Action) :
    callsOf (as ++ bs) = callsOf as ++ callsOf bs := by
  induction as with
  | nil => rfl
  | cons a as ih =>
    cases a with
    | send destination m => exact ih
    | enter call => exact congrArg (call :: ·) ih

@[simp] theorem sendsTo_enter (rank : ℕ) (calls : List CollectiveCall) :
    sendsTo rank (calls.map .enter) = [] := by
  induction calls with
  | nil => rfl
  | cons call calls ih => exact ih

@[simp] theorem callsOf_enter (calls : List CollectiveCall) : callsOf (calls.map .enter) = calls := by
  induction calls with
  | nil => rfl
  | cons call calls ih => exact congrArg (call :: ·) ih

/-- A loop over the ranks that sends to rank `i` in round `i` only. -/
theorem sendsTo_loop {f : ℕ → List Action} {rank : ℕ} (h : ∀ i, i ≠ rank → sendsTo rank (f i) = [])
    (n : ℕ) :
    sendsTo rank ((List.range n).flatMap f) = if rank < n then sendsTo rank (f rank) else [] := by
  induction n with
  | zero => rfl
  | succ n ih =>
    rw [List.range_succ, List.flatMap_append, sendsTo_append, ih]
    simp only [List.flatMap_cons, List.flatMap_nil, List.append_nil]
    by_cases heq : n = rank
    · subst heq
      rw [if_neg (Nat.lt_irrefl n), if_pos (Nat.lt_succ_self n), List.nil_append]
    · rw [h n heq, List.append_nil]
      congr 1
      exact propext ⟨fun hlt => by omega, fun hlt => by omega⟩

theorem callsOf_loop {f : ℕ → List Action} (h : ∀ i, callsOf (f i) = []) (n : ℕ) :
    callsOf ((List.range n).flatMap f) = [] := by
  induction n with
  | zero => rfl
  | succ n ih =>
    rw [List.range_succ, List.flatMap_append, callsOf_append, ih]
    simp only [List.flatMap_cons, List.flatMap_nil, List.append_nil, List.nil_append]
    exact h n

namespace RequestSender

variable (origin sourceRank mpiWorldSize rank : ℕ)

theorem sendsTo_sendToOthers (content : Content) :
    sendsTo rank (sendToOthers origin sourceRank mpiWorldSize content) =
      if rank < mpiWorldSize ∧ rank ≠ sourceRank then [⟨origin, content⟩] else [] := by
  rw [sendToOthers, sendsTo_loop]
  · by_cases hr : rank < mpiWorldSize <;> by_cases hs : rank = sourceRank <;> simp [hr, hs, sendsTo]
  · intro i hi
    split <;> simp [sendsTo, hi]

theorem sendsTo_sendWithBody (type : RequestType) (body : Body) :
    sendsTo rank (sendWithBody origin sourceRank mpiWorldSize type body) =
      if rank < mpiWorldSize then
        ⟨origin, .header type⟩ :: if rank ≠ sourceRank then [⟨origin, .body body⟩] else []
      else [] := by
  rw [sendWithBody, sendsTo_loop]
  · by_cases hs : rank = sourceRank <;> simp [hs, sendsTo]
  · intro i hi
    split <;> simp [sendsTo, hi]

theorem sendsTo_sendTerminationRequest :
    sendsTo rank (sendTerminationRequest origin mpiWorldSize) =
      if rank < mpiWorldSize then [⟨origin, .header .terminate⟩] else [] := by
  rw [sendTerminationRequest, sendsTo_loop]
  · simp [sendsTo]
  · intro i hi
    simp [sendsTo, hi]

theorem callsOf_sendToOthers (content : Content) :
    callsOf (sendToOthers origin sourceRank mpiWorldSize content) = [] := by
  apply callsOf_loop
  intro i
  split <;> rfl

theorem callsOf_sendWithBody (type : RequestType) (body : Body) :
    callsOf (sendWithBody origin sourceRank mpiWorldSize type body) = [] := by
  apply callsOf_loop
  intro i
  split <;> rfl

theorem callsOf_sendTerminationRequest : callsOf (sendTerminationRequest origin mpiWorldSize) = [] :=
  callsOf_loop (fun _ => rfl) mpiWorldSize

end RequestSender

/-- What a request sends to one rank. -/
def Request.messages (r : Request) (L : Launch) (sourceRank origin rank : ℕ) : List Message :=
  if rank < L.mpiWorldSize then
    (if r.isIO ∧ rank = sourceRank then [] else [⟨origin, .header r.type⟩]) ++
      match r.body with
      | some body => if rank ≠ sourceRank then [⟨origin, .body body⟩] else []
      | none => []
  else []

open RequestSender in
theorem sendsTo_program (L : Launch) (r : Request) (sourceRank origin rank : ℕ) :
    sendsTo rank (r.program L sourceRank origin) = r.messages L sourceRank origin rank := by
  by_cases hr : rank < L.mpiWorldSize
  · by_cases hs : rank = sourceRank <;> cases r <;>
      simp [Request.program, Request.messages, Request.isIO, Request.type, Request.body, hr, hs,
        sendWriteRequest, sendReadRequest, sendCreateFileRequest, sendDeleteFileRequest,
        sendCreateDirectoryRequest, sendDeleteDirectoryRequest, sendRenameRequest,
        sendsTo_sendTerminationRequest, sendsTo_sendToOthers, sendsTo_sendWithBody]
  · cases r <;>
      simp [Request.program, Request.messages, hr, sendWriteRequest, sendReadRequest,
        sendCreateFileRequest, sendDeleteFileRequest, sendCreateDirectoryRequest,
        sendDeleteDirectoryRequest, sendRenameRequest, sendsTo_sendTerminationRequest,
        sendsTo_sendToOthers, sendsTo_sendWithBody]

/-- The collectives of a request, as any rank enters them. -/
def Request.calls (L : Launch) (sourceRank : ℕ) (r : Request) : List CollectiveCall :=
  r.body.elim [] (DistributedCode.serve L sourceRank sourceRank r.type)

open RequestSender in
theorem callsOf_program (L : Launch) (r : Request) (sourceRank origin : ℕ) :
    callsOf (r.program L sourceRank origin) = r.calls L sourceRank := by
  cases r <;>
    simp [Request.program, Request.calls, Request.type, Request.body, DistributedCode.serve,
      sendWriteRequest, sendReadRequest, sendCreateFileRequest, sendDeleteFileRequest,
      sendCreateDirectoryRequest, sendDeleteDirectoryRequest, sendRenameRequest, callsOf_sendToOthers,
      callsOf_sendWithBody, callsOf_sendTerminationRequest]

end DagonFs.PeerToPeer
