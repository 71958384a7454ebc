import DagonFs.ClientServer.System
import DagonFs.Lib.Runs

/-!
# The protocol of master and nodes

The master calls collectives while it answers requests (`MasterProcessCode`), every other process in the
loop of `NodeProcessCode::start`.  The two programs are written separately: the master's calls are a list
for each action, a node is a state machine over the places where it waits in a collective, and what it
does next depends only on the packets that it has received.  The k-th collective of a process meets the
k-th one of the others, so a node's state after k collectives is the run over the master's first k.

A process that comes to undefined behaviour between two collectives, or ends there, makes only the first
ones of its calls; the k-th of them is the same.

* `write_calls_eq`, `read_calls_eq`: below the bounds of `int` these are the calls of `System.dagonFS_Write`
  and `System.dagonFS_Read`.
* `after_action`: along the collectives of one action every node makes the dual calls, and is back at the
  top of its loop, or has left it.
* `dual_protocols`: along a whole session.
-/

namespace DagonFs.ClientServer

open DagonFs.Lib.Collective DagonFs.Lib.BlockSplit DagonFs.Lib.Runs

inductive RequestType where
  | write
  | read
  | changeDir
  | reduceBlocks
  | terminate
  deriving DecidableEq

/-- What the master broadcasts. -/
inductive Packet where
  | request (type : RequestType)
  | ioRequest (packet : IORequestPacket)
  deriving DecidableEq

/-- `sizeof(RequestPacket)` and `sizeof(IORequestPacket)`. -/
def sizeofRequestPacket : ℕ := 4
def sizeofIORequestPacket : ℕ := 32

def Packet.size : Packet → ℕ
  | .request _ => sizeofRequestPacket
  | .ioRequest _ => sizeofIORequestPacket

/-- A collective as one process calls it. -/
inductive Collective where
  | bcast (count root : ℕ)
  | scatterv (call : VectorCall)
  | gatherv (call : VectorCall)

/-- A collective of the master, with the packet of a broadcast. -/
inductive MasterCall where
  | bcast (packet : Packet) (root : ℕ)
  | scatterv (call : VectorCall)
  | gatherv (call : VectorCall)

/-! ### The arrays

Sizes are `size_t`, numbers of blocks `unsigned int`, and the entries of the arrays `int`, each given by
its 32 bits. -/

/-- A value converted to 32 bits. -/
def to32 (n : ℕ) : ℕ := n % 2 ^ 32

/-- `blockPerProcess + (i < remainingBlocks)`, in blocks of `width` bytes, for every `i`. -/
def countsFor (L : Launch) (blocks width : ℕ) : Layout :=
  let blockPerProcess := to32 (blocks / L.mpiWorldSize)
  let remainingBlocks := to32 (blocks % L.mpiWorldSize)
  fillLayout (fun i => to32 ((blockPerProcess + if i < remainingBlocks then 1 else 0) * width))
    L.mpiWorldSize

namespace MasterProcessCode

variable (L : Launch) (ioRequest : IORequestPacket)

def sendWriteRequest : List MasterCall := [.bcast (.request .write) 0]
def sendReadRequest : List MasterCall := [.bcast (.request .read) 0]
def sendTermination : List MasterCall := [.bcast (.request .terminate) 0]
def sendChangedir : List MasterCall := [.bcast (.request .changeDir) 0]

/-- The packet of a write has only the inode and the file size set. -/
def dagonFS_Write : List MasterCall :=
  let numberOfBlocks := to32 (numberOfBlocks L.blockSize ioRequest.fileSize)
  [.bcast (.ioRequest ioRequest) 0,
    .scatterv (.own 0 (countsFor L numberOfBlocks L.blockSize) 0),
    .gatherv (.own 0 (countsFor L numberOfBlocks pointerPacketSize) 0)]

/-- An empty file is not read. -/
def dagonFS_Read : List MasterCall :=
  .bcast (.ioRequest ioRequest) 0 ::
    if ioRequest.fileSize = 0 then []
    else
      let blocks := numberOfBlocksForRequest L.blockSize ioRequest.fileSize ioRequest.reqSize
      [.scatterv (.inPlace 0 (countsFor L blocks pointerPacketSize)),
        .gatherv (.own 0 (countsFor L blocks L.blockSize) 0)]

end MasterProcessCode

/-- What the file system has the master do between its start and its end. -/
inductive Action where
  | read (ioRequest : IORequestPacket)
  | write (ioRequest : IORequestPacket)

def Action.calls (L : Launch) : Action → List MasterCall
  | .read ioRequest => MasterProcessCode.sendReadRequest ++ MasterProcessCode.dagonFS_Read L ioRequest
  | .write ioRequest => MasterProcessCode.sendWriteRequest ++ MasterProcessCode.dagonFS_Write L ioRequest

/-- The collectives of the master up to the end of some actions: `FuseInit` sends the change of
directory. -/
def callsUntil (L : Launch) (actions : List Action) : List MasterCall :=
  MasterProcessCode.sendChangedir ++ actions.flatMap (Action.calls L)

/-- The collectives of the master in a whole session. -/
def sessionCalls (L : Launch) (actions : List Action) : List MasterCall :=
  callsUntil L actions ++ MasterProcessCode.sendTermination

namespace NodeProcessCode

/-- Where a node is: at the top of its loop, in the broadcast of an `ioRequest`, in one of the vector
collectives of `DAGonFS_Write` and `DAGonFS_Read`, or after the loop. -/
inductive Location where
  | top
  | ioRequest (type : RequestType)
  | writeScatterv (ioRequest : IORequestPacket)
  | writeGatherv (ioRequest : IORequestPacket)
  | readScatterv (ioRequest : IORequestPacket)
  | readGatherv (ioRequest : IORequestPacket)
  | left
  deriving DecidableEq

variable (L : Launch) (rank : ℕ)

/-- The collective that a node waits in. -/
def call : Location → Option Collective
  | .top => some (.bcast sizeofRequestPacket 0)
  | .ioRequest _ => some (.bcast sizeofIORequestPacket 0)
  | .writeScatterv ioRequest =>
    let numberOfBlocks := to32 (numberOfBlocks L.blockSize ioRequest.fileSize)
    some (.scatterv (.own 0 (countsFor L numberOfBlocks L.blockSize) rank))
  | .writeGatherv ioRequest =>
    let numberOfBlocks := to32 (numberOfBlocks L.blockSize ioRequest.fileSize)
    some (.gatherv (.own 0 (countsFor L numberOfBlocks pointerPacketSize) rank))
  | .readScatterv ioRequest =>
    let blocks := numberOfBlocksForRequest L.blockSize ioRequest.fileSize ioRequest.reqSize
    some (.scatterv (.own 0 (countsFor L blocks pointerPacketSize) rank))
  | .readGatherv ioRequest =>
    let blocks := numberOfBlocksForRequest L.blockSize ioRequest.fileSize ioRequest.reqSize
    some (.gatherv (.own 0 (countsFor L blocks L.blockSize) rank))
  | .left => none

/-- `switch (request.type)`. -/
def switch : RequestType → Location
  | .write => .ioRequest .write
  | .read => .ioRequest .read
  | .terminate => .left
  | _ => .top

/-- Where a node is after a collective of the master; `none` when the node is in another one, or receives
a packet of another kind. -/
def next : Location → MasterCall → Option Location
  | .top, .bcast (.request type) _ => some (switch type)
  | .ioRequest .write, .bcast (.ioRequest packet) _ => some (.writeScatterv packet)
  | .ioRequest .read, .bcast (.ioRequest packet) _ =>
    if packet.fileSize = 0 then some .top else some (.readScatterv packet)
  | .writeScatterv packet, .scatterv _ => some (.writeGatherv packet)
  | .writeGatherv _, .gatherv _ => some .top
  | .readScatterv packet, .scatterv _ => some (.readGatherv packet)
  | .readGatherv _, .gatherv _ => some .top
  | _, _ => none

end NodeProcessCode

/-- A collective of the master and the one of the node `rank` that it meets: of the same kind, with root 0,
the same message size, and the count that the master's array has for the node. -/
def Dual (rank : ℕ) : MasterCall → Collective → Prop
  | .bcast packet root, .bcast count root' => root = 0 ∧ root' = 0 ∧ packet.size = count
  | .scatterv master, .scatterv node => master.root = 0 ∧ node.root = 0 ∧
      node.localCount = some (entry master.layout.counts rank)
  | .gatherv master, .gatherv node => master.root = 0 ∧ node.root = 0 ∧
      node.localCount = some (entry master.layout.counts rank)
  | _, _ => False

/-- The node waits in the dual of the master's collective. -/
def Meets (L : Launch) (rank : ℕ) (location : NodeProcessCode.Location) (c : MasterCall) : Prop :=
  ∃ c', NodeProcessCode.call L rank location = some c' ∧ Dual rank c c'

/-! ### Sizes below the bounds of the types -/

theorem to32_of_lt {n : ℕ} (h : n < 2 ^ 32) : to32 n = n := Nat.mod_eq_of_lt h

/-- Where no entry is out of range the arrays are those of the exact numbers. -/
theorem countsFor_eq {L : Launch} {blocks width : ℕ} (hwidth : 0 < width)
    (hfits : blocks * width < 2 ^ 31) (hranks : L.mpiWorldSize < 2 ^ 31) :
    countsFor L blocks width = blockLayout L blocks width := by
  have hblocks : blocks ≤ blocks * width := Nat.le_mul_of_pos_right blocks hwidth
  have hquotient : to32 (blocks / L.mpiWorldSize) = blocks / L.mpiWorldSize := by
    apply to32_of_lt
    have := Nat.div_le_self blocks L.mpiWorldSize
    omega
  have hremainder : to32 (blocks % L.mpiWorldSize) = blocks % L.mpiWorldSize := by
    apply to32_of_lt
    have := Nat.mod_lt blocks L.worldSize_pos
    omega
  have hcount : ∀ i, to32 (share blocks L.mpiWorldSize i * width) =
      share blocks L.mpiWorldSize i * width := by
    intro i
    apply to32_of_lt
    have hshare : share blocks L.mpiWorldSize i ≤ blocks := by
      rw [share]
      have hsum := Nat.div_add_mod blocks L.mpiWorldSize
      have hle := Nat.le_mul_of_pos_left (blocks / L.mpiWorldSize) L.worldSize_pos
      split <;> omega
    have := Nat.mul_le_mul_right width hshare
    omega
  simp only [countsFor, hquotient, hremainder]
  exact congrArg (fillLayout · L.mpiWorldSize) (funext hcount)

section Small

variable {L : Launch} {ioRequest : IORequestPacket}

/-- In a file of less than 2 GiB the calls of a write are those of `System.dagonFS_Write`. -/
theorem write_calls_eq (hblock : pointerPacketSize ≤ L.blockSize) (hranks : L.mpiWorldSize < 2 ^ 31)
    (hfits : numberOfBlocks L.blockSize ioRequest.fileSize * L.blockSize < 2 ^ 31) :
    MasterProcessCode.dagonFS_Write L ioRequest =
        [.bcast (.ioRequest ioRequest) 0,
          .scatterv (DagonFs.MasterProcessCode.writeScatter L ioRequest.fileSize),
          .gatherv (DagonFs.MasterProcessCode.writeGather L ioRequest.fileSize)] ∧
      ∀ rank, NodeProcessCode.call L rank (.writeScatterv ioRequest) =
          some (.scatterv (DagonFs.NodeProcessCode.writeScatter L rank ioRequest.fileSize)) ∧
        NodeProcessCode.call L rank (.writeGatherv ioRequest) =
          some (.gatherv (DagonFs.NodeProcessCode.writeGather L rank ioRequest.fileSize)) := by
  have hpackets := (Nat.mul_le_mul_left (numberOfBlocks L.blockSize ioRequest.fileSize) hblock).trans_lt
    hfits
  have hwidth : 0 < pointerPacketSize := by decide
  have hblocks : to32 (numberOfBlocks L.blockSize ioRequest.fileSize) =
      numberOfBlocks L.blockSize ioRequest.fileSize := by
    apply to32_of_lt
    have := Nat.le_mul_of_pos_right (numberOfBlocks L.blockSize ioRequest.fileSize) L.blockSize_pos
    omega
  simp only [MasterProcessCode.dagonFS_Write, NodeProcessCode.call, hblocks,
    countsFor_eq L.blockSize_pos hfits hranks, countsFor_eq hwidth hpackets hranks]
  exact ⟨rfl, fun _ => ⟨rfl, rfl⟩⟩

/-- In a request of less than 2 GiB the calls of a read are those of `System.dagonFS_Read`. -/
theorem read_calls_eq (hblock : pointerPacketSize ≤ L.blockSize) (hranks : L.mpiWorldSize < 2 ^ 31)
    (hpos : ioRequest.fileSize ≠ 0) {blocks : ℕ}
    (hblocks : numberOfBlocksForRequest L.blockSize ioRequest.fileSize ioRequest.reqSize = blocks)
    (hfits : blocks * L.blockSize < 2 ^ 31) :
    MasterProcessCode.dagonFS_Read L ioRequest =
        [.bcast (.ioRequest ioRequest) 0, .scatterv (DagonFs.MasterProcessCode.readScatter L blocks),
          .gatherv (DagonFs.MasterProcessCode.readGather L blocks)] ∧
      ∀ rank, NodeProcessCode.call L rank (.readScatterv ioRequest) =
          some (.scatterv (DagonFs.NodeProcessCode.readScatter L rank blocks)) ∧
        NodeProcessCode.call L rank (.readGatherv ioRequest) =
          some (.gatherv (DagonFs.NodeProcessCode.readGather L rank blocks)) := by
  have hpackets := (Nat.mul_le_mul_left blocks hblock).trans_lt hfits
  have hwidth : 0 < pointerPacketSize := by decide
  rw [MasterProcessCode.dagonFS_Read, if_neg hpos]
  simp only [NodeProcessCode.call, hblocks, countsFor_eq L.blockSize_pos hfits hranks,
    countsFor_eq hwidth hpackets hranks]
  exact ⟨rfl, fun _ => ⟨rfl, rfl⟩⟩

end Small

/-! ### One action -/

variable {L : Launch} {rank : ℕ}

theorem meets_bcast {location : NodeProcessCode.Location} {packet : Packet}
    (h : NodeProcessCode.call L rank location = some (.bcast packet.size 0)) :
    Meets L rank location (.bcast packet 0) := ⟨_, h, rfl, rfl, rfl⟩

theorem meets_scatterv {location : NodeProcessCode.Location} {call : VectorCall} (hroot : call.root = 0)
    (h : NodeProcessCode.call L rank location = some (.scatterv (.own 0 call.layout rank))) :
    Meets L rank location (.scatterv call) := ⟨_, h, hroot, rfl, rfl⟩

theorem meets_gatherv {location : NodeProcessCode.Location} {call : VectorCall} (hroot : call.root = 0)
    (h : NodeProcessCode.call L rank location = some (.gatherv (.own 0 call.layout rank))) :
    Meets L rank location (.gatherv call) := ⟨_, h, hroot, rfl, rfl⟩

/-- The collectives of a request find every node at the top of its loop, meet its dual calls, and leave it
there again. -/
theorem after_action (L : Launch) (rank : ℕ) (action : Action) :
    Along NodeProcessCode.next (Meets L rank) .top (action.calls L) ∧
      run NodeProcessCode.next .top (action.calls L) = some .top := by
  cases action with
  | write ioRequest =>
    refine ⟨?_, rfl⟩
    apply Along.cons (meets_bcast rfl) rfl
    apply Along.cons (meets_bcast rfl) rfl
    apply Along.cons (meets_scatterv rfl rfl) rfl
    apply Along.cons (meets_gatherv rfl rfl) rfl
    trivial
  | read ioRequest =>
    -- both programs return early for an empty file
    by_cases hzero : ioRequest.fileSize = 0
    · have hcalls : (Action.read ioRequest).calls L =
          [.bcast (.request .read) 0, .bcast (.ioRequest ioRequest) 0] := by
        rw [Action.calls, MasterProcessCode.dagonFS_Read, if_pos hzero]
        rfl
      have hnext : NodeProcessCode.next (.ioRequest .read) (.bcast (.ioRequest ioRequest) 0) =
          some .top := if_pos hzero
      rw [hcalls]
      constructor
      · apply Along.cons (meets_bcast rfl) rfl
        apply Along.cons (meets_bcast rfl) hnext
        trivial
      · show (NodeProcessCode.next (.ioRequest .read) _).bind some = _
        rw [hnext]
        rfl
    · have hcalls : (Action.read ioRequest).calls L =
          [.bcast (.request .read) 0, .bcast (.ioRequest ioRequest) 0,
            .scatterv (.inPlace 0 (countsFor L
              (numberOfBlocksForRequest L.blockSize ioRequest.fileSize ioRequest.reqSize) pointerPacketSize)),
            .gatherv (.own 0 (countsFor L (numberOfBlocksForRequest L.blockSize ioRequest.fileSize
              ioRequest.reqSize) L.blockSize) 0)] := by
        rw [Action.calls, MasterProcessCode.dagonFS_Read, if_neg hzero]
        rfl
      have hnext : NodeProcessCode.next (.ioRequest .read) (.bcast (.ioRequest ioRequest) 0) =
          some (.readScatterv ioRequest) := if_neg hzero
      rw [hcalls]
      constructor
      · apply Along.cons (meets_bcast rfl) rfl
        apply Along.cons (meets_bcast rfl) hnext
        apply Along.cons (meets_scatterv rfl rfl) rfl
        apply Along.cons (meets_gatherv rfl rfl) rfl
        trivial
      · show (NodeProcessCode.next (.ioRequest .read) _).bind (run NodeProcessCode.next · _) = _
        rw [hnext]
        rfl

/-! ### Whole sessions -/

theorem after_actions (L : Launch) (rank : ℕ) (actions : List Action) :
    Along NodeProcessCode.next (Meets L rank) .top (actions.flatMap (Action.calls L)) ∧
      run NodeProcessCode.next .top (actions.flatMap (Action.calls L)) = some .top := by
  induction actions with
  | nil => exact ⟨trivial, rfl⟩
  | cons action actions ih =>
    obtain ⟨hmeets, hrun⟩ := after_action L rank action
    rw [List.flatMap_cons]
    constructor
    · refine along_append.mpr ⟨hmeets, fun location hlocation => ?_⟩
      obtain rfl := Option.some.inj (hrun.symm.trans hlocation)
      exact ih.1
    · rw [run_append, hrun]
      exact ih.2

/-- After the collectives of the first actions every node is at the top of its loop. -/
theorem after_callsUntil (L : Launch) (rank : ℕ) (actions : List Action) :
    Along NodeProcessCode.next (Meets L rank) .top (callsUntil L actions) ∧
      run NodeProcessCode.next .top (callsUntil L actions) = some .top := by
  obtain ⟨hmeets, hrun⟩ := after_actions L rank actions
  exact ⟨Along.cons (meets_bcast rfl) rfl hmeets, hrun⟩

/-- **Master and nodes run dual protocols.**  In every session and at every node: the k-th collective of
the master meets its dual, the k-th of the node, so the node has not left its loop; it is at the top of its
loop at the end of every action; and it has left, without a further collective, at the end of the
session. -/
theorem dual_protocols (L : Launch) (rank : ℕ) (actions : List Action) :
    (∀ k c, (sessionCalls L actions)[k]? = some c → ∃ location,
        run NodeProcessCode.next .top ((sessionCalls L actions).take k) = some location ∧
          Meets L rank location c) ∧
      (∀ done later, actions = done ++ later → callsUntil L done <+: sessionCalls L actions ∧
        run NodeProcessCode.next .top (callsUntil L done) = some .top) ∧
      run NodeProcessCode.next .top (sessionCalls L actions) = some .left ∧
      NodeProcessCode.call L rank .left = none := by
  obtain ⟨hmeets, hrun⟩ := after_callsUntil L rank actions
  have hall : Along NodeProcessCode.next (Meets L rank) .top (sessionCalls L actions) := by
    refine along_append.mpr ⟨hmeets, fun location hlocation => ?_⟩
    obtain rfl := Option.some.inj (hrun.symm.trans hlocation)
    exact Along.cons (meets_bcast rfl) rfl trivial
  have hend : run NodeProcessCode.next .top (sessionCalls L actions) = some .left := by
    rw [sessionCalls, run_append, hrun]
    rfl
  refine ⟨?_, ?_, hend, rfl⟩
  · intro k c hc
    obtain ⟨hk, hget⟩ := List.getElem?_eq_some_iff.mp hc
    have hsplit : sessionCalls L actions =
        (sessionCalls L actions).take k ++ c :: (sessionCalls L actions).drop (k + 1) := by
      rw [← hget, List.cons_getElem_drop_succ, List.take_append_drop]
    rw [hsplit, run_append] at hend
    obtain ⟨location, hlocation, -⟩ := Option.bind_eq_some_iff.mp hend
    rw [hsplit] at hall
    exact ⟨location, hlocation, ((along_append.mp hall).2 location hlocation).1⟩
  · intro done later hactions
    refine ⟨?_, (after_callsUntil L rank done).2⟩
    rw [hactions, sessionCalls, callsUntil, callsUntil, List.flatMap_append, ← List.append_assoc,
      List.append_assoc _ _ MasterProcessCode.sendTermination]
    exact List.prefix_append _ _

end DagonFs.ClientServer
