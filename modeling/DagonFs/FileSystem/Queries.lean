import DagonFs.FileSystem.ExtendedAttributes

/-!
# The handlers that change nothing

`FuseGetAttr`, `FuseReadLink`, `FuseFsync`, the four handlers on open directories, `FuseStatfs`,
`FuseAccess` and `FuseGetLock`, with how a handler ends (`Outcome`): the reply functions of libfuse that
it has called, and the state that it returns in.

The offset of `FuseReadDir` is the address of an iterator that an earlier call has made; what is at that
address is part of the request (`DirOffset`).  The size of an entry in the buffer is libfuse's
(`entrySize`).
-/

namespace DagonFs

/-- A call of one of libfuse's reply functions. -/
inductive ReplyCall where
  | err
  | none
  | entry
  | create
  | attr
  | readlink
  | open
  | write
  | buf
  | statfs
  | xattr
  deriving DecidableEq

def Reply.call : Reply → ReplyCall
  | .err _ => .err
  | .ok => .err
  | .noReply => .none
  | .entry .. => .entry
  | .create .. => .create
  | .attr _ => .attr
  | .opened => .open
  | .write _ => .write
  | .buf _ => .buf
  | .readlink _ => .readlink
  | .xattr _ => .xattr
  | .statfs _ => .statfs

/-- How a handler ends.  There is no state when it does not return: it aborts, or its behaviour is
undefined from there on. -/
structure Outcome (σ : Type) where
  calls : List ReplyCall
  state : Option σ

namespace Outcome

variable {σ τ : Type}

/-- A handler with a defined end has made the calls of its replies. -/
def of : Option (σ × List Reply) → Outcome σ
  | none => ⟨[], none⟩
  | some (s, replies) => ⟨replies.map Reply.call, some s⟩

def map (f : σ → τ) (o : Outcome σ) : Outcome τ := ⟨o.calls, o.state.map f⟩

/-- The request is answered exactly once, and the handler returns. -/
def AnsweredOnce (o : Outcome σ) : Prop := o.calls.length = 1 ∧ o.state.isSome = true

instance (o : Outcome σ) : Decidable o.AnsweredOnce := inferInstanceAs (Decidable (_ ∧ _))

theorem answeredOnce_one (c : ReplyCall) (s : σ) : (⟨[c], some s⟩ : Outcome σ).AnsweredOnce := ⟨rfl, rfl⟩

theorem not_answeredOnce_undefined (calls : List ReplyCall) :
    ¬ (⟨calls, none⟩ : Outcome σ).AnsweredOnce := fun h => Bool.false_ne_true h.2

theorem answeredOnce_of_iff {res : Option (σ × List Reply)} : (of res).AnsweredOnce ↔
    ∃ s replies, res = some (s, replies) ∧ replies.length = 1 := by
  cases res with
  | none =>
    refine iff_of_false (not_answeredOnce_undefined []) ?_
    intro ⟨_, _, h, _⟩
    cases h
  | some r =>
    obtain ⟨s, replies⟩ := r
    rw [AnsweredOnce, of, List.length_map]
    constructor
    · intro h
      exact ⟨s, replies, rfl, h.1⟩
    · intro ⟨_, _, heq, hlength⟩
      obtain ⟨rfl, rfl⟩ := Prod.mk.inj (Option.some.inj heq)
      exact ⟨hlength, rfl⟩

/-- One call, or no defined end. -/
theorem answeredOnce_ite (p : Prop) [Decidable p] (c : ReplyCall) (s : σ) (calls : List ReplyCall) :
    (if p then ⟨[c], some s⟩ else ⟨calls, none⟩ : Outcome σ).AnsweredOnce ↔ p := by
  split
  · rename_i hp
    exact iff_of_true (answeredOnce_one c s) hp
  · rename_i hp
    exact iff_of_false (not_answeredOnce_undefined calls) hp

theorem answeredOnce_map (f : σ → τ) (o : Outcome σ) : (o.map f).AnsweredOnce ↔ o.AnsweredOnce := by
  rw [AnsweredOnce, AnsweredOnce, map, Option.isSome_map]

/-- Where the handler returns, its state meets `P`. -/
def Ends (P : σ → Prop) (o : Outcome σ) : Prop := ∀ s, o.state = some s → P s

section Ends

variable {P : σ → Prop} {s : σ}

theorem ends_undefined (calls : List ReplyCall) : (⟨calls, none⟩ : Outcome σ).Ends P := by
  intro s h
  cases h

theorem ends_at (calls : List ReplyCall) (h : P s) : (⟨calls, some s⟩ : Outcome σ).Ends P := by
  intro s' hs'
  obtain rfl := Option.some.inj hs'
  exact h

theorem ends_of {res : Option (σ × List Reply)} (h : ∀ s replies, res = some (s, replies) → P s) :
    (of res).Ends P := by
  cases res with
  | none => exact ends_undefined []
  | some r => exact ends_at _ (h r.1 r.2 rfl)

theorem ends_ite {p : Prop} [Decidable p] {o o' : Outcome σ} (h : o.Ends P) (h' : o'.Ends P) :
    (if p then o else o').Ends P := by
  split
  · exact h
  · exact h'

theorem ends_map {f : σ → τ} {P : τ → Prop} {o : Outcome σ} (h : o.Ends fun s => P (f s)) :
    (o.map f).Ends P := by
  intro t ht
  obtain ⟨s, hs, rfl⟩ := Option.map_eq_some_iff.mp ht
  exact h s hs

end Ends

end Outcome

/-- `kReadDirBufSize` and `kReadDirEntriesPerResponse`. -/
def kReadDirBufSize : ℕ := 384
def kReadDirEntriesPerResponse : ℕ := 255

/-- What is at the offset of `FuseReadDir`: it is null, the address of an iterator of the directory, at one
of its entries or at the end, or any other address. -/
inductive DirOffset where
  | null
  | iterator (position : Option Name)
  | other

namespace FileSystem

variable (fs : FileSystem)

/-- `FuseGetAttr` does not return after it has replied that the inode is out of range. -/
def fuseGetAttr (ino : ℕ) : Outcome FileSystem :=
  match fs.iNodeManager.getINodeByINodeNumber ino with
  | none => ⟨[.err], none⟩
  | some inode => .of (fs.reply (.attr inode.attr))

def fuseReadLink (ino : ℕ) : Result :=
  fs.atINode ino fun inode =>
    match inode.kind with
    | .symbolicLink link => fs.reply (.readlink link)
    | _ => fs.reply (.err .eperm)

/-- `FuseFsync` and `FuseFsyncDir`: the file system is in memory. -/
def synced (ino : ℕ) : Result :=
  if fs.iNodeManager.getNumberOfINodes ≤ ino then fs.reply (.err .enoent) else fs.reply .ok

def fuseFsync (ino : ℕ) : Result := fs.synced ino
def fuseFsyncDir (ino : ℕ) : Result := fs.synced ino

/-- The check of `FuseOpenDir` and `FuseReleaseDir`: only a file is refused. -/
def unlessFile (ino : ℕ) (r : Reply) : Result :=
  fs.atINode ino fun inode =>
    match inode.kind with
    | .file _ => fs.reply (.err .enotdir)
    | _ => fs.reply r

def fuseOpenDir (ino : ℕ) : Result := fs.unlessFile ino .opened
def fuseReleaseDir (ino : ℕ) : Result := fs.unlessFile ino .ok

def fuseStatfs : Result := fs.reply (.statfs fs.mStbuf)

/-- `FuseAccess` checks the mask against the bits of others, of the group and of the owner. -/
def fuseAccess (ctx : Ids) (ino mask : ℕ) : Result :=
  fs.atINode ino fun inode =>
    let allows := fun mask => inode.attr.stMode &&& mask == mask
    if inode.isDeleted then fs.reply (.err .enoent)
    else if mask = 0 then fs.reply .ok
    else if allows mask then fs.reply .ok
    else if allows (mask <<< 3) && ctx.gid == inode.attr.stGid then fs.reply .ok
    else if ctx.uid == inode.attr.stUid && allows (mask <<< 3 <<< 3) then fs.reply .ok
    else fs.reply (.err .eacces)

/-- Locking is not implemented: a lock on an inode of the table is not replied to. -/
def fuseGetLock (ino : ℕ) : Outcome FileSystem :=
  if fs.iNodeManager.getNumberOfINodes ≤ ino then .of (fs.reply (.err .enoent)) else ⟨[], some fs⟩

/-! ### Handlers with one reply -/

/-- The handler ends with one reply, and leaves the state as it is. -/
def RepliesOnly (res : Result) : Prop := ∃ r, res = fs.reply r

section RepliesOnly

variable {fs}

/-- It is answered once, in the state it was. -/
theorem RepliesOnly.answeredOnce {res : Result} (h : fs.RepliesOnly res) :
    (Outcome.of res).AnsweredOnce := by
  obtain ⟨r, rfl⟩ := h
  exact Outcome.answeredOnce_one r.call fs

theorem RepliesOnly.ends {res : Result} (h : fs.RepliesOnly res) : (Outcome.of res).Ends (· = fs) := by
  obtain ⟨r, rfl⟩ := h
  exact Outcome.ends_at _ rfl

theorem repliesOnly_reply (r : Reply) : fs.RepliesOnly (fs.reply r) := ⟨r, rfl⟩

theorem repliesOnly_ite {p : Prop} [Decidable p] {res res' : Result} (h : fs.RepliesOnly res)
    (h' : fs.RepliesOnly res') : fs.RepliesOnly (if p then res else res') := by
  split
  · exact h
  · exact h'

theorem repliesOnly_atINode {ino : ℕ} {k : INode → Result} (h : ∀ inode, fs.RepliesOnly (k inode)) :
    fs.RepliesOnly (fs.atINode ino k) := by
  unfold atINode
  split
  · exact repliesOnly_reply _
  · rename_i hino
    rw [Nodes.getINodeByINodeNumber, List.getElem?_eq_getElem (Nat.lt_of_not_le hino)]
    exact h _

theorem fuseReadLink_repliesOnly (ino : ℕ) : fs.RepliesOnly (fs.fuseReadLink ino) := by
  apply repliesOnly_atINode
  intro inode
  cases inode.kind <;> exact repliesOnly_reply _

theorem synced_repliesOnly (ino : ℕ) : fs.RepliesOnly (fs.synced ino) :=
  repliesOnly_ite (repliesOnly_reply _) (repliesOnly_reply _)

theorem unlessFile_repliesOnly (ino : ℕ) (r : Reply) : fs.RepliesOnly (fs.unlessFile ino r) := by
  apply repliesOnly_atINode
  intro inode
  cases inode.kind <;> exact repliesOnly_reply _

theorem fuseGetXAttr_repliesOnly (ino : ℕ) (name : Name) (size : ℕ) :
    fs.RepliesOnly (fs.fuseGetXAttr ino name size) := by
  apply repliesOnly_atINode
  intro inode
  cases inode.mXattr[name]? with
  | none => exact repliesOnly_reply _
  | some value =>
    exact repliesOnly_ite (repliesOnly_reply _) (repliesOnly_ite (repliesOnly_reply _) (repliesOnly_reply _))

theorem fuseAccess_repliesOnly (ctx : Ids) (ino mask : ℕ) :
    fs.RepliesOnly (fs.fuseAccess ctx ino mask) := by
  apply repliesOnly_atINode
  intro inode
  iterate 5 apply repliesOnly_ite (repliesOnly_reply _)
  exact repliesOnly_reply _

end RepliesOnly

/-! ### Handlers that may reply twice, or not at all -/

section Others

variable (ino : ℕ)

/-- The check on the inode number fails, or the handler goes on with the inode. -/
theorem atINode_cases :
    (fs.iNodeManager.iNodes.length ≤ ino ∧ ∀ k, fs.atINode ino k = fs.reply (.err .enoent)) ∨
    ∃ inode, fs.iNodeManager.iNodes[ino]? = some inode ∧ ∀ k, fs.atINode ino k = k inode := by
  by_cases hino : fs.iNodeManager.iNodes.length ≤ ino
  · left
    refine ⟨hino, ?_⟩
    intro k
    rw [atINode, Nodes.getNumberOfINodes, if_pos hino]
  · right
    have hget := List.getElem?_eq_getElem (Nat.lt_of_not_le hino)
    exact ⟨_, hget, atINode_eq hget⟩

theorem fuseGetAttr_ends : (fs.fuseGetAttr ino).Ends (· = fs) := by
  unfold fuseGetAttr
  cases fs.iNodeManager.getINodeByINodeNumber ino with
  | none => exact Outcome.ends_undefined _
  | some inode => exact Outcome.ends_at _ rfl

theorem fuseGetAttr_answeredOnce_iff :
    (fs.fuseGetAttr ino).AnsweredOnce ↔ ino < fs.iNodeManager.getNumberOfINodes := by
  unfold fuseGetAttr
  rw [Nodes.getINodeByINodeNumber, Nodes.getNumberOfINodes]
  cases hget : fs.iNodeManager.iNodes[ino]? with
  | none =>
    have hlen := List.getElem?_eq_none_iff.mp hget
    exact iff_of_false (Outcome.not_answeredOnce_undefined _) (Nat.not_lt.mpr hlen)
  | some inode =>
    exact iff_of_true (Outcome.answeredOnce_one _ fs) (List.getElem?_eq_some_iff.mp hget).1

theorem fuseGetLock_ends : (fs.fuseGetLock ino).Ends (· = fs) :=
  Outcome.ends_ite (Outcome.ends_at _ rfl) (Outcome.ends_at _ rfl)

theorem fuseGetLock_answeredOnce_iff :
    (fs.fuseGetLock ino).AnsweredOnce ↔ fs.iNodeManager.getNumberOfINodes ≤ ino := by
  unfold fuseGetLock
  split
  · rename_i hino
    exact iff_of_true (Outcome.answeredOnce_one _ fs) hino
  · rename_i hino
    refine iff_of_false ?_ hino
    intro h
    cases h.1

/-- A list is replied to twice when its size is asked for. -/
theorem fuseListXAttr_answeredOnce_iff (size : ℕ) (alloc : Bool) :
    (Outcome.of (fs.fuseListXAttr ino size alloc)).AnsweredOnce ↔
      (ino < fs.iNodeManager.getNumberOfINodes → size ≠ 0) := by
  unfold fuseListXAttr
  rcases fs.atINode_cases ino with ⟨hino, hk⟩ | ⟨inode, hget, hk⟩
  · rw [hk]
    exact iff_of_true (Outcome.answeredOnce_one _ fs) fun hlt => absurd hlt (Nat.not_lt.mpr hino)
  · have hlt : ino < fs.iNodeManager.getNumberOfINodes := (List.getElem?_eq_some_iff.mp hget).1
    rw [hk, Outcome.AnsweredOnce, Outcome.of, List.length_map, List.length_append]
    by_cases hsize : size = 0
    · simp [hsize, hlt]
    · simp [hsize]

theorem fuseListXAttr_ends (size : ℕ) (alloc : Bool) :
    (Outcome.of (fs.fuseListXAttr ino size alloc)).Ends (· = fs) := by
  unfold fuseListXAttr
  rcases fs.atINode_cases ino with ⟨-, hk⟩ | ⟨inode, -, hk⟩
  · rw [hk]
    exact Outcome.ends_at _ rfl
  · rw [hk]
    exact Outcome.ends_at _ rfl

end Others

/-! ### Reading a directory -/

section ReadDir

variable (entrySize : Name → ℕ) (bufSize : ℕ)

/-- Whether the loop over the entries left ends.  An entry is added behind the `bytesAdded` bytes that are
in the buffer, and its size is counted also when it does not fit; then the iterator is taken back by one,
which is undefined at the first entry (`first`).  When the count is past the buffer already, the room left
has wrapped around, and the entry is written outside. -/
def fillDir : Bool → List Name → ℕ → ℕ → Bool
  | _, [], _, _ => true
  | first, name :: names, bytesAdded, entriesAdded =>
    if kReadDirEntriesPerResponse ≤ entriesAdded then true
    else if bufSize < bytesAdded then false
    else if bufSize < bytesAdded + entrySize name then !first
    else fillDir false names (bytesAdded + entrySize name) (entriesAdded + 1)

/-- The part of `FuseReadDir` after the buffer is allocated, from a place in the list of the names. -/
def fillFrom (dir : Directory) : DirOffset → Bool
  | .null =>
    -- the second of the two entries is added behind the first, whatever its size is
    entrySize dot ≤ bufSize &&
      fillDir entrySize bufSize true dir.mChildren.keys (entrySize dot + entrySize dotDot) 2
  | .iterator (some name) =>
    let names := dir.mChildren.keys
    fillDir entrySize bufSize (names.head? == some name) (names.dropWhile (· != name)) 0 0
  | _ => false

end ReadDir

/-- `FuseReadDir`; `alloc` says whether its buffer can be allocated, and if not it aborts. -/
def fuseReadDir (entrySize : Name → ℕ) (ino size : ℕ) (off : DirOffset) (alloc : Bool) :
    Outcome FileSystem :=
  if fs.iNodeManager.getNumberOfINodes ≤ ino then ⟨[.err], some fs⟩
  else
    match fs.iNodeManager.directoryAt ino with
    | none => ⟨[.err], some fs⟩
    | some dir =>
      let filled := alloc && fillFrom entrySize (min kReadDirBufSize size) dir off
      let sent : Outcome FileSystem := ⟨[.buf], some fs⟩
      match off with
      | .null => if filled then sent else ⟨[], none⟩
      -- everything has been sent: end with an empty buffer
      | .iterator none => sent
      | .iterator (some name) => if dir.mChildren.contains name && filled then sent else ⟨[], none⟩
      | .other => ⟨[], none⟩

/-- The directory can be read from the offset: the offset is null or a valid iterator, the buffer can be
allocated, the first name from the offset fits it where it is the first of the directory, and at the start
`.` does. -/
def DirReadable (entrySize : Name → ℕ) (dir : Directory) (size : ℕ) (off : DirOffset) (alloc : Bool) :
    Prop :=
  let bufSize := min kReadDirBufSize size
  match off with
  | .null => alloc = true ∧ entrySize dot ≤ bufSize ∧ ∀ name ∈ dir.mChildren.keys.head?,
      entrySize dot + entrySize dotDot + entrySize name ≤ bufSize
  | .iterator none => True
  | .iterator (some name) => dir.mChildren.contains name = true ∧ alloc = true ∧
      (dir.mChildren.keys.head? = some name → entrySize name ≤ bufSize)
  | .other => False

section ReadDir

variable {entrySize : Name → ℕ} {bufSize : ℕ}

/-- Past the first entry the loop ends. -/
theorem fillDir_later (names : List Name) {bytesAdded : ℕ} (entriesAdded : ℕ)
    (h : bytesAdded ≤ bufSize) : fillDir entrySize bufSize false names bytesAdded entriesAdded = true := by
  induction names generalizing bytesAdded entriesAdded with
  | nil => rfl
  | cons name names ih =>
    rw [fillDir, if_neg (Nat.not_lt.mpr h)]
    split
    · rfl
    · split
      · rfl
      · rename_i hfits
        exact ih (entriesAdded + 1) (Nat.le_of_not_lt hfits)

/-- From the first entry the loop ends when that entry fits. -/
theorem fillDir_first (name : Name) (names : List Name) (bytesAdded : ℕ) {entriesAdded : ℕ}
    (h : entriesAdded < kReadDirEntriesPerResponse) :
    fillDir entrySize bufSize true (name :: names) bytesAdded entriesAdded = true ↔
      bytesAdded + entrySize name ≤ bufSize := by
  rw [fillDir, if_neg (Nat.not_le.mpr h)]
  split
  · constructor
    · intro hfalse
      cases hfalse
    · omega
  · split
    · constructor
      · intro hfalse
        cases hfalse
      · omega
    · rename_i hfits
      simp only [fillDir_later names _ (Nat.le_of_not_lt hfits), true_iff]
      exact Nat.le_of_not_lt hfits

theorem fillFrom_null (dir : Directory) : fillFrom entrySize bufSize dir .null = true ↔
    entrySize dot ≤ bufSize ∧ ∀ name ∈ dir.mChildren.keys.head?,
      entrySize dot + entrySize dotDot + entrySize name ≤ bufSize := by
  rw [fillFrom, Bool.and_eq_true, decide_eq_true_eq]
  cases dir.mChildren.keys with
  | nil => simp [fillDir]
  | cons name names =>
    rw [fillDir_first name names _ (by decide)]
    simp

theorem fillFrom_iterator {dir : Directory} {name : Name}
    (hname : dir.mChildren.contains name = true) :
    fillFrom entrySize bufSize dir (.iterator (some name)) = true ↔
      (dir.mChildren.keys.head? = some name → entrySize name ≤ bufSize) := by
  have hmem : name ∈ dir.mChildren.keys := by
    rw [Std.ExtTreeMap.mem_keys, ← Std.ExtTreeMap.contains_iff_mem]
    exact hname
  obtain ⟨rest, hrest⟩ : ∃ rest, dir.mChildren.keys.dropWhile (· != name) = name :: rest := by
    generalize dir.mChildren.keys = names at hmem
    induction names with
    | nil => cases hmem
    | cons k names ih =>
      by_cases hk : k = name
      · exact ⟨names, by rw [List.dropWhile_cons, hk]; simp⟩
      · rcases List.mem_cons.mp hmem with heq | hlater
        · exact absurd heq.symm hk
        · obtain ⟨rest, hrest⟩ := ih hlater
          exact ⟨rest, by rw [List.dropWhile_cons]; simp [hk, hrest]⟩
  simp only [fillFrom, hrest]
  by_cases hfirst : dir.mChildren.keys.head? = some name
  · rw [hfirst, beq_self_eq_true, fillDir_first name rest 0 (by decide), Nat.zero_add]
    simp
  · have hlater : (dir.mChildren.keys.head? == some name) = false := by simpa using hfirst
    rw [hlater, fillDir_later _ _ (Nat.zero_le bufSize)]
    simp [hfirst]

end ReadDir

theorem fuseReadDir_ends (entrySize : Name → ℕ) (ino size : ℕ) (off : DirOffset) (alloc : Bool) :
    (fs.fuseReadDir entrySize ino size off alloc).Ends (· = fs) := by
  unfold fuseReadDir
  refine Outcome.ends_ite (Outcome.ends_at _ rfl) ?_
  cases fs.iNodeManager.directoryAt ino with
  | none => exact Outcome.ends_at _ rfl
  | some dir =>
    cases off with
    | null => exact Outcome.ends_ite (Outcome.ends_at _ rfl) (Outcome.ends_undefined _)
    | iterator position =>
      cases position with
      | none => exact Outcome.ends_at _ rfl
      | some name => exact Outcome.ends_ite (Outcome.ends_at _ rfl) (Outcome.ends_undefined _)
    | other => exact Outcome.ends_undefined _

/-- A directory is replied to exactly when it can be read from the offset. -/
theorem fuseReadDir_answeredOnce_iff (entrySize : Name → ℕ) {ino : ℕ} (size : ℕ) (off : DirOffset)
    (alloc : Bool) : (fs.fuseReadDir entrySize ino size off alloc).AnsweredOnce ↔
      ∀ dir ∈ fs.iNodeManager.directoryAt ino, DirReadable entrySize dir size off alloc := by
  unfold fuseReadDir
  by_cases hino : fs.iNodeManager.getNumberOfINodes ≤ ino
  · have hnone : fs.iNodeManager.directoryAt ino = none := by
      rw [Nodes.directoryAt, List.getElem?_eq_none hino]
      rfl
    rw [if_pos hino, hnone]
    exact iff_of_true (Outcome.answeredOnce_one _ fs) fun _ h => by cases h
  · rw [if_neg hino]
    cases fs.iNodeManager.directoryAt ino with
    | none => exact iff_of_true (Outcome.answeredOnce_one _ fs) fun _ h => by cases h
    | some dir =>
      simp only [Option.mem_def, Option.some.injEq, forall_eq']
      cases off with
      | null =>
        rw [Outcome.answeredOnce_ite, Bool.and_eq_true, fillFrom_null]
        rfl
      | iterator position =>
        cases position with
        | none => exact iff_of_true (Outcome.answeredOnce_one _ fs) trivial
        | some name =>
          rw [Outcome.answeredOnce_ite, Bool.and_eq_true, Bool.and_eq_true, DirReadable]
          exact and_congr_right fun hname => and_congr_right fun _ => fillFrom_iterator hname
      | other => exact iff_of_false (Outcome.not_answeredOnce_undefined []) id

end FileSystem

end DagonFs
