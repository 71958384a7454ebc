import DagonFs.FileSystem.OtherFiles
import DagonFs.Lib.CString
import DagonFs.PeerToPeer.Operations

/-!
# The packets that carry paths

`RequestSender` copies the paths of an announcement into zero-filled fields of 256 bytes, the two paths of
a rename into one packet, and `DistributedCode` reads them back as C strings.

* `Request.roundTrips_iff`: the paths come back, and the copies stay in their fields, exactly when every
  path leaves a byte for the NUL.
* `cStrings_of_run`: whatever handlers have run, the names that directories keep are C strings, so
  `packet_roundTrips_iff` says so of every announcement.
-/

namespace DagonFs.PeerToPeer

open DagonFs.Lib.CString DagonFs.Lib.Runs

/-- The length of the `char` arrays. -/
def nameSize : ℕ := 256

/-! ### Sending -/

namespace RequestSender

/-- `memcpy` of a name into a packet with one field. -/
def onePath (name : Name) : Option (List UInt8) := memcpy (List.replicate nameSize 0) 0 name

def fileCreationRequest (name : Name) : Option (List UInt8) := onePath name
def fileDeletionRequest (name : Name) : Option (List UInt8) := onePath name
def directoryCreationRequest (dirAbsPath : Name) : Option (List UInt8) := onePath dirAbsPath
def directoryDeletionRequest (dirAbsPath : Name) : Option (List UInt8) := onePath dirAbsPath

/-- The field of the new name follows the one of the old name. -/
def renameRequest (oldName newName : Name) : Option (List UInt8) :=
  (memcpy (List.replicate (nameSize + nameSize) 0) 0 oldName).bind fun packet =>
    memcpy packet nameSize newName

end RequestSender

open RequestSender in
/-- The packet of a request that carries paths. -/
def Request.packet : Request → Option (List UInt8)
  | .createFile name => fileCreationRequest name
  | .deleteFile name => fileDeletionRequest name
  | .createDir dirAbsPath => directoryCreationRequest dirAbsPath
  | .deleteDir dirAbsPath => directoryDeletionRequest dirAbsPath
  | .rename oldName newName => renameRequest oldName newName
  | _ => none

/-! ### Receiving -/

namespace DistributedCode

/-- The name of a packet with one field. -/
def pathOf (packet : List UInt8) : Option Body := (cString packet 0).map .path

def createFile (packet : List UInt8) : Option Body := pathOf packet
def deleteFile (packet : List UInt8) : Option Body := pathOf packet
def createDir (packet : List UInt8) : Option Body := pathOf packet
def deleteDir (packet : List UInt8) : Option Body := pathOf packet

def renameHandler (packet : List UInt8) : Option Body :=
  (cString packet 0).bind fun oldName => (cString packet nameSize).map fun newName =>
    .rename oldName newName

/-- What the handler of a type reads. -/
def read : RequestType → List UInt8 → Option Body
  | .createFile => createFile
  | .deleteFile => deleteFile
  | .createDir => createDir
  | .deleteDir => deleteDir
  | .rename => renameHandler
  | _ => fun _ => none

end DistributedCode

/-- The receiver reads the paths that were sent, and each was copied into its own field. -/
def Request.RoundTrips (r : Request) : Prop :=
  ∃ packet, r.packet = some packet ∧ DistributedCode.read r.type packet = r.body ∧
    ∀ path ∈ r.names, path.length ≤ nameSize

theorem onePath_roundTrips_iff {path : Name} (hclean : 0 ∉ path) :
    (∃ packet, RequestSender.onePath path = some packet ∧
      DistributedCode.pathOf packet = some (.path path) ∧ path.length ≤ nameSize) ↔
        path.length < nameSize := by
  constructor
  · rintro ⟨packet, hpacket, hread, hlength⟩
    rcases Nat.lt_or_eq_of_le hlength with hlt | hfull
    · exact hlt
    · rw [RequestSender.onePath, memcpy_zeros hlength] at hpacket
      obtain rfl := Option.some.inj hpacket
      rw [DistributedCode.pathOf, cString_full hclean hfull] at hread
      cases hread
  · intro hlt
    refine ⟨field nameSize path, memcpy_zeros hlt.le, ?_, hlt.le⟩
    have hread := cString_field hclean hlt []
    rw [List.append_nil] at hread
    rw [DistributedCode.pathOf, hread, Option.map_some]

/-- **The two paths of a rename** come back exactly when both fit: an old path that fills its field is
read on into the new one, and a new path that fills its field has no end. -/
theorem renameRequest_roundTrips_iff {oldName newName : Name} (hold : 0 ∉ oldName)
    (hnew : 0 ∉ newName) (hne : newName ≠ []) :
    (∃ packet, RequestSender.renameRequest oldName newName = some packet ∧
      DistributedCode.renameHandler packet = some (.rename oldName newName) ∧
        oldName.length ≤ nameSize ∧ newName.length ≤ nameSize) ↔
      oldName.length < nameSize ∧ newName.length < nameSize := by
  have hsecond : oldName.length ≤ nameSize → cString (field nameSize oldName ++ field nameSize newName)
      nameSize = cString (field nameSize newName) 0 := by
    intro hle
    rw [cString_drop, List.drop_left' (length_field hle)]
  constructor
  · rintro ⟨packet, hpacket, hread, hle, hle'⟩
    rw [RequestSender.renameRequest, memcpy_two_fields hle hle'] at hpacket
    obtain rfl := Option.some.inj hpacket
    obtain ⟨old, hfirst, hrest⟩ := Option.bind_eq_some_iff.mp hread
    obtain ⟨new, hlast, heq⟩ := Option.map_eq_some_iff.mp hrest
    obtain ⟨rfl, rfl⟩ := Body.rename.inj heq
    rw [hsecond hle] at hlast
    constructor
    · rcases Nat.lt_or_eq_of_le hle with hlt | hfull
      · exact hlt
      · rw [cString_full_append hold hfull, hlast] at hfirst
        have hlonger : old ++ new = old := Option.some.inj hfirst
        exact absurd (List.append_right_eq_self.mp hlonger) hne
    · rcases Nat.lt_or_eq_of_le hle' with hlt | hfull
      · exact hlt
      · rw [cString_full hnew hfull] at hlast
        cases hlast
  · rintro ⟨hlt, hlt'⟩
    refine ⟨_, memcpy_two_fields hlt.le hlt'.le, ?_, hlt.le, hlt'.le⟩
    have hlast := cString_field hnew hlt' []
    rw [List.append_nil] at hlast
    rw [DistributedCode.renameHandler, cString_field hold hlt, hsecond hlt.le, hlast]
    rfl

/-- **What comes back of the paths of a request.** -/
theorem Request.roundTrips_iff {r : Request} (hpaths : r.names ≠ [])
    (hclean : ∀ path ∈ r.names, 0 ∉ path)
    (hne : ∀ oldName newName, r = .rename oldName newName → newName ≠ []) : r.RoundTrips ↔ r.NulTerminated := by
  have hone : ∀ path : Name, 0 ∉ path → ((∃ packet, RequestSender.onePath path = some packet ∧
      DistributedCode.pathOf packet = some (.path path) ∧ ∀ p ∈ [path], p.length ≤ nameSize) ↔
        ∀ p ∈ [path], p.length < nameSize) := by
    intro path hpath
    simpa only [List.forall_mem_singleton] using onePath_roundTrips_iff hpath
  cases r with
  | createFile name => exact hone name (hclean name (List.mem_singleton.mpr rfl))
  | deleteFile name => exact hone name (hclean name (List.mem_singleton.mpr rfl))
  | createDir dirAbsPath => exact hone dirAbsPath (hclean dirAbsPath (List.mem_singleton.mpr rfl))
  | deleteDir dirAbsPath => exact hone dirAbsPath (hclean dirAbsPath (List.mem_singleton.mpr rfl))
  | rename oldName newName =>
    have hboth := renameRequest_roundTrips_iff (hclean oldName (by simp [names]))
      (hclean newName (by simp [names])) (hne oldName newName rfl)
    have hnames : ∀ p : Name → Prop,
        (∀ path ∈ (rename oldName newName).names, p path) ↔ p oldName ∧ p newName := by
      intro p
      simp [names]
    rw [RoundTrips, NulTerminated, hnames, hnames]
    exact hboth
  | write packet => exact absurd rfl hpaths
  | read packet => exact absurd rfl hpaths
  | terminate => exact absurd rfl hpaths

end DagonFs.PeerToPeer

/-! ### C strings in the table -/

namespace DagonFs.FileSystem

open DagonFs.Nodes DagonFs.PeerToPeer

/-- No directory keeps a name with a NUL. -/
def CStrings (fs : FileSystem) : Prop :=
  ∀ (x : ℕ) (i : INode), fs.iNodeManager.iNodes[x]? = some i → 0 ∉ i.dirName

/-- An operation on an inode that puts no NUL into its name. -/
def KeepsCString (f : INode → INode) : Prop := ∀ i, 0 ∉ i.dirName → 0 ∉ (f i).dirName

theorem keepsCString_of_kind {f : INode → INode} (hf : ∀ i, (f i).kind = i.kind) : KeepsCString f := by
  intro i hi
  rwa [INode.dirName, INode.asDirectory, hf]

theorem keepsCString_onDirectory {g : Directory → Directory}
    (hg : ∀ d, 0 ∉ d.dirName → 0 ∉ (g d).dirName) : KeepsCString (onDirectory g) := by
  intro i hi
  obtain ⟨_, _, _, _, k, _⟩ := i
  cases k with
  | directory d => exact hg d hi
  | _ => exact hi

theorem keepsCString_setLink (link : Name) : KeepsCString (setLink link) := by
  intro i hi
  obtain ⟨_, _, _, _, k, _⟩ := i
  cases k <;> exact hi

section Handlers

variable {fs : FileSystem}

theorem CStrings.dirNameOf (h : fs.CStrings) (x : ℕ) : 0 ∉ fs.iNodeManager.dirNameOf x := by
  rw [Nodes.dirNameOf]
  cases hget : fs.iNodeManager.iNodes[x]? with
  | none => exact List.not_mem_nil
  | some i => exact h x i hget

theorem CStrings.modifyINode {f : INode → INode} (hf : KeepsCString f) (h : fs.CStrings) (y : ℕ) :
    (fs.setNodes (fs.iNodeManager.modifyINode y f)).CStrings := by
  intro x i hget
  rw [setNodes, modifyINode_getElem?] at hget
  split at hget
  · obtain ⟨before, hbefore, rfl⟩ := Option.map_eq_some_iff.mp hget
    exact hf before (h x before hbefore)
  · exact h x i hget

theorem CStrings.register {fs' : FileSystem} {type : INodeType} {mode nlink gid uid ino : ℕ}
    (h : fs.CStrings) (hres : fs.registerINode type mode nlink gid uid = some (fs', ino)) :
    fs'.CStrings := by
  have hreg := (registerINode_registered hres).1
  intro x i hget
  by_cases hx : x = ino
  · rw [hx, hreg.get] at hget
    obtain rfl := Option.some.inj hget
    cases type <;> exact List.not_mem_nil
  · rw [hreg.others x hx] at hget
    exact h x i hget

theorem CStrings.updateChild (h : fs.CStrings) (parent : ℕ) (name : Name) (ino : ℕ) :
    (fs.setNodes (fs.iNodeManager.updateChild parent name ino)).CStrings :=
  h.modifyINode (keepsCString_onDirectory (g := fun d => (d.updateChild name ino).1) fun _ hd => hd) parent

theorem CStrings.deleteChild (h : fs.CStrings) (parent : ℕ) (name : Name) :
    (fs.setNodes (fs.iNodeManager.deleteChild parent name)).CStrings :=
  h.modifyINode (keepsCString_onDirectory (g := fun d => (d.deleteChild name).1) fun _ hd => hd) parent

theorem CStrings.replyEntry (h : fs.CStrings) (ino : ℕ) : Ensures CStrings (fs.replyEntry ino) := by
  rw [FileSystem.replyEntry, Option.map_eq_bind]
  apply Ensures.bind
  intro i _
  exact Ensures.some (h.modifyINode (keepsCString_of_kind INode.lookup_kind) ino) _

theorem CStrings.insertChild (h : fs.CStrings) {parent ino : ℕ} {name : Name} {k : FileSystem → Result}
    (hk : ∀ fs₁ : FileSystem, fs₁.CStrings → Ensures CStrings (k fs₁)) :
    Ensures CStrings ((fs.insertChild parent name ino).bind k) := by
  rw [FileSystem.insertChild]
  split
  · intro fs' replies hrun
    cases hrun
  · exact hk _ (h.updateChild parent name ino)

theorem CStrings.withINode (h : fs.CStrings) {type : INodeType} {mode nlink gid uid : ℕ}
    {k : FileSystem → ℕ → Result} (hk : ∀ (fs₁ : FileSystem) ino, fs₁.CStrings → Ensures CStrings (k fs₁ ino)) :
    Ensures CStrings (fs.withINode type mode nlink gid uid k) :=
  Ensures.withINode (fun _ _ hres => h.register hres) fun fs₁ ino h₁ _ _ => hk fs₁ ino h₁

theorem CStrings.makeDirectory (h : fs.CStrings) (parent : ℕ) {name : Name} (hname : 0 ∉ name) :
    Ensures CStrings (Replica.makeDirectory fs parent name) := by
  apply Ensures.withDirectory h
  intro dir
  apply h.withINode
  intro fs₁ ino h₁
  apply h₁.insertChild
  intro fs₂ h₂
  have hlinked := h₂.modifyINode (keepsCString_of_kind INode.addHardLink_kind) parent
  have hplaced := hlinked.modifyINode (keepsCString_onDirectory
    (g := fun d => { d with parentDir := some parent }) fun _ hd => hd) ino
  refine CStrings.replyEntry ?_ ino
  refine hplaced.modifyINode (keepsCString_onDirectory ?_) ino
  intro d _ hmem
  rcases List.mem_append.mp hmem with hmem | hslash
  · rcases List.mem_append.mp hmem with hparent | hin
    · exact hplaced.dirNameOf parent hparent
    · exact hname hin
  · exact absurd (List.mem_singleton.mp hslash) (by decide)

/-- The handlers of the client-server model set no names. -/
theorem CStrings.handle (h : fs.CStrings) (r : Request) : Ensures CStrings (fs.handle r) := by
  cases r with
  | lookup parent name =>
    apply Ensures.withDirectory h
    intro dir
    cases dir.childINodeNumberWithName name with
    | none => exact Ensures.reply h _
    | some ino => exact h.replyEntry ino
  | forget ino nlookup =>
    show Ensures _ (fs.fuseForget ino nlookup)
    rw [fuseForget, Option.map_eq_bind]
    apply Ensures.bind
    intro i _
    have hforgotten := h.modifyINode (keepsCString_of_kind (f := (·.forget nlookup)) fun _ => rfl) ino
    simp only [Function.comp]
    split
    · refine Ensures.some ?_ _
      exact hforgotten
    · exact Ensures.some hforgotten _
  | mknod ctx parent name mode =>
    have hmade : ∀ {fs : FileSystem}, fs.CStrings → ∀ type nlink mode,
        Ensures CStrings (fs.mknodAs ctx parent name type nlink mode) := by
      intro fs h type nlink mode
      exact h.withINode fun fs₁ ino h₁ => h₁.insertChild fun fs₂ h₂ => h₂.replyEntry ino
    apply Ensures.withDirectory h
    intro dir
    apply Ensures.ite (Ensures.reply h _)
    apply Ensures.ite
    · exact hmade (h.modifyINode (keepsCString_of_kind INode.addHardLink_kind) parent) _ _ _
    · exact Ensures.ite (hmade h _ _ _) (Ensures.reply h _)
  | mkdir parent name =>
    apply Ensures.withDirectory h
    intro dir
    apply h.withINode
    intro fs₁ ino h₁
    apply h₁.insertChild
    intro fs₂ h₂
    exact (h₂.modifyINode (keepsCString_of_kind INode.addHardLink_kind) parent).replyEntry ino
  | symlink ctx link parent name =>
    apply Ensures.withDirectory h
    intro dir
    apply h.withINode
    intro fs₁ ino h₁
    apply (h₁.modifyINode (keepsCString_setLink link) ino).insertChild
    intro fs₂ h₂
    exact h₂.replyEntry ino
  | create ctx parent name flags =>
    apply Ensures.withDirectory h
    intro dir
    apply Ensures.ite (Ensures.reply h _)
    apply h.withINode
    intro fs₁ ino h₁
    have hlisted : CStrings { fs₁ with
        blocksManager := fs₁.blocksManager.createEmptyBlockListForInode ino } := h₁
    apply hlisted.insertChild
    intro fs₂ h₂
    rw [Option.map_eq_bind]
    apply Ensures.bind
    intro i _
    refine Ensures.some ?_ _
    have hlooked := h₂.modifyINode (keepsCString_of_kind INode.lookup_kind) ino
    split
    · exact hlooked.modifyINode (keepsCString_of_kind (f := clearSize) fun _ => rfl) ino
    · exact hlooked
  | link ino newparent newname =>
    apply Ensures.withDirectory h
    intro dir
    apply Ensures.ite (Ensures.reply h _)
    rw [Option.map_eq_bind]
    apply Ensures.bind
    rintro ⟨fs₂, replies₂⟩ hentry
    have hnamed := h.updateChild newparent newname ino
    have hlinked := hnamed.modifyINode (keepsCString_of_kind INode.addHardLink_kind) ino
    exact Ensures.some (hlinked.replyEntry ino _ _ hentry) _
  | unlink parent name =>
    apply Ensures.withDirectory h
    intro dir
    cases dir.childINodeNumberWithName name with
    | none => exact Ensures.reply h _
    | some ino =>
      simp only [Option.map_eq_bind]
      apply Ensures.bind
      intro i _
      have hunlinked := h.modifyINode (keepsCString_of_kind INode.removeHardLink_kind) ino
      exact Ensures.some (hunlinked.deleteChild parent name) _
  | rmdir parent name =>
    apply Ensures.withDirectory h
    intro dir
    cases dir.childINodeNumberWithName name with
    | none => exact Ensures.reply h _
    | some ino =>
      apply Ensures.bind
      intro i _
      cases i.asDirectory with
      | none => exact Ensures.reply h _
      | some target =>
        apply Ensures.ite (Ensures.reply h _)
        have hparent := h.modifyINode (keepsCString_of_kind INode.removeHardLink_kind) parent
        have hall := hparent.modifyINode (keepsCString_of_kind INode.removeAllHardLinks_kind) ino
        exact Ensures.some (hall.deleteChild parent name) _
  | rename parent name newparent newname =>
    apply Ensures.withDirectory h
    intro dir
    cases dir.childINodeNumberWithName name with
    | none => exact Ensures.reply h _
    | some ino =>
      apply Ensures.withDirectory h
      intro newDir
      rw [Option.map_eq_bind]
      apply Ensures.bind
      intro ns hns
      have hdisplaced : (fs.setNodes ns).CStrings := by
        rcases displace_cases hns with rfl | rfl
        · exact h
        · have hremoved := h.modifyINode (keepsCString_of_kind INode.removeHardLink_kind) parent
          exact hremoved.modifyINode (keepsCString_of_kind INode.addHardLink_kind) newparent
      exact Ensures.some ((hdisplaced.updateChild newparent newname ino).deleteChild parent name) _

end Handlers

end DagonFs.FileSystem

namespace DagonFs.PeerToPeer

open DagonFs.FileSystem DagonFs.Lib.Runs

/-! ### Runs of a peer -/

/-- The names that the kernel calls a handler with. -/
def Operation.entryNames : Operation → List Name
  | .create _ _ name _ => [name]
  | .unlink _ name => [name]
  | .mkdir _ name => [name]
  | .rmdir _ name => [name]
  | .rename _ name _ newname => [name, newname]

/-- A name is a C string, and not empty. -/
def EntryName (name : Name) : Prop := name ≠ [] ∧ 0 ∉ name

instance (name : Name) : Decidable (EntryName name) := inferInstanceAs (Decidable (_ ∧ _))

/-- What changes the state of a peer: a handler that announces what it does, one of the others, or the MPI
thread, which sets the flag of a request that it has received. -/
inductive PeerCall where
  | told (op : Operation)
  | lookup (parent : ℕ) (name : Name)
  | forget (ino nlookup : ℕ)
  | mknod (ctx : Ids) (parent : ℕ) (name : Name) (mode : ℕ)
  | symlink (ctx : Ids) (link : Name) (parent : ℕ) (name : Name)
  | link (ino newparent : ℕ) (newname : Name)
  | received (type : RequestType)

namespace Replica

variable (r : Replica)

/-- The state after a handler that announces nothing. -/
def silently (request : FileSystem.Request) : Option Replica :=
  (r.fs.handle request).map fun res => { r with fs := res.1 }

def peerStep : PeerCall → Option Replica
  | .told op => (r.handle op).map Outcome.replica
  | .lookup parent name => r.silently (.lookup parent name)
  | .forget ino nlookup => r.silently (.forget ino nlookup)
  | .mknod ctx parent name mode => r.silently (.mknod ctx parent name mode)
  | .symlink ctx link parent name => r.silently (.symlink ctx link parent name)
  | .link ino newparent newname => r.silently (.link ino newparent newname)
  | .received type => some (r.setFromThread type true)

end Replica

/-- The operations among the calls have names that the kernel passes. -/
def PeerCall.Named : PeerCall → Prop
  | .told op => ∀ name ∈ op.entryNames, EntryName name
  | _ => True

variable {fs : FileSystem} {r r' : Replica}

theorem perform_cStrings (h : fs.CStrings) {op : Operation} (hnames : ∀ name ∈ op.entryNames, EntryName name) :
    Ensures CStrings (op.perform fs) := by
  cases op with
  | create ctx parent name flags => exact h.handle (.create ctx parent name flags)
  | unlink parent name => exact h.handle (.unlink parent name)
  | mkdir parent name => exact h.makeDirectory parent (hnames name (List.mem_singleton.mpr rfl)).2
  | rmdir parent name => exact h.handle (.rmdir parent name)
  | rename parent name newparent newname => exact h.handle (.rename parent name newparent newname)

/-- **The step lemma.** -/
theorem cStrings_step {c : PeerCall} (h : r.fs.CStrings) (hnamed : c.Named)
    (hstep : r.peerStep c = some r') : r'.fs.CStrings := by
  have hsilent : ∀ request, r.silently request = some r' → r'.fs.CStrings := by
    intro request hrun
    obtain ⟨⟨fs', replies⟩, hres, rfl⟩ := Option.map_eq_some_iff.mp hrun
    exact h.handle request fs' replies hres
  cases c with
  | told op =>
    obtain ⟨o, ho, rfl⟩ := Option.map_eq_some_iff.mp hstep
    rw [handle_eq] at ho
    obtain ⟨⟨fs', replies⟩, hres, hfinish⟩ := Option.bind_eq_some_iff.mp ho
    rw [(Replica.finish_eq_some hfinish).1]
    exact perform_cStrings h hnamed fs' replies hres
  | received type =>
    obtain rfl := Option.some.inj hstep
    exact h
  | lookup parent name => exact hsilent _ hstep
  | forget ino nlookup => exact hsilent _ hstep
  | mknod ctx parent name mode => exact hsilent _ hstep
  | symlink ctx link parent name => exact hsilent _ hstep
  | link ino newparent newname => exact hsilent _ hstep

theorem cStrings_mounted (process : Ids) : (Replica.mounted process).fs.CStrings := by
  intro x i hget
  match x with
  | 0 =>
    obtain rfl := Option.some.inj hget
    exact List.not_mem_nil
  | 1 =>
    obtain rfl := Option.some.inj hget
    show (0 : UInt8) ∉ [slash]
    decide
  | x + 2 => cases hget

/-- **The names of directories are C strings** in every run. -/
theorem cStrings_of_run {process : Ids} {calls : List PeerCall} (hnamed : ∀ c ∈ calls, c.Named)
    (hrun : run Replica.peerStep (Replica.mounted process) calls = some r) : r.fs.CStrings := by
  refine invariant_run (I := fun r => r.fs.CStrings) ?_ (cStrings_mounted process)
    (along_of_forall hnamed _) hrun
  intro s c s' hs hok hstep
  exact cStrings_step hs hok hstep

/-! ### The announcements -/

/-- The paths of an announcement are made of the names of directories and of the call. -/
theorem request_paths {before after : FileSystem} {op : Operation} (hafter : after.CStrings)
    (hnames : ∀ name ∈ op.entryNames, EntryName name) :
    ∀ path ∈ (op.request before after).names, 0 ∉ path := by
  have hdir := hafter.dirNameOf
  have hchild : ∀ parent name, EntryName name → 0 ∉ after.iNodeManager.dirNameOf parent ++ name := by
    intro parent name hname hmem
    rcases List.mem_append.mp hmem with hparent | hin
    · exact hdir parent hparent
    · exact hname.2 hin
  have hentry : ∀ x : Option ℕ, 0 ∉ x.elim [] after.iNodeManager.dirNameOf := by
    intro x
    cases x with
    | none => exact List.not_mem_nil
    | some x => exact hdir x
  intro path hpath
  cases op with
  | create ctx parent name flags =>
    obtain rfl := List.mem_singleton.mp hpath
    exact hchild parent name (hnames name (List.mem_singleton.mpr rfl))
  | unlink parent name =>
    obtain rfl := List.mem_singleton.mp hpath
    exact hchild parent name (hnames name (List.mem_singleton.mpr rfl))
  | mkdir parent name =>
    obtain rfl := List.mem_singleton.mp hpath
    exact hentry _
  | rmdir parent name =>
    obtain rfl := List.mem_singleton.mp hpath
    exact hentry _
  | rename parent name newparent newname =>
    simp only [Operation.entryNames, List.forall_mem_cons] at hnames
    rcases List.mem_cons.mp hpath with rfl | hlast
    · exact hchild parent name hnames.1
    · obtain rfl := List.mem_singleton.mp hlast
      exact hchild newparent newname hnames.2.1

theorem performed_roundTrips_iff {r : Replica} (h : r.fs.CStrings) {op : Operation}
    (hnames : ∀ name ∈ op.entryNames, EntryName name) {res : FileSystem × List Reply}
    (hperform : op.perform r.fs = some res) :
    (op.request r.fs res.1).RoundTrips ↔ (op.request r.fs res.1).NulTerminated := by
  have hafter : res.1.CStrings := perform_cStrings h hnames res.1 res.2 hperform
  refine Request.roundTrips_iff ?_ (request_paths hafter hnames) ?_
  · cases op <;> exact List.cons_ne_nil _ _
  · intro oldName newName heq
    cases op with
    | rename parent name newparent newname =>
      obtain ⟨-, rfl⟩ := Request.rename.inj heq
      have hnew := (hnames newname (by simp [Operation.entryNames])).1
      exact List.append_ne_nil_of_right_ne_nil _ hnew
    | _ => cases heq

/-- **Path packets.**  In every state that a peer can reach, and for every operation that its handlers
perform, the receivers read the paths that are sent, each from its own field, if and only if no path is
longer than 255 bytes. -/
theorem packet_roundTrips_iff (process : Ids) (calls : List PeerCall) (r : Replica)
    (hnamed : ∀ c ∈ calls, c.Named) (hrun : run Replica.peerStep (Replica.mounted process) calls = some r)
    (op : Operation) (hnames : ∀ name ∈ op.entryNames, EntryName name) (res : FileSystem × List Reply)
    (hperform : op.perform r.fs = some res) :
    (op.request r.fs res.1).RoundTrips ↔
      ∀ path ∈ (op.request r.fs res.1).names, path.length ≤ 255 := by
  rw [performed_roundTrips_iff (cStrings_of_run hnamed hrun) hnames hperform]
  exact forall₂_congr fun path _ => Nat.lt_succ_iff

/-- The rename of a file out of a directory. -/
theorem packet_roundTrips_iff_renamed : ∃ (r : Replica) (res : FileSystem × List Reply),
    run Replica.peerStep (Replica.mounted ⟨0, 0⟩)
      [.told (.mkdir 1 [97]), .told (.create ⟨0, 0⟩ 2 [98] 0)] = some r ∧
    (Operation.rename 2 [98] 1 [99]).perform r.fs = some res ∧
    ((Operation.rename 2 [98] 1 [99]).request r.fs res.1) = .rename [47, 97, 47, 98] [47, 99] ∧
    ((Operation.rename 2 [98] 1 [99]).request r.fs res.1).RoundTrips := by
  have hfacts : ((run Replica.peerStep (Replica.mounted ⟨0, 0⟩)
      [.told (.mkdir 1 [97]), .told (.create ⟨0, 0⟩ 2 [98] 0)]).bind fun r =>
        ((Operation.rename 2 [98] 1 [99]).perform r.fs).map fun res =>
          (Operation.rename 2 [98] 1 [99]).request r.fs res.1) =
      some (.rename [47, 97, 47, 98] [47, 99]) := by decide +kernel
  obtain ⟨r, hrun, hrest⟩ := Option.bind_eq_some_iff.mp hfacts
  obtain ⟨res, hperform, hrequest⟩ := Option.map_eq_some_iff.mp hrest
  refine ⟨r, res, hrun, hperform, hrequest, ?_⟩
  refine (packet_roundTrips_iff ⟨0, 0⟩ _ r ?_ hrun _ (by decide) res hperform).mpr ?_
  · intro c hc
    rcases List.mem_cons.mp hc with rfl | hlast
    · show ∀ name ∈ [_], EntryName name
      decide
    · obtain rfl := List.mem_singleton.mp hlast
      show ∀ name ∈ [_], EntryName name
      decide
  · rw [hrequest]
    decide

/-- **No room for the NUL.**  A file in the root whose name has 255 bytes. -/
theorem not_packet_roundTrips : ¬ ∀ (process : Ids) (calls : List PeerCall) (r : Replica),
    (∀ c ∈ calls, c.Named) → run Replica.peerStep (Replica.mounted process) calls = some r →
    ∀ (op : Operation), (∀ name ∈ op.entryNames, EntryName name) → ∀ res, op.perform r.fs = some res →
      res.2.any Reply.isErr = false → (op.request r.fs res.1).RoundTrips := by
  intro h
  have hnames : ∀ name ∈ (Operation.create ⟨0, 0⟩ 1 (List.replicate 255 97) 0).entryNames,
      EntryName name := by decide +kernel
  have hfacts : ((Operation.create ⟨0, 0⟩ 1 (List.replicate 255 97) 0).perform
      (Replica.mounted ⟨0, 0⟩).fs).map (fun res => (res.2.any Reply.isErr,
        decide ((Operation.create ⟨0, 0⟩ 1 (List.replicate 255 97) 0).request
          (Replica.mounted ⟨0, 0⟩).fs res.1).NulTerminated)) = some (false, false) := by decide +kernel
  obtain ⟨res, hperform, hres⟩ := Option.map_eq_some_iff.mp hfacts
  obtain ⟨haccepted, hfits⟩ := Prod.mk.inj hres
  have htrips := h ⟨0, 0⟩ [] _ (fun _ hc => absurd hc List.not_mem_nil) rfl _ hnames res hperform haccepted
  rw [performed_roundTrips_iff (cStrings_mounted ⟨0, 0⟩) hnames hperform] at htrips
  exact of_decide_eq_false hfits htrips

end DagonFs.PeerToPeer
