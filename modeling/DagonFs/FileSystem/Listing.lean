import DagonFs.FileSystem.Queries
import DagonFs.Lib.Packing

/-!
# Listing a directory

What `FuseReadDir` sends, and where it leaves the iterator that the next call goes on from.  The iterator is
allocated by the first call of a listing and its address is the offset of every entry, so each later call
finds it where the one before has left it.

An iterator is the name of the entry it is at, and `none` at the end of the map.  The functions here say what
the loop does; `fillDir`, which only asks whether it has a defined end, agrees with them (`isSent_readFirst`,
`isSent_readFrom`).
-/

namespace DagonFs.FileSystem

open DagonFs.Lib.Packing

/-- A name and the inode number that is reported with it. -/
abbrev Entry := Name × ℕ

/-- What the loop of `FuseReadDir` comes to: a reply with entries, and the iterator as it is left; or the
iterator is taken back from the first entry; or bytes outside of the buffer are used. -/
inductive Filled where
  | sent (entries : List Entry) (iterator : Option Name)
  | beforeFirst
  | outside
  deriving DecidableEq

def Filled.isSent : Filled → Bool
  | .sent .. => true
  | _ => false

/-- The reply after an entry that does not fit: the iterator is taken back by one. -/
def backUp (sent : List Entry) : Option Name → Filled
  | none => .beforeFirst
  | some name => .sent sent (some name)

section Loop

variable (entrySize : Name → ℕ) (bufSize : ℕ)

/-- The loop over the entries from the iterator on; `last` is the entry before the iterator. -/
def fillEntries : Option Name → List Entry → ℕ → ℕ → List Entry → Filled
  | _, [], bytesAdded, _, sent => if bufSize < bytesAdded then .outside else .sent sent none
  | last, child :: children, bytesAdded, entriesAdded, sent =>
    if kReadDirEntriesPerResponse ≤ entriesAdded then .sent sent (some child.1)
    else if bufSize < bytesAdded then .outside
    else if bufSize < bytesAdded + entrySize child.1 then backUp sent last
    else
      fillEntries (some child.1) children (bytesAdded + entrySize child.1) (entriesAdded + 1)
        (sent ++ [child])

/-- The first call of a listing: `.` and `..`, and the children from the first on. -/
def readFirst (ino : ℕ) (dir : Directory) : Filled :=
  if bufSize < entrySize dot then .outside
  else
    fillEntries entrySize bufSize none dir.mChildren.toList (entrySize dot + entrySize dotDot) 2
      [(dot, ino), (dotDot, ino)]

/-- The entry before a name. -/
def nameBefore (children : List Entry) (name : Name) : Option Name :=
  ((children.takeWhile (·.1 != name)).getLast?).map Prod.fst

/-- A later call, from where the iterator is.  At the end of the children the reply is empty. -/
def readFrom (dir : Directory) : Option Name → Filled
  | none => .sent [] none
  | some name =>
    let children := dir.mChildren.toList
    fillEntries entrySize bufSize (nameBefore children name) (children.dropWhile (·.1 != name)) 0 0 []

end Loop

/-- What `fuse_add_direntry` returns: 24 bytes and the name, rounded up to a multiple of 8. -/
def direntSize (name : Name) : ℕ := (24 + name.length + 7) / 8 * 8

/-! ### The loop -/

section Fill

variable {entrySize : Name → ℕ} {bufSize : ℕ}

/-- The loop has a defined end as `fillDir` says. -/
theorem isSent_fillEntries (last : Option Name) (children : List Entry) {bytesAdded : ℕ}
    (entriesAdded : ℕ) (sent : List Entry) (h : bytesAdded ≤ bufSize) :
    (fillEntries entrySize bufSize last children bytesAdded entriesAdded sent).isSent =
      fillDir entrySize bufSize last.isNone (children.map Prod.fst) bytesAdded entriesAdded := by
  induction children generalizing last bytesAdded entriesAdded sent with
  | nil =>
    rw [fillEntries, if_neg (Nat.not_lt.mpr h)]
    rfl
  | cons child children ih =>
    rw [fillEntries, List.map_cons, fillDir]
    split
    · rfl
    · rw [if_neg (Nat.not_lt.mpr h), if_neg (Nat.not_lt.mpr h)]
      split
      · cases last <;> rfl
      · rename_i hfits
        exact ih (some child.1) (entriesAdded + 1) _ (Nat.le_of_not_lt hfits)

/-- The iterator is left at an entry, or where it was taken back to. -/
theorem mem_of_fillEntries {last : Option Name} {children : List Entry} {bytesAdded entriesAdded : ℕ}
    {sent entries : List Entry} {name : Name}
    (h : fillEntries entrySize bufSize last children bytesAdded entriesAdded sent =
      .sent entries (some name)) : name ∈ children.map Prod.fst ∨ last = some name := by
  induction children generalizing last bytesAdded entriesAdded sent with
  | nil =>
    rw [fillEntries] at h
    split at h <;> cases h
  | cons child children ih =>
    rw [fillEntries] at h
    split at h
    · injection h with _ hname
      injection hname with hname
      exact Or.inl (hname ▸ List.mem_map_of_mem List.mem_cons_self)
    · split at h
      · cases h
      · split at h
        · cases last with
          | none => cases h
          | some last =>
            injection h with _ hname
            exact Or.inr hname
        · rcases ih h with hmem | hname
          · exact Or.inl (List.mem_map.mpr
              ((List.mem_map.mp hmem).imp fun _ => And.imp_left (List.mem_cons_of_mem child)))
          · injection hname with hname
            exact Or.inl (hname ▸ List.mem_map_of_mem List.mem_cons_self)

/-- **What the loop sends**: as many entries as fit.  The iterator is left at the end when all have been
sent, and at the last entry sent otherwise. -/
theorem fillEntries_eq (hsize : ∀ name, 24 ≤ entrySize name) (hbuf : bufSize ≤ kReadDirBufSize)
    (last : Option Name) (children : List Entry) {bytesAdded entriesAdded : ℕ} (sent : List Entry)
    (hbytes : bytesAdded ≤ bufSize) (hentries : 24 * entriesAdded ≤ bytesAdded) :
    fillEntries entrySize bufSize last children bytesAdded entriesAdded sent =
      let count := packed (fun child => entrySize child.1) (bufSize - bytesAdded) children
      if count = children.length then .sent (sent ++ children) none
      else backUp (sent ++ children.take count) ((((children.take count).getLast?).map Prod.fst).or last) := by
  have hlimit : kReadDirBufSize = 384 := rfl
  induction children generalizing last bytesAdded entriesAdded sent with
  | nil =>
    rw [fillEntries, if_neg (Nat.not_lt.mpr hbytes)]
    simp [packed]
  | cons child children ih =>
    have hmax : kReadDirEntriesPerResponse = 255 := rfl
    have hcount : ¬ kReadDirEntriesPerResponse ≤ entriesAdded := by omega
    rw [fillEntries, if_neg hcount, if_neg (Nat.not_lt.mpr hbytes)]
    by_cases hfits : bufSize < bytesAdded + entrySize child.1
    · have hnone : packed (fun child => entrySize child.1) (bufSize - bytesAdded) (child :: children) = 0 :=
        if_neg (show ¬ entrySize child.1 ≤ bufSize - bytesAdded by omega)
      rw [if_pos hfits, hnone]
      show backUp sent last = backUp (sent ++ []) last
      rw [List.append_nil]
    · have hchild := hsize child.1
      have hroom : bufSize - (bytesAdded + entrySize child.1) =
          bufSize - bytesAdded - entrySize child.1 := by omega
      have hmore : packed (fun child => entrySize child.1) (bufSize - bytesAdded) (child :: children) =
          packed (fun child => entrySize child.1) (bufSize - bytesAdded - entrySize child.1) children + 1 :=
        if_pos (show entrySize child.1 ≤ bufSize - bytesAdded by omega)
      rw [if_neg hfits, ih (some child.1) _ (by omega) (by omega), hroom, hmore]
      generalize packed (fun child => entrySize child.1) (bufSize - bytesAdded - entrySize child.1)
        children = count
      by_cases hall : count = children.length
      · have hlength : count + 1 = (child :: children).length := congrArg (· + 1) hall
        simp only [if_pos hall, if_pos hlength, List.append_assoc, List.singleton_append]
      · have hlength : count + 1 ≠ (child :: children).length := fun h => hall (Nat.succ.inj h)
        simp only [if_neg hall, if_neg hlength, List.append_assoc, List.singleton_append,
          List.take_succ_cons, List.getLast?_cons]
        cases (children.take count).getLast? <;> rfl

end Fill

/-! ### The iterator as an index -/

section Index

variable {entrySize : Name → ℕ} {bufSize : ℕ}

/-- The iterator at an index of the entries. -/
def iteratorAt (children : List Entry) (i : ℕ) : Option Name := (children[i]?).map Prod.fst

/-- What a call comes to that adds `count` of the entries from index `i` on. -/
def added (children sent : List Entry) (i count : ℕ) : Filled :=
  if i + count = children.length then .sent (sent ++ children.drop i) none
  else if i + count = 0 then .beforeFirst
  else .sent (sent ++ (children.drop i).take count) (iteratorAt children (i + count - 1))

/-- In a list without a name twice, what stands before a name is what stands before its index. -/
theorem takeWhile_ne {children : List Entry} (hnodup : (children.map Prod.fst).Nodup) {i : ℕ} {e : Entry}
    (hi : children[i]? = some e) : children.takeWhile (·.1 != e.1) = children.take i := by
  induction children generalizing i with
  | nil => cases hi
  | cons child children ih =>
    rw [List.map_cons, List.nodup_cons] at hnodup
    cases i with
    | zero =>
      obtain rfl := Option.some.inj hi
      simp
    | succ i =>
      have hmem : e ∈ children := List.mem_of_getElem? hi
      have hne : (child.1 != e.1) = true := by
        rw [bne_iff_ne]
        intro h
        exact hnodup.1 (h ▸ List.mem_map_of_mem hmem)
      rw [List.takeWhile_cons, if_pos hne, List.take_succ_cons, ih hnodup.2 hi]

theorem dropWhile_ne {children : List Entry} (hnodup : (children.map Prod.fst).Nodup) {i : ℕ} {e : Entry}
    (hi : children[i]? = some e) : children.dropWhile (·.1 != e.1) = children.drop i := by
  have htake := takeWhile_ne hnodup hi
  have hsplit : children.take i ++ children.dropWhile (·.1 != e.1) = children.take i ++ children.drop i := by
    rw [← htake, List.takeWhile_append_dropWhile, htake, List.take_append_drop]
  exact List.append_cancel_left hsplit

theorem nodup_names (dir : Directory) : (dir.mChildren.toList.map Prod.fst).Nodup := by
  rw [Std.ExtTreeMap.map_fst_toList_eq_keys]
  exact Std.ExtTreeMap.nodup_keys

/-- The last entry added, or else the entry before the iterator, is the one before the next to be added. -/
theorem getLast?_take (children : List Entry) {i count : ℕ} (hi : i + count ≤ children.length)
    (hpos : i + count ≠ 0) :
    ((((children.drop i).take count).getLast?).map Prod.fst).or
      (((children.take i).getLast?).map Prod.fst) = iteratorAt children (i + count - 1) := by
  cases count with
  | zero =>
    rw [Nat.add_zero] at hi hpos
    have hlast : (children.take i).getLast? = children[i - 1]? := by
      rw [List.getLast?_take, if_neg hpos, List.getElem?_eq_getElem (by omega)]
      rfl
    rw [List.take_zero, hlast]
    rfl
  | succ count =>
    have hlast : ((children.drop i).take (count + 1)).getLast? = some children[i + count] := by
      rw [List.getLast?_take, if_neg (Nat.succ_ne_zero count), List.getElem?_drop, Nat.add_sub_cancel,
        List.getElem?_eq_getElem (by omega)]
      rfl
    have hat : iteratorAt children (i + (count + 1) - 1) = some children[i + count].1 := by
      rw [iteratorAt, ← Nat.add_assoc, Nat.add_sub_cancel, List.getElem?_eq_getElem (by omega)]
      rfl
    rw [hlast, hat]
    rfl

/-- `fillEntries` from an index on. -/
theorem fillEntries_drop (hsize : ∀ name, 24 ≤ entrySize name) (hbuf : bufSize ≤ kReadDirBufSize)
    {children : List Entry} {i : ℕ} (hi : i ≤ children.length) {bytesAdded entriesAdded : ℕ}
    (sent : List Entry) (hbytes : bytesAdded ≤ bufSize) (hentries : 24 * entriesAdded ≤ bytesAdded) :
    fillEntries entrySize bufSize (((children.take i).getLast?).map Prod.fst) (children.drop i) bytesAdded
        entriesAdded sent =
      added children sent i
        (packed (fun child => entrySize child.1) (bufSize - bytesAdded) (children.drop i)) := by
  rw [fillEntries_eq hsize hbuf _ _ sent hbytes hentries]
  have hcount : packed (fun child => entrySize child.1) (bufSize - bytesAdded) (children.drop i) ≤
      (children.drop i).length := packed_le_length _ _
  generalize packed (fun child => entrySize child.1) (bufSize - bytesAdded) (children.drop i) = count
    at hcount ⊢
  rw [List.length_drop] at hcount
  unfold added
  by_cases hall : i + count = children.length
  · have hlength : count = (children.drop i).length := by
      rw [List.length_drop]
      omega
    simp only [if_pos hall, if_pos hlength]
  · have hlength : count ≠ (children.drop i).length := by
      rw [List.length_drop]
      omega
    simp only [if_neg hall, if_neg hlength]
    by_cases hzero : i + count = 0
    · obtain ⟨rfl, rfl⟩ : i = 0 ∧ count = 0 := by omega
      rw [if_pos hzero]
      rfl
    · rw [if_neg hzero, getLast?_take children (by omega) hzero]
      have hget : children[i + count - 1]? = some children[i + count - 1] :=
        List.getElem?_eq_getElem (by omega)
      rw [iteratorAt, hget]
      rfl

/-- **The first call** adds, after `.` and `..`, the children that fit behind them. -/
theorem readFirst_eq (hsize : ∀ name, 24 ≤ entrySize name) (hbuf : bufSize ≤ kReadDirBufSize)
    (hdots : entrySize dot + entrySize dotDot ≤ bufSize) (ino : ℕ) (dir : Directory) :
    readFirst entrySize bufSize ino dir =
      added dir.mChildren.toList [(dot, ino), (dotDot, ino)] 0
        (packed (fun child => entrySize child.1) (bufSize - (entrySize dot + entrySize dotDot))
          dir.mChildren.toList) := by
  have hdot := hsize dot
  have hdotDot := hsize dotDot
  rw [readFirst, if_neg (by omega)]
  exact fillEntries_drop hsize hbuf (Nat.zero_le _) _ hdots (by omega)

/-- **A later call** adds, from the entry that the iterator is at, the children that fit. -/
theorem readFrom_eq (hsize : ∀ name, 24 ≤ entrySize name) (hbuf : bufSize ≤ kReadDirBufSize)
    {dir : Directory} {i : ℕ} (hi : i < dir.mChildren.toList.length) :
    readFrom entrySize bufSize dir (iteratorAt dir.mChildren.toList i) =
      added dir.mChildren.toList [] i
        (packed (fun child => entrySize child.1) bufSize (dir.mChildren.toList.drop i)) := by
  have hget : dir.mChildren.toList[i]? = some dir.mChildren.toList[i] := List.getElem?_eq_getElem hi
  have hnodup := nodup_names dir
  rw [iteratorAt, hget]
  show fillEntries entrySize bufSize (nameBefore dir.mChildren.toList _)
    (dir.mChildren.toList.dropWhile (·.1 != _)) 0 0 [] = _
  rw [nameBefore, takeWhile_ne hnodup hget, dropWhile_ne hnodup hget]
  exact fillEntries_drop hsize hbuf (Nat.le_of_lt hi) [] (Nat.zero_le _) (Nat.le_refl _)

/-- The iterator is left at a child. -/
theorem mem_of_readFirst {ino : ℕ} {dir : Directory} {entries : List Entry} {name : Name}
    (h : readFirst entrySize bufSize ino dir = .sent entries (some name)) : name ∈ dir.mChildren := by
  rw [readFirst] at h
  split at h
  · cases h
  · rcases mem_of_fillEntries h with hmem | hnone
    · rwa [Std.ExtTreeMap.map_fst_toList_eq_keys, Std.ExtTreeMap.mem_keys] at hmem
    · cases hnone

theorem mem_of_readFrom {dir : Directory} {iterator : Option Name} {entries : List Entry} {name : Name}
    (h : readFrom entrySize bufSize dir iterator = .sent entries (some name)) : name ∈ dir.mChildren := by
  cases iterator with
  | none => cases h
  | some start =>
    rw [← Std.ExtTreeMap.mem_keys, ← Std.ExtTreeMap.map_fst_toList_eq_keys]
    rcases mem_of_fillEntries h with hmem | hlast
    · exact List.map_subset _ (List.dropWhile_subset _) hmem
    · obtain ⟨last, hget, rfl⟩ := Option.map_eq_some_iff.mp hlast
      exact List.mem_map_of_mem (List.takeWhile_subset _ (List.mem_of_getLast? hget))

/-- Where `.` and `..` do not fit, the first call uses bytes outside of its buffer. -/
theorem readFirst_outside (hdots : ¬ entrySize dot + entrySize dotDot ≤ bufSize) (ino : ℕ)
    (dir : Directory) : readFirst entrySize bufSize ino dir = .outside := by
  have hout : bufSize < entrySize dot + entrySize dotDot := Nat.lt_of_not_le hdots
  rw [readFirst]
  split
  · rfl
  · cases dir.mChildren.toList with
    | nil => rw [fillEntries, if_pos hout]
    | cons child children => rw [fillEntries, if_neg (by decide), if_pos hout]

/-! ### The calls that `fillFrom` says are defined -/

theorem isSent_readFirst (hdots : entrySize dot + entrySize dotDot ≤ bufSize) (ino : ℕ) (dir : Directory) :
    (readFirst entrySize bufSize ino dir).isSent = fillFrom entrySize bufSize dir .null := by
  have hdot : entrySize dot ≤ bufSize := Nat.le_trans (Nat.le_add_right _ _) hdots
  rw [readFirst, if_neg (Nat.not_lt.mpr hdot), isSent_fillEntries _ _ _ _ hdots,
    Std.ExtTreeMap.map_fst_toList_eq_keys, fillFrom, decide_eq_true hdot, Bool.true_and]
  rfl

theorem isNone_nameBefore (children : List Entry) (name : Name) :
    (nameBefore children name).isNone = (children.isEmpty || (children.map Prod.fst).head? == some name) := by
  cases children with
  | nil => rfl
  | cons child children =>
    rw [nameBefore, List.takeWhile_cons]
    by_cases h : child.1 = name
    · simp [h]
    · simp [h, List.getLast?_cons]

theorem isSent_readFrom (dir : Directory) (name : Name) :
    (readFrom entrySize bufSize dir (some name)).isSent =
      fillFrom entrySize bufSize dir (.iterator (some name)) := by
  have hnames : (dir.mChildren.toList.dropWhile (·.1 != name)).map Prod.fst =
      dir.mChildren.keys.dropWhile (· != name) := by
    rw [← Std.ExtTreeMap.map_fst_toList_eq_keys, List.dropWhile_map]
    rfl
  rw [readFrom, isSent_fillEntries _ _ _ _ (Nat.zero_le bufSize), hnames, isNone_nameBefore,
    Std.ExtTreeMap.map_fst_toList_eq_keys, fillFrom]
  cases hempty : dir.mChildren.toList.isEmpty with
  | false => rfl
  | true =>
    have hkeys : dir.mChildren.keys = [] := by
      rw [← Std.ExtTreeMap.map_fst_toList_eq_keys, List.isEmpty_iff.mp hempty]
      rfl
    rw [hkeys]
    rfl

end Index

end DagonFs.FileSystem
