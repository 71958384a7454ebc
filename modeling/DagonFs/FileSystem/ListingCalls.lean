import DagonFs.FileSystem.Listing
import DagonFs.Lib.Runs

/-!
# A listing by calls

A caller lists a directory that does not change: its first call has a null offset, each later one the offset
that the reply before carries, and an empty reply ends the listing.

When an entry does not fit, the iterator is taken back to the last entry that was sent, and the next call
sends that entry again.  So a listing reports every child once exactly when one reply holds all of it
(`reportsOnce_iff`), and it goes on only where that entry and the next fit one buffer (`endsInTime_iff`).
-/

namespace DagonFs.Listing

open DagonFs.FileSystem DagonFs.Lib.Packing DagonFs.Lib.Runs

/-- Where a caller is in its listing. -/
inductive Caller where
  | first
  | next (iterator : Option Name)
  | finished
  deriving DecidableEq

/-- What a caller makes of a reply. -/
def received : Filled → Option (Caller × List Entry)
  | .sent [] _ => some (.finished, [])
  | .sent (entry :: entries) iterator => some (.next iterator, entry :: entries)
  | _ => none

section Calls

variable (ino : ℕ) (dir : Directory)

/-- One call with a request size.  After an empty reply there are no more calls. -/
def call : Caller → ℕ → Option (Caller × List Entry)
  | .first, size => received (readFirst direntSize (min kReadDirBufSize size) ino dir)
  | .next iterator, size => received (readFrom direntSize (min kReadDirBufSize size) dir iterator)
  | .finished, _ => some (.finished, [])

/-- The replies to the first `n` calls, and where the caller is then. -/
def listing (sizes : ℕ → ℕ) (n : ℕ) : List (List Entry) × Option Caller :=
  answers (call ino dir) .first ((List.range n).map sizes)

/-- `.` and `..`, and the children. -/
def entries : List Entry := (dot, ino) :: (dotDot, ino) :: dir.mChildren.toList

/-- From some number of calls on, the replies hold each entry once and nothing else. -/
def ReportsOnce (sizes : ℕ → ℕ) : Prop :=
  ∃ N, ∀ n, N ≤ n → ∃ caller, (listing ino dir sizes n).2 = some caller ∧
    (listing ino dir sizes n).1.flatten.Perm (entries ino dir)

/-- Between two calls the iterator has moved on by at least one child. -/
def Advances (sizes : ℕ → ℕ) : Prop :=
  ∀ n i j, i ≤ dir.mChildren.toList.length → j ≤ dir.mChildren.toList.length →
    (listing ino dir sizes n).2 = some (.next (iteratorAt dir.mChildren.toList i)) →
    (listing ino dir sizes (n + 1)).2 = some (.next (iteratorAt dir.mChildren.toList j)) → i < j

/-- The listing ends within one call for each child and two more, and advances up to its end. -/
def EndsInTime (sizes : ℕ → ℕ) : Prop :=
  (listing ino dir sizes (dir.mChildren.size + 2)).2 = some .finished ∧ Advances ino dir sizes

end Calls

/-- The first child fits the buffer behind `.` and `..`, and each child together with the next one. -/
def NeighboursFit (bufSize : ℕ) (dir : Directory) : Prop :=
  (∀ child ∈ dir.mChildren.toList.head?, direntSize dot + direntSize dotDot + direntSize child.1 ≤ bufSize) ∧
    dir.mChildren.toList.IsChain fun child next => direntSize child.1 + direntSize next.1 ≤ bufSize

theorem le_direntSize (name : Name) : 24 ≤ direntSize name := by
  unfold direntSize
  omega

/-! ### One call -/

section OneCall

variable (ino : ℕ) {dir : Directory} {bufSize size : ℕ}

theorem received_added_all {children sent : List Entry} {i count : ℕ} (hall : i + count = children.length)
    (hsent : sent ++ children.drop i ≠ []) :
    received (added children sent i count) =
      some (.next (iteratorAt children children.length), sent ++ children.drop i) := by
  rw [added, if_pos hall, iteratorAt, List.getElem?_eq_none (Nat.le_refl _)]
  cases hcons : sent ++ children.drop i with
  | nil => exact absurd hcons hsent
  | cons entry rest => rfl

theorem received_added_some {children sent : List Entry} {i count : ℕ} (hall : i + count < children.length)
    (hcount : 0 < count) :
    received (added children sent i count) =
      some (.next (iteratorAt children (i + count - 1)), sent ++ (children.drop i).take count) := by
  have hsent : sent ++ (children.drop i).take count ≠ [] := by
    intro h
    have hlength := congrArg List.length h
    simp only [List.length_append, List.length_take, List.length_drop, List.length_nil] at hlength
    omega
  rw [added, if_neg (Nat.ne_of_lt hall), if_neg (by omega)]
  cases hcons : sent ++ (children.drop i).take count with
  | nil => exact absurd hcons hsent
  | cons entry rest => rfl

theorem iteratorAt_inj {i j : ℕ} (hi : i ≤ dir.mChildren.toList.length)
    (hj : j ≤ dir.mChildren.toList.length)
    (h : iteratorAt dir.mChildren.toList i = iteratorAt dir.mChildren.toList j) : i = j := by
  have hnodup := nodup_names dir
  rw [iteratorAt, iteratorAt, ← List.getElem?_map, ← List.getElem?_map] at h
  rcases Nat.lt_or_eq_of_le hi with hi' | rfl
  · exact (List.getElem?_inj (by rwa [List.length_map]) hnodup).mp h
  · rw [List.getElem?_eq_none (by rw [List.length_map]), eq_comm, List.getElem?_eq_none_iff,
      List.length_map] at h
    exact Nat.le_antisymm h hj

/-- The size of the entry of a child. -/
abbrev childSize (child : Entry) : ℕ := direntSize child.1

theorem call_first (hsize : min kReadDirBufSize size = bufSize)
    (hdots : direntSize dot + direntSize dotDot ≤ bufSize) :
    call ino dir .first size = received (added dir.mChildren.toList [(dot, ino), (dotDot, ino)] 0
      (packed childSize (bufSize - (direntSize dot + direntSize dotDot)) dir.mChildren.toList)) := by
  have hbuf : bufSize ≤ kReadDirBufSize := hsize ▸ Nat.min_le_left _ _
  rw [call, hsize, readFirst_eq le_direntSize hbuf hdots]

theorem call_next (hsize : min kReadDirBufSize size = bufSize) {i : ℕ}
    (hi : i < dir.mChildren.toList.length) :
    call ino dir (.next (iteratorAt dir.mChildren.toList i)) size =
      received (added dir.mChildren.toList [] i
        (packed childSize bufSize (dir.mChildren.toList.drop i))) := by
  have hbuf : bufSize ≤ kReadDirBufSize := hsize ▸ Nat.min_le_left _ _
  rw [call, hsize, readFrom_eq le_direntSize hbuf hi]

/-- A call from the end gets an empty reply. -/
theorem call_end : call ino dir (.next (iteratorAt dir.mChildren.toList dir.mChildren.toList.length)) size =
    some (.finished, []) := by
  rw [iteratorAt, List.getElem?_eq_none (Nat.le_refl _)]
  rfl

end OneCall

/-! ### The calls one after the other -/

section Calls

variable {ino : ℕ} {dir : Directory} {sizes : ℕ → ℕ}

theorem listing_succ {n : ℕ} {caller caller' : Caller} {entries : List Entry}
    (h : (listing ino dir sizes n).2 = some caller)
    (hcall : call ino dir caller (sizes n) = some (caller', entries)) :
    listing ino dir sizes (n + 1) = ((listing ino dir sizes n).1 ++ [entries], some caller') := by
  unfold listing at h ⊢
  rw [List.range_succ, List.map_append]
  exact answers_snoc h hcall

theorem listing_first {caller : Caller} {entries : List Entry}
    (hcall : call ino dir .first (sizes 0) = some (caller, entries)) :
    listing ino dir sizes 1 = ([entries], some caller) :=
  listing_succ (n := 0) rfl hcall

/-- When the first call has no defined behaviour, there is no listing. -/
theorem listing_none (hcall : call ino dir .first (sizes 0) = none) (n : ℕ) :
    listing ino dir sizes (n + 1) = ([], none) := by
  rw [listing, List.range_succ_eq_map, List.map_cons, answers, hcall]

/-- The replies to fewer calls are the first of the replies. -/
theorem listing_prefix (n k : ℕ) :
    (listing ino dir sizes n).1 <+: (listing ino dir sizes (n + k)).1 := by
  unfold listing
  rw [List.range_add, List.map_append]
  exact answers_prefix _ _ _

/-- Once the end is reached, the replies hold nothing more. -/
theorem listing_ended {n : ℕ} (h : (listing ino dir sizes n).2 = some (.next none) ∨
    (listing ino dir sizes n).2 = some .finished) :
    (listing ino dir sizes (n + 1)).2 = some .finished ∧
      (listing ino dir sizes (n + 1)).1.flatten = (listing ino dir sizes n).1.flatten := by
  rcases h with h | h
  all_goals
    rw [listing_succ h rfl]
    exact ⟨rfl, by rw [List.flatten_append, List.flatten_singleton, List.append_nil]⟩

end Calls

/-! ### Every child once -/

section Once

variable {ino : ℕ} {dir : Directory} {sizes : ℕ → ℕ}

theorem call_first_all (hsize : kReadDirBufSize ≤ sizes 0)
    (hall : ((entries ino dir).map childSize).sum ≤ kReadDirBufSize) :
    call ino dir .first (sizes 0) = some (.next none, entries ino dir) := by
  rw [entries, List.map_cons, List.map_cons, List.sum_cons, List.sum_cons, ← Nat.add_assoc] at hall
  have hdots : childSize (dot, ino) + childSize (dotDot, ino) ≤ kReadDirBufSize := by omega
  have hcount : packed childSize (kReadDirBufSize - (childSize (dot, ino) + childSize (dotDot, ino)))
      dir.mChildren.toList = dir.mChildren.toList.length := by
    rw [packed_eq_length_iff]
    omega
  rw [call_first ino (Nat.min_eq_left hsize) hdots, hcount,
    received_added_all (Nat.zero_add _) (List.cons_ne_nil _ _), iteratorAt,
    List.getElem?_eq_none (Nat.le_refl _)]
  rfl

/-- Taking the iterator back from the first child is not defined. -/
theorem call_first_none {bufSize size : ℕ} (hsize : min kReadDirBufSize size = bufSize)
    (hdots : direntSize dot + direntSize dotDot ≤ bufSize) (hne : dir.mChildren.toList ≠ [])
    (hcount : packed childSize (bufSize - (direntSize dot + direntSize dotDot)) dir.mChildren.toList = 0) :
    call ino dir .first size = none := by
  have hlength : 0 + 0 ≠ dir.mChildren.toList.length := fun h => hne (List.length_eq_zero_iff.mp h.symm)
  rw [call_first ino hsize hdots, hcount, added, if_neg hlength, if_pos rfl]
  rfl

/-- A call from a child that fits sends that child first. -/
theorem call_next_head {bufSize size i : ℕ} (hsize : min kReadDirBufSize size = bufSize)
    (hi : i < dir.mChildren.toList.length) (hfits : childSize dir.mChildren.toList[i] ≤ bufSize) :
    ∃ caller rest, call ino dir (.next (iteratorAt dir.mChildren.toList i)) size =
      some (caller, dir.mChildren.toList[i] :: rest) := by
  rw [call_next ino hsize hi]
  have hdrop : dir.mChildren.toList.drop i =
      dir.mChildren.toList[i] :: dir.mChildren.toList.drop (i + 1) := List.drop_eq_getElem_cons hi
  have hpos : 0 < packed childSize bufSize (dir.mChildren.toList.drop i) := by
    rw [hdrop, packed_pos_iff]
    exact hfits
  have hle : packed childSize bufSize (dir.mChildren.toList.drop i) ≤
      (dir.mChildren.toList.drop i).length := packed_le_length _ _
  rw [List.length_drop] at hle
  generalize packed childSize bufSize (dir.mChildren.toList.drop i) = count at hpos hle
  by_cases hall : i + count = dir.mChildren.toList.length
  · rw [received_added_all hall (by rw [hdrop]; exact List.cons_ne_nil _ _), hdrop]
    exact ⟨_, _, rfl⟩
  · rw [received_added_some (by omega) hpos, hdrop]
    obtain ⟨count, rfl⟩ := Nat.exists_eq_succ_of_ne_zero (Nat.ne_of_gt hpos)
    exact ⟨_, _, rfl⟩

/-- When not all entries fit the first reply, the last one that does is the first of the second reply. -/
theorem listing_repeats (hsizes : ∀ n, kReadDirBufSize ≤ sizes n)
    (hmore : kReadDirBufSize < ((entries ino dir).map childSize).sum) :
    (∀ n, (listing ino dir sizes (n + 1)).2 = none) ∨
      ∃ child ∈ dir.mChildren.toList, ∃ rest rest', (listing ino dir sizes 2).1 =
        [(dot, ino) :: (dotDot, ino) :: (rest ++ [child]), child :: rest'] := by
  have hdots : direntSize dot + direntSize dotDot = 64 := by decide
  have hbuf : kReadDirBufSize = 384 := rfl
  have hmin : ∀ n, min kReadDirBufSize (sizes n) = kReadDirBufSize := fun n => Nat.min_eq_left (hsizes n)
  rw [entries, List.map_cons, List.map_cons, List.sum_cons, List.sum_cons, ← Nat.add_assoc] at hmore
  have hfirst : call ino dir .first (sizes 0) =
      received (added dir.mChildren.toList [(dot, ino), (dotDot, ino)] 0
        (packed childSize (kReadDirBufSize - 64) dir.mChildren.toList)) := by
    rw [call_first ino (hmin 0) (by omega), hdots]
  have hroom : ¬ (dir.mChildren.toList.map childSize).sum ≤ kReadDirBufSize - 64 := by
    have hdots' : childSize (dot, ino) + childSize (dotDot, ino) = 64 := hdots
    omega
  have hle : packed childSize (kReadDirBufSize - 64) dir.mChildren.toList ≤
      dir.mChildren.toList.length := packed_le_length _ _
  have hne := mt packed_eq_length_iff.mp hroom
  cases hcount : packed childSize (kReadDirBufSize - 64) dir.mChildren.toList with
  | zero =>
    rw [hcount] at hne
    have hnil : dir.mChildren.toList ≠ [] := fun h => hne (by rw [h]; rfl)
    left
    intro n
    rw [listing_none (call_first_none (hmin 0) (by omega) hnil (by rwa [hdots]))]
  | succ k =>
    rw [hcount] at hfirst hle hne
    right
    rw [received_added_some (by omega) (Nat.succ_pos k)] at hfirst
    have hk : k < dir.mChildren.toList.length := by omega
    have hfits : childSize dir.mChildren.toList[k] ≤ kReadDirBufSize := by
      have hpacked : k < packed childSize (kReadDirBufSize - 64) dir.mChildren.toList := by omega
      exact Nat.le_trans (size_le_of_lt_packed hpacked (List.getElem?_eq_getElem hk)) (Nat.sub_le _ _)
    obtain ⟨caller, rest', hsecond⟩ := call_next_head (hmin 1) hk hfits
    have hiterator : 0 + (k + 1) - 1 = k := by omega
    rw [hiterator] at hfirst
    refine ⟨dir.mChildren.toList[k], List.getElem_mem hk, dir.mChildren.toList.take k, rest', ?_⟩
    have hone : listing ino dir sizes 1 = _ := listing_first hfirst
    rw [listing_succ (congrArg Prod.snd hone) hsecond, hone, List.drop_zero, List.take_add_one,
      List.getElem?_eq_getElem hk]
    rfl

theorem not_reportsOnce (hsizes : ∀ n, kReadDirBufSize ≤ sizes n)
    (hmore : kReadDirBufSize < ((entries ino dir).map childSize).sum) : ¬ ReportsOnce ino dir sizes := by
  rintro ⟨N, hall⟩
  rcases listing_repeats hsizes hmore with hnone | ⟨child, hchild, rest, rest', htwo⟩
  · obtain ⟨caller, hcaller, -⟩ := hall (N + 1) (Nat.le_succ N)
    rw [hnone N] at hcaller
    cases hcaller
  · obtain ⟨caller, -, hperm⟩ := hall (2 + N) (Nat.le_add_left N 2)
    have hprefix : (listing ino dir sizes 2).1 <+: (listing ino dir sizes (2 + N)).1 := listing_prefix 2 N
    obtain ⟨more, hmore⟩ := hprefix
    rw [← hmore, htwo] at hperm
    have hcount := hperm.count_eq child
    have honce : dir.mChildren.toList.count child ≤ 1 :=
      List.nodup_iff_count_le_one.mp (List.Nodup.of_map _ (nodup_names dir)) child
    simp only [entries, List.flatten_append, List.flatten_cons, List.flatten_nil, List.append_nil,
      List.count_append, List.count_cons, List.count_nil, beq_self_eq_true, if_true] at hcount
    omega

theorem reportsOnce (hsizes : ∀ n, kReadDirBufSize ≤ sizes n)
    (hall : ((entries ino dir).map childSize).sum ≤ kReadDirBufSize) : ReportsOnce ino dir sizes := by
  have hfirst := listing_first (call_first_all (hsizes 0) hall)
  have hend : ∀ n, ((listing ino dir sizes (n + 1)).2 = some (.next none) ∨
      (listing ino dir sizes (n + 1)).2 = some .finished) ∧
      (listing ino dir sizes (n + 1)).1.flatten = entries ino dir := by
    intro n
    induction n with
    | zero =>
      rw [hfirst]
      exact ⟨Or.inl rfl, List.flatten_singleton⟩
    | succ n ih =>
      obtain ⟨hfinished, hflatten⟩ := listing_ended ih.1
      exact ⟨Or.inr hfinished, hflatten.trans ih.2⟩
  refine ⟨1, fun n hn => ?_⟩
  obtain ⟨n, rfl⟩ := Nat.exists_eq_add_of_le' hn
  obtain ⟨hcaller, hflatten⟩ := hend n
  rw [hflatten]
  rcases hcaller with h | h
  all_goals exact ⟨_, h, List.Perm.refl _⟩

/-- **A listing reports every entry exactly once when, and only when, all of them fit one reply.** -/
theorem reportsOnce_iff (hsizes : ∀ n, kReadDirBufSize ≤ sizes n) :
    ReportsOnce ino dir sizes ↔ ((entries ino dir).map childSize).sum ≤ kReadDirBufSize := by
  constructor
  · intro h
    by_contra hmore
    exact not_reportsOnce hsizes (Nat.lt_of_not_le hmore) h
  · exact reportsOnce hsizes

/-- Two children whose names have one byte each. -/
def shortNames : Directory := ((Directory.new.updateChild [97] 2).1.updateChild [98] 3).1

theorem toList_shortNames : shortNames.mChildren.toList = [([97], 2), ([98], 3)] := by
  decide +kernel

theorem reportsOnce_iff_shortNames : ReportsOnce 1 shortNames fun _ => 4096 := by
  refine (reportsOnce_iff fun _ => by decide).mpr ?_
  rw [entries, toList_shortNames]
  decide

/-- Eleven children whose names have two bytes each. -/
def elevenNames : Directory :=
  (List.range 11).foldl (fun dir k => (dir.updateChild [97, 97 + k.toUInt8] (k + 2)).1) Directory.new

/-- The listing has an end, and the second reply starts with the last child of the first one. -/
theorem not_reportsOnce_elevenNames :
    (listing 1 elevenNames (fun _ => 4096) 3).2 = some .finished ∧
      ¬ ReportsOnce 1 elevenNames fun _ => 4096 := by
  constructor
  · decide +kernel
  · refine not_reportsOnce (fun _ => by decide) ?_
    decide +kernel

end Once

/-! ### The end of a listing -/

section Ends

variable (ino : ℕ) {dir : Directory} {bufSize : ℕ}

theorem size_le_of_neighboursFit (hfit : NeighboursFit bufSize dir) {i : ℕ}
    (hi : i < dir.mChildren.toList.length) : childSize dir.mChildren.toList[i] ≤ bufSize := by
  cases i with
  | zero =>
    have hhead : dir.mChildren.toList.head? = some dir.mChildren.toList[0] := by
      rw [List.head?_eq_getElem?, List.getElem?_eq_getElem hi]
    exact Nat.le_trans (Nat.le_add_left _ _) (hfit.1 _ hhead)
  | succ i => exact Nat.le_trans (Nat.le_add_left _ _) (List.isChain_iff_getElem.mp hfit.2 i hi)

/-- Where a call that adds `count` children from index `i` on leaves the iterator. -/
def landing (length i count : ℕ) : ℕ := if i + count = length then length else i + count - 1

theorem received_added {children sent : List Entry} {i count : ℕ} (hle : i + count ≤ children.length)
    (hsome : sent ≠ [] ∧ children = [] ∨ 0 < count) :
    ∃ entries, received (added children sent i count) =
      some (.next (iteratorAt children (landing children.length i count)), entries) := by
  unfold landing
  by_cases hall : i + count = children.length
  · have hsent : sent ++ children.drop i ≠ [] := by
      intro h
      have hlength := congrArg List.length h
      rw [List.length_append, List.length_drop, List.length_nil] at hlength
      rcases hsome with ⟨hsent, -⟩ | hcount
      · exact hsent (List.length_eq_zero_iff.mp (by omega))
      · omega
    rw [received_added_all hall hsent, if_pos hall]
    exact ⟨_, rfl⟩
  · have hcount : 0 < count := by
      rcases hsome with ⟨-, rfl⟩ | hcount
      · exact absurd (Nat.le_zero.mp hle) hall
      · exact hcount
    rw [received_added_some (by omega) hcount, if_neg hall]
    exact ⟨_, rfl⟩

theorem call_first_lands {size : ℕ} (hsize : min kReadDirBufSize size = bufSize)
    (hdots : direntSize dot + direntSize dotDot ≤ bufSize)
    (hfirst : ∀ child ∈ dir.mChildren.toList.head?,
      direntSize dot + direntSize dotDot + direntSize child.1 ≤ bufSize) :
    ∃ count entries, count = packed childSize (bufSize - (direntSize dot + direntSize dotDot))
        dir.mChildren.toList ∧ (dir.mChildren.toList = [] ∨ 0 < count) ∧
      call ino dir .first size = some (.next (iteratorAt dir.mChildren.toList
        (landing dir.mChildren.toList.length 0 count)), entries) := by
  have hpos : dir.mChildren.toList = [] ∨
      0 < packed childSize (bufSize - (direntSize dot + direntSize dotDot)) dir.mChildren.toList := by
    cases hchildren : dir.mChildren.toList with
    | nil => exact Or.inl rfl
    | cons child rest =>
      right
      rw [packed_pos_iff]
      have hchild := hfirst child (by rw [hchildren]; rfl)
      show direntSize child.1 ≤ _
      omega
  have hle : 0 + packed childSize (bufSize - (direntSize dot + direntSize dotDot)) dir.mChildren.toList ≤
      dir.mChildren.toList.length := by
    rw [Nat.zero_add]
    exact packed_le_length _ _
  have hdot : [(dot, ino), (dotDot, ino)] ≠ [] := List.cons_ne_nil _ _
  rw [call_first ino hsize hdots]
  obtain ⟨entries, hentries⟩ := received_added hle (hpos.imp (fun h => ⟨hdot, h⟩) id)
  exact ⟨_, entries, rfl, hpos, hentries⟩

theorem call_next_lands {size i : ℕ} (hsize : min kReadDirBufSize size = bufSize)
    (hi : i < dir.mChildren.toList.length) (hfits : childSize dir.mChildren.toList[i] ≤ bufSize) :
    ∃ count entries, count = packed childSize bufSize (dir.mChildren.toList.drop i) ∧ 0 < count ∧
      i + count ≤ dir.mChildren.toList.length ∧
      call ino dir (.next (iteratorAt dir.mChildren.toList i)) size =
        some (.next (iteratorAt dir.mChildren.toList
          (landing dir.mChildren.toList.length i count)), entries) := by
  have hpos : 0 < packed childSize bufSize (dir.mChildren.toList.drop i) := by
    rw [List.drop_eq_getElem_cons hi, packed_pos_iff]
    exact hfits
  have hle : packed childSize bufSize (dir.mChildren.toList.drop i) ≤
      (dir.mChildren.toList.drop i).length := packed_le_length _ _
  rw [List.length_drop] at hle
  have hle' : i + packed childSize bufSize (dir.mChildren.toList.drop i) ≤
      dir.mChildren.toList.length := by omega
  rw [call_next ino hsize hi]
  obtain ⟨entries, hentries⟩ := received_added hle' (Or.inr hpos)
  exact ⟨_, entries, rfl, hpos, hle', hentries⟩

/-- Where neighbours fit, a call from a child leaves the iterator at a later one or at the end. -/
theorem call_advances {size i : ℕ} (hsize : min kReadDirBufSize size = bufSize)
    (hfit : NeighboursFit bufSize dir) (hi : i < dir.mChildren.toList.length) :
    ∃ j entries, i < j ∧ j ≤ dir.mChildren.toList.length ∧
      call ino dir (.next (iteratorAt dir.mChildren.toList i)) size =
        some (.next (iteratorAt dir.mChildren.toList j), entries) := by
  obtain ⟨count, entries, hcount, hpos, hle, hcall⟩ :=
    call_next_lands ino hsize hi (size_le_of_neighboursFit hfit hi)
  -- two children are sent, or the last one is
  have htwo : 2 ≤ count ∨ i + count = dir.mChildren.toList.length := by
    by_cases hnext : i + 1 < dir.mChildren.toList.length
    · left
      rw [hcount, List.drop_eq_getElem_cons hi, List.drop_eq_getElem_cons hnext]
      exact two_le_packed (List.isChain_iff_getElem.mp hfit.2 i hnext)
    · right
      omega
  refine ⟨_, entries, ?_, ?_, hcall⟩
  all_goals
    unfold landing
    split
    all_goals omega

/-- After `n + 1` calls the iterator is past `n` children, or the listing has ended. -/
theorem listing_progress {sizes : ℕ → ℕ} (hsizes : ∀ n, min kReadDirBufSize (sizes n) = bufSize)
    (hdots : direntSize dot + direntSize dotDot ≤ bufSize) (hfit : NeighboursFit bufSize dir) (n : ℕ) :
    (listing ino dir sizes (n + 1)).2 = some .finished ∨
      ∃ i, n ≤ i ∧ i ≤ dir.mChildren.toList.length ∧
        (listing ino dir sizes (n + 1)).2 = some (.next (iteratorAt dir.mChildren.toList i)) := by
  induction n with
  | zero =>
    right
    obtain ⟨count, entries, hcount, -, hcall⟩ := call_first_lands ino (hsizes 0) hdots hfit.1
    have hle : count ≤ dir.mChildren.toList.length := hcount ▸ packed_le_length _ _
    refine ⟨_, Nat.zero_le _, ?_, congrArg Prod.snd (listing_first hcall)⟩
    unfold landing
    split
    all_goals omega
  | succ n ih =>
    rcases ih with h | ⟨i, hni, hi, h⟩
    · left
      exact (listing_ended (Or.inr h)).1
    · rcases Nat.lt_or_eq_of_le hi with hlt | rfl
      · obtain ⟨j, entries, hij, hj, hcall⟩ := call_advances ino (hsizes (n + 1)) hfit hlt
        right
        exact ⟨j, by omega, hj, by rw [listing_succ h hcall]⟩
      · left
        rw [listing_succ h (call_end ino)]

/-- Two neighbours that do not fit one buffer. -/
def Apart (bufSize : ℕ) (dir : Directory) (k : ℕ) : Prop :=
  ∃ child next, dir.mChildren.toList[k]? = some child ∧ dir.mChildren.toList[k + 1]? = some next ∧
    bufSize < childSize child + childSize next

/-- The iterator is at the first of the two or before it, and the child there fits by itself. -/
def Held (bufSize : ℕ) (dir : Directory) (k : ℕ) (caller : Option Caller) : Prop :=
  ∃ i ≤ k, caller = some (.next (iteratorAt dir.mChildren.toList i)) ∧
    ∀ child, dir.mChildren.toList[i]? = some child → childSize child ≤ bufSize

/-- A call that sends something from there does not get past the first of the two. -/
theorem held_landing {room i k : ℕ} (hapart : Apart bufSize dir k) (hroom : room ≤ bufSize) (hik : i ≤ k)
    {count : ℕ} (hcount : count = packed childSize room (dir.mChildren.toList.drop i)) (hpos : 0 < count) :
    Held bufSize dir k
      (some (.next (iteratorAt dir.mChildren.toList (landing dir.mChildren.toList.length i count)))) := by
  obtain ⟨child, next, hchild, hnext, hpair⟩ := hapart
  have hk : k + 1 < dir.mChildren.toList.length := (List.getElem?_eq_some_iff.mp hnext).1
  have hmost : count ≤ k - i + 1 := by
    rw [hcount]
    refine packed_le_of_pair (a := child) (b := next) ?_ ?_ (Nat.lt_of_le_of_lt hroom hpair)
    · rwa [List.getElem?_drop, Nat.add_sub_cancel' hik]
    · rwa [List.getElem?_drop, ← Nat.add_assoc, Nat.add_sub_cancel' hik]
  have hlanding : landing dir.mChildren.toList.length i count = i + (count - 1) := by
    unfold landing
    rw [if_neg (by omega)]
    omega
  rw [hlanding]
  refine ⟨i + (count - 1), by omega, rfl, fun last hlast => ?_⟩
  rw [← List.getElem?_drop] at hlast
  have hpacked : count - 1 < packed childSize room (dir.mChildren.toList.drop i) := by omega
  exact Nat.le_trans (size_le_of_lt_packed hpacked hlast) hroom

/-- Two neighbours that do not fit one buffer hold the iterator for ever. -/
theorem listing_held {sizes : ℕ → ℕ} {k : ℕ} (hsizes : ∀ n, min kReadDirBufSize (sizes n) = bufSize)
    (hdots : direntSize dot + direntSize dotDot ≤ bufSize)
    (hfirst : ∀ child ∈ dir.mChildren.toList.head?,
      direntSize dot + direntSize dotDot + direntSize child.1 ≤ bufSize)
    (hapart : Apart bufSize dir k) (n : ℕ) : Held bufSize dir k (listing ino dir sizes (n + 1)).2 := by
  obtain ⟨child, next, -, hnext, -⟩ := id hapart
  have hk : k + 1 < dir.mChildren.toList.length := (List.getElem?_eq_some_iff.mp hnext).1
  induction n with
  | zero =>
    obtain ⟨count, entries, hcount, hsome, hcall⟩ := call_first_lands ino (hsizes 0) hdots hfirst
    have hpos : 0 < count := by
      rcases hsome with hnil | hpos
      · rw [hnil] at hk
        cases hk
      · exact hpos
    rw [listing_first hcall]
    exact held_landing hapart (Nat.sub_le _ _) (Nat.zero_le k) hcount hpos
  | succ n ih =>
    obtain ⟨i, hik, hcaller, hfits⟩ := ih
    have hi : i < dir.mChildren.toList.length := by omega
    obtain ⟨count, entries, hcount, hpos, -, hcall⟩ := call_next_lands ino (hsizes (n + 1)) hi
      (hfits _ (List.getElem?_eq_getElem hi))
    rw [listing_succ hcaller hcall]
    exact held_landing hapart (Nat.le_refl _) hik hcount hpos

theorem exists_apart {l : List Entry}
    (h : ¬ l.IsChain fun child next => direntSize child.1 + direntSize next.1 ≤ bufSize) :
    ∃ k child next, l[k]? = some child ∧ l[k + 1]? = some next ∧
      bufSize < childSize child + childSize next := by
  obtain ⟨k, hk, hpair⟩ := List.exists_not_getElem_of_not_isChain h
  exact ⟨k, l[k], l[k + 1], List.getElem?_eq_getElem (Nat.lt_of_succ_lt hk), List.getElem?_eq_getElem hk,
    Nat.lt_of_not_le hpair⟩

/-- Where `.` and `..` do not fit, the first call uses bytes outside of its buffer. -/
theorem call_first_outside {size : ℕ} (hsize : min kReadDirBufSize size = bufSize)
    (hdots : ¬ direntSize dot + direntSize dotDot ≤ bufSize) : call ino dir .first size = none := by
  rw [call, hsize, readFirst_outside hdots]
  rfl

theorem not_finished {sizes : ℕ → ℕ} (hsizes : ∀ n, min kReadDirBufSize (sizes n) = bufSize)
    (hfit : ¬ (direntSize dot + direntSize dotDot ≤ bufSize ∧ NeighboursFit bufSize dir)) (n : ℕ) :
    (listing ino dir sizes (n + 1)).2 ≠ some .finished := by
  by_cases hdots : direntSize dot + direntSize dotDot ≤ bufSize
  swap
  · rw [listing_none (call_first_outside ino (hsizes 0) hdots)]
    intro h
    cases h
  by_cases hfirst : ∀ child ∈ dir.mChildren.toList.head?,
      direntSize dot + direntSize dotDot + direntSize child.1 ≤ bufSize
  · have hchain : ¬ dir.mChildren.toList.IsChain fun child next =>
        direntSize child.1 + direntSize next.1 ≤ bufSize := fun h => hfit ⟨hdots, hfirst, h⟩
    obtain ⟨k, hapart⟩ := exists_apart hchain
    obtain ⟨i, -, hcaller, -⟩ := listing_held ino hsizes hdots hfirst hapart n
    rw [hcaller]
    intro h
    cases h
  · have hnone : call ino dir .first (sizes 0) = none := by
      cases hchildren : dir.mChildren.toList with
      | nil => simp [hchildren] at hfirst
      | cons child rest =>
        have hroom : ¬ childSize child ≤ bufSize - (direntSize dot + direntSize dotDot) := by
          simp only [hchildren, List.head?_cons, Option.mem_some_iff, forall_eq'] at hfirst
          show ¬ direntSize child.1 ≤ _
          omega
        refine call_first_none (hsizes 0) hdots (by rw [hchildren]; exact List.cons_ne_nil _ _) ?_
        rw [hchildren, packed, if_neg hroom]
    rw [listing_none hnone]
    intro h
    cases h

/-- **A listing ends in time when, and only when, the first child fits behind `.` and `..`, and each child
fits one buffer together with the next.** -/
theorem endsInTime_iff {sizes : ℕ → ℕ} (hsizes : ∀ n, min kReadDirBufSize (sizes n) = bufSize) :
    EndsInTime ino dir sizes ↔
      direntSize dot + direntSize dotDot ≤ bufSize ∧ NeighboursFit bufSize dir := by
  constructor
  · rintro ⟨hfinished, -⟩
    by_contra hfit
    exact not_finished ino hsizes hfit _ hfinished
  · rintro ⟨hdots, hfit⟩
    refine ⟨?_, fun n i j hi hj hn hnext => ?_⟩
    · rw [← Std.ExtTreeMap.length_toList]
      rcases listing_progress ino hsizes hdots hfit dir.mChildren.toList.length with
        h | ⟨i, hle, hi, h⟩
      · exact (listing_ended (Or.inr h)).1
      · obtain rfl := Nat.le_antisymm hi hle
        rw [listing_succ h (call_end ino)]
    · rcases Nat.lt_or_eq_of_le hi with hlt | rfl
      · obtain ⟨j', entries, hij, hj', hcall⟩ := call_advances ino (hsizes n) hfit hlt
        rw [listing_succ hn hcall] at hnext
        have hsame : iteratorAt dir.mChildren.toList j' = iteratorAt dir.mChildren.toList j := by
          injection hnext with hcaller
          injection hcaller
        rwa [← iteratorAt_inj hj' hj hsame]
      · rw [listing_succ hn (call_end ino)] at hnext
        cases hnext

theorem endsInTime_iff_shortNames : EndsInTime 1 shortNames fun _ => 4096 := by
  refine (endsInTime_iff 1 (fun _ => (by decide : min kReadDirBufSize 4096 = 384))).mpr ⟨by decide, ?_⟩
  rw [NeighboursFit, toList_shortNames]
  decide

/-- Two children whose names have 200 bytes each. -/
def longNames : Directory :=
  ((Directory.new.updateChild (List.replicate 200 97) 2).1.updateChild (List.replicate 200 98) 3).1

theorem toList_longNames :
    longNames.mChildren.toList = [(List.replicate 200 97, 2), (List.replicate 200 98, 3)] := by
  decide +kernel

theorem not_endsInTime_longNames : ¬ EndsInTime 1 longNames fun _ => 4096 := by
  rintro ⟨hfinished, -⟩
  refine not_finished 1 (fun _ => (by decide : min kReadDirBufSize 4096 = 384)) ?_ _ hfinished
  rintro ⟨-, -, hchain⟩
  rw [toList_longNames] at hchain
  exact absurd hchain (by decide +kernel)

end Ends

end DagonFs.Listing
