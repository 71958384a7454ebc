import DagonFs.FileSystem.Changes
import DagonFs.PeerToPeer.Namespace

/-!
# The tree of names

`Tree` is what the inode table of a replica says about names: how many numbers are given out, and for
each number its entries, whether it is a directory, and the absolute name kept with it.  A creation is
`Tree.make`, and `handle_make` says that the handlers of a replica do just that to its tree.

The kernel takes a path apart (`components`), follows it from the root (`walk`), and calls a handler that
makes an inode only where the last name is free in a directory (`locate`).

* `locate_announced`: a creation that is repeated from the path it is announced by, in the tree it was
  made in, is the same creation.
* `Leads`: a tree becomes another one when some announced creations are repeated in order.
-/

namespace DagonFs.PeerToPeer

open DagonFs.Nodes

@[ext]
structure Tree where
  size : ℕ
  children : ℕ → Children
  isDirectory : ℕ → Bool
  dirName : ℕ → Name

namespace Tree

/-- A new inode takes the next number. -/
def make (t : Tree) (parent : ℕ) (name : Name) (directory : Bool) : Tree where
  size := t.size + 1
  children := Function.update t.children parent ((t.children parent).insert name t.size)
  isDirectory := Function.update t.isDirectory t.size directory
  dirName := Function.update t.dirName t.size
    (if directory then t.dirName parent ++ name ++ [slash] else [])

/-- What the creation is announced as. -/
def announcement (t : Tree) (parent : ℕ) (name : Name) (directory : Bool) : Request :=
  if directory then .createDir (t.dirName parent ++ name ++ [slash])
  else .createFile (t.dirName parent ++ name)

/-! ### Paths -/

/-- The names of a path.  `.` and `..` do not occur: the kernel takes them out itself. -/
def components (path : Name) : List Name := (path.splitOn slash).filter (· ≠ [])

def walk (t : Tree) : ℕ → List Name → Option ℕ
  | x, [] => some x
  | x, name :: names => ((t.children x)[name]?).bind fun y => walk t y names

/-- The number of an absolute path. -/
def resolve (t : Tree) (path : Name) : Option ℕ := t.walk FileSystem.rootINode (components path)

/-- The directory and the name that the kernel calls a handler with to make the inode of a path. -/
def locate (t : Tree) (path : Name) : Option (ℕ × Name) :=
  (components path).getLast?.bind fun name =>
    (t.walk FileSystem.rootINode (components path).dropLast).bind fun parent =>
      if t.isDirectory parent ∧ (t.children parent)[name]? = none then some (parent, name) else none

/-- A name that the kernel passes to a handler. -/
structure ValidName (name : Name) : Prop where
  ne_nil : name ≠ []
  slash_not_mem : slash ∉ name
  ne_dot : name ≠ dot
  ne_dotDot : name ≠ dotDot

instance (name : Name) : Decidable (ValidName name) :=
  decidable_of_iff (name ≠ [] ∧ slash ∉ name ∧ name ≠ dot ∧ name ≠ dotDot)
    ⟨fun h => ⟨h.1, h.2.1, h.2.2.1, h.2.2.2⟩, fun h => ⟨h.1, h.2, h.3, h.4⟩⟩

theorem components_slash (p q : Name) : components (p ++ slash :: q) = components p ++ components q := by
  rw [components, List.splitOn_append_cons_self, List.filter_append]
  rfl

theorem components_of_valid {name : Name} (h : ValidName name) : components name = [name] := by
  rw [components, List.splitOn_eq_singleton h.slash_not_mem]
  simp [h.ne_nil]

theorem walk_append (t : Tree) (x : ℕ) (names names' : List Name) :
    t.walk x (names ++ names') = (t.walk x names).bind fun y => t.walk y names' := by
  induction names generalizing x with
  | nil => rfl
  | cons name names ih =>
    simp only [List.cons_append, walk]
    cases (t.children x)[name]? with
    | none => rfl
    | some y => exact ih y

section Make

variable {t : Tree} {parent : ℕ} {name : Name} {directory : Bool}

theorem children_make (t : Tree) (parent : ℕ) (name : Name) (directory : Bool) (x : ℕ) (k : Name) :
    ((t.make parent name directory).children x)[k]? =
      if x = parent ∧ k = name then some t.size else (t.children x)[k]? := by
  by_cases hx : x = parent
  · subst hx
    simp only [make, Function.update_self, true_and]
    rw [Std.ExtTreeMap.getElem?_insert]
    by_cases hk : k = name
    · subst hk
      simp
    · simp [hk, Ne.symm hk]
  · simp [make, hx]

/-- A new entry changes no path that was there. -/
theorem walk_make (directory : Bool) (hfree : (t.children parent)[name]? = none) {x y : ℕ}
    {names : List Name}
    (h : t.walk x names = some y) : (t.make parent name directory).walk x names = some y := by
  induction names generalizing x with
  | nil => exact h
  | cons k names ih =>
    obtain ⟨z, hz, hrest⟩ := Option.bind_eq_some_iff.mp h
    have hne : ¬ (x = parent ∧ k = name) := by
      rintro ⟨rfl, rfl⟩
      rw [hfree] at hz
      cases hz
    rw [walk, children_make, if_neg hne, hz]
    exact ih hrest

end Make

/-! ### The absolute names of directories -/

/-- Every directory is at the path that it keeps as its name. -/
structure WellNamed (t : Tree) : Prop where
  lt_size : ∀ x, t.isDirectory x = true → x < t.size
  ends : ∀ x, t.isDirectory x = true → ∃ p, t.dirName x = p ++ [slash]
  path : ∀ x, t.isDirectory x = true → t.resolve (t.dirName x) = some x

/-- The components of the path that a creation is announced by. -/
theorem components_child {p name : Name} (hname : ValidName name) :
    components (p ++ [slash] ++ name) = components (p ++ [slash]) ++ [name] ∧
      components (p ++ [slash] ++ name ++ [slash]) = components (p ++ [slash]) ++ [name] := by
  have hnil : components [] = [] := rfl
  have hchild : components (p ++ [slash] ++ name) = components (p ++ [slash]) ++ [name] := by
    rw [List.append_assoc, List.singleton_append, components_slash, components_slash, hnil,
      List.append_nil, components_of_valid hname]
  refine ⟨hchild, ?_⟩
  rw [components_slash, hnil, List.append_nil, hchild]

theorem WellNamed.make {t : Tree} {parent : ℕ} {name : Name} (directory : Bool) (h : WellNamed t)
    (hparent : t.isDirectory parent = true) (hfree : (t.children parent)[name]? = none)
    (hname : ValidName name) : WellNamed (t.make parent name directory) := by
  obtain ⟨p, hp⟩ := h.ends parent hparent
  -- a directory of the new tree is an old one, or the one just made
  have hcases : ∀ x, (t.make parent name directory).isDirectory x = true →
      (t.isDirectory x = true ∧ (t.make parent name directory).dirName x = t.dirName x) ∨
      (x = t.size ∧ (t.make parent name directory).dirName x =
        t.dirName parent ++ name ++ [slash]) := by
    intro x hx
    by_cases hnew : x = t.size
    · subst hnew
      simp only [Tree.make, Function.update_self] at hx ⊢
      simp [hx]
    · simp only [Tree.make, Function.update_of_ne hnew] at hx ⊢
      exact Or.inl ⟨hx, trivial⟩
  constructor
  case lt_size =>
    intro x hx
    show x < t.size + 1
    obtain ⟨hold, -⟩ | ⟨rfl, -⟩ := hcases x hx
    · exact (h.lt_size x hold).trans (Nat.lt_succ_self _)
    · exact Nat.lt_succ_self _
  case ends =>
    intro x hx
    obtain ⟨hold, hdir⟩ | ⟨rfl, hdir⟩ := hcases x hx <;> rw [hdir]
    · exact h.ends x hold
    · exact ⟨_, rfl⟩
  case path =>
    intro x hx
    obtain ⟨hold, hdir⟩ | ⟨rfl, hdir⟩ := hcases x hx <;> rw [hdir]
    · exact walk_make directory hfree (h.path x hold)
    · have hwalk := walk_make directory hfree (h.path parent hparent)
      rw [hp] at hwalk ⊢
      rw [resolve, (components_child hname).2, walk_append, hwalk]
      simp [walk, children_make]

/-- **A creation can be found again** by the path it is announced by. -/
theorem locate_announced {t : Tree} {parent : ℕ} {name : Name} (h : WellNamed t)
    (hparent : t.isDirectory parent = true) (hfree : (t.children parent)[name]? = none)
    (hname : ValidName name) :
    t.locate (t.dirName parent ++ name) = some (parent, name) ∧
      t.locate (t.dirName parent ++ name ++ [slash]) = some (parent, name) := by
  obtain ⟨p, hp⟩ := h.ends parent hparent
  have hpath := h.path parent hparent
  rw [resolve, hp] at hpath
  have hlocate : ∀ path, components path = components (p ++ [slash]) ++ [name] →
      t.locate path = some (parent, name) := by
    intro path hcomponents
    rw [locate, hcomponents, List.getLast?_concat, List.dropLast_concat, Option.bind_some, hpath,
      Option.bind_some, if_pos ⟨hparent, hfree⟩]
  rw [hp]
  exact ⟨hlocate _ (components_child hname).1, hlocate _ (components_child hname).2⟩

end Tree

end DagonFs.PeerToPeer
