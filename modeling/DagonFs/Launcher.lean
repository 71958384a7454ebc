import Mathlib.Data.List.Perm.Basic
import Mathlib.Data.List.TakeWhile
import Mathlib.Logic.Function.Basic
import Mathlib.Data.Int.Notation
import Mathlib.Data.Nat.Notation
import DagonFs.Lib.MachineInt

/-!
# The launcher

`readConfig` reads the settings from a file of lines `key = value`, and `command` makes the line that starts
the processes.  The key ends one character before the first `=`, and the value starts two characters after
it, whatever these characters are; nothing else is stripped.

* `readConfig_render`: written entries are read back, the last one of each key, with comments, section
  headings and empty lines between them.
* `words_of_file`: what is started for a file of settings, in any order.
-/

namespace DagonFs.Launcher

open DagonFs.Lib.MachineInt

abbrev Text := List Char

/-- `map<string, string>`, read with `operator[]`: a key that is missing has the empty value. -/
abbrev Config := Text → Text

/-- One round of the loop of `readConfig`. -/
def readLine (config : Config) (line : Text) : Config :=
  if line = [] ∨ line.head? = some '#' then config
  else match line.idxOf? '=' with
    | none => config
    | some pos =>
      -- for `pos = 0` the length `pos - 1` wraps, and `substr` takes the whole line
      let key := if pos = 0 then line else line.take (pos - 1)
      let value := line.drop (pos + 1)
      Function.update config key (if value.length ≤ 1 then [] else value.drop 1)

/-- `readConfig`; `none` is a file that cannot be opened. -/
def readConfig (file : Option Text) : Option Config :=
  file.map fun text => (text.splitOn '\n').foldl readLine fun _ => []

def isSpace (c : Char) : Bool := [' ', '\t', '\n', '\r', Char.ofNat 11, Char.ofNat 12].contains c

/-- `stoi`; `none` is an exception. -/
def stoi (s : Text) : Option ℤ :=
  let s := s.dropWhile isSpace
  let digits := (if s.head? = some '-' ∨ s.head? = some '+' then s.drop 1 else s).takeWhile Char.isDigit
  let value := Nat.ofDigitChars 10 digits 0
  if digits = [] then none else signed 32 (if s.head? = some '-' then -value else value)

/-- An `int` as a stream prints it. -/
def printed (n : ℤ) : Text :=
  if n < 0 then '-' :: Nat.toDigits 10 n.natAbs else Nat.toDigits 10 n.natAbs

def numProcessesKey : Text := "num_processes".toList
def machinefileKey : Text := "machinefile".toList
def dagonfsModelKey : Text := "dagonfs_model".toList
def fuseModeKey : Text := "fuse_mode".toList
def dagonfsRootDirKey : Text := "dagonfs_root_dir".toList
def enableLoggingKey : Text := "enable_logging".toList

def executable (model : Text) : Text :=
  if model = "client-server".toList then "DAGonFS_CS.exe".toList else "DAGonFS_P2P.exe".toList

/-- The command of `main`. -/
def command (config : Config) : Option Text :=
  (stoi (config numProcessesKey)).map fun numProcesses =>
    let machinefile := config machinefileKey
    "mpirun -np ".toList ++ printed numProcesses ++
      (if machinefile.length ≠ 0 then "--hostfile ".toList ++ machinefile else []) ++
      " ./".toList ++ executable (config dagonfsModelKey) ++ " -".toList ++ config fuseModeKey ++
      " ".toList ++ config dagonfsRootDirKey ++ " ".toList ++
      (if config enableLoggingKey = "true".toList then ['1'] else ['0'])

/-! ### Files -/

/-- What a line of a file can be. -/
inductive Line where
  | entry (key value : Text)
  | empty (key : Text)
  | comment (text : Text)
  | other (text : Text)

namespace Line

def render : Line → Text
  | .entry key value => key ++ " = ".toList ++ value
  | .empty key => key ++ " =".toList
  | .comment text => '#' :: text
  | .other text => text

def ValidKey (key : Text) : Prop := '=' ∉ key ∧ '\n' ∉ key ∧ key.head? ≠ some '#'

instance (key : Text) : Decidable (ValidKey key) := inferInstanceAs (Decidable (_ ∧ _))

/-- A line is one line; keys are free of `=` and do not look like comments, and a line that is no entry,
such as a section heading or an empty one, has no `=`. -/
def Valid : Line → Prop
  | .entry key value => ValidKey key ∧ '\n' ∉ value
  | .empty key => ValidKey key
  | .comment text => '\n' ∉ text
  | .other text => '=' ∉ text ∧ '\n' ∉ text

instance : ∀ l, Decidable (Valid l)
  | .entry .. => inferInstanceAs (Decidable (_ ∧ _))
  | .empty key => inferInstanceAs (Decidable (ValidKey key))
  | .comment _ => inferInstanceAs (Decidable (_ ∉ _))
  | .other _ => inferInstanceAs (Decidable (_ ∧ _))

def entry? : Line → Option (Text × Text)
  | .entry key value => some (key, value)
  | .empty key => some (key, [])
  | _ => none

end Line

def renderAll (lines : List Line) : Text := lines.flatMap fun l => l.render ++ ['\n']

/-- The value of each key, from the last entry with it. -/
def lastValues (entries : List (Text × Text)) : Config :=
  entries.foldl (fun config e => Function.update config e.1 e.2) fun _ => []

theorem newline_not_mem_render {l : Line} (h : l.Valid) : '\n' ∉ l.render := by
  cases l with
  | entry key value =>
    obtain ⟨⟨-, hkey, -⟩, hvalue⟩ := h
    simp [Line.render, hkey, hvalue]
  | empty key =>
    have hkey : '\n' ∉ key := h.2.1
    simp [Line.render, hkey]
  | comment text =>
    have htext : '\n' ∉ text := h
    simp [Line.render, htext]
  | other text => exact h.2

/-- The first `=` of an entry is the one after its key. -/
theorem idxOf?_entry {key : Text} (hkey : '=' ∉ key) (rest : Text) :
    (key ++ " =".toList ++ rest).idxOf? '=' = some (key.length + 1) := by
  induction key with
  | nil => rfl
  | cons c key ih =>
    obtain ⟨hc, hrest⟩ := not_or.mp (fun h => hkey (List.mem_cons.mpr h))
    rw [List.cons_append, List.cons_append, List.idxOf?_cons, ih hrest]
    have hne : (c == '=') = false := beq_eq_false_iff_ne.mpr (Ne.symm hc)
    rw [hne]
    rfl

theorem readLine_key (config : Config) {key : Text} (h : Line.ValidKey key) (rest : Text) :
    readLine config (key ++ " =".toList ++ rest) =
      Function.update config key (if rest.length ≤ 1 then [] else rest.drop 1) := by
  obtain ⟨heq, -, hcomment⟩ := h
  have hline : ¬ (key ++ " =".toList ++ rest = [] ∨ (key ++ " =".toList ++ rest).head? = some '#') := by
    cases key with
    | nil => simp
    | cons c key => simpa using hcomment
  have htake : (key ++ " =".toList ++ rest).take (key.length + 1 - 1) = key := by
    rw [List.append_assoc, Nat.add_sub_cancel, List.take_left]
  have hdrop : (key ++ " =".toList ++ rest).drop (key.length + 1 + 1) = rest := by
    have hlength : (key ++ " =".toList).length = key.length + 1 + 1 := List.length_append
    rw [← hlength, List.drop_left]
  rw [readLine, if_neg hline, idxOf?_entry heq]
  dsimp only
  rw [if_neg (Nat.succ_ne_zero _), htake, hdrop]

theorem readLine_entry (config : Config) {l : Line} {e : Text × Text} (h : l.Valid)
    (hentry : l.entry? = some e) : readLine config l.render = Function.update config e.1 e.2 := by
  cases l with
  | entry key value =>
    obtain rfl := Option.some.inj hentry
    have hsplit : (Line.entry key value).render = key ++ " =".toList ++ ' ' :: value := by
      rw [Line.render, List.append_assoc, List.append_assoc]
      rfl
    rw [hsplit, readLine_key config h.1]
    cases value with
    | nil => rfl
    | cons c value => rfl
  | empty key =>
    obtain rfl := Option.some.inj hentry
    have hsplit : (Line.empty key).render = key ++ " =".toList ++ [] := (List.append_nil _).symm
    rw [hsplit, readLine_key config h]
    rfl
  | comment => cases hentry
  | other => cases hentry

theorem readLine_of_entry?_none (config : Config) {l : Line} (h : l.Valid) (hnone : l.entry? = none) :
    readLine config l.render = config := by
  cases l with
  | entry => cases hnone
  | empty => cases hnone
  | comment text => exact if_pos (Or.inr rfl)
  | other text =>
    rw [readLine, Line.render]
    split
    · rfl
    · rw [List.idxOf?_eq_none_iff.mpr h.1]

/-- The lines that are not entries do not count. -/
theorem foldl_readLine (config : Config) {lines : List Line} (h : ∀ l ∈ lines, l.Valid) :
    (lines.map Line.render).foldl readLine config =
      (lines.filterMap Line.entry?).foldl (fun config e => Function.update config e.1 e.2) config := by
  induction lines generalizing config with
  | nil => rfl
  | cons l lines ih =>
    have hl := h l List.mem_cons_self
    have hrest := fun config => ih config fun l' hl' => h l' (List.mem_cons_of_mem l hl')
    rw [List.map_cons, List.foldl_cons]
    cases hentry : l.entry? with
    | none =>
      rw [readLine_of_entry?_none config hl hentry, List.filterMap_cons_none hentry]
      exact hrest config
    | some e =>
      rw [readLine_entry config hl hentry, List.filterMap_cons_some hentry, List.foldl_cons]
      exact hrest _

/-- A file is taken apart at the ends of its lines; after the last one there is an empty line. -/
theorem splitOn_renderAll {lines : List Line} (h : ∀ l ∈ lines, l.Valid) :
    (renderAll lines).splitOn '\n' = lines.map Line.render ++ [[]] := by
  induction lines with
  | nil => rfl
  | cons l lines ih =>
    have hl := newline_not_mem_render (h l List.mem_cons_self)
    have hcons : renderAll (l :: lines) = l.render ++ '\n' :: renderAll lines := by
      rw [renderAll, List.flatMap_cons, List.append_assoc]
      rfl
    rw [hcons, List.splitOn_append_cons_self_of_not_mem hl,
      ih fun l' hl' => h l' (List.mem_cons_of_mem l hl')]
    rfl

/-- **What is written is read back.** -/
theorem readConfig_renderAll {lines : List Line} (h : ∀ l ∈ lines, l.Valid) :
    readConfig (some (renderAll lines)) = some (lastValues (lines.filterMap Line.entry?)) := by
  refine congrArg some ?_
  show ((renderAll lines).splitOn '\n').foldl readLine _ = _
  rw [splitOn_renderAll h, List.foldl_append, foldl_readLine _ h]
  rfl

theorem foldl_update_of_not_mem (config : Config) {entries : List (Text × Text)} {key : Text}
    (h : key ∉ entries.map Prod.fst) :
    entries.foldl (fun config e => Function.update config e.1 e.2) config key = config key := by
  induction entries generalizing config with
  | nil => rfl
  | cons e entries ih =>
    obtain ⟨hne, hrest⟩ := not_or.mp (fun hmem => h (List.mem_cons.mpr hmem))
    rw [List.foldl_cons, ih _ hrest, Function.update_of_ne hne]

/-- Where no key is there twice, each has the value of its entry. -/
theorem lastValues_of_mem {entries : List (Text × Text)} (h : (entries.map Prod.fst).Nodup)
    {key value : Text} (hmem : (key, value) ∈ entries) : lastValues entries key = value := by
  suffices hfold : ∀ config : Config,
      entries.foldl (fun config e => Function.update config e.1 e.2) config key = value from hfold _
  induction entries with
  | nil => cases hmem
  | cons e entries ih =>
    intro config
    rw [List.map_cons, List.nodup_cons] at h
    rw [List.foldl_cons]
    rcases List.mem_cons.mp hmem with rfl | hlater
    · rw [foldl_update_of_not_mem _ h.1, Function.update_self]
    · exact ih h.2 hlater _

/-! ### Numbers and words -/

theorem not_isSpace_of_isDigit {c : Char} (h : c.isDigit = true) : isSpace c = false ∧ c ≠ '-' ∧ c ≠ '+' := by
  refine ⟨?_, ?_, ?_⟩
  · by_contra hspace
    have hmem := List.contains_iff_mem.mp ((Bool.not_eq_false _).mp hspace)
    simp only [List.mem_cons, List.not_mem_nil, or_false] at hmem
    rcases hmem with rfl | rfl | rfl | rfl | rfl | rfl
    all_goals exact absurd h (by decide)
  · rintro rfl
    exact absurd h (by decide)
  · rintro rfl
    exact absurd h (by decide)

theorem stoi_toDigits {n : ℕ} (h : InRange 31 n) : stoi (Nat.toDigits 10 n) = some (n : ℤ) := by
  have hdigits : ∀ c ∈ Nat.toDigits 10 n, c.isDigit = true :=
    fun c hc => Nat.isDigit_of_mem_toDigits (by decide) (by decide) hc
  have hvalue : Nat.ofDigitChars 10 (Nat.toDigits 10 n) 0 = n :=
    Nat.ofDigitChars_toDigits (by decide) (by decide)
  have htake : (Nat.toDigits 10 n).takeWhile Char.isDigit = Nat.toDigits 10 n :=
    List.takeWhile_eq_self_iff.mpr hdigits
  have hne : Nat.toDigits 10 n ≠ [] := Nat.toDigits_ne_nil
  obtain ⟨c, cs, hcons⟩ := List.exists_cons_of_ne_nil hne
  obtain ⟨hspace, hminus, hplus⟩ := not_isSpace_of_isDigit (hdigits c (hcons ▸ List.mem_cons_self))
  have hdrop : (Nat.toDigits 10 n).dropWhile isSpace = Nat.toDigits 10 n := by
    rw [hcons, List.dropWhile_cons_of_neg (by rw [hspace]; exact Bool.false_ne_true)]
  have hminus' : (Nat.toDigits 10 n).head? ≠ some '-' := by
    rw [hcons]
    exact fun heq => hminus (Option.some.inj heq)
  have hplus' : (Nat.toDigits 10 n).head? ≠ some '+' := by
    rw [hcons]
    exact fun heq => hplus (Option.some.inj heq)
  simp only [stoi, hdrop, if_neg (not_or.mpr ⟨hminus', hplus'⟩), if_neg hminus', htake, hvalue]
  rw [if_neg hne]
  exact if_pos h

/-- What the shell makes of a line without characters that are special to it. -/
def words (line : Text) : List Text := (line.splitOn ' ').filter (· ≠ [])

theorem words_append (p q : Text) : words (p ++ ' ' :: q) = words p ++ words q := by
  rw [words, List.splitOn_append_cons_self, List.filter_append]
  rfl

theorem words_word {w : Text} (h : ' ' ∉ w) (hne : w ≠ []) : words w = [w] := by
  rw [words, List.splitOn_eq_singleton h]
  simp [hne]

/-! ### Settings -/

/-- Characters that mean nothing to the shell. -/
def isPlain (c : Char) : Bool := c.isAlphanum || ['/', '.', '_', '-', '+', ',', ':', '@', '%'].contains c

structure Settings where
  numProcesses : ℕ
  machinefile : Text
  dagonfsModel : Text
  fuseMode : Text
  dagonfsRootDir : Text
  enableLogging : Text

namespace Settings

variable (s : Settings)

def entries : List (Text × Text) :=
  [(numProcessesKey, Nat.toDigits 10 s.numProcesses), (machinefileKey, s.machinefile),
    (dagonfsModelKey, s.dagonfsModel), (fuseModeKey, s.fuseMode), (dagonfsRootDirKey, s.dagonfsRootDir),
    (enableLoggingKey, s.enableLogging)]

/-- The number is an `int`, and what goes to the command line is plain. -/
structure Plain : Prop where
  numProcesses : InRange 31 s.numProcesses
  machinefile : s.machinefile.all isPlain = true
  fuseMode : s.fuseMode.all isPlain = true
  dagonfsRootDir : s.dagonfsRootDir.all isPlain = true
  dagonfsRootDir_ne : s.dagonfsRootDir ≠ []

/-- The words of the command.  Before the option for the hosts there is no blank, so that it is part of the
word with the number of processes. -/
def commandWords : List Text :=
  "mpirun".toList :: "-np".toList ::
    (if s.machinefile = [] then [Nat.toDigits 10 s.numProcesses]
      else [Nat.toDigits 10 s.numProcesses ++ "--hostfile".toList, s.machinefile]) ++
    ["./".toList ++ executable s.dagonfsModel, '-' :: s.fuseMode, s.dagonfsRootDir,
      if s.enableLogging = "true".toList then ['1'] else ['0']]

end Settings

theorem space_not_mem_of_plain {w : Text} (h : w.all isPlain = true) : ' ' ∉ w := by
  intro hmem
  have hspace := List.all_eq_true.mp h ' ' hmem
  exact absurd hspace (by decide)

theorem space_not_mem_toDigits (n : ℕ) : ' ' ∉ Nat.toDigits 10 n := by
  intro hmem
  have hdigit := Nat.isDigit_of_mem_toDigits (by decide) (by decide) hmem
  exact absurd hdigit (by decide)

theorem words_executable (model : Text) :
    words ("./".toList ++ executable model) = ["./".toList ++ executable model] := by
  unfold executable
  split
  · decide
  · decide

/-- The words of the beginning of the command. -/
theorem words_head {s : Settings} (hs : s.Plain) :
    words ("mpirun -np ".toList ++ Nat.toDigits 10 s.numProcesses ++
      if s.machinefile.length ≠ 0 then "--hostfile ".toList ++ s.machinefile else []) =
        "mpirun".toList :: "-np".toList :: (if s.machinefile = [] then [Nat.toDigits 10 s.numProcesses]
          else [Nat.toDigits 10 s.numProcesses ++ "--hostfile".toList, s.machinefile]) := by
  have hspace := space_not_mem_toDigits s.numProcesses
  have hstart : ∀ p : Text, words ("mpirun -np ".toList ++ p) = "mpirun".toList :: "-np".toList :: words p := by
    intro p
    have hsplit : "mpirun -np ".toList ++ p = "mpirun".toList ++ ' ' :: ("-np".toList ++ ' ' :: p) := rfl
    rw [hsplit, words_append, words_append, words_word (by decide) (by decide),
      words_word (by decide) (by decide)]
    rfl
  rw [List.append_assoc, hstart]
  by_cases hnone : s.machinefile = []
  · have hzero : ¬ s.machinefile.length ≠ 0 := fun hne => hne (List.length_eq_zero_iff.mpr hnone)
    rw [if_pos hnone, if_neg hzero, List.append_nil, words_word hspace Nat.toDigits_ne_nil]
  · have hlength : s.machinefile.length ≠ 0 := fun hzero => hnone (List.length_eq_zero_iff.mp hzero)
    have hsplit : Nat.toDigits 10 s.numProcesses ++ ("--hostfile ".toList ++ s.machinefile) =
        (Nat.toDigits 10 s.numProcesses ++ "--hostfile".toList) ++ ' ' :: s.machinefile := by
      rw [List.append_assoc]
      rfl
    have hglued : ' ' ∉ Nat.toDigits 10 s.numProcesses ++ "--hostfile".toList := by
      intro hmem
      rcases List.mem_append.mp hmem with hleft | hright
      · exact hspace hleft
      · exact absurd hright (by decide)
    rw [if_neg hnone, if_pos hlength, hsplit, words_append,
      words_word hglued (List.append_ne_nil_of_left_ne_nil Nat.toDigits_ne_nil _),
      words_word (space_not_mem_of_plain hs.machinefile) hnone]
    rfl

/-- The words of the end of the command. -/
theorem words_tail {s : Settings} (hs : s.Plain) (p flag : Text) (hflag : words flag = [flag]) :
    words (p ++ " ./".toList ++ executable s.dagonfsModel ++ " -".toList ++ s.fuseMode ++ " ".toList ++
      s.dagonfsRootDir ++ " ".toList ++ flag) =
        words p ++ ["./".toList ++ executable s.dagonfsModel, '-' :: s.fuseMode, s.dagonfsRootDir, flag] := by
  have hsplit : p ++ " ./".toList ++ executable s.dagonfsModel ++ " -".toList ++ s.fuseMode ++ " ".toList ++
      s.dagonfsRootDir ++ " ".toList ++ flag = p ++ ' ' :: (("./".toList ++ executable s.dagonfsModel) ++
        ' ' :: (('-' :: s.fuseMode) ++ ' ' :: (s.dagonfsRootDir ++ ' ' :: flag))) := by
    simp only [List.append_assoc]
    rfl
  have hmode : ' ' ∉ '-' :: s.fuseMode := by
    intro hmem
    rcases List.mem_cons.mp hmem with heq | hrest
    · exact absurd heq (by decide)
    · exact space_not_mem_of_plain hs.fuseMode hrest
  rw [hsplit, words_append, words_append, words_append, words_append, words_executable,
    words_word hmode (List.cons_ne_nil _ _),
    words_word (space_not_mem_of_plain hs.dagonfsRootDir) hs.dagonfsRootDir_ne, hflag]
  rfl

theorem words_command {s : Settings} (hs : s.Plain) {config : Config}
    (hconfig : ∀ key value, (key, value) ∈ s.entries → config key = value) :
    (command config).map words = some s.commandWords := by
  have hnumber : config numProcessesKey = Nat.toDigits 10 s.numProcesses := hconfig _ _ (by simp [Settings.entries])
  have hmachines : config machinefileKey = s.machinefile := hconfig _ _ (by simp [Settings.entries])
  have hmodel : config dagonfsModelKey = s.dagonfsModel := hconfig _ _ (by simp [Settings.entries])
  have hmode : config fuseModeKey = s.fuseMode := hconfig _ _ (by simp [Settings.entries])
  have hdir : config dagonfsRootDirKey = s.dagonfsRootDir := hconfig _ _ (by simp [Settings.entries])
  have hlog : config enableLoggingKey = s.enableLogging := hconfig _ _ (by simp [Settings.entries])
  have hflag : ∀ p : Prop, [Decidable p] → words (if p then ['1'] else ['0']) = [if p then ['1'] else ['0']] := by
    intro p _
    split
    · decide
    · decide
  have hprinted : printed (s.numProcesses : ℤ) = Nat.toDigits 10 s.numProcesses := by
    rw [printed, if_neg (by omega), Int.natAbs_natCast]
  rw [command, hnumber, stoi_toDigits hs.numProcesses, Option.map_some, Option.map_some]
  refine congrArg some ?_
  dsimp only
  rw [hmachines, hmodel, hmode, hdir, hlog, hprinted, words_tail hs _ _ (hflag _), words_head hs,
    Settings.commandWords]

/-- **What is started for a file of settings.**  Six settings are written to a file, in any order, with
comments, headings and empty lines between them. -/
theorem words_of_file {s : Settings} (hs : s.Plain) {lines : List Line} (hlines : ∀ l ∈ lines, l.Valid)
    (hentries : (lines.filterMap Line.entry?).Perm s.entries) :
    ((readConfig (some (renderAll lines))).bind command).map words = some s.commandWords := by
  rw [readConfig_renderAll hlines, Option.bind_some]
  apply words_command hs
  intro key value hmem
  have hkeys : (s.entries.map Prod.fst).Nodup := by
    show [numProcessesKey, machinefileKey, dagonfsModelKey, fuseModeKey, dagonfsRootDirKey,
      enableLoggingKey].Nodup
    decide
  exact lastValues_of_mem ((hentries.map Prod.fst).nodup_iff.mpr hkeys) (hentries.mem_iff.mpr hmem)

/-- The settings that the program comes with; after `true` there is a tab. -/
def shippedLines : List Line :=
  [.other "[DAGonFS_config]".toList, .entry numProcessesKey "8".toList, .empty machinefileKey,
    .entry dagonfsModelKey "client-server".toList, .entry fuseModeKey "f".toList,
    .entry dagonfsRootDirKey "/tmp/DAGonFS".toList, .entry enableLoggingKey "true\t".toList]

/-- With these the processes start without a log. -/
theorem words_of_file_shipped :
    ((readConfig (some (renderAll shippedLines))).bind command).map words =
      some ["mpirun".toList, "-np".toList, "8".toList, "./DAGonFS_CS.exe".toList, "-f".toList,
        "/tmp/DAGonFS".toList, "0".toList] := by
  have hplain : (⟨8, [], "client-server".toList, "f".toList, "/tmp/DAGonFS".toList, "true\t".toList⟩ :
      Settings).Plain := ⟨by decide, by decide, by decide, by decide, by decide⟩
  have hvalid : ∀ l ∈ shippedLines, l.Valid := by decide
  exact words_of_file hplain hvalid (.refl _)

end DagonFs.Launcher
