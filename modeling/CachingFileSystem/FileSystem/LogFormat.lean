import CachingFileSystem.Containers.TextLines
import CachingFileSystem.FileSystem.Passthrough
import CachingFileSystem.FileSystem.PathBuffers

/-! The text of the log (logManager.cpp): one line for every call, and the rows of the cache table
behind a call of `ioctl`. It can be read back as long as no path has a line break.
-/

namespace CachingFileSystem.FileSystem

open CachingFileSystem.BufferCache
open CachingFileSystem.Containers
open CachingFileSystem.DirectoryTree
open CachingFileSystem.ReplacementPolicy

-----------------------------------------------------------------------------------------
-- Texts
-----------------------------------------------------------------------------------------

inductive CallName where
  | getattr | fgetattr | access | openFile | read | flush | release | opendir | readdir
  | releasedir | rename | init | destroy | ioctl
  deriving DecidableEq

/-- The argument of `log_call` in each operation. -/
def CallName.text : CallName → List Char
  | .getattr => "getattr".toList
  | .fgetattr => "fgetattr".toList
  | .access => "access".toList
  | .openFile => "open".toList
  | .read => "read".toList
  | .flush => "flush".toList
  | .release => "release".toList
  | .opendir => "opendir".toList
  | .readdir => "readdir".toList
  | .releasedir => "releasedir".toList
  | .rename => "rename".toList
  | .init => "init".toList
  | .destroy => "destroy".toList
  | .ioctl => "ioctl".toList

def ClientOp.callName : ClientOp → CallName
  | .getattr _ => .getattr
  | .fgetattr _ _ => .fgetattr
  | .access _ _ => .access
  | .openFile _ _ => .openFile
  | .read _ _ => .read
  | .flush _ _ => .flush
  | .release _ _ => .release
  | .opendir _ _ => .opendir
  | .readdir _ _ => .readdir
  | .releasedir _ _ => .releasedir
  | .rename _ _ => .rename
  | .ioctl _ _ => .ioctl

/-- Print the time and the name of a call. -/
def logCall (callTime : ℤ) (callName : CallName) : List Char :=
  decimal callTime ++ [' '] ++ callName.text ++ ['\n']

section Logging

variable {Count : Type} [LinearOrder Count] [OrderTop Count] [One Count] [Add Count]
  [ToString Count]

/-- What an operation at this time appends to the log. -/
def logged (w : World Count) (time : ℤ) (op : ClientOp) : List Char :=
  logCall time op.callName
  ++ match op with
    | .ioctl _ _ => (cachingIoctl w.cacheManager).2
    | _ => []

/-- What a sequence of operations appends, from the state they begin in. -/
def loggedAll (os : OperatingSystem) (cfs : CfsState)
    : World Count → List (ℤ × ClientOp) → List Char
  | _, [] => []
  | w, (time, op) :: rest => logged w time op ++ loggedAll os cfs (after os cfs w op) rest

/-- What a whole mount appends. -/
def sessionLog (os : OperatingSystem) (cfs : CfsState) (w : World Count) (start stop : ℤ)
    (calls : List (ℤ × ClientOp))
    : List Char :=
  logCall start .init ++ loggedAll os cfs w calls ++ logCall stop .destroy

end Logging

-----------------------------------------------------------------------------------------
-- Reading the log
-----------------------------------------------------------------------------------------

/-- A line of the log: a call, or a row of the table with the path below the mount, the number of
the block counted from one and its reference count.
-/
inductive LogEntry where
  | call (time : ℤ) (name : CallName)
  | row (path : List Char) (number count : ℤ)
  deriving DecidableEq

def LogEntry.text : LogEntry → List Char
  | .call time name => decimal time ++ ' ' :: name.text
  | .row path number count => (path ++ ' ' :: decimal number) ++ ' ' :: decimal count

def CallName.all : List CallName :=
  [.getattr, .fgetattr, .access, .openFile, .read, .flush, .release, .opendir, .readdir,
    .releasedir, .rename, .init, .destroy, .ioctl]

def CallName.ofText? (text : List Char) : Option CallName :=
  CallName.all.find? (fun name => name.text = text)

/-- A line that ends in the name of a call is its line. -/
def readEntry (line : List Char) : Option LogEntry :=
  match splitLast ' ' line with
  | none => none
  | some (front, last) =>
      match CallName.ofText? last with
      | some name => (decimal? front).map (fun time => .call time name)
      | none =>
          match splitLast ' ' front with
          | none => none
          | some (path, number) =>
              match decimal? number, decimal? last with
              | some number, some count => some (.row path number count)
              | _, _ => none

/-- The entries of a log, absent for lines that are none. -/
def readLog (text : List Char) : List (Option LogEntry) := (lines '\n' text).map readEntry

theorem CallName.text_plain (name : CallName) : ' ' ∉ name.text ∧ '\n' ∉ name.text := by
  cases name <;> decide

theorem CallName.ofText?_text (name : CallName) : ofText? name.text = some name := by
  cases name <;> decide

theorem CallName.exists_letter (name : CallName)
    : name.text.any (fun c => !c.isDigit && c ≠ '-') = true := by
  cases name <;> decide

/-- No number is the name of a call. -/
theorem CallName.ofText?_decimal (k : ℤ) : ofText? (decimal k) = none := by
  refine List.find?_eq_none.mpr (fun name _ same => ?_)
  obtain ⟨c, member, letter⟩ := List.any_eq_true.mp name.exists_letter
  obtain ⟨noDigit, noSign⟩ := (Bool.and_eq_true _ _).mp letter
  rw [of_decide_eq_true same] at member
  exact not_mem_decimal (Bool.not_eq_true' _ ▸ noDigit) (of_decide_eq_true noSign) k member

theorem blank_not_mem_decimal (k : ℤ) : ' ' ∉ decimal k :=
  not_mem_decimal (by decide) (by decide) k

/-- Every entry is read back from its line. -/
theorem readEntry_text (entry : LogEntry) : readEntry entry.text = some entry := by
  cases entry with
  | call time name =>
      simp only [readEntry, LogEntry.text, splitLast_append _ name.text_plain.1,
        name.ofText?_text, decimal?_decimal, Option.map_some]
  | row path number count =>
      simp only [readEntry, LogEntry.text, splitLast_append _ (blank_not_mem_decimal _),
        CallName.ofText?_decimal, decimal?_decimal]

/-- So is every text of entries on single lines. -/
theorem readLog_entries {entries : List LogEntry} (single : ∀ entry ∈ entries, '\n' ∉ entry.text)
    : readLog (entries.flatMap (fun entry => entry.text ++ ['\n'])) = entries.map some := by
  have texts : entries.flatMap (fun entry => entry.text ++ ['\n'])
      = (entries.map LogEntry.text).flatMap (fun line => line ++ ['\n']) := by
    rw [List.flatMap_map]
  have plain : ∀ line ∈ entries.map LogEntry.text, '\n' ∉ line := by
    intro line member
    obtain ⟨entry, here, rfl⟩ := List.mem_map.mp member
    exact single entry here
  rw [readLog, texts, lines_flatMap plain, List.map_map]
  exact List.map_congr_left (fun entry _ => readEntry_text entry)

theorem break_not_mem_call (time : ℤ) (name : CallName)
    : '\n' ∉ (LogEntry.call time name).text := by
  intro member
  rcases List.mem_append.mp member with number | later
  · exact not_mem_decimal (by decide) (by decide) time number
  · rcases List.mem_cons.mp later with blank | letter
    · exact absurd blank (by decide)
    · exact name.text_plain.2 letter

theorem break_not_mem_row {path : List Char} (single : '\n' ∉ path) (number count : ℤ)
    : '\n' ∉ (LogEntry.row path number count).text := by
  have plain (k : ℤ) : '\n' ∉ ' ' :: decimal k := by
    intro member
    rcases List.mem_cons.mp member with blank | digit
    · exact absurd blank (by decide)
    · exact not_mem_decimal (by decide) (by decide) k digit
  intro member
  rcases List.mem_append.mp member with front | last
  · rcases List.mem_append.mp front with early | late
    · exact single early
    · exact plain number late
  · exact plain count last

-----------------------------------------------------------------------------------------
-- Paths on one line
-----------------------------------------------------------------------------------------

/-- Every stored path is on one line. -/
def OneLinePaths {Count : Type} (cfg : Sections) (s : CacheManager Count BlockBuf) : Prop :=
  Holds cfg (fun _ payload => '\n' ∉ payload.path) s

/-- Every path an operation takes is. -/
def OneLineOp (op : ClientOp) : Prop := ∀ path ∈ pathArguments op, '\n' ∉ path

/-- Renaming puts no other characters into a path than slashes and those of its arguments. -/
theorem not_mem_renamePath {c : Char} {path newpath stored : Path} (other : c ≠ '/')
    (new : c ∉ newpath) (old : c ∉ stored)
    : c ∉ renamePath path newpath stored := by
  have slashed : c ∉ withSlash stored := by
    unfold withSlash
    split
    · intro member
      rcases List.mem_append.mp member with before | slash
      · exact old before
      · exact other (List.mem_singleton.mp slash)
    · exact old
  have result {front : Path} (apart : c ∉ front)
      : c ∉ front ++ (withSlash stored).drop (withSlash path).length := by
    intro member
    rcases List.mem_append.mp member with first | rest
    · exact apart first
    · exact slashed (List.mem_of_mem_drop rest)
  have front : c ∉ newpath ++ ['/'] := by
    intro member
    rcases List.mem_append.mp member with first | slash
    · exact new first
    · exact other (List.mem_singleton.mp slash)
  simp only [renamePath]
  split
  · split <;> split
    · exact fun member => result front (List.mem_of_mem_dropLast member)
    · exact result front
    · exact fun member => result new (List.mem_of_mem_dropLast member)
    · exact result new
  · exact old

section Runs

variable {cfg : Sections} {os : OperatingSystem} {root : Location}

/-- A rename keeps the stored paths on one line. -/
theorem OneLinePaths.cachingRename {Count : Type} {s : CacheManager Count BlockBuf}
    (h : OneLinePaths cfg s) (cfs : CfsState) (rename : Path → Path → Except ℤ ℤ) (path : Path)
    {newpath : Path} (single : '\n' ∉ newpath)
    : OneLinePaths cfg (cachingRename cfs rename s path newpath).2 := by
  simp only [FileSystem.cachingRename, cachingRenameAt]
  split
  · exact h
  split
  · exact h
  · refine h.updatePaths (fun id payload stored => ?_)
    unfold renamePayload
    split
    · exact stored
    · exact not_mem_renamePath (by decide) single stored

/-- So does every operation; by cases on whether it reads. -/
theorem OneLinePaths.perform {Count : Type} [LinearOrder Count] [OrderTop Count] [One Count]
    [Add Count] [ToString Count] {w w' : World Count} {op : ClientOp} {reply : Reply}
    (h : OneLinePaths cfg w.cacheManager) (single : OneLineOp op)
    (performed : perform os (.below (render root)) w op = .ok (reply, w'))
    : OneLinePaths cfg w'.cacheManager := by
  cases kind : op.isRead with
  | true =>
      cases op with
      | read pread r =>
          obtain ⟨ret, last, called, rfl⟩ := perform_read performed
          refine h.cachingRead (fun block id payload _ inserted => ?_) called
          rw [inserted.owner.2]
          exact single r.path (List.mem_singleton_self r.path)
      | _ => cases kind
  | false =>
      rcases perform_cache performed kind with same | ⟨rename, path, newpath, rfl, renamed⟩
      · rw [same]
        exact h
      · rw [renamed]
        exact h.cachingRename _ rename _
          (single (render newpath) (List.mem_cons_of_mem _ (List.mem_singleton_self _)))

-----------------------------------------------------------------------------------------
-- The entries of a run
-----------------------------------------------------------------------------------------

/-- The rows of the cache table: the blocks that are no placeholders, the last one first. -/
def tableEntries (s : CacheManager Int32 BlockBuf) : List LogEntry :=
  (s.cacheChain.vals.reverse.filter (fun block => block.blockNumber ≠ nullBlock)).map
    (fun block => .row (block.path.drop 1) (block.blockNumber + 1) block.refCount.toInt)

/-- What an operation has to log. -/
def entriesOf (w : World Int32) (time : ℤ) (op : ClientOp) : List LogEntry :=
  .call time op.callName
    :: match op with
      | .ioctl _ _ => tableEntries w.cacheManager
      | _ => []

/-- What a sequence of operations has to log, each in the state it begins in. -/
def entriesOfAll (os : OperatingSystem) (cfs : CfsState)
    : World Int32 → List (ℤ × ClientOp) → List LogEntry
  | _, [] => []
  | w, (time, op) :: rest => entriesOf w time op ++ entriesOfAll os cfs (after os cfs w op) rest

def textOf (entries : List LogEntry) : List Char :=
  entries.flatMap (fun entry => entry.text ++ ['\n'])

theorem textOf_append (entries more : List LogEntry)
    : textOf (entries ++ more) = textOf entries ++ textOf more :=
  List.flatMap_append

theorem logCall_eq (time : ℤ) (name : CallName) : logCall time name = textOf [.call time name] := by
  simp [logCall, textOf, LogEntry.text]

/-- The table is printed as its rows; by induction on the blocks. -/
theorem cacheToString_rows (s : CacheManager Int32 BlockBuf)
    : s.cacheToString = textOf (tableEntries s) := by
  rw [CacheManager.cacheToString, tableEntries]
  induction s.cacheChain.vals.reverse with
  | nil => rfl
  | cons block rest ih =>
      rw [List.flatMap_cons, ih]
      by_cases null : block.blockNumber = nullBlock
      · rw [if_neg (not_not.mpr null), List.filter_cons_of_neg (by simp [null])]
        rfl
      · rw [if_pos null, List.filter_cons_of_pos (by simp [null]), List.map_cons, textOf,
          textOf, List.flatMap_cons]
        refine congrArg (fun row => row ++ _) ?_
        simp only [tableRow, LogEntry.text, decimal, List.append_assoc, List.cons_append,
          List.nil_append]
        rfl

theorem logged_eq (w : World Int32) (time : ℤ) (op : ClientOp)
    : logged w time op = textOf (entriesOf w time op) := by
  have split (name : CallName) (rest : List LogEntry)
      : textOf (.call time name :: rest) = logCall time name ++ textOf rest := by
    rw [logCall_eq, ← textOf_append]
    rfl
  cases op with
  | ioctl path fi =>
      refine Eq.trans ?_ (split .ioctl (tableEntries w.cacheManager)).symm
      exact congrArg (fun table => logCall time .ioctl ++ table) (cacheToString_rows w.cacheManager)
  | _ => exact (split _ []).symm

/-- So are whole runs; by induction on the operations. -/
theorem loggedAll_eq (cfs : CfsState) (w : World Int32) (calls : List (ℤ × ClientOp))
    : loggedAll os cfs w calls = textOf (entriesOfAll os cfs w calls) := by
  induction calls generalizing w with
  | nil => rfl
  | cons call rest ih =>
      obtain ⟨time, op⟩ := call
      rw [loggedAll, entriesOfAll, textOf_append, logged_eq, ih]

/-- With paths on one line, an operation logs lines. -/
theorem OneLinePaths.entriesOf {w : World Int32} (h : OneLinePaths cfg w.cacheManager) (time : ℤ)
    (op : ClientOp)
    : ∀ entry ∈ entriesOf w time op, '\n' ∉ entry.text := by
  have rows : ∀ entry ∈ tableEntries w.cacheManager, '\n' ∉ entry.text := by
    intro entry member
    obtain ⟨block, kept, rfl⟩ := List.mem_map.mp member
    obtain ⟨there, real⟩ := List.mem_filter.mp kept
    refine break_not_mem_row (fun broken => ?_) _ _
    exact h.of_real (List.mem_reverse.mp there) (of_decide_eq_true real)
      (List.mem_of_mem_drop broken)
  intro entry member
  rcases List.mem_cons.mp member with rfl | row
  · exact break_not_mem_call _ _
  · cases op with
    | ioctl => exact rows entry row
    | _ => cases row

/-- So does a sequence of operations; by induction on it, with the stored paths as invariant. -/
theorem OneLinePaths.entriesOfAll {w : World Int32} (h : OneLinePaths cfg w.cacheManager)
    {calls : List (ℤ × ClientOp)} (single : ∀ call ∈ calls, OneLineOp call.2)
    : ∀ entry ∈ entriesOfAll os (.below (render root)) w calls, '\n' ∉ entry.text := by
  induction calls generalizing w with
  | nil =>
      intro entry none
      cases none
  | cons call rest ih =>
      obtain ⟨time, op⟩ := call
      have next : OneLinePaths cfg (after os (.below (render root)) w op).cacheManager := by
        unfold after
        split
        · next performed => exact h.perform (single _ List.mem_cons_self) performed
        · exact h
      intro entry member
      rcases List.mem_append.mp member with here | later
      · exact h.entriesOf time op entry here
      · exact ih next (fun call member => single call (List.mem_cons_of_mem _ member)) entry later

/-- The log of a mount can be read back: from paths without line breaks, its lines are the calls in
their order with their times, and behind each `ioctl` the blocks cached at that time.
-/
theorem readLog_sessionLog {args : CacheArgs} {t : FileTree} {start stop : ℤ}
    {calls : List (ℤ × ClientOp)} (single : ∀ call ∈ calls, OneLineOp call.2)
    : readLog (sessionLog os (.below (render root))
        (⟨t, .new args.numberOfBlocks args.fOld args.fNew, [], []⟩ : World Int32) start stop calls)
      = (LogEntry.call start .init
          :: entriesOfAll os (.below (render root))
            ⟨t, .new args.numberOfBlocks args.fOld args.fNew, [], []⟩ calls
          ++ [LogEntry.call stop .destroy]).map some := by
  have initially : OneLinePaths args.sections
      (.new args.numberOfBlocks args.fOld args.fNew : CacheManager Int32 BlockBuf) :=
    holds_new args
  have text : sessionLog os (.below (render root))
      (⟨t, .new args.numberOfBlocks args.fOld args.fNew, [], []⟩ : World Int32) start stop calls
      = textOf ([LogEntry.call start .init]
          ++ entriesOfAll os (.below (render root))
            ⟨t, .new args.numberOfBlocks args.fOld args.fNew, [], []⟩ calls
          ++ [LogEntry.call stop .destroy]) := by
    rw [sessionLog, logCall_eq, logCall_eq, loggedAll_eq, textOf_append, textOf_append]
  rw [text]
  refine readLog_entries (fun entry member => ?_)
  rcases List.mem_append.mp member with front | last
  · rcases List.mem_cons.mp front with rfl | logged
    · exact break_not_mem_call _ _
    · have stored : OneLinePaths args.sections
          (⟨t, .new args.numberOfBlocks args.fOld args.fNew, [], []⟩ : World Int32).cacheManager :=
        initially
      exact stored.entriesOfAll single entry logged
  · rw [List.mem_singleton.mp last]
    exact break_not_mem_call _ _

end Runs

/-- Reading `/d/a` and printing the table. -/
theorem readLog_sessionLog_small
    : readLog (sessionLog permissive (.below (render [])) smallWorld 4 7
        [(5, readDA), (6, .ioctl [] readOnly)])
      = [
          some (.call 4 .init),
          some (.call 5 .read),
          some (.call 6 .ioctl),
          some (.row "d/a".toList 1 1),
          some (.call 7 .destroy)
        ] := by
  have single : ∀ call ∈ [((5 : ℤ), readDA), (6, .ioctl [] readOnly)], OneLineOp call.2 := by
    intro call member path argument
    rcases List.mem_cons.mp member with rfl | later
    · rw [List.mem_singleton.mp argument]
      decide
    · rw [List.mem_singleton.mp later] at argument
      cases argument
  have read := @readLog_sessionLog permissive [] twoOldArgs smallTree 4 7 _ single
  exact read.trans (by decide +kernel)

/-- One row of a path with a line break is printed like two rows. -/
example
    : textOf [.row "a 1 1\nb".toList 1 1] = textOf [.row "a".toList 1 1, .row "b".toList 1 1] := by
  decide +kernel

end CachingFileSystem.FileSystem
