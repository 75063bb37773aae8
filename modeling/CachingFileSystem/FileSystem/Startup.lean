import CachingFileSystem.BufferCache.Runs
import CachingFileSystem.FileSystem.Fractions

/-! The start of the program: `main` up to the call of `fuse_main`. -/

namespace CachingFileSystem.FileSystem

open CachingFileSystem.Arithmetic
open CachingFileSystem.BufferCache
open CachingFileSystem.Containers
open CachingFileSystem.Transitions

/-- What the standard library and the system answer at the start. -/
structure Environment where
  /-- Absent where an exception is thrown. -/
  stoi : Path → Option {k : ℤ // -2 ^ 31 ≤ k ∧ k < 2 ^ 31}
  stod : Path → Option Double
  realpath : Path → Option Path
  /-- `S_ISDIR` of the mode that `stat` reports, if it succeeds. -/
  isDirectory : Path → Option Bool
  /-- Whether `fopen` can append to the file. -/
  fopen : Path → Bool

/-- How the program ends before it mounts anything. -/
inductive Stop where
  | exitFailure (message : String)
  | uncaughtException
  | undefinedBehavior
  deriving DecidableEq

def Stop.ofHalt : Halt → Stop
  | .exitFailure => .exitFailure ""
  | .undefinedBehavior => .undefinedBehavior

/-- What `fuse_main` is called with. -/
structure Mounted (Count : Type) where
  argv : List (Option Path)
  cfs : CfsState
  cacheManager : CacheManager Count BlockBuf

def argsNum : ℕ := 6

def usage : String := "Usage: CachingFileSystem rootdir mountdir numberOfBlocks fOld fNew"

def logNotCreated : String := "System Error: logfile was not created"

/-- Argument `i` of the program. -/
def argument (argv : List Path) (i : ℕ) : Path := argv.getD i []

def caught {α : Type} : Option α → Except Stop α
  | some value => .ok value
  | none => .error .uncaughtException

/-- Both paths lead to directories. -/
def directories (env : Environment) (rootdir mountdir : Path) : Bool :=
  match (env.realpath rootdir).bind env.isDirectory,
    (env.realpath mountdir).bind env.isDirectory with
  | some root, some mount => root && mount
  | _, _ => false

/-- The arguments for the main loop of FUSE. -/
def fuseArgs (argv : List Path) : List (Option Path) :=
  let moved := (argv.map some).set 1 (some (argument argv 2))
  let cleared := (List.range' 2 (argsNum - 1 - 2)).foldl (fun argv i => argv.set i none) moved
  (cleared.set 2 (some "-s".toList)).take 3

/-- `open_log`. -/
def openLog (env : Environment) (logfile : Path) : Except Stop Unit :=
  if env.fopen logfile then .ok () else .error (.exitFailure logNotCreated)

/-- The path of the log does not fit its buffer behind every root directory. -/
def setRootDir (env : Environment) (rootdir : Path) : Except Stop CfsState :=
  match env.realpath rootdir with
  | none => .error .undefinedBehavior
  | some root =>
      if (CfsState.below root).logfileFullPath.length < pathMax then .ok (.below root)
      else .error .undefinedBehavior

variable {Count : Type} [One Count]

/-- `main` up to the call of `fuse_main`. -/
def main (env : Environment) (argv : List Path) : Except Stop (Mounted Count) :=
  if argv.length ≠ argsNum then .error (.exitFailure usage)
  else do
    let numberOfBlocks ← caught (env.stoi (argument argv 3))
    let fOld ← caught (env.stod (argument argv 4))
    let fNew ← caught (env.stod (argument argv 5))
    if directories env (argument argv 1) (argument argv 2)
        && argsValidityDoubles numberOfBlocks fOld fNew then
      let cacheManager ← (constructed numberOfBlocks.val fOld fNew).mapError Stop.ofHalt
      let cfs ← setRootDir env (argument argv 1)
      openLog env cfs.logfileFullPath
      .ok { argv := fuseArgs argv, cfs := cfs, cacheManager := cacheManager }
    else .error (.exitFailure usage)

/-- The arguments pass all checks that `main` makes of them; the root directory is this one. -/
structure PassesChecks (env : Environment) (argv : List Path) (numberOfBlocks : ℤ)
    (fOld fNew : Double) (root : Path) : Prop where
  arguments : argv.length = argsNum
  blocks : (env.stoi (argument argv 3)).map Subtype.val = some numberOfBlocks
  old : env.stod (argument argv 4) = some fOld
  new : env.stod (argument argv 5) = some fNew
  rootdir : env.realpath (argument argv 1) = some root
  isRoot : env.isDirectory root = some true
  isMount : (env.realpath (argument argv 2)).bind env.isDirectory = some true
  accepted : argsValidityDoubles numberOfBlocks fOld fNew = true

/-- The log below the root directory can be opened too. -/
structure Startable (env : Environment) (argv : List Path) (numberOfBlocks : ℤ)
    (fOld fNew : Double) (root : Path) : Prop
    extends PassesChecks env argv numberOfBlocks fOld fNew root where
  logFits : (CfsState.below root).logfileFullPath.length < pathMax
  logOpens : env.fopen (CfsState.below root).logfileFullPath = true

section Starts

variable {env : Environment} {argv : List Path} {n : ℤ} {fOld fNew : Double} {root : Path}

/-- FUSE gets the name of the program, the directory to mount at and its single-threaded mode. -/
theorem fuseArgs_eq (arguments : argv.length = argsNum)
    : fuseArgs argv = [some (argument argv 0), some (argument argv 2), some "-s".toList] := by
  match argv, arguments with
  | [_, _, _, _, _, _], _ => rfl

theorem PassesChecks.blocks_lt (checks : PassesChecks env argv n fOld fNew root)
    : n < 2 ^ 31 := by
  obtain ⟨k, _, rfl⟩ := Option.map_eq_some_iff.mp checks.blocks
  exact k.property.2

/-- Behind the checks `main` constructs the cache, composes the path of the log and opens it. -/
theorem PassesChecks.main_eq (checks : PassesChecks env argv n fOld fNew root) (Count : Type)
    [One Count]
    : (main env argv : Except Stop (Mounted Count))
      = (constructed n fOld fNew).mapError Stop.ofHalt >>= fun s =>
          setRootDir env (argument argv 1) >>= fun cfs =>
            openLog env cfs.logfileFullPath >>= fun _ =>
              .ok { argv := fuseArgs argv, cfs := cfs, cacheManager := s } := by
  obtain ⟨k, parsed, rfl⟩ := Option.map_eq_some_iff.mp checks.blocks
  have passed : (directories env (argument argv 1) (argument argv 2)
      && argsValidityDoubles k fOld fNew) = true := by
    obtain ⟨mount, found, isMount⟩ := Option.bind_eq_some_iff.mp checks.isMount
    rw [checks.accepted, directories, checks.rootdir, found, Option.bind_some, Option.bind_some,
      checks.isRoot, isMount]
    rfl
  unfold main
  rw [if_neg (not_not.mpr checks.arguments), parsed, checks.old, checks.new]
  exact if_pos passed

/-- The path of the log is composed if it fits its buffer. -/
theorem PassesChecks.setRootDir_eq (checks : PassesChecks env argv n fOld fNew root)
    : setRootDir env (argument argv 1)
      = if (CfsState.below root).logfileFullPath.length < pathMax then .ok (.below root)
        else .error .undefinedBehavior := by
  simp only [setRootDir, checks.rootdir]

/-- A log that can be opened is, and then only the constructor may stop the program. -/
theorem Startable.main_eq (start : Startable env argv n fOld fNew root) (Count : Type)
    [One Count]
    : (main env argv : Except Stop (Mounted Count))
      = (constructed n fOld fNew).mapError Stop.ofHalt >>= fun s =>
          .ok { argv := fuseArgs argv, cfs := .below root, cacheManager := s } := by
  have opened : openLog env (CfsState.below root).logfileFullPath = .ok () := if_pos start.logOpens
  have set := start.setRootDir_eq
  rw [if_pos start.logFits] at set
  rw [start.toPassesChecks.main_eq, set]
  change (_ >>= fun s => openLog env (CfsState.below root).logfileFullPath >>= _) = _
  rw [opened]
  rfl

theorem caught_eq_ok {α : Type} {answer : Option α} {value : α} (h : caught answer = .ok value)
    : answer = some value := by
  cases answer with
  | none => cases h
  | some other => exact congrArg some (Except.ok.inj h)

theorem rootdir_of_set {cfs : CfsState} {rootdir : Path} (h : setRootDir env rootdir = .ok cfs)
    : ∃ root,
        env.realpath rootdir = some root
        ∧ (CfsState.below root).logfileFullPath.length < pathMax
        ∧ cfs = .below root := by
  unfold setRootDir at h
  split at h
  · cases h
  next root found =>
    split at h
    next fits => exact ⟨root, found, fits, (Except.ok.inj h).symm⟩
    · cases h

theorem opened_of_openLog {logfile : Path} (h : openLog env logfile = .ok ())
    : env.fopen logfile = true := by
  by_contra closed
  rw [openLog, if_neg closed] at h
  cases h

/-- Both directories were found. -/
theorem of_directories {rootdir mountdir : Path} (h : directories env rootdir mountdir = true)
    : (env.realpath rootdir).bind env.isDirectory = some true
      ∧ (env.realpath mountdir).bind env.isDirectory = some true := by
  unfold directories at h
  split at h
  next isRoot isMount =>
    obtain ⟨rfl, rfl⟩ := (Bool.and_eq_true _ _).mp h
    exact ⟨isRoot, isMount⟩
  · cases h

/-- What was mounted has passed all checks; by their order. -/
theorem startable_of_mounted {m : Mounted Count} (mounted : main env argv = .ok m)
    : ∃ n fOld fNew root, Startable env argv n fOld fNew root := by
  unfold main at mounted
  split at mounted
  · cases mounted
  next arguments =>
    obtain ⟨n, blocks, mounted⟩ := bind_eq_ok_iff.mp mounted
    obtain ⟨fOld, old, mounted⟩ := bind_eq_ok_iff.mp mounted
    obtain ⟨fNew, new, mounted⟩ := bind_eq_ok_iff.mp mounted
    split at mounted
    next checked =>
      obtain ⟨found, accepted⟩ := (Bool.and_eq_true _ _).mp checked
      obtain ⟨s, _, mounted⟩ := bind_eq_ok_iff.mp mounted
      obtain ⟨cfs, set, mounted⟩ := bind_eq_ok_iff.mp mounted
      obtain ⟨_, opened, _⟩ := bind_eq_ok_iff.mp mounted
      obtain ⟨root, rootdir, logFits, rfl⟩ := rootdir_of_set set
      obtain ⟨isRoot, isMount⟩ := of_directories found
      rw [rootdir] at isRoot
      refine ⟨n, fOld, fNew, root, ⟨not_not.mp arguments, ?_, caught_eq_ok old, caught_eq_ok new,
        rootdir, isRoot, isMount, accepted⟩, logFits, opened_of_openLog opened⟩
      rw [caught_eq_ok blocks]
      rfl
    · cases mounted

end Starts

-----------------------------------------------------------------------------------------
-- Outcomes
-----------------------------------------------------------------------------------------

/-- A program that mounts has passed all its checks and starts with a cache of exact fractions that
were accepted: its operations are those of the manager system for these arguments. Both fractions
were numbers, and the sections have the shares asked for.
-/
theorem main_mounted [LinearOrder Count] [OrderTop Count] [Add Count] {env : Environment}
    {argv : List Path} {m : Mounted Count} (mounted : main env argv = .ok m)
    : ∃ n fOld fNew root,
        Startable env argv n fOld fNew root
        ∧ m.argv = [some (argument argv 0), some (argument argv 2), some "-s".toList]
        ∧ m.cfs = .below root
        ∧ ∃ args : CacheArgs,
            args.numberOfBlocks = n
            ∧ ShareOf n fOld (oldSectionSize n args.fOld)
            ∧ ShareOf n fNew (newSectionSize n args.fNew)
            ∧ (managerSystem args).start m.cacheManager := by
  obtain ⟨n, fOld, fNew, root, start⟩ := startable_of_mounted mounted
  refine ⟨n, fOld, fNew, root, start, ?_⟩
  rw [start.main_eq Count] at mounted
  rcases constructed_cases Count BlockBuf start.blocks_lt start.accepted with
    ⟨_, _, _, args, blocks, oldShare, newShare, built⟩ | ⟨_, stopped⟩
  · rw [built] at mounted
    obtain rfl := Except.ok.inj mounted
    refine ⟨fuseArgs_eq start.arguments, rfl, args, blocks, oldShare, newShare, ?_⟩
    exact congrArg (fun k => CacheManager.new k args.fOld args.fNew) blocks.symm
  · rw [stopped] at mounted
    cases mounted

/-- Every path is a directory, and every number is the one given. -/
def plainEnvironment (blocks : {k : ℤ // -2 ^ 31 ≤ k ∧ k < 2 ^ 31}) (fraction : Double)
    : Environment where
  stoi _ := some blocks
  stod _ := some fraction
  realpath := some
  isDirectory _ := some true
  fopen _ := true

def sixArguments : List Path :=
  ["CachingFileSystem", "/root", "/mount", "4", "0.25", "0.25"].map String.toList

theorem plain_startable (blocks : {k : ℤ // -2 ^ 31 ≤ k ∧ k < 2 ^ 31}) (fraction : Double)
    (accepted : argsValidityDoubles blocks fraction fraction = true)
    : Startable (plainEnvironment blocks fraction) sixArguments blocks fraction fraction
        "/root".toList where
  arguments := rfl
  blocks := rfl
  old := rfl
  new := rfl
  rootdir := rfl
  isRoot := rfl
  isMount := rfl
  accepted := accepted
  logFits := by decide +kernel
  logOpens := rfl

theorem main_mounted_plain
    : ∃ (m : Mounted Int32) (args : CacheArgs),
        main (plainEnvironment ⟨4, by decide⟩ (.ofRat (1 / 4))) sixArguments = .ok m
        ∧ args.numberOfBlocks = 4
        ∧ (managerSystem args).start m.cacheManager := by
  have start := plain_startable ⟨4, by decide⟩ (.ofRat (1 / 4)) (by decide +kernel)
  have called := start.main_eq Int32
  rcases constructed_cases Int32 BlockBuf start.blocks_lt start.accepted with
    ⟨_, _, _, _, _, _, _, built⟩ | ⟨cause, _⟩
  · rw [built] at called
    obtain ⟨_, _, _, _, same, _, _, args, blocks, _, _, initially⟩ := main_mounted called
    have four := same.blocks
    exact ⟨_, args, called, blocks.trans (Option.some.inj four).symm, initially⟩
  · rcases cause with missing | missing | last
    · exact absurd missing (Double.ofRat_ne_nan _)
    · exact absurd missing (Double.ofRat_ne_nan _)
    · cases last

/-- The checks do not exclude undefined behavior: a fraction that is no number passes them, as does
the largest `int`, and a root directory behind which the path of the log does not fit its
buffer. They exclude it otherwise.
-/
theorem main_undefined_iff {env : Environment} {argv : List Path} {n : ℤ} {fOld fNew : Double}
    {root : Path} (checks : PassesChecks env argv n fOld fNew root)
    : (main env argv : Except Stop (Mounted Count)) = .error .undefinedBehavior
      ↔ fOld = .nan
        ∨ fNew = .nan
        ∨ n = 2 ^ 31 - 1
        ∨ pathMax ≤ (CfsState.below root).logfileFullPath.length := by
  rw [checks.main_eq Count]
  rcases constructed_cases Count BlockBuf checks.blocks_lt checks.accepted with
    ⟨oldNumber, newNumber, small, args, _, _, _, built⟩ | ⟨cause, stopped⟩
  · rw [built, checks.setRootDir_eq]
    rcases Nat.lt_or_ge (CfsState.below root).logfileFullPath.length pathMax with fits | long
    · rw [if_pos fits]
      constructor
      · change (openLog env (CfsState.below root).logfileFullPath >>= _) = _ → _
        unfold openLog
        split
        · intro h
          cases h
        · intro h
          cases h
      · rintro (same | same | same | long)
        · exact absurd same oldNumber
        · exact absurd same newNumber
        · omega
        · omega
    · rw [if_neg (Nat.not_lt.mpr long)]
      exact iff_of_true rfl (Or.inr (Or.inr (Or.inr long)))
  · rw [stopped]
    refine iff_of_true rfl ?_
    rcases cause with same | same | last
    · exact Or.inl same
    · exact Or.inr (Or.inl same)
    · exact Or.inr (Or.inr (Or.inl (by omega)))

theorem main_undefined_iff_nan
    : (main (plainEnvironment ⟨4, by decide⟩ .nan) sixArguments : Except Stop (Mounted Int32))
      = .error .undefinedBehavior :=
  (main_undefined_iff
    (plain_startable ⟨4, by decide⟩ .nan (by decide +kernel)).toPassesChecks).mpr (Or.inl rfl)

end CachingFileSystem.FileSystem
