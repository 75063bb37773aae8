import CachingFileSystem.FileSystem.LogIntegrity

/-! Whether every handle that is handed out is closed. FUSE releases an opened object once, under
the path the object has by then; both release functions return early for one path.
-/

namespace CachingFileSystem.FileSystem

open CachingFileSystem.BufferCache
open CachingFileSystem.Containers
open CachingFileSystem.DirectoryTree
open CachingFileSystem.Transitions

-----------------------------------------------------------------------------------------
-- Sessions
-----------------------------------------------------------------------------------------

/-- An object that was opened and not yet released: the stored handle, and the place the object
has now, if it still has one.
-/
structure Opened where
  fh : UInt64
  place : Option Location
  deriving DecidableEq

/-- `(int) fi->fh`. -/
def Opened.descriptor (object : Opened) : ℤ := toInt object.fh.toNat

/-- A rename moves an object along with its place; what is replaced has no place any more. -/
def Opened.follow (path newpath : Location) (object : Opened) : Opened :=
  if path = newpath then object
  else {
    object with
    place := object.place.bind (fun place =>
      if newpath <+: place then none else some (Tree.relocate path newpath place))
  }

/-- The machine, and what FUSE knows to be open on it. -/
structure Session (Count : Type) where
  world : World Count
  files : List Opened
  directories : List Opened

/-- The operation neither opens nor releases nor moves anything. -/
def KeepsObjects (reply : Reply) : ClientOp → Prop
  | .openFile _ _ | .opendir _ _ | .rename _ _ => reply.code ≠ 0
  | .release _ _ | .releasedir _ _ => False
  | _ => True

variable {Count : Type} [LinearOrder Count] [OrderTop Count] [One Count] [Add Count]
  [ToString Count]

/-- One operation of a session. Opened objects are released once, under their current paths;
the paths of all other calls are arbitrary.
-/
inductive SessionStep (os : OperatingSystem) (root : Location) (session : Session Count)
    : ClientOp → Session Count → Prop
  | opened {path fi reply opened w'}
      (performed
        : perform os (.below (render root)) session.world (.openFile path fi) = .ok (reply, w'))
      (code : reply.code = 0) (replied : reply.fi = some opened)
    : SessionStep os root session (.openFile path fi)
        { session with world := w', files := ⟨opened.fh, some path⟩ :: session.files }
  | openedDirectory {path fi reply opened w'}
      (performed
        : perform os (.below (render root)) session.world (.opendir path fi) = .ok (reply, w'))
      (code : reply.code = 0) (replied : reply.fi = some opened)
    : SessionStep os root session (.opendir path fi)
        { session with world := w', directories := ⟨opened.fh, some path⟩ :: session.directories }
  | released {object fi reply w'} (outstanding : object ∈ session.files)
      (handle : fi.fh = object.fh)
      (performed
        : perform os (.below (render root)) session.world (.release object.place fi)
          = .ok (reply, w'))
    : SessionStep os root session (.release object.place fi)
        { session with world := w', files := session.files.erase object }
  | releasedDirectory {object fi reply w'} (outstanding : object ∈ session.directories)
      (handle : fi.fh = object.fh)
      (performed
        : perform os (.below (render root)) session.world (.releasedir object.place fi)
          = .ok (reply, w'))
    : SessionStep os root session (.releasedir object.place fi)
        { session with world := w', directories := session.directories.erase object }
  | renamed {path newpath reply w'}
      (performed
        : perform os (.below (render root)) session.world (.rename path newpath)
          = .ok (reply, w'))
      (code : reply.code = 0)
    : SessionStep os root session (.rename path newpath)
        {
          world := w'
          files := session.files.map (Opened.follow path newpath)
          directories := session.directories.map (Opened.follow path newpath)
        }
  | other {op reply w'}
      (performed : perform os (.below (render root)) session.world op = .ok (reply, w'))
      (keeps : KeepsObjects reply op)
    : SessionStep os root session op { session with world := w' }

/-- Sessions that begin with nothing open. -/
def sessionSystem (os : OperatingSystem) (root : Location) : System (Session Count) ClientOp where
  start := fun session =>
    session.world.descriptors = [] ∧ session.world.streams = [] ∧ session.files = []
    ∧ session.directories = []
  step := SessionStep os root

omit [LinearOrder Count] [OrderTop Count] [One Count] [Add Count] [ToString Count] in
/-- The handles the process holds are those that were opened and not yet released. -/
structure Balanced (session : Session Count) : Prop where
  descriptors : session.world.heldDescriptors.Perm (session.files.map Opened.descriptor)
  streams : session.world.heldStreams.Perm (session.directories.map Opened.fh)
  distinct : session.world.heldDescriptors.Nodup
  distinctStreams : session.world.heldStreams.Nodup

/-- A file is not released under the path of the log, nor a directory under the log's full path,
which a directory below the mount can have when it repeats the path of the root directory.
-/
def ReachesClose (root : Location) : ClientOp → Prop
  | .release path _ => path ≠ some [logName]
  | .releasedir path _ => releasePath path ≠ render root ++ render [logName]
  | _ => True

-----------------------------------------------------------------------------------------
-- What a step does to the handles
-----------------------------------------------------------------------------------------

/-- What is left without one of its elements. -/
theorem perm_filter_ne {α : Type} [DecidableEq α] {held others : List α} {a : α}
    (perm : held.Perm (a :: others)) (distinct : held.Nodup)
    : (held.filter (fun x => x ≠ a)).Perm others := by
  have apart : a ∉ others := (List.nodup_cons.mp (perm.nodup_iff.mp distinct)).1
  have filtered := perm.filter (fun x => x ≠ a)
  have kept : others.filter (fun x => x ≠ a) = others := by
    refine List.filter_eq_self.mpr (fun x member => ?_)
    exact decide_eq_true (fun same => apart (same ▸ member))
  rwa [List.filter_cons_of_neg (by simp), kept] at filtered

/-- The handles of all objects are the handle of one and those of the others. -/
theorem perm_handles_erase {α : Type} {held : List α} {objects : List Opened}
    {handle : Opened → α} {object : Opened} (perm : held.Perm (objects.map handle))
    (outstanding : object ∈ objects)
    : held.Perm (handle object :: (objects.erase object).map handle) :=
  perm.trans ((List.perm_cons_erase outstanding).map handle)

/-- What holds one more holds something else; by the lengths. -/
theorem not_perm_of_perm_cons {α : Type} {held others : List α} {a : α}
    (perm : held.Perm (a :: others))
    : ¬ held.Perm others := by
  intro same
  have longer := (same.symm.trans perm).length_eq
  rw [List.length_cons] at longer
  exact Nat.succ_ne_self _ longer.symm

/-- A descriptor survives its conversions to `uint64_t` and back. -/
theorem toInt_ofNat {fd : ℤ} (nonneg : 0 ≤ fd) (small : fd < 2 ^ 31)
    : toInt (UInt64.ofNat fd.toNat).toNat = fd := by
  have fits : fd.toNat < 2 ^ 64 := by omega
  rw [UInt64.toNat_ofNat_of_lt' fits, Int.toNat_of_nonneg nonneg]
  exact toInt_eq_self (by omega) small

variable {os : OperatingSystem} {root path newpath : Location} {w w' : World Count} {op : ClientOp}
  {reply : Reply} {session session' : Session Count}

omit [LinearOrder Count] [OrderTop Count] [One Count] [Add Count] [ToString Count] in
theorem close_held {fd : ℤ} (held : fd ∈ w.heldDescriptors)
    : (World.close fd w).2.heldDescriptors = w.heldDescriptors.filter (fun x => x ≠ fd)
      ∧ (World.close fd w).2.heldStreams = w.heldStreams := by
  unfold World.close
  rw [if_pos held]
  refine ⟨?_, rfl⟩
  rw [World.heldDescriptors, World.heldDescriptors, List.filter_map]
  rfl

omit [LinearOrder Count] [OrderTop Count] [One Count] [Add Count] [ToString Count] in
theorem closedir_held {dp : UInt64} (held : dp ∈ w.heldStreams)
    : (World.closedir dp w).2.heldStreams = w.heldStreams.filter (fun x => x ≠ dp)
      ∧ (World.closedir dp w).2.heldDescriptors = w.heldDescriptors := by
  unfold World.closedir
  rw [if_pos held]
  refine ⟨?_, rfl⟩
  rw [World.heldStreams, World.heldStreams, List.filter_map]
  rfl

/-- A rename leaves the handles alone, whether it succeeds or not. -/
theorem rename_held
    (performed : perform os (.below (render root)) w (.rename path newpath) = .ok (reply, w'))
    : w'.heldDescriptors = w.heldDescriptors ∧ w'.heldStreams = w.heldStreams := by
  have result := perform_rename performed
  generalize reply.code = code at result
  cases result with
  | done _ _ _ _ _ descriptors streams =>
      exact ⟨congrArg (List.map Prod.fst) descriptors, congrArg (List.map Prod.fst) streams⟩
  | failed _ same => exact same ▸ ⟨rfl, rfl⟩

/-- The other operations hold on to what they find. -/
theorem perform_held (performed : perform os (.below (render root)) w op = .ok (reply, w'))
    (keeps : KeepsObjects reply op)
    : w'.heldDescriptors = w.heldDescriptors ∧ w'.heldStreams = w.heldStreams := by
  cases op with
  | getattr | fgetattr | access | flush | ioctl =>
      cases performed
      exact ⟨rfl, rfl⟩
  | openFile =>
      cases perform_openFile performed with
      | opened _ code => exact absurd code keeps
      | failed _ same => exact same ▸ ⟨rfl, rfl⟩
  | opendir =>
      cases perform_opendir performed with
      | opened _ code => exact absurd code keeps
      | failed _ same => exact same ▸ ⟨rfl, rfl⟩
  | read pread r =>
      obtain ⟨_, last, _, rfl⟩ := perform_read performed
      exact ⟨rfl, rfl⟩
  | readdir path fi =>
      rw [perform] at performed
      split at performed
      · cases performed
      · cases performed
        refine ⟨rfl, ?_⟩
        rw [World.heldStreams, World.heldStreams, List.map_map]
        refine List.map_congr_left (fun held _ => ?_)
        rw [Function.comp_apply]
        split
        · next same => exact same.symm
        · rfl
  | rename => exact rename_held performed
  | release => exact keeps.elim
  | releasedir => exact keeps.elim

/-- Moving objects leaves their handles as they are. -/
theorem map_follow {α : Type} (handle : UInt64 → α) (objects : List Opened)
    : (objects.map (Opened.follow path newpath)).map (fun object => handle object.fh)
      = objects.map (fun object => handle object.fh) := by
  rw [List.map_map]
  refine List.map_congr_left (fun object _ => ?_)
  rw [Function.comp_apply, Opened.follow]
  split <;> rfl

/-- Releasing a file under a path that is not the log's closes its descriptor, and nothing else
is closed; the log's path keeps it open. Witness: the descriptor, which is held once.
-/
theorem Balanced.released (h : Balanced session) {object : Opened} {fi : FuseFileInfo}
    (outstanding : object ∈ session.files) (handle : fi.fh = object.fh)
    (performed
      : perform os (.below (render root)) session.world (.release object.place fi)
        = .ok (reply, w'))
    : Balanced { session with world := w', files := session.files.erase object }
      ↔ object.place ≠ some [logName] := by
  have perm := perm_handles_erase h.descriptors outstanding
  have held : object.descriptor ∈ session.world.heldDescriptors :=
    perm.mem_iff.mpr List.mem_cons_self
  have released := perform_release performed
  rw [handle] at released
  by_cases log : object.place = some [logName]
  · rw [if_pos log] at released
    refine iff_of_false (fun balanced => ?_) (not_not.mpr log)
    exact not_perm_of_perm_cons (released ▸ perm) balanced.descriptors
  · rw [if_neg log] at released
    refine iff_of_true ?_ log
    obtain ⟨descriptors, streams⟩ := close_held held
    have closed : w' = (World.close object.descriptor session.world).2 := released
    rw [closed]
    exact {
      descriptors := descriptors ▸ perm_filter_ne perm h.distinct
      streams := streams ▸ h.streams
      distinct := descriptors ▸ h.distinct.filter _
      distinctStreams := streams ▸ h.distinctStreams
    }

/-- So for directories, with the full path of the log. -/
theorem Balanced.releasedDirectory (h : Balanced session) {object : Opened} {fi : FuseFileInfo}
    (outstanding : object ∈ session.directories) (handle : fi.fh = object.fh)
    (performed
      : perform os (.below (render root)) session.world (.releasedir object.place fi)
        = .ok (reply, w'))
    : Balanced { session with world := w', directories := session.directories.erase object }
      ↔ releasePath object.place ≠ render root ++ render [logName] := by
  have perm := perm_handles_erase h.streams outstanding
  have held : object.fh ∈ session.world.heldStreams := perm.mem_iff.mpr List.mem_cons_self
  have released := perform_releasedir performed
  rw [handle] at released
  by_cases log : releasePath object.place = render root ++ render [logName]
  · rw [if_pos log] at released
    refine iff_of_false (fun balanced => ?_) (not_not.mpr log)
    exact not_perm_of_perm_cons (released ▸ perm) balanced.streams
  · rw [if_neg log] at released
    refine iff_of_true ?_ log
    obtain ⟨streams, descriptors⟩ := closedir_held held
    rw [released]
    exact {
      descriptors := descriptors ▸ h.descriptors
      streams := streams ▸ perm_filter_ne perm h.distinctStreams
      distinct := descriptors ▸ h.distinct
      distinctStreams := streams ▸ h.distinctStreams.filter _
    }

/-- A file that is opened adds its descriptor, which nothing else holds. -/
theorem Balanced.opened (h : Balanced session) {fi opened : FuseFileInfo}
    (performed
      : perform os (.below (render root)) session.world (.openFile path fi) = .ok (reply, w'))
    (code : reply.code = 0) (replied : reply.fi = some opened)
    : Balanced { session with world := w', files := ⟨opened.fh, some path⟩ :: session.files } := by
  cases perform_openFile performed with
  | failed failure => exact absurd code failure
  | opened _ _ fd node fi stores stored fresh nonneg small held =>
      have same := Option.some.inj (stores.symm.trans replied)
      subst same
      have descriptor (place : Option Location) : Opened.descriptor ⟨fi.fh, place⟩ = fd := by
        rw [Opened.descriptor, stored]
        exact toInt_ofNat nonneg small
      subst held
      exact {
        descriptors := by
          rw [List.map_cons, descriptor]
          exact h.descriptors.cons fd
        streams := h.streams
        distinct := List.nodup_cons.mpr ⟨fresh, h.distinct⟩
        distinctStreams := h.distinctStreams
      }

/-- A directory that is opened adds its stream. -/
theorem Balanced.openedDirectory (h : Balanced session) {fi opened : FuseFileInfo}
    (performed
      : perform os (.below (render root)) session.world (.opendir path fi) = .ok (reply, w'))
    (code : reply.code = 0) (replied : reply.fi = some opened)
    : Balanced {
        session with
        world := w'
        directories := ⟨opened.fh, some path⟩ :: session.directories
      } := by
  cases perform_opendir performed with
  | failed failure => exact absurd code failure
  | opened _ _ dp entries fi stores stored fresh held =>
      have same := Option.some.inj (stores.symm.trans replied)
      subst same
      subst held stored
      exact {
        descriptors := h.descriptors
        streams := h.streams.cons _
        distinct := h.distinct
        distinctStreams := List.nodup_cons.mpr ⟨fresh, h.distinctStreams⟩
      }

omit [LinearOrder Count] [OrderTop Count] [One Count] [Add Count] [ToString Count] in
/-- Sessions with the same handles are balanced alike. -/
theorem Balanced.of_held (h : Balanced session)
    (held
      : session'.world.heldDescriptors = session.world.heldDescriptors
        ∧ session'.world.heldStreams = session.world.heldStreams)
    (files : session'.files.map Opened.descriptor = session.files.map Opened.descriptor)
    (directories : session'.directories.map Opened.fh = session.directories.map Opened.fh)
    : Balanced session' where
  descriptors := by
    rw [held.1, files]
    exact h.descriptors
  streams := by
    rw [held.2, directories]
    exact h.streams
  distinct := held.1 ▸ h.distinct
  distinctStreams := held.2 ▸ h.distinctStreams

/-- Every step keeps the handles balanced except a release that does not reach `close`. -/
theorem Balanced.step_iff (h : Balanced session) (next : SessionStep os root session op session')
    : Balanced session' ↔ ReachesClose root op := by
  cases next with
  | opened performed code replied => exact iff_of_true (h.opened performed code replied) trivial
  | openedDirectory performed code replied =>
      exact iff_of_true (h.openedDirectory performed code replied) trivial
  | released outstanding handle performed => exact h.released outstanding handle performed
  | releasedDirectory outstanding handle performed =>
      exact h.releasedDirectory outstanding handle performed
  | renamed performed code =>
      refine iff_of_true (h.of_held (rename_held performed) ?_ ?_) trivial
      · exact map_follow (fun fh => toInt fh.toNat) session.files
      · exact map_follow id session.directories
  | other performed keeps =>
      refine iff_of_true (h.of_held (perform_held performed keeps) rfl rfl) ?_
      cases op with
      | release => exact keeps.elim
      | releasedir => exact keeps.elim
      | _ => trivial

/-- In sessions without a release under the path that returns early, the process holds exactly
the handles that were opened and not yet released; in each state reached the next step keeps
it so exactly when it is no such release.
-/
theorem run_balanced {labels : List ClientOp}
    (run
      : ((sessionSystem os root).restrict (fun _ op => ReachesClose root op)).Run labels session)
    : Balanced session
      ∧ ∀ op session',
          SessionStep os root session op session' → (Balanced session' ↔ ReachesClose root op) := by
  have balanced : Balanced session := by
    refine System.Run.invariant (fun _ session => Balanced session) ?_ ?_ run
    · intro session start
      obtain ⟨descriptors, streams, files, directories⟩ := start
      have held : session.world.heldDescriptors = [] := congrArg (List.map Prod.fst) descriptors
      have heldStreams : session.world.heldStreams = [] := congrArg (List.map Prod.fst) streams
      exact {
        descriptors := by rw [held, files]; rfl
        streams := by rw [heldStreams, directories]; rfl
        distinct := held ▸ List.nodup_nil
        distinctStreams := heldStreams ▸ List.nodup_nil
      }
    · intro labels op session session' before next
      exact (before.step_iff next.2).mpr next.1
  exact ⟨balanced, fun op session' next => balanced.step_iff next⟩

-----------------------------------------------------------------------------------------
-- Small sessions
-----------------------------------------------------------------------------------------

def openA : ClientOp := .openFile [nameA] readOnly

/-- The file `/a` is open, and is then renamed. -/
def openSession : Session Int32 where
  world := after permissive (.below (render [])) loggedWorld openA
  files := [⟨0, some [nameA]⟩]
  directories := []

def movedSession (name : Name) : Session Int32 where
  world := after permissive (.below (render [])) openSession.world (.rename [nameA] [name])
  files := [⟨0, some [name]⟩]
  directories := []

def releasedSession (name : Name) : Session Int32 where
  world := after permissive (.below (render [])) (movedSession name).world
    (.release (some [name]) readOnly)
  files := []
  directories := []

theorem openA_step : SessionStep permissive [] ⟨loggedWorld, [], []⟩ openA openSession := by
  have code : code? permissive (.below (render [])) loggedWorld openA = some 0 := by
    decide +kernel
  have opened : opened? permissive (.below (render [])) loggedWorld openA
      = some ⟨0, true, 0⟩ := by
    decide +kernel
  obtain ⟨reply, performed, code, opened⟩ := performed_of_opened code opened
  exact @SessionStep.opened Int32 _ _ _ _ _ permissive [] ⟨loggedWorld, [], []⟩ [nameA] readOnly
    reply ⟨0, true, 0⟩ _ performed code opened

theorem moveA_step {name : Name} (other : nameA ≠ name)
    (done
      : code? permissive (.below (render [])) openSession.world (.rename [nameA] [name])
        = some 0)
    : SessionStep permissive [] openSession (.rename [nameA] [name]) (movedSession name) := by
  obtain ⟨reply, performed, code⟩ := performed_of_code done
  have step := @SessionStep.renamed Int32 _ _ _ _ _ permissive [] openSession [nameA] [name] reply
    _ performed code
  have followed : openSession.files.map (Opened.follow [nameA] [name]) = [⟨0, some [name]⟩] := by
    simp [openSession, Opened.follow, Tree.relocate, other, Ne.symm other]
  rw [followed] at step
  exact step

theorem releaseA_step {name : Name} {code : ℤ}
    (returned
      : code? permissive (.below (render [])) (movedSession name).world
          (.release (some [name]) readOnly)
        = some code)
    : SessionStep permissive [] (movedSession name) (.release (some [name]) readOnly)
        (releasedSession name) := by
  obtain ⟨reply, performed, _⟩ := performed_of_code returned
  have step := @SessionStep.released Int32 _ _ _ _ _ permissive [] (movedSession name)
    ⟨0, some [name]⟩ readOnly reply _ List.mem_cons_self rfl performed
  have none : (movedSession name).files.erase ⟨0, some [name]⟩ = [] := List.erase_cons_head _ _
  rw [none] at step
  exact step

theorem noneOpen_start
    : (sessionSystem permissive []).start (⟨loggedWorld, [], []⟩ : Session Int32) :=
  ⟨rfl, rfl, rfl, rfl⟩

/-- A file that is opened as `/a` and renamed to `/b` is closed under that name. -/
theorem run_balanced_renamed : Balanced (releasedSession nameB) := by
  have moved : SessionStep permissive [] openSession (.rename [nameA] [nameB])
      (movedSession nameB) :=
    moveA_step (by decide) (by decide +kernel)
  have returned : code? permissive (.below (render [])) (movedSession nameB).world
      (.release (some [nameB]) readOnly) = some 0 := by
    decide +kernel
  have named : ReachesClose [] (.release (some [nameB]) readOnly) :=
    mt Option.some.inj (by decide)
  have run : ((sessionSystem permissive []).restrict (fun _ op => ReachesClose [] op)).Run
      [.release (some [nameB]) readOnly, .rename [nameA] [nameB], openA]
      (releasedSession nameB) :=
    .step (.step (.step (.start noneOpen_start) ⟨trivial, openA_step⟩) ⟨trivial, moved⟩)
      ⟨named, releaseA_step returned⟩
  exact (run_balanced run).1

/-- A mount of `/d`, with a directory that repeats the path of the root directory. -/
def repeatingTree : FileTree :=
  .ofEntries
    [
      ([], .directory ⟨1, 2⟩),
      ([nameD], .directory ⟨1, 3⟩),
      ([nameD, logName], .file logFile),
      ([nameD, nameD], .directory ⟨1, 4⟩),
      ([nameD, nameD, logName], .directory ⟨1, 5⟩)
    ]
    (by decide)

def repeatingWorld : World Int32 := { smallWorld with tree := repeatingTree }

def openD : ClientOp := .opendir [nameD, logName] readOnly
def releaseD : ClientOp := .releasedir (some [nameD, logName]) { readOnly with fh := 1 }

def openDirectory : Session Int32 where
  world := after permissive (.below (render [nameD])) repeatingWorld openD
  files := []
  directories := [⟨1, some [nameD, logName]⟩]

def releasedDirectory : Session Int32 where
  world := after permissive (.below (render [nameD])) openDirectory.world releaseD
  files := []
  directories := []

theorem openD_step
    : SessionStep permissive [nameD] ⟨repeatingWorld, [], []⟩ openD openDirectory := by
  have code : code? permissive (.below (render [nameD])) repeatingWorld openD = some 0 := by
    decide +kernel
  have opened : opened? permissive (.below (render [nameD])) repeatingWorld openD
      = some { readOnly with fh := 1 } := by
    decide +kernel
  obtain ⟨reply, performed, code, opened⟩ := performed_of_opened code opened
  exact @SessionStep.openedDirectory Int32 _ _ _ _ _ permissive [nameD] ⟨repeatingWorld, [], []⟩
    [nameD, logName] readOnly reply { readOnly with fh := 1 } _ performed code opened

theorem releaseD_step
    : SessionStep permissive [nameD] openDirectory releaseD releasedDirectory := by
  have code : code? permissive (.below (render [nameD])) openDirectory.world releaseD
      = some (-64) := by
    decide +kernel
  obtain ⟨reply, performed, _⟩ := performed_of_code code
  have step := @SessionStep.releasedDirectory Int32 _ _ _ _ _ permissive [nameD] openDirectory
    ⟨1, some [nameD, logName]⟩ { readOnly with fh := 1 } reply _ List.mem_cons_self rfl performed
  have none : openDirectory.directories.erase ⟨1, some [nameD, logName]⟩ = [] :=
    List.erase_cons_head _ _
  rw [none] at step
  exact step

/-- A file that is renamed to the name of the log stays open when it is released; so does a
directory whose path repeats that of the root directory.
-/
theorem released_unclosed
    : ((sessionSystem permissive []).Run
          [.release (some [logName]) readOnly, .rename [nameA] [logName], openA]
          (releasedSession logName)
        ∧ ¬ Balanced (releasedSession logName))
      ∧ (sessionSystem permissive [nameD]).Run [releaseD, openD] releasedDirectory
      ∧ ¬ Balanced releasedDirectory := by
  have moved : SessionStep permissive [] openSession (.rename [nameA] [logName])
      (movedSession logName) :=
    moveA_step (by decide) (by decide +kernel)
  have returned : code? permissive (.below (render [])) (movedSession logName).world
      (.release (some [logName]) readOnly) = some (-2) := by
    decide +kernel
  have nothing : (sessionSystem permissive [nameD]).start
      (⟨repeatingWorld, [], []⟩ : Session Int32) :=
    ⟨rfl, rfl, rfl, rfl⟩
  refine ⟨⟨.step (.step (.step (.start noneOpen_start) openA_step) moved) (releaseA_step returned),
    fun balanced => ?_⟩, .step (.step (.start nothing) openD_step) releaseD_step,
    fun balanced => ?_⟩
  · exact absurd balanced.descriptors.length_eq (by decide +kernel)
  · exact absurd balanced.streams.length_eq (by decide +kernel)

end CachingFileSystem.FileSystem
