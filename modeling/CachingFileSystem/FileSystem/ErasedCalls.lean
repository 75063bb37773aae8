import CachingFileSystem.FileSystem.Passthrough
import CachingFileSystem.FileSystem.Probes

/-! Calls that can be left out of a run: those that fail leave no trace at all, except for reads,
which may have cached blocks before they failed. Reads leave none that other calls could see.
-/

namespace CachingFileSystem.FileSystem

open CachingFileSystem.BufferCache
open CachingFileSystem.Containers
open CachingFileSystem.DirectoryTree
open CachingFileSystem.Transitions

variable {Count : Type} [LinearOrder Count] [OrderTop Count] [One Count] [Add Count]
  [ToString Count] {os : OperatingSystem} {rootdir : Path} {w w' : World Count} {op : ClientOp}
  {reply : Reply}

-----------------------------------------------------------------------------------------
-- Failed calls
-----------------------------------------------------------------------------------------

/-- A call other than a read whose code is an error. -/
def FailedCall (op : ClientOp) (reply : Reply) : Prop := op.isRead = false ∧ reply.code ≠ 0

instance (op : ClientOp) (reply : Reply) : Decidable (FailedCall op reply) :=
  inferInstanceAs (Decidable (op.isRead = false ∧ reply.code ≠ 0))

theorem perform_release_failed {path : Option Location} {fi : FuseFileInfo}
    (performed : perform os (.below rootdir) w (.release path fi) = .ok (reply, w'))
    (failed : reply.code ≠ 0)
    : w' = w := by
  rw [perform, cachingRelease, cachingReleaseAt] at performed
  by_cases log : referingLogfile (.below rootdir)
      (cachingFullPath (.below rootdir) (releasePath path)) ≠ 0
  · rw [if_pos log] at performed
    cases performed
    rfl
  · rw [if_neg log] at performed
    unfold World.close at performed
    by_cases held : toInt fi.fh.toNat ∈ w.heldDescriptors
    · rw [if_pos held] at performed
      cases performed
      exact absurd rfl failed
    · rw [if_neg held] at performed
      cases performed
      rfl

theorem perform_releasedir_failed {path : Option Location} {fi : FuseFileInfo}
    (performed : perform os (.below rootdir) w (.releasedir path fi) = .ok (reply, w'))
    (failed : reply.code ≠ 0)
    : w' = w := by
  rw [perform, cachingReleasedir] at performed
  by_cases log : referingLogfile (.below rootdir) (releasePath path) ≠ 0
  · rw [if_pos log] at performed
    cases performed
    rfl
  · rw [if_neg log] at performed
    unfold World.closedir at performed
    by_cases held : fi.fh ∈ w.heldStreams
    · rw [if_pos held] at performed
      cases performed
      exact absurd rfl failed
    · rw [if_neg held] at performed
      cases performed
      rfl

/-- Failed calls change nothing, by cases on the operation. -/
theorem perform_failed {root : Location}
    (performed : perform os (.below (render root)) w op = .ok (reply, w'))
    (failed : FailedCall op reply)
    : w' = w := by
  obtain ⟨noRead, code⟩ := failed
  cases op with
  | read => cases noRead
  | getattr | fgetattr | access | flush | ioctl =>
      cases performed
      rfl
  | openFile =>
      cases perform_openFile performed with
      | opened _ succeeded => exact absurd succeeded code
      | failed _ same => exact same
  | opendir =>
      cases perform_opendir performed with
      | opened _ succeeded => exact absurd succeeded code
      | failed _ same => exact same
  | release => exact perform_release_failed performed code
  | releasedir => exact perform_releasedir_failed performed code
  | readdir =>
      rw [perform] at performed
      split at performed
      · cases performed
      · rw [cachingReaddir_all] at performed
        cases performed
        exact absurd rfl code
  | rename =>
      have result := perform_rename performed
      generalize codeEq : reply.code = answered at result
      cases result with
      | done => exact absurd codeEq code
      | failed _ same => exact same

def IsRead (op : ClientOp) (_ : Reply) : Prop := op.isRead = true

instance (op : ClientOp) (reply : Reply) : Decidable (IsRead op reply) :=
  inferInstanceAs (Decidable (op.isRead = true))

/-- All but reads answer alike where tree and handles are alike. -/
theorem perform_alike {cfs : CfsState} {v : World Count} (alike : w.passthrough = v.passthrough)
    (noRead : op.isRead = false) (performed : perform os cfs w op = .ok (reply, w'))
    : ∃ v', perform os cfs v op = .ok (reply, v') ∧ w'.passthrough = v'.passthrough := by
  obtain ⟨bare, answered, same⟩ := (perform_bare_iff noRead).mp ⟨w', performed, rfl⟩
  rw [alike] at answered
  obtain ⟨v', performed', same'⟩ := (perform_bare_iff noRead).mpr ⟨bare, answered, same⟩
  exact ⟨v', performed', same'.symm⟩

/-- A run without its reads, failed or not, is a run with the same answers to all other calls, and
ends with the same tree and the same handles.
-/
theorem run_readsErased {cfs : CfsState} {ops : List ClientOp} {replies : List Reply}
    (ran : runAll (perform os cfs) ops w = .ok (replies, w'))
    : ∃ v,
        runAll (perform os cfs) ((busy IsRead ops replies).map Prod.fst) w
          = .ok ((busy IsRead ops replies).map Prod.snd, v)
        ∧ w'.passthrough = v.passthrough := by
  refine runAll_busy World.passthrough ?_ ?_ rfl ran
  · intro w op reply w' performed isRead
    cases op with
    | read =>
        obtain ⟨_, _, _, rfl⟩ := perform_read performed
        rfl
    | getattr | fgetattr | access | openFile | flush | release | opendir | readdir | releasedir
    | rename | ioctl =>
        cases isRead
  · intro w v op reply w' alike performed other
    exact perform_alike alike (Bool.eq_false_iff.mpr other) performed

/-- Only the rename is left of a read before it. -/
theorem run_readsErased_rename
    : ∃ replies w' v,
        runAll (perform permissive (.below (render []))) [readDA, moveD] smallWorld
          = .ok (replies, w')
        ∧ (busy IsRead [readDA, moveD] replies).length = 1
        ∧ runAll (perform permissive (.below (render [])))
            ((busy IsRead [readDA, moveD] replies).map Prod.fst) smallWorld
          = .ok ((busy IsRead [readDA, moveD] replies).map Prod.snd, v)
        ∧ w'.passthrough = v.passthrough := by
  have counted : (runAll (perform permissive (.below (render []))) [readDA, moveD]
      smallWorld).toOption.map (fun ran => (busy IsRead [readDA, moveD] ran.1).length)
      = some 1 := by
    decide +kernel
  rcases ran : runAll (perform permissive (.below (render []))) [readDA, moveD] smallWorld with
    halt | ⟨replies, w'⟩
  · rw [ran] at counted
    cases counted
  · rw [ran] at counted
    obtain ⟨v, erased, same⟩ := run_readsErased ran
    exact ⟨replies, w', v, rfl, Option.some.inj counted, erased, same⟩

end CachingFileSystem.FileSystem
