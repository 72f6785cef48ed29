import Ringfire.Foundation.DirectoryEntry
import Ringfire.Foundation.Transition

/-!
# Who works on the file of a ring

`create_backing_file` with an exclusive lock, the drop of the producer that it was called for,
`ringfire clean` and `MirrorRing::adopt`, all on one path and one system call at a time. Whoever
works on the path has at most one file open, and its death closes it; a process's death is that of
all who run in it, one after the other.

What a call finds in a file is settled by the label of its step: whether `ringfire clean` finds the
magic number of a ring, and no reader that is alive, and whether `adopt` finds a valid ring. Every
system call may also fail.

## Main definitions

* `CreatePc`, `CleanPc`, `AdoptPc`: where a call stands
* `Agent.step`: one system call
* `Files.step`: one system call of somebody, or somebody's death
-/

namespace Ringfire

open DirectoryEntry

/-- Where a thread inside `create_backing_file` stands: before which system call, with how many
tries left, and with which inode open. -/
inductive CreatePc where
  | opening (tries : ℕ)
  | locking (tries inode : ℕ)
  | statting (tries inode : ℕ)
  | checking (tries inode len : ℕ)
  | unlinking (tries inode : ℕ)
  /-- The file is closed before the next try. -/
  | retrying (tries inode : ℕ)
  | sizing (inode : ℕ)
  deriving DecidableEq

/-- Where `ringfire clean` stands. -/
inductive CleanPc where
  | opening
  | statting (inode : ℕ)
  | locking (inode : ℕ)
  | scanning (inode : ℕ)
  | unlocking (inode : ℕ)
  | closing (inode : ℕ)
  | removing (inode : ℕ)
  deriving DecidableEq

/-- Where a thread inside `MirrorRing::adopt` stands. -/
inductive AdoptPc where
  | opening
  | locking (inode : ℕ)
  | mapping (inode : ℕ)
  deriving DecidableEq

/-- Somebody who works on the path. -/
inductive Agent where
  | idle
  | creating (size : ℕ) (pc : CreatePc)
  /-- The producer that `create_backing_file` was called for. -/
  | live (inode : ℕ)
  | cleaning (pc : CleanPc)
  | adopting (pc : AdoptPc)
  /-- The mirror that `adopt` returned a ring to. -/
  | adopted (inode : ℕ)
  /-- A drop has begun, and the path is about to be unlinked. -/
  | unlinking (inode : ℕ)
  /-- The file is about to be closed, and that is all. -/
  | closing (inode : ℕ)
  | ended
  deriving DecidableEq

namespace Agent

/-- The inode of the file that is open. -/
def file : Agent → Option ℕ
  | creating _ (.locking _ i) | creating _ (.statting _ i) | creating _ (.checking _ i _) => some i
  | creating _ (.unlinking _ i) | creating _ (.retrying _ i) | creating _ (.sizing i) => some i
  | cleaning (.statting i) | cleaning (.locking i) | cleaning (.scanning i) => some i
  | cleaning (.unlocking i) | cleaning (.closing i) => some i
  | adopting (.locking i) | adopting (.mapping i) => some i
  | live i | adopted i | unlinking i | closing i => some i
  | _ => none

/-- The return from a call, which closes the file if one is open. -/
def leave (x : Agent) : Agent :=
  match x.file with
  | some i => closing i
  | none => ended

variable {η : Type} [DecidableEq η]

/-- A system call inside `create_backing_file`. -/
def stepCreate (e : Entry η) (a : η) (size : ℕ) : CreatePc → Agent × Entry η
  -- `ProducerAlreadyExists` after the last try
  | .opening 0 => (ended, e)
  | .opening (tries + 1) =>
    (creating size (.locking tries e.openOrCreate.1), e.openOrCreate.2)
  | .locking tries i =>
    match e.tryLock a i with
    | some e' => (creating size (.statting tries i), e')
    | none => (closing i, e)
  | .statting tries i => (creating size (.checking tries i (e.len i)), e)
  -- the path may have been replaced between `open` and `flock`
  | .checking tries i len =>
    if e.name = some i then
      if len ≠ 0 then (creating size (.unlinking tries i), e) else (creating size (.sizing i), e)
    else (creating size (.retrying tries i), e)
  -- a stale file, whose lock is held: its name is removed and the loop starts again
  | .unlinking tries i =>
    match e.name with
    | some _ => (creating size (.retrying tries i), e.unlink)
    | none => (closing i, e)
  | .retrying tries i => (creating size (.opening tries), e.release a i)
  | .sizing i => (live i, e.setLen i size)

/-- A system call of `ringfire clean`, which is not a dry run, on one file; `good` says that the
file is a ring, and that no reader of it is alive. -/
def stepClean (e : Entry η) (a : η) (good : Bool) : CleanPc → Agent × Entry η
  | .opening =>
    match e.name with
    | some i => (cleaning (.statting i), e)
    | none => (ended, e)
  | .statting i =>
    if 128 ≤ e.len i ∧ good = true then (cleaning (.locking i), e) else (closing i, e)
  | .locking i =>
    match e.tryLock a i with
    | some e' => (cleaning (.scanning i), e')
    | none => (closing i, e)
  | .scanning i => if good then (cleaning (.unlocking i), e) else (closing i, e)
  -- the lock goes before the name does
  | .unlocking i => (cleaning (.closing i), e.release a i)
  | .closing i => (cleaning (.removing i), e.release a i)
  | .removing _ => (ended, e.unlink)

/-- A system call inside `MirrorRing::adopt`; `good` says that the file is a valid ring. -/
def stepAdopt (e : Entry η) (a : η) (good : Bool) : AdoptPc → Agent × Entry η
  | .opening =>
    match e.name with
    | some i => (adopting (.locking i), e)
    | none => (ended, e)
  | .locking i =>
    match e.tryLock a i with
    | some e' => (adopting (.mapping i), e')
    | none => (closing i, e)
  | .mapping i => if good then (adopted i, e) else (closing i, e)

/-- One system call. -/
def step (e : Entry η) (a : η) (good : Bool) : Agent → Option (Agent × Entry η)
  | creating size pc => some (stepCreate e a size pc)
  | cleaning pc => some (stepClean e a good pc)
  | adopting pc => some (stepAdopt e a good pc)
  -- while the lock is still held, so that no new producer can adopt the path first
  | unlinking i => some (closing i, e.unlink)
  | closing i => some (ended, e.release a i)
  | idle | live _ | adopted _ | ended => none

/-- What can be called. -/
inductive Call where
  | create (size : ℕ)
  | clean
  | adopt
  deriving DecidableEq

/-- The beginning of a call. -/
def call : Call → Agent
  | .create size => creating size (.opening 8)
  | .clean => cleaning .opening
  | .adopt => adopting .opening

/-- The beginning of the drop of a producer or of a mirror. -/
def drop (unlinkOnDrop : Bool) : Agent → Option Agent
  | live i => if unlinkOnDrop then some (unlinking i) else some (closing i)
  | adopted i => some (closing i)
  | _ => none

end Agent

/-- The path and those who work on it. -/
structure Files (η : Type) where
  entry : Entry η
  agents : η → Agent

/-- Who does what. -/
inductive FilesLabel (η : Type) where
  | call (a : η) (what : Agent.Call)
  | act (a : η) (good : Bool)
  /-- A system call inside a call fails, and the call returns. -/
  | fail (a : η)
  | drop (a : η) (unlinkOnDrop : Bool)
  | die (a : η)
  deriving DecidableEq

/-- Who does it. -/
def FilesLabel.agent {η : Type} : FilesLabel η → η
  | call a _ | act a _ | fail a | drop a _ | die a => a

namespace Files

variable {η : Type} [DecidableEq η]

/-- Nobody works on the path. -/
def init (e : Entry η) : Files η := ⟨e, fun _ => .idle⟩

/-- Somebody is somewhere else, and the path and its inodes are as `e` says. -/
def set (s : Files η) (a : η) (x : Agent) (e : Entry η) : Files η :=
  ⟨e, Function.update s.agents a x⟩

/-- One system call, or somebody's death. -/
def step (s : Files η) : FilesLabel η → Option (Files η)
  | .call a what => if s.agents a = .idle then some (s.set a (Agent.call what) s.entry) else none
  | .act a good => ((s.agents a).step s.entry a good).map fun (x, e) => s.set a x e
  -- a system call fails, and `?` returns
  | .fail a =>
    match s.agents a with
    | .creating _ _ | .cleaning _ | .adopting _ => some (s.set a (s.agents a).leave s.entry)
    | _ => none
  | .drop a unlinkOnDrop =>
    ((s.agents a).drop unlinkOnDrop).map fun x => s.set a x s.entry
  -- the kernel closes what the process had open, and with it goes the lock
  | .die a =>
    some (s.set a .ended ((s.agents a).file.elim s.entry fun i => s.entry.release a i))

end Files

end Ringfire
