import Ringfire.Foundation.Transition
import Ringfire.Ring.Checkpoint

/-!
# Where an offset file lies

A consumer that attaches with a name and without an offset file of its own gets one next to the
ring: `OffsetCheckpoint::for_consumer` drops the extension of the ring's file, replaces the
characters of the name that do not belong into a file name, and joins the two with an underscore.
Two consumers share an offset file when these names come out the same, and then a commit of the one
is where the other resumes.

Directories are an abstract type `δ`, in which `/dev/shm` is `shm`. The name of a file is a string
of characters and of bytes that belong to no character. Which characters `is_alphanumeric` accepts
is in the tables of the standard library; here it is a parameter.

## Main definitions

* `offsetPath`: `OffsetCheckpoint::for_consumer`
* `Owner.Independent`: the files differ, and no commit of the one moves the other
* `Owner.Collides`: when the names come out the same

## Main results

* `independent_iff`: who is independent
-/

namespace Ringfire

open Transition

/-- A part of the name of a file. -/
inductive OsUnit where
  | char (c : Char)
  | byte (b : UInt8)
  deriving DecidableEq

/-- `Path::file_stem`, of a file name: what stands in front of the last dot, unless it is the
first character. -/
def fileStem (name : List OsUnit) : List OsUnit :=
  match name.reverse.dropWhile (· ≠ .char '.') with
  | [] => name
  | _ :: before => if before = [] then name else before.reverse

/-- `OsStr::to_str`. -/
def toStr : List OsUnit → Option (List Char)
  | [] => some []
  | .char c :: rest => (toStr rest).map (c :: ·)
  | .byte _ :: _ => none

/-- The path of a ring; a path that ends in `..` has no file name, and the root has no parent. -/
structure RingPath (δ : Type) where
  parent : Option δ
  fileName : Option (List OsUnit)
  deriving DecidableEq

/-- A consumer that attaches with a name. -/
structure Owner (δ : Type) where
  ring : RingPath δ
  consumerName : List Char
  deriving DecidableEq

variable {δ : Type} (shm : δ) (isAlphanumeric : Char → Bool)

/-- The directory the offset file goes to. -/
def RingPath.directory (p : RingPath δ) : δ := p.parent.getD shm

/-- The name of the ring without its extension. -/
def RingPath.stem (p : RingPath δ) : List Char :=
  ((p.fileName.map fileStem).bind toStr).getD "ring".toList

/-- `safe_name`. -/
def safeName (name : List Char) : List Char :=
  name.map fun c => if isAlphanumeric c ∨ c = '_' ∨ c = '-' then c else '_'

/-- `OffsetCheckpoint::for_consumer`: the directory and the name of the offset file. -/
def offsetPath (o : Owner δ) : δ × List Char :=
  (o.ring.directory shm,
    o.ring.stem ++ ['_'] ++ safeName isAlphanumeric o.consumerName ++ ".offset".toList)

/-! ## Consumers that commit -/

/-- The offset files, and the consumers that have theirs mapped. -/
structure OffsetFiles (δ : Type) where
  files : δ × List Char → OffsetFile
  attached : List (Owner δ)

/-- A consumer attaches, which creates its offset file, or stores what lies behind its cursor. -/
inductive OffsetOp (δ : Type) where
  | attach (o : Owner δ)
  | commit (o : Owner δ) (cursor : ℕ)

namespace OffsetFiles

variable [DecidableEq δ]

/-- The file of a consumer is replaced. -/
def put (s : OffsetFiles δ) (o : Owner δ) (cp : OffsetCheckpoint) : OffsetFiles δ :=
  { s with files := Function.update s.files (offsetPath shm isAlphanumeric o) (.full cp.slot) }

/-- One operation of a consumer. -/
def step (s : OffsetFiles δ) : OffsetOp δ → Option (OffsetFiles δ)
  | .attach o =>
    match OffsetCheckpoint.openOrCreate (s.files (offsetPath shm isAlphanumeric o)) with
    | .ok cp => some { s.put shm isAlphanumeric o cp with attached := o :: s.attached }
    | .error _ => some s
  | .commit o cursor =>
    if o ∈ s.attached then
      match OffsetCheckpoint.openOrCreate (s.files (offsetPath shm isAlphanumeric o)) with
      | .ok cp => some (s.put shm isAlphanumeric o (cp.save (lastProcessedSequence cursor)))
      | .error _ => none
    else none

/-- What a consumer finds in its offset file when it attaches. -/
def opened (s : OffsetFiles δ) (o : Owner δ) : Except OffsetError OffsetCheckpoint :=
  OffsetCheckpoint.openOrCreate (s.files (offsetPath shm isAlphanumeric o))

end OffsetFiles

/-- The operation is no commit of another consumer than `o`. -/
def OffsetOp.CommitsOf (o : Owner δ) : OffsetOp δ → Prop
  | .attach _ => True
  | .commit o' _ => o' = o

/-- Two consumers have different offset files, and the second one resumes where it would have, on
any ring, whatever the first one commits. -/
structure Owner.Independent [DecidableEq δ] (a b : Owner δ) : Prop where
  path : offsetPath shm isAlphanumeric a ≠ offsetPath shm isAlphanumeric b
  resumes : ∀ (as : List (OffsetOp δ)) (s s' : OffsetFiles δ), (∀ op ∈ as, op.CommitsOf a) →
    run (OffsetFiles.step shm isAlphanumeric) s as = some s' →
    ∀ (τ : Type) (cap : Capacity) (writeSeq : ℕ) (mode : ConsumerStartMode) (reg : Registration),
      attachWithOptions (τ := τ) cap writeSeq mode
          (some (s'.files (offsetPath shm isAlphanumeric b))) reg =
        attachWithOptions cap writeSeq mode
          (some (s.files (offsetPath shm isAlphanumeric b))) reg

/-- The name of the ring of `b` goes on, behind an underscore, with what the name of `a` begins
with. -/
def Owner.Continues (a b : Owner δ) : Prop :=
  ∃ x, b.ring.stem = a.ring.stem ++ '_' :: x ∧
    safeName isAlphanumeric a.consumerName = x ++ '_' :: safeName isAlphanumeric b.consumerName

/-- Two consumers get one offset file: the directory is the same, and either the rings are called
the same up to their extension and the consumers up to the characters that are replaced, or an
underscore is taken for the one that joins the two. -/
structure Owner.Collides (a b : Owner δ) : Prop where
  directory : a.ring.directory shm = b.ring.directory shm
  names : (a.ring.stem = b.ring.stem ∧
      safeName isAlphanumeric a.consumerName = safeName isAlphanumeric b.consumerName) ∨
    a.Continues isAlphanumeric b ∨ b.Continues isAlphanumeric a

/-! ## Where names come out the same -/

theorem append_cons_eq_iff {α : Type} {u v u' v' : List α} {x : α} :
    u ++ x :: v = u' ++ x :: v' ↔
      (u = u' ∧ v = v') ∨ (∃ z, u' = u ++ x :: z ∧ v = z ++ x :: v') ∨
        ∃ z, u = u' ++ x :: z ∧ v' = z ++ x :: v := by
  rw [List.append_eq_append_iff]
  constructor
  · rintro (⟨z, hu, hv⟩ | ⟨z, hu, hv⟩)
    · cases z with
      | nil =>
        rw [List.append_nil] at hu
        exact .inl ⟨hu.symm, (List.cons.inj hv).2⟩
      | cons y z =>
        obtain ⟨rfl, hrest⟩ := List.cons.inj hv
        exact .inr (.inl ⟨z, hu, hrest⟩)
    · cases z with
      | nil =>
        rw [List.append_nil] at hu
        exact .inl ⟨hu, (List.cons.inj hv).2.symm⟩
      | cons y z =>
        obtain ⟨rfl, hrest⟩ := List.cons.inj hv
        exact .inr (.inr ⟨z, hu, hrest⟩)
  · rintro (⟨rfl, rfl⟩ | ⟨z, rfl, rfl⟩ | ⟨z, rfl, rfl⟩)
    · exact .inl ⟨[], (List.append_nil _).symm, rfl⟩
    · exact .inl ⟨x :: z, rfl, rfl⟩
    · exact .inr ⟨x :: z, rfl, rfl⟩

theorem offsetPath_eq_iff (a b : Owner δ) :
    offsetPath shm isAlphanumeric a = offsetPath shm isAlphanumeric b ↔
      a.Collides shm isAlphanumeric b := by
  have hnames : a.ring.stem ++ ['_'] ++ safeName isAlphanumeric a.consumerName ++
        ".offset".toList =
      b.ring.stem ++ ['_'] ++ safeName isAlphanumeric b.consumerName ++ ".offset".toList ↔
      (a.ring.stem = b.ring.stem ∧
        safeName isAlphanumeric a.consumerName = safeName isAlphanumeric b.consumerName) ∨
      a.Continues isAlphanumeric b ∨ b.Continues isAlphanumeric a := by
    rw [List.append_left_inj, List.append_assoc, List.append_assoc, List.singleton_append,
      List.singleton_append]
    exact append_cons_eq_iff
  rw [offsetPath, offsetPath, Prod.mk.injEq, hnames]
  exact ⟨fun h => ⟨h.1, h.2⟩, fun h => ⟨h.directory, h.names⟩⟩

/-! ## What a commit changes -/

section

variable [DecidableEq δ] {s s' : OffsetFiles δ} {a b : Owner δ}

theorem OffsetFiles.opened_put_self (s : OffsetFiles δ) (o : Owner δ) (cp : OffsetCheckpoint) :
    (s.put shm isAlphanumeric o cp).opened shm isAlphanumeric o = .ok cp := by
  simp only [opened, put, Function.update_self, OffsetCheckpoint.openOrCreate_slot]

theorem OffsetFiles.opened_put_of_ne (s : OffsetFiles δ) {o : Owner δ} (cp : OffsetCheckpoint)
    (h : offsetPath shm isAlphanumeric b ≠ offsetPath shm isAlphanumeric o) :
    (s.put shm isAlphanumeric o cp).opened shm isAlphanumeric b = s.opened shm isAlphanumeric b := by
  simp only [opened, put, Function.update_of_ne h]

omit [DecidableEq δ] in
theorem OffsetFiles.opened_congr (s : OffsetFiles δ)
    (h : offsetPath shm isAlphanumeric a = offsetPath shm isAlphanumeric b) :
    s.opened shm isAlphanumeric a = s.opened shm isAlphanumeric b := by
  rw [opened, h, opened]

/-- An operation that is not a commit into the file of `b` leaves what `b` finds. -/
theorem OffsetFiles.opened_step {op : OffsetOp δ} (hop : op.CommitsOf a)
    (hne : offsetPath shm isAlphanumeric a ≠ offsetPath shm isAlphanumeric b)
    (h : s.step shm isAlphanumeric op = some s') :
    s'.opened shm isAlphanumeric b = s.opened shm isAlphanumeric b := by
  cases op with
  | attach o =>
    simp only [step] at h
    split at h
    · next cp hopen =>
      cases h
      -- attaching writes back what is there, or creates a file that reads as a new one
      change (s.put shm isAlphanumeric o cp).opened shm isAlphanumeric b = _
      by_cases heq : offsetPath shm isAlphanumeric b = offsetPath shm isAlphanumeric o
      · rw [opened_congr shm isAlphanumeric _ heq, opened_put_self,
          opened_congr shm isAlphanumeric s heq]
        exact hopen.symm
      · exact s.opened_put_of_ne shm isAlphanumeric cp heq
    · cases h
      rfl
  | commit o cursor =>
    obtain rfl : o = a := hop
    simp only [step] at h
    split_ifs at h
    split at h
    · cases h
      exact s.opened_put_of_ne shm isAlphanumeric _ hne.symm
    · cases h

/-- Where a consumer resumes is decided by what it finds in its file. -/
theorem attachWithOptions_congr {τ : Type} {file file' : OffsetFile}
    (h : OffsetCheckpoint.openOrCreate file = OffsetCheckpoint.openOrCreate file')
    (cap : Capacity) (writeSeq : ℕ) (mode : ConsumerStartMode) (reg : Registration) :
    attachWithOptions (τ := τ) cap writeSeq mode (some file) reg =
      attachWithOptions cap writeSeq mode (some file') reg := by
  simp only [attachWithOptions, h]

/-- **Who is independent**: those whose names do not come out the same. -/
theorem independent_iff (a b : Owner δ) :
    a.Independent shm isAlphanumeric b ↔ ¬ a.Collides shm isAlphanumeric b := by
  rw [← offsetPath_eq_iff]
  constructor
  · exact fun h => h.path
  · intro hne
    refine ⟨hne, ?_⟩
    intro as s s' has hrun τ cap writeSeq mode reg
    apply attachWithOptions_congr
    have hinv := run_invariant (P := fun t : OffsetFiles δ =>
        t.opened shm isAlphanumeric b = s.opened shm isAlphanumeric b)
      (Q := fun op => op.CommitsOf a)
      (fun hop ht hstep => (OffsetFiles.opened_step shm isAlphanumeric hop hne hstep).trans ht)
      has rfl hrun
    exact hinv

end

/-- `md.shm` and `md.bin` in one directory, each with a consumer `c`. -/
def sameStem (extension : String) : Owner Unit where
  ring := ⟨some (), some (("md." ++ extension).toList.map .char)⟩
  consumerName := ['c']

/-- **Two rings, one offset file.** Both consumers attach; on a ring of eight slots with ten
messages the second one would start at the newest message. The first one commits at cursor `6`, and
now it would start there. -/
theorem sameStem_not_independent :
    sameStem "shm" ≠ sameStem "bin" ∧
    ¬ (sameStem "shm").Independent () Char.isAlphanum (sameStem "bin") ∧
    ∃ s s' : OffsetFiles Unit,
      run (OffsetFiles.step () Char.isAlphanum) ⟨fun _ => .short, []⟩
        [.attach (sameStem "shm"), .attach (sameStem "bin")] = some s ∧
      s.step () Char.isAlphanum (.commit (sameStem "shm") 6) = some s' ∧
      (attachWithOptions (τ := Unit) eightSlots 10 .latest
        (some (s.files (offsetPath () Char.isAlphanum (sameStem "bin")))) .without).map
          (fun r => r.2.cursor) = .ok 10 ∧
      (attachWithOptions (τ := Unit) eightSlots 10 .latest
        (some (s'.files (offsetPath () Char.isAlphanum (sameStem "bin")))) .without).map
          (fun r => r.2.cursor) = .ok 6 := by
  have hpath : offsetPath () Char.isAlphanum (sameStem "shm") =
      offsetPath () Char.isAlphanum (sameStem "bin") := by decide +kernel
  refine ⟨by decide +kernel, fun h => h.path hpath, ?_⟩
  exact ⟨_, _, rfl, rfl, rfl, rfl⟩

end Ringfire
