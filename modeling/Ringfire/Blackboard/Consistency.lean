import Ringfire.Blackboard.Table
import Ringfire.Foundation.VersionedCell

/-!
# Consistency of the blackboard

A lock never falls, and it is even only while the value under it is that of a complete write: a
write that finds an odd lock goes on to the next odd one, so what a writer left unfinished is never
under an even lock. A reader keeps a copy whose lock was even and the same before and after.

## Main definitions

* `Table.Inv`: what holds in every reachable state
* `Table.Consistent`: the readers' results are complete writes, and never go back

## Main results

* `Table.Inv.step`: every memory access keeps the invariant
* `blackboard_consistent`: the consistency of a blackboard
-/

namespace Ringfire

namespace Blackboard

open ByteMemory VersionedCell

variable {n : ℕ}

/-! ## Slots do not overlap -/

namespace TableLayout

variable (t : TableLayout n) {mem mem' : ℕ → UInt8} {key key' s : ℕ}

/-- Addresses in the slot of `key`. -/
def slot (key : ℕ) : Set ℕ := {a | t.slotAt key ≤ a ∧ a < t.slotAt key + t.slotSize}

theorem slot_disjoint (h : key ≠ key') : Disjoint (t.slot key) (t.slot key') := by
  rw [Set.disjoint_left]
  rintro a ⟨hle, hlt⟩ ⟨hle', hlt'⟩
  unfold slotAt at hle hlt hle' hlt'
  rcases Nat.lt_or_gt_of_ne h with hk | hk
  · have hmul := Nat.mul_le_mul_right t.slotSize hk
    rw [Nat.succ_mul] at hmul
    omega
  · have hmul := Nat.mul_le_mul_right t.slotSize hk
    rw [Nat.succ_mul] at hmul
    omega

theorem valueAt_mem (key : ℕ) (i : Fin n) : t.valueAt key i ∈ t.slot key := by
  have hfits := t.value_fits
  have hi := i.isLt
  unfold valueAt
  constructor
  · omega
  · omega

/-- The lock of a slot is one of the slot's words. -/
theorem mem_slot_of_seqlock {a : ℕ} (h : t.slotAt key ≤ a) (h' : a < t.slotAt key + 8) :
    a ∈ t.slot key := by
  have hfits := t.value_fits
  have hlock := t.seqlock_fits
  exact ⟨h, by omega⟩

theorem seqlock_congr (h : ∀ a ∈ t.slot key, mem a = mem' a) :
    t.seqlock mem key = t.seqlock mem' key :=
  load_congr fun a hle hlt => h a (t.mem_slot_of_seqlock hle hlt)

theorem value_congr (h : ∀ a ∈ t.slot key, mem a = mem' a) : t.value mem key = t.value mem' key :=
  funext fun i => h _ (t.valueAt_mem key i)

/-- Storing a lock changes nothing outside of its slot. -/
theorem storeSeqlock_of_ne (h : key ≠ key') (mem : ℕ → UInt8) (s : ℕ) :
    ∀ a ∈ t.slot key', t.storeSeqlock mem key s a = mem a := by
  intro a ha
  apply store_of_outside
  by_contra hin
  have hmem : a ∈ t.slot key := t.mem_slot_of_seqlock (by omega) (by omega)
  exact Set.disjoint_left.mp (t.slot_disjoint h) hmem ha

theorem seqlock_storeSeqlock (h : s < 2 ^ 64) (mem : ℕ → UInt8) (key : ℕ) :
    t.seqlock (t.storeSeqlock mem key s) key = s :=
  load_store h

theorem value_storeSeqlock (mem : ℕ → UInt8) (key s : ℕ) :
    t.value (t.storeSeqlock mem key s) key = t.value mem key := by
  funext i
  have hfits := t.seqlock_fits
  apply store_of_outside
  unfold valueAt
  omega

/-- Nor does storing a byte of a value. -/
theorem update_value_of_ne (h : key ≠ key') (mem : ℕ → UInt8) (i : Fin n) (b : UInt8) :
    ∀ a ∈ t.slot key', Function.update mem (t.valueAt key i) b a = mem a := by
  intro a ha
  apply Function.update_of_ne
  rintro rfl
  exact Set.disjoint_left.mp (t.slot_disjoint h) (t.valueAt_mem key i) ha

theorem seqlock_update_value (mem : ℕ → UInt8) (key : ℕ) (i : Fin n) (b : UInt8) :
    t.seqlock (Function.update mem (t.valueAt key i) b) key = t.seqlock mem key := by
  have hfits := t.seqlock_fits
  apply load_congr
  intro a hle hlt
  apply Function.update_of_ne
  unfold valueAt
  omega

theorem value_update_value (mem : ℕ → UInt8) (key : ℕ) (i : Fin n) (b : UInt8) :
    t.value (Function.update mem (t.valueAt key i) b) key =
      Function.update (t.value mem key) i b := by
  funext j
  unfold value
  rcases eq_or_ne j i with rfl | hne
  · rw [Function.update_self, Function.update_self]
  · have haddr : t.valueAt key j ≠ t.valueAt key i := by
      intro heq
      apply hne
      unfold valueAt at heq
      exact Fin.ext (by omega)
    rw [Function.update_of_ne haddr, Function.update_of_ne hne]

/-- `create` leaves every lock at zero. -/
theorem seqlock_clear {k : ℕ} (h : key < k) : t.seqlock (t.clear mem k) key = 0 := by
  induction k with
  | zero => exact absurd h (Nat.not_lt_zero key)
  | succ k ih =>
    rw [clear]
    rcases eq_or_ne key k with rfl | hne
    · exact t.seqlock_storeSeqlock (by decide) _ _
    · rw [t.seqlock_congr (t.storeSeqlock_of_ne hne.symm _ 0)]
      exact ih (by omega)

end TableLayout

/-! ## The invariant -/

/-- What the writer knows: nobody else stores to the slot it writes. -/
def WriterPc.Inv (t : TableLayout n) (mem : ℕ → UInt8) : WriterPc n → Prop
  | .idle => True
  | .loaded key _ s₀ => key < t.slotCount ∧ t.seqlock mem key = s₀
  | .copying key val writeS left =>
    key < t.slotCount ∧ t.seqlock mem key = writeS ∧ writeS % 2 = 1 ∧ writeS + 1 < 2 ^ 64 ∧
      ∀ i ∉ left, t.value mem key i = val i

/-- What a reader knows in the middle of a copy. -/
def ReaderPc.Inv (t : TableLayout n) (mem : ℕ → UInt8) (got : List (Result n)) :
    ReaderPc n → Prop
  | .idle => True
  | .looking key => key < t.slotCount
  | .copying key s₁ buf left =>
    key < t.slotCount ∧ s₁ ≠ 0 ∧ s₁ % 2 = 0 ∧
      Tracks (t.seqlock mem key) s₁ (t.seqlock mem key) (t.value mem key) buf left ∧
      ∀ x ∈ got, x.key = key → x.seqlock ≤ s₁

namespace Table

variable {ρ : Type}

/-- An even lock stands over the value of a complete write. -/
structure SlotInv (t : TableLayout n) (s : Table ρ n) (key : ℕ) : Prop where
  untouched : t.seqlock s.mem key = 0 → key ∉ s.begun
  bounded : ∀ x ∈ s.completed key, x.1 ≤ t.seqlock s.mem key
  latest : t.seqlock s.mem key ≠ 0 → t.seqlock s.mem key % 2 = 0 →
    (t.seqlock s.mem key, t.value s.mem key) ∈ s.completed key
  ordered : (s.completed key).Pairwise fun x y => x.1 < y.1

/-- What a reader got is from complete writes, and never goes back. -/
structure ReaderInv (t : TableLayout n) (s : Table ρ n) (r : ρ) : Prop where
  known : ∀ x ∈ s.results r, x.key < t.slotCount ∧ x.seqlock ≤ t.seqlock s.mem x.key
  written : ∀ x ∈ s.results r, ∀ v, x.value = some v → (x.seqlock, v) ∈ s.completed x.key
  forward : (s.results r).Pairwise fun x y => x.key = y.key → x.seqlock ≤ y.seqlock
  pc : (s.readers r).Inv t s.mem (s.results r)

/-- What holds in every reachable state. -/
structure Inv (t : TableLayout n) (s : Table ρ n) : Prop where
  writer : s.writer.Inv t s.mem
  slots : ∀ key < t.slotCount, s.SlotInv t key
  readers : ∀ r, s.ReaderInv t r

/-- What a step of the writer is to the readers: a lock that is not odd stands over the same value
as before or is a new one. -/
structure Grows (t : TableLayout n) (s s' : Table ρ n) : Prop where
  readers : s'.readers = s.readers
  results : s'.results = s.results
  locks : ∀ key < t.slotCount, t.seqlock s.mem key ≤ t.seqlock s'.mem key
  values : ∀ key < t.slotCount, ∃ marker, marker % 2 = 1 ∧
    Evolves marker (t.seqlock s.mem key) (t.seqlock s.mem key) (t.value s.mem key)
      (t.seqlock s'.mem key) (t.value s'.mem key)
  completed : ∀ key, ∀ x ∈ s.completed key, x ∈ s'.completed key

variable {t : TableLayout n} {s s' : Table ρ n}

theorem ReaderInv.grows {r : ρ} (h : s.ReaderInv t r) (hg : s.Grows t s') :
    s'.ReaderInv t r := by
  refine ⟨?_, ?_, ?_, ?_⟩
  · rw [hg.results]
    intro x hx
    obtain ⟨hkey, hle⟩ := h.known x hx
    exact ⟨hkey, hle.trans (hg.locks x.key hkey)⟩
  · rw [hg.results]
    exact fun x hx v hv => hg.completed x.key _ (h.written x hx v hv)
  · rw [hg.results]
    exact h.forward
  · have hpc := h.pc
    rw [hg.readers, hg.results]
    generalize s.readers r = pc at hpc
    cases pc with
    | idle => trivial
    | looking key => exact hpc
    | copying key s₁ buf left =>
      obtain ⟨hkey, hne, heven, htracks, hle⟩ := hpc
      -- the reader copies under an even lock, which is not the writer's mark
      obtain ⟨marker, hodd, hevolves⟩ := hg.values key hkey
      have hmarker : s₁ ≠ marker := by
        rintro rfl
        omega
      exact ⟨hkey, hne, heven, htracks.evolves hmarker (hg.locks key hkey) hevolves, hle⟩

/-- A slot whose memory and whose writes are the same. -/
theorem SlotInv.congr {key : ℕ} (h : s.SlotInv t key) (hmem : ∀ a ∈ t.slot key, s'.mem a = s.mem a)
    (hbegun : key ∈ s'.begun → key ∈ s.begun) (hcompleted : s'.completed key = s.completed key) :
    s'.SlotInv t key := by
  have hlock := t.seqlock_congr hmem
  have hvalue := t.value_congr hmem
  refine ⟨?_, ?_, ?_, ?_⟩
  · rw [hlock]
    exact fun hzero hmem => h.untouched hzero (hbegun hmem)
  · rw [hlock, hcompleted]
    exact h.bounded
  · rw [hlock, hvalue, hcompleted]
    exact h.latest
  · rw [hcompleted]
    exact h.ordered

/-- Under an odd lock nothing is asked of the value. -/
theorem SlotInv.of_odd {key : ℕ} (hodd : t.seqlock s.mem key % 2 = 1)
    (hbounded : ∀ x ∈ s.completed key, x.1 ≤ t.seqlock s.mem key)
    (hordered : (s.completed key).Pairwise fun x y => x.1 < y.1) : s.SlotInv t key := by
  refine ⟨fun hzero => ?_, hbounded, fun _ heven => ?_, hordered⟩
  · rw [hzero] at hodd
    cases hodd
  · rw [hodd] at heven
    cases heven

/-- A step of the writer on the slot of `k`. -/
structure Touches (t : TableLayout n) (k : ℕ) (s s' : Table ρ n) : Prop where
  readers : s'.readers = s.readers
  results : s'.results = s.results
  frame : ∀ key ≠ k, ∀ a ∈ t.slot key, s'.mem a = s.mem a
  begun : ∀ key ≠ k, key ∈ s'.begun → key ∈ s.begun
  others : ∀ key ≠ k, s'.completed key = s.completed key
  completed : ∀ x ∈ s.completed k, x ∈ s'.completed k

theorem Touches.grows {k : ℕ} (h : s.Touches t k s')
    (hlock : t.seqlock s.mem k ≤ t.seqlock s'.mem k) {marker : ℕ} (hodd : marker % 2 = 1)
    (hvalue : Evolves marker (t.seqlock s.mem k) (t.seqlock s.mem k) (t.value s.mem k)
      (t.seqlock s'.mem k) (t.value s'.mem k)) : s.Grows t s' := by
  refine ⟨h.readers, h.results, fun key _ => ?_, fun key _ => ?_, fun key => ?_⟩
  · rcases eq_or_ne key k with rfl | hne
    · exact hlock
    · rw [t.seqlock_congr (h.frame key hne)]
  · rcases eq_or_ne key k with rfl | hne
    · exact ⟨marker, hodd, hvalue⟩
    · rw [t.seqlock_congr (h.frame key hne), t.value_congr (h.frame key hne)]
      exact ⟨marker, hodd, .refl _ _ _⟩
  · rcases eq_or_ne key k with rfl | hne
    · exact h.completed
    · rw [h.others key hne]
      exact fun x hx => hx

theorem Inv.touches {k : ℕ} (h : s.Inv t) (ht : s.Touches t k s') (hg : s.Grows t s')
    (hwriter : s'.writer.Inv t s'.mem) (hslot : s'.SlotInv t k) : s'.Inv t := by
  refine ⟨hwriter, fun key hkey => ?_, fun r => (h.readers r).grows hg⟩
  rcases eq_or_ne key k with rfl | hne
  · exact hslot
  · exact (h.slots key hkey).congr (ht.frame key hne) (ht.begun key hne) (ht.others key hne)

theorem writeMark_odd (s₀ : ℕ) : writeMark s₀ % 2 = 1 := by
  unfold writeMark
  split_ifs with h
  · omega
  · omega

theorem lt_writeMark (s₀ : ℕ) : s₀ < writeMark s₀ ∧ writeMark s₀ ≤ s₀ + 2 := by
  unfold writeMark
  split_ifs
  · omega
  · omega

/-- Marking a write as in progress makes the lock odd, also when it was odd already. -/
theorem Inv.mark (h : s.Inv t) {key s₀ : ℕ} {val : Fin n → UInt8}
    (hw : s.writer = .loaded key val s₀) (hbound : s₀ < 2 ^ 64 - 4) :
    Inv t { s with
      mem := t.storeSeqlock s.mem key (writeMark s₀)
      writer := .copying key val (writeMark s₀) Finset.univ
      begun := key :: s.begun } := by
  have hpc := h.writer
  rw [hw] at hpc
  obtain ⟨hkey, rfl⟩ := hpc
  have hold := h.slots key hkey
  have hodd := writeMark_odd (t.seqlock s.mem key)
  obtain ⟨hlt, hle⟩ := lt_writeMark (t.seqlock s.mem key)
  have hlock :=
    t.seqlock_storeSeqlock (by omega : writeMark (t.seqlock s.mem key) < 2 ^ 64) s.mem key
  have hvalue := t.value_storeSeqlock s.mem key (writeMark (t.seqlock s.mem key))
  generalize writeMark (t.seqlock s.mem key) = m at hodd hlt hle hlock hvalue
  have ht : s.Touches t key { s with
      mem := t.storeSeqlock s.mem key m
      writer := .copying key val m Finset.univ
      begun := key :: s.begun } :=
    { readers := rfl
      results := rfl
      frame := fun key' hne => t.storeSeqlock_of_ne hne.symm s.mem m
      begun := fun key' hne hmem => (List.mem_cons.mp hmem).resolve_left hne
      others := fun _ _ => rfl
      completed := fun _ hx => hx }
  -- the odd value is newer than every complete one, and readers wait while it is there
  refine h.touches ht (ht.grows ?_ hodd ?_) ?_ ?_
  · rw [hlock]
    exact hlt.le
  · exact fun hne => absurd hlock hne
  · exact ⟨hkey, hlock, hodd, by omega, fun i hi => absurd (Finset.mem_univ i) hi⟩
  · refine .of_odd ?_ (fun x hx => ?_) hold.ordered
    · rw [hlock]
      exact hodd
    · rw [hlock]
      exact (hold.bounded x hx).trans hlt.le

/-- A byte is copied while the lock is odd. -/
theorem Inv.copy (h : s.Inv t) {key writeS : ℕ} {val : Fin n → UInt8} {left : Finset (Fin n)}
    (hw : s.writer = .copying key val writeS left) (i : Fin n) :
    Inv t { s with
      mem := Function.update s.mem (t.valueAt key i) (val i)
      writer := .copying key val writeS (left.erase i) } := by
  have hpc := h.writer
  rw [hw] at hpc
  obtain ⟨hkey, hwriteS, hodd, hlt, hcopied⟩ := hpc
  have hold := h.slots key hkey
  have hlock := t.seqlock_update_value s.mem key i (val i)
  have hvalue := t.value_update_value s.mem key i (val i)
  rw [hwriteS] at hlock
  -- one byte of the slot changes, under an odd seqlock
  have ht : s.Touches t key { s with
      mem := Function.update s.mem (t.valueAt key i) (val i)
      writer := .copying key val writeS (left.erase i) } :=
    { readers := rfl
      results := rfl
      frame := fun key' hne => t.update_value_of_ne hne.symm s.mem i (val i)
      begun := fun _ _ hmem => hmem
      others := fun _ _ => rfl
      completed := fun _ hx => hx }
  refine h.touches ht (ht.grows ?_ hodd ?_) ?_ ?_
  · rw [hlock, hwriteS]
  · exact fun hne => absurd hlock hne
  · refine ⟨hkey, hlock, hodd, hlt, fun j hj => ?_⟩
    rw [hvalue]
    rcases eq_or_ne j i with rfl | hne
    · rw [Function.update_self]
    · rw [Function.update_of_ne hne]
      exact hcopied j fun hmem => hj (Finset.mem_erase.mpr ⟨hne, hmem⟩)
  · refine .of_odd ?_ (fun x hx => ?_) hold.ordered
    · rw [hlock]
      exact hodd
    · rw [hlock, ← hwriteS]
      exact hold.bounded x hx

/-- Marking a write as complete makes the lock even, and by then the whole value is there. -/
theorem Inv.complete (h : s.Inv t) {key writeS : ℕ} {val : Fin n → UInt8}
    (hw : s.writer = .copying key val writeS ∅) :
    Inv t { s with
      mem := t.storeSeqlock s.mem key (writeS + 1)
      writer := .idle
      completed := Function.update s.completed key (s.completed key ++ [(writeS + 1, val)]) } := by
  have hpc := h.writer
  rw [hw] at hpc
  obtain ⟨hkey, hwriteS, hodd, hlt, hcopied⟩ := hpc
  have hold := h.slots key hkey
  have hlock := t.seqlock_storeSeqlock hlt s.mem key
  have hvalue : t.value (t.storeSeqlock s.mem key (writeS + 1)) key = val := by
    rw [t.value_storeSeqlock]
    exact funext fun i => hcopied i (Finset.notMem_empty i)
  have ht : s.Touches t key { s with
      mem := t.storeSeqlock s.mem key (writeS + 1)
      writer := .idle
      completed := Function.update s.completed key (s.completed key ++ [(writeS + 1, val)]) } :=
    { readers := rfl
      results := rfl
      frame := fun key' hne => t.storeSeqlock_of_ne hne.symm s.mem (writeS + 1)
      begun := fun _ _ hmem => hmem
      others := fun key' hne => Function.update_of_ne hne _ _
      completed := fun x hx => by
        simp only [Function.update_self]
        exact List.mem_append_left _ hx }
  -- no mark is left behind: the lock is new, and every reader under an older one will see that
  refine h.touches ht (ht.grows ?_ (show 1 % 2 = 1 from rfl) ?_) trivial ?_
  · rw [hlock, hwriteS]
    exact Nat.le_succ _
  · intro _
    right
    rw [hlock, hwriteS]
    exact Nat.lt_succ_self _
  · refine ⟨fun hzero => ?_, fun x hx => ?_, fun _ _ => ?_, ?_⟩
    · simp only [hlock] at hzero
      omega
    · simp only [hlock]
      simp only [Function.update_self] at hx
      rcases List.mem_append.mp hx with hx | hx
      · rw [← hwriteS]
        exact (hold.bounded x hx).trans (Nat.le_succ _)
      · rw [List.mem_singleton.mp hx]
    · simp only [hlock, hvalue, Function.update_self]
      exact List.mem_append_right _ List.mem_cons_self
    · simp only [Function.update_self]
      rw [List.pairwise_append]
      refine ⟨hold.ordered, List.pairwise_singleton _ _, fun x hx y hy => ?_⟩
      rw [List.mem_singleton.mp hy]
      have hle := hold.bounded x hx
      rw [hwriteS] at hle
      exact Nat.lt_succ_of_le hle

/-! ## Readers -/

variable [DecidableEq ρ]

/-- A table one of whose readers moved. -/
def setReader (s : Table ρ n) (r : ρ) (pc : ReaderPc n) (res : Option (Result n)) : Table ρ n :=
  { s with
    readers := Function.update s.readers r pc
    results := Function.update s.results r (s.results r ++ res.toList) }

/-- A reader that returns nothing. -/
theorem ReaderInv.quiet {r : ρ} {pc : ReaderPc n} (h : s.ReaderInv t r)
    (hpc : pc.Inv t s.mem (s.results r)) : (s.setReader r pc none).ReaderInv t r := by
  refine ⟨?_, ?_, ?_, ?_⟩ <;>
    simp only [setReader, Function.update_self, Option.toList_none, List.append_nil]
  · exact h.known
  · exact h.written
  · exact h.forward
  · exact hpc

/-- A reader that returns `Ok`. -/
theorem ReaderInv.got {r : ρ} {x : Result n} (h : s.ReaderInv t r)
    (hkey : x.key < t.slotCount) (hle : x.seqlock ≤ t.seqlock s.mem x.key)
    (hwritten : ∀ v, x.value = some v → (x.seqlock, v) ∈ s.completed x.key)
    (hforward : ∀ y ∈ s.results r, y.key = x.key → y.seqlock ≤ x.seqlock) :
    (s.setReader r .idle (some x)).ReaderInv t r := by
  refine ⟨?_, ?_, ?_, ?_⟩ <;>
    simp only [setReader, Function.update_self, Option.toList_some]
  · intro y hy
    rcases List.mem_append.mp hy with hy | hy
    · exact h.known y hy
    · rw [List.mem_singleton.mp hy]
      exact ⟨hkey, hle⟩
  · intro y hy
    rcases List.mem_append.mp hy with hy | hy
    · exact h.written y hy
    · rw [List.mem_singleton.mp hy]
      exact hwritten
  · rw [List.pairwise_append]
    refine ⟨h.forward, List.pairwise_singleton _ _, fun y hy z hz => ?_⟩
    rw [List.mem_singleton.mp hz]
    exact hforward y hy
  · trivial

/-- What a reader's move does: nothing is returned, or `None` over a lock that is zero, or a copy
over a lock that is the same after the copy as before. -/
theorem ReaderInv.move (h : s.Inv t) {r : ρ} {a : ReaderLabel n} {pc : ReaderPc n}
    {res : Option (Result n)} (hstep : (s.readers r).step t s.mem a = some (pc, res)) :
    (s.setReader r pc res).ReaderInv t r := by
  have hr := h.readers r
  have hpc := hr.pc
  generalize s.readers r = pc₀ at hpc hstep
  unfold ReaderPc.step at hstep
  split at hstep
  · -- `read` is called
    split_ifs at hstep with hkey
    · cases hstep
      exact hr.quiet hkey
    · cases hstep
      exact hr.quiet trivial
  · next key =>
    split_ifs at hstep with hzero heven
    · -- nothing was read under a lock above zero so far
      cases hstep
      refine hr.got hpc (Nat.zero_le _) (by rintro _ ⟨⟩) fun y hy hykey => ?_
      have hle := (hr.known y hy).2
      rw [hykey] at hle
      exact hle.trans hzero.le
    · cases hstep
      refine hr.quiet ⟨hpc, hzero, heven, .start _ _ (le_refl _), fun y hy hykey => ?_⟩
      have hle := (hr.known y hy).2
      rwa [hykey] at hle
    · cases hstep
      exact hr.quiet hpc
  · cases hstep
    exact hr.quiet trivial
  · next key s₁ buf left i =>
    split_ifs at hstep with hi
    cases hstep
    obtain ⟨hkey, hne, heven, htracks, hforward⟩ := hpc
    exact hr.quiet ⟨hkey, hne, heven, htracks.copy i, hforward⟩
  · next key s₁ buf left =>
    obtain ⟨hkey, hne, heven, htracks, hforward⟩ := hpc
    split_ifs at hstep with hleft hsame
    · cases hstep
      subst hleft
      -- the lock is even, so it stands over a complete write, and the copy is its value
      have hbuf := htracks.eq_of_complete hsame
      refine hr.got hkey hsame.ge ?_ hforward
      rintro _ ⟨⟩
      rw [hbuf, ← hsame]
      exact (h.slots key hkey).latest (hsame ▸ hne) (hsame ▸ heven)
    · cases hstep
      exact hr.quiet hkey
  · cases hstep

/-! ## Runs -/

/-- No lock comes near the end of its range. -/
def Bounded (t : TableLayout n) (s : Table ρ n) : Prop :=
  ∀ key < t.slotCount, t.seqlock s.mem key < 2 ^ 64 - 4

omit [DecidableEq ρ] in
theorem Inv.setWriter (h : s.Inv t) {pc : WriterPc n} (hpc : pc.Inv t s.mem) :
    Inv t { s with writer := pc } :=
  ⟨hpc, fun key hkey => (h.slots key hkey).congr (fun _ _ => rfl) id rfl,
    fun r => (h.readers r).grows ⟨rfl, rfl, fun _ _ => le_refl _,
      fun _ _ => ⟨1, rfl, .refl _ _ _⟩, fun _ _ hx => hx⟩⟩

omit [DecidableEq ρ] in
theorem Inv.stepWriter (h : s.Inv t) (hb : s.Bounded t) {a : WriterLabel n}
    (hstep : s.stepWriter t s.writer a = some s') : s'.Inv t := by
  generalize hw : s.writer = pc at hstep
  unfold Table.stepWriter at hstep
  split at hstep
  · split_ifs at hstep with hkey
    · cases hstep
      exact h.setWriter ⟨hkey, rfl⟩
    · cases hstep
      exact h
  · next key val s₀ =>
    cases hstep
    have hpc := h.writer
    rw [hw] at hpc
    exact h.mark hw (hpc.2 ▸ hb key hpc.1)
  · split_ifs at hstep with hi
    cases hstep
    exact h.copy hw _
  · split_ifs at hstep with hleft
    cases hstep
    subst hleft
    exact h.complete hw
  · cases hstep
    exact h.setWriter trivial
  · cases hstep

/-- Every memory access keeps the invariant. -/
theorem Inv.step (h : s.Inv t) (hb : s.Bounded t) {a : TableLabel ρ n}
    (hstep : s.step t a = some s') : s'.Inv t := by
  cases a with
  | writer a => exact h.stepWriter hb hstep
  | reader r a =>
    obtain ⟨⟨pc, res⟩, hmove, rfl⟩ := Option.map_eq_some_iff.mp hstep
    refine ⟨h.writer, fun key hkey => ?_, fun r' => ?_⟩
    · exact (h.slots key hkey).congr (fun _ _ => rfl) id rfl
    · rcases eq_or_ne r' r with rfl | hne
      · exact ReaderInv.move h hmove
      · have hr := h.readers r'
        refine ⟨?_, ?_, ?_, ?_⟩ <;> simp only [Function.update_of_ne hne]
        · exact hr.known
        · exact hr.written
        · exact hr.forward
        · exact hr.pc

omit [DecidableEq ρ] in
theorem create_inv (t : TableLayout n) (mem : ℕ → UInt8) : (create ρ t mem).Inv t := by
  refine ⟨trivial, fun key hkey => ?_, fun r => ?_⟩
  · have hzero : t.seqlock (create ρ t mem).mem key = 0 := t.seqlock_clear hkey
    refine ⟨fun _ => List.not_mem_nil, ?_, fun hne => absurd hzero hne, .nil⟩
    rintro _ ⟨⟩
  · refine ⟨?_, ?_, .nil, trivial⟩
    · rintro _ ⟨⟩
    · rintro _ ⟨⟩

/-- The states that are reached from a fresh table on memory of any content. -/
def Reachable (t : TableLayout n) (s : Table ρ n) : Prop :=
  ∃ mem, Transition.ReachesBy (fun s _ => Bounded t s) (Table.step t) (create ρ t mem) s

theorem Reachable.inv (h : s.Reachable t) : s.Inv t := by
  obtain ⟨mem, hreach⟩ := h
  exact hreach.invariant (fun hinv hb hstep => hinv.step hb hstep) (create_inv t mem)

end Table

/-- The key that the writer is writing. -/
def WriterPc.key : WriterPc n → Option ℕ
  | .idle => none
  | .loaded key _ _ => some key
  | .copying key _ _ _ => some key

namespace Table

variable {ρ : Type} {t : TableLayout n} {s s' : Table ρ n}

/-- What every reader got for a key was left by writes that are complete, and one complete write
after the other, never going back. -/
structure Consistent (t : TableLayout n) (s : Table ρ n) : Prop where
  written : ∀ r, ∀ x ∈ s.results r, ∀ v, x.value = some v → (x.seqlock, v) ∈ s.completed x.key
  ordered : ∀ key < t.slotCount, (s.completed key).Pairwise fun x y => x.1 < y.1
  forward : ∀ r, (s.results r).Pairwise fun x y => x.key = y.key → x.seqlock ≤ y.seqlock

theorem Inv.consistent (h : s.Inv t) : s.Consistent t :=
  ⟨fun r => (h.readers r).written, fun key hkey => (h.slots key hkey).ordered,
    fun r => (h.readers r).forward⟩

variable [DecidableEq ρ]

/-- `None` is returned over a lock that is zero. -/
theorem Inv.not_begun (h : s.Inv t) {r : ρ} {a : ReaderLabel n} {key seqlock : ℕ}
    (hstep : s.step t (.reader r a) = some s')
    (hres : s'.results r = s.results r ++ [⟨key, seqlock, none⟩]) : key ∉ s.begun := by
  obtain ⟨⟨pc, res⟩, hmove, rfl⟩ := Option.map_eq_some_iff.mp hstep
  simp only [Function.update_self, List.append_cancel_left_eq] at hres
  obtain rfl : res = some ⟨key, seqlock, none⟩ := by
    cases res with
    | none => cases hres
    | some x =>
      cases hres
      rfl
  have hpc := (h.readers r).pc
  generalize s.readers r = pc₀ at hpc hmove
  unfold ReaderPc.step at hmove
  split at hmove
  · split_ifs at hmove
    all_goals cases hmove
  -- the one way to return nothing: the seqlock is zero
  · split_ifs at hmove with hzero
    · cases hmove
      exact (h.slots key hpc).untouched hzero
    all_goals cases hmove
  · cases hmove
  · split_ifs at hmove
    cases hmove
  · split_ifs at hmove
    all_goals cases hmove
  · cases hmove

/-- A slot that is not being written does not change. -/
theorem step_frame {a : TableLabel ρ n} (hstep : s.step t a = some s') {key : ℕ}
    (hkey : s.writer.key ≠ some key) :
    (∀ i ∈ t.slot key, s'.mem i = s.mem i) ∧ s'.completed key = s.completed key := by
  cases a with
  | reader r a =>
    obtain ⟨_, -, rfl⟩ := Option.map_eq_some_iff.mp hstep
    exact ⟨fun _ _ => rfl, rfl⟩
  | writer a =>
    change s.stepWriter t s.writer a = some s' at hstep
    -- every store of the writer goes to the slot of its key
    generalize s.writer = pc at hstep hkey
    unfold Table.stepWriter at hstep
    split at hstep
    · split_ifs at hstep
      · cases hstep
        exact ⟨fun _ _ => rfl, rfl⟩
      · cases hstep
        exact ⟨fun _ _ => rfl, rfl⟩
    · next key' val s₀ =>
      cases hstep
      exact ⟨t.storeSeqlock_of_ne (fun heq => hkey (congrArg some heq)) _ _, rfl⟩
    · next key' val writeS left i =>
      split_ifs at hstep
      cases hstep
      exact ⟨t.update_value_of_ne (fun heq => hkey (congrArg some heq)) _ _ _, rfl⟩
    · next key' val writeS left =>
      have hne : key' ≠ key := fun heq => hkey (congrArg some heq)
      split_ifs at hstep
      cases hstep
      exact ⟨t.storeSeqlock_of_ne hne _ _, Function.update_of_ne hne.symm _ _⟩
    · cases hstep
      exact ⟨fun _ _ => rfl, rfl⟩
    · cases hstep

end Table

/-- **The consistency of a blackboard.** One writer at a time, on any keys, may stop for ever
anywhere and be followed by another, and any number of readers read, all one memory access at a
time in any order. Then every value a reader gets for a key is one whose write to that key is
complete, and no reader gets one that is older than what it got before; `None` is returned only
while no write to the key has begun; and a slot changes only while its own key is written. -/
theorem blackboard_consistent {ρ : Type} [DecidableEq ρ] {t : TableLayout n} {s : Table ρ n}
    (h : s.Reachable t) :
    s.Consistent t ∧
    (∀ r a s' key seqlock, s.step t (.reader r a) = some s' →
      s'.results r = s.results r ++ [⟨key, seqlock, none⟩] → key ∉ s.begun) ∧
    (∀ a s' key, s.step t a = some s' → s.writer.key ≠ some key →
      (∀ i ∈ t.slot key, s'.mem i = s.mem i) ∧ s'.completed key = s.completed key) :=
  ⟨h.inv.consistent, fun _ _ _ _ _ hstep hres => h.inv.not_begun hstep hres,
    fun _ _ _ hstep hkey => Table.step_frame hstep hkey⟩

instance {ρ : Type} (t : TableLayout n) (s : Table ρ n) : Decidable (s.Bounded t) :=
  inferInstanceAs (Decidable (∀ key < t.slotCount, t.seqlock s.mem key < 2 ^ 64 - 4))

/-- A writer stops with its write in progress, another one takes over and completes a write to the
same key, and a reader reads it. -/
def takenOver : List (TableLabel Unit 1) :=
  [.writer (.write 1 fun _ => 5), .writer .mark, .writer .replace,
    .writer (.write 1 fun _ => 6), .writer .mark, .writer (.copy onlyWord), .writer .complete,
    .reader () (.read 1), .reader () .look, .reader () (.copy onlyWord), .reader () .check]

/-- Two keys with values of one byte each. -/
theorem blackboard_consistent_taken_over :
    ∃ s : Table Unit 1, s.Reachable (.raw 1 2) ∧
      (s.results ()).map (fun x => (x.seqlock, x.value)) = [(4, some fun _ => 6)] ∧
      s.Consistent (.raw 1 2) := by
  obtain ⟨s, hrun, hres⟩ : ∃ s : Table Unit 1,
      Transition.run (Transition.guarded (fun s _ => s.Bounded (.raw 1 2)) (Table.step (.raw 1 2)))
        (Table.create Unit (.raw 1 2) fun _ => 7) takenOver = some s ∧
      (s.results ()).map (fun x => (x.seqlock, x.value)) = [(4, some fun _ => 6)] :=
    ⟨_, rfl, by decide +kernel⟩
  have hreach : s.Reachable (.raw 1 2) := ⟨_, .of_run takenOver .refl hrun⟩
  exact ⟨s, hreach, hres, (blackboard_consistent hreach).1⟩

end Blackboard

end Ringfire
