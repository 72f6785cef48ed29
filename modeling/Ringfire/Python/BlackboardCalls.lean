import Mathlib.Algebra.BigOperators.Ring.List
import Ringfire.Python.Blackboard
import Ringfire.Replication.Descriptor

/-!
# Calls of the Python blackboard consumer

What a single call of `BlackboardConsumer.read` comes to: which tables it reads rightly, how long it
takes whatever the writer does, and what it returns when the writer leaves the key alone.

## Main definitions

* `Python.ReadsWrites`: every value the consumers of a table return is that of a complete write
* `Python.BlackboardPc.toGo`: a bound on the accesses before the call returns

## Main results

* `Python.reads_writes_iff`: the consumers read rightly exactly where the value is behind the lock
* `Python.blackboard_read_typed`: the same for the table of a Rust type
* `Python.blackboard_read_returns`: every call returns, and at once where nobody writes
-/

namespace Ringfire

open Blackboard ByteMemory Transition

namespace Python

variable {n : ℕ} {t : TableLayout n}

/-! ## Tables whose value is not behind the lock -/

/-- Every value that the consumers return is that of a complete write, in a table that was created
in a new file. -/
def ReadsWrites (t : TableLayout n) : Prop :=
  ∀ (ρ κ : Type) [DecidableEq ρ] [DecidableEq κ] (s : MixedTable ρ κ n),
    MixedTable.Leads t (.create ρ κ t fun _ => 0) s →
      ∀ k, ∀ y ∈ (s.observer k).results, ∀ v, y.value = some v →
        (y.seqlock, v) ∈ s.base.completed y.key

namespace MixedTable

/-- A table with one consumer, in Python. -/
abbrev Single (n : ℕ) := MixedTable Empty Unit n

/-- One of its states. -/
def single (mem : ℕ → UInt8) (writer : Blackboard.WriterPc n) (begun : List ℕ)
    (completed : ℕ → List (ℕ × (Fin n → UInt8))) (c : BlackboardConsumer n) : Single n where
  base := ⟨mem, writer, fun _ => .idle, fun _ => [], begun, completed⟩
  observer := fun _ => c

variable {mem mem' : ℕ → UInt8} {writer writer' : Blackboard.WriterPc n} {begun begun' : List ℕ}
  {completed completed' : ℕ → List (ℕ × (Fin n → UInt8))} {c c' : BlackboardConsumer n}
  {s : Single n}

/-- No lock comes near the end of its range. -/
def Low (t : TableLayout n) (mem : ℕ → UInt8) : Prop :=
  ∀ key < t.slotCount, t.seqlock mem key < 2 ^ 64 - 4

theorem Low.storeSeqlock {mem : ℕ → UInt8} (h : Low t mem) {m : ℕ} (hm : m < 2 ^ 64 - 4)
    (key : ℕ) : Low t (t.storeSeqlock mem key m) := by
  intro key' hkey'
  rcases eq_or_ne key key' with rfl | hne
  · rwa [t.seqlock_storeSeqlock (by omega)]
  · rw [t.seqlock_congr (t.storeSeqlock_of_ne hne _ _)]
    exact h key' hkey'

theorem Low.update_value {mem : ℕ → UInt8} (h : Low t mem) (key : ℕ) (i : Fin n) (b : UInt8) :
    Low t (Function.update mem (t.valueAt key i) b) := by
  intro key' hkey'
  rcases eq_or_ne key key' with rfl | hne
  · rw [t.seqlock_update_value]
    exact h key hkey'
  · rw [t.seqlock_congr (t.update_value_of_ne hne _ _ _)]
    exact h key' hkey'

/-- The writer moves. -/
theorem Leads.write (h : Leads t s (single mem writer begun completed c)) (hlow : Low t mem)
    {a : Blackboard.WriterLabel n}
    (hstep : (single mem writer begun completed c).base.stepWriter t writer a =
      some (single mem' writer' begun' completed' c).base) :
    Leads t s (single mem' writer' begun' completed' c) := by
  refine ReachesBy.tail (a := .base (.writer a)) h hlow ?_
  exact Option.map_eq_some_iff.mpr ⟨_, hstep, rfl⟩

/-- The consumer moves. -/
theorem Leads.read (h : Leads t s (single mem writer begun completed c)) (hlow : Low t mem)
    {a : BlackboardLabel n} (hstep : c.step t mem a = some c') :
    Leads t s (single mem writer begun completed c') := by
  refine ReachesBy.tail (a := .observer () a) h hlow ?_
  refine Option.map_eq_some_iff.mpr ⟨c', hstep, ?_⟩
  unfold single
  congr 1

/-- The writer goes through its copy. The bytes outside of the value, and the locks, stay. -/
theorem Leads.writerCopies {key m : ℕ} {val : Fin n → UInt8} (left : Finset (Fin n)) :
    ∀ {mem : ℕ → UInt8}, Low t mem →
      Leads t s (single mem (.copying key val m left) begun completed c) →
      ∃ mem', Low t mem' ∧ (∀ a, (∀ i, a ≠ t.valueAt key i) → mem' a = mem a) ∧
        Leads t s (single mem' (.copying key val m ∅) begun completed c) := by
  induction left using Finset.induction_on with
  | empty => exact fun {mem} hlow h => ⟨mem, hlow, fun _ _ => rfl, h⟩
  | insert i left hi ih =>
    intro mem hlow h
    have hnext : Leads t s (single (Function.update mem (t.valueAt key i) (val i))
        (.copying key val m left) begun completed c) := by
      refine h.write (a := .copy i) hlow ?_
      simp only [single, Table.stepWriter, Finset.mem_insert_self, if_true, Finset.erase_insert hi]
    obtain ⟨mem', hlow', hmem', hlead⟩ := ih (hlow.update_value key i _) hnext
    refine ⟨mem', hlow', fun a ha => ?_, hlead⟩
    rw [hmem' a ha]
    exact Function.update_of_ne (ha i) _ _

/-- The consumer goes through its copy. -/
theorem Leads.consumerCopies (hlow : Low t mem) {key tries m : ℕ} (left : Finset (Fin n)) :
    ∀ {buf : Fin n → UInt8}, (∀ i ∉ left, buf i = packed t mem key i) →
      Leads t s (single mem writer begun completed ⟨.copying key tries m buf left, []⟩) →
      Leads t s
        (single mem writer begun completed ⟨.copying key tries m (packed t mem key) ∅, []⟩) := by
  induction left using Finset.induction_on with
  | empty =>
    intro buf hbuf h
    obtain rfl : buf = packed t mem key := funext fun i => hbuf i (Finset.notMem_empty i)
    exact h
  | insert i left hi ih =>
    intro buf hbuf h
    have hnext : Leads t s (single mem writer begun completed
        ⟨.copying key tries m (Function.update buf i (packed t mem key i)) left, []⟩) := by
      refine h.read (a := .copy i) hlow ?_
      simp only [BlackboardConsumer.step, Finset.mem_insert_self, if_true, Finset.erase_insert hi]
    refine ih (fun j hj => ?_) hnext
    rcases eq_or_ne j i with rfl | hne
    · rw [Function.update_self]
    · rw [Function.update_of_ne hne]
      exact hbuf j fun hmem => hj ((Finset.mem_insert.mp hmem).resolve_left hne)

/-- The first write to a key. The bytes outside of its lock and its value stay. -/
theorem Leads.writes (h : Leads t s (single mem .idle begun completed c)) (hlow : Low t mem)
    {key : ℕ} (hkey : key < t.slotCount) (hzero : t.seqlock mem key = 0) (val : Fin n → UInt8) :
    ∃ mem', Low t mem' ∧ t.seqlock mem' key = 2 ∧
      (∀ a, (∀ i, a ≠ t.valueAt key i) → a < t.slotAt key ∨ t.slotAt key + 8 ≤ a →
        mem' a = mem a) ∧
      Leads t s (single mem' .idle (key :: begun)
        (Function.update completed key (completed key ++ [(2, val)])) c) := by
  have hloaded : Leads t s (single mem (.loaded key val 0) begun completed c) := by
    refine h.write (a := .write key val) hlow ?_
    simp only [single, Table.stepWriter, if_pos hkey, hzero]
  have hmarked : Leads t s (single (t.storeSeqlock mem key 1)
      (.copying key val 1 Finset.univ) (key :: begun) completed c) :=
    hloaded.write (a := .mark) hlow rfl
  obtain ⟨mem', hlow', hmem', hcopied⟩ :=
    Leads.writerCopies Finset.univ (hlow.storeSeqlock (by decide) key) hmarked
  refine ⟨t.storeSeqlock mem' key 2, hlow'.storeSeqlock (by decide) key,
    t.seqlock_storeSeqlock (by decide) mem' key, fun a hvalue hlock => ?_,
    hcopied.write (a := .complete) hlow' rfl⟩
  have hlast : t.storeSeqlock mem' key 2 a = mem' a := store_of_outside hlock
  have hfirst : t.storeSeqlock mem key 1 a = mem a := store_of_outside hlock
  rw [hlast, hmem' a hvalue, hfirst]

/-- A call that nobody disturbs returns what is behind the lock. -/
theorem Leads.receives (h : Leads t s (single mem writer begun completed ⟨.idle, []⟩))
    (hlow : Low t mem) {key : ℕ} (hkey : key < t.slotCount) (htwo : t.seqlock mem key = 2) :
    Leads t s (single mem writer begun completed
      ⟨.idle, [.got ⟨key, 2, some (packed t mem key)⟩]⟩) := by
  have hcalled : Leads t s (single mem writer begun completed ⟨.looking key 100, []⟩) := by
    refine h.read (a := .read key) hlow ?_
    exact if_neg (by omega)
  have hlooked : Leads t s (single mem writer begun completed
      ⟨.copying key 99 2 (fun _ => 0) Finset.univ, []⟩) := by
    refine hcalled.read (a := .look) hlow ?_
    simp only [BlackboardConsumer.step, htwo]
    rfl
  have hread := Leads.consumerCopies hlow Finset.univ
    (fun i hi => absurd (Finset.mem_univ i) hi) hlooked
  refine hread.read (a := .check) hlow ?_
  simp only [BlackboardConsumer.step, htwo]
  rfl

/-- `create` stores locks only. -/
theorem clear_of_outside {mem : ℕ → UInt8} {a k : ℕ}
    (h : ∀ key < k, a < t.slotAt key ∨ t.slotAt key + 8 ≤ a) : t.clear mem k a = mem a := by
  induction k with
  | zero => rfl
  | succ k ih =>
    rw [TableLayout.clear, TableLayout.storeSeqlock, store_of_outside (h k (Nat.lt_succ_self k))]
    exact ih fun key hkey => h key (Nat.lt_succ_of_lt hkey)

/-- **A value that is not behind the lock is misread.** The byte behind the lock is padding, which
no write touches. -/
theorem exists_misread (hpos : 0 < n) (hcount : 0 < t.slotCount) (hgap : 8 < t.valueOffset) :
    ∃ s : Single n, Leads t (.create Empty Unit t fun _ => 0) s ∧
      s.base.completed 0 = [(2, fun _ => 1)] ∧
      ∃ buf, (s.observer ()).results = [⟨0, 2, some buf⟩] ∧ buf ⟨0, hpos⟩ = 0 := by
  let val : Fin n → UInt8 := fun _ => 1
  let pad : ℕ := packedAt t 0 ⟨0, hpos⟩
  have hfits := t.value_fits
  have hpad : pad = t.slotAt 0 + 8 := rfl
  -- the padding is neither a lock nor a byte of the value
  have hclear : t.clear (fun _ => 0) t.slotCount pad = 0 := by
    refine clear_of_outside fun key _ => ?_
    rcases Nat.eq_zero_or_pos key with rfl | hkey
    · exact .inr hpad.ge
    · have hmul := Nat.mul_le_mul_right t.slotSize hkey
      have hslot : t.slotAt 0 + 1 * t.slotSize ≤ t.slotAt key := by
        unfold TableLayout.slotAt
        omega
      exact .inl (by omega)
  have hvalue (i : Fin n) : pad ≠ t.valueAt 0 i := by
    unfold TableLayout.valueAt
    omega
  have hzero : t.seqlock (t.clear (fun _ => 0) t.slotCount) 0 = 0 := t.seqlock_clear hcount
  have hlow : Low t (t.clear (fun _ => 0) t.slotCount) := by
    intro key hkey
    rw [t.seqlock_clear hkey]
    decide
  have hcreated : Leads t (.create Empty Unit t fun _ => 0)
      (single (t.clear (fun _ => 0) t.slotCount) .idle [] (fun _ => []) ⟨.idle, []⟩) :=
    ReachesBy.refl
  obtain ⟨mem, hlow', htwo, hsame, hwritten⟩ := hcreated.writes hlow hcount hzero val
  refine ⟨_, hwritten.receives hlow' hcount htwo, ?_, packed t mem 0, rfl, ?_⟩
  · simp only [single, val, Function.update_self, List.nil_append]
  · change mem pad = 0
    rw [hsame pad hvalue (.inr hpad.ge), hclear]

end MixedTable

/-- **The consumers read rightly exactly where the value is behind the lock.** -/
theorem reads_writes_iff (hpos : 0 < n) (hcount : 0 < t.slotCount) :
    ReadsWrites t ↔ t.valueOffset = 8 := by
  constructor
  · intro h
    by_contra hne
    obtain ⟨s, hlead, hcompleted, buf, hresults, hbuf⟩ :=
      MixedTable.exists_misread hpos hcount (lt_of_le_of_ne t.seqlock_fits (Ne.symm hne))
    have hmem := h Empty Unit s hlead () ⟨0, 2, some buf⟩ (by simp [hresults]) buf rfl
    rw [hcompleted] at hmem
    have hval : buf = fun _ => 1 := (Prod.ext_iff.mp (List.mem_singleton.mp hmem)).2
    rw [hval] at hbuf
    cases hbuf
  · intro ht ρ κ _ _ s hlead k y hy v hv
    have hinv := MixedTable.Leads.inv ht hlead
    exact (hinv.readers (.inr k)).written y hy v hv

/-- **The types whose tables the Python consumer reads.** It attaches to the table of any Rust type,
in a file that holds the slots, and what it returns is right exactly for types aligned to 8 bytes
or less. -/
theorem blackboard_read_typed (ty : Layout.TypeLayout) {count : ℕ} (hsize : 0 < ty.size)
    (hcount : 0 < count) :
    (∀ fileSize, Attaches (.typed ty count) fileSize ↔
      blackboardHeaderLen + count * (TableLayout.typed ty count).slotSize ≤ fileSize) ∧
    (ReadsWrites (.typed ty count) ↔ ty.align ≤ 8) := by
  refine ⟨fun fileSize => ?_, (reads_writes_iff hsize hcount).trans ?_⟩
  · have hlock := (TableLayout.typed ty count).seqlock_fits
    have hvalue := (TableLayout.typed ty count).value_fits
    unfold Attaches
    rw [not_or, Nat.not_lt, Nat.not_lt, and_iff_right (by omega)]
    rfl
  · change alignUp 8 ty.align = 8 ↔ ty.align ≤ 8
    obtain ⟨k, hk⟩ := ty.align_pow
    rcases le_total ty.align 8 with hle | hle
    · have hdvd : ty.align ∣ 8 := by
        rw [hk] at hle ⊢
        exact Nat.pow_dvd_pow 2 ((Nat.pow_le_pow_iff_right (Nat.lt_succ_self 1)).mp
          (hle.trans_eq (by decide : 8 = 2 ^ 3)))
      rw [SlotLayout.alignUp_eq_self (hk ▸ Nat.two_pow_pos k) hdvd]
      exact iff_of_true rfl hle
    · rw [SlotLayout.alignUp_of_le (by decide) hle]
      exact ⟨le_of_eq, fun h => le_antisymm h hle⟩

/-- The table of a type of 16 bytes aligned to 16, such as `u128`. -/
theorem blackboard_read_typed_wide : ¬ ReadsWrites (.typed ⟨16, 16, 4, rfl⟩ 3) :=
  fun h => absurd ((blackboard_read_typed ⟨16, 16, 4, rfl⟩ (by decide) (by decide)).2.mp h)
    (by decide)

/-! ## Calls come to an end -/

/-- A bound on the accesses of its own that the consumer takes until the call returns: for each try
one look, the bytes and one more look, and in the end one to be through. -/
def BlackboardPc.toGo : BlackboardPc n → ℕ
  | .idle => 0
  | .looking _ tries => tries * (n + 2) + 1
  | .copying _ tries _ _ left => tries * (n + 2) + 1 + (left.card + 1)

/-- The accesses that a call may take. -/
def callBound (n : ℕ) : ℕ := 100 * (n + 2) + 1

/-- One for a call. -/
def BlackboardLabel.calls : BlackboardLabel n → ℕ
  | .read _ => 1
  | _ => 0

/-- One for an access. -/
def BlackboardLabel.accesses : BlackboardLabel n → ℕ
  | .read _ => 0
  | _ => 1

theorem BlackboardConsumer.Moves.toGo {mem : ℕ → UInt8} {c c' : BlackboardConsumer n}
    {a : BlackboardLabel n} (h : c.Moves t mem a c') :
    a.accesses + c'.pc.toGo ≤ callBound n * a.calls + c.pc.toGo := by
  cases h with
  | refuse key pc out => exact Nat.add_le_add_right (Nat.zero_le _) _
  | call key pc lt =>
    rw [pc]
    simp only [BlackboardPc.toGo, BlackboardLabel.accesses, BlackboardLabel.calls, callBound]
    omega
  | exhaust key pc =>
    rw [pc]
    simp only [BlackboardPc.toGo, BlackboardLabel.accesses, finish]
    omega
  | unwritten key tries pc zero =>
    rw [pc]
    simp only [BlackboardPc.toGo, BlackboardLabel.accesses, finish]
    omega
  | busy key tries pc odd =>
    rw [pc]
    simp only [BlackboardPc.toGo, BlackboardLabel.accesses, BlackboardLabel.calls, Nat.succ_mul]
    omega
  | start key tries pc ne even =>
    rw [pc]
    simp only [BlackboardPc.toGo, BlackboardLabel.accesses, BlackboardLabel.calls, Nat.succ_mul,
      Finset.card_univ, Fintype.card_fin]
    omega
  | copy key tries s₁ buf left i pc mem_left =>
    rw [pc]
    simp only [BlackboardPc.toGo, BlackboardLabel.accesses, BlackboardLabel.calls,
      Finset.card_erase_of_mem mem_left]
    have hcard := Finset.card_pos.mpr ⟨i, mem_left⟩
    omega
  | got key tries s₁ buf pc same =>
    rw [pc]
    simp only [BlackboardPc.toGo, BlackboardLabel.accesses, finish]
    omega
  | changed key tries s₁ buf pc ne =>
    rw [pc]
    simp only [BlackboardPc.toGo, BlackboardLabel.accesses, BlackboardLabel.calls]
    omega

/-- A call under way goes on, whatever the table holds. -/
theorem BlackboardConsumer.exists_step (mem : ℕ → UInt8) {c : BlackboardConsumer n}
    (hpc : c.pc ≠ .idle) : ∃ a, a.accesses = 1 ∧ (c.step t mem a).isSome := by
  obtain ⟨pc, returned⟩ := c
  cases pc with
  | idle => exact absurd rfl hpc
  | looking key tries =>
    refine ⟨.look, rfl, ?_⟩
    cases tries with
    | zero => rfl
    | succ tries =>
      simp only [step]
      split_ifs <;> rfl
  | copying key tries s₁ buf left =>
    rcases left.eq_empty_or_nonempty with rfl | ⟨i, hi⟩
    · refine ⟨.check, rfl, ?_⟩
      simp only [step, if_true]
      split_ifs <;> rfl
    · refine ⟨.copy i, rfl, ?_⟩
      simp only [step, if_pos hi]
      rfl

namespace MixedTable

variable {ρ κ : Type} [DecidableEq ρ] [DecidableEq κ]

/-- Counts what consumer `k` does. -/
def own (k : κ) (count : BlackboardLabel n → ℕ) : MixedLabel ρ κ n → ℕ
  | .observer k' a => if k' = k then count a else 0
  | .base _ => 0

/-- The accesses of consumer `k` in a run. -/
def accesses (k : κ) (as : List (MixedLabel ρ κ n)) : ℕ :=
  (as.map (own k BlackboardLabel.accesses)).sum

/-- The calls of consumer `k` in a run. -/
def calls (k : κ) (as : List (MixedLabel ρ κ n)) : ℕ := (as.map (own k BlackboardLabel.calls)).sum

variable {s s' : MixedTable ρ κ n} {l : MixedLabel ρ κ n} {as : List (MixedLabel ρ κ n)} {k : κ}

/-- A step, as consumer `k` sees it: its own, or one that leaves it alone. -/
theorem step_own (hstep : s.step t l = some s') (k : κ) :
    (s'.observer k = s.observer k ∧ ∀ count, own k count l = 0) ∨
      ∃ a, l = .observer k a ∧ s'.base = s.base ∧
        (s.observer k).Moves t s.base.mem a (s'.observer k) := by
  rcases Observed.step_cases hstep with ⟨b, l', rfl, -, rfl⟩ | ⟨k', a, c, rfl, hc, rfl⟩
  · exact .inl ⟨rfl, fun _ => rfl⟩
  · rcases eq_or_ne k' k with rfl | hne
    · refine .inr ⟨a, rfl, rfl, ?_⟩
      simp only [Function.update_self]
      exact BlackboardConsumer.step_moves hc
    · exact .inl ⟨Function.update_of_ne hne.symm _ _, fun _ => if_neg hne⟩

/-- The accesses of a run are paid for by its calls. -/
theorem accesses_le (hrun : run (step t) s as = some s') (k : κ) :
    accesses k as + (s'.observer k).pc.toGo ≤
      callBound n * calls k as + (s.observer k).pc.toGo := by
  have hstep {u : MixedTable ρ κ n} {l : MixedLabel ρ κ n} {u'} (_ : True) (_ : True)
      (h : step t u l = some u') : False ∨ True ∧
        own k BlackboardLabel.accesses l + (u'.observer k).pc.toGo ≤
          callBound n * own k BlackboardLabel.calls l + (u.observer k).pc.toGo := by
    rcases step_own h k with ⟨heq, hcount⟩ | ⟨a, rfl, -, hmoves⟩
    · rw [heq, hcount, hcount]
      exact .inr ⟨trivial, by omega⟩
    · simp only [own, if_true]
      exact .inr ⟨trivial, hmoves.toGo⟩
  rcases run_amortized @hstep (fun _ _ _ _ _ => trivial) trivial hrun with
    ⟨_, _, _, _, himp⟩ | ⟨-, hle⟩
  · exact himp.elim
  · rwa [List.sum_map_mul_left] at hle

end MixedTable

/-! ## A key that nobody writes -/

/-- What `read` comes to while the slot of `key` stays as it is. -/
def undisturbedEnd (t : TableLayout n) (mem : ℕ → UInt8) (key : ℕ) : ReadEnd n :=
  if t.seqlock mem key = 0 then .got ⟨key, 0, none⟩
  else if t.seqlock mem key % 2 = 1 then .exhausted key
  else .got ⟨key, t.seqlock mem key, some (packed t mem key)⟩

/-- A call for `key` over a slot that stays as it is in `mem`, with `old` returned before. -/
inductive Undisturbed (t : TableLayout n) (mem : ℕ → UInt8) (key : ℕ) (old : List (ReadEnd n)) :
    BlackboardConsumer n → Prop where
  | looking (tries : ℕ) (left : tries = 0 → t.seqlock mem key ≠ 0 ∧ t.seqlock mem key % 2 = 1) :
      Undisturbed t mem key old ⟨.looking key tries, old⟩
  | copying (tries : ℕ) (buf : Fin n → UInt8) (left : Finset (Fin n))
      (ne : t.seqlock mem key ≠ 0) (even : t.seqlock mem key % 2 = 0)
      (copied : ∀ i ∉ left, buf i = packed t mem key i) :
      Undisturbed t mem key old ⟨.copying key tries (t.seqlock mem key) buf left, old⟩

/-- The accesses until such a call returns. -/
def undisturbedToGo : BlackboardPc n → ℕ
  | .idle => 0
  | .looking _ tries => tries + n + 2
  | .copying _ _ _ _ left => left.card + 1

theorem packed_congr {mem mem' : ℕ → UInt8} {key : ℕ} (h : ∀ a ∈ t.slot key, mem a = mem' a) :
    packed t mem key = packed t mem' key := by
  funext i
  have hlock := t.seqlock_fits
  have hvalue := t.value_fits
  apply h
  unfold packedAt
  exact ⟨by omega, by omega⟩

/-- An access of such a call. -/
theorem Undisturbed.moves {mem mem' : ℕ → UInt8} {key : ℕ} {old : List (ReadEnd n)}
    {c c' : BlackboardConsumer n} {a : BlackboardLabel n} (h : Undisturbed t mem key old c)
    (hslot : ∀ i ∈ t.slot key, mem' i = mem i) (hmoves : c.Moves t mem' a c') :
    c' = ⟨.idle, old ++ [undisturbedEnd t mem key]⟩ ∨ Undisturbed t mem key old c' ∧
      a.accesses + undisturbedToGo c'.pc ≤ undisturbedToGo c.pc := by
  have hlock := t.seqlock_congr hslot
  have hpacked := packed_congr hslot
  cases h with
  | looking tries left =>
    cases hmoves with
    | refuse _ pc => cases pc
    | call _ pc => cases pc
    | exhaust _ pc =>
      cases pc
      obtain ⟨hne, hodd⟩ := left rfl
      left
      rw [undisturbedEnd, if_neg hne, if_pos hodd]
      rfl
    | unwritten _ tries pc zero =>
      cases pc
      left
      rw [undisturbedEnd, if_pos (hlock.symm.trans zero)]
      rfl
    | busy _ tries pc odd =>
      cases pc
      rw [hlock] at odd
      refine .inr ⟨.looking tries fun _ => ⟨by omega, odd⟩, ?_⟩
      simp only [BlackboardLabel.accesses, undisturbedToGo]
      omega
    | start _ tries pc ne even =>
      cases pc
      rw [hlock] at ne even ⊢
      refine .inr ⟨.copying tries _ _ ne even fun i hi => absurd (Finset.mem_univ i) hi, ?_⟩
      simp only [BlackboardLabel.accesses, undisturbedToGo, Finset.card_univ, Fintype.card_fin]
      omega
    | copy _ _ _ _ _ _ pc => cases pc
    | got _ _ _ _ pc => cases pc
    | changed _ _ _ _ pc => cases pc
  | copying tries buf left ne even copied =>
    cases hmoves with
    | refuse _ pc => cases pc
    | call _ pc => cases pc
    | exhaust _ pc => cases pc
    | unwritten _ _ pc => cases pc
    | busy _ _ pc => cases pc
    | start _ _ pc => cases pc
    | copy _ _ _ _ _ i pc mem_left =>
      cases pc
      rw [hpacked]
      refine .inr ⟨.copying tries _ _ ne even fun j hj => ?_, ?_⟩
      · rcases eq_or_ne j i with rfl | hne
        · rw [Function.update_self]
        · rw [Function.update_of_ne hne]
          exact copied j fun hmem => hj (Finset.mem_erase.mpr ⟨hne, hmem⟩)
      · have hcard := Finset.card_pos.mpr ⟨i, mem_left⟩
        simp only [BlackboardLabel.accesses, undisturbedToGo, Finset.card_erase_of_mem mem_left]
        omega
    | got _ _ _ _ pc =>
      cases pc
      obtain rfl : buf = packed t mem key := funext fun i => copied i (Finset.notMem_empty i)
      left
      rw [undisturbedEnd, if_neg ne, if_neg (by omega)]
      rfl
    | changed _ _ _ _ pc changed =>
      cases pc
      exact absurd hlock changed

variable {ρ κ : Type} [DecidableEq ρ] [DecidableEq κ]

/-- **Every call returns**, whatever the writer and the other readers do: in a run from a moment at
which it was in no call, the consumer takes no more than `100 * (n + 2) + 1` accesses for each of
its calls, and while it is in a call it can take another one. -/
theorem blackboard_read_returns {s s' : MixedTable ρ κ n} {as : List (MixedLabel ρ κ n)} {k : κ}
    (hrun : run (MixedTable.step t) s as = some s') (hidle : (s.observer k).pc = .idle) :
    MixedTable.accesses k as ≤ (100 * (n + 2) + 1) * MixedTable.calls k as ∧
      ((s'.observer k).pc ≠ .idle →
        ∃ a, a.accesses = 1 ∧ (s'.step t (.observer k a)).isSome) := by
  have hle := MixedTable.accesses_le hrun k
  rw [hidle] at hle
  refine ⟨(Nat.le_add_right _ _).trans hle, fun hpc => ?_⟩
  obtain ⟨a, ha, hstep⟩ := BlackboardConsumer.exists_step (t := t) s'.base.mem hpc
  refine ⟨a, ha, ?_⟩
  rw [MixedTable.step, Observed.step, Option.isSome_map]
  exact hstep

/-- One call, while a write to its key goes on. -/
def readWhileWritten : List (MixedLabel Empty Unit 1) :=
  [.observer () (.read 0), .base (.writer (.write 0 fun _ => 5)), .base (.writer .mark),
    .observer () .look, .base (.writer (.copy onlyWord)), .base (.writer .complete),
    .observer () .look, .observer () (.copy onlyWord), .observer () .check]

theorem blackboard_read_returns_one :
    ∃ s : MixedTable Empty Unit 1, run (MixedTable.step (.raw 1 1))
        (MixedTable.create Empty Unit (.raw 1 1) fun _ => 0) readWhileWritten = some s ∧
      MixedTable.accesses () readWhileWritten ≤
        (100 * (1 + 2) + 1) * MixedTable.calls () readWhileWritten := by
  obtain ⟨s, hrun⟩ := Option.isSome_iff_exists.mp
    (by decide +kernel : (run (MixedTable.step (.raw 1 1))
      (MixedTable.create Empty Unit (.raw 1 1) fun _ => 0) readWhileWritten).isSome)
  exact ⟨s, hrun, (blackboard_read_returns hrun rfl).1⟩

/-- **A call that nobody disturbs.** While no write to its key is under way, whoever else reads or
writes, a call returns after `n + 102` accesses what the slot holds: `None` for a key that was never
written, the value, or after 100 looks `None` for a key whose writer died in the middle. -/
theorem blackboard_read_undisturbed {s s' : MixedTable ρ κ n} {as : List (MixedLabel ρ κ n)} {k : κ}
    {key : ℕ} {old : List (ReadEnd n)} (hrun : run (MixedTable.step t) s as = some s')
    (hquiet : Always (fun u => u.base.writer.key ≠ some key) (MixedTable.step t) s as)
    (hcall : s.observer k = ⟨.looking key 100, old⟩)
    (hlong : n + 102 ≤ MixedTable.accesses k as) :
    ∃ before, before <+: as ∧ ∃ u, run (MixedTable.step t) s before = some u ∧
      u.observer k = ⟨.idle, old ++ [undisturbedEnd t s.base.mem key]⟩ := by
  have hstep {u : MixedTable ρ κ n} {l : MixedLabel ρ κ n} {u'}
      (hfree : u.base.writer.key ≠ some key)
      (hu : (∀ a ∈ t.slot key, u.base.mem a = s.base.mem a) ∧
        Undisturbed t s.base.mem key old (u.observer k)) (h : u.step t l = some u') :
      u'.observer k = ⟨.idle, old ++ [undisturbedEnd t s.base.mem key]⟩ ∨
        ((∀ a ∈ t.slot key, u'.base.mem a = s.base.mem a) ∧
          Undisturbed t s.base.mem key old (u'.observer k)) ∧
        MixedTable.own k BlackboardLabel.accesses l + undisturbedToGo (u'.observer k).pc ≤
          0 + undisturbedToGo (u.observer k).pc := by
    obtain ⟨hmem, hund⟩ := hu
    have hmem' : ∀ a ∈ t.slot key, u'.base.mem a = s.base.mem a := by
      rcases Observed.step_cases h with ⟨b, l', -, hb, rfl⟩ | ⟨_, _, _, -, -, rfl⟩
      · exact fun a ha => ((Table.step_frame hb hfree).1 a ha).trans (hmem a ha)
      · exact hmem
    rcases MixedTable.step_own h k with ⟨heq, hcount⟩ | ⟨a, rfl, -, hmoves⟩
    · rw [heq, hcount]
      exact .inr ⟨⟨hmem', hund⟩, le_refl _⟩
    · rcases hund.moves hmem hmoves with hend | ⟨hund', hle⟩
      · exact .inl hend
      · simp only [MixedTable.own, if_true, Nat.zero_add]
        exact .inr ⟨⟨hmem', hund'⟩, hle⟩
  have hstart : Undisturbed t s.base.mem key old (s.observer k) := by
    rw [hcall]
    exact .looking 100 (by rintro ⟨⟩)
  rcases run_amortized @hstep hquiet ⟨fun _ _ => rfl, hstart⟩ hrun with
    hmet | ⟨⟨-, hund⟩, hle⟩
  · exact hmet
  · -- the call has not returned, so one access at least is still to come
    have hpos : 0 < undisturbedToGo (s'.observer k).pc := by
      generalize s'.observer k = c at hund
      cases hund with
      | looking tries left => exact Nat.succ_pos _
      | copying tries buf left ne even copied => exact Nat.succ_pos _
    have hnone : (as.map fun _ => 0).sum = 0 := by simp
    rw [hcall, hnone] at hle
    change MixedTable.accesses k as + _ ≤ 0 + (100 + n + 2) at hle
    omega

/-- A write is complete, the writer of the next one dies in the middle, and the consumer is
called. -/
def diedInTheMiddle : List (MixedLabel Empty Unit 1) :=
  [.base (.writer (.write 0 fun _ => 5)), .base (.writer .mark), .base (.writer (.copy onlyWord)),
    .base (.writer .complete), .base (.writer (.write 0 fun _ => 6)), .base (.writer .mark),
    .base (.writer .replace), .observer () (.read 0)]

/-- The consumer looks 101 times, is called again and looks twice. -/
def looksInVain : List (MixedLabel Empty Unit 1) :=
  List.replicate 101 (.observer () .look) ++
    [.observer () (.read 0), .observer () .look, .observer () .look]

theorem blackboard_read_undisturbed_dead :
    ∃ s u : MixedTable Empty Unit 1, ∃ before,
      run (MixedTable.step (.raw 1 1)) (MixedTable.create Empty Unit (.raw 1 1) fun _ => 0)
        diedInTheMiddle = some s ∧
      run (MixedTable.step (.raw 1 1)) s before = some u ∧
      u.observer () = ⟨.idle, [.exhausted 0]⟩ := by
  obtain ⟨s', hrun⟩ := Option.isSome_iff_exists.mp
    (by decide +kernel : (run (MixedTable.step (.raw 1 1))
      (MixedTable.create Empty Unit (.raw 1 1) fun _ => 0)
      (diedInTheMiddle ++ looksInVain)).isSome)
  obtain ⟨s, hdied, hlooks⟩ := run_append.mp hrun
  obtain ⟨hcall, hidle, hend⟩ : s.observer () = ⟨.looking 0 100, []⟩ ∧ s.base.writer = .idle ∧
      undisturbedEnd (.raw 1 1) s.base.mem 0 = .exhausted 0 := by
    cases hdied
    exact ⟨rfl, rfl, rfl⟩
  -- only the consumer moves
  have hquiet : Always (fun u => u.base.writer.key ≠ some 0) (MixedTable.step (.raw 1 1)) s
      looksInVain := by
    intro before after u hsplit hbefore
    have hbase : u.base = s.base := by
      refine run_invariant (Q := fun l => ∃ a, l = .observer () a) (P := fun v => v.base = s.base)
        ?_ ?_ rfl hbefore
      · rintro v _ v' ⟨a, rfl⟩ hv hstep
        obtain ⟨_, -, rfl⟩ := Option.map_eq_some_iff.mp hstep
        exact hv
      · intro l hl
        have hmem : l ∈ looksInVain := hsplit ▸ List.mem_append_left _ hl
        simp only [looksInVain, List.mem_append, List.mem_replicate, List.mem_cons,
          List.not_mem_nil, or_false] at hmem
        rcases hmem with ⟨-, rfl⟩ | rfl | rfl | rfl
        all_goals exact ⟨_, rfl⟩
    rw [hbase, hidle]
    rintro ⟨⟩
  obtain ⟨before, -, u, hu, hreturned⟩ :=
    blackboard_read_undisturbed hlooks hquiet hcall (by decide +kernel)
  rw [hend] at hreturned
  exact ⟨s, u, before, hdied, hu, hreturned⟩

end Python

end Ringfire
