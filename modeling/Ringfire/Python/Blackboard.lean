import Mathlib.Data.Sum.Basic
import Ringfire.Blackboard.Atomic
import Ringfire.Foundation.Observers
import Ringfire.Foundation.Simulation

/-!
# The blackboard consumer of the Python client

`BlackboardConsumer.read` of `blackboard.py` looks at the lock of its key up to 100 times, and then
returns `None`, as it does for a key that was never written. It looks for the value right behind the
lock, at byte 8 of the slot. `BlackboardSlot<V>` has its value there unless `V` is aligned to more
than 8 bytes, and neither consumer's check of the header can tell.

## Main definitions

* `Python.BlackboardConsumer.step`: one memory access, or the start of a call
* `Python.MixedTable`: a table with readers in both languages
* `Python.MixedTable.rust`: the same table with readers in Rust only

## Main results

* `Python.blackboard_read_atomic`: a read is a read of the table at one moment of the call
* `Python.blackboard_read_typed`: the types whose tables the Python consumer reads
* `Python.blackboard_read_returns`: a call ends after a bounded number of accesses of its own
-/

namespace Ringfire

open Blackboard Transition

namespace Python

variable {n : ℕ} {t : TableLayout n}

/-- The address where the consumer looks for byte `i` of the value: behind the lock. -/
def packedAt (t : TableLayout n) (key : ℕ) (i : Fin n) : ℕ := t.slotAt key + 8 + i

/-- What the consumer takes for the value of `key`. -/
def packed (t : TableLayout n) (mem : ℕ → UInt8) (key : ℕ) : Fin n → UInt8 :=
  fun i => mem (packedAt t key i)

/-- `BlackboardConsumer.__init__`: the slots have room for the lock and the value, and the file has
room for the slots. -/
def Attaches (t : TableLayout n) (fileSize : ℕ) : Prop :=
  ¬ (t.slotSize < 8 + n ∨ fileSize < blackboardHeaderLen + t.slotCount * t.slotSize)

/-- Where the consumer stands, with the tries it has left. -/
inductive BlackboardPc (n : ℕ) where
  | idle
  | looking (key tries : ℕ)
  | copying (key tries s₁ : ℕ) (buf : Fin n → UInt8) (left : Finset (Fin n))

/-- What the consumer does next. -/
inductive BlackboardLabel (n : ℕ) where
  | read (key : ℤ)
  | look
  | copy (i : Fin n)
  | check

/-- How a call of `read` ended. -/
inductive ReadEnd (n : ℕ) where
  | got (x : Result n)
  /-- All the tries found a write in progress, or were disturbed by one. -/
  | exhausted (key : ℕ)

/-- What the caller gets; `None` has two meanings. -/
def ReadEnd.value : ReadEnd n → Option (Fin n → UInt8)
  | .got x => x.value
  | .exhausted _ => none

/-- What the call found out about the table. -/
def ReadEnd.result : ReadEnd n → Option (Result n)
  | .got x => some x
  | .exhausted _ => none

/-- The consumer's own state, and what its calls returned. -/
structure BlackboardConsumer (n : ℕ) where
  pc : BlackboardPc n
  returned : List (ReadEnd n)

namespace BlackboardConsumer

/-- A call returns. -/
def finish (c : BlackboardConsumer n) (x : ReadEnd n) : BlackboardConsumer n :=
  ⟨.idle, c.returned ++ [x]⟩

/-- `BlackboardConsumer.read`, one memory access at a time. -/
def step (t : TableLayout n) (mem : ℕ → UInt8) (c : BlackboardConsumer n)
    (a : BlackboardLabel n) : Option (BlackboardConsumer n) :=
  match c.pc, a with
  | .idle, .read key =>
    -- `IndexError` otherwise
    if key < 0 ∨ t.slotCount ≤ key then some c
    else some { c with pc := .looking key.toNat 100 }
  -- `for _ in range(100)` is through
  | .looking key 0, .look => some (c.finish (.exhausted key))
  | .looking key (tries + 1), .look =>
    if t.seqlock mem key = 0 then some (c.finish (.got ⟨key, 0, none⟩))
    else if t.seqlock mem key % 2 = 1 then some { c with pc := .looking key tries }
    else
      some { c with pc := .copying key tries (t.seqlock mem key) (fun _ => 0) Finset.univ }
  | .copying key tries s₁ buf left, .copy i =>
    if i ∈ left then
      some { c with
        pc := .copying key tries s₁ (Function.update buf i (packed t mem key i)) (left.erase i) }
    else none
  | .copying key tries s₁ buf left, .check =>
    if left = ∅ then
      if t.seqlock mem key = s₁ then some (c.finish (.got ⟨key, s₁, some buf⟩))
      else some { c with pc := .looking key tries }
    else none
  | _, _ => none

/-- What the consumer's accesses do, one constructor for each outcome. -/
inductive Moves (t : TableLayout n) (mem : ℕ → UInt8) (c : BlackboardConsumer n) :
    BlackboardLabel n → BlackboardConsumer n → Prop where
  | refuse (key : ℤ) (pc : c.pc = .idle) (out : key < 0 ∨ t.slotCount ≤ key) :
      Moves t mem c (.read key) c
  | call (key : ℕ) (pc : c.pc = .idle) (lt : key < t.slotCount) :
      Moves t mem c (.read key) { c with pc := .looking key 100 }
  | exhaust (key : ℕ) (pc : c.pc = .looking key 0) : Moves t mem c .look (c.finish (.exhausted key))
  | unwritten (key tries : ℕ) (pc : c.pc = .looking key (tries + 1))
      (zero : t.seqlock mem key = 0) : Moves t mem c .look (c.finish (.got ⟨key, 0, none⟩))
  | busy (key tries : ℕ) (pc : c.pc = .looking key (tries + 1)) (odd : t.seqlock mem key % 2 = 1) :
      Moves t mem c .look { c with pc := .looking key tries }
  | start (key tries : ℕ) (pc : c.pc = .looking key (tries + 1)) (ne : t.seqlock mem key ≠ 0)
      (even : t.seqlock mem key % 2 = 0) :
      Moves t mem c .look
        { c with pc := .copying key tries (t.seqlock mem key) (fun _ => 0) Finset.univ }
  | copy (key tries s₁ : ℕ) (buf : Fin n → UInt8) (left : Finset (Fin n)) (i : Fin n)
      (pc : c.pc = .copying key tries s₁ buf left) (mem_left : i ∈ left) :
      Moves t mem c (.copy i)
        { c with
          pc := .copying key tries s₁ (Function.update buf i (packed t mem key i)) (left.erase i) }
  | got (key tries s₁ : ℕ) (buf : Fin n → UInt8) (pc : c.pc = .copying key tries s₁ buf ∅)
      (same : t.seqlock mem key = s₁) :
      Moves t mem c .check (c.finish (.got ⟨key, s₁, some buf⟩))
  | changed (key tries s₁ : ℕ) (buf : Fin n → UInt8) (pc : c.pc = .copying key tries s₁ buf ∅)
      (ne : t.seqlock mem key ≠ s₁) : Moves t mem c .check { c with pc := .looking key tries }

theorem step_moves {mem : ℕ → UInt8} {c c' : BlackboardConsumer n} {a : BlackboardLabel n}
    (h : c.step t mem a = some c') : c.Moves t mem a c' := by
  unfold step at h
  cases hpc : c.pc with
  | idle =>
    rw [hpc] at h
    cases a with
    | read key =>
      simp only at h
      split_ifs at h with hout
      · cases h
        exact .refuse key hpc hout
      · cases h
        obtain ⟨k, rfl⟩ := Int.eq_ofNat_of_zero_le (by omega : 0 ≤ key)
        exact .call k hpc (by omega)
    | look => cases h
    | copy i => cases h
    | check => cases h
  | looking key tries =>
    rw [hpc] at h
    cases a with
    | read key => cases tries <;> cases h
    | look =>
      cases tries with
      | zero =>
        cases h
        exact .exhaust key hpc
      | succ tries =>
        simp only at h
        split_ifs at h with hzero hodd
        · cases h
          exact .unwritten key tries hpc hzero
        · cases h
          exact .busy key tries hpc hodd
        · cases h
          exact .start key tries hpc hzero (by omega)
    | copy i => cases tries <;> cases h
    | check => cases tries <;> cases h
  | copying key tries s₁ buf left =>
    rw [hpc] at h
    cases a with
    | read key => cases h
    | look => cases h
    | copy i =>
      simp only at h
      split_ifs at h with hi
      cases h
      exact .copy key tries s₁ buf left i hpc hi
    | check =>
      simp only at h
      split_ifs at h with hleft hsame
      · cases h
        subst hleft
        exact .got key tries s₁ buf hpc hsame
      · cases h
        subst hleft
        exact .changed key tries s₁ buf hpc hsame

end BlackboardConsumer

/-! ## A table with readers in both languages -/

/-- Where a reader in Rust stands when the consumer stands at `pc`. -/
def BlackboardPc.rust : BlackboardPc n → ReaderPc n
  | .idle => .idle
  | .looking key _ => .looking key
  | .copying key _ s₁ buf left => .copying key s₁ buf left

/-- The calls that found something out about the table. -/
def BlackboardConsumer.results (c : BlackboardConsumer n) : List (Result n) :=
  c.returned.filterMap ReadEnd.result

/-- Behind the lock is the value. -/
theorem packed_eq_value (ht : t.valueOffset = 8) (mem : ℕ → UInt8) (key : ℕ) :
    packed t mem key = t.value mem key := by
  funext i
  unfold packed packedAt TableLayout.value TableLayout.valueAt
  rw [ht]

/-- Each access of the consumer is one of a reader in Rust; to be through with all tries is to give
up. -/
theorem BlackboardConsumer.Moves.rust (ht : t.valueOffset = 8) {mem : ℕ → UInt8}
    {c c' : BlackboardConsumer n} {a : BlackboardLabel n} (h : c.Moves t mem a c') :
    ∃ a' res, c.pc.rust.step t mem a' = some (c'.pc.rust, res) ∧
      c'.results = c.results ++ res.toList := by
  have hfinish (x : ReadEnd n) :
      (c.finish x).results = c.results ++ x.result.toList := by
    unfold BlackboardConsumer.results BlackboardConsumer.finish
    rw [List.filterMap_append]
    cases x <;> rfl
  cases h with
  | refuse key pc out =>
    refine ⟨.read t.slotCount, none, ?_, (List.append_nil _).symm⟩
    rw [pc]
    simp only [BlackboardPc.rust, ReaderPc.step, if_neg (lt_irrefl t.slotCount)]
  | call key pc lt =>
    refine ⟨.read key, none, ?_, (List.append_nil _).symm⟩
    rw [pc]
    simp only [BlackboardPc.rust, ReaderPc.step, if_pos lt]
  | exhaust key pc =>
    refine ⟨.stall, none, ?_, hfinish _⟩
    rw [pc]
    rfl
  | unwritten key tries pc zero =>
    refine ⟨.look, some ⟨key, 0, none⟩, ?_, hfinish _⟩
    rw [pc]
    simp only [BlackboardPc.rust, ReaderPc.step, if_pos zero, BlackboardConsumer.finish]
  | busy key tries pc odd =>
    refine ⟨.look, none, ?_, (List.append_nil _).symm⟩
    rw [pc]
    have hne : t.seqlock mem key ≠ 0 := by omega
    have hodd : ¬ t.seqlock mem key % 2 = 0 := by omega
    simp only [BlackboardPc.rust, ReaderPc.step, if_neg hne, if_neg hodd]
  | start key tries pc ne even =>
    refine ⟨.look, none, ?_, (List.append_nil _).symm⟩
    rw [pc]
    simp only [BlackboardPc.rust, ReaderPc.step, if_neg ne, if_pos even]
  | copy key tries s₁ buf left i pc mem_left =>
    refine ⟨.copy i, none, ?_, (List.append_nil _).symm⟩
    rw [pc, packed_eq_value ht]
    simp only [BlackboardPc.rust, ReaderPc.step, if_pos mem_left]
  | got key tries s₁ buf pc same =>
    refine ⟨.check, some ⟨key, s₁, some buf⟩, ?_, hfinish _⟩
    rw [pc]
    simp only [BlackboardPc.rust, ReaderPc.step, if_pos same, if_true, BlackboardConsumer.finish]
  | changed key tries s₁ buf pc ne =>
    refine ⟨.check, none, ?_, (List.append_nil _).symm⟩
    rw [pc]
    simp only [BlackboardPc.rust, ReaderPc.step, if_neg ne, if_true]

/-- A table with its writer and its readers, and consumers in Python beside them. -/
abbrev MixedTable (ρ κ : Type) (n : ℕ) := Observed κ (Table ρ n) (BlackboardConsumer n)

/-- Who moves. -/
abbrev MixedLabel (ρ κ : Type) (n : ℕ) := ObservedLabel κ (TableLabel ρ n) (BlackboardLabel n)

namespace MixedTable

variable {ρ κ : Type}

/-- A table as `create` leaves it, on memory of any content. -/
def create (ρ κ : Type) (t : TableLayout n) (mem : ℕ → UInt8) : MixedTable ρ κ n :=
  ⟨Table.create ρ t mem, fun _ => ⟨.idle, []⟩⟩

/-- What the calls of each reader found out about the table. -/
def results (s : MixedTable ρ κ n) : ρ ⊕ κ → List (Result n) :=
  Sum.elim s.base.results fun k => (s.observer k).results

/-- Where each reader stands. -/
def readers (s : MixedTable ρ κ n) : ρ ⊕ κ → ReaderPc n :=
  Sum.elim s.base.readers fun k => (s.observer k).pc.rust

/-- The table with readers in Rust only. -/
def rust (s : MixedTable ρ κ n) : Table (ρ ⊕ κ) n where
  mem := s.base.mem
  writer := s.base.writer
  readers := s.readers
  results := s.results
  begun := s.base.begun
  completed := s.base.completed

/-- The writer does not know who reads. -/
theorem stepWriter_rust {s : MixedTable ρ κ n} {b : Table ρ n} {pc : Blackboard.WriterPc n}
    {a : Blackboard.WriterLabel n} (h : s.base.stepWriter t pc a = some b) :
    s.rust.stepWriter t pc a = some (rust { s with base := b }) := by
  unfold Table.stepWriter at h ⊢
  split at h
  · split_ifs at h with hkey
    · cases h
      exact if_pos hkey
    · cases h
      exact if_neg hkey
  · cases h
    rfl
  · split_ifs at h with hi
    cases h
    exact if_pos hi
  · split_ifs at h with hleft
    cases h
    exact if_pos hleft
  · cases h
    rfl
  · cases h

variable [DecidableEq ρ] [DecidableEq κ]

/-- A reader moves. -/
theorem rust_reader (s : MixedTable ρ κ n) (r : ρ) (pc : ReaderPc n) (res : Option (Result n)) :
    rust { s with base := s.base.setReader r pc res } = s.rust.setReader (.inl r) pc res := by
  unfold rust Table.setReader
  congr 1
  · exact Sum.update_elim_inl.symm
  · exact Sum.update_elim_inl.symm

/-- A consumer in Python moves. -/
theorem rust_consumer (s : MixedTable ρ κ n) {k : κ} {c : BlackboardConsumer n}
    {res : Option (Result n)} (hres : c.results = (s.observer k).results ++ res.toList) :
    rust { s with observer := Function.update s.observer k c } =
      s.rust.setReader (.inr k) c.pc.rust res := by
  unfold rust Table.setReader
  congr 1
  · refine Eq.trans ?_ Sum.update_elim_inr.symm
    exact congrArg _ (Function.comp_update (fun c => c.pc.rust) s.observer k c)
  · refine Eq.trans ?_ Sum.update_elim_inr.symm
    change Sum.elim _ ((fun c => c.results) ∘ Function.update s.observer k c) = _
    rw [Function.comp_update, hres]
    rfl

/-- One memory access. -/
def step (t : TableLayout n) : MixedTable ρ κ n → MixedLabel ρ κ n → Option (MixedTable ρ κ n) :=
  Observed.step (Table.step t) fun s c a => c.step t s.mem a

/-- **Where the value is behind the lock, a consumer in Python is a reader in Rust.** Each memory
access of the table with readers in both languages is one of the table with readers in Rust only. -/
theorem step_rust (ht : t.valueOffset = 8) {s s' : MixedTable ρ κ n} {a : MixedLabel ρ κ n}
    (hstep : s.step t a = some s') : ∃ a', s.rust.step t a' = some s'.rust := by
  rcases Observed.step_cases hstep with ⟨b, l, -, hb, rfl⟩ | ⟨k, l, c, -, hc, rfl⟩
  · cases l with
    | writer l => exact ⟨.writer l, stepWriter_rust hb⟩
    | reader r l =>
      obtain ⟨⟨pc, res⟩, hmove, rfl⟩ := Option.map_eq_some_iff.mp hb
      refine ⟨.reader (.inl r) l, Option.map_eq_some_iff.mpr ⟨(pc, res), hmove, ?_⟩⟩
      exact (rust_reader s r pc res).symm
  · obtain ⟨a', res, hmove, hres⟩ := (BlackboardConsumer.step_moves hc).rust ht
    refine ⟨.reader (.inr k) a', Option.map_eq_some_iff.mpr ⟨(c.pc.rust, res), hmove, ?_⟩⟩
    exact (rust_consumer s hres).symm

/-- `s'` is reached from `s`, and no lock comes near the end of its range. -/
def Leads (t : TableLayout n) (s s' : MixedTable ρ κ n) : Prop :=
  ReachesBy (fun s _ => s.base.Bounded t) (step t) s s'

theorem Leads.rust (ht : t.valueOffset = 8) {s s' : MixedTable ρ κ n} (h : Leads t s s') :
    ReachesBy (fun s _ => s.Bounded t) (Table.step t) s.rust s'.rust := by
  induction h with
  | refl => exact .refl
  | tail _ ok next ih =>
    obtain ⟨a', hstep⟩ := step_rust ht next
    exact ih.tail ok hstep

/-- What holds of every table with readers in Rust. -/
theorem Leads.inv (ht : t.valueOffset = 8) {mem : ℕ → UInt8} {s : MixedTable ρ κ n}
    (h : Leads t (create ρ κ t mem) s) : s.rust.Inv t := by
  have hcreate : (create ρ κ t mem).rust.Inv t := by
    convert Table.create_inv (ρ := ρ ⊕ κ) t mem using 1
    unfold MixedTable.rust readers results create Table.create
    congr 1
    · exact Sum.elim_lam_const_lam_const _
    · exact Sum.elim_lam_const_lam_const _
  exact (h.rust ht).invariant (fun hu hb hstep => hu.step hb hstep) hcreate

end MixedTable

/-- **A read of the blackboard is atomic**, in Rust and in Python. One writer at a time may stop
anywhere and be followed by another, and readers in both languages read, all one memory access at a
time in any order, with the value behind the lock. What a reader in no call returns from then on,
the table held at one moment since: the value of a complete write, or none where no write had begun;
no write that was complete is missed, and nothing is older than what a reader of either language had
got. -/
theorem blackboard_read_atomic {ρ κ : Type} [DecidableEq ρ] [DecidableEq κ] {t : TableLayout n}
    (ht : t.valueOffset = 8) {mem : ℕ → UInt8} {s s' : MixedTable ρ κ n}
    (hs : MixedTable.Leads t (.create ρ κ t mem) s) (hrun : MixedTable.Leads t s s') {r : ρ ⊕ κ}
    (hidle : s.readers r = .idle) :
    (∃ new, s'.results r = s.results r ++ new ∧ ∀ y ∈ new, s.rust.ReadBetween t s'.rust y) ∧
      ∀ key < t.slotCount, (s'.base.completed key).Pairwise fun x y => x.1 < y.1 := by
  have hinv : s.rust.Inv t := hs.inv ht
  have hinv' : s'.rust.Inv t :=
    (hrun.rust ht).invariant (fun hu hb hstep => hu.step hb hstep) hinv
  exact ⟨hinv.read_between hidle (hrun.rust ht), fun key hkey => (hinv'.slots key hkey).ordered⟩

/-- A write is complete. -/
def writtenOnce : List (MixedLabel Unit Unit 1) :=
  [.base (.writer (.write 0 fun _ => 5)), .base (.writer .mark), .base (.writer (.copy onlyWord)),
    .base (.writer .complete)]

/-- Another write begins while a consumer in Python copies, and a reader in Rust comes in the middle
of it. When it is complete, both of them read on. -/
def readInBetween : List (MixedLabel Unit Unit 1) :=
  [.observer () (.read 0), .observer () .look, .base (.writer (.write 0 fun _ => 6)),
    .base (.writer .mark), .observer () (.copy onlyWord), .observer () .check,
    .base (.reader () (.read 0)), .base (.reader () .look), .base (.writer (.copy onlyWord)),
    .base (.writer .complete), .observer () .look, .observer () (.copy onlyWord),
    .observer () .check, .base (.reader () .look), .base (.reader () (.copy onlyWord)),
    .base (.reader () .check)]

/-- One key with a value of one byte. -/
theorem blackboard_read_atomic_between :
    ∃ s s' : MixedTable Unit Unit 1,
      (s'.results (.inl ())).map (fun x => (x.seqlock, x.value)) = [(4, some fun _ => 6)] ∧
      (s'.results (.inr ())).map (fun x => (x.seqlock, x.value)) = [(4, some fun _ => 6)] ∧
      ∀ r, ∃ new, s'.results r = s.results r ++ new ∧
        ∀ y ∈ new, s.rust.ReadBetween (.raw 1 1) s'.rust y := by
  obtain ⟨s, hs, hidle, s', hrun, hrust, hpython⟩ : ∃ s : MixedTable Unit Unit 1,
      run (guarded (fun s _ => s.base.Bounded (.raw 1 1)) (MixedTable.step (.raw 1 1)))
        (MixedTable.create Unit Unit (.raw 1 1) fun _ => 7) writtenOnce = some s ∧
      (∀ r, s.readers r = .idle) ∧
      ∃ s', run (guarded (fun s _ => s.base.Bounded (.raw 1 1)) (MixedTable.step (.raw 1 1)))
        s readInBetween = some s' ∧
      (s'.results (.inl ())).map (fun x => (x.seqlock, x.value)) = [(4, some fun _ => 6)] ∧
      (s'.results (.inr ())).map (fun x => (x.seqlock, x.value)) = [(4, some fun _ => 6)] :=
    ⟨_, rfl, by rintro (_ | _) <;> rfl, _, rfl, by decide +kernel, by decide +kernel⟩
  exact ⟨s, s', hrust, hpython, fun r => (blackboard_read_atomic rfl
    (.of_run writtenOnce .refl hs) (.of_run readInBetween .refl hrun) (hidle r)).1⟩

end Python

end Ringfire
