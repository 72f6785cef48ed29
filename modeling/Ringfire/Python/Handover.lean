import Ringfire.Python.Offset
import Ringfire.Python.Producer
import Ringfire.Ring.SeekSystem

/-!
# Consumers that take over from one another

Consumers in both languages read a ring one after the other, or at the same time, with one offset
file between them. Each attaches with the file, receives, commits when it likes, and leaves or dies
at any moment. The next one starts behind the last commit.

The books of the whole say what became of every sequence: it was returned to some consumer, counted
in the lapped count of one, or passed over on request: because a consumer found no commit and its
start mode lay behind the sequence, or because it was told to jump or to seek.

## Main definitions

* `Handover`: a ring, an offset file and the consumers
* `Handover.step`: one memory access of the ring or of a consumer, an attach, a commit or an end
* `Handover.Graceful`: a consumer attaches when the last one has left, and leaves behind a commit

## Main results

* `Python.handover_at_least_once`: no sequence behind a commit is forgotten, whoever dies when
* `Python.handover_exactly_once`: where consumers leave gracefully, each is accounted for once
-/

namespace Ringfire

open Transition OffsetBytes

namespace Python

variable {w : ℕ} {ω κ σ ι : Type}

/-! ## The books -/

/-- What became of the sequences. -/
structure Books (τ : Type) where
  returned : List (ℕ × τ)
  lost : List ℕ
  asked : List ℕ

namespace Books

variable {τ : Type}

/-- All the sequences that were accounted for. -/
def all (b : Books τ) : List ℕ := b.returned.map Prod.fst ++ b.lost ++ b.asked

/-- A consumer went from one account to another. -/
def advance (b : Books τ) (a a' : Account τ) : Books τ where
  returned := b.returned ++ a'.delivered.drop a.delivered.length
  lost := b.lost ++ a'.lapped.drop a.lapped.length
  asked := b.asked ++ a'.jumped.drop a.jumped.length

/-- A consumer found the sequence `saved` committed and starts at `start`, with the lapped count. -/
def attach (b : Books τ) (saved : ℕ) (start : ℕ × ℕ) : Books τ where
  returned := b.returned
  lost := b.lost ++ List.range' (start.1 - start.2) start.2
  asked := b.asked ++ if saved = 0 then List.range' 1 (start.1 - start.2 - 1) else []

/-- A consumer was told to go on somewhere else. -/
def seek (b : Books τ) (a a' : Account τ) : Books τ :=
  { b with asked := b.asked ++ List.range' a.cursor (a'.cursor - a.cursor) }

end Books

/-! ## The system -/

/-- The account of a reader. -/
def AnyReader.account : AnyReader w ω → Option (Account (Payload w ω))
  | .absent => none
  | .rust c => some c.toAccount
  | .python c => some c.toAccount

/-- A ring, an offset file, the consumers and their books. -/
structure Handover (κ σ : Type) (w : ℕ) (ω : Type) where
  ring : σ
  file : OffsetBytes
  clients : κ → AnyReader w ω
  books : Books (Payload w ω)

/-- What happens next. An attach names the `write_seq` that was loaded before the file was read. -/
inductive HandoverLabel (κ ι : Type) (w : ℕ) where
  | ring (l : ι)
  | attachRust (k : κ) (seen : ℕ) (mode : ConsumerStartMode) (pid now : ℕ) (name : List Char)
  | attachPython (k : κ) (seen : ℕ) (mode : StartMode) (pid now : ℕ) (name : List Char)
  | rust (k : κ) (a : Ringfire.ConsumerLabel w)
  | python (k : κ) (a : ConsumerLabel w)
  | seekRust (k : κ) (target : ℕ)
  | commit (k : κ) (now : ℕ)
  /-- The consumer is closed, or its process dies. -/
  | leave (k : κ)

/-- The label is an attach. -/
def HandoverLabel.Attaches : HandoverLabel κ ι w → Prop
  | .attachRust .. | .attachPython .. => True
  | _ => False

namespace Handover

/-- A ring nobody has attached to, and no offset file. -/
def create (κ : Type) (w : ℕ) (ω : Type) (init : σ) : Handover κ σ w ω :=
  ⟨init, .missing, fun _ => .absent, ⟨[], [], []⟩⟩

variable [DecidableEq κ]

/-- A consumer that attached. -/
def attached (s : Handover κ σ w ω) (k : κ) (file : OffsetBytes) (start : ℕ × ℕ)
    (x : AnyReader w ω) : Handover κ σ w ω where
  ring := s.ring
  file := file
  clients := Function.update s.clients k x
  books := s.books.attach s.file.committed start

/-- A consumer that moved. -/
def moved (s : Handover κ σ w ω) (k : κ) (x : AnyReader w ω) (books : Books (Payload w ω)) :
    Handover κ σ w ω :=
  { s with clients := Function.update s.clients k x, books := books }

/-- A consumer that is gone. -/
def left (s : Handover κ σ w ω) (k : κ) : Handover κ σ w ω :=
  { s with clients := Function.update s.clients k .absent }

/-- `attach_with_options`, on a ring without a registry. The offset file is opened, initialised
where it is new, and read in one step. -/
def attachRust (cap : Capacity) (multiProducer : Bool) (view : σ → View w ω)
    (s : Handover κ σ w ω) (k : κ) (seen : ℕ) (mode : ConsumerStartMode) (pid now : ℕ)
    (name : List Char) : Option (Handover κ σ w ω) :=
  match s.clients k, s.file.openRust pid now name,
    attachWithOptions (τ := Payload w ω) cap seen mode (some s.file.file) .without with
  | .absent, some file, .ok (_, a) =>
    if seen ≤ (view s.ring).writeSeq ∧ a.cursor ≤ u64Max then
      some (s.attached k file (a.cursor, a.lappedTotal)
        (.rust (.attach multiProducer false false a.cursor a.lappedTotal)))
    else none
  | _, _, _ => none

/-- `RingConsumer.__init__` with an offset file, in one step as well. -/
def attachPython (cap : Capacity) (view : σ → View w ω) (s : Handover κ σ w ω) (k : κ) (seen : ℕ)
    (mode : StartMode) (pid now : ℕ) (name : List Char) : Option (Handover κ σ w ω) :=
  match s.clients k, initOffsetShm s.file pid now name with
  | .absent, some file =>
    match startPosition cap seen (some (loadOffset file)) mode with
    | some start =>
      if seen ≤ (view s.ring).writeSeq then
        some (s.attached k file start (.python (.attach start)))
      else none
    | none => none
  | _, _ => none

/-- `seek` in Rust, in between calls. -/
def seekRust (cap : Capacity) (writeSeq : ℕ) (s : Handover κ σ w ω) (k : κ) (target : ℕ)
    (c : Ringfire.RingConsumer w ω) : Option (Handover κ σ w ω) :=
  match c.pc with
  | .idle =>
    let c' := c.seekTo cap writeSeq target
    some (s.moved k (.rust c') (s.books.seek c.toAccount c'.toAccount))
  | _ => none

/-- `commit_offset`, in between calls. A cursor in Rust is a number of 64 bits. -/
def commit (s : Handover κ σ w ω) (now : ℕ) : AnyReader w ω → Option (Handover κ σ w ω)
  | .absent => none
  | .rust c =>
    match c.pc with
    | .idle =>
      if c.cursor ≤ u64Max then
        some { s with file := s.file.save (lastProcessedSequence c.cursor) now }
      else none
    | _ => none
  | .python c =>
    match c.pc with
    | .idle => (commitOffset s.file c.cursor now).map fun file => { s with file := file }
    | _ => none

/-- One step of the whole. -/
def step [Inhabited ω] (cap : Capacity) (multiProducer : Bool) (move : σ → ι → Option σ)
    (view : σ → View w ω) (s : Handover κ σ w ω) :
    HandoverLabel κ ι w → Option (Handover κ σ w ω)
  | .ring l => (move s.ring l).map fun r => { s with ring := r }
  | .attachRust k seen mode pid now name =>
    s.attachRust cap multiProducer view k seen mode pid now name
  | .attachPython k seen mode pid now name => s.attachPython cap view k seen mode pid now name
  | .rust k a =>
    match s.clients k with
    | .rust c =>
      (c.step cap (view s.ring).slots (view s.ring).writeSeq a).map fun r =>
        s.moved k (.rust r.1) (s.books.advance c.toAccount r.1.toAccount)
    | _ => none
  | .python k a =>
    match s.clients k with
    | .python c =>
      (c.step cap (view s.ring).slots (view s.ring).writeSeq a).map fun c' =>
        s.moved k (.python c') (match c.pc with
          | .seekLoad _ => s.books.seek c.toAccount c'.toAccount
          | _ => s.books.advance c.toAccount c'.toAccount)
    | _ => none
  | .seekRust k target =>
    match s.clients k with
    | .rust c => s.seekRust cap (view s.ring).writeSeq k target c
    | _ => none
  | .commit k now => s.commit now (s.clients k)
  | .leave k => some (s.left k)

end Handover

/-! ## Where a consumer starts -/

/-- A consumer that found the sequence `saved` committed starts behind it, and what it counts as
lapped before it has read anything is no longer retained. -/
structure Starts (cap : Capacity) (seen saved : ℕ) (start : ℕ × ℕ) : Prop where
  lt : start.2 < start.1
  lapped : 0 < start.2 → start.1 = oldestRetained seen cap.val
  behind : 0 < saved → start.1 = start.2 + (saved + 1)

section

variable {cap : Capacity} {seen saved : ℕ}

theorem Starts.plain {cursor : ℕ} (h : 1 ≤ cursor) : Starts cap seen 0 (cursor, 0) :=
  ⟨h, fun hpos => absurd hpos (lt_irrefl 0), fun hpos => absurd hpos (lt_irrefl 0)⟩

theorem starts_clampStart {target : ℕ} (htarget : 1 ≤ target)
    (hsaved : 0 < saved → target = saved + 1) :
    Starts cap seen saved (clampStart (oldestRetained seen cap.val) target) := by
  unfold clampStart
  split_ifs with hlt
  · refine ⟨by dsimp only; omega, fun _ => rfl, fun hpos => ?_⟩
    have heq := hsaved hpos
    dsimp only
    omega
  · refine ⟨htarget, fun hpos => absurd hpos (lt_irrefl 0), fun hpos => ?_⟩
    have heq := hsaved hpos
    dsimp only
    omega

theorem starts_resolveStart (mode : ConsumerStartMode) (cp : OffsetCheckpoint) :
    Starts cap seen cp.slot.offsetSeq
      (resolveStart cap seen (Ringfire.startPosition mode cp)) := by
  rw [Ringfire.startPosition, OffsetCheckpoint.load]
  rcases Nat.eq_zero_or_pos cp.slot.offsetSeq with hzero | hpos
  · rw [if_pos hzero, hzero]
    cases mode with
    | latest => exact .plain (le_max_right _ _)
    | head => exact .plain (Nat.le_add_left 1 _)
    | oldest => exact .plain (one_le_oldestRetained _ _)
    | sequence seq =>
      exact starts_clampStart (le_max_right _ _) fun hpos => absurd hpos (lt_irrefl 0)
  · rw [if_neg (by omega)]
    exact starts_clampStart (Nat.le_add_left 1 _) fun _ => rfl

theorem starts_startPosition {mode : StartMode} {start : ℕ × ℕ}
    (h : startPosition cap seen (some saved) mode = some start) : Starts cap seen saved start := by
  rcases Nat.eq_zero_or_pos saved with rfl | hpos
  · simp only [startPosition, Option.filter, lt_irrefl, decide_false, Bool.false_eq_true,
      if_false] at h
    cases mode with
    | latest =>
      cases h
      refine .plain ?_
      split_ifs <;> omega
    | head =>
      cases h
      exact .plain (Nat.le_add_left 1 _)
    | oldest =>
      cases h
      exact .plain (one_le_oldestRetained _ _)
    | sequence startSeq =>
      cases startSeq with
      | none => cases h
      | some startSeq =>
        cases h
        exact starts_clampStart (one_le_toNat _) fun hpos => absurd hpos (lt_irrefl 0)
    | unknown => cases h
  · rw [startPosition_committed cap seen mode hpos] at h
    cases h
    exact starts_clampStart (Nat.le_add_left 1 _) fun _ => rfl

end

/-! ## What a step adds to the books -/

namespace Books

variable {τ : Type} {b b' : Books τ} {a a' : Account τ}

/-- Every sequence before `n` is accounted for. -/
def Covers (b : Books τ) (n : ℕ) : Prop := ∀ m, 1 ≤ m → m < n → m ∈ b.all

theorem advance_eq {D : List (ℕ × τ)} {L J : List ℕ} (h : a.Advance a' D L J) :
    b.advance a a' = ⟨b.returned ++ D, b.lost ++ L, b.asked ++ J⟩ := by
  simp [advance, h.delivered, h.lapped, h.jumped]

/-- A move enters every sequence it passes once. -/
theorem all_advance {D : List (ℕ × τ)} {L J : List ℕ} (h : a.Advance a' D L J) :
    (b.advance a a').all.Perm (b.all ++ List.range' a.cursor (a'.cursor - a.cursor)) := by
  refine List.Perm.trans ?_ (h.passed.append_left b.all)
  rw [advance_eq h, List.perm_iff_count]
  intro n
  simp only [all, List.map_append, List.count_append]
  omega

theorem all_seek : (b.seek a a').all = b.all ++ List.range' a.cursor (a'.cursor - a.cursor) := by
  simp [all, seek]

/-- An attach enters every sequence between the last commit and the start once. -/
theorem all_attach {cap : Capacity} {seen saved : ℕ} {start : ℕ × ℕ}
    (h : Starts cap seen saved start) :
    (b.attach saved start).all.Perm (b.all ++ List.range' (saved + 1) (start.1 - (saved + 1))) := by
  have hlt := h.lt
  rw [List.perm_iff_count]
  intro n
  simp only [all, attach, List.count_append]
  rcases Nat.eq_zero_or_pos saved with rfl | hpos
  · have hsub : start.1 - (start.1 - start.2) = start.2 := by omega
    rw [if_pos rfl, Nat.zero_add, range'_split (show 1 ≤ start.1 - start.2 by omega)
      (Nat.sub_le _ _), hsub, List.count_append]
    omega
  · have hbehind := h.behind hpos
    have hfrom : start.1 - start.2 = saved + 1 := by omega
    have hlen : start.1 - (saved + 1) = start.2 := by omega
    rw [if_neg hpos.ne', hfrom, hlen, List.count_nil]
    omega

/-- Where everything before `x` is accounted for and the sequences from `x` to `y` are entered,
everything before `y` is. -/
theorem Covers.append {x y : ℕ} (h : b.Covers x)
    (hall : b'.all.Perm (b.all ++ List.range' x (y - x))) : b'.Covers y := by
  intro m hm hlt
  rw [hall.mem_iff, List.mem_append, List.mem_range'_1]
  rcases lt_or_ge m x with hx | hx
  · exact .inl (h m hm hx)
  · exact .inr ⟨hx, by omega⟩

theorem Covers.mono {l : List ℕ} {x : ℕ} (h : b.Covers x) (hall : b'.all.Perm (b.all ++ l)) :
    b'.Covers x := fun m hm hlt => hall.mem_iff.mpr (List.mem_append_left _ (h m hm hlt))

end Books

theorem AnyReader.Inv.evolves {cap : Capacity} {v v' : View w ω} {x : AnyReader w ω}
    (h : x.Inv cap v) (he : v.Evolves v') : x.Inv cap v' := by
  cases x with
  | absent => trivial
  | rust c => exact Ringfire.RingConsumer.Inv.evolves h he
  | python c => exact RingConsumer.Inv.evolves h he

theorem AnyReader.Inv.one_le {cap : Capacity} {v : View w ω} {x : AnyReader w ω}
    {a : Account (Payload w ω)} (h : x.Inv cap v) (ha : x.account = some a) : 1 ≤ a.cursor := by
  cases x with
  | absent => cases ha
  | rust c =>
    cases ha
    exact Ringfire.RingConsumer.Inv.one_le h
  | python c =>
    cases ha
    exact RingConsumer.Inv.one_le h

namespace Handover

variable [DecidableEq κ] [Inhabited ω] {cap : Capacity} {multiProducer : Bool}
  {move : σ → ι → Option σ} {view : σ → View w ω} {s s' : Handover κ σ w ω}

/-! ## The steps there are -/

/-- A file that either language opens. -/
def Opens (f : OffsetBytes) : Prop := f.len < shmOffsetSlotLen ∨ f.Valid

/-- What a step is. -/
inductive Moves (cap : Capacity) (move : σ → ι → Option σ) (view : σ → View w ω)
    (s : Handover κ σ w ω) : HandoverLabel κ ι w → Handover κ σ w ω → Prop where
  | ring (l : ι) (r : σ) (next : move s.ring l = some r) :
      Moves cap move view s (.ring l) { s with ring := r }
  | attach (l : HandoverLabel κ ι w) (attaches : l.Attaches) (k : κ) (seen : ℕ)
      (file : OffsetBytes) (start : ℕ × ℕ) (x : AnyReader w ω) (valid : file.Valid)
      (committed : file.committed = s.file.committed)
      (starts : Starts cap seen s.file.committed start) (le : seen ≤ (view s.ring).writeSeq)
      (inv : ∀ v, x.Inv cap v) (account : x.account = some (.start start))
      (still : ∀ c, x = .python c → ¬ c.Seeking) :
      Moves cap move view s l (s.attached k file start x)
  | rust (k : κ) (a : Ringfire.ConsumerLabel w) (c c' : Ringfire.RingConsumer w ω)
      (stored : Option ℕ) (client : s.clients k = .rust c)
      (next : c.step cap (view s.ring).slots (view s.ring).writeSeq a = some (c', stored)) :
      Moves cap move view s (.rust k a)
        (s.moved k (.rust c') (s.books.advance c.toAccount c'.toAccount))
  | python (k : κ) (a : ConsumerLabel w) (c c' : RingConsumer w ω)
      (client : s.clients k = .python c) (still : ¬ c.Seeking)
      (next : c.step cap (view s.ring).slots (view s.ring).writeSeq a = some c') :
      Moves cap move view s (.python k a)
        (s.moved k (.python c') (s.books.advance c.toAccount c'.toAccount))
  | seek (k : κ) (a : ConsumerLabel w) (c c' : RingConsumer w ω)
      (client : s.clients k = .python c) (seeking : c.Seeking)
      (next : c.step cap (view s.ring).slots (view s.ring).writeSeq a = some c') :
      Moves cap move view s (.python k a)
        (s.moved k (.python c') (s.books.seek c.toAccount c'.toAccount))
  | seekRust (k : κ) (target : ℕ) (c : Ringfire.RingConsumer w ω) (client : s.clients k = .rust c) :
      Moves cap move view s (.seekRust k target)
        (s.moved k (.rust (c.seekTo cap (view s.ring).writeSeq target))
          (s.books.seek c.toAccount (c.seekTo cap (view s.ring).writeSeq target).toAccount))
  | commit (k : κ) (now : ℕ) (a : Account (Payload w ω))
      (client : (s.clients k).account = some a) (fits : a.cursor - 1 < 2 ^ 64) :
      Moves cap move view s (.commit k now) { s with file := s.file.save (a.cursor - 1) now }
  | leave (k : κ) : Moves cap move view s (.leave k) (s.left k)

omit [Inhabited ω] in
/-- Where an attach in Rust starts. -/
theorem attach_without {seen : ℕ} {mode : ConsumerStartMode} {f : OffsetBytes}
    {cp : Option OffsetCheckpoint} {a : Account (Payload w ω)}
    (h : attachWithOptions cap seen mode (some f.file) .without = .ok (cp, a)) :
    ∃ start, a = .start start ∧ Starts cap seen f.committed start := by
  rw [attachWithOptions] at h
  cases hcp : OffsetCheckpoint.openOrCreate f.file with
  | error e =>
    rw [hcp] at h
    cases h
  | ok cp' =>
    rw [hcp] at h
    cases h
    refine ⟨_, rfl, ?_⟩
    rw [← openOrCreate_committed hcp]
    exact starts_resolveStart mode cp'

theorem step_moves {l : HandoverLabel κ ι w} (hfile : Opens s.file)
    (h : s.step cap multiProducer move view l = some s') : Moves cap move view s l s' := by
  cases l with
  | ring l =>
    obtain ⟨r, hr, rfl⟩ := Option.map_eq_some_iff.mp h
    exact .ring l r hr
  | attachRust k seen mode pid now name =>
    simp only [step, attachRust] at h
    split at h
    · next file cp a habsent hopen hattach =>
      split_ifs at h with hok
      cases h
      obtain ⟨start, rfl, hstarts⟩ := attach_without hattach
      have hone : 1 ≤ start.1 := by
        have hlt := hstarts.lt
        omega
      exact .attach (.attachRust k seen mode pid now name) trivial k seen file start _
        (openRust_valid hopen) (openRust_committed hopen) hstarts hok.1 (fun v => .attach hone) rfl
        (by rintro _ ⟨⟩)
    · cases h
  | attachPython k seen mode pid now name =>
    simp only [step, attachPython] at h
    split at h
    · next file habsent hopen =>
      split at h
      · next start hstart =>
        split_ifs at h with hok
        cases h
        obtain ⟨hvalid, hcommitted⟩ := initOffsetShm_valid hfile hopen
        rw [loadOffset, ← hvalid.committed, hcommitted] at hstart
        refine .attach (.attachPython k seen mode pid now name) trivial k seen file start _ hvalid
          hcommitted (starts_startPosition hstart) hok
          (fun v => .attach (one_le_startPosition hstart)) rfl ?_
        rintro _ ⟨⟩
        exact RingConsumer.not_seeking rfl
      · cases h
    · cases h
  | rust k a =>
    simp only [step] at h
    split at h
    · next c hclient =>
      obtain ⟨⟨c', stored⟩, hnext, rfl⟩ := Option.map_eq_some_iff.mp h
      exact .rust k a c c' stored hclient hnext
    · cases h
  | python k a =>
    simp only [step] at h
    split at h
    · next c hclient =>
      obtain ⟨c', hnext, rfl⟩ := Option.map_eq_some_iff.mp h
      split
      · next target hpc => exact .seek k a c c' hclient ⟨target, hpc⟩ hnext
      · next hpc =>
        refine .python k a c c' hclient ?_ hnext
        rintro ⟨target, htarget⟩
        exact hpc target htarget
    · cases h
  | seekRust k target =>
    simp only [step, seekRust] at h
    split at h
    · next c hclient =>
      split at h <;> cases h
      exact .seekRust k target c hclient
    · cases h
  | commit k now =>
    simp only [step, commit] at h
    split at h
    · cases h
    · next c hclient =>
      split at h
      · split_ifs at h with hfits
        cases h
        refine .commit k now c.toAccount (by rw [hclient]; rfl) ?_
        have hmax : u64Max = 2 ^ 64 - 1 := rfl
        change c.cursor - 1 < 2 ^ 64
        omega
      · cases h
    · next c hclient =>
      split at h
      · obtain ⟨file, hfile', rfl⟩ := Option.map_eq_some_iff.mp h
        unfold commitOffset at hfile'
        split_ifs at hfile' with hfits
        cases hfile'
        exact .commit k now c.toAccount (by rw [hclient]; rfl) hfits
      · cases h
  | leave k =>
    cases h
    exact .leave k

/-! ## The invariant -/

/-- What holds between any two steps. -/
structure Inv (I : σ → Prop) (cap : Capacity) (view : σ → View w ω) (s : Handover κ σ w ω) :
    Prop where
  ring : I s.ring
  file : Opens s.file
  clients : ∀ k, (s.clients k).Inv cap (view s.ring)
  opened : ∀ k a, (s.clients k).account = some a → s.file.Valid
  committed : s.books.Covers (s.file.committed + 1)
  passed : ∀ k a, (s.clients k).account = some a → s.books.Covers a.cursor
  returned : ∀ n d, (n, d) ∈ s.books.returned → n ≠ slotWriting →
    (view s.ring).message n = some d
  lost : ∀ n ∈ s.books.lost, ∃ m, n + cap.val ≤ m ∧ (view s.ring).stored m

namespace Inv

variable {I : σ → Prop} {k : κ} {a a' : Account (Payload w ω)} {x : AnyReader w ω}

omit [DecidableEq κ] [Inhabited ω] in
theorem create {init : σ} (hinit : I init) : (create κ w ω init).Inv I cap view where
  ring := hinit
  file := .inl (show 0 < shmOffsetSlotLen by decide)
  clients _ := trivial
  opened := by rintro _ _ ⟨⟩
  committed := by
    intro m hm hlt
    have hzero : (Handover.create κ w ω init).file.committed = 0 := rfl
    omega
  passed := by rintro _ _ ⟨⟩
  returned := by rintro _ _ ⟨⟩
  lost := by rintro _ ⟨⟩

omit [Inhabited ω] in
/-- A consumer moved, and entered what it passed. -/
theorem moved {books : Books (Payload w ω)} (h : s.Inv I cap view)
    (hk : (s.clients k).account = some a) (hx : x.account = some a')
    (hinv : x.Inv cap (view s.ring))
    (hall : books.all.Perm (s.books.all ++ List.range' a.cursor (a'.cursor - a.cursor)))
    (hret : ∀ n d, (n, d) ∈ books.returned → n ≠ slotWriting → (view s.ring).message n = some d)
    (hlost : ∀ n ∈ books.lost, ∃ m, n + cap.val ≤ m ∧ (view s.ring).stored m) :
    (s.moved k x books).Inv I cap view where
  ring := h.ring
  file := h.file
  clients := (Function.forall_update_iff s.clients fun _ y => y.Inv cap (view s.ring)).mpr
    ⟨hinv, fun k' _ => h.clients k'⟩
  opened k' _ _ := h.opened k a hk
  committed := h.committed.mono hall
  passed := by
    refine (Function.forall_update_iff s.clients fun _ y =>
      ∀ b, y.account = some b → books.Covers b.cursor).mpr ⟨fun b hb => ?_, fun k' _ b hb => ?_⟩
    · cases hx.symm.trans hb
      exact (h.passed k a hk).append hall
    · exact (h.passed k' b hb).mono hall
  returned := hret
  lost := hlost

omit [Inhabited ω] in
/-- A consumer returned the messages `D`, lost the sequences `L` and jumped over `J`. -/
theorem advanced {D : List (ℕ × Payload w ω)} {L J : List ℕ} (h : s.Inv I cap view)
    (hk : (s.clients k).account = some a) (hx : x.account = some a')
    (hinv : x.Inv cap (view s.ring)) (hadv : a.Advance a' D L J)
    (hD : ∀ n d, (n, d) ∈ D → n ≠ slotWriting → (view s.ring).message n = some d)
    (hL : ∀ n ∈ L, ∃ m, n + cap.val ≤ m ∧ (view s.ring).stored m) :
    (s.moved k x (s.books.advance a a')).Inv I cap view := by
  refine h.moved hk hx hinv (Books.all_advance hadv) ?_ ?_ <;> rw [Books.advance_eq hadv]
  · intro n d hmem hn
    exact (List.mem_append.mp hmem).elim (h.returned n d · hn) (hD n d · hn)
  · intro n hn
    exact (List.mem_append.mp hn).elim (h.lost n) (hL n)

omit [Inhabited ω] in
/-- A consumer attached, and entered what it starts behind. -/
theorem attached {seen : ℕ} {file : OffsetBytes} {start : ℕ × ℕ} (h : s.Inv I cap view)
    (hv : (view s.ring).Truthful) (hvalid : file.Valid)
    (hcommitted : file.committed = s.file.committed)
    (hstarts : Starts cap seen s.file.committed start) (hle : seen ≤ (view s.ring).writeSeq)
    (hinv : x.Inv cap (view s.ring)) (haccount : x.account = some (.start start)) :
    (s.attached k file start x).Inv I cap view where
  ring := h.ring
  file := .inr hvalid
  clients := (Function.forall_update_iff s.clients fun _ y => y.Inv cap (view s.ring)).mpr
    ⟨hinv, fun k' _ => h.clients k'⟩
  opened _ _ _ := hvalid
  committed := by
    change (s.books.attach s.file.committed start).Covers (file.committed + 1)
    rw [hcommitted]
    exact h.committed.mono (Books.all_attach hstarts)
  passed := by
    refine (Function.forall_update_iff s.clients fun _ y => ∀ b, y.account = some b →
      (s.books.attach s.file.committed start).Covers b.cursor).mpr
      ⟨fun b hb => ?_, fun k' _ b hb => ?_⟩
    · cases haccount.symm.trans hb
      exact h.committed.append (Books.all_attach hstarts)
    · exact (h.passed k' b hb).mono (Books.all_attach hstarts)
  returned := h.returned
  lost n hn := by
    rcases List.mem_append.mp hn with hn | hn
    · exact h.lost n hn
    · -- the start was clamped to what the ring retained when its position was loaded
      rw [List.mem_range'_1] at hn
      have hlt := hstarts.lt
      have hold := hstarts.lapped (by omega)
      have hover : n + cap.val ≤ seen := (lt_oldestRetained (by omega)).mp (by omega)
      have hpos := cap.pos
      exact ⟨_, hover.trans hle, hv.writeSeq.resolve_left (by omega)⟩

omit [Inhabited ω] in
/-- A consumer is gone. -/
theorem left (h : s.Inv I cap view) (k : κ) : (s.left k).Inv I cap view where
  ring := h.ring
  file := h.file
  clients := (Function.forall_update_iff s.clients fun _ y => y.Inv cap (view s.ring)).mpr
    ⟨trivial, fun k' _ => h.clients k'⟩
  opened := (Function.forall_update_iff s.clients fun _ y =>
    ∀ b, y.account = some b → s.file.Valid).mpr ⟨nofun, fun k' _ => h.opened k'⟩
  committed := h.committed
  passed := (Function.forall_update_iff s.clients fun _ y =>
    ∀ b, y.account = some b → s.books.Covers b.cursor).mpr ⟨nofun, fun k' _ => h.passed k'⟩
  returned := h.returned
  lost := h.lost

omit [DecidableEq κ] [Inhabited ω] in
theorem rust {c : Ringfire.RingConsumer w ω} (h : s.Inv I cap view) (hk : s.clients k = .rust c) :
    c.Inv cap (view s.ring) := by
  have hinv := h.clients k
  rwa [hk] at hinv

omit [DecidableEq κ] [Inhabited ω] in
theorem python {c : RingConsumer w ω} (h : s.Inv I cap view) (hk : s.clients k = .python c) :
    c.Inv cap (view s.ring) := by
  have hinv := h.clients k
  rwa [hk] at hinv

/-- **The invariant step.** -/
theorem step {l : HandoverLabel κ ι w} (hw : Watchable I move view) (h : s.Inv I cap view)
    (hstep : s.step cap multiProducer move view l = some s') : s'.Inv I cap view := by
  have hv := hw.truthful h.ring
  cases step_moves h.file hstep with
  | ring l r next =>
    have he := hw.evolves h.ring next
    refine ⟨hw.inv h.ring next, h.file, fun k => (h.clients k).evolves he, h.opened, h.committed,
      h.passed, fun n d hmem hn => he.message n d (h.returned n d hmem hn), fun n hn => ?_⟩
    obtain ⟨m, hm, hst⟩ := h.lost n hn
    exact ⟨m, hm, he.stored m hst⟩
  | attach l attaches k seen file start x valid committed starts le inv account still =>
    exact h.attached hv valid committed starts le (inv _) account
  | rust k a c c' stored client next =>
    have hc := h.rust client
    obtain ⟨D, L, J, hadv, hD, hL, -⟩ := hc.advance hv next
    exact h.advanced (by rw [client]; rfl) rfl (hc.step hv next) hadv (fun n d hm _ => hD n d hm) hL
  | python k a c c' client still next =>
    have hc := h.python client
    obtain ⟨D, L, hadv, hD, hL⟩ := hc.advance hv still next
    exact h.advanced (by rw [client]; rfl) rfl (hc.step hv next) hadv hD hL
  | seek k a c c' client seeking next =>
    have hc := h.python client
    exact h.moved (by rw [client]; rfl) rfl (hc.step hv next) (.of_eq Books.all_seek) h.returned
      h.lost
  | seekRust k target c client =>
    have hc := h.rust client
    exact h.moved (by rw [client]; rfl) rfl (SeekSystem.seekTo_inv hc _ _) (.of_eq Books.all_seek)
      h.returned h.lost
  | commit k now a client fits =>
    have hvalid := h.opened k a client
    have hone := (h.clients k).one_le client
    refine ⟨h.ring, .inr (save_valid hvalid _ _), h.clients, fun _ _ _ => save_valid hvalid _ _, ?_,
      h.passed, h.returned, h.lost⟩
    change s.books.Covers ((s.file.save (a.cursor - 1) now).committed + 1)
    rw [committed_save hvalid fits, Nat.sub_add_cancel hone]
    exact h.passed k a client
  | leave k => exact h.left k

end Inv

/-! ## Consumers that leave gracefully -/

/-- A consumer attaches when nobody is left, does not seek, and leaves behind a commit. -/
structure Graceful (s : Handover κ σ w ω) (l : HandoverLabel κ ι w) : Prop where
  attach : l.Attaches → ∀ k, s.clients k = .absent
  receive : ∀ k a, l = .python k a → ∀ targetSeq, a ≠ .call (.seek targetSeq)
  stay : ∀ k target, l ≠ .seekRust k target
  leave : ∀ k a, l = .leave k → (s.clients k).account = some a → s.file.committed = a.cursor - 1

/-- Who reads the ring, and that every sequence up to its position was entered once. -/
inductive Held (s : Handover κ σ w ω) : Prop where
  | nobody (absent : ∀ k, s.clients k = .absent)
      (books : s.books.all.Perm (List.range' 1 s.file.committed))
  | one (k : κ) (a : Account (Payload w ω)) (client : (s.clients k).account = some a)
      (alone : ∀ k', k' ≠ k → s.clients k' = .absent)
      (still : ∀ c, s.clients k = .python c → ¬ c.Seeking)
      (books : s.books.all.Perm (List.range' 1 (a.cursor - 1)))

omit [Inhabited ω] in
theorem left_absent {k : κ} (h : ∀ k', k' ≠ k → s.clients k' = .absent) :
    ∀ k', (s.left k).clients k' = .absent :=
  (Function.forall_update_iff s.clients fun _ y => y = .absent).mpr ⟨rfl, h⟩

/-- Sequences entered once are followed by the next ones. -/
theorem perm_range {b b' : List ℕ} {x y : ℕ} (hx : 1 ≤ x) (hxy : x ≤ y)
    (h : b.Perm (List.range' 1 (x - 1))) (hall : b'.Perm (b ++ List.range' x (y - x))) :
    b'.Perm (List.range' 1 (y - 1)) := by
  rw [range'_split hx hxy]
  exact hall.trans (h.append_right _)

namespace Held

variable {k : κ} {a : Account (Payload w ω)}

omit [DecidableEq κ] [Inhabited ω] in
/-- The consumer that is attached is the only one. -/
theorem at_client (h : s.Held) (hk : (s.clients k).account = some a) :
    (∀ k', k' ≠ k → s.clients k' = .absent) ∧ (∀ c, s.clients k = .python c → ¬ c.Seeking) ∧
      s.books.all.Perm (List.range' 1 (a.cursor - 1)) := by
  cases h with
  | nobody absent =>
    rw [absent k] at hk
    cases hk
  | one k₀ a₀ client alone still books =>
    rcases eq_or_ne k k₀ with rfl | hne
    · cases client.symm.trans hk
      exact ⟨alone, still, books⟩
    · rw [alone k hne] at hk
      cases hk

omit [Inhabited ω] in
/-- The consumer moved on. -/
theorem moved {x : AnyReader w ω} {a' : Account (Payload w ω)} {books : Books (Payload w ω)}
    (h : s.Held) (hk : (s.clients k).account = some a) (hx : x.account = some a')
    (hstill : ∀ c, x = .python c → ¬ c.Seeking) (hone : 1 ≤ a.cursor) (hle : a.cursor ≤ a'.cursor)
    (hall : books.all.Perm (s.books.all ++ List.range' a.cursor (a'.cursor - a.cursor))) :
    (s.moved k x books).Held := by
  obtain ⟨alone, -, hbooks⟩ := h.at_client hk
  have hself : (s.moved k x books).clients k = x := Function.update_self ..
  refine .one k a' (by rw [hself, hx]) (fun k' hne => ?_) (by rwa [hself])
    (perm_range hone hle hbooks hall)
  exact (Function.update_of_ne hne ..).trans (alone k' hne)

/-- **A graceful step enters every sequence once.** -/
theorem step {l : HandoverLabel κ ι w} {I : σ → Prop} (hw : Watchable I move view)
    (hinv : s.Inv I cap view) (h : s.Held) (hl : s.Graceful l)
    (hstep : s.step cap multiProducer move view l = some s') : s'.Held := by
  have hv := hw.truthful hinv.ring
  cases step_moves hinv.file hstep with
  | ring l r next =>
    cases h with
    | nobody absent books => exact .nobody absent books
    | one k a client alone still books => exact .one k a client alone still books
  | attach l attaches k seen file start x valid committed starts le inv account still =>
    have habsent := hl.attach attaches
    have hself : (s.attached k file start x).clients k = x := Function.update_self ..
    have hone : s.file.committed + 1 ≤ start.1 := by
      have hlt := starts.lt
      rcases Nat.eq_zero_or_pos s.file.committed with hzero | hpos
      · omega
      · have hbehind := starts.behind hpos
        omega
    have hbooks : s.books.all.Perm (List.range' 1 s.file.committed) := by
      cases h with
      | nobody absent books => exact books
      | one k a client =>
        rw [habsent k] at client
        cases client
    have hall : (s.attached k file start x).books.all.Perm (s.books.all ++
        List.range' (s.file.committed + 1) (start.1 - (s.file.committed + 1))) :=
      Books.all_attach starts
    have hnext : (s.attached k file start x).books.all.Perm (List.range' 1 (start.1 - 1)) :=
      perm_range (Nat.le_add_left 1 _) hone hbooks hall
    refine .one k (.start start) (by rw [hself, account]) (fun k' hne => ?_) (by rwa [hself]) hnext
    exact (Function.update_of_ne hne ..).trans (habsent k')
  | rust k a c c' stored client next =>
    have hc := hinv.rust client
    obtain ⟨D, L, J, hadv, -, -, -⟩ := hc.advance hv next
    exact h.moved (by rw [client]; rfl) rfl (by rintro _ ⟨⟩) hc.one_le hadv.le
      (Books.all_advance hadv)
  | python k a c c' client still next =>
    have hc := hinv.python client
    obtain ⟨D, L, hadv, -, -⟩ := hc.advance hv still next
    refine h.moved (by rw [client]; rfl) rfl ?_ hc.one_le hadv.le (Books.all_advance hadv)
    rintro _ ⟨⟩
    exact RingConsumer.step_seeking (hl.receive k a rfl) next
  | seek k a c c' client seeking next =>
    have hk : (s.clients k).account = some c.toAccount := by rw [client]; rfl
    exact absurd seeking ((h.at_client hk).2.1 c client)
  | seekRust k target => exact absurd rfl (hl.stay k target)
  | commit k now a client fits =>
    obtain ⟨alone, still, books⟩ := h.at_client client
    exact .one k a client alone still books
  | leave k =>
    cases h with
    | nobody absent books => exact .nobody (left_absent fun k' _ => absent k') books
    | one k₀ a client alone still books =>
      rcases eq_or_ne k₀ k with rfl | hne
      · refine .nobody (left_absent alone) ?_
        change s.books.all.Perm (List.range' 1 s.file.committed)
        rwa [hl.leave k₀ a rfl client]
      · have hsame : (s.left k).clients k₀ = s.clients k₀ := Function.update_of_ne hne ..
        refine .one k₀ a (by rwa [hsame]) (fun k' hne' => ?_) (by rwa [hsame]) books
        rcases eq_or_ne k' k with rfl | hk
        · exact Function.update_self ..
        · exact (Function.update_of_ne hk ..).trans (alone k' hne')

end Held

/-! ## What the books say -/

/-- Every sequence behind a commit or behind a consumer is accounted for: it was returned as it was
pushed, or lost because it was overwritten, or passed over because somebody asked for that. -/
structure AtLeastOnce (cap : Capacity) (v : View w ω) (s : Handover κ σ w ω) : Prop where
  committed : ∀ n, 1 ≤ n → n ≤ s.file.committed → n ∈ s.books.all
  passed : ∀ k a, (s.clients k).account = some a → ∀ n, 1 ≤ n → n < a.cursor → n ∈ s.books.all
  returned : ∀ n d, (n, d) ∈ s.books.returned → n ≠ slotWriting → v.message n = some d
  lost : ∀ n ∈ s.books.lost, ∃ m, n + cap.val ≤ m ∧ v.stored m

omit [DecidableEq κ] [Inhabited ω] in
theorem Inv.atLeastOnce {I : σ → Prop} (h : s.Inv I cap view) :
    s.AtLeastOnce cap (view s.ring) where
  committed n hn hle := h.committed n hn (by omega)
  passed := h.passed
  returned := h.returned
  lost := h.lost

/-- The books are right in every reachable state. -/
theorem atLeastOnce {I : σ → Prop} {init : σ} (hw : Watchable I move view) (hinit : I init)
    (hreach : Reaches (step cap multiProducer move view) (create κ w ω init) s) :
    s.AtLeastOnce cap (view s.ring) := by
  have hinv : s.Inv I cap view :=
    hreach.invariant (P := Inv I cap view) (fun h hstep => h.step hw hstep) (.create hinit)
  exact hinv.atLeastOnce

/-- Where every step is graceful no sequence is entered twice. -/
theorem nodup {I : σ → Prop} {init : σ} (hw : Watchable I move view) (hinit : I init)
    (hreach : ReachesBy Graceful (step cap multiProducer move view) (create κ w ω init) s) :
    s.AtLeastOnce cap (view s.ring) ∧ s.books.all.Nodup := by
  obtain ⟨hinv, hheld⟩ : s.Inv I cap view ∧ s.Held :=
    hreach.invariant (P := fun s => Inv I cap view s ∧ s.Held)
      (fun h hl hstep => ⟨h.1.step hw hstep, h.2.step hw h.1 hl hstep⟩)
      ⟨.create hinit, .nobody (fun _ => rfl) .rfl⟩
  refine ⟨hinv.atLeastOnce, ?_⟩
  cases hheld with
  | nobody _ books => exact books.nodup_iff.mpr List.nodup_range'
  | one _ _ _ _ _ books => exact books.nodup_iff.mpr List.nodup_range'

end Handover

/-- The first message is pushed, and a consumer in Python receives it and commits. -/
def received : List (HandoverLabel Bool (Label Unit 1 ℕ) 1) :=
  [.ring (.producer (.call (.push fun _ => 7))), .ring (.producer .tick), .ring (.producer .tick),
    .ring (.producer (.word onlyWord)), .ring (.producer .tick), .ring (.producer .tick),
    .ring (.producer .tick), .python true (.call .recvStatus), .python true .tick,
    .python true (.word onlyWord), .python true .tick, .commit true 0]

/-- It leaves, and a consumer in Rust takes over. -/
def takenOver : List (HandoverLabel Bool (Label Unit 1 ℕ) 1) :=
  .attachPython true 0 .oldest 1 0 [] :: received ++
    [.leave true, .attachRust false 1 .oldest 2 0 []]

/-- A ring of one slot, before two consumers attach to it. -/
abbrev oneSlotRing : Handover Bool (System Unit 1 ℕ) 1 ℕ :=
  .create Bool 1 ℕ (System.create Unit 1 System.oneSlot)

/-- One step of it. -/
abbrev oneSlotStep : Handover Bool (System Unit 1 ℕ) 1 ℕ → HandoverLabel Bool (Label Unit 1 ℕ) 1 →
    Option (Handover Bool (System Unit 1 ℕ) 1 ℕ) :=
  Handover.step System.oneSlot.cap false (System.step System.oneSlot) System.view

/-- **Consumers that leave gracefully hand over exactly.** Where each of them attaches when the last
one has left, receives without seeking, and leaves when it has committed its position, no sequence
is accounted for twice: none is returned again, and none is lost that was returned. -/
theorem handover_exactly_once {π ρ κ : Type} [DecidableEq π] [DecidableEq ρ] [DecidableEq κ]
    [Inhabited ω] :
    (∀ (cfg : Config) (s : Handover κ (System ρ w ω) w ω), cfg.maxReaders = 0 →
      ReachesBy Handover.Graceful (Handover.step cfg.cap false (System.step cfg) System.view)
        (.create κ w ω (System.create ρ w cfg)) s →
      s.AtLeastOnce cfg.cap s.ring.view ∧ s.books.all.Nodup) ∧
    (∀ (cap : Capacity) (s : Handover κ (MpmcSystem π ρ w ω) w ω),
      ReachesBy Handover.Graceful
        (Handover.step cap true (MpmcSystem.step cap) fun s => s.mem.view)
        (.create κ w ω (MpmcSystem.create π ρ w)) s →
      s.AtLeastOnce cap s.ring.mem.view ∧ s.books.all.Nodup) ∧
    ∀ (cap : Capacity) (s : Handover κ (Writer w ω) w ω),
      ReachesBy Handover.Graceful (Handover.step cap false (Writer.fitting cap) Writer.view)
        (.create κ w ω (Writer.create w)) s →
      s.AtLeastOnce cap s.ring.view ∧ s.books.all.Nodup :=
  ⟨fun cfg _ _ => Handover.nodup (System.watchable cfg) (.create ρ w cfg),
    fun cap _ => Handover.nodup (MpmcSystem.watchable cap) (.create π ρ w),
    fun cap _ => Handover.nodup (Writer.watchable cap) (Writer.sound_create cap)⟩

/-- The first consumer leaves behind its commit, so the first message is entered once. -/
theorem handover_exactly_once_takenOver :
    ∃ s, run oneSlotStep oneSlotRing takenOver = some s ∧
      s.books.all = [1] ∧ s.AtLeastOnce System.oneSlot.cap s.ring.view ∧ s.books.all.Nodup := by
  have hrun : (run oneSlotStep oneSlotRing takenOver).map (fun s => s.books.all) = some [1] := by
    decide +kernel
  have hleft : (run oneSlotStep oneSlotRing
      (.attachPython true 0 .oldest 1 0 [] :: received)).map (fun u => (u.file.committed,
        (u.clients true).account.map Account.cursor,
        (u.clients false).account.map Account.cursor)) = some (1, some 2, none) := by
    decide +kernel
  obtain ⟨s, hs, hall⟩ := Option.map_eq_some_iff.mp hrun
  obtain ⟨u, hu, he⟩ := Option.map_eq_some_iff.mp hleft
  obtain ⟨hcommitted, hclient, hother⟩ : u.file.committed = 1 ∧
      (u.clients true).account.map Account.cursor = some 2 ∧
      (u.clients false).account.map Account.cursor = none := by
    simpa only [Prod.mk.injEq] using he
  obtain ⟨t, ht, hreceived⟩ := run_cons_eq_some.mp hu
  obtain ⟨u', hu', htail⟩ := run_append.mp hs
  cases hu.symm.trans hu'
  obtain ⟨v, hv, htail⟩ := run_cons_eq_some.mp htail
  obtain ⟨s', hs', htail⟩ := run_cons_eq_some.mp htail
  cases htail
  cases hv
  have habsent : ∀ k, (u.left true).clients k = .absent := by
    refine Handover.left_absent fun k hk => ?_
    rw [Bool.eq_false_iff.mpr hk]
    cases hx : u.clients false with
    | absent => rfl
    | rust c | python c =>
      rw [hx] at hother
      cases hother
  -- every step is graceful
  have hattaches : oneSlotRing.Graceful (ι := Label Unit 1 ℕ)
      (.attachPython true 0 .oldest 1 0 []) :=
    ⟨fun _ _ => rfl, by simp, by simp, by simp⟩
  have hreceives : ∀ l ∈ received, ∀ v : Handover Bool (System Unit 1 ℕ) 1 ℕ, v.Graceful l := by
    intro l hl v
    simp only [received, List.mem_cons, List.not_mem_nil, or_false] at hl
    rcases hl with rfl | rfl | rfl | rfl | rfl | rfl | rfl | rfl | rfl | rfl | rfl | rfl <;>
      exact ⟨fun h => h.elim, by simp, by simp, by simp⟩
  have hleaves : u.Graceful (ι := Label Unit 1 ℕ) (.leave true) := by
    refine ⟨fun h => h.elim, by simp, by simp, ?_⟩
    rintro k a ⟨⟩ ha
    rw [ha] at hclient
    have hcursor : a.cursor = 2 := Option.some_inj.mp hclient
    rw [hcommitted, hcursor]
  have htakes : (u.left true).Graceful (ι := Label Unit 1 ℕ)
      (.attachRust false 1 .oldest 2 0 []) :=
    ⟨fun _ => habsent, by simp, by simp, by simp⟩
  have hreach : ReachesBy Handover.Graceful oneSlotStep oneSlotRing s :=
    .tail (.tail (.append (.tail .refl hattaches ht) hreceived hreceives) hleaves rfl) htakes hs'
  exact ⟨s, hs, hall, (handover_exactly_once (π := Unit) (ρ := Unit)).1 System.oneSlot s rfl hreach⟩

end Python

end Ringfire
