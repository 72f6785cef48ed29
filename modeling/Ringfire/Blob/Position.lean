import Ringfire.Blob.Report
import Ringfire.Ring.Ownership
import Ringfire.Ring.Seek

/-!
# The position a registered consumer reports

The registry of `Registry` together with the consumers that hold its registrations, of both kinds.
`lag`, `headroom` and `active_readers` read a consumer's position from its registry slot.

A consumer is registered at its cursor when it attaches. From then on the slot is stored by
`update_cursor` only, and a `BlobConsumer` that passes messages without returning one does not call
it. As in `RingConsumer.observe`, a consumer sees some memory at each of its steps.

## Main definitions

* `ReaderSystem.step`: one memory access of a consumer, or of the registry's other users
* `ReaderSystem.Exact`: between two calls the slot of a live consumer carries its cursor
* `BlobClient.Forgets`: a call ends without a message although the cursor has moved

## Main results

* `BlobClient.step_tracked`: what one memory access does to the distance from the stored cursor
* `ReaderSystem.exact_iff`: every state of a run is exact when no call of the run forgets
-/

namespace Ringfire

open PayloadArena

variable {w : ℕ} {ω : Type}

/-! ## One consumer -/

namespace BlobClient

variable {cap : Capacity} {acap : ArenaCapacity} {ref : Payload w ω → BlobRef}
  {c c' : BlobClient w ω} {r : BlobReceiver w ω} {a : BlobSight w ω} {stored : Option ℕ} {p : ℕ}

/-- No call is in progress. -/
def Rests (c : BlobClient w ω) : Prop := c.pc = .idle ∧ c.storing = false

/-- The call ends without a message although the cursor has moved since it was stored. -/
def Forgets [Inhabited ω] (cap : Capacity) (acap : ArenaCapacity) (ref : Payload w ω → BlobRef)
    (c : BlobClient w ω) (a : BlobSight w ω) : Prop :=
  c.EndsEmpty cap acap ref a ∧ 0 < c.unstored

/-- A registered consumer that stored `p` last. -/
structure Registered (cap : Capacity) (c : BlobClient w ω) (p : ℕ) : Prop where
  registered : c.registered = true
  distance : p + c.unstored = c.cursor
  scans : ∀ room skipped pc, c.pc = .hole room skipped pc → pc.Scanned cap c.cursor

/-- What one memory access does to a registered consumer that stored `p` last. -/
structure Tracked [Inhabited ω] (cap : Capacity) (acap : ArenaCapacity)
    (ref : Payload w ω → BlobRef) (c c' : BlobClient w ω) (a : BlobSight w ω) (p : ℕ) : Prop where
  keeps : c'.Registered cap p
  ends : c.EndsEmpty cap acap ref a → c'.Rests ∧ c'.unstored = c.unstored
  goes : ¬ c.EndsEmpty cap acap ref a → ¬ c'.Rests

/-- A call that begins or goes on does not rest. -/
theorem not_rests_of_call {room : Option ℕ} {skipped : ℕ} (h : c.pc.call = some (room, skipped)) :
    ¬ c.Rests := by
  rintro ⟨hidle, -⟩
  rw [hidle] at h
  cases h

/-- A step that does not end the call leaves the consumer inside one, or about to store. -/
theorem Tracked.move [Inhabited ω] (hends : ¬ c.EndsEmpty cap acap ref a)
    (h : c.Registered cap p) (hm : Moves cap acap ref c c' a) (hgoes : ¬ c'.Rests)
    (hle : c.cursor ≤ c'.cursor)
    (hscan : ∀ room skipped pc, c'.pc = .hole room skipped pc → pc.Scanned cap c'.cursor) :
    Tracked cap acap ref c c' a p := by
  refine ⟨⟨hm.registered.trans h.registered, ?_, hscan⟩, fun he => absurd he hends,
    fun _ => hgoes⟩
  have hdistance := h.distance
  have hunstored := hm.unstored
  omega

/-- Inside a call the distance from the stored cursor grows with the cursor. -/
theorem Moves.tracked [Inhabited ω] (hm : Moves cap acap ref c c' a) (h : c.Registered cap p) :
    Tracked cap acap ref c c' a p := by
  cases hm.kind with
  | call room label old new account returned =>
    have hcall : c'.pc.call = some (room, 0) := by rw [new]; rfl
    have hcursor : c'.cursor = c.cursor := congrArg Account.cursor account
    refine .move (fun he => ?_) h hm (not_rests_of_call hcall) hcursor.ge fun _ _ _ hhole => ?_
    · cases label.symm.trans he.2.1
    · cases hhole.symm.trans new
  | inside room skipped goes old new account returned scan =>
    have hcursor : c'.cursor = c.cursor := congrArg Account.cursor account
    refine .move goes h hm (not_rests_of_call new) hcursor.ge fun room' skipped' pc' hhole => ?_
    rw [hhole] at new
    cases new
    rw [hcursor]
    obtain rfl | ⟨pc, hpc, hgo⟩ := scan pc' hhole
    · trivial
    · exact (h.scans _ _ pc hpc).step hgo
  | lap room skipped target goes old le receiver returned =>
    have hpc : c'.pc = .reading room (skipped + (target - c.cursor)) .load :=
      congrArg BlobReceiver.pc receiver
    have hcall : c'.pc.call = some (room, skipped + (target - c.cursor)) := by rw [hpc]; rfl
    have hcursor : c'.cursor = target := congrArg (fun r => r.cursor) receiver
    have hle : c.cursor ≤ target := by
      obtain hle | ⟨ws, examined, hhole⟩ := le
      · exact hle
      · exact (h.scans _ _ _ hhole).2.1.le
    refine .move goes h hm (not_rests_of_call hcall) (hcursor ▸ hle) fun _ _ _ hhole => ?_
    cases hhole.symm.trans hpc
  | deliver room skipped payloadLen goes old idle storing cursor lappedTotal returned =>
    -- `update_cursor` is still to come
    have hgoes : ¬ c'.Rests := fun hrests => by
      cases (storing.trans h.registered).symm.trans hrests.2
    refine .move goes h hm hgoes (cursor ▸ Nat.le_succ _) fun _ _ _ hhole => ?_
    cases hhole.symm.trans idle
  | endEmpty room skipped x ends old idle storing account returned told =>
    have hcursor : c'.cursor = c.cursor := congrArg Account.cursor account
    have hunstored : c'.unstored = c.unstored := by
      rw [hm.unstored, hcursor, Nat.sub_self, Nat.add_zero]
    refine ⟨⟨hm.registered.trans h.registered, ?_, fun _ _ _ hhole => ?_⟩,
      fun _ => ⟨⟨idle, storing⟩, hunstored⟩, fun he => absurd ends he⟩
    · rw [hcursor, hunstored]
      exact h.distance
    · cases hhole.symm.trans idle

/-- **What one memory access does** to the distance between the cursor and the one stored last:
only a call that ends without a message leaves a consumer at rest. -/
theorem step_tracked [Inhabited ω] (h : c.Registered cap p)
    (hstep : c.step cap acap ref a = some (c', stored)) :
    (stored = none ∧ Tracked cap acap ref c c' a p) ∨
      (stored = some c.cursor ∧ c'.Registered cap c.cursor ∧ c'.cursor = c.cursor ∧
        c'.unstored = 0 ∧ ¬ c.EndsEmpty cap acap ref a) := by
  unfold step at hstep
  cases hstoring : c.storing with
  | true =>
    -- `update_cursor`
    rw [hstoring, if_pos rfl] at hstep
    split at hstep <;> cases hstep
    refine .inr ⟨rfl, ⟨h.registered, rfl, h.scans⟩, rfl, rfl, fun he => ?_⟩
    cases hstoring.symm.trans he.1
  | false =>
    rw [hstoring, if_neg Bool.false_ne_true] at hstep
    obtain ⟨r, hr, he⟩ := Option.map_eq_some_iff.mp hstep
    cases he
    exact .inl ⟨rfl, (step_moves hstoring hr).tracked h⟩

end BlobClient

/-! ## The registry and its consumers -/

/-- The consumer that holds a registration. -/
inductive ReaderClient (w : ℕ) (ω : Type) where
  | none
  | ring (c : SeekingConsumer w ω)
  | blob (c : BlobClient w ω)

namespace ReaderClient

/-- `cursor()`. -/
def cursor : ReaderClient w ω → ℕ
  | none => 0
  | ring c => c.reader.cursor
  | blob c => c.cursor

/-- A consumer between two calls. -/
def Rests : ReaderClient w ω → Prop
  | none => False
  | ring c => c.idle
  | blob c => c.Rests

/-- What holds of a consumer with the registration `h`. -/
def Inv (cap : Capacity) (h : Handle) : ReaderClient w ω → Prop
  | none => True
  | ring c => ∃ pid i p, h = .live pid i p ∧ c.reader.registered = true ∧
      (c.reader.synced = true → c.reader.cursor = p)
  | blob c => ∃ pid i p, h = .live pid i p ∧ c.Registered cap p

/-- A blob consumer at rest has nothing left to store. -/
def Stored : ReaderClient w ω → Prop
  | none | ring _ => True
  | blob c => c.Rests → c.unstored = 0

end ReaderClient

/-- The registry, with the consumers of its registrations. -/
structure ReaderSystem (ρ κ : Type) (w : ℕ) (ω : Type) where
  registry : Registry ρ κ
  clients : ρ → ReaderClient w ω

/-- Who moves: a registration under way, a scanning thread, the death of a process, a consumer
attaching or dropped, or a consumer with the memory it sees. -/
inductive ReaderLabel (ρ κ : Type) (w : ℕ) (ω : Type) where
  | registry (a : RegistryLabel ρ κ)
  | attachRing (r : ρ) (multiProducer sparse : Bool) (lappedTotal : ℕ)
  | attachBlob (r : ρ) (sparse : Bool)
  | drop (r : ρ)
  | ring (r : ρ) (slots : ℕ → Slot w ω) (writeSeq : ℕ) (a : SeekLabel w)
  | blob (r : ρ) (a : BlobSight w ω)

namespace ReaderSystem

variable {ρ κ : Type}

/-- A new ring: nobody is registered. -/
def init (ρ κ : Type) (w : ℕ) (ω : Type) (alive : ℕ → Bool) : ReaderSystem ρ κ w ω :=
  ⟨.init ρ κ alive, fun _ => .none⟩

/-- Registration `r` is handed to a consumer, or its consumer moves. -/
def setClient [DecidableEq ρ] (s : ReaderSystem ρ κ w ω) (r : ρ) (x : ReaderClient w ω) :
    ReaderSystem ρ κ w ω :=
  { s with clients := Function.update s.clients r x }

/-- One memory access. -/
def step [DecidableEq ρ] [DecidableEq κ] [Inhabited ω] (count : ℕ) (cap : Capacity)
    (acap : ArenaCapacity) (ref : Payload w ω → BlobRef) (s : ReaderSystem ρ κ w ω) :
    ReaderLabel ρ κ w ω → Option (ReaderSystem ρ κ w ω)
  | .registry a =>
    if a.others then (s.registry.step count a).map fun g => { s with registry := g } else none
  -- a consumer is registered at its cursor
  | .attachRing r multiProducer sparse lappedTotal =>
    match s.clients r, s.registry.handles r with
    | .none, .live _ _ cursor =>
      some (s.setClient r (.ring ⟨.attach multiProducer sparse true cursor lappedTotal, none⟩))
    | _, _ => none
  | .attachBlob r sparse =>
    match s.clients r, s.registry.handles r with
    | .none, .live _ _ cursor =>
      some (s.setClient r (.blob (.attach sparse true cursor)))
    | _, _ => none
  | .drop r =>
    (s.registry.step count (.handle r .drop)).map fun g =>
      { s with registry := g }.setClient r .none
  | .ring r slots writeSeq a =>
    match s.clients r with
    | .ring c =>
      if s.registry.acts r then
        (c.step cap slots writeSeq a).map fun (c', stored) =>
          { s with registry := s.registry.store r stored }.setClient r (.ring c')
      else none
    | _ => none
  | .blob r a =>
    match s.clients r with
    | .blob c =>
      if s.registry.acts r then
        (c.step cap acap ref a).map fun (c', stored) =>
          { s with registry := s.registry.store r stored }.setClient r (.blob c')
      else none
    | _ => none

/-- Between two calls the slot of a live consumer carries its cursor. -/
def Exact (s : ReaderSystem ρ κ w ω) : Prop :=
  ∀ r pid i p, s.registry.handles r = .live pid i p → s.registry.alive pid = true →
    (s.clients r).Rests → s.registry.regs i = ⟨pid, 1, (s.clients r).cursor⟩

/-- The step ends a call of a blob consumer that has passed messages and returns none. -/
def Forgets [Inhabited ω] (cap : Capacity) (acap : ArenaCapacity) (ref : Payload w ω → BlobRef)
    (s : ReaderSystem ρ κ w ω) : ReaderLabel ρ κ w ω → Prop
  | .blob r a => ∃ c, s.clients r = .blob c ∧ c.Forgets cap acap ref a
  | _ => False

/-- What holds in every state: the registry is in order, and every consumer knows how far it is
from the cursor it stored last. -/
structure Inv (count : ℕ) (cap : Capacity) (s : ReaderSystem ρ κ w ω) : Prop where
  registry : s.registry.Inv count
  clients : ∀ r, (s.clients r).Inv cap (s.registry.handles r)

variable [DecidableEq ρ] {count : ℕ} {cap : Capacity} {acap : ArenaCapacity}
  {ref : Payload w ω → BlobRef} {s s' : ReaderSystem ρ κ w ω} {a : ReaderLabel ρ κ w ω}

/-- A consumer moved, and perhaps stored its cursor. -/
theorem Inv.setClient (h : s.Inv count cap) {r : ρ} {g : Registry ρ κ} {x : ReaderClient w ω}
    (hg : g.Inv count) (hothers : ∀ r', r' ≠ r → g.handles r' = s.registry.handles r')
    (hx : x.Inv cap (g.handles r)) :
    Inv count cap ({ s with registry := g }.setClient r x) := by
  refine ⟨hg, fun r' => ?_⟩
  unfold ReaderSystem.setClient
  dsimp only
  rcases eq_or_ne r' r with rfl | hne
  · rw [Function.update_self]
    exact hx
  · rw [Function.update_of_ne hne, hothers r' hne]
    exact h.clients r'

variable [DecidableEq κ] [Inhabited ω]

/-- **Every step keeps the account of what is stored.** -/
theorem Inv.step (h : s.Inv count cap) (hstep : s.step count cap acap ref a = some s') :
    s'.Inv count cap := by
  cases a with
  | registry a =>
    simp only [ReaderSystem.step] at hstep
    split_ifs at hstep with hothers
    obtain ⟨g, hg, rfl⟩ := Option.map_eq_some_iff.mp hstep
    refine ⟨h.registry.step hg, fun r => ?_⟩
    have hr := h.clients r
    cases hx : s.clients r with
    | none => trivial
    | ring c =>
      rw [hx] at hr
      obtain ⟨pid, i, p, hlive, hc⟩ := hr
      exact ⟨pid, i, p, Registry.step_live hothers hg hlive, hc⟩
    | blob c =>
      rw [hx] at hr
      obtain ⟨pid, i, p, hlive, hc⟩ := hr
      exact ⟨pid, i, p, Registry.step_live hothers hg hlive, hc⟩
  | attachRing r multiProducer sparse lappedTotal =>
    simp only [ReaderSystem.step] at hstep
    split at hstep
    · next pid i cursor hnone hlive =>
      cases hstep
      exact h.setClient h.registry (fun _ _ => rfl) ⟨pid, i, cursor, hlive, rfl, fun _ => rfl⟩
    · cases hstep
  | attachBlob r sparse =>
    simp only [ReaderSystem.step] at hstep
    split at hstep
    · next pid i cursor hnone hlive =>
      cases hstep
      exact h.setClient h.registry (fun _ _ => rfl)
        ⟨pid, i, cursor, hlive, rfl, rfl, by rintro _ _ _ ⟨⟩⟩
    · cases hstep
  | drop r =>
    obtain ⟨g, hg, rfl⟩ := Option.map_eq_some_iff.mp hstep
    refine h.setClient (h.registry.step hg) (fun r' hne => ?_) trivial
    simp only [Registry.step] at hg
    split_ifs at hg
    obtain ⟨⟨x, regs⟩, -, rfl⟩ := Option.map_eq_some_iff.mp hg
    exact Function.update_of_ne hne _ _
  | ring r slots writeSeq a =>
    simp only [ReaderSystem.step] at hstep
    split at hstep
    · next c hc =>
      split_ifs at hstep with hacts
      obtain ⟨⟨c', stored⟩, hc', rfl⟩ := Option.map_eq_some_iff.mp hstep
      have hr := h.clients r
      rw [hc] at hr
      obtain ⟨pid, i, p, hlive, hreg, hsync⟩ := hr
      refine h.setClient (h.registry.store hacts) (fun _ hne => Registry.store_handles_of_ne hne)
        ⟨pid, i, _, Registry.store_handles hlive,
          (SeekingConsumer.step_registered hc').trans hreg, fun hs => ?_⟩
      obtain ⟨hcursor, rfl | ⟨rfl, hs'⟩⟩ := SeekingConsumer.step_synced hreg hc' hs
      · exact hcursor
      · exact hcursor.trans (hsync hs')
    · cases hstep
  | blob r a =>
    simp only [ReaderSystem.step] at hstep
    split at hstep
    · next c hc =>
      split_ifs at hstep with hacts
      obtain ⟨⟨c', stored⟩, hc', rfl⟩ := Option.map_eq_some_iff.mp hstep
      have hr := h.clients r
      rw [hc] at hr
      obtain ⟨pid, i, p, hlive, hreg⟩ := hr
      refine h.setClient (h.registry.store hacts) (fun _ hne => Registry.store_handles_of_ne hne)
        ⟨pid, i, _, Registry.store_handles hlive, ?_⟩
      obtain ⟨rfl, htracked⟩ | ⟨rfl, hkeeps, -⟩ := BlobClient.step_tracked hreg hc'
      · exact htracked.keeps
      · exact hkeeps
    · cases hstep

omit [DecidableEq ρ] [DecidableEq κ] [Inhabited ω] in
theorem init_inv (alive : ℕ → Bool) : (init ρ κ w ω alive).Inv count cap :=
  ⟨Registry.init_inv alive, fun _ => trivial⟩

omit [DecidableEq ρ] [DecidableEq κ] [Inhabited ω] in
/-- What is in order and stored is exact. -/
theorem Inv.exact (h : s.Inv count cap) (hstored : ∀ r, (s.clients r).Stored) : s.Exact := by
  intro r pid i p hlive halive hrests
  rw [(h.registry.live hlive halive).2]
  have hr := h.clients r
  have hst := hstored r
  cases hx : s.clients r with
  | none =>
    rw [hx] at hrests
    exact hrests.elim
  | ring c =>
    rw [hx] at hr hrests
    obtain ⟨pid', i', p', hlive', -, hsync⟩ := hr
    cases hlive.symm.trans hlive'
    have hidle : c.reader.synced = true := by simp only [RingConsumer.synced, hrests.1]
    rw [ReaderClient.cursor, hsync hidle]
  | blob c =>
    rw [hx] at hr hrests hst
    obtain ⟨pid', i', p', hlive', hreg⟩ := hr
    cases hlive.symm.trans hlive'
    rw [ReaderClient.cursor, ← hreg.distance, hst hrests, Nat.add_zero]

/-- A consumer is at rest with something to store only after a call that forgets it. -/
theorem stored_step (h : s.Inv count cap) (hstored : ∀ r, (s.clients r).Stored)
    (hgood : ¬ s.Forgets cap acap ref a) (hstep : s.step count cap acap ref a = some s') :
    ∀ r, (s'.clients r).Stored := by
  have hset {r : ρ} {g : Registry ρ κ} {x : ReaderClient w ω} (hx : x.Stored) (r' : ρ) :
      (({ s with registry := g }.setClient r x).clients r').Stored := by
    unfold ReaderSystem.setClient
    dsimp only
    rcases eq_or_ne r' r with rfl | hne
    · rw [Function.update_self]
      exact hx
    · rw [Function.update_of_ne hne]
      exact hstored r'
  cases a with
  | registry a =>
    simp only [ReaderSystem.step] at hstep
    split_ifs at hstep
    obtain ⟨g, -, rfl⟩ := Option.map_eq_some_iff.mp hstep
    exact hstored
  | attachRing r multiProducer sparse lappedTotal =>
    simp only [ReaderSystem.step] at hstep
    split at hstep <;> cases hstep
    exact hset trivial
  | attachBlob r sparse =>
    simp only [ReaderSystem.step] at hstep
    split at hstep <;> cases hstep
    exact hset fun _ => rfl
  | drop r =>
    obtain ⟨g, -, rfl⟩ := Option.map_eq_some_iff.mp hstep
    exact hset trivial
  | ring r slots writeSeq a =>
    simp only [ReaderSystem.step] at hstep
    split at hstep
    · split_ifs at hstep
      obtain ⟨x, -, rfl⟩ := Option.map_eq_some_iff.mp hstep
      exact hset trivial
    · cases hstep
  | blob r a =>
    simp only [ReaderSystem.step] at hstep
    split at hstep
    · next c hc =>
      split_ifs at hstep
      obtain ⟨⟨c', stored⟩, hc', rfl⟩ := Option.map_eq_some_iff.mp hstep
      have hr := h.clients r
      rw [hc] at hr
      obtain ⟨pid, i, p, -, hreg⟩ := hr
      refine hset fun hrests => ?_
      obtain ⟨-, htracked⟩ | ⟨-, -, -, hzero, -⟩ := BlobClient.step_tracked hreg hc'
      · by_cases hends : c.EndsEmpty cap acap ref a
        · rw [(htracked.ends hends).2]
          exact Nat.eq_zero_of_not_pos fun hpos => hgood ⟨c, hc, hends, hpos⟩
        · exact absurd hrests (htracked.goes hends)
      · exact hzero
    · cases hstep

/-- After a call that forgets its cursor the slot is behind. -/
theorem not_exact_step (h : s.Inv count cap) (hbad : s.Forgets cap acap ref a)
    (hstep : s.step count cap acap ref a = some s') : ¬ s'.Exact := by
  cases a with
  | registry | attachRing | attachBlob | drop | ring => exact hbad.elim
  | blob r a =>
    obtain ⟨c, hc, hends, hpos⟩ := hbad
    have hinv' := h.step hstep
    simp only [ReaderSystem.step, hc] at hstep
    split_ifs at hstep with hacts
    obtain ⟨⟨c', stored⟩, hc', rfl⟩ := Option.map_eq_some_iff.mp hstep
    have hr := h.clients r
    rw [hc] at hr
    obtain ⟨pid, i, p, hlive, hreg⟩ := hr
    obtain ⟨rfl, htracked⟩ | ⟨-, -, -, -, hno⟩ := BlobClient.step_tracked hreg hc'
    · obtain ⟨hrests, hunstored⟩ := htracked.ends hends
      have hclient : (({ s with registry := s.registry.store r none }.setClient r
          (.blob c')).clients r) = .blob c' := Function.update_self ..
      have halive : s.registry.alive pid = true := by
        unfold Registry.acts at hacts
        rw [hlive] at hacts
        exact hacts
      intro hexact
      have hslot := hexact r pid i p hlive halive (by rw [hclient]; exact hrests)
      rw [hclient, (hinv'.registry.live hlive halive).2] at hslot
      have hcursor : p = c'.cursor := congrArg ReaderSlot.cursorSeq hslot
      have hdistance := htracked.keeps.distance
      omega
    · exact absurd hends hno

/-- **When the registered cursor is exact.** In every run of the registry and its consumers, of
either kind and next to writers that do anything, the slot of every live consumer carries its
cursor between any two of its calls, exactly when no call of a blob consumer in the run has passed
messages and then ended without one. -/
theorem exact_iff (alive : ℕ → Bool) {as : List (ReaderLabel ρ κ w ω)}
    (hr : Transition.run (step count cap acap ref) (init ρ κ w ω alive) as = some s) :
    Transition.Always Exact (step count cap acap ref) (init ρ κ w ω alive) as ↔
      Transition.Avoids (Forgets cap acap ref) (step count cap acap ref) (init ρ κ w ω alive) as :=
  Transition.always_iff_avoids (P := Inv count cap) (G := fun s => ∀ r, (s.clients r).Stored)
    (fun h hstep => h.step hstep) (fun h hstored hgood hstep => stored_step h hstored hgood hstep)
    (fun h hbad hstep => not_exact_step h hbad hstep) (fun h hstored => h.exact hstored)
    (init_inv alive) (fun _ => trivial) hr

/-! ## A buffer that is too small -/

/-- A ring of two slots with an arena of four lines. -/
def twoSlots : BlobConfig := ⟨⟨2, isPowerOfTwo_two⟩, .fourLines⟩

/-- The memory of a channel nobody writes. -/
def quiet {μ : Type} (b : BlobRing μ UInt8) : BlobMemory 1 (BlobPacket μ) where
  slots i := ⟨(b.slots i).seq, fun _ => (b.slots i).data⟩
  writeSeq := b.writeSeq
  arena := b.arena

instance : Inhabited (BlobPacket Unit) := ⟨⟨(), .empty⟩⟩

/-- A consumer registers at message `1`, attaches, and calls `recv_status` with four bytes. -/
def callsSmall (m : BlobMemory 1 (BlobPacket Unit)) :
    List (ReaderLabel Unit Unit 1 (BlobPacket Unit)) :=
  .registry (.handle () (.register 1 1)) :: List.replicate 7 (.registry (.handle () .tick)) ++
    .attachBlob () false ::
    [.call (some 4), .tick, .tick, .tick, .word onlyWord, .tick, .tick].map fun a => .blob () ⟨m, a⟩

/-- Three blobs of eight bytes were pushed, so message `1` is gone. The call passes it and finds
message `2` too long; the registry slot still says `1`. -/
theorem callsSmall_run :
    ∃ (b : BlobRing Unit UInt8) (s : ReaderSystem Unit Unit 1 (BlobPacket Unit)),
      Transition.run (BlobRing.pushStep twoSlots) .create
        (List.replicate 3 ((), List.replicate 8 0)) = some b ∧
      Transition.run (step 1 twoSlots.cap twoSlots.arena fun p => (p 0).blobRef)
        (init Unit Unit 1 (BlobPacket Unit) fun _ => true) (callsSmall (quiet b)) = some s ∧
      (∃ c, s.clients () = .blob c ∧ c.Rests ∧
        c.returned = [.error (.bufferTooSmall 8 4)] ∧ c.cursor = 2) ∧
      s.registry.regs 0 = ⟨1, 1, 1⟩ ∧ ¬ s.Exact := by
  obtain ⟨b, s, c, hb, hs, hlive, halive, hc, hrests, hreturned, hcursor, hslot⟩ :
      ∃ (b : BlobRing Unit UInt8) (s : ReaderSystem Unit Unit 1 (BlobPacket Unit))
        (c : BlobClient 1 (BlobPacket Unit)),
        Transition.run (BlobRing.pushStep twoSlots) .create
          (List.replicate 3 ((), List.replicate 8 0)) = some b ∧
        Transition.run (step 1 twoSlots.cap twoSlots.arena fun p => (p 0).blobRef)
          (init Unit Unit 1 (BlobPacket Unit) fun _ => true) (callsSmall (quiet b)) = some s ∧
        s.registry.handles () = .live 1 0 1 ∧ s.registry.alive 1 = true ∧
        s.clients () = .blob c ∧ c.Rests ∧ c.returned = [.error (.bufferTooSmall 8 4)] ∧
        c.cursor = 2 ∧ s.registry.regs 0 = ⟨1, 1, 1⟩ :=
    ⟨_, _, _, rfl, rfl, rfl, rfl, rfl, ⟨rfl, rfl⟩, rfl, rfl, rfl⟩
  refine ⟨b, s, hb, hs, ⟨c, hc, hrests, hreturned, hcursor⟩, hslot, fun hexact => ?_⟩
  have h := hexact () 1 0 1 hlive halive (by rw [hc]; exact hrests)
  rw [hslot, hc, ReaderClient.cursor, hcursor] at h
  exact absurd (congrArg ReaderSlot.cursorSeq h) (by decide)

/-- **A cursor that is not stored.** The call returns `BufferTooSmall`, the consumer stands at
message `2`, and its registry slot says `1`. -/
theorem tooSmall_not_exact :
    ∃ (b : BlobRing Unit UInt8) (s : ReaderSystem Unit Unit 1 (BlobPacket Unit)),
      Transition.run (BlobRing.pushStep twoSlots) .create
        (List.replicate 3 ((), List.replicate 8 0)) = some b ∧
      Transition.run (step 1 twoSlots.cap twoSlots.arena fun p => (p 0).blobRef)
        (init Unit Unit 1 (BlobPacket Unit) fun _ => true) (callsSmall (quiet b)) = some s ∧
      (s.clients ()).cursor = 2 ∧ (s.registry.regs 0).cursorSeq = 1 ∧ ¬ s.Exact := by
  obtain ⟨b, s, hb, hs, ⟨c, hc, -, -, hcursor⟩, hslot, hexact⟩ := callsSmall_run
  exact ⟨b, s, hb, hs, by rw [hc]; exact hcursor, by rw [hslot], hexact⟩

/-- Some call of that run forgets its cursor. -/
theorem exact_iff_tooSmall :
    ∃ b : BlobRing Unit UInt8,
      Transition.run (BlobRing.pushStep twoSlots) .create
        (List.replicate 3 ((), List.replicate 8 0)) = some b ∧
      ¬ Transition.Avoids (Forgets twoSlots.cap twoSlots.arena fun p => (p 0).blobRef)
        (step 1 twoSlots.cap twoSlots.arena fun p => (p 0).blobRef)
        (init Unit Unit 1 (BlobPacket Unit) fun _ => true) (callsSmall (quiet b)) := by
  obtain ⟨b, s, hb, hs, -, -, hexact⟩ := callsSmall_run
  refine ⟨b, hb, fun havoids => hexact ?_⟩
  exact (exact_iff _ hs).mpr havoids _ [] s (List.append_nil _).symm hs

end ReaderSystem

end Ringfire
