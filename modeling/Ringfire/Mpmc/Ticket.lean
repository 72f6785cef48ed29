import Ringfire.Mpmc.System

/-!
# Reading a ticket

`MpmcQueueConsumer::read_ticket` of `mpmc.rs`, cut into its memory accesses, beside `read_slot`.
`read_ticket` is a public function, so a caller may ask for any ticket: a probe is a thread that
runs one of the two for a ticket of its choice, any number of times.

## Main definitions

* `TicketPc.step`: one memory access of `read_ticket`
* `ProbeSystem.step`: the multi-producer ring with any number of probes

## Main results

* `ProbeSystem.Inv.word_lt`: a slot never shows a word again
* `ProbeSystem.slots_owned_and_untorn`: slots have one owner at a time, their words only grow, and
  what is accepted for a ticket is what was pushed under it
-/

namespace Ringfire

variable {π ρ κ : Type} {w : ℕ} {ω : Type}

/-- Outcome of `read_ticket`. -/
inductive TicketRead (τ : Type) where
  | ready (data : τ)
  | notYet
  | lost
  deriving DecidableEq

/-- Where a thread inside `read_ticket` stands. -/
inductive TicketPc (w : ℕ) (ω : Type) where
  | load
  | copy (left : Finset (Fin w)) (buf : Payload w ω)
  | claim
  | done (r : TicketRead (Payload w ω))

namespace TicketPc

/-- One memory access of `read_ticket(ticket)`: `some i` copies payload word `i`, `none` is the
next load. -/
def step [Inhabited ω] (cap : Capacity) (m : MpmcShared w ω) (ticket : ℕ) :
    TicketPc w ω → Option (Fin w) → Option (TicketPc w ω)
  | .load, none =>
    if (m.slots (slotIndex cap ticket)).seq = ticket then
      some (.copy Finset.univ fun _ => default)
    else if (m.slots (slotIndex cap ticket)).seq ≠ slotWriting ∧
        ticket < (m.slots (slotIndex cap ticket)).seq then
      some (.done .lost)
    else some .claim
  | .copy left buf, some i =>
    if i ∈ left then
      some (.copy (left.erase i) (Function.update buf i ((m.slots (slotIndex cap ticket)).data i)))
    else none
  | .copy left buf, none =>
    if left = ∅ then
      if (m.slots (slotIndex cap ticket)).seq = ticket then some (.done (.ready buf))
      else some (.done .lost)
    else none
  -- producers a full lap past the ticket: its slot was reused, or its producer died
  | .claim, none =>
    if ticket + cap.val ≤ u64Max then
      if ticket + cap.val < m.claimSeq then some (.done .lost) else some (.done .notYet)
    else none
  | _, _ => none

/-- What holds of a thread inside `read_ticket(ticket)`. -/
def Sound (cap : Capacity) (m : MpmcShared w ω) (ticket : ℕ) : TicketPc w ω → Prop
  | .load | .claim => True
  | .copy left buf => VersionedCell.Tracks (m.top (slotIndex cap ticket)) ticket
      (m.slots (slotIndex cap ticket)).seq (m.slots (slotIndex cap ticket)).data buf left
  | .done r => (∀ d, r = .ready d → m.items ticket = some d) ∧
      (r = .lost → ticket + cap.val < m.claimSeq)

variable {cap : Capacity} {m m' : MpmcShared w ω} {ticket : ℕ} {rd rd' : TicketPc w ω}

theorem Sound.step [Inhabited ω] {a : Option (Fin w)} (h : rd.Sound cap m ticket)
    (htrue : (m.slots (slotIndex cap ticket)).seq = ticket →
      ticket ≤ m.top (slotIndex cap ticket) ∧
        m.items ticket = some (m.slots (slotIndex cap ticket)).data)
    (hlap : ticket ≤ m.top (slotIndex cap ticket) →
      (m.slots (slotIndex cap ticket)).seq ≠ ticket → ticket + cap.val < m.claimSeq)
    (hword : (m.slots (slotIndex cap ticket)).seq ≠ slotWriting →
      (m.slots (slotIndex cap ticket)).seq = m.top (slotIndex cap ticket))
    (hstep : rd.step cap m ticket a = some rd') : rd'.Sound cap m ticket := by
  unfold TicketPc.step at hstep
  split at hstep
  · split_ifs at hstep with heq hlate <;> cases hstep
    · have hs := VersionedCell.Tracks.start (m.slots (slotIndex cap ticket)).data
        (fun _ => default) (htrue heq).1
      unfold Sound
      rw [heq]
      exact hs
    -- a newer lap: the ticket was passed by a full ring
    · refine ⟨by rintro d ⟨⟩, fun _ => hlap ?_ heq⟩
      rw [← hword hlate.1]
      exact hlate.2.le
    · trivial
  · split_ifs at hstep
    cases hstep
    exact VersionedCell.Tracks.copy h _
  · split_ifs at hstep with hleft heq <;> cases hstep
    · subst hleft
      refine ⟨fun d hd => ?_, by rintro ⟨⟩⟩
      cases hd
      rw [VersionedCell.Tracks.eq_of_complete h heq]
      exact (htrue heq).2
    · exact ⟨by rintro d ⟨⟩, fun _ => hlap h.known heq⟩
  · split_ifs at hstep with hfits hlost <;> cases hstep
    · exact ⟨by rintro d ⟨⟩, fun _ => hlost⟩
    · exact ⟨by rintro d ⟨⟩, by rintro ⟨⟩⟩
  · cases hstep

/-- What a thread inside `read_ticket` knows survives the steps of the producers. -/
theorem Sound.evolves (h : rd.Sound cap m ticket) (hne : ticket ≠ slotWriting)
    (he : m.view.Evolves m'.view) (hclaim : m.claimSeq ≤ m'.claimSeq) :
    rd.Sound cap m' ticket := by
  cases rd with
  | load | claim => trivial
  | copy left buf => exact VersionedCell.Tracks.evolves h hne (he.top _) (he.slots _)
  | done r =>
    exact ⟨fun d hd => he.message ticket d (h.1 d hd), fun hr => (h.2 hr).trans_le hclaim⟩

end TicketPc

/-! ## Probes -/

/-- A thread that reads tickets of its choice. -/
inductive Probe (w : ℕ) (ω : Type) where
  | idle
  | slot (want : ℕ) (rd : ReadPc w ω)
  | ticket (want : ℕ) (rd : TicketPc w ω)

namespace Probe

/-- No call is under way. -/
def Rests : Probe w ω → Prop
  | idle | slot _ (.done _) | ticket _ (.done _) => True
  | _ => False

instance decidableRests : DecidablePred (Rests (w := w) (ω := ω))
  | idle | slot _ (.done _) | ticket _ (.done _) => .isTrue trivial
  | slot _ .load | slot _ (.copy _ _) => .isFalse id
  | ticket _ .load | ticket _ (.copy _ _) | ticket _ .claim => .isFalse id

/-- One memory access of the call under way. -/
def step [Inhabited ω] (cap : Capacity) (m : MpmcShared w ω) :
    Probe w ω → Option (Fin w) → Option (Probe w ω)
  | idle, _ => none
  | slot want rd, a => (rd.step (m.slots (slotIndex cap want)) want a).map (slot want)
  | ticket want rd, a => (rd.step cap m want a).map (ticket want)

/-- The call for `want` has returned the payload `d`. -/
def Accepts (want : ℕ) (d : Payload w ω) : Probe w ω → Prop
  | slot k (.done r) => k = want ∧ r = .item d
  | ticket k (.done r) => k = want ∧ r = .ready d
  | _ => False

/-- What holds of a probe. Ticket `0` was never handed out, and a slot nobody wrote yet shows it;
`u64::MAX` is the word of a slot in the middle of a write. -/
def Sound (cap : Capacity) (m : MpmcShared w ω) : Probe w ω → Prop
  | idle => True
  | slot want rd => 1 ≤ want → want ≠ slotWriting →
      rd.Sound m.items (m.top (slotIndex cap want)) (m.slots (slotIndex cap want)) want
  | ticket want rd => 1 ≤ want → want ≠ slotWriting → rd.Sound cap m want

end Probe

/-- The multi-producer ring and the threads that probe it. -/
structure ProbeSystem (π ρ κ : Type) (w : ℕ) (ω : Type) where
  ring : MpmcSystem π ρ w ω
  probes : κ → Probe w ω

/-- Who moves: a thread of the ring, a probe that calls `read_slot` or `read_ticket`, or a probe
in the middle of its call. -/
inductive ProbeLabel (π ρ κ : Type) (w : ℕ) (ω : Type) where
  | ring (a : MpmcSystemLabel π ρ w ω)
  | readSlot (k : κ) (want : ℕ)
  | readTicket (k : κ) (want : ℕ)
  | probe (k : κ) (a : Option (Fin w))

namespace ProbeSystem

section

variable [DecidableEq π] [DecidableEq ρ] [DecidableEq κ] [Inhabited ω]

/-- A freshly created ring and idle probes. -/
def create (π ρ κ : Type) (w : ℕ) : ProbeSystem π ρ κ w ω where
  ring := .create π ρ w
  probes := fun _ => .idle

/-- One memory access of one thread. -/
def step (cap : Capacity) (s : ProbeSystem π ρ κ w ω) :
    ProbeLabel π ρ κ w ω → Option (ProbeSystem π ρ κ w ω)
  | .ring a => (s.ring.step cap a).map fun ring => { s with ring := ring }
  -- a probe reads any sequence at any time, whoever else reads
  | .readSlot k want =>
    if (s.probes k).Rests ∧ want ≤ u64Max then
      some { s with probes := Function.update s.probes k (.slot want .load) }
    else none
  | .readTicket k want =>
    if (s.probes k).Rests ∧ want ≤ u64Max then
      some { s with probes := Function.update s.probes k (.ticket want .load) }
    else none
  | .probe k a =>
    ((s.probes k).step cap s.ring.mem a).map fun p =>
      { s with probes := Function.update s.probes k p }

end

/-- The ring's invariant, with an owner for every marked slot, and every probe's knowledge. -/
structure Inv (cap : Capacity) (s : ProbeSystem π ρ κ w ω) : Prop where
  ring : s.ring.Inv cap
  marked : s.ring.Marked cap
  probes : ∀ k, (s.probes k).Sound cap s.ring.mem

variable {cap : Capacity} {s s' s'' : ProbeSystem π ρ κ w ω}

end ProbeSystem

namespace MpmcSystem

variable {cap : Capacity} {s : MpmcSystem π ρ w ω}

/-- `read_ticket` keeps a thread's knowledge right. -/
theorem Inv.ticket_step [Inhabited ω] {ticket : ℕ} {rd rd' : TicketPc w ω} {a : Option (Fin w)}
    (h : s.Inv cap) (hmark : s.Marked cap) (hpos : 1 ≤ ticket) (hne : ticket ≠ slotWriting)
    (hrd : rd.Sound cap s.mem ticket) (hstep : rd.step cap s.mem ticket a = some rd') :
    rd'.Sound cap s.mem ticket :=
  hrd.step (fun heq => h.mem.truthful.slot hpos hne heq) (h.lapped hmark hpos)
    (fun hm => (h.mem.word _ hm).1) hstep

end MpmcSystem

namespace Probe

variable {cap : Capacity} {m m' : MpmcShared w ω} {p p' : Probe w ω}

theorem Sound.evolves (h : p.Sound cap m) (he : m.view.Evolves m'.view)
    (hclaim : m.claimSeq ≤ m'.claimSeq) : p.Sound cap m' := by
  cases p with
  | idle => trivial
  | slot want rd =>
    exact fun hpos hne => (h hpos hne).evolves hne (he.top _) (he.message _) (he.slots _)
  | ticket want rd => exact fun hpos hne => (h hpos hne).evolves hne he hclaim

theorem Sound.step [Inhabited ω] {s : MpmcSystem π ρ w ω} {a : Option (Fin w)} (hs : s.Inv cap)
    (hmark : s.Marked cap) (h : p.Sound cap s.mem) (hstep : p.step cap s.mem a = some p') :
    p'.Sound cap s.mem := by
  cases p with
  | idle => cases hstep
  | slot want rd =>
    obtain ⟨rd', hrd, rfl⟩ := Option.map_eq_some_iff.mp hstep
    intro hpos hne
    exact (h hpos hne).step (fun heq => hs.mem.truthful.slot hpos hne heq) hrd
  | ticket want rd =>
    obtain ⟨rd', hrd, rfl⟩ := Option.map_eq_some_iff.mp hstep
    exact fun hpos hne => hs.ticket_step hmark hpos hne (h hpos hne) hrd

/-- An accepted payload is the one pushed under the ticket. -/
theorem Sound.accepts {want : ℕ} {d : Payload w ω} (h : p.Sound cap m) (hpos : 1 ≤ want)
    (hne : want ≠ slotWriting) (ha : p.Accepts want d) : m.items want = some d := by
  unfold Accepts at ha
  split at ha
  · obtain ⟨rfl, rfl⟩ := ha
    exact h hpos hne d rfl
  · obtain ⟨rfl, rfl⟩ := ha
    exact (h hpos hne).1 d rfl
  · exact ha.elim

end Probe

namespace ProbeSystem

variable [DecidableEq π] [DecidableEq ρ] [DecidableEq κ] [Inhabited ω]
variable {cap : Capacity} {s t u : ProbeSystem π ρ κ w ω}

omit [DecidableEq π] [DecidableEq ρ] [DecidableEq κ] in
theorem Inv.create (π ρ κ : Type) (w : ℕ) : (create (ω := ω) π ρ κ w).Inv cap :=
  ⟨.create π ρ w, .create π ρ w, fun _ => trivial⟩

omit [DecidableEq π] [DecidableEq ρ] [Inhabited ω] in
/-- A probe that moved keeps the invariant if its knowledge is right. -/
theorem Inv.update {k : κ} {p : Probe w ω} (h : s.Inv cap) (hp : p.Sound cap s.ring.mem) :
    Inv cap { s with probes := Function.update s.probes k p } := by
  refine ⟨h.ring, h.marked, fun j => ?_⟩
  by_cases hj : j = k
  · subst hj
    simp only [Function.update_self]
    exact hp
  · simp only [Function.update_of_ne hj]
    exact h.probes j

theorem Inv.step {a : ProbeLabel π ρ κ w ω} (h : s.Inv cap) (hstep : s.step cap a = some t) :
    t.Inv cap := by
  cases a with
  | ring a =>
    obtain ⟨ring, hring, rfl⟩ := Option.map_eq_some_iff.mp hstep
    obtain ⟨he, hclaim⟩ := h.ring.evolves hring
    exact ⟨h.ring.step hring, h.marked.step h.ring hring, fun k => (h.probes k).evolves he hclaim⟩
  | readSlot k want =>
    simp only [ProbeSystem.step] at hstep
    split_ifs at hstep
    cases hstep
    exact h.update fun _ _ => trivial
  | readTicket k want =>
    simp only [ProbeSystem.step] at hstep
    split_ifs at hstep
    cases hstep
    exact h.update fun _ _ => trivial
  | probe k a =>
    obtain ⟨p, hp, rfl⟩ := Option.map_eq_some_iff.mp hstep
    exact h.update (Probe.Sound.step h.ring h.marked (h.probes k) hp)

/-- Over a whole run the slots evolve as over one step. -/
theorem Inv.evolves (h : s.Inv cap) (hr : Transition.Reaches (ProbeSystem.step cap) s t) :
    t.Inv cap ∧ s.ring.mem.view.Evolves t.ring.mem.view := by
  refine hr.invariant (P := fun t => t.Inv cap ∧ s.ring.mem.view.Evolves t.ring.mem.view) ?_
    ⟨h, .refl _⟩
  intro u a u' ⟨hu, he⟩ hstep
  refine ⟨hu.step hstep, ?_⟩
  cases a with
  | ring a =>
    obtain ⟨ring, hring, rfl⟩ := Option.map_eq_some_iff.mp hstep
    exact he.trans (hu.ring.evolves hring).1
  | readSlot k want =>
    simp only [ProbeSystem.step] at hstep
    split_ifs at hstep
    cases hstep
    exact he
  | readTicket k want =>
    simp only [ProbeSystem.step] at hstep
    split_ifs at hstep
    cases hstep
    exact he
  | probe k a =>
    obtain ⟨p, hp, rfl⟩ := Option.map_eq_some_iff.mp hstep
    exact he

omit [DecidableEq π] [DecidableEq ρ] [DecidableEq κ] [Inhabited ω] in
/-- A slot word that changed is never seen again: what the slot shows later is larger. -/
theorem Inv.word_lt (hs : s.Inv cap) (ht : t.Inv cap) (hu : u.Inv cap)
    (hst : s.ring.mem.view.Evolves t.ring.mem.view) (htu : t.ring.mem.view.Evolves u.ring.mem.view)
    {i : ℕ} (hi : (s.ring.mem.slots i).seq ≠ slotWriting)
    (hchange : (t.ring.mem.slots i).seq ≠ (s.ring.mem.slots i).seq)
    (hi' : (u.ring.mem.slots i).seq ≠ slotWriting) :
    (s.ring.mem.slots i).seq < (u.ring.mem.slots i).seq := by
  rw [(hs.ring.mem.word i hi).1]
  by_cases hm : (t.ring.mem.slots i).seq = slotWriting
  · -- the slot was marked in between, so the next ticket is above the largest one so far
    rcases htu.slots i hi' with ⟨hsame, -⟩ | hlt
    · exact absurd (hsame.trans hm) hi'
    · exact (hst.top i).trans_lt hlt
  · rcases hst.slots i hm with ⟨hsame, -⟩ | hlt
    · exact absurd hsame hchange
    · rw [(hu.ring.mem.word i hi').1]
      change s.ring.mem.top i < (t.ring.mem.slots i).seq at hlt
      rw [(ht.ring.mem.word i hm).1] at hlt
      exact hlt.trans_le (htu.top i)

/-- **Slots have one owner at a time, and a ticket is read as it was pushed.** In every reachable
state at most one producer is between its compare-and-swap and its ticket store on a slot; the
non-marker words a slot shows one after the other are strictly increasing; and a payload accepted
by `read_ticket` or `read_slot` for a ticket from `1` on is the one pushed under that ticket. -/
theorem slots_owned_and_untorn
    (h : Transition.Reaches (ProbeSystem.step cap) (ProbeSystem.create π ρ κ w) s) :
    (∀ p q i, (s.ring.producers p).owns cap = some i → (s.ring.producers q).owns cap = some i →
      p = q) ∧
    (∀ t u i, Transition.Reaches (ProbeSystem.step cap) s t →
      Transition.Reaches (ProbeSystem.step cap) t u →
      (s.ring.mem.slots i).seq ≠ slotWriting →
      (t.ring.mem.slots i).seq ≠ (s.ring.mem.slots i).seq →
      (u.ring.mem.slots i).seq ≠ slotWriting →
      (s.ring.mem.slots i).seq < (u.ring.mem.slots i).seq) ∧
    (∀ k want d, 1 ≤ want → want < u64Max → (s.probes k).Accepts want d →
      s.ring.mem.items want = some d) := by
  have hs : s.Inv cap := h.invariant (fun hs hstep => hs.step hstep) (Inv.create π ρ κ w)
  refine ⟨fun p q i hp hq => ?_, fun t u i hst htu hi hchange hi' => ?_,
    fun k want d hpos hlt ha => ?_⟩
  · by_contra hne
    exact (hs.ring.apart p q hne).owns i hp hq
  · obtain ⟨ht, het⟩ := hs.evolves hst
    obtain ⟨hu, heu⟩ := ht.evolves htu
    exact hs.word_lt ht hu het heu hi hchange hi'
  · exact (hs.probes k).accepts hpos hlt.ne ha

end ProbeSystem

section Runs

/-- A ring of two slots. -/
private def two : Capacity := ⟨2, isPowerOfTwo_two⟩

/-- A producer pushes one message, and a probe reads its ticket. -/
private def pushAndProbe : List (ProbeLabel (Fin 2) Empty Unit 1 UInt8) :=
  [.ring (.producer firstOfTwo (.push fun _ => 7)), .ring (.producer firstOfTwo (.tick false)),
    .ring (.producer firstOfTwo (.tick false)), .ring (.producer firstOfTwo (.word onlyWord)),
    .ring (.producer firstOfTwo (.tick false)), .ring (.producer firstOfTwo (.tick false)),
    .readTicket () 1, .probe () none, .probe () (some onlyWord), .probe () none]

theorem slots_owned_and_untorn_two : ∃ s : ProbeSystem (Fin 2) Empty Unit 1 UInt8,
    Transition.Reaches (ProbeSystem.step two) (ProbeSystem.create _ _ _ _) s ∧
    (s.probes ()).Accepts 1 (fun _ => 7) ∧ s.ring.mem.items 1 = some fun _ => 7 := by
  obtain ⟨s, hs⟩ : ∃ s, Transition.run (ProbeSystem.step two) (ProbeSystem.create _ _ _ _)
    pushAndProbe = some s := ⟨_, rfl⟩
  have haccept : (s.probes ()).Accepts 1 fun _ => 7 := by
    cases hs
    refine ⟨rfl, congrArg TicketRead.ready (funext fun i => ?_)⟩
    rw [Subsingleton.elim i 0]
    rfl
  refine ⟨s, ⟨_, hs⟩, haccept, ?_⟩
  exact (ProbeSystem.slots_owned_and_untorn ⟨_, hs⟩).2.2 () 1 _ (le_refl 1) (by decide) haccept

/-- A probe reads ticket `0`. -/
private def probeZero : List (ProbeLabel (Fin 2) Empty Unit 1 UInt8) :=
  [.readTicket () 0, .probe () none, .probe () (some onlyWord), .probe () none]

/-- Ticket `0` is accepted on a fresh ring, where nothing was pushed: an unwritten slot shows it. -/
theorem ticket_zero_accepted : ∃ s : ProbeSystem (Fin 2) Empty Unit 1 UInt8,
    Transition.Reaches (ProbeSystem.step two) (ProbeSystem.create _ _ _ _) s ∧
    (∃ d, (s.probes ()).Accepts 0 d) ∧ 0 < u64Max ∧ s.ring.mem.items 0 = none := by
  obtain ⟨s, hs⟩ : ∃ s, Transition.run (ProbeSystem.step two) (ProbeSystem.create _ _ _ _)
    probeZero = some s := ⟨_, rfl⟩
  refine ⟨s, ⟨_, hs⟩, ?_, by decide, ?_⟩
  · cases hs
    exact ⟨_, rfl, rfl⟩
  · cases hs
    rfl

end Runs

end Ringfire
