import Ringfire.Replication.Mirror

/-!
# Recovery from lost datagrams

A mirror in UDP mode that keeps records aside has a hole in front of them, and only a `NAK` fills
it: with records aside and no `NAK` outstanding it would wait for ever. The `NAK` is sent, replaced
and dropped on other paths than those on which records are kept aside and written, so here is what
holds between the calls, whatever frames come in. Sequences are below `2 ^ 63`, so that no sum of
the source overflows.

## Main definitions

* `MirrorCall`: the entry points, `after_advance` among them
* `Mirror.Recovering`: what holds between two calls

## Main results

* `mirror_recovers`: it holds after every call that succeeds, and the write position never falls
-/

namespace Ringfire

variable {w : ℕ}

/-- A call: one that handles what comes in, or `after_advance`, which is public. -/
inductive MirrorCall where
  | receive (a : MirrorInput)
  | advance

/-- A request for at least one sequence and for at most `NAK_MAX`. -/
structure Nak.Sized (n : Nak) : Prop where
  nonempty : n.first ≤ n.last
  short : n.last + 1 - n.first ≤ nakMax

namespace Mirror

/-- What a call returns. -/
def call (g : Geometry w) (session : UInt8) (env : Env) (m : Mirror w) :
    MirrorCall → Option (Except RingfireError Unit × Mirror w)
  | .receive a => m.receive g session env a
  | .advance => m.afterAdvance g env m.pending

/-- A call that returns `Ok`. -/
def succeed (g : Geometry w) (session : UInt8) (m : Mirror w) (c : Env × MirrorCall) :
    Option (Mirror w) :=
  match m.call g session c.1 c.2 with
  | some (.ok _, m') => some m'
  | _ => none

/-- What holds at every turn of the loop of `after_advance`. -/
structure Tidy (m : Mirror w) : Prop where
  sorted : OrderedMap.Sorted m.pending
  few : m.pending.length ≤ pendingMax
  /-- A request sent, also one that was replaced since. -/
  sent : ∀ n ∈ m.requested, n.first ≤ m.ring.nextSeq ∧ n.Sized
  outstanding : ∀ n, m.nak = some n → n ∈ m.requested

/-- What holds between two calls: the records kept aside are ahead of the write position, and there
is a `NAK` for the hole in front of them. -/
structure Recovering (m : Mirror w) : Prop extends m.Tidy where
  ahead : ∀ x ∈ m.pending, m.ring.nextSeq < x.1
  asked : m.pending ≠ [] → ∃ n, m.nak = some n ∧ n.first ≤ m.ring.nextSeq ∧ m.ring.nextSeq ≤ n.last

variable {g : Geometry w} {session : UInt8} {env : Env} {m m' : Mirror w} {u : Unit}

/-! ## Requests -/

theorem Tidy.sendNak (h : m.Tidy) {n : Nak} (hle : n.first ≤ m.ring.nextSeq) (hn : n.Sized)
    (hsend : m.sendNak env n = (.ok u, m')) : m'.Tidy ∧ m.Same m' ∧ m'.nak = some n := by
  unfold Mirror.sendNak at hsend
  split_ifs at hsend
  · cases hsend
    refine ⟨⟨h.sorted, h.few, fun x hx => ?_, ?_⟩, ⟨rfl, rfl⟩, rfl⟩
    · rcases List.mem_append.mp hx with hx | hx
      · exact h.sent x hx
      · rw [List.mem_singleton.mp hx]
        exact ⟨hle, hn⟩
    · rintro _ ⟨⟩
      exact List.mem_append_right _ List.mem_cons_self
  · cases hsend

/-- A request from the write position on leaves a `NAK` outstanding that covers the write
position. -/
theorem Tidy.request (h : m.Tidy) {last : ℕ} (hlast : m.ring.nextSeq ≤ last)
    (hreq : m.request env m.ring.nextSeq last = (.ok u, m')) :
    m'.Tidy ∧ m.Same m' ∧
      ∃ n, m'.nak = some n ∧ n.first ≤ m'.ring.nextSeq ∧ m'.ring.nextSeq ≤ n.last := by
  have hcut : m.ring.nextSeq ≤ min last (m.ring.nextSeq + nakMax - 1) := by
    unfold nakMax
    omega
  have hsized : Nak.Sized ⟨m.ring.nextSeq, min last (m.ring.nextSeq + nakMax - 1)⟩ := by
    refine ⟨hcut, ?_⟩
    simp only [nakMax]
    omega
  have hnew (hsend : m.sendNak env ⟨m.ring.nextSeq, min last (m.ring.nextSeq + nakMax - 1)⟩ =
      (.ok u, m')) : m'.Tidy ∧ m.Same m' ∧
        ∃ n, m'.nak = some n ∧ n.first ≤ m'.ring.nextSeq ∧ m'.ring.nextSeq ≤ n.last := by
    obtain ⟨htidy, hsame, hnak⟩ := h.sendNak (le_refl _) hsized hsend
    refine ⟨htidy, hsame, _, hnak, ?_, ?_⟩
    · rw [hsame.ring]
    · rw [hsame.ring]
      exact hcut
  unfold Mirror.request at hreq
  simp only at hreq
  split at hreq
  · next n hnak =>
    split_ifs at hreq with hcovered
    · -- the outstanding request covers this one
      cases hreq
      exact ⟨h, ⟨rfl, rfl⟩, n, hnak, hcovered.1.le, hcut.trans hcovered.2.1⟩
    · exact hnew hreq
  · exact hnew hreq

theorem Tidy.clearNak (h : m.Tidy) : m.clearNak.Tidy := by
  unfold Mirror.clearNak
  split
  · split_ifs
    · exact ⟨h.sorted, h.few, h.sent, by rintro _ ⟨⟩⟩
    · exact h
  · exact h

/-- Records that are kept aside while a `NAK` is sent for what is in front of them. -/
theorem Tidy.recovering (h : m.Tidy) (hahead : ∀ x ∈ m.pending, m.ring.nextSeq < x.1) {last : ℕ}
    (hlast : m.ring.nextSeq ≤ last)
    (hreq : m.request env m.ring.nextSeq last = (.ok u, m')) :
    m'.Recovering ∧ m'.ring = m.ring := by
  obtain ⟨htidy, hsame, hnak⟩ := h.request hlast hreq
  refine ⟨⟨htidy, ?_, fun _ => hnak⟩, hsame.ring⟩
  rw [hsame.ring, hsame.pending]
  exact hahead

end Mirror

/-! ## Writing records, whatever their bytes are -/

section WriteRecords

variable {g : Geometry w} {ring ring' : MirrorRing w} {next s : ℕ}

/-- A turn of the loop that succeeds leaves the write position behind record `s`. -/
theorem writeRecord_nextSeq {rest rest' : List UInt8} (h : ring.nextSeq = max next s)
    (hw : writeRecord g next s rest ring = some (.ok rest', ring')) :
    ring'.nextSeq = max next (s + 1) := by
  unfold writeRecord at hw
  by_cases hshort : rest.length < w
  · rw [if_pos hshort] at hw
    cases hw
  · rw [if_neg hshort] at hw
    split at hw
    · next acap hacap =>
      simp only at hw
      split_ifs at hw with hblobs hnext
      · cases hw
      · -- the record goes to the arena
        obtain ⟨⟨res, ring₁⟩, hblob, heq⟩ := Option.map_eq_some_iff.mp hw
        unfold MirrorRing.writeBlob at hblob
        split at hblob
        · cases hblob
        · cases hblob
          cases heq
        · cases hblob
          cases heq
          simp only
          omega
      · cases hw
        omega
    · split_ifs at hw with hnext
      · cases hw
        simp only [MirrorRing.write]
        omega
      · cases hw
        omega

theorem writeLoop_nextSeq : ∀ (count : ℕ) {s : ℕ} {rest rest' : List UInt8} {ring : MirrorRing w},
    ring.nextSeq = max next s → writeLoop g next count s rest ring = some (.ok rest', ring') →
    ring'.nextSeq = max next (s + count) := by
  intro count
  induction count with
  | zero =>
    intro s rest rest' ring h hw
    cases hw
    exact h
  | succ count ih =>
    intro s rest rest' ring h hw
    rw [writeLoop] at hw
    split at hw
    · cases hw
    · cases hw
    · next rest₁ ring₁ hone =>
      rw [ih (writeRecord_nextSeq h hone) hw, Nat.add_right_comm, Nat.add_assoc]

/-- `write_records`, when it succeeds, leaves the write position behind the records. -/
theorem MirrorRing.writeRecords_nextSeq {seq count : ℕ} {bytes : List UInt8} {u : Unit}
    (hseq : seq ≤ ring.nextSeq)
    (hw : ring.writeRecords g seq count bytes = some (.ok u, ring')) :
    ring'.nextSeq = max ring.nextSeq (seq + count) := by
  unfold MirrorRing.writeRecords at hw
  split at hw
  · cases hw
  · cases hw
  · next ring₁ hloop =>
    have hnext := writeLoop_nextSeq count (max_eq_left hseq).symm hloop
    cases hw
    exact hnext
  · cases hw

end WriteRecords

namespace Mirror

variable {g : Geometry w} {session : UInt8} {env : Env} {m m' : Mirror w} {u : Unit}

theorem Tidy.writeRecords (h : m.Tidy) {seq count : ℕ} {bytes : List UInt8}
    (hseq : seq ≤ m.ring.nextSeq) (hw : m.writeRecords g seq count bytes = some (.ok u, m')) :
    m'.Tidy ∧ m'.pending = m.pending ∧ m.ring.nextSeq ≤ m'.ring.nextSeq := by
  obtain ⟨⟨res, ring⟩, hring, heq⟩ := Option.map_eq_some_iff.mp hw
  cases res with
  | error e => cases heq
  | ok v =>
    cases heq
    have hle : m.ring.nextSeq ≤ ring.nextSeq := by
      rw [MirrorRing.writeRecords_nextSeq hseq hring]
      exact le_max_left _ _
    refine ⟨⟨h.sorted, h.few, fun n hn => ?_, h.outstanding⟩, rfl, hle⟩
    exact ⟨(h.sent n hn).1.trans hle, (h.sent n hn).2⟩

theorem Tidy.tail (h : m.Tidy) {x : Held} {rest : List Held} (hp : m.pending = x :: rest) :
    Tidy { m with pending := rest } := by
  have hsorted := h.sorted
  have hfew := h.few
  rw [hp] at hsorted hfew
  exact ⟨(List.pairwise_cons.mp hsorted).2, (Nat.le_succ _).trans hfew, h.sent, h.outstanding⟩

/-- A turn of the loop of `after_advance` ends the call with the first entry ahead, or takes the
first entry out. -/
theorem Tidy.advanceOne (h : m.Tidy) {x : Held} {rest : List Held} (hp : m.pending = x :: rest)
    {t : Turned w} (hone : m.advanceOne g env x rest = some t) :
    (∀ m', t = .stop (.ok u) m' → m'.Recovering ∧ m.ring.nextSeq ≤ m'.ring.nextSeq) ∧
      ∀ m', t = .goOn m' → m'.Tidy ∧ m'.pending = rest ∧ m.ring.nextSeq ≤ m'.ring.nextSeq := by
  obtain ⟨hring, hpending⟩ := clearNak_same m
  have h₀ := h.clearNak
  unfold Mirror.advanceOne at hone
  generalize m.clearNak = m₀ at hring hpending h₀ hone
  have hp₀ : m₀.pending = x :: rest := hpending.trans hp
  rw [← hring]
  simp only at hone
  split_ifs at hone with hpast hahead
  · -- the records of the entry are all written already
    cases hone
    refine ⟨by rintro _ ⟨⟩, ?_⟩
    rintro _ ⟨⟩
    exact ⟨h₀.tail hp₀, rfl, le_refl _⟩
  · cases hone
    refine ⟨fun m' ht => ?_, by rintro _ ⟨⟩⟩
    obtain ⟨hres, hm'⟩ := Turned.stop.inj ht
    rw [← hp₀] at hres hm'
    -- the first entry is ahead, and the entries are in order
    have hall : ∀ y ∈ m₀.pending, m₀.ring.nextSeq < y.1 := by
      have hsorted := h₀.sorted
      rw [hp₀] at hsorted ⊢
      intro y hy
      rcases List.mem_cons.mp hy with rfl | hy
      · exact hahead
      · exact hahead.trans ((List.pairwise_cons.mp hsorted).1 y hy)
    obtain ⟨hrec, heq⟩ := h₀.recovering hall (Nat.le_sub_one_of_lt hahead)
      (Prod.ext hres hm')
    rw [heq]
    exact ⟨hrec, le_refl _⟩
  · -- the entry starts at the write position or before it, and is written
    obtain ⟨⟨res, m₁⟩, hwr, heq⟩ := Option.map_eq_some_iff.mp hone
    cases res with
    | error e =>
      cases heq
      exact ⟨by rintro _ ⟨⟩, by rintro _ ⟨⟩⟩
    | ok v =>
      cases heq
      refine ⟨by rintro _ ⟨⟩, ?_⟩
      rintro _ ⟨⟩
      exact (h₀.tail hp₀).writeRecords (Nat.not_lt.mp hahead) hwr

/-- `after_advance` ends with every entry that is left ahead of the write position. -/
theorem Tidy.afterAdvance : ∀ (entries : List Held) {m m' : Mirror w}, m.Tidy →
    m.pending = entries → m.afterAdvance g env entries = some (.ok u, m') →
    m'.Recovering ∧ m.ring.nextSeq ≤ m'.ring.nextSeq := by
  -- by induction on the entries that are left, as the loop takes them out one by one
  intro entries
  induction entries with
  | nil =>
    intro m m' h hp haa
    cases haa
    obtain ⟨hring, hpending⟩ := clearNak_same m
    rw [hp] at hpending
    refine ⟨⟨h.clearNak, ?_, fun hne => absurd hpending hne⟩, by rw [hring]⟩
    rw [hpending]
    rintro _ ⟨⟩
  | cons x rest ih =>
    intro m m' h hp haa
    rw [Mirror.afterAdvance] at haa
    split at haa
    · cases haa
    · next res m₁ hone =>
      cases haa
      exact (h.advanceOne hp hone).1 m' rfl
    · next m₁ hone =>
      obtain ⟨h₁, hp₁, hle⟩ := (h.advanceOne (u := u) hp hone).2 m₁ rfl
      obtain ⟨hrec, hle'⟩ := ih h₁ hp₁ haa
      exact ⟨hrec, hle.trans hle'⟩

theorem Tidy.hold (h : m.Tidy) (seq count : ℕ) (payload : List UInt8) :
    (m.hold seq count payload).Tidy := by
  unfold Mirror.hold
  split_ifs with hroom
  · have hlen := OrderedMap.length_insertNew_le seq (count, payload) m.pending
    exact ⟨h.sorted.insertNew, hlen.trans hroom, h.sent, h.outstanding⟩
  · exact h

theorem hold_ring (m : Mirror w) (seq count : ℕ) (payload : List UInt8) :
    (m.hold seq count payload).ring = m.ring := by
  unfold Mirror.hold
  split_ifs <;> rfl

/-- Records kept aside are ahead if those there were and the new ones are. -/
theorem hold_ahead {next seq : ℕ} (h : ∀ x ∈ m.pending, next < x.1) (hseq : next < seq) (count : ℕ)
    (payload : List UInt8) : ∀ x ∈ (m.hold seq count payload).pending, next < x.1 := by
  unfold Mirror.hold
  split_ifs
  · intro x hx
    rcases OrderedMap.mem_insertNew hx with rfl | hx
    · exact hseq
    · exact h x hx
  · exact h

/-! ## Calls -/

theorem Recovering.apply (h : m.Recovering) {seq count : ℕ} {payload : List UInt8}
    (ha : m.apply g env seq count payload = some (.ok u, m')) :
    m'.Recovering ∧ m.ring.nextSeq ≤ m'.ring.nextSeq := by
  unfold Mirror.apply at ha
  split_ifs at ha with hpast hahead
  · cases ha
    exact ⟨h, le_refl _⟩
  · -- records ahead of the write position are kept aside, and what is in front of them asked for
    have hring := m.hold_ring seq count payload
    have hreq := Option.some_injective _ ha
    rw [← hring] at hreq
    obtain ⟨hrec, heq⟩ := (h.toTidy.hold seq count payload).recovering
      (by rw [hring]; exact hold_ahead h.ahead hahead count payload)
      (by rw [hring]; exact Nat.le_sub_one_of_lt hahead) hreq
    rw [heq, hring]
    exact ⟨hrec, le_refl _⟩
  · split at ha
    · cases ha
    · cases ha
    · next v m₁ hwr =>
      -- what was written may have closed the hole
      obtain ⟨h₁, -, hle⟩ := h.toTidy.writeRecords (Nat.not_lt.mp hahead) hwr
      obtain ⟨hrec, hle'⟩ := h₁.afterAdvance _ rfl ha
      exact ⟨hrec, hle.trans hle'⟩

theorem Recovering.onSourceSeq (h : m.Recovering) {seq : ℕ}
    (ho : m.onSourceSeq env seq = (.ok u, m')) :
    m'.Recovering ∧ m.ring.nextSeq ≤ m'.ring.nextSeq := by
  have h' : Recovering { m with sourceSeq := max m.sourceSeq seq } :=
    ⟨⟨h.sorted, h.few, h.sent, h.outstanding⟩, h.ahead, h.asked⟩
  unfold Mirror.onSourceSeq at ho
  simp only at ho
  split_ifs at ho with hle
  · obtain ⟨hrec, heq⟩ := h'.toTidy.recovering h'.ahead hle ho
    rw [heq]
    exact ⟨hrec, le_refl _⟩
  · cases ho
    exact ⟨h', le_refl _⟩

theorem Recovering.handleDatagram (h : m.Recovering) {bytes : List UInt8}
    (hd : m.handleDatagram g session env bytes = some (.ok u, m')) :
    m'.Recovering ∧ m.ring.nextSeq ≤ m'.ring.nextSeq := by
  unfold Mirror.handleDatagram at hd
  simp only at hd
  split_ifs at hd
  · cases hd
    exact ⟨h, le_refl _⟩
  · cases hd
    exact ⟨h, le_refl _⟩
  · cases hd
    exact ⟨h, le_refl _⟩
  · exact h.apply hd
  · exact h.onSourceSeq (Option.some_injective _ hd)
  · cases hd
    exact ⟨h, le_refl _⟩

theorem Recovering.handleControl (h : m.Recovering) {f : Frame} {body : List UInt8}
    (hc : m.handleControl g env f body = some (.ok u, m')) :
    m'.Recovering ∧ m.ring.nextSeq ≤ m'.ring.nextSeq := by
  unfold Mirror.handleControl at hc
  simp only at hc
  split_ifs at hc with hdata hsizes hgap hlt hbeat hmulticast
  · exact h.apply hc
  · cases hc
  · -- the jump keeps everything but the write position
    have hle := (m.ring.le_skipTo f.seq).1
    have hskip : Tidy { m with gaps := m.gaps + 1, ring := m.ring.skipTo f.seq } :=
      ⟨h.sorted, h.few, fun n hn => ⟨(h.sent n hn).1.trans hle, (h.sent n hn).2⟩, h.outstanding⟩
    obtain ⟨hrec, hle'⟩ := hskip.afterAdvance _ rfl hc
    exact ⟨hrec, hle.trans hle'⟩
  · cases hc
    exact ⟨h, le_refl _⟩
  · exact h.onSourceSeq (Option.some_injective _ hc)
  · cases hc
    exact ⟨h, le_refl _⟩
  · cases hc

/-- Every call that succeeds keeps what holds between calls, and the write position never falls. -/
theorem Recovering.succeed (h : m.Recovering) {c : Env × MirrorCall}
    (hs : m.succeed g session c = some m') :
    m'.Recovering ∧ m.ring.nextSeq ≤ m'.ring.nextSeq := by
  obtain ⟨env, c⟩ := c
  unfold Mirror.succeed at hs
  split at hs
  · next v m₁ hcall =>
    cases hs
    cases c with
    | advance => exact h.toTidy.afterAdvance _ rfl hcall
    | receive a =>
      cases a with
      | datagram bytes => exact h.handleDatagram hcall
      | control f body => exact h.handleControl hcall
      | timeout =>
        simp only [Mirror.call, Mirror.receive] at hcall
        split at hcall
        · next n hnak =>
          -- the outstanding request was sent before, so it is still a good one
          obtain ⟨hle, hsized⟩ := h.sent n (h.outstanding n hnak)
          obtain ⟨htidy, hsame, hnak'⟩ :=
            h.toTidy.sendNak hle hsized (Option.some_injective _ hcall)
          refine ⟨⟨htidy, ?_, ?_⟩, by rw [hsame.ring]⟩
          · rw [hsame.ring, hsame.pending]
            exact h.ahead
          · rw [hsame.ring, hsame.pending, hnak', ← hnak]
            exact h.asked
        · cases hcall
          exact ⟨h, le_refl _⟩
  · cases hs

/-- A mirror as `connect` leaves it: nothing is kept aside and nothing was asked for. -/
structure Quiet (m : Mirror w) : Prop where
  pending : m.pending = []
  nak : m.nak = none
  requested : m.requested = []

theorem Quiet.recovering (h : m.Quiet) : m.Recovering := by
  refine ⟨⟨?_, ?_, ?_, ?_⟩, ?_, fun hne => absurd h.pending hne⟩
  · rw [h.pending]
    exact .nil
  · rw [h.pending]
    exact Nat.zero_le _
  · rw [h.requested]
    rintro _ ⟨⟩
  · rw [h.nak]
    rintro _ ⟨⟩
  · rw [h.pending]
    rintro _ ⟨⟩

end Mirror

/-- **A mirror that keeps records aside has asked for what is in front of them.** Whatever frames
and datagrams come in, well-formed or not and in any order, as long as every call returns `Ok`:
after each of them the records kept aside are ahead of the write position and no more than
`PENDING_MAX`, a `NAK` that covers the write position is outstanding if there are any, every `NAK`
sent was for `1` to `NAK_MAX` sequences from at most the write position on, and the write position
never falls. -/
theorem mirror_recovers {g : Geometry w} {session : UInt8} {m m₁ m₂ : Mirror w} (hm : m.Quiet)
    {as bs : List (Env × MirrorCall)}
    (hrun : Transition.run (Mirror.succeed g session) m as = some m₁)
    (hrun' : Transition.run (Mirror.succeed g session) m₁ bs = some m₂) :
    m₁.Recovering ∧ m₁.ring.nextSeq ≤ m₂.ring.nextSeq := by
  have hrec : m₁.Recovering := Transition.run_invariant
    (P := Mirror.Recovering) (Q := fun _ => True)
    (fun _ h hstep => (h.succeed hstep).1) (fun _ _ => trivial) hm.recovering hrun
  have hle : m₂.Recovering ∧ m₁.ring.nextSeq ≤ m₂.ring.nextSeq := Transition.run_invariant
    (P := fun m => m.Recovering ∧ m₁.ring.nextSeq ≤ m.ring.nextSeq) (Q := fun _ => True)
    (fun _ h hstep => ⟨(h.1.succeed hstep).1, h.2.trans (h.1.succeed hstep).2⟩)
    (fun _ _ => trivial) ⟨hrec, le_refl _⟩ hrun'
  exact ⟨hrec, hle.2⟩

/-- Datagram `2` arrives before record `1`. -/
def early : Env × MirrorCall :=
  (⟨true, true⟩, .receive (.datagram
    ((dataFrame 7 1 2 (dataBytes countingRecord 2 1)).encode ++ dataBytes countingRecord 2 1)))

/-- Record `1` is sent again. -/
def resent : Env × MirrorCall :=
  (⟨true, true⟩, .receive (.control (dataFrame 0 1 1 (dataBytes countingRecord 1 1))
    (dataBytes countingRecord 1 1)))

/-- Record `2` is kept aside until record `1` was sent again. -/
theorem mirror_recovers_swapped :
    ∃ m₁ m₂ : Mirror 16,
      Transition.run (Mirror.succeed bareBlobs 7) freshMirror [early] = some m₁ ∧
      Transition.run (Mirror.succeed bareBlobs 7) m₁ [resent] = some m₂ ∧
      m₁.pending.map Prod.fst = [2] ∧ m₁.nak = some ⟨1, 1⟩ ∧ m₂.nak = none ∧
      m₁.Recovering ∧ m₁.ring.nextSeq ≤ m₂.ring.nextSeq := by
  obtain ⟨m₁, m₂, hrun, hrun'⟩ : ∃ m₁ m₂ : Mirror 16,
      Transition.run (Mirror.succeed bareBlobs 7) freshMirror [early] = some m₁ ∧
        Transition.run (Mirror.succeed bareBlobs 7) m₁ [resent] = some m₂ := ⟨_, _, rfl, rfl⟩
  have hrec := mirror_recovers ⟨rfl, rfl, rfl⟩ hrun hrun'
  refine ⟨m₁, m₂, hrun, hrun', ?_, ?_, ?_, hrec⟩
  · cases hrun
    rfl
  · cases hrun
    rfl
  · cases hrun
    cases hrun'
    rfl

end Ringfire
