import Ringfire.Replication.Atomic
import Ringfire.Replication.Pending
import Ringfire.Replication.Recovery

/-!
# Requests for what is missing

A mirror in UDP mode asks for a hole with a `NAK` and remembers the last one it sent. `request`
sends nothing when that one starts at the write position and reaches as far as the new one would.
Otherwise it sends another, also while the first one waits for its answer: when records from further
on, or a heartbeat, make the range longer, and when an answer that comes in several frames has moved
the write position into it.

`MirrorInput.news` is the part of the handlers that reads the header; what follows depends on the
news alone.

## Main definitions

* `Mirror.AsksOnce`: no sequence of a request that waits for its answer is asked for again
* `Mirror.AsksNew`: what has come in leads to no such request

## Main results

* `Mirror.Asking.asksOnce`, `Mirror.Asking.asksNew`: the one follows from the other
* `mirror_asks_once`: a run all of whose steps ask for something new asks for nothing twice
* `mirror_asks_again`: two records behind a hole, and the hole is asked for twice
-/

namespace Ringfire

variable {w : ℕ}

/-- What an input comes down to once its header was read. -/
inductive News where
  /-- Records. -/
  | data (seq count : ℕ) (payload : List UInt8)
  /-- Nothing before `seq` is retained. -/
  | gap (seq : ℕ)
  /-- The source has published `seq`. -/
  | position (seq : ℕ)
  /-- The outstanding request is to be repeated. -/
  | again
  /-- The input is dropped, or refused. -/
  | nothing (res : Except RingfireError Unit)

/-- The part of `handle_datagram` and `handle_control` that does not depend on the mirror. -/
def MirrorInput.news (g : Geometry w) (session : UInt8) : MirrorInput → News
  | .datagram bytes =>
    let f := Frame.decode (bytes.take frameHeaderLen)
    if bytes.length < frameHeaderLen then .nothing (.ok ())
    else if f.flags ≠ session.toNat then .nothing (.ok ())
    else if f.kind = kindData then
      if frameSizesOk g f.count f.len = false ∨ bytes.length < frameHeaderLen + f.len then
        .nothing (.ok ())
      else .data f.seq f.count ((bytes.drop frameHeaderLen).take f.len)
    else if f.kind = kindHeartbeat then .position f.seq
    else .nothing (.ok ())
  | .control f body =>
    if f.kind = kindData then
      if frameSizesOk g f.count f.len then .data f.seq f.count (body.take f.len)
      else .nothing (.error (.protocol "DATA length does not match its record count"))
    else if f.kind = kindGap then .gap f.seq
    else if f.kind = kindHeartbeat then .position f.seq
    else if f.kind = kindMulticast then .nothing (.ok ())
    else .nothing (.error (.protocol "unexpected frame kind"))
  | .timeout => .again

/-- The sequences a request is for. -/
def Nak.Covers (n : Nak) (k : ℕ) : Prop := n.first ≤ k ∧ k ≤ n.last

namespace Mirror

/-- What the mirror does about the news. -/
def follow (g : Geometry w) (env : Env) (m : Mirror w) :
    News → Option (Except RingfireError Unit × Mirror w)
  | .data seq count payload => m.apply g env seq count payload
  | .gap seq =>
    if m.ring.nextSeq < seq then
      { m with gaps := m.gaps + 1, ring := m.ring.skipTo seq }.afterAdvance g env m.pending
    else some (.ok (), m)
  | .position seq => some (m.onSourceSeq env seq)
  | .again =>
    match m.nak with
    | some nak => some (m.sendNak env nak)
    | none => some (.ok (), m)
  | .nothing res => some (res, m)

/-- A request was sent and the write position has not passed it. -/
def Outstanding (m : Mirror w) : Prop := ∃ n ∈ m.requested, m.ring.nextSeq ≤ n.last

/-- No outstanding request reaches `nak_timeout`. -/
def Timely (m : Mirror w) (a : Env × MirrorInput) : Prop :=
  m.Outstanding → a.1.fresh = true ∧ a.2 ≠ .timeout

/-- From `m` to `m'` at most one request is sent, and none of its sequences is covered by one that
was sent before and that the write position has not passed. -/
def AsksOnce (m m' : Mirror w) : Prop :=
  ∃ new, m'.requested = m.requested ++ new ∧ new.length ≤ 1 ∧
    ∀ n ∈ new, ∀ r ∈ m.requested, m'.ring.nextSeq ≤ r.last → ∀ k, n.Covers k → ¬ r.Covers k

/-- What is missing up to `last` is asked for already, if anything is: the `NAK` the mirror waits
for starts at the write position and reaches up to `last`, as far as one request may. -/
def AskedFor (m : Mirror w) (last : ℕ) : Prop :=
  ∀ n, m.nak = some n → m.ring.nextSeq ≤ n.last →
    n.first = m.ring.nextSeq ∧ min last (m.ring.nextSeq + nakMax - 1) ≤ n.last

/-- Once the write position is at `p`, nothing is kept aside behind a hole that the `NAK` the mirror
waits for still covers. -/
def Bridges (m : Mirror w) (p : ℕ) : Prop :=
  ∀ n, m.nak = some n → ∀ k, p ≤ k → k ≤ n.last → ¬ m.Holding k → ∀ x ∈ m.pending, x.1 ≤ k

/-- The news leads to no request for what is asked for already. -/
def AsksNew (m : Mirror w) : News → Prop
  | .data seq count _ =>
    m.ring.nextSeq < seq + count →
      if m.ring.nextSeq < seq then m.AskedFor (seq - 1) else m.Bridges (seq + count)
  | .gap seq => m.ring.nextSeq < seq → m.Bridges seq
  | .position seq => m.ring.nextSeq ≤ seq → m.AskedFor seq
  | .again => True
  | .nothing _ => True

/-- The mirror remembers the one request that may be outstanding. -/
structure Asking (m : Mirror w) : Prop where
  sorted : OrderedMap.Sorted m.pending
  sent : ∀ n ∈ m.requested, n.first ≤ m.ring.nextSeq
  known : ∀ n, m.nak = some n → n ∈ m.requested
  current : ∀ n ∈ m.requested, m.ring.nextSeq ≤ n.last → m.nak = some n

/-- From `m` to `m'` nothing is asked for, and a request is forgotten only when the write position
has passed it. -/
structure Kept (m m' : Mirror w) : Prop where
  requested : m'.requested = m.requested
  nak : ∀ n, m'.nak = some n → m.nak = some n
  waits : ∀ n, m.nak = some n → m'.ring.nextSeq ≤ n.last → m'.nak = some n
  next : m.ring.nextSeq ≤ m'.ring.nextSeq
  sorted : OrderedMap.Sorted m.pending → OrderedMap.Sorted m'.pending

/-- From `m` to `m'` the request `n` is sent. -/
structure Sends (m m' : Mirror w) (n : Nak) : Prop where
  requested : m'.requested = m.requested ++ [n]
  nak : m'.nak = some n
  next : m.ring.nextSeq ≤ m'.ring.nextSeq
  sorted : OrderedMap.Sorted m.pending → OrderedMap.Sorted m'.pending

variable {g : Geometry w} {session : UInt8} {env : Env} {m m₁ m' : Mirror w} {n : Nak}
  {res : Except RingfireError Unit}

theorem receive_eq_follow (g : Geometry w) (session : UInt8) (env : Env) (m : Mirror w)
    (a : MirrorInput) : m.receive g session env a = m.follow g env (a.news g session) := by
  cases a with
  | datagram bytes =>
    simp only [receive, handleDatagram, MirrorInput.news]
    split_ifs <;> rfl
  | control f body =>
    simp only [receive, handleControl, MirrorInput.news]
    split_ifs with hdata hsizes hgap hlt <;> simp only [follow, *, if_true, if_false]
  | timeout => rfl

/-! ## What the calls do to the requests -/

theorem Kept.refl (m : Mirror w) : m.Kept m :=
  ⟨rfl, fun _ h => h, fun _ h _ => h, le_refl _, fun h => h⟩

theorem Kept.trans (h : m.Kept m₁) (h' : m₁.Kept m') : m.Kept m' where
  requested := h'.requested.trans h.requested
  nak n hn := h.nak n (h'.nak n hn)
  waits n hn hle := h'.waits n (h.waits n hn (h'.next.trans hle)) hle
  next := h.next.trans h'.next
  sorted hs := h'.sorted (h.sorted hs)

theorem Kept.sends (h : m.Kept m₁) (h' : m₁.Sends m' n) : m.Sends m' n where
  requested := by rw [h'.requested, h.requested]
  nak := h'.nak
  next := h.next.trans h'.next
  sorted hs := h'.sorted (h.sorted hs)

theorem clearNak_kept (m : Mirror w) : m.Kept m.clearNak := by
  unfold clearNak
  split
  · next n hn =>
    split_ifs with hlt
    · refine ⟨rfl, fun _ h => (nomatch h), fun n' hn' hle => ?_, le_refl _, fun h => h⟩
      cases hn.symm.trans hn'
      exact absurd hle (Nat.not_le.mpr hlt)
    · exact .refl m
  · exact .refl m

theorem hold_kept (m : Mirror w) (seq count : ℕ) (payload : List UInt8) :
    m.Kept (m.hold seq count payload) := by
  unfold hold
  split_ifs
  · exact ⟨rfl, fun _ h => h, fun _ h _ => h, le_refl _, fun h => h.insertNew⟩
  · exact .refl m

theorem writeRecords_kept {seq count : ℕ} {bytes : List UInt8} (hseq : seq ≤ m.ring.nextSeq)
    (hw : m.writeRecords g seq count bytes = some (res, m')) :
    m.Kept m' ∧ m'.pending = m.pending := by
  have hnext : m.ring.nextSeq ≤ m'.ring.nextSeq := by
    obtain ⟨stored, ring', hstore, hcases⟩ := writeRecords_cases hseq hw
    have hle := MirrorRing.le_nextSeq_of_storeAll _ _ _ freshRecords_whole rfl hstore
    rcases hcases with ⟨-, -, -, hring⟩ | ⟨-, -, hring⟩
    · rw [hring]
      exact hle
    · rw [hring]
      exact hle
  obtain ⟨⟨res', ring⟩, -, heq⟩ := Option.map_eq_some_iff.mp hw
  cases res' <;> cases heq <;>
    exact ⟨⟨rfl, fun _ h => h, fun _ h _ => h, hnext, fun h => h⟩, rfl⟩

/-- `request` sends nothing, or one request from the write position on. -/
theorem request_cases (env : Env) (m : Mirror w) (last : ℕ) :
    (m.request env m.ring.nextSeq last).2 = m ∨
      m.Sends (m.request env m.ring.nextSeq last).2
        ⟨m.ring.nextSeq, min last (m.ring.nextSeq + nakMax - 1)⟩ ∧
      (m.request env m.ring.nextSeq last).2.ring = m.ring := by
  have hsend : ∀ n, (m.sendNak env n).2 = m ∨
      m.Sends (m.sendNak env n).2 n ∧ (m.sendNak env n).2.ring = m.ring := by
    intro n
    unfold sendNak
    split_ifs
    · exact .inr ⟨⟨rfl, rfl, le_refl _, fun h => h⟩, rfl⟩
    · exact .inl rfl
  unfold request
  simp only
  split
  · split_ifs
    · exact .inl rfl
    · exact hsend _
  · exact hsend _

/-- A request that the `NAK` the mirror remembers does not cover is sent, if the call succeeds. -/
theorem request_sends {last : ℕ} {u : Unit} (hn : m.nak = some n)
    (hnot : ¬ (n.first = m.ring.nextSeq ∧ min last (m.ring.nextSeq + nakMax - 1) ≤ n.last))
    (hreq : m.request env m.ring.nextSeq last = (.ok u, m')) :
    m.Sends m' ⟨m.ring.nextSeq, min last (m.ring.nextSeq + nakMax - 1)⟩ ∧ m'.ring = m.ring := by
  unfold request sendNak at hreq
  simp only [hn] at hreq
  rw [if_neg fun h => hnot ⟨h.1, h.2.1⟩] at hreq
  split_ifs at hreq
  · cases hreq
    exact ⟨⟨rfl, rfl, le_refl _, fun h => h⟩, rfl⟩
  · cases hreq

/-- A turn of the loop of `after_advance` stops at an error, or at an entry ahead, and then makes a
request, or takes an entry that is not ahead out. -/
theorem advanceOne_cases {x : Held} {rest : List Held} (hp : m.pending = x :: rest) {t : Turned w}
    (hone : m.advanceOne g env x rest = some t) :
    (∃ e m', t = .stop (.error e) m' ∧ m.Kept m') ∨
    (m.clearNak.ring.nextSeq < x.1 ∧
      t = .stop (m.clearNak.request env m.clearNak.ring.nextSeq (x.1 - 1)).1
        (m.clearNak.request env m.clearNak.ring.nextSeq (x.1 - 1)).2) ∨
    ∃ m', t = .goOn m' ∧ m.Kept m' ∧ m'.pending = rest ∧ x.1 ≤ m.ring.nextSeq ∧
      m'.ring.nextSeq = max m.ring.nextSeq (x.1 + x.2.1) := by
  have hkept := clearNak_kept m
  obtain ⟨hring, hpending⟩ := clearNak_same m
  unfold advanceOne at hone
  generalize m.clearNak = m₀ at hkept hring hpending hone ⊢
  have hp₀ : m₀.pending = x :: rest := hpending.trans hp
  have hout : m₀.Kept { m₀ with pending := rest } := by
    refine ⟨rfl, fun _ h => h, fun _ h _ => h, le_refl _, fun h => ?_⟩
    rw [hp₀] at h
    exact (List.pairwise_cons.mp h).2
  simp only at hone
  split_ifs at hone with hpast hahead
  · cases hone
    rw [hring] at hpast
    refine .inr (.inr ⟨_, rfl, hkept.trans hout, rfl, (Nat.le_add_right _ _).trans hpast, ?_⟩)
    simp only [hring]
    exact (max_eq_left hpast).symm
  · rw [← hp₀] at hone
    cases hone
    exact .inr (.inl ⟨hahead, rfl⟩)
  · obtain ⟨⟨res, m₁⟩, hwr, heq⟩ := Option.map_eq_some_iff.mp hone
    have hle := Nat.not_lt.mp hahead
    obtain ⟨hwrote, hpd⟩ := writeRecords_kept (m := { m₀ with pending := rest }) hle hwr
    cases res with
    | error e =>
      cases heq
      exact .inl ⟨e, m₁, rfl, hkept.trans (hout.trans hwrote)⟩
    | ok u =>
      cases heq
      obtain ⟨⟨res', ring⟩, hloop, heq⟩ := Option.map_eq_some_iff.mp hwr
      cases res' <;> cases heq
      have hnext := MirrorRing.writeRecords_nextSeq hle hloop
      simp only [hring] at hle hnext
      exact .inr (.inr ⟨_, rfl, hkept.trans (hout.trans hwrote), hpd, hle, hnext⟩)

/-- What is held elsewhere once an entry is past. -/
theorem holding_of_tail {x : Held} {rest : List Held} (hp : m.pending = x :: rest)
    (hp' : m'.pending = rest) {k : ℕ} (hk : x.1 + x.2.1 ≤ k) (h : m.Holding k) : m'.Holding k := by
  obtain ⟨y, hy, hyk⟩ := h
  rw [hp] at hy
  rcases List.mem_cons.mp hy with rfl | hy
  · omega
  · exact ⟨y, by rw [hp']; exact hy, hyk⟩

/-- **What `after_advance` asks for** starts at the first sequence that nothing kept aside covers,
and something is kept aside behind it. -/
theorem afterAdvance_asks : ∀ (entries : List Held) {m m' : Mirror w}, m.pending = entries →
    OrderedMap.Sorted m.pending → m.afterAdvance g env entries = some (res, m') →
    m.Kept m' ∨ ∃ n x, m.Sends m' n ∧ n.first = m'.ring.nextSeq ∧ x ∈ m.pending ∧
      m'.ring.nextSeq < x.1 ∧ ¬ m.Holding m'.ring.nextSeq := by
  -- by induction on the entries that are left, as the loop takes them out one by one
  intro entries
  induction entries with
  | nil =>
    intro m m' hp hsorted haa
    cases haa
    exact .inl (clearNak_kept m)
  | cons x rest ih =>
    intro m m' hp hsorted haa
    rw [Mirror.afterAdvance] at haa
    split at haa
    · cases haa
    · next res₁ m₁ hone =>
      cases haa
      rcases advanceOne_cases hp hone with ⟨e, m₂, ht, hkept⟩ | ⟨hlt, ht⟩ | ⟨m₂, ht, -⟩
      · cases ht
        exact .inl hkept
      · cases ht
        have hkept := clearNak_kept m
        rcases request_cases env m.clearNak (x.1 - 1) with hsame | ⟨hsends, hring⟩
        · rw [hsame]
          exact .inl hkept
        · have hnext := congrArg MirrorRing.nextSeq hring
          refine .inr ⟨_, x, hkept.sends hsends, hnext.symm, by rw [hp]; exact List.mem_cons_self,
            by rw [hnext]; exact hlt, ?_⟩
          -- the first entry is ahead, and the others are behind it
          rintro ⟨y, hy, hyk, -⟩
          rw [hnext] at hyk
          rw [hp] at hy hsorted
          rcases List.mem_cons.mp hy with rfl | hy
          · omega
          · have hxy := (List.pairwise_cons.mp hsorted).1 y hy
            omega
      · cases ht
    · next m₁ hone =>
      rcases advanceOne_cases hp hone with ⟨e, m₂, ht, -⟩ | ⟨-, ht⟩ | ⟨m₂, ht, hkept, hp₁, -, hnext⟩
      · cases ht
      · cases ht
      · cases ht
        rcases ih hp₁ (hkept.sorted hsorted) haa with hrest | ⟨n, y, hsends, hfirst, hy, hlt, hnot⟩
        · exact .inl (hkept.trans hrest)
        · refine .inr ⟨n, y, hkept.sends hsends, hfirst, ?_, hlt, fun hhold => hnot ?_⟩
          · rw [hp]
            exact List.mem_cons_of_mem x (hp₁ ▸ hy)
          · have hle := hsends.next
            exact holding_of_tail hp hp₁ (by omega) hhold

/-- **When the loop asks again.** Something is kept aside behind a hole that the `NAK` the mirror
remembers covers, and the write position has come to lie behind the start of that `NAK`. -/
theorem afterAdvance_repeats {r : Nak} {k : ℕ} {x : Held} {u : Unit} (hkr : k ≤ r.last)
    (hlt : k < x.1) : ∀ (entries : List Held) {m m' : Mirror w}, m.pending = entries →
    m.nak = some r → r.first < m.ring.nextSeq → m.ring.nextSeq ≤ k → ¬ m.Holding k →
    x ∈ m.pending → m.afterAdvance g env entries = some (.ok u, m') →
    m'.ring.nextSeq ≤ k ∧ ∃ n, m.Sends m' n ∧ n.first = m'.ring.nextSeq ∧ n.first ≤ n.last := by
  intro entries
  induction entries with
  | nil =>
    intro m m' hp _ _ _ _ hx
    rw [hp] at hx
    cases hx
  | cons y rest ih =>
    intro m m' hp hnak hfirst hle hnot hx haa
    have hnotk : ¬ (y.1 ≤ k ∧ k < y.1 + y.2.1) := by
      intro hk
      exact hnot ⟨y, by rw [hp]; exact List.mem_cons_self, hk⟩
    rw [Mirror.afterAdvance] at haa
    split at haa
    · cases haa
    · next res₁ m₁ hone =>
      cases haa
      rcases advanceOne_cases hp hone with ⟨e, m₂, ht, -⟩ | ⟨hahead, ht⟩ | ⟨m₂, ht, -⟩
      · cases ht
      · -- the request starts at the hole the loop has stopped at
        obtain ⟨hres, hm'⟩ := Turned.stop.inj ht
        have hkept := clearNak_kept m
        have hring := (clearNak_same m).ring
        obtain ⟨hsends, hring'⟩ := request_sends
          (hkept.waits r hnak (by rw [hring]; omega)) (by rw [hring]; omega)
          (Prod.ext hres.symm hm'.symm)
        have hnext := congrArg MirrorRing.nextSeq hring'
        refine ⟨by rw [hnext, hring]; exact hle, _, hkept.sends hsends, hnext.symm, ?_⟩
        simp only [nakMax]
        omega
      · cases ht
    · next m₁ hone =>
      rcases advanceOne_cases hp hone with ⟨e, m₂, ht, -⟩ | ⟨-, ht⟩ |
        ⟨m₂, ht, hkept, hp₁, hstart, hnext⟩
      · cases ht
      · cases ht
      · cases ht
        have hle₁ : m₁.ring.nextSeq ≤ k := by omega
        have hnot₁ : ¬ m₁.Holding k := by
          rintro ⟨z, hz, hzk⟩
          rw [hp₁] at hz
          exact hnot ⟨z, by rw [hp]; exact List.mem_cons_of_mem y hz, hzk⟩
        have hx₁ : x ∈ m₁.pending := by
          rw [hp] at hx
          rcases List.mem_cons.mp hx with rfl | hx
          · exact absurd (hstart.trans hle) (Nat.not_le.mpr hlt)
          · rwa [hp₁]
        obtain ⟨hbefore, n, hsends, hn⟩ := ih hp₁ (hkept.waits r hnak (hle₁.trans hkr))
          (hfirst.trans_le hkept.next) hle₁ hnot₁ hx₁ haa
        exact ⟨hbefore, n, hkept.sends hsends, hn⟩

/-! ## One request at a time -/

theorem Asking.kept (h : m.Asking) (hk : m.Kept m') : m'.Asking ∧ m.AsksOnce m' := by
  refine ⟨⟨hk.sorted h.sorted, fun n hn => ?_, fun n hn => ?_, fun n hn hle => ?_⟩, [], ?_,
    Nat.zero_le 1, by rintro _ ⟨⟩⟩
  · rw [hk.requested] at hn
    exact (h.sent n hn).trans hk.next
  · rw [hk.requested]
    exact h.known n (hk.nak n hn)
  · rw [hk.requested] at hn
    exact hk.waits n (h.current n hn (hk.next.trans hle)) hle
  · rw [hk.requested, List.append_nil]

/-- A request sent when none is outstanding. -/
theorem Asking.sends (h : m.Asking) (hs : m.Sends m' n) (hfirst : n.first ≤ m'.ring.nextSeq)
    (hnone : ∀ r ∈ m.requested, r.last < m'.ring.nextSeq) : m'.Asking ∧ m.AsksOnce m' := by
  refine ⟨⟨hs.sorted h.sorted, fun r hr => ?_, fun r hr => ?_, fun r hr hle => ?_⟩, [n],
    hs.requested, le_refl 1, fun _ _ r hr hle => absurd hle (Nat.not_le.mpr (hnone r hr))⟩
  · rw [hs.requested] at hr
    rcases List.mem_append.mp hr with hr | hr
    · exact (h.sent r hr).trans hs.next
    · rw [List.mem_singleton.mp hr]
      exact hfirst
  · rw [hs.requested]
    cases hs.nak.symm.trans hr
    exact List.mem_append_right _ List.mem_cons_self
  · rw [hs.requested] at hr
    rcases List.mem_append.mp hr with hr | hr
    · exact absurd hle (Nat.not_le.mpr (hnone r hr))
    · rw [List.mem_singleton.mp hr]
      exact hs.nak

/-- A request that starts at the write position while another one is outstanding. -/
theorem Asking.not_asksOnce (h : m.Asking) {r : Nak} (hr : m.nak = some r) (hs : m.Sends m' n)
    (hfirst : n.first = m'.ring.nextSeq) (hle : n.first ≤ n.last)
    (hout : m'.ring.nextSeq ≤ r.last) : ¬ m.AsksOnce m' := by
  rintro ⟨new, hnew, -, hapart⟩
  have hmem := h.known r hr
  obtain rfl : new = [n] := List.append_cancel_left (hnew.symm.trans hs.requested)
  refine hapart n List.mem_cons_self r hmem hout n.first ⟨le_refl _, hle⟩ ⟨?_, ?_⟩
  · rw [hfirst]
    exact (h.sent r hmem).trans hs.next
  · rw [hfirst]
    exact hout

/-- What is asked for while another state of the same requests was looked at. -/
theorem Kept.asksOnce (hk : m.Kept m₁) (h : m₁.AsksOnce m') : m.AsksOnce m' := by
  obtain ⟨new, hnew, hone, hapart⟩ := h
  rw [hk.requested] at hnew hapart
  exact ⟨new, hnew, hone, hapart⟩

theorem Asking.request (h : m.Asking) (env : Env) (last : ℕ)
    (hfresh : m.Outstanding → env.fresh = true) (hasked : m.AskedFor last) :
    (m.request env m.ring.nextSeq last).2.Asking ∧
      m.AsksOnce (m.request env m.ring.nextSeq last).2 := by
  by_cases hout : m.Outstanding
  · obtain ⟨r, hr, hle⟩ := hout
    have hnak := h.current r hr hle
    obtain ⟨hfirst, hlast⟩ := hasked r hnak hle
    unfold Mirror.request
    simp only [hnak]
    rw [if_pos ⟨hfirst, hlast, hfresh ⟨r, hr, hle⟩⟩]
    exact h.kept (.refl m)
  · rcases request_cases env m last with hsame | ⟨hsends, hring⟩
    · rw [hsame]
      exact h.kept (.refl m)
    · refine h.sends hsends (by rw [hring]) fun r hr => ?_
      rw [hring]
      by_contra hle
      exact hout ⟨r, hr, Nat.not_lt.mp hle⟩

/-- The write position has moved, and what was kept aside behind it is applied. -/
theorem Asking.afterAdvance (h : m.Asking) (hk : m.Kept m₁) (hp : m₁.pending = m.pending)
    (hb : m.Bridges m₁.ring.nextSeq) (haa : m₁.afterAdvance g env m₁.pending = some (res, m')) :
    m'.Asking ∧ m.AsksOnce m' := by
  rcases afterAdvance_asks _ rfl (hk.sorted h.sorted) haa with
    hrest | ⟨n, x, hsends, hfirst, hx, hlt, hnot⟩
  · exact h.kept (hk.trans hrest)
  · refine h.sends (hk.sends hsends) hfirst.le fun r hr => ?_
    by_contra hle
    have hnext := hk.next.trans hsends.next
    have hnak := h.current r hr (hnext.trans (Nat.not_lt.mp hle))
    rw [Holding, hp] at hnot
    exact absurd (hb r hnak _ hsends.next (Nat.not_lt.mp hle) hnot x (hp ▸ hx))
      (Nat.not_le.mpr hlt)

theorem hold_nak (m : Mirror w) (seq count : ℕ) (payload : List UInt8) :
    (m.hold seq count payload).nak = m.nak := by
  unfold hold
  split_ifs <;> rfl

theorem skip_kept (m : Mirror w) (seq : ℕ) :
    m.Kept { m with gaps := m.gaps + 1, ring := m.ring.skipTo seq } :=
  ⟨rfl, fun _ h => h, fun _ h _ => h, (m.ring.le_skipTo seq).1, fun h => h⟩

theorem sourceSeq_kept (m : Mirror w) (seq : ℕ) :
    m.Kept { m with sourceSeq := max m.sourceSeq seq } :=
  ⟨rfl, fun _ h => h, fun _ h _ => h, le_refl _, fun h => h⟩

/-- **What is asked for is new**, if the news allows it, and the mirror goes on remembering the one
request that may be outstanding. -/
theorem Asking.follow (h : m.Asking) {news : News}
    (htimely : m.Outstanding → env.fresh = true ∧ news ≠ .again) (hnew : m.AsksNew news)
    (hf : m.follow g env news = some (res, m')) : m'.Asking ∧ m.AsksOnce m' := by
  cases news with
  | data seq count payload =>
    unfold Mirror.follow Mirror.apply at hf
    simp only at hf
    split_ifs at hf with hpast hahead
    · cases hf
      exact h.kept (.refl m)
    · -- records from further on are kept aside
      have hkept := m.hold_kept seq count payload
      have hring := m.hold_ring seq count payload
      have hnak := m.hold_nak seq count payload
      have hasked := hnew (Nat.not_le.mp hpast)
      rw [if_pos hahead] at hasked
      have hreq := (h.kept hkept).1.request env (seq - 1)
        (fun ⟨n, hn, hle⟩ => (htimely ⟨n, hkept.requested ▸ hn, hring ▸ hle⟩).1)
        (by rw [AskedFor, hring, hnak]; exact hasked)
      rw [hring, Option.some_injective _ hf] at hreq
      exact ⟨hreq.1, hkept.asksOnce hreq.2⟩
    · have hbridges := hnew (Nat.not_le.mp hpast)
      rw [if_neg hahead] at hbridges
      have hle := Nat.not_lt.mp hahead
      split at hf
      · cases hf
      · next e m₁ hwr =>
        cases hf
        exact h.kept (writeRecords_kept hle hwr).1
      · next u m₁ hwr =>
        obtain ⟨hkept, hp⟩ := writeRecords_kept hle hwr
        refine h.afterAdvance hkept hp ?_ hf
        obtain ⟨⟨res', ring⟩, hloop, heq⟩ := Option.map_eq_some_iff.mp hwr
        cases res' <;> cases heq
        have hnext := MirrorRing.writeRecords_nextSeq hle hloop
        rw [max_eq_right (Nat.not_le.mp hpast).le] at hnext
        rw [hnext]
        exact hbridges
  | gap seq =>
    unfold Mirror.follow at hf
    simp only at hf
    split_ifs at hf with hlt
    · refine h.afterAdvance (m.skip_kept seq) rfl ?_ hf
      simp only [MirrorRing.skipTo, if_pos hlt]
      exact hnew hlt
    · cases hf
      exact h.kept (.refl m)
  | position seq =>
    obtain rfl : (m.onSourceSeq env seq).2 = m' :=
      congrArg Prod.snd (Option.some_injective _ hf)
    unfold Mirror.onSourceSeq
    have hkept := m.sourceSeq_kept seq
    simp only
    split_ifs with hle
    · have hreq := (h.kept hkept).1.request env seq (fun hout => (htimely hout).1) (hnew hle)
      exact ⟨hreq.1, hkept.asksOnce hreq.2⟩
    · exact h.kept hkept
  | again =>
    unfold Mirror.follow at hf
    simp only at hf
    split at hf
    · next n hn =>
      have hmem := h.known n hn
      have hnone : ∀ r ∈ m.requested, r.last < m.ring.nextSeq := by
        intro r hr
        by_contra hle
        exact (htimely ⟨r, hr, Nat.not_lt.mp hle⟩).2 rfl
      unfold sendNak at hf
      split_ifs at hf
      · cases hf
        exact h.sends ⟨rfl, rfl, le_refl _, fun h => h⟩ (h.sent n hmem) hnone
      · cases hf
        exact h.kept (.refl m)
    · cases hf
      exact h.kept (.refl m)
  | nothing res' =>
    cases hf
    exact h.kept (.refl m)

/-- **What is asked for is asked for again**, if the news is of the other kind and the call
succeeds. -/
theorem Asking.asksNew (h : m.Asking) {news : News} {u : Unit}
    (hf : m.follow g env news = some (.ok u, m')) (honce : m.AsksOnce m') : m.AsksNew news := by
  -- a request from the write position on that the outstanding one does not cover
  have hasked {m₁ m₂ : Mirror w} {last : ℕ} (hk : m.Kept m₁) (hring : m₁.ring = m.ring)
      (hnak : m₁.nak = m.nak) (hlast : m.ring.nextSeq ≤ last) (honce : m.AsksOnce m₂)
      (hreq : m₁.request env m₁.ring.nextSeq last = (.ok u, m₂)) : m.AskedFor last := by
    intro n hn hle
    by_contra hnot
    rw [← hring] at hnot hle hlast
    obtain ⟨hsends, hring'⟩ := request_sends (hnak.trans hn) hnot hreq
    have hnext := congrArg MirrorRing.nextSeq hring'
    refine h.not_asksOnce hn (hk.sends hsends) hnext.symm ?_ (by rw [hnext]; exact hle) honce
    simp only [nakMax]
    omega
  -- the write position has moved into the range of the outstanding request
  have hbridges {m₁ : Mirror w} (hk : m.Kept m₁) (hp : m₁.pending = m.pending)
      (hnak : m₁.nak = m.nak) (hlt : m.ring.nextSeq < m₁.ring.nextSeq)
      (haa : m₁.afterAdvance g env m₁.pending = some (.ok u, m')) :
      m.Bridges m₁.ring.nextSeq := by
    intro n hn k hk' hkn hnot x hx
    by_contra hxk
    have hfirst := (h.sent n (h.known n hn)).trans_lt hlt
    rw [Holding, ← hp] at hnot
    obtain ⟨hbefore, n', hsends, hfirst', hle⟩ := afterAdvance_repeats hkn (Nat.not_le.mp hxk) _
      rfl (hnak.trans hn) hfirst hk' hnot (by rw [hp]; exact hx) haa
    exact h.not_asksOnce hn (hk.sends hsends) hfirst' hle (hbefore.trans hkn) honce
  cases news with
  | data seq count payload =>
    unfold Mirror.follow Mirror.apply at hf
    simp only at hf
    intro hlt
    rw [if_neg (Nat.not_le.mpr hlt)] at hf
    split_ifs at hf ⊢ with hahead
    · have hring := m.hold_ring seq count payload
      rw [← hring] at hf
      exact hasked (m.hold_kept seq count payload) hring (m.hold_nak seq count payload)
        (Nat.le_sub_one_of_lt hahead) honce (Option.some_injective _ hf)
    · have hle := Nat.not_lt.mp hahead
      split at hf
      · cases hf
      · cases hf
      · next v m₁ hwr =>
        obtain ⟨hkept, hp⟩ := writeRecords_kept hle hwr
        obtain ⟨⟨res', ring⟩, hloop, heq⟩ := Option.map_eq_some_iff.mp hwr
        cases res' <;> cases heq
        have hnext := MirrorRing.writeRecords_nextSeq hle hloop
        rw [max_eq_right hlt.le] at hnext
        have hb := hbridges hkept hp rfl (by rw [hnext]; exact hlt) hf
        rw [hnext] at hb
        exact hb
  | gap seq =>
    intro hlt
    unfold Mirror.follow at hf
    simp only at hf
    rw [if_pos hlt] at hf
    have hnext : (m.ring.skipTo seq).nextSeq = seq := by rw [MirrorRing.skipTo, if_pos hlt]
    have hb := hbridges (m.skip_kept seq) rfl rfl (by rw [hnext]; exact hlt) hf
    rw [hnext] at hb
    exact hb
  | position seq =>
    intro hle
    have hf := Option.some_injective _ hf
    unfold Mirror.onSourceSeq at hf
    simp only at hf
    rw [if_pos hle] at hf
    exact hasked (m.sourceSeq_kept seq) rfl rfl hle honce hf
  | again => exact trivial
  | nothing res' => exact trivial

theorem Quiet.asking (h : m.Quiet) : m.Asking := by
  refine ⟨?_, ?_, ?_, ?_⟩
  · rw [h.pending]
    exact .nil
  · rw [h.requested]
    rintro _ ⟨⟩
  · rw [h.nak]
    rintro _ ⟨⟩
  · rw [h.requested]
    rintro _ ⟨⟩

end Mirror

/-- **A missing range is asked for once, as long as all news is of the right kind.** In a run in
which no outstanding request reaches `nak_timeout`, whatever datagrams and frames come in: while the
news was as `Mirror.AsksNew` says, a step with such news asks for no sequence that an outstanding
request covers, and a step with any other news that succeeds does. -/
theorem mirror_asks_once {g : Geometry w} {session : UInt8} {m m₁ m₂ : Mirror w} (hm : m.Quiet)
    (hreach : Transition.ReachesBy
      (fun m a => m.Timely a ∧ m.AsksNew (a.2.news g session)) (Mirror.next g session) m m₁)
    {a : Env × MirrorInput} (ha : m₁.Timely a) {res : Except RingfireError Unit}
    (hr : m₁.receive g session a.1 a.2 = some (res, m₂)) :
    (m₁.AsksNew (a.2.news g session) → m₁.AsksOnce m₂) ∧
      (res = .ok () → m₁.AsksOnce m₂ → m₁.AsksNew (a.2.news g session)) := by
  have htimeout : ∀ {a : MirrorInput}, a ≠ .timeout → a.news g session ≠ .again := by
    intro a hne
    cases a with
    | datagram bytes =>
      simp only [MirrorInput.news]
      split_ifs <;> rintro ⟨⟩
    | control f body =>
      simp only [MirrorInput.news]
      split_ifs <;> rintro ⟨⟩
    | timeout => exact absurd rfl hne
  have hasking : m₁.Asking := hreach.invariant (P := Mirror.Asking)
    (fun {m a m'} h hok hstep => by
      obtain ⟨⟨res, m''⟩, hr, rfl⟩ := Option.map_eq_some_iff.mp hstep
      rw [Mirror.receive_eq_follow] at hr
      exact (h.follow (fun hout => (hok.1 hout).imp_right htimeout) hok.2 hr).1) hm.asking
  rw [Mirror.receive_eq_follow] at hr
  refine ⟨fun hnew => ?_, ?_⟩
  · exact (hasking.follow (fun hout => (ha hout).imp_right htimeout) hnew hr).2
  · rintro rfl honce
    exact hasking.asksNew hr honce

/-- Datagram `k` of the record `k` alone. -/
def alone (k : ℕ) : Env × MirrorInput :=
  (⟨true, true⟩, .datagram
    ((dataFrame 7 1 k (dataBytes countingRecord k 1)).encode ++ dataBytes countingRecord k 1))

/-- Record `2` comes first, `1` is asked for, and comes. -/
theorem mirror_asks_once_swapped : ∃ m₁ m₂ : Mirror 16,
    Transition.run (Mirror.next bareBlobs 7) freshMirror [alone 2] = some m₁ ∧
    Mirror.next bareBlobs 7 m₁ (alone 1) = some m₂ ∧ m₁.requested = [⟨1, 1⟩] ∧
    m₁.AsksOnce m₂ := by
  obtain ⟨m₁, hone⟩ : ∃ m₁, Mirror.next bareBlobs 7 freshMirror (alone 2) = some m₁ := ⟨_, rfl⟩
  obtain ⟨res, m₂, htwo⟩ : ∃ res m₂, m₁.receive bareBlobs 7 (alone 1).1 (alone 1).2 =
      some (res, m₂) := by
    cases hone
    exact ⟨_, _, rfl⟩
  have hnak : m₁.nak = some ⟨1, 1⟩ ∧ m₁.ring.nextSeq = 1 ∧ m₁.requested = [⟨1, 1⟩] := by
    cases hone
    exact ⟨rfl, rfl, rfl⟩
  have htimely (m : Mirror 16) (k : ℕ) : m.Timely (alone k) := fun _ => ⟨rfl, by rintro ⟨⟩⟩
  have hreach : Transition.ReachesBy (fun m a => m.Timely a ∧ m.AsksNew (a.2.news bareBlobs 7))
      (Mirror.next bareBlobs 7) freshMirror m₁ := by
    refine .tail .refl ⟨htimely _ 2, ?_⟩ hone
    intro _ n hn
    cases hn
  have hasks := mirror_asks_once ⟨rfl, rfl, rfl⟩ hreach (htimely m₁ 1) htwo
  refine ⟨m₁, m₂, Transition.run_cons_eq_some.mpr ⟨m₁, hone, rfl⟩, ?_, hnak.2.2, hasks.1 ?_⟩
  · rw [Mirror.next, htwo]
    rfl
  · have hnews : (alone 1).2.news bareBlobs 7 = .data 1 1 (dataBytes countingRecord 1 1) := rfl
    rw [hnews]
    intro _
    rw [if_neg (by rw [hnak.2.1]; decide)]
    intro n hn k hk hkn
    cases hnak.1.symm.trans hn
    exact absurd (hk.trans hkn) (by decide)

/-- **A hole is asked for twice.** Records `2` and `3` overtake record `1`, each in a datagram of
its own: the second `NAK` covers sequence `1` again, which the first has asked for and which has not
come yet. -/
theorem mirror_asks_again : ∃ m₁ m₂ : Mirror 16,
    Transition.run (Mirror.next bareBlobs 7) freshMirror [alone 2] = some m₁ ∧
    Mirror.next bareBlobs 7 m₁ (alone 3) = some m₂ ∧
    m₁.requested = [⟨1, 1⟩] ∧ m₂.requested = [⟨1, 1⟩, ⟨1, 2⟩] ∧ m₂.ring.nextSeq = 1 ∧
    freshMirror.Quiet ∧ freshMirror.Timely (alone 2) ∧ m₁.Timely (alone 3) ∧
    Legit countingRecord 7 (alone 2).2 ∧ Legit countingRecord 7 (alone 3).2 ∧
    ¬ m₁.AsksOnce m₂ := by
  obtain ⟨m₁, hone⟩ : ∃ m₁, Mirror.next bareBlobs 7 freshMirror (alone 2) = some m₁ := ⟨_, rfl⟩
  obtain ⟨m₂, htwo⟩ : ∃ m₂, Mirror.next bareBlobs 7 m₁ (alone 3) = some m₂ := by
    cases hone
    exact ⟨_, rfl⟩
  have hrequests : m₁.requested = [⟨1, 1⟩] ∧ m₂.requested = [⟨1, 1⟩, ⟨1, 2⟩] ∧
      m₂.ring.nextSeq = 1 := by
    cases hone
    cases htwo
    exact ⟨rfl, rfl, rfl⟩
  have htimely (m : Mirror 16) (k : ℕ) : m.Timely (alone k) := fun _ => ⟨rfl, by rintro ⟨⟩⟩
  refine ⟨m₁, m₂, Transition.run_cons_eq_some.mpr ⟨m₁, hone, rfl⟩, htwo, hrequests.1, hrequests.2.1,
    hrequests.2.2, ⟨rfl, rfl, rfl⟩, htimely _ 2, htimely _ 3, ?_, ?_, ?_⟩
  · exact .data 2 1 ⟨by decide, by decide, by decide⟩
  · exact .data 3 1 ⟨by decide, by decide, by decide⟩
  · rintro ⟨new, hnew, -, hapart⟩
    rw [hrequests.1, hrequests.2.1] at hnew
    obtain rfl : new = [⟨1, 2⟩] := List.append_cancel_left hnew.symm
    rw [hrequests.1, hrequests.2.2] at hapart
    exact hapart _ List.mem_cons_self _ List.mem_cons_self (by decide) 1 ⟨by decide, by decide⟩
      ⟨by decide, by decide⟩

end Ringfire
