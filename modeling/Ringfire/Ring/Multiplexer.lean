import Ringfire.Foundation.Cyclic
import Ringfire.Ring.Sequential

/-!
# Polling several rings

`RingMultiplexer` of `multiplexer.rs`: `try_recv_any` polls the channels in turn, from the one
behind the channel served last, and `recv_batch_any` calls it until nothing is left or the batch is
full.

What a channel is stays open: a reader `γ`, and `recv`, which is its `try_recv` while the rest of
the world is in a state of `ε`. A call is given the state of the world during the poll of each
channel, so the rings may be written between two calls and while a call goes from channel to
channel. A channel records what its `try_recv` has returned.

## Main definitions

* `RingMultiplexer.tryRecvAny`, `RingMultiplexer.recvBatchAny`
* `RingMultiplexer.attempts`: the calls of `try_recv_any` in a run
* `RingMultiplexer.Fair`: what a run promises

## Main results

* `attempts_served`: a channel that always has a message is served once in a round
* `fair`: every run is fair
* `delivered_eq`: with rings as channels, what is returned is what the consumers deliver
-/

namespace Ringfire

/-- A channel: its reader, and every message its `try_recv` returned. -/
structure Channel (γ τ : Type) where
  reader : γ
  received : List τ

/-- `RingMultiplexer`, of `n` channels. -/
structure RingMultiplexer (n : ℕ) (γ τ : Type) where
  consumers : Fin n → Channel γ τ
  nextIdx : ℕ

variable {n : ℕ} {ε γ τ : Type} (recv : ε → γ → Option τ × γ)

/-- `RingConsumer::try_recv` of a channel. -/
def Channel.tryRecv (env : ε) (ch : Channel γ τ) : Option τ × Channel γ τ :=
  ((recv env ch.reader).1,
    ⟨(recv env ch.reader).2, ch.received ++ (recv env ch.reader).1.toList⟩)

namespace RingMultiplexer

/-- A multiplexer as `new` and `add` leave it. -/
def new (readers : Fin n → γ) : RingMultiplexer n γ τ := ⟨fun c => ⟨readers c, []⟩, 0⟩

/-- The channel of a position in the rotation. -/
def channel (hn : 0 < n) (k : ℕ) : Fin n := ⟨k % n, Nat.mod_lt k hn⟩

/-- Polls one channel. -/
def poll (env : Fin n → ε) (m : RingMultiplexer n γ τ) (c : Fin n) :
    Option τ × RingMultiplexer n γ τ :=
  (((m.consumers c).tryRecv recv (env c)).1,
    { m with consumers :=
      Function.update m.consumers c ((m.consumers c).tryRecv recv (env c)).2 })

/-- The loop of `try_recv_any`, with `left` channels left, at position `i` of the rotation. -/
def scan (hn : 0 < n) (env : Fin n → ε) (start : ℕ) :
    ℕ → ℕ → RingMultiplexer n γ τ → Option (Fin n × τ) × RingMultiplexer n γ τ
  | 0, _, m => (none, m)
  | left + 1, i, m =>
    match m.poll recv env (channel hn (start + i)) with
    | (some msg, m') =>
      (some (channel hn (start + i), msg),
        { m' with nextIdx := ((channel hn (start + i)).val + 1) % n })
    | (none, m') => scan hn env start left (i + 1) m'

/-- `try_recv_any`. -/
def tryRecvAny (env : Fin n → ε) (m : RingMultiplexer n γ τ) :
    Option (Fin n × τ) × RingMultiplexer n γ τ :=
  if hn : 0 < n then scan recv hn env m.nextIdx n 0 m else (none, m)

/-- `recv_batch_any`; `env k` is the world during the `k`-th call of `try_recv_any`. -/
def recvBatchAny : ℕ → (ℕ → Fin n → ε) → RingMultiplexer n γ τ →
    List (Fin n × τ) × RingMultiplexer n γ τ
  | 0, _, m => ([], m)
  | maxItems + 1, env, m =>
    match m.tryRecvAny recv (env 0) with
    | (some item, m') =>
      (item :: (recvBatchAny maxItems (fun k => env (k + 1)) m').1,
        (recvBatchAny maxItems (fun k => env (k + 1)) m').2)
    | (none, m') => ([], m')

/-! ## Runs -/

/-- A call, and the world while it is made. -/
inductive Call (n : ℕ) (ε : Type) where
  | tryRecvAny (env : Fin n → ε)
  | recvBatchAny (maxItems : ℕ) (env : ℕ → Fin n → ε)

/-- What a call returns. -/
def call (m : RingMultiplexer n γ τ) : Call n ε → List (Fin n × τ) × RingMultiplexer n γ τ
  | .tryRecvAny env => ((m.tryRecvAny recv env).1.toList, (m.tryRecvAny recv env).2)
  | .recvBatchAny maxItems env => m.recvBatchAny recv maxItems env

/-- What the calls of a run return, one behind the other. -/
def run : RingMultiplexer n γ τ → List (Call n ε) → List (Fin n × τ) × RingMultiplexer n γ τ
  | m, [] => ([], m)
  | m, a :: as => ((m.call recv a).1 ++ ((m.call recv a).2.run as).1, ((m.call recv a).2.run as).2)

/-- A call of `try_recv_any` within a run. -/
structure Attempt (n : ℕ) (ε γ τ : Type) where
  before : RingMultiplexer n γ τ
  env : Fin n → ε
  result : Option (Fin n × τ)
  after : RingMultiplexer n γ τ

/-- The `try_recv` of the channel returns a message in this call, or would if it came to it. -/
def Attempt.Ready (a : Attempt n ε γ τ) (c : Fin n) : Prop :=
  (recv (a.env c) (a.before.consumers c).reader).1.isSome = true

/-- One call of `try_recv_any`. -/
def attempt (m : RingMultiplexer n γ τ) (env : Fin n → ε) : Attempt n ε γ τ :=
  ⟨m, env, (m.tryRecvAny recv env).1, (m.tryRecvAny recv env).2⟩

/-- Calls of `try_recv_any`, one behind the other. -/
def attempts : RingMultiplexer n γ τ → List (Fin n → ε) → List (Attempt n ε γ τ)
  | _, [] => []
  | m, env :: envs => m.attempt recv env :: (m.attempt recv env).after.attempts envs

/-- Where they lead. -/
def after : RingMultiplexer n γ τ → List (Fin n → ε) → RingMultiplexer n γ τ
  | m, [] => m
  | m, env :: envs => (m.attempt recv env).after.after envs

/-- The worlds of the calls of `try_recv_any` that `recv_batch_any` makes. -/
def batchEnvs : ℕ → (ℕ → Fin n → ε) → RingMultiplexer n γ τ → List (Fin n → ε)
  | 0, _, _ => []
  | maxItems + 1, env, m =>
    env 0 :: if (m.attempt recv (env 0)).result.isSome then
      batchEnvs maxItems (fun k => env (k + 1)) (m.attempt recv (env 0)).after else []

/-- The worlds of the calls of `try_recv_any` in a run. -/
def runEnvs : RingMultiplexer n γ τ → List (Call n ε) → List (Fin n → ε)
  | _, [] => []
  | m, .tryRecvAny env :: as => env :: (m.call recv (.tryRecvAny env)).2.runEnvs as
  | m, .recvBatchAny maxItems env :: as =>
    batchEnvs recv maxItems env m ++ (m.call recv (.recvBatchAny maxItems env)).2.runEnvs as

/-- What a run promises. -/
structure Fair (readers : Fin n → γ) (calls : List (Call n ε)) : Prop where
  /-- The rotation starts at a channel. -/
  nextIdx : ∀ a ∈ (new readers).attempts recv (runEnvs recv (new readers) calls),
    a.before.nextIdx < n ∧ a.after.nextIdx < n
  final : (run recv (new readers) calls).2.nextIdx < n
  /-- A channel that has a message in `n` successful calls is served by one of them. -/
  served : ∀ (c : Fin n) (front window back : List (Attempt n ε γ τ)),
    (new readers).attempts recv (runEnvs recv (new readers) calls) = front ++ window ++ back →
    (window.filter (·.result.isSome)).length = n →
    (∀ a ∈ window, a.result.isSome = true → a.Ready recv c) →
    ∃ a ∈ window, ∃ msg, a.result = some (c, msg)
  /-- A call that returns nothing polled every channel in vain. -/
  empty : ∀ a ∈ (new readers).attempts recv (runEnvs recv (new readers) calls), a.result = none →
    ∀ c, (recv (a.env c) (a.before.consumers c).reader).1 = none ∧
      a.after.consumers c = ((a.before.consumers c).tryRecv recv (a.env c)).2
  /-- What is returned for a channel is what its `try_recv` returned. -/
  stream : ∀ c, ((run recv (new readers) calls).2.consumers c).received =
    ((run recv (new readers) calls).1.filter (·.1 = c)).map Prod.snd

/-! ## One call -/

section

variable {recv} {env : Fin n → ε} {m m' : RingMultiplexer n γ τ} {c : Fin n} {msg : τ}

theorem channel_ne (hn : 0 < n) (start : ℕ) {j k : ℕ} (hjk : j < k) (hk : k < n) :
    channel hn (start + j) ≠ channel hn (start + k) := by
  intro h
  exact Cyclic.mod_ne_of_lt (show start + j < start + k by omega)
    (show start + k < start + j + n by omega) (congrArg Fin.val h)

/-- Every channel has a position in the rotation. -/
theorem exists_channel (hn : 0 < n) {start : ℕ} (hstart : start < n) (c : Fin n) :
    ∃ k < n, c = channel hn (start + k) := by
  have hc := c.isLt
  rcases Nat.lt_or_ge c.val start with hlt | hge
  · refine ⟨c.val + n - start, by omega, Fin.ext ?_⟩
    change c.val = (start + (c.val + n - start)) % n
    rw [show start + (c.val + n - start) = c.val + n by omega, Nat.add_mod_right,
      Nat.mod_eq_of_lt hc]
  · refine ⟨c.val - start, by omega, Fin.ext ?_⟩
    change c.val = (start + (c.val - start)) % n
    rw [show start + (c.val - start) = c.val by omega, Nat.mod_eq_of_lt hc]

theorem poll_received (c c' : Fin n) :
    ((m.poll recv env c).2.consumers c').received =
      (m.consumers c').received ++ if c' = c then (m.poll recv env c).1.toList else [] := by
  by_cases h : c' = c
  · subst h
    simp only [poll, Function.update_self, if_true, Channel.tryRecv]
  · simp only [poll, Function.update_of_ne h, if_neg h, List.append_nil]

theorem poll_of_ne {c' : Fin n} (h : c' ≠ c) :
    (m.poll recv env c).2.consumers c' = m.consumers c' :=
  Function.update_of_ne h _ _

/-- The loop returned nothing: every channel left was polled in vain. -/
theorem scan_none (hn : 0 < n) {start : ℕ} {m₀ : RingMultiplexer n γ τ} :
    ∀ (left i : ℕ) {m : RingMultiplexer n γ τ}, i + left = n →
      (∀ k, i ≤ k → k < n →
        m.consumers (channel hn (start + k)) = m₀.consumers (channel hn (start + k))) →
      scan recv hn env start left i m = (none, m') →
      m'.nextIdx = m.nextIdx ∧
      (∀ k, i ≤ k → k < n →
        ((m₀.consumers (channel hn (start + k))).tryRecv recv
          (env (channel hn (start + k)))).1 = none ∧
        m'.consumers (channel hn (start + k)) =
          ((m₀.consumers (channel hn (start + k))).tryRecv recv
            (env (channel hn (start + k)))).2) ∧
      ∀ c, (∀ k, i ≤ k → k < n → c ≠ channel hn (start + k)) →
        m'.consumers c = m.consumers c := by
  intro left
  induction left with
  | zero =>
    intro i m hi _ h
    cases h
    exact ⟨rfl, fun k hk hkn => absurd hkn (by omega), fun _ _ => rfl⟩
  | succ left ih =>
    intro i m hi hsame h
    rw [scan] at h
    split at h
    · cases h
    · next m₁ hpoll =>
      have hmsg := congrArg Prod.fst hpoll
      obtain rfl : m₁ = (m.poll recv env (channel hn (start + i))).2 :=
        (congrArg Prod.snd hpoll).symm
      have hself := hsame i (Nat.le_refl i) (by omega)
      -- the channels behind this one were not touched
      obtain ⟨hnext, hvain, hrest⟩ := ih (i + 1) (by omega)
        (fun k hk hkn => by
          rw [poll_of_ne (channel_ne hn start (show i < k by omega) hkn).symm]
          exact hsame k (by omega) hkn) h
      refine ⟨hnext, ?_, ?_⟩
      · intro k hk hkn
        rcases Nat.eq_or_lt_of_le hk with rfl | hlt
        · rw [← hself]
          refine ⟨hmsg, ?_⟩
          rw [hrest _ fun k hik hkn => channel_ne hn start (show i < k by omega) hkn]
          exact Function.update_self _ _ _
        · exact hvain k hlt hkn
      · intro c hc
        rw [hrest c fun k hik hkn => hc k (by omega) hkn,
          poll_of_ne (hc i (Nat.le_refl i) (by omega))]

/-- The loop returned a message: it is that of the first channel that has one. -/
theorem scan_some (hn : 0 < n) {start : ℕ} {m₀ : RingMultiplexer n γ τ} :
    ∀ (left i : ℕ) {m : RingMultiplexer n γ τ}, i + left = n →
      (∀ k, i ≤ k → k < n →
        m.consumers (channel hn (start + k)) = m₀.consumers (channel hn (start + k))) →
      scan recv hn env start left i m = (some (c, msg), m') →
      ∃ j, i ≤ j ∧ j < n ∧ c = channel hn (start + j) ∧
        (∀ k, i ≤ k → k < j → ((m₀.consumers (channel hn (start + k))).tryRecv recv
          (env (channel hn (start + k)))).1 = none) ∧
        m'.nextIdx = (c.val + 1) % n ∧
        ∀ c', (m'.consumers c').received =
          (m.consumers c').received ++ if c' = c then [msg] else [] := by
  intro left
  induction left with
  | zero =>
    intro i m _ _ h
    cases h
  | succ left ih =>
    intro i m hi hsame h
    rw [scan] at h
    split at h
    · next msg' m₁ hpoll =>
      cases h
      refine ⟨i, Nat.le_refl i, by omega, rfl, fun k hk hki => absurd hki (by omega), rfl, ?_⟩
      intro c'
      have hreceived := @poll_received _ _ _ _ recv env m (channel hn (start + i)) c'
      rw [hpoll] at hreceived
      exact hreceived
    · next m₁ hpoll =>
      have hmsg := congrArg Prod.fst hpoll
      obtain rfl : m₁ = (m.poll recv env (channel hn (start + i))).2 :=
        (congrArg Prod.snd hpoll).symm
      obtain ⟨j, hij, hjn, hc, hvain, hnext, hreceived⟩ := ih (i + 1) (by omega)
        (fun k hk hkn => by
          rw [poll_of_ne (channel_ne hn start (show i < k by omega) hkn).symm]
          exact hsame k (by omega) hkn) h
      refine ⟨j, by omega, hjn, hc, ?_, hnext, ?_⟩
      · intro k hk hkj
        rcases Nat.eq_or_lt_of_le hk with rfl | hlt
        · rw [← hsame _ (Nat.le_refl _) (by omega)]
          exact hmsg
        · exact hvain k hlt hkj
      · intro c'
        rw [hreceived c', poll_received, hmsg, Option.toList_none, ite_self, List.append_nil]

/-- A call that returns nothing polled every channel in vain. -/
theorem attempt_none (hnext : m.nextIdx < n) (h : (m.attempt recv env).result = none) :
    (m.attempt recv env).after.nextIdx = m.nextIdx ∧
      ∀ c, ((m.consumers c).tryRecv recv (env c)).1 = none ∧
        (m.attempt recv env).after.consumers c = ((m.consumers c).tryRecv recv (env c)).2 := by
  have hn : 0 < n := Nat.zero_lt_of_lt hnext
  have hscan : scan recv hn env m.nextIdx n 0 m = (none, (m.attempt recv env).after) := by
    simp only [attempt, tryRecvAny, dif_pos hn] at h ⊢
    rw [← h]
  obtain ⟨hsame, hvain, -⟩ := scan_none hn n 0 (Nat.zero_add n) (fun _ _ _ => rfl) hscan
  refine ⟨hsame, fun c => ?_⟩
  obtain ⟨k, hk, rfl⟩ := exists_channel hn hnext c
  exact hvain k (Nat.zero_le k) hk

/-- A call that returns a message returns that of the first channel that has one, and the next
call starts behind it. -/
theorem attempt_some (hn : 0 < n) (h : (m.attempt recv env).result = some (c, msg)) :
    (∃ j < n, c = channel hn (m.nextIdx + j) ∧
      ∀ k < j, ((m.consumers (channel hn (m.nextIdx + k))).tryRecv recv
        (env (channel hn (m.nextIdx + k)))).1 = none) ∧
      (m.attempt recv env).after.nextIdx = (c.val + 1) % n ∧
      ∀ c', ((m.attempt recv env).after.consumers c').received =
        (m.consumers c').received ++ if c' = c then [msg] else [] := by
  have hscan : scan recv hn env m.nextIdx n 0 m =
      (some (c, msg), (m.attempt recv env).after) := by
    simp only [attempt, tryRecvAny, dif_pos hn] at h ⊢
    rw [← h]
  obtain ⟨j, -, hj, hc, hvain, hnext, hreceived⟩ :=
    scan_some hn n 0 (Nat.zero_add n) (fun _ _ _ => rfl) hscan
  exact ⟨⟨j, hj, hc, fun k hk => hvain k (Nat.zero_le k) hk⟩, hnext, hreceived⟩

theorem attempt_nextIdx_lt (hnext : m.nextIdx < n) :
    (m.attempt recv env).after.nextIdx < n := by
  cases h : (m.attempt recv env).result with
  | none => rw [(attempt_none hnext h).1]; exact hnext
  | some item =>
    have hn : 0 < n := Nat.zero_lt_of_lt hnext
    rw [(attempt_some hn h).2.1]
    exact Nat.mod_lt _ hn

/-- A call hands on what the channels return. -/
theorem attempt_received (hnext : m.nextIdx < n) (c : Fin n) :
    ((m.attempt recv env).after.consumers c).received =
      (m.consumers c).received ++
        (((m.attempt recv env).result.toList).filter (·.1 = c)).map Prod.snd := by
  cases h : (m.attempt recv env).result with
  | none =>
    obtain ⟨hvain, hafter⟩ := (attempt_none hnext h).2 c
    rw [hafter]
    change (m.consumers c).received ++ ((m.consumers c).tryRecv recv (env c)).1.toList = _
    rw [hvain]
    rfl
  | some item =>
    rw [(attempt_some (Nat.zero_lt_of_lt hnext) h).2.2 c, Option.toList_some]
    rcases eq_or_ne c item.1 with hc | hne
    · simp only [List.filter_cons, hc, decide_true, if_true, List.filter_nil,
        List.map_cons, List.map_nil]
    · simp only [if_neg hne, List.filter_cons, hne.symm, decide_false, Bool.false_eq_true,
        if_false, List.filter_nil, List.map_nil]

/-! ## Calls one behind the other -/

theorem attempts_append (envs envs' : List (Fin n → ε)) :
    ∀ m : RingMultiplexer n γ τ, m.attempts recv (envs ++ envs') =
      m.attempts recv envs ++ (m.after recv envs).attempts recv envs' := by
  induction envs with
  | nil => exact fun m => rfl
  | cons env envs ih =>
    intro m
    rw [List.cons_append, attempts, attempts, List.cons_append, ih]
    rfl

theorem after_append (envs envs' : List (Fin n → ε)) :
    ∀ m : RingMultiplexer n γ τ,
      m.after recv (envs ++ envs') = (m.after recv envs).after recv envs' := by
  induction envs with
  | nil => exact fun m => rfl
  | cons env envs ih =>
    intro m
    rw [List.cons_append, after, ih]
    rfl

/-- A part of a run is a run. -/
theorem attempts_eq_append {back : List (Attempt n ε γ τ)} :
    ∀ (front : List (Attempt n ε γ τ)) {m : RingMultiplexer n γ τ} {envs : List (Fin n → ε)},
      m.attempts recv envs = front ++ back →
      ∃ envs₁ envs₂, envs = envs₁ ++ envs₂ ∧ m.attempts recv envs₁ = front ∧
        (m.after recv envs₁).attempts recv envs₂ = back := by
  intro front
  induction front with
  | nil =>
    intro m envs h
    exact ⟨[], envs, rfl, rfl, h⟩
  | cons a front ih =>
    intro m envs h
    cases envs with
    | nil => cases h
    | cons env envs =>
      obtain ⟨ha, hrest⟩ := List.cons.inj h
      obtain ⟨envs₁, envs₂, rfl, hfront, hback⟩ := ih hrest
      refine ⟨env :: envs₁, envs₂, rfl, ?_, hback⟩
      rw [attempts, hfront, ← ha]

theorem after_nextIdx_lt (envs : List (Fin n → ε)) :
    ∀ {m : RingMultiplexer n γ τ}, m.nextIdx < n → (m.after recv envs).nextIdx < n := by
  induction envs with
  | nil => exact fun h => h
  | cons env envs ih => exact fun h => ih (attempt_nextIdx_lt h)

/-- Every call of a run starts where the calls before it led. -/
theorem mem_attempts {a : Attempt n ε γ τ} {envs : List (Fin n → ε)} (hnext : m.nextIdx < n)
    (h : a ∈ m.attempts recv envs) :
    a.before.nextIdx < n ∧ a = a.before.attempt recv a.env := by
  obtain ⟨front, back, hsplit⟩ := List.append_of_mem h
  obtain ⟨envs₁, envs₂, -, -, hback⟩ := attempts_eq_append front hsplit
  cases envs₂ with
  | nil => cases hback
  | cons env envs₂ =>
    obtain ⟨rfl, -⟩ := List.cons.inj hback
    exact ⟨after_nextIdx_lt envs₁ hnext, rfl⟩

/-- What the calls return for a channel is what the channel returned. -/
theorem after_received (envs : List (Fin n → ε)) (c : Fin n) :
    ∀ {m : RingMultiplexer n γ τ}, m.nextIdx < n →
      ((m.after recv envs).consumers c).received = (m.consumers c).received ++
        (((m.attempts recv envs).flatMap (·.result.toList)).filter (·.1 = c)).map Prod.snd := by
  induction envs with
  | nil => exact fun _ => (List.append_nil _).symm
  | cons env envs ih =>
    intro m hnext
    rw [after, ih (attempt_nextIdx_lt hnext), attempt_received hnext, attempts,
      List.flatMap_cons, List.filter_append, List.map_append, List.append_assoc]

/-! ## A round of the rotation -/

/-- **Every successful call brings the rotation closer to a channel that has a message and is not
served.** -/
theorem attempts_distance (hn : 0 < n) {c : Fin n} (envs : List (Fin n → ε)) :
    ∀ {m : RingMultiplexer n γ τ} {d : ℕ}, m.nextIdx < n → c = channel hn (m.nextIdx + d) →
      (∀ a ∈ m.attempts recv envs, a.result.isSome = true → a.Ready recv c) →
      (∀ a ∈ m.attempts recv envs, ∀ msg, a.result ≠ some (c, msg)) →
      ((m.attempts recv envs).filter (·.result.isSome)).length ≤ d := by
  induction envs with
  | nil => exact fun _ _ _ _ => Nat.zero_le _
  | cons env envs ih =>
    intro m d hnext hc hready hother
    have hready' := fun a ha => hready a (List.mem_cons_of_mem (m.attempt recv env) ha)
    have hother' := fun a ha => hother a (List.mem_cons_of_mem (m.attempt recv env) ha)
    have hfirst := hother (m.attempt recv env) List.mem_cons_self
    have hlt : (m.attempt recv env).after.nextIdx < n := attempt_nextIdx_lt hnext
    rw [attempts]
    cases h : (m.attempt recv env).result with
    | none =>
      rw [List.filter_cons_of_neg (by rw [h]; exact Bool.false_ne_true)]
      refine ih hlt ?_ hready' hother'
      rw [(attempt_none hnext h).1]
      exact hc
    | some item =>
      obtain ⟨⟨j, hj, hitem, hvain⟩, hafter, -⟩ := attempt_some hn h
      have hmsg : ((m.consumers c).tryRecv recv (env c)).1.isSome = true :=
        hready (m.attempt recv env) List.mem_cons_self (by rw [h]; rfl)
      -- the channel served is in front of `c` in the rotation
      have hjd : j < d := by
        rcases Nat.lt_trichotomy j d with hlt | rfl | hgt
        · exact hlt
        · refine absurd h ?_
          rw [show item = (c, item.2) from Prod.ext (hitem.trans hc.symm) rfl]
          exact hfirst item.2
        · have hnone := hvain d hgt
          rw [← hc] at hnone
          rw [hnone] at hmsg
          cases hmsg
      have hc' : c = channel hn ((m.attempt recv env).after.nextIdx + (d - j - 1)) := by
        rw [hc, hafter, hitem]
        apply Fin.ext
        change (m.nextIdx + d) % n =
          (((m.nextIdx + j) % n + 1) % n + (d - j - 1)) % n
        rw [Nat.mod_add_mod, Nat.add_assoc, Nat.mod_add_mod]
        congr 1
        omega
      have hrest := ih hlt hc' hready' hother'
      rw [List.filter_cons_of_pos (by rw [h]; rfl), List.length_cons]
      omega

/-- **A channel that has a message in `n` successful calls is served by one of them.** -/
theorem attempts_served {c : Fin n} {envs : List (Fin n → ε)} (hnext : m.nextIdx < n)
    (hround : ((m.attempts recv envs).filter (·.result.isSome)).length = n)
    (hready : ∀ a ∈ m.attempts recv envs, a.result.isSome = true → a.Ready recv c) :
    ∃ a ∈ m.attempts recv envs, ∃ msg, a.result = some (c, msg) := by
  by_contra hcon
  have hn : 0 < n := Nat.zero_lt_of_lt hnext
  obtain ⟨d, hd, hc⟩ := exists_channel hn hnext c
  have hle := attempts_distance hn envs hnext hc hready
    fun a ha msg hres => hcon ⟨a, ha, msg, hres⟩
  omega

/-! ## The calls of a run -/

/-- `recv_batch_any` is a number of calls of `try_recv_any`. -/
theorem recvBatchAny_eq (maxItems : ℕ) :
    ∀ (env : ℕ → Fin n → ε) (m : RingMultiplexer n γ τ), m.recvBatchAny recv maxItems env =
      ((m.attempts recv (batchEnvs recv maxItems env m)).flatMap (·.result.toList),
        m.after recv (batchEnvs recv maxItems env m)) := by
  induction maxItems with
  | zero => exact fun _ _ => rfl
  | succ maxItems ih =>
    intro env m
    rw [recvBatchAny, batchEnvs]
    cases h : m.tryRecvAny recv (env 0) with
    | mk result m' =>
      have hres : (m.attempt recv (env 0)).result = result := congrArg Prod.fst h
      have hafter : (m.attempt recv (env 0)).after = m' := congrArg Prod.snd h
      cases result with
      | none => simp only [attempts, after, hres, hafter, Option.isSome_none, Bool.false_eq_true,
          if_false, List.flatMap_cons, Option.toList_none, List.flatMap_nil, List.append_nil]
      | some item => simp only [attempts, after, hres, hafter, Option.isSome_some, if_true,
          List.flatMap_cons, Option.toList_some, List.singleton_append, ih]

/-- A run is a number of calls of `try_recv_any`. -/
theorem run_eq (calls : List (Call n ε)) :
    ∀ m : RingMultiplexer n γ τ, run recv m calls =
      ((m.attempts recv (runEnvs recv m calls)).flatMap (·.result.toList),
        m.after recv (runEnvs recv m calls)) := by
  induction calls with
  | nil => exact fun m => rfl
  | cons a calls ih =>
    intro m
    cases a with
    | tryRecvAny env =>
      simp only [run, ih, runEnvs, attempts, after, List.flatMap_cons]
      rfl
    | recvBatchAny maxItems env =>
      simp only [run, ih, runEnvs, attempts_append, after_append, List.flatMap_append, call,
        recvBatchAny_eq]

end

/-- What a run returned for a channel is what its `try_recv` returned. -/
theorem run_received (hn : 0 < n) (readers : Fin n → γ) (calls : List (Call n ε)) (c : Fin n) :
    ((run recv (new readers) calls).2.consumers c).received =
      ((run recv (new readers) calls).1.filter (·.1 = c)).map Prod.snd := by
  have hnext : (new readers : RingMultiplexer n γ τ).nextIdx < n := hn
  rw [run_eq]
  exact (after_received _ c hnext).trans (List.nil_append _)

/-- **Every run of a multiplexer is fair**, for any number of channels but none, whatever the rings
do meanwhile. -/
theorem fair (hn : 0 < n) (readers : Fin n → γ) (calls : List (Call n ε)) :
    Fair recv readers calls := by
  have hnext : (new readers : RingMultiplexer n γ τ).nextIdx < n := hn
  refine ⟨?_, ?_, ?_, ?_, run_received recv hn readers calls⟩
  · intro a ha
    obtain ⟨hlt, heq⟩ := mem_attempts hnext ha
    refine ⟨hlt, ?_⟩
    rw [heq]
    exact attempt_nextIdx_lt hlt
  · rw [run_eq]
    exact after_nextIdx_lt _ hnext
  · intro c front window back hsplit hround hready
    rw [List.append_assoc] at hsplit
    obtain ⟨envs₁, envs₂, -, -, hrest⟩ := attempts_eq_append front hsplit
    obtain ⟨envs₃, envs₄, -, rfl, -⟩ := attempts_eq_append window hrest
    exact attempts_served (after_nextIdx_lt envs₁ hnext) hround hready
  · intro a ha hres c
    obtain ⟨hlt, heq⟩ := mem_attempts hnext ha
    rw [heq] at hres ⊢
    exact (attempt_none hlt hres).2 c

/-! ## What every poll preserves -/

section

variable {recv} {P : Fin n → Channel γ τ → Prop}

/-- What every poll of a channel preserves, every call preserves. -/
theorem scan_invariant (hpoll : ∀ c env ch, P c ch → P c (ch.tryRecv recv env).2) (hn : 0 < n)
    {env : Fin n → ε} {start : ℕ} (left : ℕ) :
    ∀ (i : ℕ) {m : RingMultiplexer n γ τ}, (∀ c, P c (m.consumers c)) →
      ∀ c, P c ((scan recv hn env start left i m).2.consumers c) := by
  induction left with
  | zero => exact fun _ _ h => h
  | succ left ih =>
    intro i m h
    have hupdate : ∀ c, P c ((m.poll recv env (channel hn (start + i))).2.consumers c) := by
      intro c
      by_cases hc : c = channel hn (start + i)
      · subst hc
        simp only [poll, Function.update_self]
        exact hpoll _ _ _ (h _)
      · rw [poll_of_ne hc]
        exact h c
    rw [scan]
    split
    · next hmatch =>
      rw [hmatch] at hupdate
      exact hupdate
    · next hmatch =>
      rw [hmatch] at hupdate
      exact ih (i + 1) hupdate

theorem after_invariant (hpoll : ∀ c env ch, P c ch → P c (ch.tryRecv recv env).2)
    (envs : List (Fin n → ε)) :
    ∀ {m : RingMultiplexer n γ τ}, (∀ c, P c (m.consumers c)) →
      ∀ c, P c ((m.after recv envs).consumers c) := by
  induction envs with
  | nil => exact fun h => h
  | cons env envs ih =>
    intro m h
    refine ih ?_
    intro c
    simp only [attempt, tryRecvAny]
    split_ifs with hn
    · exact scan_invariant hpoll hn n 0 h c
    · exact h c

end

end RingMultiplexer

/-! ## Channels that are rings -/

namespace RingConsumer

variable {w : ℕ} {ω : Type} {cap : Capacity}

/-- A ring as a poll finds it. -/
structure Snapshot (w : ℕ) (ω : Type) where
  slots : ℕ → Slot w ω
  writeSeq : ℕ
  fuel : ℕ

/-- `try_recv`, on a ring that is not written during the poll. -/
def tryRecvNow (cap : Capacity) (env : Snapshot w ω) (c : RingConsumer w ω) :
    Option (Payload w ω) × RingConsumer w ω :=
  match c.recvStatus cap env.slots env.writeSeq env.fuel with
  | some (.ok data, c') | some (.lapped _ data, c') => (some data, c')
  | some (.empty, c') => (none, c')
  | none => (none, c)

theorem skipOverwrittenNow_delivered (writeSeq : ℕ) (c : RingConsumer w ω) (seen : ℕ) :
    (c.skipOverwrittenNow cap writeSeq seen).2.delivered = c.delivered := by
  simp only [skipOverwrittenNow, Account.skipOverwritten]
  split_ifs <;> rfl

theorem skipHole_delivered (slots : ℕ → Slot w ω) (writeSeq : ℕ) (c : RingConsumer w ω) :
    (c.skipHole cap slots writeSeq).2.delivered = c.delivered := by
  simp only [skipHole, Account.skipHole]
  split_ifs <;> rfl

/-- The message a turn of the loop found. -/
def found : Turn (Payload w ω) → Option (Payload w ω)
  | .item data => some data
  | .empty | .skip _ => none

/-- A turn puts the message it found, and no other, on the account of the consumer. -/
theorem turn_delivered (slots : ℕ → Slot w ω) (writeSeq : ℕ) (c : RingConsumer w ω) :
    (c.turn cap slots writeSeq).2.delivered.map Prod.snd =
      c.delivered.map Prod.snd ++ (found (c.turn cap slots writeSeq).1).toList := by
  unfold turn
  cases readSlot (slots (slotIndex cap c.cursor)) c.cursor with
  | item data => exact List.map_append
  | overwritten seen =>
    simp only
    split_ifs with hzero
    · exact (List.append_nil _).symm
    · rw [skipOverwrittenNow_delivered]
      exact (List.append_nil _).symm
  | pending =>
    simp only
    split_ifs with hmulti hahead hsparse hpoll hskip
    · rw [skipOverwrittenNow_delivered]
      exact (List.append_nil _).symm
    · exact (List.append_nil _).symm
    · rw [skipHole_delivered]
      exact (List.append_nil _).symm
    · rw [skipHole_delivered]
      exact (List.append_nil _).symm
    · exact (List.append_nil _).symm
    · exact (List.append_nil _).symm

theorem nextItem_delivered {slots : ℕ → Slot w ω} {writeSeq : ℕ} (fuel : ℕ) :
    ∀ {c c' : RingConsumer w ω} {item : Option (Payload w ω)} {skipped skipped' : ℕ},
      c.nextItem cap slots writeSeq fuel skipped = some (item, skipped', c') →
      c'.delivered.map Prod.snd = c.delivered.map Prod.snd ++ item.toList := by
  induction fuel with
  | zero =>
    intro c c' item skipped skipped' h
    cases h
  | succ fuel ih =>
    intro c c' item skipped skipped' h
    have hturn := @turn_delivered _ _ cap slots writeSeq c
    rw [nextItem] at h
    split at h
    · next hmatch =>
      cases h
      rw [hmatch] at hturn
      exact hturn
    · next hmatch =>
      cases h
      rw [hmatch] at hturn
      exact hturn
    · next hmatch =>
      rw [hmatch] at hturn
      rw [ih h, hturn]
      exact congrArg (· ++ _) (List.append_nil _)

/-- A receive puts the message it returns, and no other, on the account of the consumer. -/
theorem tryRecvNow_delivered (env : Snapshot w ω) (c : RingConsumer w ω) :
    (c.tryRecvNow cap env).2.delivered.map Prod.snd =
      c.delivered.map Prod.snd ++ (c.tryRecvNow cap env).1.toList := by
  rw [tryRecvNow, recvStatus]
  cases h : c.nextItem cap env.slots env.writeSeq env.fuel 0 with
  | none => exact (List.append_nil _).symm
  | some r =>
    obtain ⟨item, skipped, c'⟩ := r
    have hnext := nextItem_delivered env.fuel h
    cases item with
    | none => exact hnext
    | some data =>
      simp only [statusOf]
      split_ifs
      · exact hnext
      · exact hnext

end RingConsumer

/-- **What a multiplexer returns for a ring is what its consumer delivers**, in order and with
nothing left out. -/
theorem RingMultiplexer.delivered_eq {w : ℕ} {ω : Type} {cap : Capacity} (hn : 0 < n)
    (readers : Fin n → RingConsumer w ω) (calls : List (Call n (RingConsumer.Snapshot w ω)))
    (c : Fin n) :
    ((run (RingConsumer.tryRecvNow cap) (new readers) calls).2.consumers c).reader.delivered.map
        Prod.snd =
      (readers c).delivered.map Prod.snd ++
        ((run (RingConsumer.tryRecvNow cap) (new readers) calls).1.filter (·.1 = c)).map
          Prod.snd := by
  have hpoll : ∀ (c : Fin n) (env : RingConsumer.Snapshot w ω)
      (ch : Channel (RingConsumer w ω) (Payload w ω)),
      ch.reader.delivered.map Prod.snd = (readers c).delivered.map Prod.snd ++ ch.received →
        (ch.tryRecv (RingConsumer.tryRecvNow cap) env).2.reader.delivered.map Prod.snd =
          (readers c).delivered.map Prod.snd ++
            (ch.tryRecv (RingConsumer.tryRecvNow cap) env).2.received := by
    intro c env ch hch
    simp only [Channel.tryRecv]
    rw [RingConsumer.tryRecvNow_delivered, hch, List.append_assoc]
  rw [← run_received (RingConsumer.tryRecvNow cap) hn readers calls c, run_eq]
  exact after_invariant (P := fun c (ch : Channel (RingConsumer w ω) (Payload w ω)) =>
    ch.reader.delivered.map Prod.snd = (readers c).delivered.map Prod.snd ++ ch.received)
    hpoll _ (m := new readers) (fun c => (List.append_nil _).symm) c

/-- A ring of one slot that holds message `seq`. -/
def RingMultiplexer.holding (seq x : ℕ) : RingConsumer.Snapshot 1 ℕ :=
  ⟨fun _ => ⟨seq, fun _ => x⟩, seq, 2⟩

/-- Two rings hold a message each; the first gets another one while the batch is received. -/
def RingMultiplexer.twoRings : List (Call 2 (RingConsumer.Snapshot 1 ℕ)) :=
  [.tryRecvAny fun c => if c = 0 then holding 1 10 else holding 1 20,
    .recvBatchAny 8 fun k c => if c = 0 then holding (if k = 0 then 1 else 2) (10 + k)
      else holding 1 20]

/-- Two rings that have messages take turns. -/
theorem RingMultiplexer.fair_two :
    Fair (RingConsumer.tryRecvNow System.oneSlot.cap)
      (fun _ : Fin 2 => (RingConsumer.attach false false false 1 0 : RingConsumer 1 ℕ)) twoRings ∧
    (run (RingConsumer.tryRecvNow System.oneSlot.cap)
      (new fun _ : Fin 2 => (RingConsumer.attach false false false 1 0 : RingConsumer 1 ℕ))
        twoRings).1.map (fun r => (r.1, r.2 onlyWord)) = [(0, 10), (1, 20), (0, 11)] :=
  ⟨fair _ Nat.zero_lt_two _ _, by decide⟩

end Ringfire
