import Ringfire.Ring.Multiplexer

/-!
# Polling by priority

`try_recv_priority` of `multiplexer.rs` polls the channels from the first one on, whatever the
rotation of `try_recv_any` is at. A caller may mix the two: the rotation stays where it is, so what
`try_recv_any` promises is promised still.

## Main definitions

* `RingMultiplexer.tryRecvPriority`
* `RingMultiplexer.mixedAttempts`: the calls of a run that mixes the two

## Main results

* `mixed_served`: among the calls of `try_recv_any`, a channel that always has a message is served
  once in a round
* `priority_mixed`: what every such run promises
-/

namespace Ringfire

namespace RingMultiplexer

variable {n : ℕ} {ε γ τ : Type} (recv : ε → γ → Option τ × γ)

/-- The loop of `try_recv_priority`. -/
def scanPriority (env : Fin n → ε) :
    List (Fin n) → RingMultiplexer n γ τ → Option (Fin n × τ) × RingMultiplexer n γ τ
  | [], m => (none, m)
  | idx :: rest, m =>
    match m.poll recv env idx with
    | (some msg, m') => (some (idx, msg), m')
    | (none, m') => scanPriority env rest m'

/-- `try_recv_priority`. -/
def tryRecvPriority (env : Fin n → ε) (m : RingMultiplexer n γ τ) :
    Option (Fin n × τ) × RingMultiplexer n γ τ :=
  scanPriority recv env (List.finRange n) m

/-- What the `try_recv` of a channel returns, if it comes to it. -/
def answer (env : Fin n → ε) (m : RingMultiplexer n γ τ) (c : Fin n) : Option τ :=
  (recv (env c) (m.consumers c).reader).1

/-! ## Runs -/

/-- A call of either kind, and the world while it is made. -/
inductive MixedCall (n : ℕ) (ε : Type) where
  | tryRecvAny (env : Fin n → ε)
  | tryRecvPriority (env : Fin n → ε)

/-- The world while the call is made. -/
def MixedCall.env : MixedCall n ε → Fin n → ε
  | .tryRecvAny env | .tryRecvPriority env => env

/-- A call within a run. -/
structure MixedAttempt (n : ℕ) (ε γ τ : Type) where
  before : RingMultiplexer n γ τ
  call : MixedCall n ε
  result : Option (Fin n × τ)
  after : RingMultiplexer n γ τ

/-- It is a call of `try_recv_any` that returns a message. -/
def MixedAttempt.rotates (a : MixedAttempt n ε γ τ) : Bool :=
  match a.call with
  | .tryRecvAny _ => a.result.isSome
  | .tryRecvPriority _ => false

/-- One call. -/
def mixedAttempt (m : RingMultiplexer n γ τ) : MixedCall n ε → MixedAttempt n ε γ τ
  | .tryRecvAny env =>
    ⟨m, .tryRecvAny env, (m.tryRecvAny recv env).1, (m.tryRecvAny recv env).2⟩
  | .tryRecvPriority env =>
    ⟨m, .tryRecvPriority env, (m.tryRecvPriority recv env).1, (m.tryRecvPriority recv env).2⟩

/-- Calls, one behind the other. -/
def mixedAttempts : RingMultiplexer n γ τ → List (MixedCall n ε) → List (MixedAttempt n ε γ τ)
  | _, [] => []
  | m, a :: as => m.mixedAttempt recv a :: (m.mixedAttempt recv a).after.mixedAttempts as

/-- Where they lead. -/
def mixedAfter : RingMultiplexer n γ τ → List (MixedCall n ε) → RingMultiplexer n γ τ
  | m, [] => m
  | m, a :: as => (m.mixedAttempt recv a).after.mixedAfter as

/-- The message of the channel would be returned in this call, if it came to it. -/
def MixedAttempt.Ready (a : MixedAttempt n ε γ τ) (c : Fin n) : Prop :=
  (a.before.answer recv a.call.env c).isSome = true

/-- What a run promises. -/
structure Mixed (readers : Fin n → γ) (calls : List (MixedCall n ε)) : Prop where
  /-- A call by priority returns the message of the first channel that has one, and does not poll
  those behind it. -/
  first : ∀ a ∈ (new readers).mixedAttempts recv calls, ∀ env, a.call = .tryRecvPriority env →
    ∀ c msg, (a.result = some (c, msg) ↔ a.before.answer recv env c = some msg ∧
      ∀ c' < c, a.before.answer recv env c' = none) ∧
    (a.result = some (c, msg) → ∀ c', c < c' → a.after.consumers c' = a.before.consumers c')
  /-- It returns nothing where no channel has a message. -/
  empty : ∀ a ∈ (new readers).mixedAttempts recv calls, ∀ env, a.call = .tryRecvPriority env →
    (a.result = none ↔ ∀ c, a.before.answer recv env c = none)
  /-- Among the other calls a channel that has a message in `n` successful ones is served by one
  of them. -/
  served : ∀ (c : Fin n) (front window back : List (MixedAttempt n ε γ τ)),
    (new readers).mixedAttempts recv calls = front ++ window ++ back →
    (window.filter (·.rotates)).length = n →
    (∀ a ∈ window, a.rotates = true → a.Ready recv c) →
    ∃ a ∈ window, a.rotates = true ∧ ∃ msg, a.result = some (c, msg)
  /-- What is returned for a channel, by calls of either kind, is what its `try_recv` returned. -/
  stream : ∀ c, (((new readers).mixedAfter recv calls).consumers c).received =
    ((((new readers).mixedAttempts recv calls).flatMap (·.result.toList)).filter (·.1 = c)).map
      Prod.snd

/-! ## One call -/

section

variable {recv} {env : Fin n → ε} {m m₀ : RingMultiplexer n γ τ} {c c' : Fin n} {msg : τ}

theorem poll_answer (h : m.consumers c = m₀.consumers c) :
    (m.poll recv env c).1 = m₀.answer recv env c := by
  simp only [poll, Channel.tryRecv, answer, h]

/-- The rest of the channels are as they were. -/
theorem poll_rest {rest : List (Fin n)} (hlt : ∀ c' ∈ rest, c < c')
    (h : ∀ c' ∈ rest, m.consumers c' = m₀.consumers c') :
    ∀ c' ∈ rest, (m.poll recv env c).2.consumers c' = m₀.consumers c' := fun c' hc' =>
  (poll_of_ne (hlt c' hc').ne').trans (h c' hc')

/-- The loop returns the message of the first channel that has one. -/
theorem scanPriority_some (l : List (Fin n)) :
    ∀ {m : RingMultiplexer n γ τ}, l.Pairwise (· < ·) →
      (∀ c ∈ l, m.consumers c = m₀.consumers c) →
      ((scanPriority recv env l m).1 = some (c, msg) ↔
        c ∈ l ∧ m₀.answer recv env c = some msg ∧
          ∀ c' ∈ l, c' < c → m₀.answer recv env c' = none) := by
  induction l with
  | nil =>
    intro m _ _
    simp [scanPriority]
  | cons idx rest ih =>
    intro m hl hsame
    obtain ⟨hlt, hrest⟩ := List.pairwise_cons.mp hl
    have hidx : (m.poll recv env idx).1 = m₀.answer recv env idx :=
      poll_answer (hsame idx List.mem_cons_self)
    have hafter : ∀ c' ∈ rest, (m.poll recv env idx).2.consumers c' = m₀.consumers c' :=
      poll_rest hlt fun c' hc' => hsame c' (List.mem_cons_of_mem idx hc')
    rw [scanPriority]
    generalize m.poll recv env idx = r at hidx hafter
    obtain ⟨result, m'⟩ := r
    change result = _ at hidx
    cases result with
    | some first =>
      constructor
      · rintro ⟨⟩
        refine ⟨List.mem_cons_self, hidx.symm, fun c' hc' hlt' => ?_⟩
        rcases List.mem_cons.mp hc' with rfl | hc'
        · exact absurd hlt' (lt_irrefl _)
        · exact absurd hlt' (hlt c' hc').asymm
      · rintro ⟨hc, hmsg, hvain⟩
        rcases List.mem_cons.mp hc with rfl | hc
        · rw [hmsg] at hidx
          cases hidx
          rfl
        · rw [hvain idx List.mem_cons_self (hlt c hc)] at hidx
          cases hidx
    | none =>
      refine (ih hrest hafter).trans ⟨?_, ?_⟩
      · rintro ⟨hc, hmsg, hvain⟩
        refine ⟨List.mem_cons_of_mem idx hc, hmsg, fun c' hc' hlt' => ?_⟩
        rcases List.mem_cons.mp hc' with rfl | hc'
        · exact hidx.symm
        · exact hvain c' hc' hlt'
      · rintro ⟨hc, hmsg, hvain⟩
        rcases List.mem_cons.mp hc with rfl | hc
        · rw [hmsg] at hidx
          cases hidx
        · exact ⟨hc, hmsg, fun c' hc' => hvain c' (List.mem_cons_of_mem idx hc')⟩

/-- It returns nothing where every channel is polled in vain. -/
theorem scanPriority_none (l : List (Fin n)) :
    ∀ {m : RingMultiplexer n γ τ}, l.Pairwise (· < ·) →
      (∀ c ∈ l, m.consumers c = m₀.consumers c) →
      ((scanPriority recv env l m).1 = none ↔ ∀ c ∈ l, m₀.answer recv env c = none) := by
  induction l with
  | nil =>
    intro m _ _
    simp [scanPriority]
  | cons idx rest ih =>
    intro m hl hsame
    obtain ⟨hlt, hrest⟩ := List.pairwise_cons.mp hl
    have hidx : (m.poll recv env idx).1 = m₀.answer recv env idx :=
      poll_answer (hsame idx List.mem_cons_self)
    have hafter : ∀ c' ∈ rest, (m.poll recv env idx).2.consumers c' = m₀.consumers c' :=
      poll_rest hlt fun c' hc' => hsame c' (List.mem_cons_of_mem idx hc')
    rw [scanPriority, List.forall_mem_cons, ← hidx]
    generalize m.poll recv env idx = r at hafter
    obtain ⟨result, m'⟩ := r
    cases result with
    | some first => simp
    | none => simpa using ih hrest hafter

/-- The channels behind the one served are not polled. -/
theorem scanPriority_of_lt (l : List (Fin n)) :
    ∀ {m : RingMultiplexer n γ τ}, l.Pairwise (· < ·) →
      (scanPriority recv env l m).1 = some (c, msg) → c < c' →
      (scanPriority recv env l m).2.consumers c' = m.consumers c' := by
  induction l with
  | nil =>
    intro m _ h
    cases h
  | cons idx rest ih =>
    intro m hl h hlt
    obtain ⟨hidx, hrest⟩ := List.pairwise_cons.mp hl
    have hle : idx ≤ c := by
      have hsame (k : Fin n) (_ : k ∈ idx :: rest) : m.consumers k = m.consumers k := rfl
      have hc : c ∈ idx :: rest := ((scanPriority_some _ hl hsame).mp h).1
      rcases List.mem_cons.mp hc with rfl | hc
      · exact le_refl _
      · exact (hidx c hc).le
    have hother : (m.poll recv env idx).2.consumers c' = m.consumers c' :=
      poll_of_ne (hle.trans_lt hlt).ne'
    rw [scanPriority] at h ⊢
    generalize m.poll recv env idx = r at h hother
    obtain ⟨result, m'⟩ := r
    cases result with
    | some first => exact hother
    | none => exact (ih hrest h hlt).trans hother

/-- The rotation stays where it is. -/
theorem scanPriority_nextIdx (l : List (Fin n)) :
    ∀ m : RingMultiplexer n γ τ, (scanPriority recv env l m).2.nextIdx = m.nextIdx := by
  induction l with
  | nil => exact fun _ => rfl
  | cons idx rest ih =>
    intro m
    have hpoll : (m.poll recv env idx).2.nextIdx = m.nextIdx := rfl
    rw [scanPriority]
    generalize m.poll recv env idx = r at hpoll
    obtain ⟨result, m'⟩ := r
    cases result with
    | some first => exact hpoll
    | none => exact (ih m').trans hpoll

/-- A call hands on what the channels return. -/
theorem scanPriority_received (l : List (Fin n)) (c : Fin n) :
    ∀ m : RingMultiplexer n γ τ, ((scanPriority recv env l m).2.consumers c).received =
      (m.consumers c).received ++
        ((scanPriority recv env l m).1.toList.filter (·.1 = c)).map Prod.snd := by
  induction l with
  | nil =>
    intro m
    exact (List.append_nil _).symm
  | cons idx rest ih =>
    intro m
    have hpoll : ((m.poll recv env idx).2.consumers c).received = (m.consumers c).received ++
        if c = idx then (m.poll recv env idx).1.toList else [] := poll_received idx c
    rw [scanPriority]
    generalize m.poll recv env idx = r at hpoll
    obtain ⟨result, m'⟩ := r
    cases result with
    | some first =>
      refine hpoll.trans ?_
      rcases eq_or_ne c idx with rfl | hne
      · simp
      · simp [hne, hne.symm]
    | none =>
      rw [ih m', hpoll]
      simp

/-- **A call brings the rotation closer to a channel that has a message and is not served.** -/
theorem attempt_nearer (hn : 0 < n) {d : ℕ} {item : Fin n × τ}
    (hc : c = channel hn (m.nextIdx + d)) (hready : (m.answer recv env c).isSome = true)
    (h : (m.attempt recv env).result = some item) (hother : item.1 ≠ c) :
    ∃ d' < d, c = channel hn ((m.attempt recv env).after.nextIdx + d') := by
  obtain ⟨⟨j, hj, hitem, hvain⟩, hafter, -⟩ := attempt_some hn h
  have hjd : j < d := by
    rcases Nat.lt_trichotomy j d with hlt | rfl | hgt
    · exact hlt
    · exact absurd (hitem.trans hc.symm) hother
    · have hnone : m.answer recv env c = none := hc ▸ hvain d hgt
      rw [hnone] at hready
      cases hready
  refine ⟨d - j - 1, by omega, ?_⟩
  rw [hc, hafter, hitem]
  apply Fin.ext
  change (m.nextIdx + d) % n = (((m.nextIdx + j) % n + 1) % n + (d - j - 1)) % n
  rw [Nat.mod_add_mod, Nat.add_assoc, Nat.mod_add_mod]
  congr 1
  omega

theorem mixedAttempt_nextIdx_lt (hnext : m.nextIdx < n) (a : MixedCall n ε) :
    (m.mixedAttempt recv a).after.nextIdx < n := by
  cases a with
  | tryRecvAny env =>
    change (m.attempt recv env).after.nextIdx < n
    exact attempt_nextIdx_lt hnext
  | tryRecvPriority env =>
    change (scanPriority recv env (List.finRange n) m).2.nextIdx < n
    rwa [scanPriority_nextIdx]

/-- A call of either kind hands on what the channels return. -/
theorem mixedAttempt_received (hnext : m.nextIdx < n) (a : MixedCall n ε) (c : Fin n) :
    ((m.mixedAttempt recv a).after.consumers c).received = (m.consumers c).received ++
      ((m.mixedAttempt recv a).result.toList.filter (·.1 = c)).map Prod.snd := by
  cases a with
  | tryRecvAny env => exact attempt_received hnext c
  | tryRecvPriority env => exact scanPriority_received _ c m

end

/-! ## Runs that mix the calls -/

section

variable {recv} {m : RingMultiplexer n γ τ} {c : Fin n}

/-- A call within a run is a call. -/
theorem mem_mixedAttempts {a : MixedAttempt n ε γ τ} (calls : List (MixedCall n ε)) :
    ∀ {m : RingMultiplexer n γ τ}, a ∈ m.mixedAttempts recv calls →
      a = a.before.mixedAttempt recv a.call := by
  induction calls with
  | nil =>
    intro m ha
    cases ha
  | cons call calls ih =>
    intro m ha
    rcases List.mem_cons.mp ha with rfl | ha
    · cases call <;> rfl
    · exact ih ha

/-- What a call by priority returns, and where it leads. -/
theorem of_priority {a : MixedAttempt n ε γ τ} {env : Fin n → ε} (calls : List (MixedCall n ε))
    (ha : a ∈ m.mixedAttempts recv calls) (hcall : a.call = .tryRecvPriority env) :
    a.result = (scanPriority recv env (List.finRange n) a.before).1 ∧
      a.after = (scanPriority recv env (List.finRange n) a.before).2 := by
  have heq := mem_mixedAttempts calls ha
  rw [hcall] at heq
  exact ⟨congrArg MixedAttempt.result heq, congrArg MixedAttempt.after heq⟩

theorem mixedAfter_nextIdx_lt (calls : List (MixedCall n ε)) :
    ∀ {m : RingMultiplexer n γ τ}, m.nextIdx < n → (m.mixedAfter recv calls).nextIdx < n := by
  induction calls with
  | nil => exact id
  | cons call calls ih => exact fun hnext => ih (mixedAttempt_nextIdx_lt hnext call)

/-- What is returned for a channel is what its `try_recv` returned. -/
theorem mixedAfter_received (c : Fin n) (calls : List (MixedCall n ε)) :
    ∀ {m : RingMultiplexer n γ τ}, m.nextIdx < n →
      ((m.mixedAfter recv calls).consumers c).received = (m.consumers c).received ++
        (((m.mixedAttempts recv calls).flatMap (·.result.toList)).filter (·.1 = c)).map
          Prod.snd := by
  induction calls with
  | nil => exact fun _ => (List.append_nil _).symm
  | cons call calls ih =>
    intro m hnext
    rw [mixedAfter, ih (mixedAttempt_nextIdx_lt hnext call), mixedAttempt_received hnext,
      mixedAttempts, List.flatMap_cons, List.filter_append, List.map_append, List.append_assoc]

/-- The end of a run is a run from where its front leads. -/
theorem mixedAttempts_split {back : List (MixedAttempt n ε γ τ)} :
    ∀ (front : List (MixedAttempt n ε γ τ)) {calls : List (MixedCall n ε)}
      {m : RingMultiplexer n γ τ}, m.mixedAttempts recv calls = front ++ back →
      ∃ before after, calls = before ++ after ∧ m.mixedAttempts recv before = front ∧
        (m.mixedAfter recv before).mixedAttempts recv after = back := by
  intro front
  induction front with
  | nil => exact fun {calls m} h => ⟨[], calls, rfl, rfl, h⟩
  | cons a front ih =>
    intro calls m h
    cases calls with
    | nil => cases h
    | cons call calls =>
      obtain ⟨rfl, hrest⟩ := List.cons.inj h
      obtain ⟨before, after, rfl, rfl, hback⟩ := ih hrest
      exact ⟨call :: before, after, rfl, rfl, hback⟩

/-- Every call of `try_recv_any` that returns a message brings the rotation closer to a channel that
has one and is not served; those of `try_recv_priority` leave it where it is. -/
theorem mixed_distance (hn : 0 < n) (calls : List (MixedCall n ε)) :
    ∀ {m : RingMultiplexer n γ τ} {d : ℕ}, m.nextIdx < n → c = channel hn (m.nextIdx + d) →
      (∀ a ∈ m.mixedAttempts recv calls, a.rotates = true → a.Ready recv c) →
      (∀ a ∈ m.mixedAttempts recv calls, a.rotates = true → ∀ msg, a.result ≠ some (c, msg)) →
      ((m.mixedAttempts recv calls).filter (·.rotates)).length ≤ d := by
  induction calls with
  | nil => exact fun _ _ _ _ => Nat.zero_le _
  | cons call calls ih =>
    intro m d hnext hc hready hother
    have hnext' : (m.mixedAttempt recv call).after.nextIdx < n := mixedAttempt_nextIdx_lt hnext call
    have hready' := fun a ha => hready a (List.mem_cons_of_mem (m.mixedAttempt recv call) ha)
    have hother' := fun a ha => hother a (List.mem_cons_of_mem (m.mixedAttempt recv call) ha)
    have hfirst := hready (m.mixedAttempt recv call) List.mem_cons_self
    have hfirst' := hother (m.mixedAttempt recv call) List.mem_cons_self
    rw [mixedAttempts]
    by_cases hrot : (m.mixedAttempt recv call).rotates = true
    · rw [List.filter_cons_of_pos hrot, List.length_cons]
      cases call with
      | tryRecvPriority env => cases hrot
      | tryRecvAny env =>
        obtain ⟨item, hitem⟩ := Option.isSome_iff_exists.mp hrot
        obtain ⟨d', hd', hc'⟩ := attempt_nearer hn hc (hfirst hrot) hitem fun he =>
          hfirst' hrot item.2 (by rw [← he]; exact hitem)
        exact Nat.succ_le_of_lt ((ih hnext' hc' hready' hother').trans_lt hd')
    · rw [List.filter_cons_of_neg hrot]
      have hstay : (m.mixedAttempt recv call).after.nextIdx = m.nextIdx := by
        cases call with
        | tryRecvPriority env => exact scanPriority_nextIdx _ m
        | tryRecvAny env => exact (attempt_none hnext (Option.not_isSome_iff_eq_none.mp hrot)).1
      exact ih hnext' (by rw [hstay, hc]) hready' hother'

/-- **The rotation is fair among the calls of `try_recv_any`**: a channel that has a message in `n`
of them that return one is served by one of them, whatever is returned by priority in between. -/
theorem mixed_served {calls : List (MixedCall n ε)} (hnext : m.nextIdx < n)
    (hround : ((m.mixedAttempts recv calls).filter (·.rotates)).length = n)
    (hready : ∀ a ∈ m.mixedAttempts recv calls, a.rotates = true → a.Ready recv c) :
    ∃ a ∈ m.mixedAttempts recv calls, a.rotates = true ∧ ∃ msg, a.result = some (c, msg) := by
  by_contra hcon
  have hn : 0 < n := Nat.zero_lt_of_lt hnext
  obtain ⟨d, hd, hc⟩ := exists_channel hn hnext c
  have hle := mixed_distance hn calls hnext hc hready
    fun a ha hrot msg hres => hcon ⟨a, ha, hrot, msg, hres⟩
  omega

end

/-- **Calls by priority do not disturb the rotation.** In every run that mixes `try_recv_priority`
and `try_recv_any`, whatever the rings do meanwhile, the former return the message of the first
channel that has one, the latter are fair among themselves, and no message of a channel is lost or
returned twice. -/
theorem priority_mixed (hn : 0 < n) (readers : Fin n → γ) (calls : List (MixedCall n ε)) :
    Mixed recv readers calls := by
  have hnext : (new readers : RingMultiplexer n γ τ).nextIdx < n := hn
  have hsorted : (List.finRange n).Pairwise (· < ·) := List.pairwise_lt_finRange n
  refine ⟨?_, ?_, ?_, fun c => ?_⟩
  · rintro a ha env hcall c msg
    obtain ⟨hresult, hafter⟩ := of_priority calls ha hcall
    rw [hresult, hafter]
    refine ⟨(scanPriority_some _ hsorted fun _ _ => rfl).trans ?_,
      fun h c' hlt => scanPriority_of_lt _ hsorted h hlt⟩
    simp only [List.mem_finRange, true_and, forall_const]
  · rintro a ha env hcall
    rw [(of_priority calls ha hcall).1]
    refine (scanPriority_none _ hsorted fun _ _ => rfl).trans ?_
    simp only [List.mem_finRange, forall_const]
  · intro c front window back hsplit hround hready
    rw [List.append_assoc] at hsplit
    obtain ⟨calls₁, calls₂, -, -, hrest⟩ := mixedAttempts_split front hsplit
    obtain ⟨calls₃, calls₄, -, rfl, -⟩ := mixedAttempts_split window hrest
    exact mixed_served (mixedAfter_nextIdx_lt calls₁ hnext) hround hready
  · exact (mixedAfter_received c calls hnext).trans (List.nil_append _)

/-- Two rings; the reader of each is a list of messages to come. -/
theorem priority_mixed_two :
    let recv : Unit → List ℕ → Option ℕ × List ℕ := fun _ l => (l.head?, l.tail)
    let readers : Fin 2 → List ℕ := fun c => [10 * c.val, 10 * c.val + 1]
    let calls : List (MixedCall 2 Unit) :=
      [.tryRecvPriority fun _ => (), .tryRecvAny fun _ => (), .tryRecvAny fun _ => ()]
    Mixed recv readers calls ∧ ((new readers).mixedAttempts recv calls).map (·.result) =
      [some (0, 0), some (0, 1), some (1, 10)] :=
  ⟨priority_mixed _ (by decide) _ _, by decide⟩

end RingMultiplexer

end Ringfire
