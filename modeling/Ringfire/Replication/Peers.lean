import Mathlib.Data.List.AList
import Ringfire.Foundation.Transition
import Ringfire.Layout.Greeting

/-!
# Where the datagrams of a source go

A source that offers unicast gives every mirror that takes it a token of 32 bits, and sends its
datagrams to whatever address a punch with that token came from last. The threads of `serve_client`
take the tokens and keep them in a table, `udp_loop` reads the punches and sends. Anybody can send
anything to the socket of `udp_loop`.

## Main definitions

* `punchBytes`, `punchToken`: what a mirror sends, and what the source makes of a datagram
* `UnicastServer.step`: the threads of `serve_client`, and `udp_loop`

## Main results

* `UnicastServer.Inv.step`: the table lists the mirrors that are served, under different tokens
* `unicast_delivers`: the datagrams go to each mirror, where it punched from last, and nowhere else
-/

namespace Ringfire

open Layout LittleEndian Transition

variable {κ α : Type} [DecidableEq κ] [DecidableEq α]

/-! ## Model -/

/-- `KIND_PUNCH`. -/
def kindPunch : ℕ := 8

/-- The punch of a mirror with a token. -/
def punchBytes (session : UInt8) (token : UInt32) : List UInt8 :=
  (Frame.mk kindPunch session.toNat 0 0 token.toNat).encode

/-- What a mirror punches with, by what it read in the answer of the source. -/
def Layout.Live.punchBytes : Live → Option (List UInt8)
  | .punch _ session token => some (Ringfire.punchBytes session token)
  | _ => none

/-- The token in a datagram that `udp_loop` takes for a punch. It reads the first 16 bytes. -/
def punchToken (session : UInt8) (bytes : List UInt8) : Option UInt32 :=
  let frame := Frame.decode (bytes.take frameHeaderLen)
  if frameHeaderLen ≤ bytes.length ∧ frame.kind = kindPunch ∧ frame.flags = session.toNat then
    some (.ofNat frame.seq)
  else none

/-- Where the thread of `serve_client` of a unicast mirror stands. -/
inductive ServePc where
  | idle
  /-- `fetch_add` has given it a token. -/
  | taken (token : UInt32)
  | serving (token : UInt32)
  deriving DecidableEq

/-- A source that offers unicast. -/
structure UnicastServer (κ α : Type) where
  nextToken : UInt32
  /-- `peers`: the last address punched from under each token. -/
  peers : AList fun _ : UInt32 => Option α
  conns : κ → ServePc
  /-- Every datagram sent, with its destination. -/
  sent : List (α × List UInt8)
  /-- How many tokens were taken. -/
  issued : ℕ
  /-- Where the last punch with the token of a connection came from since it was registered. -/
  punched : κ → Option α

/-- A thread of `serve_client` takes a token, registers it, or ends; `udp_loop` reads a datagram, or
sends one. -/
inductive UnicastLabel (κ α : Type) where
  | take (k : κ)
  | register (k : κ)
  | leave (k : κ)
  | datagram (source : α) (bytes : List UInt8)
  | deliver (bytes : List UInt8)

namespace UnicastServer

/-- `bind`. -/
def create (κ α : Type) : UnicastServer κ α := ⟨1, ∅, fun _ => .idle, [], 0, fun _ => none⟩

/-- The addresses in the table. -/
def destinations (s : UnicastServer κ α) : List α := s.peers.entries.filterMap Sigma.snd

/-- The thread of `udp_loop` has read a punch. -/
def punch (s : UnicastServer κ α) (source : α) (token : UInt32) : UnicastServer κ α :=
  if (s.peers.lookup token).isSome then
    { s with
      peers := s.peers.insert token (some source)
      punched := fun k => if s.conns k = .serving token then some source else s.punched k }
  else s

/-- One step of a source whose datagrams go to `group` as well, `duplicate` times. -/
def step (session : UInt8) (group : Option α) (duplicate : ℕ) (s : UnicastServer κ α) :
    UnicastLabel κ α → Option (UnicastServer κ α)
  | .take k =>
    match s.conns k with
    | .idle => some { s with
        nextToken := s.nextToken + 1
        conns := Function.update s.conns k (.taken s.nextToken)
        issued := s.issued + 1 }
    | _ => none
  | .register k =>
    match s.conns k with
    | .taken token => some { s with
        peers := s.peers.insert token none
        conns := Function.update s.conns k (.serving token)
        punched := Function.update s.punched k none }
    | _ => none
  | .leave k =>
    match s.conns k with
    | .serving token => some { s with
        peers := s.peers.erase token
        conns := Function.update s.conns k .idle }
    | _ => none
  | .datagram source bytes =>
    match punchToken session bytes with
    | some token => some (s.punch source token)
    | none => some s
  | .deliver bytes => some { s with
      sent := s.sent ++ (List.replicate duplicate (group.toList ++ s.destinations)).flatten.map
        fun a => (a, bytes) }

end UnicastServer

/-! ## Punches -/

/-- **A mirror's punch is taken for what it is.** -/
theorem punchToken_punchBytes (session : UInt8) (token : UInt32) (rest : List UInt8) :
    punchToken session (punchBytes session token ++ rest) = some token := by
  have hf : (Frame.mk kindPunch session.toNat 0 0 token.toNat).Fits :=
    ⟨(by decide : kindPunch < 256 ^ 1), session.toNat_lt, (by decide : 0 < 256 ^ 2),
      (by decide : 0 < 256 ^ 4), token.toNat_lt.trans (by decide)⟩
  have hlen : (punchBytes session token).length = frameHeaderLen := Frame.length_encode _
  have hdecode : Frame.decode (punchBytes session token) = _ := (readExact_encode hf []).2
  simp only [punchToken, List.take_left' hlen, hdecode, List.length_append, hlen,
    Nat.le_add_right, and_self, if_true, UInt32.ofNat_toNat]

/-- The `n`-th token. -/
def tokenOf (n : ℕ) : UInt32 := .ofNat (n + 1)

theorem tokenOf_succ (n : ℕ) : tokenOf n + 1 = tokenOf (n + 1) := by
  unfold tokenOf
  exact (UInt32.ofNat_add (n + 1) 1).symm

/-- **Fewer than `2 ^ 32` tokens are different.** -/
theorem tokenOf_injOn {m n : ℕ} (hm : m < 2 ^ 32) (hn : n < 2 ^ 32) (h : tokenOf m = tokenOf n) :
    m = n := by
  have hmod : (m + 1) % 2 ^ 32 = (n + 1) % 2 ^ 32 := by
    have htoNat := congrArg UInt32.toNat h
    rwa [tokenOf, tokenOf, UInt32.toNat_ofNat', UInt32.toNat_ofNat'] at htoNat
  omega

/-! ## The table -/

namespace ServePc

/-- The token a thread has. -/
def token? : ServePc → Option UInt32
  | .idle => none
  | .taken token | .serving token => some token

end ServePc

namespace UnicastServer

variable {session : UInt8} {group : Option α} {duplicate : ℕ} {s s' : UnicastServer κ α}

/-- What holds of a source that has not given out more than `2 ^ 32` tokens. -/
structure Inv (s : UnicastServer κ α) : Prop where
  next : s.nextToken = tokenOf s.issued
  old : ∀ k t, (s.conns k).token? = some t → ∃ n < s.issued, t = tokenOf n
  distinct : ∀ k k' t, (s.conns k).token? = some t → (s.conns k').token? = some t → k = k'
  listed : ∀ k t, s.conns k = .serving t → s.peers.lookup t = some (s.punched k)
  served : ∀ t x, s.peers.lookup t = some x → ∃ k, s.conns k = .serving t

omit [DecidableEq κ] [DecidableEq α] in
theorem Inv.create : (create κ α).Inv where
  next := rfl
  old := by rintro k t ⟨⟩
  distinct := by rintro k k' t ⟨⟩
  listed := by rintro k t ⟨⟩
  served := by
    intro t x h
    rw [UnicastServer.create, AList.lookup_empty] at h
    cases h

omit [DecidableEq α] in
theorem token_update {conns : κ → ServePc} {k k' : κ} {pc : ServePc} {t : UInt32}
    (h : (Function.update conns k pc k').token? = some t) :
    k' = k ∧ pc.token? = some t ∨ k' ≠ k ∧ (conns k').token? = some t := by
  by_cases hk : k' = k
  · subst hk
    rw [Function.update_self] at h
    exact .inl ⟨rfl, h⟩
  · rw [Function.update_of_ne hk] at h
    exact .inr ⟨hk, h⟩

omit [DecidableEq κ] [DecidableEq α] in
/-- A mirror that is served has the token it is served under. -/
theorem token_of_serving {k : κ} {t : UInt32} (h : s.conns k = .serving t) :
    (s.conns k).token? = some t := by
  rw [h]
  rfl

omit [DecidableEq α] in
/-- A thread takes a token that no other has. -/
theorem Inv.take (h : s.Inv) (hissued : s.issued < 2 ^ 32) {k : κ} (hk : s.conns k = .idle) :
    ({ s with
      nextToken := s.nextToken + 1
      conns := Function.update s.conns k (.taken s.nextToken)
      issued := s.issued + 1 } : UnicastServer κ α).Inv := by
  have hnew : ∀ k' t, (s.conns k').token? = some t → t ≠ s.nextToken := by
    rintro k' t ht rfl
    obtain ⟨n, hn, heq⟩ := h.old k' _ ht
    rw [h.next] at heq
    exact hn.ne' (tokenOf_injOn hissued (hn.trans hissued) heq)
  have hserving : ∀ k' t, Function.update s.conns k (.taken s.nextToken) k' = .serving t ↔
      s.conns k' = .serving t := by
    intro k' t
    by_cases hkk : k' = k
    · subst hkk
      rw [Function.update_self, hk]
      exact iff_of_false (by rintro ⟨⟩) (by rintro ⟨⟩)
    · rw [Function.update_of_ne hkk]
  refine ⟨?_, ?_, ?_, fun k' t ht => h.listed k' t ((hserving k' t).mp ht), ?_⟩
  · change s.nextToken + 1 = tokenOf (s.issued + 1)
    rw [h.next]
    exact tokenOf_succ s.issued
  · intro k' t ht
    rcases token_update ht with ⟨-, hpc⟩ | ⟨-, hold⟩
    · cases hpc
      exact ⟨s.issued, Nat.lt_succ_self _, h.next⟩
    · obtain ⟨n, hn, heq⟩ := h.old k' t hold
      exact ⟨n, hn.trans (Nat.lt_succ_self _), heq⟩
  · intro k₁ k₂ t h₁ h₂
    rcases token_update h₁ with ⟨hk₁, hpc₁⟩ | ⟨-, hold₁⟩ <;>
      rcases token_update h₂ with ⟨hk₂, hpc₂⟩ | ⟨-, hold₂⟩
    · exact hk₁.trans hk₂.symm
    · cases hpc₁
      exact absurd rfl (hnew k₂ _ hold₂)
    · cases hpc₂
      exact absurd rfl (hnew k₁ _ hold₁)
    · exact h.distinct k₁ k₂ t hold₁ hold₂
  · intro t x ht
    obtain ⟨k', hk'⟩ := h.served t x ht
    exact ⟨k', (hserving k' t).mpr hk'⟩

omit [DecidableEq α] in
/-- A thread puts its token into the table. -/
theorem Inv.register (h : s.Inv) {k : κ} {token : UInt32} (hk : s.conns k = .taken token) :
    ({ s with
      peers := s.peers.insert token none
      conns := Function.update s.conns k (.serving token)
      punched := Function.update s.punched k none } : UnicastServer κ α).Inv := by
  have htoken : (s.conns k).token? = some token := by
    rw [hk]
    rfl
  -- the other mirrors are served under other tokens
  have hother : ∀ k' t, k' ≠ k → s.conns k' = .serving t → t ≠ token := by
    rintro k' t hne ht rfl
    exact hne (h.distinct k' k _ (token_of_serving ht) htoken)
  refine ⟨h.next, ?_, ?_, ?_, ?_⟩
  · intro k' t ht
    rcases token_update ht with ⟨-, hpc⟩ | ⟨-, hold⟩
    · exact h.old k t (htoken.trans hpc)
    · exact h.old k' t hold
  · intro k₁ k₂ t h₁ h₂
    rcases token_update h₁ with ⟨hk₁, hpc₁⟩ | ⟨-, hold₁⟩ <;>
      rcases token_update h₂ with ⟨hk₂, hpc₂⟩ | ⟨-, hold₂⟩
    · exact hk₁.trans hk₂.symm
    · exact hk₁.trans (h.distinct k k₂ t (htoken.trans hpc₁) hold₂)
    · exact (h.distinct k₁ k t hold₁ (htoken.trans hpc₂)).trans hk₂.symm
    · exact h.distinct k₁ k₂ t hold₁ hold₂
  · intro k' t ht
    change Function.update s.conns k (.serving token) k' = .serving t at ht
    change (s.peers.insert token none).lookup t = some (Function.update s.punched k none k')
    by_cases hkk : k' = k
    · subst hkk
      rw [Function.update_self] at ht
      cases ht
      rw [AList.lookup_insert, Function.update_self]
    · rw [Function.update_of_ne hkk] at ht
      rw [AList.lookup_insert_ne (hother k' t hkk ht), Function.update_of_ne hkk]
      exact h.listed k' t ht
  · intro t x ht
    change (s.peers.insert token none).lookup t = some x at ht
    by_cases htt : t = token
    · subst htt
      exact ⟨k, Function.update_self ..⟩
    · rw [AList.lookup_insert_ne htt] at ht
      obtain ⟨k', hk'⟩ := h.served t x ht
      have hne : k' ≠ k := by
        rintro rfl
        rw [hk] at hk'
        cases hk'
      exact ⟨k', (Function.update_of_ne hne _ _).trans hk'⟩

omit [DecidableEq α] in
/-- A thread takes its token out of the table. -/
theorem Inv.leave (h : s.Inv) {k : κ} {token : UInt32} (hk : s.conns k = .serving token) :
    ({ s with
      peers := s.peers.erase token
      conns := Function.update s.conns k .idle } : UnicastServer κ α).Inv := by
  refine ⟨h.next, ?_, ?_, ?_, ?_⟩
  · intro k' t ht
    rcases token_update ht with ⟨-, hpc⟩ | ⟨-, hold⟩
    · cases hpc
    · exact h.old k' t hold
  · intro k₁ k₂ t h₁ h₂
    rcases token_update h₁ with ⟨-, hpc₁⟩ | ⟨-, hold₁⟩
    · cases hpc₁
    · rcases token_update h₂ with ⟨-, hpc₂⟩ | ⟨-, hold₂⟩
      · cases hpc₂
      · exact h.distinct k₁ k₂ t hold₁ hold₂
  · intro k' t ht
    change Function.update s.conns k .idle k' = .serving t at ht
    change (s.peers.erase token).lookup t = some (s.punched k')
    by_cases hkk : k' = k
    · subst hkk
      rw [Function.update_self] at ht
      cases ht
    · rw [Function.update_of_ne hkk] at ht
      have hne : t ≠ token := by
        rintro rfl
        exact hkk (h.distinct k' k _ (token_of_serving ht) (token_of_serving hk))
      rw [AList.lookup_erase_ne hne]
      exact h.listed k' t ht
  · intro t x ht
    change (s.peers.erase token).lookup t = some x at ht
    by_cases htt : t = token
    · subst htt
      rw [AList.lookup_erase] at ht
      cases ht
    · rw [AList.lookup_erase_ne htt] at ht
      obtain ⟨k', hk'⟩ := h.served t x ht
      have hne : k' ≠ k := by
        rintro rfl
        rw [hk] at hk'
        cases hk'
        exact htt rfl
      exact ⟨k', (Function.update_of_ne hne _ _).trans hk'⟩

omit [DecidableEq κ] [DecidableEq α] in
/-- A punch moves the mirror whose token it carries, and no other. -/
theorem Inv.punch (h : s.Inv) (source : α) (token : UInt32) : (s.punch source token).Inv := by
  unfold UnicastServer.punch
  split_ifs with hsome
  · refine ⟨h.next, h.old, h.distinct, ?_, ?_⟩
    · intro k t ht
      change (s.peers.insert token (some source)).lookup t =
        some (if s.conns k = .serving token then some source else s.punched k)
      have hserving : s.conns k = .serving t := ht
      by_cases htt : t = token
      · subst htt
        rw [AList.lookup_insert, if_pos hserving]
      · rw [AList.lookup_insert_ne htt, if_neg, h.listed k t hserving]
        rw [hserving]
        rintro ⟨⟩
        exact htt rfl
    · intro t x ht
      change (s.peers.insert token (some source)).lookup t = some x at ht
      by_cases htt : t = token
      · subst htt
        obtain ⟨y, hy⟩ := Option.isSome_iff_exists.mp hsome
        exact h.served _ y hy
      · rw [AList.lookup_insert_ne htt] at ht
        exact h.served t x ht
  · exact h

omit [DecidableEq α] in
/-- **Every step keeps the table**, until `2 ^ 32` tokens were taken. -/
theorem Inv.step (h : s.issued ≤ 2 ^ 32 → s.Inv) {a : UnicastLabel κ α}
    (hstep : s.step session group duplicate a = some s') : s'.issued ≤ 2 ^ 32 → s'.Inv := by
  intro hissued
  cases a with
  | take k =>
    simp only [UnicastServer.step] at hstep
    split at hstep <;> cases hstep
    next hk =>
      have hlt : s.issued < 2 ^ 32 := hissued
      exact (h hlt.le).take hlt hk
  | register k =>
    simp only [UnicastServer.step] at hstep
    split at hstep <;> cases hstep
    next token hk => exact (h hissued).register hk
  | leave k =>
    simp only [UnicastServer.step] at hstep
    split at hstep <;> cases hstep
    next token hk => exact (h hissued).leave hk
  | datagram source bytes =>
    simp only [UnicastServer.step] at hstep
    split at hstep <;> cases hstep
    · next token _ =>
      have hsame : (s.punch source token).issued = s.issued := by
        unfold UnicastServer.punch
        split_ifs <;> rfl
      exact (h (hsame ▸ hissued)).punch source token
    · exact h hissued
  | deliver bytes =>
    cases hstep
    have hinv := h hissued
    exact ⟨hinv.next, hinv.old, hinv.distinct, hinv.listed, hinv.served⟩

/-! ## Destinations -/

omit [DecidableEq κ] [DecidableEq α] in
/-- The datagrams go where the mirrors that are served punched from. -/
theorem Inv.mem_destinations (h : s.Inv) {a : α} :
    a ∈ s.destinations ↔ ∃ k t, s.conns k = .serving t ∧ s.punched k = some a := by
  unfold destinations
  rw [List.mem_filterMap]
  constructor
  · rintro ⟨⟨t, x⟩, hmem, rfl⟩
    have hlookup : s.peers.lookup t = some (some a) := AList.mem_lookup_iff.mpr hmem
    obtain ⟨k, hk⟩ := h.served t _ hlookup
    exact ⟨k, t, hk, Option.some.inj ((h.listed k t hk).symm.trans hlookup)⟩
  · rintro ⟨k, t, hk, ha⟩
    exact ⟨⟨t, some a⟩, AList.mem_lookup_iff.mp (ha ▸ h.listed k t hk), rfl⟩

omit [DecidableEq κ] in
/-- A mirror that alone punched from its address is sent each datagram once. -/
theorem Inv.count_destinations (h : s.Inv) {k : κ} {t : UInt32} {a : α}
    (hk : s.conns k = .serving t) (ha : s.punched k = some a)
    (halone : ∀ k' t', s.conns k' = .serving t' → s.punched k' = some a → k' = k) :
    s.destinations.count a = 1 := by
  have hmem : (⟨t, some a⟩ : Sigma fun _ : UInt32 => Option α) ∈ s.peers.entries :=
    AList.mem_lookup_iff.mp (ha ▸ h.listed k t hk)
  have honly : ∀ e ∈ s.peers.entries, e.2 = some a ↔ e = ⟨t, some a⟩ := by
    rintro ⟨t', x⟩ he
    constructor
    · rintro rfl
      have hlookup : s.peers.lookup t' = some (some a) := AList.mem_lookup_iff.mpr he
      obtain ⟨k', hk'⟩ := h.served t' _ hlookup
      have hkk := halone k' t' hk' (Option.some.inj ((h.listed k' t' hk').symm.trans hlookup))
      subst hkk
      rw [hk] at hk'
      cases hk'
      rfl
    · rintro ⟨⟩
      rfl
  calc s.destinations.count a
      = s.peers.entries.countP fun e => e.2 == some a := List.count_filterMap
    _ = s.peers.entries.countP fun e => e == ⟨t, some a⟩ := by
        refine List.countP_congr fun e he => ?_
        rw [beq_iff_eq, beq_iff_eq]
        exact honly e he
    _ = 1 := List.count_eq_one_of_mem s.peers.nodupKeys.nodup hmem

end UnicastServer

/-- **The datagrams of a source go to each mirror, where it punched from last, and nowhere else**,
as long as no more than `2 ^ 32` unicast mirrors have connected. However the threads of
`serve_client` and `udp_loop` come between each other and whatever is sent to the socket: no two
mirrors are served under one token; a mirror is sent to where the last punch with its token came
from, once for each datagram if no other mirror punches from there; and a mirror that has left is
not sent to. -/
theorem unicast_delivers {session : UInt8} {group : Option α} {duplicate : ℕ}
    {s : UnicastServer κ α}
    (hreach : Reaches (UnicastServer.step session group duplicate) (.create κ α) s)
    (hissued : s.issued ≤ 2 ^ 32) :
    (∀ k k' t, s.conns k = .serving t → s.conns k' = .serving t → k = k') ∧
    (∀ a, a ∈ s.destinations ↔ ∃ k t, s.conns k = .serving t ∧ s.punched k = some a) ∧
    (∀ k t a, s.conns k = .serving t → s.punched k = some a →
      (∀ k' t', s.conns k' = .serving t' → s.punched k' = some a → k' = k) →
      s.destinations.count a = 1) ∧
    (∀ k t port source rest, s.conns k = .serving t → ∃ bytes s',
      (Live.punch port session t).punchBytes = some bytes ∧
      s.step session group duplicate (.datagram source (bytes ++ rest)) = some s' ∧
      s'.punched k = some source ∧ ∀ k', k' ≠ k → ∀ t', s.conns k' = .serving t' →
        s'.punched k' = s.punched k') := by
  have hinv : s.Inv := hreach.invariant (P := fun s => s.issued ≤ 2 ^ 32 → s.Inv)
    (fun h hstep => UnicastServer.Inv.step h hstep) (fun _ => .create) hissued
  have hdistinct : ∀ k k' t, s.conns k = .serving t → s.conns k' = .serving t → k = k' :=
    fun k k' t hk hk' => hinv.distinct k k' t (UnicastServer.token_of_serving hk)
      (UnicastServer.token_of_serving hk')
  refine ⟨hdistinct, fun a => hinv.mem_destinations,
    fun k t a hk ha halone => hinv.count_destinations hk ha halone, ?_⟩
  intro k t port source rest hk
  refine ⟨_, s.punch source t, rfl, ?_, ?_, ?_⟩
  · simp only [UnicastServer.step, punchToken_punchBytes]
  · rw [UnicastServer.punch, if_pos (by rw [hinv.listed k t hk]; rfl)]
    exact if_pos hk
  · intro k' hne t' hk'
    rw [UnicastServer.punch, if_pos (by rw [hinv.listed k t hk]; rfl)]
    refine if_neg fun hsame => hne ?_
    exact hdistinct k' k t hsame hk

/-- Two mirrors are served, and the first punches from address 7. -/
theorem unicast_delivers_two : ∃ s : UnicastServer Bool ℕ,
    Reaches (UnicastServer.step 3 none 1) (.create Bool ℕ) s ∧ s.issued = 2 ∧
      s.destinations.count 7 = 1 := by
  obtain ⟨s, hs⟩ : ∃ s, run (UnicastServer.step 3 none 1) (.create Bool ℕ)
      [.take true, .take false, .register false, .register true,
        .datagram 7 (punchBytes 3 1)] = some s := ⟨_, rfl⟩
  obtain ⟨hissued, htrue, hseven, hfalse⟩ : s.issued = 2 ∧ s.conns true = .serving 1 ∧
      s.punched true = some 7 ∧ s.punched false = none := by
    cases hs
    exact ⟨rfl, rfl, rfl, rfl⟩
  refine ⟨s, ⟨_, hs⟩, hissued, ?_⟩
  refine (unicast_delivers ⟨_, hs⟩ (by rw [hissued]; decide)).2.2.1 true 1 7 htrue hseven ?_
  intro k t _ hk
  cases k with
  | true => rfl
  | false =>
    rw [hfalse] at hk
    cases hk

end Ringfire
