import Ringfire.Replication.Crash
import Ringfire.Replication.TcpDelivery

/-!
# What the readers of a mirror see of its writers' deaths

A process that takes over a mirror ring may write records again that its predecessor had stored.
It never writes a record below one that is already in the slot: what it receives was read from the
source after its predecessor died, and the source no longer had it otherwise. So the slots never go
back, and a record that is written again is the same record.

On a ring without an arena its words are the same too, and no reader notices. On a ring with an
arena the record is written again with another reference, and `write_blob` stores the source's
reference in between; a reader that copies just that word looks for the blob in the wrong place.

## Main results

* `CrashSystem.Inv.step`: what holds of the process, wherever its predecessors died
* `CrashSystem.crash_invisible`: what the readers return, unless one of them took the source's
  reference
* `crash_visible`: what happens if one does
-/

namespace Ringfire

open PayloadArena LittleEndian

/-! ## Payloads by words -/

section

variable {n : ℕ} {payload : List UInt8}

theorem bytesOf_wordsOf (h : payload.length = 8 * n) : bytesOf (wordsOf n payload) = payload := by
  apply List.ext_getElem
  · rw [bytesOf, List.length_ofFn, h]
  · intro i h₁ h₂
    simp only [bytesOf, wordsOf, List.getElem_ofFn]
    rw [Nat.div_add_mod, List.getD_eq_getElem _ _ h₂]

/-- A word is made of its eight bytes. -/
theorem wordsOf_congr {payload' : List UInt8} {j : Fin n}
    (h : ∀ i, 8 * (j : ℕ) ≤ i → i < 8 * (j : ℕ) + 8 → payload.getD i 0 = payload'.getD i 0) :
    wordsOf n payload j = wordsOf n payload' j := by
  funext i
  exact h _ (Nat.le_add_right _ _) (by omega)

/-- In front of the reference nothing changes. -/
theorem getD_putBlobRef_of_lt {i : ℕ} (hi : i + blobRefLen < payload.length) (r : BlobRef) :
    (putBlobRef payload r).getD i 0 = payload.getD i 0 := by
  have hlen : (payload.take (payload.length - blobRefLen)).length = payload.length - blobRefLen :=
    List.length_take_of_le (Nat.sub_le _ _)
  rw [putBlobRef, List.getD_append _ _ _ _ (by omega)]
  conv_rhs => rw [← List.take_append_drop (payload.length - blobRefLen) payload]
  rw [List.getD_append _ _ _ _ (by omega)]

/-- Behind the offset there are the length and the flags. -/
theorem getD_putBlobRef_of_ge {i : ℕ} (hp : blobRefLen ≤ payload.length)
    (hi : payload.length ≤ i + 8) {r r' : BlobRef} (hlen : r.len = r'.len)
    (hflags : r.flags = r'.flags) :
    (putBlobRef payload r).getD i 0 = (putBlobRef payload r').getD i 0 := by
  have hget : ∀ x : BlobRef, (putBlobRef payload x).getD i 0 =
      (toLe 4 x.len ++ toLe 4 x.flags).getD (i - (payload.length - 8)) 0 := by
    intro x
    have hfront : (payload.take (payload.length - blobRefLen) ++ toLe 8 x.offset).length =
        payload.length - 8 := by
      rw [List.length_append, length_toLe, List.length_take_of_le (Nat.sub_le _ _)]
      unfold blobRefLen at hp ⊢
      omega
    have hsplit : putBlobRef payload x =
        (payload.take (payload.length - blobRefLen) ++ toLe 8 x.offset) ++
          (toLe 4 x.len ++ toLe 4 x.flags) := by
      simp only [putBlobRef, blobRefBytes, List.append_assoc]
    rw [hsplit, ← hfront]
    exact List.getD_append_right (payload.take (payload.length - blobRefLen) ++ toLe 8 x.offset) _ _ _
      (by rw [hfront]; omega)
  rw [hget r, hget r', hlen, hflags]

/-- The words that `put_blob_ref` does not store. -/
theorem wordsOf_putBlobRef_front (hp : payload.length = 8 * n) {j : Fin n} (hj : j ∉ refWords n)
    (r : BlobRef) : wordsOf n payload j = wordsOf n (putBlobRef payload r) j := by
  have hlt : (j : ℕ) + 2 < n := by
    simpa [refWords] using hj
  apply wordsOf_congr
  intro i _ hi
  exact (getD_putBlobRef_of_lt (by unfold blobRefLen; omega) r).symm

/-- Two references to blobs of one length differ in the word of the offset only. -/
theorem wordsOf_putBlobRef_congr (hp : payload.length = 8 * n) (hn : blobRefLen ≤ 8 * n) {j : Fin n}
    (hj : (j : ℕ) + 2 ≠ n) {r r' : BlobRef} (hlen : r.len = r'.len) (hflags : r.flags = r'.flags) :
    wordsOf n (putBlobRef payload r) j = wordsOf n (putBlobRef payload r') j := by
  by_cases hmem : j ∈ refWords n
  · have hge : n ≤ (j : ℕ) + 2 := by
      simpa [refWords] using hmem
    apply wordsOf_congr
    intro i hi _
    exact getD_putBlobRef_of_ge (by omega) (by omega) hlen hflags
  · rw [← wordsOf_putBlobRef_front hp hmem r, ← wordsOf_putBlobRef_front hp hmem r']

end

/-! ## The invariant -/

theorem Source.Has.unique {ρ : Type} {w : ℕ} {s : Source ρ w} {k : ℕ} {r r' : Record}
    (h : s.Has k r) (h' : s.Has k r') : r = r' :=
  (s.agrees_record k r h).symm.trans (s.agrees_record k r' h')

namespace CrashSystem

variable {ρ κ : Type} {n : ℕ} {cfg : SourceConfig (8 * n)} {s s' : CrashSystem ρ κ n}

/-- Nothing above `k` was written into the slot of `k`, unless the process is past `k` itself. -/
def Fresh (cfg : SourceConfig (8 * n)) (s : CrashSystem ρ κ n) (k : ℕ) : Prop :=
  ∀ j ∈ s.file.written, slotIndex cfg.ring.cap j = slotIndex cfg.ring.cap k →
    j ≤ k ∨ k < s.file.nextSeq

/-- The blob of record `k`. -/
def BlobOf (s : CrashSystem ρ κ n) (k : ℕ) (bytes : List UInt8) : Prop :=
  ∃ r, s.source.Has k r ∧ bytes = r.blob

/-- The server has read the slot of the record and is copying its blob. -/
def pastSlot {w : ℕ} : RecordPc w → Bool
  | .blob _ _ => true
  | _ => false

/-- What holds of the process. -/
structure Inv (cfg : SourceConfig (8 * n)) (s : CrashSystem ρ κ n) : Prop where
  source : s.source.Inv cfg
  reading : ∀ k pc, s.reading = some (k, pc) → 1 ≤ k ∧ k ≤ s.source.seq ∧
    pc.Sound cfg s.source k ∧ (pastSlot pc = true → s.Fresh cfg k)
  received : ∀ k r, (k, r) ∈ s.received → s.source.Has k r ∧ s.Fresh cfg k
  stored : ∀ k ∈ s.file.written, k < s.source.seq
  content : s.file.Content cfg.ring.cap (s.Holds cfg)
  writing : ∀ job, s.file.pc.job = some job → s.file.nextSeq < s.source.seq ∧ s.staged = none ∧
    (cfg.blob = none → job.ref = ∅)
  staged : ∀ k r, s.staged = some (k, r) → s.file.nextSeq = k ∧ s.source.Has k r ∧
    s.file.Newest cfg.ring.cap k ∧ ∃ b, cfg.blob = some b ∧
      s.writer.Serves b.arena s.arena r.blob (blobRefAt r.payload).flags
  arena : ∀ b, cfg.blob = some b → s.writer.Inv b.arena s.arena
  placed : ∀ k ref, (k, ref) ∈ s.placed → ∃ r, s.source.Has k r ∧ ∀ b, cfg.blob = some b →
    (ref, r.blob) ∈ s.arena.written ∧ ref.Names b.arena r.blob (blobRefAt r.payload).flags

/-- The readers have returned what the source pushed, in order. -/
structure Readers (cfg : SourceConfig (8 * n)) (s : CrashSystem ρ κ n) : Prop where
  ring : cfg.blob = none → ∀ q, (s.ring q).Faithful cfg.ring.cap (s.Holds cfg) s.file
  blob : ∀ b, cfg.blob = some b → ∀ q,
    (s.blob q).Faithful cfg.ring.cap b.arena (packetRef b) (s.Holds cfg) s.BlobOf s.file s.arena

/-- A step of anyone but the readers. -/
structure Next (cfg : SourceConfig (8 * n)) (s s' : CrashSystem ρ κ n) : Prop where
  inv : s'.Inv cfg
  readers : s.Readers cfg → s'.Readers cfg

/-- What a mirror makes of a record, it has made for good. -/
theorem Holds.mono (has : ∀ k r, s.source.Has k r → s'.source.Has k r)
    (placed : ∀ x ∈ s.placed, x ∈ s'.placed) (k : ℕ) (d : Payload n (Payload 8 UInt8))
    (h : s.Holds cfg k d) : s'.Holds cfg k d := by
  obtain ⟨r, hr, hd⟩ := h
  refine ⟨r, has k r hr, ?_⟩
  cases hb : cfg.blob with
  | none =>
    simp only [hb] at hd ⊢
    exact hd
  | some b =>
    simp only [hb] at hd ⊢
    obtain ⟨ref, href, hd⟩ := hd
    exact ⟨ref, placed _ href, hd⟩

/-- What the readers rely on when anything but themselves moves. -/
theorem Readers.evolves (h : s.Readers cfg) (ring : s'.ring = s.ring) (blob : s'.blob = s.blob)
    (written : ∀ k ∈ s.file.written, k ∈ s'.file.written)
    (has : ∀ k r, s.source.Has k r → s'.source.Has k r) (placed : ∀ x ∈ s.placed, x ∈ s'.placed)
    (reserved : s.arena.reserved ≤ s'.arena.reserved)
    (kept : cfg.blob = none → ∀ (rd : ReadPc n (Payload 8 UInt8)) want,
      rd.Picks cfg.ring.cap (s.Holds cfg) s.file want →
      rd.Kept cfg.ring.cap (s.Holds cfg) s.file want →
      rd.Kept cfg.ring.cap (s'.Holds cfg) s'.file want) : s'.Readers cfg where
  ring := by
    intro hb q
    rw [ring]
    exact (h.ring hb q).evolves written (Holds.mono has placed) (kept hb)
  blob := by
    intro b hb q
    rw [blob]
    refine (h.blob b hb q).evolves written (Holds.mono has placed) ?_ reserved
    rintro k bytes ⟨r, hr, rfl⟩
    exact ⟨r, has k r hr, rfl⟩

/-- A step that leaves the file alone. -/
theorem Readers.of_file_eq (h : s.Readers cfg) (ring : s'.ring = s.ring) (blob : s'.blob = s.blob)
    (file : s'.file = s.file) (has : ∀ k r, s.source.Has k r → s'.source.Has k r)
    (placed : ∀ x ∈ s.placed, x ∈ s'.placed) (reserved : s.arena.reserved ≤ s'.arena.reserved) :
    s'.Readers cfg := by
  refine h.evolves ring blob (by rw [file]; exact fun _ hk => hk) has placed reserved ?_
  intro _ rd want _ hkept
  rw [file]
  exact hkept.mono (Holds.mono has placed)

/-! ## What the payloads of a record have in common -/

/-- All descriptors `write_blob` returns for one blob have the same length and flags. -/
theorem names_congr {acap : ArenaCapacity} {bytes : List UInt8} {flags : ℕ} {ref ref' : BlobRef}
    (h : ref.Names acap bytes flags) (h' : ref'.Names acap bytes flags) :
    ref.len = ref'.len ∧ ref.flags = ref'.flags :=
  ⟨h.len.trans h'.len.symm, h.flags.trans h'.flags.symm⟩

/-- A place where the blob of record `k` was put. -/
theorem Inv.names (h : s.Inv cfg) {b : PacketConfig} (hb : cfg.blob = some b) {k : ℕ} {r : Record}
    (hr : s.source.Has k r) {ref : BlobRef} (href : (k, ref) ∈ s.placed) :
    (ref, r.blob) ∈ s.arena.written ∧ ref.Names b.arena r.blob (blobRefAt r.payload).flags := by
  obtain ⟨r', hr', hplaced⟩ := h.placed k ref href
  obtain rfl := hr.unique hr'
  exact hplaced b hb

/-- **A payload made of words of the mirror's payloads of a record is one of them**, with the blob
where the word of the offset says. -/
theorem Inv.mixes (h : s.Inv cfg) : Mixes (s.Holds cfg) := by
  rintro k d ⟨d', r, hr, hd'⟩ hwords
  refine ⟨r, hr, ?_⟩
  have hlen : r.payload.length = 8 * n := (hr.wellFormed h.source).length
  cases hb : cfg.blob with
  | none =>
    funext j
    obtain ⟨e, ⟨r', hr', he⟩, heq⟩ := hwords j
    obtain rfl := hr.unique hr'
    simp only [hb] at he
    rw [heq, he]
  | some b =>
    have hn : blobRefLen ≤ 8 * n := cfg.geometry.descriptor (by rw [cfg.geometry_arena, hb]; rfl)
    have hword : ∀ j, ∃ ref, (k, ref) ∈ s.placed ∧ d j = wordsOf n (putBlobRef r.payload ref) j := by
      intro j
      obtain ⟨e, ⟨r', hr', he⟩, heq⟩ := hwords j
      obtain rfl := hr.unique hr'
      simp only [hb] at he
      obtain ⟨ref, href, rfl⟩ := he
      exact ⟨ref, href, heq⟩
    have hoff : n - 2 < n := by
      unfold blobRefLen at hn
      omega
    obtain ⟨ref, href, hat⟩ := hword ⟨n - 2, hoff⟩
    refine ⟨ref, href, funext fun j => ?_⟩
    by_cases hj : (j : ℕ) + 2 = n
    · obtain rfl : j = ⟨n - 2, hoff⟩ := Fin.ext (by simp only; omega)
      exact hat
    · obtain ⟨ref', href', heq⟩ := hword j
      obtain ⟨hl, hf⟩ := names_congr (h.names hb hr href').2 (h.names hb hr href).2
      rw [heq, wordsOf_putBlobRef_congr hlen hn hj hl hf]

/-- The descriptor of a mirror's payload is the mirror's reference. -/
theorem packetRef_putBlobRef (hcfg : cfg.Aligned) {b : PacketConfig} (hb : cfg.blob = some b)
    {payload : List UInt8} (hlen : payload.length = 8 * n) {ref : BlobRef} (hfits : ref.Fits) :
    bytesOf (wordsOf n (putBlobRef payload ref)) = putBlobRef payload ref ∧
      packetRef b (wordsOf n (putBlobRef payload ref)) = ref := by
  have hend := SlotLayout.refEnd_eq (hcfg.size b hb) (hcfg.align b hb)
  have hwidth := cfg.width b hb
  have hn : blobRefLen ≤ 8 * n := cfg.geometry.descriptor (by rw [cfg.geometry_arena, hb]; rfl)
  have hput : (putBlobRef payload ref).length = 8 * n := by
    rw [length_putBlobRef (by omega), hlen]
  refine ⟨bytesOf_wordsOf hput, ?_⟩
  rw [packetRef, bytesOf_wordsOf hput, List.take_of_length_le (by omega)]
  exact blobRefAt_putBlobRef hfits payload

/-- **The descriptor of a mirror's payload names the blob of the record.** -/
theorem Inv.named (hcfg : cfg.Aligned) (h : s.Inv cfg) {b : PacketConfig} (hb : cfg.blob = some b) :
    Named b.arena (packetRef b) (s.Holds cfg) s.BlobOf s.arena where
  only := by
    rintro k _ _ ⟨r, hr, rfl⟩ ⟨r', hr', rfl⟩
    rw [hr.unique hr']
  named := by
    rintro k d ⟨r, hr, hd⟩
    simp only [hb] at hd
    obtain ⟨ref, href, rfl⟩ := hd
    obtain ⟨hmem, hnames⟩ := h.names hb hr href
    obtain ⟨hgranted, -, hstored⟩ := (h.arena b hb).written _ _ hmem
    rw [(packetRef_putBlobRef hcfg hb (hr.wellFormed h.source).length hnames.fits).2]
    exact ⟨r.blob, ⟨r, hr, rfl⟩, hnames.len, ((h.arena b hb).allocated.placed _ hgranted).1, hstored⟩

/-! ## The source and the server -/

theorem Inv.create (ρ κ : Type) (cfg : SourceConfig (8 * n)) : (create ρ κ cfg).Inv cfg where
  source := .create ρ cfg
  reading := by rintro _ _ ⟨⟩
  received := by rintro _ _ ⟨⟩
  stored := by rintro _ ⟨⟩
  content := .create cfg.ring.cap _
  writing := by rintro _ ⟨⟩
  staged := by rintro _ _ ⟨⟩
  arena := fun b _ => .init b.arena
  placed := by rintro _ _ ⟨⟩

theorem Readers.create (ρ κ : Type) (cfg : SourceConfig (8 * n)) : (create ρ κ cfg).Readers cfg :=
  ⟨fun _ _ => .attach (le_refl 1), fun _ _ _ => .attach (le_refl 1)⟩

theorem Inv.ne_slotWriting (h : s.Inv cfg) {k : ℕ} (hk : k ≤ s.source.seq) : k ≠ slotWriting := by
  have hbound := h.source.bound
  have hlt : 2 ^ 63 < slotWriting := by decide
  omega

/-- The source goes on. -/
theorem Inv.next_source [DecidableEq ρ] (hcfg : cfg.Aligned) (h : s.Inv cfg)
    {source : Source ρ (8 * n)} (hm : Source.Move cfg s.source source) :
    Next cfg s { s with source := source } := by
  have hsource := h.source.step hcfg hm
  have hg := h.source.grows hm
  have has : ∀ k r, s.source.Has k r → source.Has k r := fun k r hr => hr.grows h.source hsource hg
  refine ⟨{ h with
    source := hsource
    reading := fun k pc hpc => ?_
    received := fun k r hr => (h.received k r hr).imp_left (has k r)
    stored := fun k hk => (h.stored k hk).trans_le hg.seq
    content := h.content.mono (Holds.mono has fun _ hx => hx)
    writing := fun job hjob => (h.writing job hjob).imp_left fun hlt => hlt.trans_le hg.seq
    staged := fun k r hr => (h.staged k r hr).imp_right (And.imp_left (has k r))
    placed := fun k ref href => ?_ }, fun hr => ?_⟩
  · obtain ⟨hpos, hle, hsound, hfresh⟩ := h.reading k pc hpc
    exact ⟨hpos, hle.trans hg.seq, hsound.grows h.source hsource hg (h.ne_slotWriting hle), hfresh⟩
  · obtain ⟨r, hr, hrest⟩ := h.placed k ref href
    exact ⟨r, has k r hr, hrest⟩
  · exact hr.of_file_eq rfl rfl rfl has (fun _ hx => hx) (le_refl _)

/-- A slot of the source that shows `k` is less than a ring behind, and so is all that was ever
written into the mirror's slot. -/
theorem Inv.fresh_of_word (h : s.Inv cfg) {k : ℕ} (hpos : 1 ≤ k)
    (hword : (s.source.sys.mem.slots (slotIndex cfg.ring.cap k)).seq = k) : s.Fresh cfg k := by
  intro j hj hidx
  have hle : s.source.seq ≤ k + cfg.ring.cap.val := h.source.sys.ring.le_add_of_word hpos hword
  have hlt := h.stored j hj
  left
  by_contra hgt
  have := add_capacity_le hidx.symm (Nat.lt_of_not_le hgt)
  omega

/-- A record that is read, or whose blob is being copied, was in its slot. -/
theorem step_shown {w : ℕ} {cfg : SourceConfig w} {source : Source ρ w} {k : ℕ} {pc pc' : RecordPc w}
    {a : ReadLabel w} (hstep : pc.step cfg source k a = some pc')
    (hpast : pastSlot pc' = true ∨ ∃ r, pc' = .done (.item r)) :
    pastSlot pc = true ∨ (source.sys.mem.slots (slotIndex cfg.ring.cap k)).seq = k := by
  have hslot : ∀ {rd rd' : ReadPc w UInt8} {x : Option (Fin w)},
      rd.step (source.sys.mem.slots (slotIndex cfg.ring.cap k)) k x = some rd' →
      pc' = .afterSlot cfg rd' → (source.sys.mem.slots (slotIndex cfg.ring.cap k)).seq = k := by
    rintro rd rd' x hr rfl
    cases rd' with
    | load =>
      rcases hpast with hpast | ⟨r, hpast⟩ <;> cases hpast
    | copy left buf =>
      rcases hpast with hpast | ⟨r, hpast⟩ <;> cases hpast
    | done r =>
      cases r with
      | item d => exact ReadPc.step_item hr
      | pending =>
        rcases hpast with hpast | ⟨r, hpast⟩ <;> cases hpast
      | overwritten seen =>
        rcases hpast with hpast | ⟨r, hpast⟩ <;> cases hpast
  cases pc with
  | blob d rd => exact .inl rfl
  | done r => cases a <;> cases hstep
  | slot rd =>
    right
    cases a with
    | byte i => cases hstep
    | word i =>
      obtain ⟨rd', hr, rfl⟩ := Option.map_eq_some_iff.mp hstep
      exact hslot hr rfl
    | tick =>
      obtain ⟨rd', hr, rfl⟩ := Option.map_eq_some_iff.mp hstep
      exact hslot hr rfl

/-- The server reads a record. -/
theorem Inv.next_serve (h : s.Inv cfg) {a : ReadLabel (8 * n)} (hstep : s.serve cfg a = some s') :
    Next cfg s s' := by
  unfold serve at hstep
  split at hstep
  · cases hstep
  next k pc hreading =>
  obtain ⟨hpos, hle, hsound, hfresh⟩ := h.reading k pc hreading
  -- a record is fresh once its slot has shown the sequence
  have hnext : ∀ pc', pc.step cfg s.source k a = some pc' → pc'.Sound cfg s.source k ∧
      ((pastSlot pc' = true ∨ ∃ r, pc' = .done (.item r)) → s.Fresh cfg k) := by
    intro pc' hpc
    refine ⟨hsound.step h.source hpos (h.ne_slotWriting hle) hpc, fun hpast => ?_⟩
    exact (step_shown hpc hpast).elim hfresh (h.fresh_of_word hpos)
  have hreaders : ∀ {reading received}, s.Readers cfg →
      Readers cfg { s with reading := reading, received := received } := fun hr =>
    hr.of_file_eq rfl rfl rfl (fun _ _ hx => hx) (fun _ hx => hx) (le_refl _)
  split at hstep
  · next r hpc =>
    cases hstep
    obtain ⟨hhas, hf⟩ := hnext _ hpc
    refine ⟨{ h with
      reading := by rintro _ _ ⟨⟩
      received := fun k' r' hr' => ?_ }, hreaders⟩
    rcases List.mem_append.mp hr' with hr' | hr'
    · exact h.received k' r' hr'
    · cases List.mem_singleton.mp hr'
      exact ⟨hhas, hf (.inr ⟨r, rfl⟩)⟩
  · cases hstep
    exact ⟨{ h with reading := by rintro _ _ ⟨⟩ }, hreaders⟩
  · next pc' _ _ hpc =>
    cases hstep
    obtain ⟨hs', hf⟩ := hnext _ hpc
    refine ⟨{ h with reading := ?_ }, hreaders⟩
    rintro _ _ ⟨⟩
    exact ⟨hpos, hle, hs', fun hpast => hf (.inl hpast)⟩
  · cases hstep

/-! ## The process -/

/-- A process that goes on never puts a later record under one it may still take. -/
theorem Fresh.move {k : ℕ} (h : s.Fresh cfg k) {file : MirrorFile n (Payload 8 UInt8)}
    (hmove : MirrorFile.Move cfg.ring.cap s.file file) : Fresh cfg { s with file := file } k := by
  obtain ⟨hle, hwritten⟩ := hmove.grows
  intro j hj hidx
  simp only
  rcases hwritten j hj with hj | ⟨rfl, -⟩
  · exact (h j hj hidx).imp_right fun hlt => hlt.trans_le hle
  · omega

/-- The process goes on with its file; whatever it begins to write is the record of the source, and
nothing later is in the slot. -/
theorem Inv.next_file (h : s.Inv cfg) (hidle : s.staged = none)
    {file : MirrorFile n (Payload 8 UInt8)} (hmove : MirrorFile.Move cfg.ring.cap s.file file)
    (hbegin : ∀ job, file.pc = .marking job → job.For (s.Holds cfg) s.file.nextSeq ∧
      s.file.Newest cfg.ring.cap s.file.nextSeq ∧ s.file.nextSeq < s.source.seq ∧
      (cfg.blob = none → job.ref = ∅)) : Next cfg s { s with file := file } := by
  refine ⟨{ h with
    reading := fun k pc hpc => ?_
    received := fun k r hr => (h.received k r hr).imp_right fun hf => hf.move hmove
    stored := fun k hk => ?_
    content := h.content.step hmove fun job hjob => ⟨(hbegin job hjob).1, (hbegin job hjob).2.1⟩
    writing := fun job hjob => ?_
    staged := fun k r hr => ?_ }, fun hr => ?_⟩
  · obtain ⟨hpos, hle, hsound, hfresh⟩ := h.reading k pc hpc
    exact ⟨hpos, hle, hsound, fun hpast => (hfresh hpast).move hmove⟩
  · rcases hmove.grows.2 k hk with hk | ⟨rfl, job, hjob⟩
    · exact h.stored k hk
    · exact (h.writing job hjob).1
  -- the job is a new one or the one in progress
  · obtain ⟨hseq, hnew | hold⟩ := hmove.job hjob
    · obtain ⟨-, -, hlt, href⟩ := hbegin job hnew
      exact ⟨by simp only [hseq]; exact hlt, hidle, href⟩
    · obtain ⟨hlt, -, href⟩ := h.writing job hold
      exact ⟨by simp only [hseq]; exact hlt, hidle, href⟩
  · rw [show s.staged = some (k, r) from hr] at hidle
    cases hidle
  · refine hr.evolves rfl rfl hmove.written_subset (fun _ _ hx => hx) (fun _ hx => hx) (le_refl _) ?_
    intro hb rd want hpicks hkept
    refine hkept.evolves hpicks h.content hmove fun job left ref hpc => ?_
    exact (h.writing job (by rw [hpc]; rfl)).2.2 hb

/-- The process writes on, or calls `publish` or `skip_to`: it begins nothing. -/
theorem Inv.next_on (h : s.Inv cfg) (hidle : s.staged = none)
    {file : MirrorFile n (Payload 8 UInt8)} (hmove : MirrorFile.Move cfg.ring.cap s.file file)
    (hold : ∀ job, file.pc ≠ .marking job) : Next cfg s { s with file := file } :=
  h.next_file hidle hmove fun job hjob => absurd hjob (hold job)

/-- A step inside a call of the process. -/
theorem Inv.next_step (h : s.Inv cfg) {a : FileLabel n (Payload 8 UInt8)}
    (ha : ∀ c, a ≠ .call c) {file : MirrorFile n (Payload 8 UInt8)}
    (hstep : s.file.step cfg.ring.cap a = some file) : Next cfg s { s with file := file } := by
  have hmove := MirrorFile.Move.of_step h.content.inv.fits hstep
  have hbusy : s.file.pc ≠ .idle := by
    intro hpc
    unfold MirrorFile.step at hstep
    rw [hpc] at hstep
    cases a with
    | call c => exact absurd rfl (ha c)
    | word j => cases hstep
    | tick => cases hstep
  obtain ⟨job, hjob⟩ : ∃ job, s.file.pc.job = some job := by
    cases hpc : s.file.pc with
    | idle => exact absurd hpc hbusy
    | marking job => exact ⟨job, rfl⟩
    | copying job left ref => exact ⟨job, rfl⟩
  exact h.next_on (h.writing job hjob).2.1 hmove fun _ hnew => hbusy (hmove.idle_of_marking hnew)

/-- A call of the process between two records. -/
theorem Inv.next_between (h : s.Inv cfg) {c : FileCall n (Payload 8 UInt8)}
    (hc : c = .publish ∨ ∃ seq, c = .skipTo seq) (hstep : s.between cfg c = some s') :
    Next cfg s s' := by
  unfold between at hstep
  split at hstep
  · next hstaged =>
    obtain ⟨file, hfile, rfl⟩ := Option.map_eq_some_iff.mp hstep
    refine h.next_on hstaged (.of_step h.content.inv.fits hfile) fun job hjob => ?_
    have hidle := (MirrorFile.Move.of_step h.content.inv.fits hfile).idle_of_marking hjob
    simp only [MirrorFile.step, hidle] at hfile
    rcases hc with rfl | ⟨seq, rfl⟩
    · cases hfile
      rw [show s.file.pc = .marking job from hjob] at hidle
      cases hidle
    · simp only [MirrorFile.start] at hfile
      split_ifs at hfile <;> cases hfile <;>
      · rw [show s.file.pc = .marking job from hjob] at hidle
        cases hidle
  · cases hstep

/-- `skip_to` moves the write position up, and nothing else. -/
theorem start_skipTo {file : MirrorFile n (Payload 8 UInt8)} {k : ℕ} (hle : s.file.nextSeq ≤ k)
    (h : s.file.start (.skipTo k) = some file) : file = { s.file with nextSeq := k } ∧ k ≤ u64Max := by
  simp only [MirrorFile.start] at h
  split_ifs at h with hk hlt
  · cases h
    exact ⟨rfl, hk⟩
  · cases h
    obtain rfl : k = s.file.nextSeq := by omega
    exact ⟨rfl, hk⟩

/-- The process takes a record it has received. -/
theorem Inv.next_take (h : s.Inv cfg) {i : ℕ} (hstep : s.take cfg i = some s') : Next cfg s s' := by
  unfold take at hstep
  split at hstep
  case h_2 => cases hstep
  next k r hi hpc hstaged =>
  split_ifs at hstep with hle
  obtain ⟨hhas, hfresh⟩ := h.received k r (List.mem_of_getElem? hi)
  have hnew : s.file.Newest cfg.ring.cap k := fun j hj hidx =>
    (hfresh j hj hidx).resolve_right (by omega)
  unfold begin at hstep
  split at hstep
  · cases hstep
  next file hfile =>
  obtain ⟨rfl, hk⟩ := start_skipTo hle hfile
  -- the skip to `k` and the start of the write are two moves of the file
  have hskip : Next cfg s { s with file := { s.file with nextSeq := k } } := by
    refine h.next_on hstaged (.skip k hk hle hpc rfl) fun job hjob => ?_
    rw [show s.file.pc = .marking job from hjob] at hpc
    cases hpc
  split at hstep
  · next hb =>
    obtain ⟨file', hfile', rfl⟩ := Option.map_eq_some_iff.mp hstep
    have hwrite := hskip.inv.next_file hstaged (.of_start hpc hk hfile') ?_
    · exact ⟨hwrite.inv, fun hr => hwrite.readers (hskip.readers hr)⟩
    · intro job hjob
      simp only [MirrorFile.start] at hfile'
      split_ifs at hfile'
      cases hfile'
      cases hjob
      refine ⟨⟨⟨r, hhas, by rw [hb]⟩, fun _ _ => rfl⟩, hnew, hhas.lt, fun _ => rfl⟩
  · next b hb =>
    obtain ⟨⟨arena, writer⟩, hw, rfl⟩ := Option.map_eq_some_iff.mp hstep
    -- a record with a blob goes to the arena first, the slot is written later
    have he := ArenaWriter.step_effect hw
    refine ⟨{ hskip.inv with
      writing := fun job hjob => ?_
      staged := ?_
      arena := fun b' hb' => ?_
      placed := fun k' ref href => ?_ }, fun hr => ?_⟩
    · have hnone : s.file.pc.job = some job := hjob
      rw [hpc] at hnone
      cases hnone
    · rintro _ _ ⟨⟩
      exact ⟨rfl, hhas, hnew, b, hb, .start hw⟩
    · rw [hb] at hb'
      cases hb'
      exact (h.arena b hb).step he
    · obtain ⟨r', hr', hrest⟩ := h.placed k' ref href
      exact ⟨r', hr', fun b' hb' => (hrest b' hb').imp_left (he.written_subset _)⟩
    · exact (hskip.readers hr).of_file_eq rfl rfl rfl (fun _ _ hx => hx) (fun _ hx => hx)
        he.reserved_le

/-- `write_blob` goes on in the arena. -/
theorem Inv.next_arena (h : s.Inv cfg) {b : PacketConfig} (hb : cfg.blob = some b)
    {a : WriterLabel UInt8} (ha : a.isCall = false) {arena : ArenaMem UInt8}
    {writer : ArenaWriter UInt8} (hw : s.writer.step b.arena s.arena a = some (arena, writer)) :
    Next cfg s { s with arena := arena, writer := writer } := by
  have he := ArenaWriter.step_effect hw
  refine ⟨{ h with
    staged := fun k' r' hr' => ?_
    arena := fun b' hb' => ?_
    placed := fun k' ref href => ?_ }, fun hr => ?_⟩
  · obtain ⟨hk, hhas, hnew, b', hb', hserves⟩ := h.staged k' r' hr'
    rw [hb] at hb'
    cases hb'
    exact ⟨hk, hhas, hnew, b, hb, hserves.step (blobRefAt_lt _).2 ha hw⟩
  · rw [hb] at hb'
    cases hb'
    exact (h.arena b hb).step he
  · obtain ⟨r', hr', hrest⟩ := h.placed k' ref href
    exact ⟨r', hr', fun b' hb' => (hrest b' hb').imp_left (he.written_subset _)⟩
  · exact hr.of_file_eq rfl rfl rfl (fun _ _ hx => hx) (fun _ hx => hx) he.reserved_le

/-- The blob is placed, and its slot is next. -/
theorem Inv.next_place (h : s.Inv cfg) (hstep : s.place = some s') : Next cfg s s' := by
  unfold place at hstep
  split at hstep
  · next k r ref hstaged hpc hres =>
    obtain ⟨file, hfile, rfl⟩ := Option.map_eq_some_iff.mp hstep
    obtain ⟨rfl, hhas, hnew, b, hb, hserves⟩ := h.staged k r hstaged
    unfold ArenaWriter.Serves at hserves
    rw [hpc] at hserves
    obtain ⟨hmem, hnames⟩ := hserves ref hres
    have hsub : ∀ x ∈ s.placed, x ∈ s.placed ++ [(s.file.nextSeq, ref)] := fun _ hx =>
      List.mem_append_left _ hx
    have hidle : s.file.pc = .idle := by
      cases hjob : s.file.pc.job with
      | none =>
        cases hp : s.file.pc with
        | idle => rfl
        | marking job => rw [hp] at hjob; cases hjob
        | copying job left ref => rw [hp] at hjob; cases hjob
      | some job =>
        rw [(h.writing job hjob).2.1] at hstaged
        cases hstaged
    -- first the reference is known, then the slot is begun
    have hknown : Next cfg s { s with
        staged := none, placed := s.placed ++ [(s.file.nextSeq, ref)] } := by
      refine ⟨{ h with
        content := h.content.mono (Holds.mono (fun _ _ hx => hx) hsub)
        writing := fun job hjob => ?_
        staged := by rintro _ _ ⟨⟩
        placed := fun k' ref' href => ?_ }, fun hr => ?_⟩
      · obtain ⟨hlt, -, href⟩ := h.writing job hjob
        exact ⟨hlt, rfl, href⟩
      · rcases List.mem_append.mp href with href | href
        · exact h.placed k' ref' href
        · cases List.mem_singleton.mp href
          refine ⟨r, hhas, fun b' hb' => ?_⟩
          rw [hb] at hb'
          cases hb'
          exact ⟨hmem, hnames⟩
      · exact hr.of_file_eq rfl rfl rfl (fun _ _ hx => hx) hsub (le_refl _)
    have hwrite := hknown.inv.next_file rfl (.of_start hidle h.content.inv.fits hfile) ?_
    · exact ⟨hwrite.inv, fun hr => hwrite.readers (hknown.readers hr)⟩
    · intro job hjob
      simp only [MirrorFile.start] at hfile
      split_ifs at hfile
      cases hfile
      cases hjob
      refine ⟨⟨⟨r, hhas, ?_⟩, fun j hj => ?_⟩, hnew, hhas.lt, fun hnone => ?_⟩
      · rw [hb]
        exact ⟨ref, List.mem_append_right _ (List.mem_singleton_self _), rfl⟩
      · exact wordsOf_putBlobRef_front (hhas.wellFormed h.source).length hj ref
      · rw [hb] at hnone
        cases hnone
  · next hstaged _ _ =>
    cases hstep
    refine ⟨{ h with
      writing := fun job hjob => ?_
      staged := by rintro _ _ ⟨⟩ }, fun hr => ?_⟩
    · obtain ⟨hlt, -, href⟩ := h.writing job hjob
      exact ⟨hlt, rfl, href⟩
    · exact hr.of_file_eq rfl rfl rfl (fun _ _ hx => hx) (fun _ hx => hx) (le_refl _)
  · cases hstep

/-- **The process dies, wherever it stands, and another one takes over.** -/
theorem Inv.next_crash (h : s.Inv cfg) : Next cfg s s.crash := by
  refine ⟨{ h with
    reading := by rintro _ _ ⟨⟩
    received := by rintro _ _ ⟨⟩
    content := h.content.adopt
    writing := by rintro _ ⟨⟩
    staged := by rintro _ _ ⟨⟩
    arena := fun b hb => (h.arena b hb).forget }, fun hr => ?_⟩
  exact hr.evolves rfl rfl (fun _ hk => hk) (fun _ _ hx => hx) (fun _ hx => hx) (le_refl _)
    fun _ _ _ _ hkept => hkept.adopt

/-! ## The readers -/

/-- A new reader of the mirror ring. -/
theorem Readers.attach_ring [DecidableEq κ] (h : s.Readers cfg) {q : κ} {registered : Bool}
    {cursor lappedTotal : ℕ} (hcursor : 1 ≤ cursor) :
    Readers cfg { s with
      ring := Function.update s.ring q (.attach false true registered cursor lappedTotal) } := by
  refine ⟨fun hb q' => ?_, h.blob⟩
  rcases eq_or_ne q' q with rfl | hq
  · simp only [Function.update_self]
    exact .attach hcursor
  · simp only [Function.update_of_ne hq]
    exact h.ring hb q'

theorem Readers.attach_blob [DecidableEq κ] (h : s.Readers cfg) {q : κ} {cursor lappedTotal : ℕ}
    (hcursor : 1 ≤ cursor) :
    Readers cfg { s with blob := Function.update s.blob q (.attach true cursor lappedTotal) } := by
  refine ⟨h.ring, fun b hb q' => ?_⟩
  rcases eq_or_ne q' q with rfl | hq
  · simp only [Function.update_self]
    exact .attach hcursor
  · simp only [Function.update_of_ne hq]
    exact h.blob b hb q'

/-- A reader of a ring without an arena takes a step. -/
theorem Readers.ring_step [DecidableEq κ] (h : s.Readers cfg) (hs : s.Inv cfg)
    (hb : cfg.blob = none) {q : κ} {a : ConsumerLabel n} {c : RingConsumer n (Payload 8 UInt8)}
    {stored : Option ℕ}
    (hstep : (s.ring q).step cfg.ring.cap s.file.slots s.file.writeSeq a = some (c, stored)) :
    Readers cfg { s with ring := Function.update s.ring q c } := by
  refine ⟨fun _ q' => ?_, h.blob⟩
  rcases eq_or_ne q' q with rfl | hq
  · simp only [Function.update_self]
    exact (h.ring hb q').step hs.content hs.mixes hstep
  · simp only [Function.update_of_ne hq]
    exact h.ring hb q'

/-- A blob consumer takes a step, and no word of the source's reference. -/
theorem Readers.blob_step [DecidableEq κ] (hcfg : cfg.Aligned) (h : s.Readers cfg) (hs : s.Inv cfg)
    {b : PacketConfig} (hb : cfg.blob = some b) {q : κ} {a : ReceiverLabel n}
    (hok : s.Undisturbed cfg (.blob q a)) {c : BlobReceiver n (Payload 8 UInt8)}
    (hstep : (s.blob q).step cfg.ring.cap b.arena (packetRef b) s.memory a = some c) :
    Readers cfg { s with blob := Function.update s.blob q c } := by
  refine ⟨h.ring, fun b' hb' q' => ?_⟩
  rw [hb] at hb'
  cases hb'
  rcases eq_or_ne q' q with rfl | hq
  · simp only [Function.update_self]
    refine (h.blob b hb q').step hs.content hs.mixes (hs.named hcfg hb) (fun j hj => ?_) hstep
    exact hok q' j (by rw [hj])
  · simp only [Function.update_of_ne hq]
    exact h.blob b hb q'

/-! ## Whole runs -/

variable [DecidableEq ρ] [DecidableEq κ]

/-- **Every step keeps what holds of the process and its readers**, whoever dies. -/
theorem Inv.step (hcfg : cfg.Aligned) (h : s.Inv cfg) (hr : s.Readers cfg) {a : CrashLabel ρ κ n}
    (hok : s.Undisturbed cfg a) (hstep : s.step cfg a = some s') : s'.Inv cfg ∧ s'.Readers cfg := by
  have hnext : Next cfg s s' → s'.Inv cfg ∧ s'.Readers cfg := fun hn => ⟨hn.inv, hn.readers hr⟩
  cases a with
  | source a =>
    obtain ⟨source, hsource, rfl⟩ := Option.map_eq_some_iff.mp hstep
    exact hnext (h.next_source hcfg (Source.step_move hsource))
  | fetch k =>
    simp only [CrashSystem.step] at hstep
    split_ifs at hstep with hk
    cases hstep
    refine hnext ⟨{ h with reading := ?_ }, fun hr => ?_⟩
    · rintro _ _ ⟨⟩
      exact ⟨hk.1, hk.2, trivial, by rintro ⟨⟩⟩
    · exact hr.of_file_eq rfl rfl rfl (fun _ _ hx => hx) (fun _ hx => hx) (le_refl _)
  | serve a => exact hnext (h.next_serve hstep)
  | take i => exact hnext (h.next_take hstep)
  | arena a =>
    simp only [CrashSystem.step] at hstep
    split at hstep
    · next b _ hb _ =>
      split_ifs at hstep with ha
      obtain ⟨⟨arena, writer⟩, hw, rfl⟩ := Option.map_eq_some_iff.mp hstep
      exact hnext (h.next_arena hb (by simpa using ha) hw)
    · cases hstep
  | place => exact hnext (h.next_place hstep)
  | word j =>
    obtain ⟨file, hfile, rfl⟩ := Option.map_eq_some_iff.mp hstep
    exact hnext (h.next_step (by rintro _ ⟨⟩) hfile)
  | tick =>
    obtain ⟨file, hfile, rfl⟩ := Option.map_eq_some_iff.mp hstep
    exact hnext (h.next_step (by rintro _ ⟨⟩) hfile)
  | publish => exact hnext (h.next_between (.inl rfl) hstep)
  | skip seq => exact hnext (h.next_between (.inr ⟨seq, rfl⟩) hstep)
  | crash =>
    cases hstep
    exact hnext h.next_crash
  | attachRing q registered cursor lappedTotal =>
    simp only [CrashSystem.step] at hstep
    split_ifs at hstep with hcursor
    cases hstep
    exact ⟨{ h with }, hr.attach_ring hcursor⟩
  | ring q a =>
    simp only [CrashSystem.step] at hstep
    split at hstep
    · next hb =>
      obtain ⟨⟨c, stored⟩, hc, rfl⟩ := Option.map_eq_some_iff.mp hstep
      exact ⟨{ h with }, hr.ring_step h hb hc⟩
    · cases hstep
  | attachBlob q cursor lappedTotal =>
    simp only [CrashSystem.step] at hstep
    split_ifs at hstep with hcursor
    cases hstep
    exact ⟨{ h with }, hr.attach_blob hcursor⟩
  | blob q a =>
    simp only [CrashSystem.step] at hstep
    split at hstep
    · next b hb =>
      obtain ⟨c, hc, rfl⟩ := Option.map_eq_some_iff.mp hstep
      exact ⟨{ h with }, hr.blob_step hcfg h hb hok hc⟩
    · cases hstep

/-- **The death of a mirror's writers is invisible to its readers**, as long as no blob consumer
takes the source's blob reference out of a slot that is being written again: every reader returns
every sequence at most once, in order, with the payload and the blob pushed under it. -/
theorem crash_invisible (hcfg : cfg.Aligned)
    (h : Transition.ReachesBy (Undisturbed cfg) (step cfg) (create ρ κ cfg) s) (q : κ) :
    (cfg.blob = none →
      ((s.ring q).delivered.map Prod.fst).Pairwise (· < ·) ∧
      ∀ k d, (k, d) ∈ (s.ring q).delivered → ∃ r, s.source.Has k r ∧ bytesOf d = r.payload) ∧
    ∀ b, cfg.blob = some b →
      ((s.blob q).delivered.map Prod.fst).Pairwise (· < ·) ∧
      ∀ k packet bytes, (k, packet, bytes) ∈ (s.blob q).delivered → ∃ r, s.source.Has k r ∧
        metadata (bytesOf packet) = metadata r.payload ∧ bytes = r.blob := by
  obtain ⟨hinv, hreaders⟩ : s.Inv cfg ∧ s.Readers cfg :=
    h.invariant (P := fun s => s.Inv cfg ∧ s.Readers cfg)
      (fun hs hok hstep => hs.1.step hcfg hs.2 hok hstep) ⟨.create ρ κ cfg, .create ρ κ cfg⟩
  refine ⟨fun hb => ?_, fun b hb => ?_⟩
  -- the words delivered are those of the record of the source
  · have hq := hreaders.ring hb q
    refine ⟨hq.ordered.increasing, fun k d hd => ?_⟩
    obtain ⟨r, hr, hwords⟩ := hq.right _ hd
    simp only [hb] at hwords
    rw [hwords]
    exact ⟨r, hr, bytesOf_wordsOf (hr.wellFormed hinv.source).length⟩
  -- the packet names the place in the mirror's arena, all else is the source's
  · have hq := hreaders.blob b hb q
    refine ⟨hq.ordered.increasing, fun k packet bytes hd => ?_⟩
    obtain ⟨⟨r, hr, hwords⟩, r', hr', hbytes⟩ := hq.right _ hd
    obtain rfl := hr.unique hr'
    simp only [hb] at hwords
    obtain ⟨ref, href, rfl⟩ := hwords
    have hnames := (hinv.names hb hr href).2
    have hlen := (hr.wellFormed hinv.source).length
    rw [(packetRef_putBlobRef hcfg hb hlen hnames.fits).1, metadata_putBlobRef]
    exact ⟨r, hr, rfl, hbytes⟩

end CrashSystem

/-! ## Readers that notice nothing -/

/-- A ring of two words of eight bytes. -/
def twoWords : SourceConfig (8 * 1) :=
  .ofRing (8 * 1) ⟨⟨2, isPowerOfTwo_two⟩, 0, .lossyLatestWins⟩

theorem twoWords_aligned : twoWords.Aligned := ⟨by rintro _ ⟨⟩, by rintro _ ⟨⟩⟩

/-- `push` of one word. -/
def pushWord : List (SourceLabel Unit (8 * 1)) :=
  [.ring (.producer (.call (.push fun i => UInt8.ofNat i))), .ring (.producer .tick),
    .ring (.producer .tick)] ++
  (List.finRange 8).map (fun i => .ring (.producer (.word i))) ++
  [.ring (.producer .tick), .ring (.producer .tick), .ring (.producer .tick)]

/-- A process receives the word and copies it into its marked slot. -/
def mirrorWord : List (CrashLabel Unit Unit 1) :=
  [.fetch 1, .serve .tick] ++ (List.finRange 8).map (fun i => .serve (.word i)) ++
  [.serve .tick, .take 0, .tick, .word onlyWord]

/-- A writer dies after it has stored the word and before it has published it. The next one writes
the word again while a reader copies it. -/
def rewriteWord : List (CrashLabel Unit Unit 1) :=
  pushWord.map .source ++ mirrorWord ++
  [.tick, .ring () (.call .recvStatus), .ring () .tick, .crash] ++ mirrorWord ++
  [.ring () (.word onlyWord), .tick, .ring () .tick]

/-- The word is written twice while a reader copies it. -/
theorem rewriteWord_reaches : ∃ s : CrashSystem Unit Unit 1,
    Transition.ReachesBy (CrashSystem.Undisturbed twoWords) (CrashSystem.step twoWords)
      (CrashSystem.create Unit Unit twoWords) s ∧
    s.file.written = [1, 1] ∧ (s.ring ()).delivered.map Prod.fst = [1] := by
  obtain ⟨s, hs, hfacts⟩ : ∃ s, Transition.run (CrashSystem.step twoWords)
      (CrashSystem.create Unit Unit twoWords) rewriteWord = some s ∧
      s.file.written = [1, 1] ∧ (s.ring ()).delivered.map Prod.fst = [1] := ⟨_, rfl, rfl, rfl⟩
  refine ⟨s, .append .refl hs ?_, hfacts⟩
  rintro a ha v q j rfl
  simp [rewriteWord, mirrorWord] at ha

/-- A ring of two descriptors with an arena of four cache lines. -/
def twoPackets : SourceConfig (8 * 2) where
  ring := ⟨⟨2, isPowerOfTwo_two⟩, 0, .lossyLatestWins⟩
  blob := some ⟨.fourLines, ⟨0, 1⟩⟩
  width := by rintro _ ⟨⟩; rfl
  lossy := fun _ _ => rfl

theorem twoPackets_aligned : twoPackets.Aligned :=
  ⟨by rintro _ ⟨⟩; exact one_dvd _, by rintro _ ⟨⟩; exact .inl rfl⟩

/-- `push` of the blob `[7]`, which is placed at offset 0 of the source's arena. -/
def pushPacket : List (SourceLabel Unit (8 * 2)) :=
  [.push ⟨[], [], [7]⟩, .writer .tick, .writer .tick, .writer (.byte 0), .writer .tick,
    .publishPacket, .ring (.producer .tick), .ring (.producer .tick)] ++
  (List.finRange 16).map (fun i => .ring (.producer (.word i))) ++
  [.ring (.producer .tick), .ring (.producer .tick), .ring (.producer .tick)]

/-- A process receives the packet and starts to write it. -/
def receivePacket : List (CrashLabel Unit Unit 2) :=
  [.fetch 1, .serve .tick] ++ (List.finRange 16).map (fun i => .serve (.word i)) ++
  [.serve .tick, .serve (.byte 0), .serve .tick, .take 0]

/-- It places the blob, marks the slot and copies the descriptor of the source into it. -/
def copyPacket : List (CrashLabel Unit Unit 2) :=
  [.arena .tick, .arena .tick, .arena (.byte 0), .arena .tick, .place, .tick, .word firstOfTwo,
    .word secondOfTwo]

/-- It replaces the reference and stores the sequence. -/
def storePacket : List (CrashLabel Unit Unit 2) :=
  [.word firstOfTwo, .word secondOfTwo, .tick]

/-- A writer stores the packet, which a reader begins to read, and dies before it publishes. The
next one writes the packet again, up to its own reference. -/
def rewriteUnseen : List (CrashLabel Unit Unit 2) :=
  pushPacket.map .source ++ receivePacket ++ copyPacket ++ storePacket ++
  [.blob () (.call none), .blob () .tick, .crash] ++ receivePacket ++ copyPacket ++
  [.word firstOfTwo, .word secondOfTwo]

/-- It stores the sequence, and the reader, which has copied the descriptor, reads the blob. -/
def readOn : List (CrashLabel Unit Unit 2) :=
  [.tick, .blob () .tick, .blob () .tick, .blob () (.byte 0), .blob () .tick]

/-- The reader is at record `1`, whose slot has a reference of the mirror. -/
def Restored (s : CrashSystem Unit Unit 2) : Prop :=
  (s.blob ()).cursor = 1 ∧ ∀ j, GoodWord (s.Holds twoPackets) 1 j ((s.file.slots 1).data j)

theorem Restored.undisturbed {s : CrashSystem Unit Unit 2} (h : Restored s) (j : Fin 2) :
    s.Undisturbed twoPackets (.blob () (.word j)) := by
  rintro q i heq - -
  cases heq
  rw [h.1]
  exact h.2 j

/-- The packet is written twice, with two references, while a reader copies it. -/
theorem rewriteUnseen_reaches : ∃ s : CrashSystem Unit Unit 2,
    Transition.ReachesBy (CrashSystem.Undisturbed twoPackets) (CrashSystem.step twoPackets)
      (CrashSystem.create Unit Unit twoPackets) s ∧
    s.file.written = [1, 1] ∧ s.placed.map (fun x => x.2.offset) = [0, 64] ∧
    (s.blob ()).delivered.map (fun x => (x.1, x.2.2)) = [(1, [7])] := by
  obtain ⟨s₁, s₂, s₃, s, hs₁, hs₂, hs₃, hs, h₁, h₂, hfacts⟩ : ∃ s₁ s₂ s₃ s,
      Transition.run (CrashSystem.step twoPackets) (CrashSystem.create Unit Unit twoPackets)
        rewriteUnseen = some s₁ ∧
      s₁.step twoPackets (.blob () (.word firstOfTwo)) = some s₂ ∧
      s₂.step twoPackets (.blob () (.word secondOfTwo)) = some s₃ ∧
      Transition.run (CrashSystem.step twoPackets) s₃ readOn = some s ∧
      Restored s₁ ∧ (s₂.blob ()).cursor = 1 ∧
      s.file.written = [1, 1] ∧ s.placed.map (fun x => x.2.offset) = [0, 64] ∧
      (s.blob ()).delivered.map (fun x => (x.1, x.2.2)) = [(1, [7])] := by
    refine ⟨_, _, _, _, rfl, rfl, rfl, rfl, ⟨rfl, fun j => ⟨_, ⟨_, ⟨le_refl 1, by decide, _, rfl,
      rfl⟩, ⟨64, 1, 0⟩, by decide, rfl⟩, ?_⟩⟩, rfl, rfl, rfl, rfl⟩
    funext i
    revert i j
    decide
  have hlater : Restored s₂ := by
    obtain ⟨c, -, rfl⟩ := Option.map_eq_some_iff.mp hs₂
    exact ⟨h₂, h₁.2⟩
  refine ⟨s, .append (.tail (.tail (.append .refl hs₁ ?_) (h₁.undisturbed _) hs₂)
    (hlater.undisturbed _) hs₃) hs ?_, hfacts⟩
  · rintro a ha v q j rfl
    simp [rewriteUnseen, receivePacket, copyPacket, storePacket] at ha
  · rintro a ha v q j rfl
    simp [readOn] at ha

/-- A word is written twice and returned once, and so is a packet. -/
theorem crash_invisible_rewritten : (∃ s : CrashSystem Unit Unit 1,
    Transition.ReachesBy (CrashSystem.Undisturbed twoWords) (CrashSystem.step twoWords)
      (CrashSystem.create Unit Unit twoWords) s ∧
    s.file.written = [1, 1] ∧ (s.ring ()).delivered.map Prod.fst = [1] ∧
    ∀ k d, (k, d) ∈ (s.ring ()).delivered → ∃ r, s.source.Has k r ∧ bytesOf d = r.payload) ∧
    ∃ s : CrashSystem Unit Unit 2,
    Transition.ReachesBy (CrashSystem.Undisturbed twoPackets) (CrashSystem.step twoPackets)
      (CrashSystem.create Unit Unit twoPackets) s ∧
    s.file.written = [1, 1] ∧ (s.blob ()).delivered.map (fun x => (x.1, x.2.2)) = [(1, [7])] ∧
    ∀ k packet bytes, (k, packet, bytes) ∈ (s.blob ()).delivered → ∃ r, s.source.Has k r ∧
      metadata (bytesOf packet) = metadata r.payload ∧ bytes = r.blob := by
  constructor
  · obtain ⟨s, hreach, hwritten, hseqs⟩ := rewriteWord_reaches
    exact ⟨s, hreach, hwritten, hseqs,
      ((CrashSystem.crash_invisible twoWords_aligned hreach ()).1 rfl).2⟩
  · obtain ⟨s, hreach, hwritten, -, hblobs⟩ := rewriteUnseen_reaches
    exact ⟨s, hreach, hwritten, hblobs,
      ((CrashSystem.crash_invisible twoPackets_aligned hreach ()).2 _ rfl).2⟩

/-! ## A reader that does -/

/-- Three writers. The first one reserves offset 0 of the mirror's arena and dies, the second one
stores the packet, which a reader begins to read, and dies before it publishes, and the third one
writes the packet again. The reader copies the descriptor while it is the source's. -/
def rewritePacket : List (CrashLabel Unit Unit 2) :=
  pushPacket.map .source ++ receivePacket ++ [.arena .tick, .arena .tick, .crash] ++
  receivePacket ++ copyPacket ++ storePacket ++
  [.blob () (.call none), .blob () .tick, .crash] ++
  receivePacket ++ copyPacket ++ [.blob () (.word firstOfTwo), .blob () (.word secondOfTwo)] ++
  storePacket ++ [.blob () .tick, .blob () .tick, .blob () (.byte 0), .blob () .tick]

/-- **The reader returns a byte of the mirror's arena that no one has written**, instead of the blob
of the source. -/
theorem crash_visible : ∃ (s : CrashSystem Unit Unit 2) (packet : Payload 2 (Payload 8 UInt8))
    (r : Record),
    Transition.Reaches (CrashSystem.step twoPackets) (CrashSystem.create Unit Unit twoPackets) s ∧
    (1, packet, [0]) ∈ (s.blob ()).delivered ∧ s.source.Has 1 r ∧ r.blob = [7] := by
  obtain ⟨s, hs, ⟨packet, hpacket⟩, r, hr, hblob⟩ : ∃ s,
      Transition.run (CrashSystem.step twoPackets)
        (CrashSystem.create Unit Unit twoPackets) rewritePacket = some s ∧
      (∃ packet, (s.blob ()).delivered = [(1, packet, [0])]) ∧
      ∃ r, s.source.Has 1 r ∧ r.blob = [7] :=
    ⟨_, rfl, ⟨_, rfl⟩, _, ⟨le_refl 1, by decide, _, rfl, rfl⟩, rfl⟩
  exact ⟨s, packet, r, ⟨_, hs⟩, by rw [hpacket]; exact List.mem_singleton_self _, hr, hblob⟩

end Ringfire
