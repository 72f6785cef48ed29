import Ringfire.Replication.Tcp

/-!
# What a mirror receives over TCP

The bytes on the stream are a chain of frames: each `DATA` frame starts where the one before it
ended, and what a `GAP` leaves out is gone from the source. The mirror's write position is where the
chain starts, or below it as long as nothing has arrived.

## Main definitions

* `TcpFrame`, `Chain`: the frames on the stream
* `TcpServer.Inv`, `TcpConn.Inv`: what holds of the server, and of the whole connection

## Main results

* `TcpConn.Inv.serve`, `TcpConn.Inv.receive`: both ends keep the invariant
* `tcp_mirrors`: what arrives, and what does not
-/

namespace Ringfire

open PayloadArena

variable {ρ : Type} {w : ℕ}

/-! ## Records of the source -/

namespace Source

/-- `record` gives the records stored so far. -/
def Agrees (s : Source ρ w) (record : ℕ → Record) : Prop := ∀ k r, s.Has k r → record k = r

variable {cfg : SourceConfig w} {s s' : Source ρ w} {record : ℕ → Record}

theorem agrees_record (s : Source ρ w) : s.Agrees s.record := by
  intro k r hr
  obtain ⟨d, hd, rfl⟩ := hr.eq
  rw [Source.record, hd]
  rfl

theorem Agrees.of_grows (h : s'.Agrees record) (hs : s.Inv cfg) (hs' : s'.Inv cfg)
    (hg : s.Grows s') : s.Agrees record :=
  fun k r hr => h k r (hr.grows hs hs' hg)

theorem Has.wellFormed (hs : s.Inv cfg) {k : ℕ} {r : Record} (h : s.Has k r) :
    r.WellFormed cfg.geometry := by
  obtain ⟨d, hd, rfl⟩ := h.eq
  refine ⟨List.length_ofFn, fun hnone => ?_, fun acap hacap => ?_⟩
  · have hb : cfg.blob = none := Option.map_eq_none_iff.mp hnone
    rw [(hs.plain hb).2]
    rfl
  · obtain ⟨b, hb, rfl⟩ := Option.map_eq_some_iff.mp hacap
    obtain ⟨blob, hblob⟩ := (hs.blob b hb).exists_blob hd
    obtain ⟨-, hlen, hmax⟩ := (hs.blob b hb).packet k d blob hd hblob
    rw [List.getD_eq_getElem?_getD, hblob]
    exact ⟨hlen, hmax⟩

/-- Consecutive records are the body of a `DATA` frame. -/
theorem Agrees.flatMap_bytes (h : s.Agrees record) {seq : ℕ} {rs : List Record}
    (hrs : ∀ i r, rs[i]? = some r → s.Has (seq + i) r) :
    rs.flatMap Record.bytes = dataBytes record seq rs.length := by
  have hmap : rs = (List.range' seq rs.length).map record := by
    apply List.ext_getElem
    · simp
    · intro i h₁ h₂
      rw [List.getElem_map, List.getElem_range', Nat.one_mul]
      exact (h _ _ (hrs i _ (List.getElem?_eq_getElem h₁))).symm
  conv_lhs => rw [hmap]
  rw [List.flatMap_map]
  rfl

end Source

/-! ## The frames on the stream -/

/-- A frame of the connection. -/
inductive TcpFrame where
  | data (seq : ℕ) (records : List Record)
  | gap (seq : ℕ)
  | beat (seq : ℕ)

namespace TcpFrame

/-- The header of a frame. -/
def header : TcpFrame → Frame
  | data seq records => dataFrame 0 records.length seq (records.flatMap Record.bytes)
  | gap seq => .control kindGap seq
  | beat seq => .control kindHeartbeat seq

/-- What follows the header. -/
def body : TcpFrame → List UInt8
  | data _ records => records.flatMap Record.bytes
  | gap _ => []
  | beat _ => []

/-- The bytes of a frame. -/
def bytes (f : TcpFrame) : List UInt8 := f.header.encode ++ f.body

end TcpFrame

/-- The source had overwritten the slot of the sequence, or reserved over its blob. -/
def Passed.Gone (cfg : SourceConfig w) (s : Source ρ w) (x : Passed) : Prop :=
  x.seq + cfg.ring.cap.val < x.stored ∨ ∃ b d, cfg.blob = some b ∧ s.message x.seq = some d ∧
    isLapped b.arena x.reserved (blobRefAt (payloadBytes d)) = true

/-- A sequence was passed. -/
def Passes (passed : List Passed) (k : ℕ) : Prop := ∃ x ∈ passed, x.seq = k

/-- The records of a `DATA` frame: those of the source from `seq` on, and without the last of them
the frame was not full. -/
structure DataOf (s : Source ρ w) (seq : ℕ) (rs : List Record) : Prop where
  pos : 0 < rs.length
  count : rs.length ≤ 65535
  room : wireLen rs.dropLast < tcpFrameBytes
  records : ∀ i r, rs[i]? = some r → s.Has (seq + i) r

/-- The frames lead from sequence `p` to sequence `q`. -/
inductive Chain (s : Source ρ w) (passed : List Passed) : ℕ → List TcpFrame → ℕ → Prop where
  | nil (p : ℕ) : Chain s passed p [] p
  | data {seq q : ℕ} {rs : List Record} {rest : List TcpFrame} (records : DataOf s seq rs)
      (next : Chain s passed (seq + rs.length) rest q) : Chain s passed seq (.data seq rs :: rest) q
  | gap {p g q : ℕ} {rest : List TcpFrame} (lt : p < g) (bound : g ≤ 2 ^ 63)
      (gone : ∀ k, p ≤ k → k < g → Passes passed k) (next : Chain s passed g rest q) :
      Chain s passed p (.gap g :: rest) q
  | beat {p b q : ℕ} {rest : List TcpFrame} (bound : b ≤ 2 ^ 63) (next : Chain s passed p rest q) :
      Chain s passed p (.beat b :: rest) q

section

variable {cfg : SourceConfig w} {s s' : Source ρ w} {passed passed' : List Passed}

theorem Passes.append {k : ℕ} (h : Passes passed k) (more : List Passed) :
    Passes (passed ++ more) k := by
  obtain ⟨x, hx, hk⟩ := h
  exact ⟨x, List.mem_append_left _ hx, hk⟩

theorem Passed.Gone.grows {x : Passed} (h : x.Gone cfg s) (hg : s.Grows s') : x.Gone cfg s' := by
  refine h.imp_right ?_
  rintro ⟨b, d, hb, hd, hlap⟩
  exact ⟨b, d, hb, hg.view.message _ d hd, hlap⟩

theorem DataOf.grows {seq : ℕ} {rs : List Record} (h : DataOf s seq rs) (hs : s.Inv cfg)
    (hs' : s'.Inv cfg) (hg : s.Grows s') : DataOf s' seq rs :=
  ⟨h.pos, h.count, h.room, fun i r hr => (h.records i r hr).grows hs hs' hg⟩

theorem Chain.grows {p q : ℕ} {frames : List TcpFrame} (h : Chain s passed p frames q)
    (hs : s.Inv cfg) (hs' : s'.Inv cfg) (hg : s.Grows s') : Chain s' passed p frames q := by
  induction h with
  | nil p => exact .nil p
  | data records _ ih => exact .data (records.grows hs hs' hg) ih
  | gap lt bound gone _ ih => exact .gap lt bound gone ih
  | beat bound _ ih => exact .beat bound ih

theorem Chain.pass {p q : ℕ} {frames : List TcpFrame} (h : Chain s passed p frames q)
    (more : List Passed) : Chain s (passed ++ more) p frames q := by
  induction h with
  | nil p => exact .nil p
  | data records _ ih => exact .data records ih
  | gap lt bound gone _ ih => exact .gap lt bound (fun k hk hk' => (gone k hk hk').append more) ih
  | beat bound _ ih => exact .beat bound ih

theorem Chain.append {p q q' : ℕ} {frames frames' : List TcpFrame} (h : Chain s passed p frames q)
    (h' : Chain s passed q frames' q') : Chain s passed p (frames ++ frames') q' := by
  induction h with
  | nil p => exact h'
  | data records _ ih => exact .data records (ih h')
  | gap lt bound gone _ ih => exact .gap lt bound gone (ih h')
  | beat bound _ ih => exact .beat bound (ih h')

end

/-! ## The sizes of a frame -/

theorem wireLen_eq (out : List Record) :
    wireLen out = frameHeaderLen + (out.flatMap Record.bytes).length := by
  rw [wireLen, List.length_flatMap]

section

variable {cfg : SourceConfig w} {s : Source ρ w} {seq : ℕ} {rs : List Record}

/-- The last record of a frame, and what is in front of it. -/
theorem DataOf.split (h : DataOf s seq rs) (hs : s.Inv cfg) :
    ∃ front r, rs = front ++ [r] ∧ s.Has (seq + front.length) r ∧
      (rs.flatMap Record.bytes).length =
        (front.flatMap Record.bytes).length + (w + r.blob.length) ∧
      front.length * w ≤ (front.flatMap Record.bytes).length ∧
      (front.flatMap Record.bytes).length < tcpFrameBytes := by
  obtain rfl | ⟨front, r, rfl⟩ := List.eq_nil_or_concat rs
  · exact absurd h.pos (Nat.lt_irrefl 0)
  rw [List.concat_eq_append] at h ⊢
  have hr : s.Has (seq + front.length) r := h.records front.length r (by simp)
  have hfront : ∀ i x, front[i]? = some x → s.Has (seq + i) x := fun i x hx =>
    h.records i x (by rw [List.getElem?_append_left (List.getElem?_eq_some_iff.mp hx).1, hx])
  have hroom := h.room
  rw [List.dropLast_concat, wireLen_eq] at hroom
  refine ⟨front, r, rfl, hr, ?_, ?_, by omega⟩
  · rw [List.flatMap_append, List.length_append, List.flatMap_singleton, Record.bytes,
      List.length_append, (hr.wellFormed hs).length]
  · rw [s.agrees_record.flatMap_bytes hfront]
    refine (length_dataBytes_le (g := cfg.geometry) front.length seq fun k hk hk' => ?_).1
    -- every record in front is one of the source
    obtain ⟨i, rfl⟩ := Nat.exists_eq_add_of_le hk
    have hi : i < front.length := by omega
    have hhas := hfront i _ (List.getElem?_eq_getElem hi)
    rw [s.agrees_record _ _ hhas]
    exact hhas.wellFormed hs

/-- The length of a frame fits its field, unless the slots are so large that a single record does
not. -/
theorem DataOf.length_cases (hcfg : cfg.Supported) (hs : s.Inv cfg) (h : DataOf s seq rs) :
    (rs.flatMap Record.bytes).length < 2 ^ 32 ∨
      (rs.length = 1 ∧ cfg.blob.isSome = true ∧ 2 ^ 31 ≤ w + 8 ∧
        (rs.flatMap Record.bytes).length % 2 ^ 32 < w) := by
  obtain ⟨front, r, rfl, hr, hlen, hle, hlt⟩ := h.split hs
  have hw := hcfg.slotSize
  have hwf := hr.wellFormed hs
  have htcp : tcpFrameBytes = 2 ^ 20 := rfl
  have hblob : r.blob.length < 2 ^ 31 ∧ (cfg.blob = none → r.blob.length = 0) := by
    cases hb : cfg.blob with
    | none =>
      have hnil := hwf.plain (by rw [SourceConfig.geometry_arena, hb]; rfl)
      rw [hnil]
      exact ⟨by decide, fun _ => rfl⟩
    | some b =>
      have hmax := (hwf.blob b.arena (by rw [SourceConfig.geometry_arena, hb]; rfl)).2
      exact ⟨(hmax.trans maxLen_le).trans_lt (hcfg.arena b hb), by rintro ⟨⟩⟩
  -- all records but the last fit into the limit of a frame
  rcases Nat.eq_zero_or_pos front.length with hzero | hpos
  · obtain rfl := List.length_eq_zero_iff.mp hzero
    rw [List.flatMap_nil, List.length_nil, Nat.zero_add] at hlen
    cases hb : cfg.blob with
    | none =>
      have hnil := hblob.2 hb
      left
      omega
    | some b =>
      by_cases hlong : (([] ++ [r] : List Record).flatMap Record.bytes).length < 2 ^ 32
      · exact .inl hlong
      · refine .inr ⟨rfl, rfl, by omega, ?_⟩
        omega
  · -- two records in one frame are short
    left
    have hone : 1 * w ≤ front.length * w := Nat.mul_le_mul_right w hpos
    omega

/-- The header of a `DATA` frame, with what its field holds of the length. -/
theorem DataOf.fits (h : DataOf s seq rs) (hs : s.Inv cfg) :
    (Frame.mk kindData 0 rs.length ((rs.flatMap Record.bytes).length % 256 ^ 4) seq).Fits := by
  have hlast := (h.records 0 _ (List.getElem?_eq_getElem h.pos)).lt
  have hbound := hs.bound
  have hcount := h.count
  refine ⟨(by decide : kindData < 256 ^ 1), (by decide : 0 < 256 ^ 1), ?_,
    Nat.mod_lt _ (by decide), ?_⟩
  · exact (by omega : rs.length < 256 ^ 2)
  · exact (by omega : seq < 256 ^ 8)

theorem DataOf.encode_header (seq : ℕ) (rs : List Record) :
    (TcpFrame.data seq rs).header.encode =
      (Frame.mk kindData 0 rs.length ((rs.flatMap Record.bytes).length % 256 ^ 4) seq).encode :=
  (Frame.encode_len_mod _).symm

theorem control_fits {kind : ℕ} (hkind : kind < 256 ^ 1) (hseq : seq ≤ 2 ^ 63) :
    (Frame.control kind seq).Fits :=
  ⟨hkind, (by decide : 0 < 256 ^ 1), (by decide : 0 < 256 ^ 2), (by decide : 0 < 256 ^ 4),
    (by omega : seq < 256 ^ 8)⟩

end

/-! ## One frame -/

namespace Mirror

variable {g : Geometry w} {m : Mirror w}

/-- `step` takes a whole frame off the stream. -/
theorem stepTcp_eq {f : Frame} (hf : f.Fits) {body : List UInt8} (hbody : bodyLen g f = body.length)
    (rest : List UInt8) :
    m.stepTcp g (f.encode ++ body ++ rest) = (m.handle g f body).map fun r => (r, rest) := by
  have hdec := Frame.decode_encode hf []
  rw [List.append_nil] at hdec
  have hlen := Frame.length_encode f
  unfold stepTcp
  simp only [List.append_assoc, List.take_left' hlen, List.drop_left' hlen, hdec, hbody,
    List.length_append, List.take_left, List.drop_left, hlen]
  rw [if_neg (by omega)]

end Mirror

/-! ## The server -/

/-- What the server knows where it stands. -/
def TcpPc.Sound (cfg : SourceConfig w) (batch : ℕ) (s : Source ρ w) (cursor : ℕ) : TcpPc w → Prop
  | .collect g => (Gathering.going g).Sound cfg s cursor (SourceRing.clampBatch batch) tcpFrameBytes
  | .linger got out => got.Sound cfg s cursor (SourceRing.clampBatch batch) tcpFrameBytes out
  | .send got out => got.Sound cfg s cursor (SourceRing.clampBatch batch) tcpFrameBytes out
  | .resync seen => seen = 0 ∨ (1 ≤ seen ∧ seen < s.seq)
  | .lost => s.Lapped cfg cursor
  | .idle => True

/-- What holds of the server: its cursor is not beyond what is stored, and what it went past was
gone. -/
structure TcpServer.Inv (cfg : SourceConfig w) (batch : ℕ) (s : Source ρ w) (t : TcpServer w) :
    Prop where
  one_le : 1 ≤ t.cursor
  le : t.cursor ≤ s.seq
  passed : ∀ x ∈ t.passed, x.Gone cfg s
  pc : t.pc.Sound cfg batch s t.cursor

/-- What a step of the server puts on the stream. -/
inductive TcpServer.Effect (s : Source ρ w) (t t' : TcpServer w) : Prop where
  | quiet (cursor : t'.cursor = t.cursor) (wire : t'.wire = t.wire) (passed : t'.passed = t.passed)
  | data (rs : List Record) (records : DataOf s t.cursor rs)
      (cursor : t'.cursor = t.cursor + rs.length)
      (wire : t'.wire = t.wire ++ (TcpFrame.data t.cursor rs).bytes) (passed : t'.passed = t.passed)
  | gap (lt : t.cursor < t'.cursor) (bound : t'.cursor ≤ 2 ^ 63)
      (wire : t'.wire = t.wire ++ (TcpFrame.gap t'.cursor).bytes) (more : List Passed)
      (passed : t'.passed = t.passed ++ more)
      (gone : ∀ k, t.cursor ≤ k → k < t'.cursor → Passes t'.passed k)
  | beat (b : ℕ) (bound : b ≤ 2 ^ 63) (cursor : t'.cursor = t.cursor)
      (wire : t'.wire = t.wire ++ (TcpFrame.beat b).bytes) (passed : t'.passed = t.passed)

namespace TcpServer

variable {cfg : SourceConfig w} {batch : ℕ} {s s' : Source ρ w} {t t' : TcpServer w}

theorem clampBatch_bounds (batch : ℕ) :
    0 < SourceRing.clampBatch batch ∧ SourceRing.clampBatch batch ≤ 65535 := by
  unfold SourceRing.clampBatch
  omega

theorem loop_sound {cursor : ℕ} (hpos : 1 ≤ cursor) (hle : cursor ≤ s.seq) :
    (loop batch cursor : TcpPc w).Sound cfg batch s cursor :=
  ⟨rfl, rfl, rfl, .start hpos hle (clampBatch_bounds batch).1 (by decide)⟩

theorem Inv.start {cursor : ℕ} (hpos : 1 ≤ cursor) (hle : cursor ≤ s.seq) :
    (start batch cursor : TcpServer w).Inv cfg batch s :=
  ⟨hpos, hle, by rintro _ ⟨⟩, loop_sound hpos hle⟩

theorem Inv.grows (h : t.Inv cfg batch s) (hs : s.Inv cfg) (hs' : s'.Inv cfg) (hg : s.Grows s') :
    t.Inv cfg batch s' := by
  refine ⟨h.one_le, h.le.trans hg.seq, fun x hx => (h.passed x hx).grows hg, ?_⟩
  have hpc := h.pc
  unfold TcpPc.Sound at hpc ⊢
  split at hpc
  · exact Gathering.Sound.grows hpc hs hs' hg
  · exact Collected.Sound.grows hpc hs hs' hg
  · exact Collected.Sound.grows hpc hs hs' hg
  · exact hpc.imp_right fun hseen => ⟨hseen.1, hseen.2.trans_le hg.seq⟩
  · exact Source.Lapped.grows hpc hg
  · trivial

theorem mem_pass {cursor next : ℕ} {x : Passed} :
    x ∈ pass s cursor next ↔
      ∃ k, cursor ≤ k ∧ k < next ∧ x = ⟨k, s.seq, s.arena.reserved⟩ := by
  simp only [pass, List.mem_map, List.mem_range'_1]
  constructor
  · rintro ⟨k, ⟨hk, hk'⟩, rfl⟩
    exact ⟨k, hk, by omega, rfl⟩
  · rintro ⟨k, hk, hk', rfl⟩
    exact ⟨k, ⟨hk, by omega⟩, rfl⟩

/-- The server goes past what is gone, and says so. -/
theorem Inv.pass (h : t.Inv cfg batch s) (hs : s.Inv cfg) {next : ℕ} (hlt : t.cursor < next)
    (hle : next ≤ s.seq)
    (hgone : ∀ k, t.cursor ≤ k → k < next → (Passed.mk k s.seq s.arena.reserved).Gone cfg s)
    (ht : t' = { t with
      cursor := next
      wire := t.wire ++ (Frame.control kindGap next).encode
      passed := t.passed ++ TcpServer.pass s t.cursor next
      pc := loop batch next }) : t'.Inv cfg batch s ∧ Effect s t t' := by
  subst ht
  have hpos : 1 ≤ next := h.one_le.trans hlt.le
  refine ⟨⟨hpos, hle, fun x hx => ?_, loop_sound hpos hle⟩,
    .gap hlt (hle.trans hs.bound) ?_ _ rfl fun k hk hk' => ?_⟩
  · rcases List.mem_append.mp hx with hx | hx
    · exact h.passed x hx
    · obtain ⟨k, hk, hk', rfl⟩ := mem_pass.mp hx
      exact hgone k hk hk'
  · simp only [TcpFrame.bytes, TcpFrame.header, TcpFrame.body, List.append_nil]
  · exact ⟨_, List.mem_append_right _ (mem_pass.mpr ⟨k, hk, hk', rfl⟩), rfl⟩

/-- Where `resync` leads, everything before has been overwritten. -/
theorem gone_of_resync (hs : s.Inv cfg) {seen k : ℕ} (hpos : 1 ≤ k)
    (hseen : seen = 0 ∨ (1 ≤ seen ∧ seen < s.seq))
    (hk : k < oldestRetained (max s.sys.mem.writeSeq seen) cfg.ring.cap.val) :
    k + cfg.ring.cap.val < s.seq := by
  have hws : s.sys.mem.writeSeq < s.seq := hs.sys.ring.writeSeq
  have hle := (lt_oldestRetained hpos).mp hk
  omega

/-- `resync` does not lead beyond what is stored. -/
theorem resync_le (hs : s.Inv cfg) {seen : ℕ} (hseen : seen = 0 ∨ (1 ≤ seen ∧ seen < s.seq)) :
    oldestRetained (max s.sys.mem.writeSeq seen) cfg.ring.cap.val ≤ s.seq := by
  have hws : s.sys.mem.writeSeq < s.seq := hs.sys.ring.writeSeq
  by_contra hgt
  have hgone := gone_of_resync (k := s.seq) hs (by omega) hseen (by omega)
  omega

/-- **The server keeps its invariant, and what it sends continues the chain.** -/
theorem Inv.step {a : ServeLabel w} (h : t.Inv cfg batch s) (hs : s.Inv cfg)
    (hstep : t.step cfg batch s a = some t') : t'.Inv cfg batch s ∧ Effect s t t' := by
  have hpc := h.pc
  cases a with
  | read a =>
    cases hp : t.pc with
    | linger | send | resync | lost | idle =>
      simp only [TcpServer.step, hp] at hstep
      cases hstep
    | collect g =>
      rw [hp] at hpc
      simp only [TcpServer.step, hp] at hstep
      split at hstep
      · next g' hg =>
        cases hstep
        have hnext := Gathering.Sound.step hpc hs hg
        exact ⟨⟨h.one_le, h.le, h.passed, hnext⟩, .quiet rfl rfl rfl⟩
      · next got out hg =>
        cases hstep
        have hnext := Gathering.Sound.step hpc hs hg
        exact ⟨⟨h.one_le, h.le, h.passed, hnext⟩, .quiet rfl rfl rfl⟩
      · cases hstep
  | linger more =>
    cases hp : t.pc with
    | collect | send | resync | lost | idle =>
      simp only [TcpServer.step, hp] at hstep
      cases hstep
    | linger got out =>
      rw [hp] at hpc
      simp only [TcpServer.step, hp] at hstep
      split_ifs at hstep with hstop
      · cases hstep
        exact ⟨⟨h.one_le, h.le, h.passed, hpc⟩, .quiet rfl rfl rfl⟩
      · cases hstep
        -- one more `collect`, as the batch so far is not full
        have hfull : got.full (SourceRing.clampBatch batch) tcpFrameBytes out = false := by
          simp only [not_or] at hstop
          simpa using hstop.2.1
        exact ⟨⟨h.one_le, h.le, h.passed, rfl, rfl, rfl, .again hpc hfull⟩, .quiet rfl rfl rfl⟩
  | next beat =>
    cases hp : t.pc with
    | collect | linger =>
      simp only [TcpServer.step, hp] at hstep
      cases hstep
    | send got out =>
      rw [hp] at hpc
      simp only [TcpServer.step, hp] at hstep
      cases hstep
      -- the frame carries exactly the records the cursor passes
      have hgot : got.Sound cfg s t.cursor _ _ out := hpc
      have hnext : (afterSend batch (t.cursor + got.count) got : TcpPc w).Sound cfg batch s
          (t.cursor + got.count) := by
        unfold afterSend
        split
        · next seen hseen => exact hgot.lapped seen hseen
        · split_ifs with hlost
          · exact hgot.lost hlost
          · trivial
          · exact loop_sound (h.one_le.trans (Nat.le_add_right _ _)) hgot.le
      refine ⟨⟨h.one_le.trans (Nat.le_add_right _ _), hgot.le, h.passed, hnext⟩, ?_⟩
      unfold dataWire
      by_cases hcount : 0 < got.count
      · simp only [if_pos hcount]
        have hlen := hgot.length
        refine .data out ⟨by omega, ?_, hgot.room, hgot.records⟩ ?_ ?_ rfl
        · exact hlen.le.trans (hgot.limit.trans (clampBatch_bounds batch).2)
        · simp only [hlen]
        · simp only [TcpFrame.bytes, TcpFrame.header, TcpFrame.body, hlen]
      · simp only [if_neg hcount, List.append_nil]
        exact .quiet (by simp only; omega) rfl rfl
    | resync seen =>
      rw [hp] at hpc
      simp only [TcpServer.step, hp] at hstep
      split_ifs at hstep with hlt
      · cases hstep
        -- all that is skipped had left the ring when `seen` was loaded
        refine h.pass hs hlt (resync_le hs hpc) (fun k hk hk' => ?_) rfl
        exact .inl (gone_of_resync hs (h.one_le.trans hk) hpc hk')
      · cases hstep
        exact ⟨⟨h.one_le, h.le, h.passed, loop_sound h.one_le h.le⟩, .quiet rfl rfl rfl⟩
    | lost =>
      rw [hp] at hpc
      simp only [TcpServer.step, hp] at hstep
      cases hstep
      -- the one sequence skipped names a payload that left the arena
      have hlap : s.Lapped cfg t.cursor := hpc
      refine h.pass hs (Nat.lt_succ_self _) hlap.lt (fun k hk hk' => ?_) rfl
      obtain rfl : k = t.cursor := by omega
      obtain ⟨b, d, hb, hd, hl⟩ := hlap.lapped
      exact .inr ⟨b, d, hb, hd, hl⟩
    | idle =>
      simp only [TcpServer.step, hp] at hstep
      cases hstep
      refine ⟨⟨h.one_le, h.le, h.passed, loop_sound h.one_le h.le⟩, ?_⟩
      have hws : s.sys.mem.writeSeq < s.seq := hs.sys.ring.writeSeq
      cases beat with
      | true =>
        refine .beat s.sys.mem.writeSeq (hws.le.trans hs.bound) rfl ?_ rfl
        simp only [if_true, TcpFrame.bytes, TcpFrame.header, TcpFrame.body, List.append_nil]
      | false =>
        exact .quiet rfl (by simp) rfl

end TcpServer

/-! ## The mirror -/

namespace Mirror

variable {cfg : SourceConfig w} {s : Source ρ w} {m m' : Mirror w} {seq : ℕ} {rs : List Record}
  {res : Except RingfireError Unit}

theorem seek_ring (h : m.ring.nextSeq ≤ seq) :
    (m.seek seq).ring = m.ring.skipTo seq ∧ (m.seek seq).ring.nextSeq = seq := by
  unfold seek MirrorRing.skipTo
  rw [if_neg (Nat.not_lt.mpr h)]
  by_cases hlt : m.ring.nextSeq < seq
  · simp only [if_pos hlt]
    exact ⟨trivial, trivial⟩
  · simp only [if_neg hlt]
    exact ⟨trivial, le_antisymm h (Nat.not_lt.mp hlt)⟩

/-- The sizes of a frame with records of the source are right. -/
theorem sizes_of_data (hs : s.Inv cfg) (hrs : DataOf s seq rs)
    (hlen : (rs.flatMap Record.bytes).length < 2 ^ 32) :
    frameSizesOk cfg.geometry rs.length (rs.flatMap Record.bytes).length = true := by
  rw [s.agrees_record.flatMap_bytes hrs.records] at hlen ⊢
  refine frameSizesOk_dataBytes hrs.pos (fun k hk hk' => ?_) hlen
  obtain ⟨i, rfl⟩ := Nat.exists_eq_add_of_le hk
  have hi : i < rs.length := by omega
  have hhas := hrs.records i _ (List.getElem?_eq_getElem hi)
  rw [s.agrees_record _ _ hhas]
  exact hhas.wellFormed hs

/-- The records of a `DATA` frame are written from its sequence on. -/
theorem handle_data (hs : s.Inv cfg) (hrs : DataOf s seq rs)
    (hlen : (rs.flatMap Record.bytes).length < 2 ^ 32)
    (hring : ∀ record, s.Agrees record → m.ring.Inv cfg.geometry record)
    (hnext : m.ring.nextSeq ≤ seq)
    (hh : m.handle cfg.geometry (TcpFrame.data seq rs).header (rs.flatMap Record.bytes) =
      some (res, m')) :
    res = .ok () ∧ m'.ring.nextSeq = seq + rs.length ∧
      m'.ring.writeSeq = m'.ring.nextSeq - 1 ∧
      (∀ record, s.Agrees record → m'.ring.Inv cfg.geometry record) ∧
      ∃ xs, m'.ring.log = m.ring.log ++ xs ∧
        xs.map Written.seq = List.range' seq rs.length := by
  have hsizes := sizes_of_data hs hrs hlen
  obtain ⟨hseek, hseq⟩ := seek_ring hnext
  simp only [handle, TcpFrame.header, dataFrame, hsizes, if_true] at hh
  obtain ⟨⟨res₁, ring⟩, hw, heq⟩ := Option.map_eq_some_iff.mp hh
  -- what is written does not depend on how the records are named
  have hwrites : ∀ record, s.Agrees record →
      MirrorRing.Writes cfg.geometry record seq seq rs.length (m.seek seq).ring ring ∧
        res₁ = .ok () ∧ ring.writeSeq = ring.nextSeq - 1 := by
    intro record hrec
    have hwf : ∀ k, seq ≤ k → k < seq + rs.length → (record k).WellFormed cfg.geometry := by
      intro k hk hk'
      obtain ⟨i, rfl⟩ := Nat.exists_eq_add_of_le hk
      have hhas := hrs.records i _ (List.getElem?_eq_getElem (by omega))
      rw [hrec _ _ hhas]
      exact hhas.wellFormed hs
    rw [hrec.flatMap_bytes hrs.records] at hw
    have hinv : (m.seek seq).ring.Inv cfg.geometry record := by
      rw [hseek]
      exact (hring record hrec).skipTo seq
    obtain ⟨hwr, hok, hpub⟩ := hinv.writeRecords hwf hseq.ge hw
    rw [hseq] at hwr
    exact ⟨hwr, hok, hpub⟩
  obtain ⟨⟨-, hnext', xs, hlog, hxs⟩, rfl, hpub⟩ := hwrites s.record s.agrees_record
  simp only [Prod.mk.injEq] at heq
  obtain ⟨rfl, rfl⟩ := heq
  refine ⟨rfl, ?_, hpub, fun record hrec => (hwrites record hrec).1.inv, xs, ?_, ?_⟩
  · rw [hnext']
    omega
  · rw [hlog, hseek, MirrorRing.skipTo_log]
  · rw [hxs, max_self, Nat.add_sub_cancel_left]

/-- One record cannot be as short as what is left of a length that does not fit its field. -/
theorem sizes_of_long {n len : ℕ} (hn : n = 1) (harena : cfg.blob.isSome = true) (hlen : len < w) :
    frameSizesOk cfg.geometry n len = false := by
  subst hn
  obtain ⟨b, hb⟩ := Option.isSome_iff_exists.mp harena
  unfold frameSizesOk
  rw [if_neg (by decide), SourceConfig.geometry_arena, hb]
  simp only [Option.map_some, decide_eq_false_iff_not, Nat.one_mul]
  omega

/-- A frame whose length does not fit its field is refused. -/
theorem stepTcp_long (hs : s.Inv cfg) (hrs : DataOf s seq rs)
    (hsizes : frameSizesOk cfg.geometry rs.length
      ((rs.flatMap Record.bytes).length % 256 ^ 4) = false) (rest : List UInt8) :
    m.stepTcp cfg.geometry ((TcpFrame.data seq rs).header.encode ++
        (TcpFrame.data seq rs).body ++ rest) =
      some ((.error (.protocol "DATA length does not match its record count"), m),
        (TcpFrame.data seq rs).body ++ rest) := by
  have hbody : bodyLen cfg.geometry (Frame.mk kindData 0 rs.length
      ((rs.flatMap Record.bytes).length % 256 ^ 4) seq) = ([] : List UInt8).length :=
    if_neg fun hok => Bool.noConfusion (hsizes.symm.trans hok.2)
  have hstep := stepTcp_eq (m := m) (hrs.fits hs) hbody ((TcpFrame.data seq rs).body ++ rest)
  rw [DataOf.encode_header, List.append_assoc]
  rw [List.append_nil] at hstep
  rw [hstep]
  simp only [handle, hsizes, Bool.false_eq_true, if_true, if_false, Option.map_some]

end Mirror

/-! ## The connection -/

/-- The stream is a chain of frames that ends at the server's cursor. It starts at the mirror's
write position, or above it when nothing has arrived yet. -/
structure TcpConn.Flight (s : Source ρ w) (c : TcpConn w) (p : ℕ) (frames : List TcpFrame) :
    Prop where
  wire : c.server.wire = frames.flatMap TcpFrame.bytes
  first_le : c.first ≤ p
  le : c.mirror.ring.nextSeq ≤ p
  position : c.mirror.ring.nextSeq = p ∨ p = c.first
  chain : Chain s c.server.passed p frames c.server.cursor

/-- What holds of a connection; `limit` is above what the ring file of the mirror showed in the
beginning. -/
structure TcpConn.Inv (cfg : SourceConfig w) (batch limit : ℕ) (s : Source ρ w) (c : TcpConn w) :
    Prop where
  server : c.server.Inv cfg batch s
  ring : ∀ record, s.Agrees record → c.mirror.ring.Inv cfg.geometry record
  stored : ∀ x ∈ c.mirror.ring.log, c.first ≤ x.seq ∧ ∃ r, s.Has x.seq r
  behind : ∀ k, c.first ≤ k → k < c.mirror.ring.nextSeq →
    (∃ x ∈ c.mirror.ring.log, x.seq = k) ∨ Passes c.server.passed k
  published : c.mirror.ring.writeSeq < max limit s.seq
  flight : c.failed = none → ∃ p frames, c.Flight s p frames
  sized : c.failed ≠ none → cfg.blob.isSome = true ∧ 2 ^ 31 ≤ w + 8

namespace TcpConn

variable {cfg : SourceConfig w} {batch limit : ℕ} {s s' : Source ρ w} {c c' : TcpConn w}

theorem Inv.grows (h : c.Inv cfg batch limit s) (hs : s.Inv cfg) (hs' : s'.Inv cfg) (hg : s.Grows s') :
    c.Inv cfg batch limit s' where
  server := h.server.grows hs hs' hg
  ring := fun record hrec => h.ring record (hrec.of_grows hs hs' hg)
  stored := by
    intro x hx
    obtain ⟨hfirst, r, hr⟩ := h.stored x hx
    exact ⟨hfirst, r, hr.grows hs hs' hg⟩
  behind := h.behind
  published := h.published.trans_le (max_le_max_left limit hg.seq)
  flight := by
    intro hfailed
    obtain ⟨p, frames, hf⟩ := h.flight hfailed
    exact ⟨p, frames, hf.wire, hf.first_le, hf.le, hf.position, hf.chain.grows hs hs' hg⟩
  sized := h.sized

/-- **A step of the server keeps the invariant of the connection.** -/
theorem Inv.serve (h : c.Inv cfg batch limit s) (hs : s.Inv cfg) {a : ServeLabel w} {t : TcpServer w}
    (hstep : c.server.step cfg batch s a = some t) :
    Inv cfg batch limit s { c with server := t } := by
  obtain ⟨ht, he⟩ := h.server.step hs hstep
  have hpassed : ∃ more, t.passed = c.server.passed ++ more := by
    cases he with
    | quiet _ _ passed => exact ⟨[], by rw [passed, List.append_nil]⟩
    | data _ _ _ _ passed => exact ⟨[], by rw [passed, List.append_nil]⟩
    | gap _ _ _ more passed _ => exact ⟨more, passed⟩
    | beat _ _ _ _ passed => exact ⟨[], by rw [passed, List.append_nil]⟩
  refine ⟨ht, h.ring, h.stored, fun k hk hk' => ?_, h.published, fun hfailed => ?_, h.sized⟩
  · obtain ⟨more, hmore⟩ := hpassed
    simp only [hmore]
    exact (h.behind k hk hk').imp_right fun hpass => hpass.append more
  · obtain ⟨p, frames, hf⟩ := h.flight hfailed
    cases he with
    | quiet cursor wire passed =>
      refine ⟨p, frames, wire.trans hf.wire, hf.first_le, hf.le, hf.position, ?_⟩
      simp only [cursor, passed]
      exact hf.chain
    | data rs records cursor wire passed =>
      refine ⟨p, frames ++ [.data c.server.cursor rs], ?_, hf.first_le, hf.le, hf.position, ?_⟩
      · simp only [wire, hf.wire, List.flatMap_append, List.flatMap_singleton]
      · simp only [cursor, passed]
        exact hf.chain.append (.data records (.nil _))
    | gap lt bound wire more passed gone =>
      refine ⟨p, frames ++ [.gap t.cursor], ?_, hf.first_le, hf.le, hf.position, ?_⟩
      · simp only [wire, hf.wire, List.flatMap_append, List.flatMap_singleton]
      · rw [passed] at gone
        simp only [passed]
        exact (hf.chain.pass more).append (.gap lt bound gone (.nil _))
    | beat b bound cursor wire passed =>
      refine ⟨p, frames ++ [.beat b], ?_, hf.first_le, hf.le, hf.position, ?_⟩
      · simp only [wire, hf.wire, List.flatMap_append, List.flatMap_singleton]
      · simp only [cursor, passed]
        exact hf.chain.append (.beat bound (.nil _))

/-- A step of the mirror, on a connection that has not failed. -/
theorem receive_eq {g : Geometry w} (h : c.receive g = some c') :
    ∃ res m wire, c.failed = none ∧ c.mirror.stepTcp g c.server.wire = some ((res, m), wire) ∧
      c' = { c with
        server := { c.server with wire := wire }
        mirror := m
        failed := match res with
          | .ok _ => none
          | .error e => some e } := by
  unfold receive at h
  split at h
  · next res m wire hfailed hstep =>
    cases h
    exact ⟨res, m, wire, hfailed, hstep, rfl⟩
  · cases h

theorem server_wire {t : TcpServer w} (h : t.Inv cfg batch s) (wire : List UInt8) :
    TcpServer.Inv cfg batch s { t with wire := wire } :=
  ⟨h.one_le, h.le, h.passed, h.pc⟩

/-- The mirror takes a `DATA` frame off the stream. -/
theorem Inv.receiveData (hcfg : cfg.Supported) (h : c.Inv cfg batch limit s) (hs : s.Inv cfg)
    {seq : ℕ} {rs : List Record} {rest : List TcpFrame}
    (hf : c.Flight s seq (.data seq rs :: rest)) (hrs : DataOf s seq rs)
    (hrest : Chain s c.server.passed (seq + rs.length) rest c.server.cursor)
    (hr : c.receive cfg.geometry = some c') : c'.Inv cfg batch limit s := by
  obtain ⟨res, m, wire, -, hstep, rfl⟩ := receive_eq hr
  rw [hf.wire, List.flatMap_cons, TcpFrame.bytes] at hstep
  rcases hrs.length_cases hcfg hs with hlen | ⟨hone, harena, hw, hlong⟩
  · -- the frame is right, and its records are written
    have hsizes := Mirror.sizes_of_data hs hrs hlen
    have hbody : Mirror.bodyLen cfg.geometry (TcpFrame.data seq rs).header =
        (TcpFrame.data seq rs).body.length :=
      if_pos ⟨rfl, hsizes⟩
    have hfits : (TcpFrame.data seq rs).header.Fits := by
      have hcut := hrs.fits hs
      rw [Nat.mod_eq_of_lt (show _ < 256 ^ 4 from hlen)] at hcut
      exact hcut
    rw [Mirror.stepTcp_eq hfits hbody] at hstep
    obtain ⟨⟨res₁, m₁⟩, hh, heq⟩ := Option.map_eq_some_iff.mp hstep
    cases heq
    obtain ⟨rfl, hnext, hpub, hring, xs, hlog, hxs⟩ := Mirror.handle_data hs hrs hlen h.ring hf.le hh
    have hmem : ∀ k, (∃ x ∈ xs, x.seq = k) ↔ seq ≤ k ∧ k < seq + rs.length := by
      intro k
      rw [← List.mem_range'_1, ← hxs, List.mem_map]
    refine ⟨server_wire h.server _, hring, fun x hx => ?_, fun k hk hk' => ?_, ?_, fun _ => ?_,
      fun hne => absurd rfl hne⟩
    · rw [hlog, List.mem_append] at hx
      rcases hx with hx | hx
      · exact h.stored x hx
      · obtain ⟨hle, hlt⟩ := (hmem x.seq).mp ⟨x, hx, rfl⟩
        obtain ⟨i, hi⟩ := Nat.exists_eq_add_of_le hle
        exact ⟨hf.first_le.trans hle, _, hi ▸ hrs.records i _ (List.getElem?_eq_getElem (by omega))⟩
    · -- nothing is missing between the old write position and the frame
      rw [hnext] at hk'
      have hfirst : c.first ≤ k := hk
      simp only [hlog]
      by_cases hseq : seq ≤ k
      · obtain ⟨x, hx, hxk⟩ := (hmem k).mpr ⟨hseq, hk'⟩
        exact .inl ⟨x, List.mem_append_right _ hx, hxk⟩
      · have hlt : k < c.mirror.ring.nextSeq := by
          rcases hf.position with hp | hp <;> omega
        rcases h.behind k hfirst hlt with ⟨x, hx, hxk⟩ | hpass
        · exact .inl ⟨x, List.mem_append_left _ hx, hxk⟩
        · exact .inr hpass
    · have hpos := hrs.pos
      have hlast := (hrs.records (rs.length - 1) _ (List.getElem?_eq_getElem (by omega))).lt
      refine lt_of_lt_of_le ?_ (le_max_right limit s.seq)
      simp only [hpub, hnext]
      omega
    · exact ⟨_, rest, rfl, hf.first_le.trans (Nat.le_add_right _ _), hnext.le, .inl hnext, hrest⟩
  · -- the frame is refused
    rw [Mirror.stepTcp_long hs hrs (Mirror.sizes_of_long hone harena hlong)] at hstep
    cases hstep
    exact ⟨server_wire h.server _, h.ring, h.stored, h.behind, h.published, by rintro ⟨⟩,
      fun _ => ⟨harena, hw⟩⟩

/-- The mirror moves its write position to where a `GAP` frame says. -/
theorem Inv.receiveGap (h : c.Inv cfg batch limit s) {p g : ℕ} {rest : List TcpFrame}
    (hf : c.Flight s p (.gap g :: rest)) (hlt : p < g) (hbound : g ≤ 2 ^ 63)
    (hgone : ∀ k, p ≤ k → k < g → Passes c.server.passed k)
    (hrest : Chain s c.server.passed g rest c.server.cursor)
    (hr : c.receive cfg.geometry = some c') : c'.Inv cfg batch limit s := by
  obtain ⟨res, m, wire, -, hstep, rfl⟩ := receive_eq hr
  have hfits : (Frame.control kindGap g).Fits := control_fits (by decide) hbound
  have hahead : c.mirror.ring.nextSeq < g := hf.le.trans_lt hlt
  rw [hf.wire, List.flatMap_cons, TcpFrame.bytes, TcpFrame.header, TcpFrame.body,
    Mirror.stepTcp_eq hfits rfl] at hstep
  -- the frame lies ahead of the write position, so the mirror skips
  have hhandle : c.mirror.handle cfg.geometry (Frame.control kindGap g) [] =
      some (.ok (), { c.mirror with
        ring := c.mirror.ring.skipTo g, gaps := c.mirror.gaps + 1 }) :=
    if_pos hahead
  rw [hhandle] at hstep
  cases hstep
  have hnext : (c.mirror.ring.skipTo g).nextSeq = g := by
    rw [MirrorRing.skipTo, if_pos hahead]
  have hlog := c.mirror.ring.skipTo_log g
  refine ⟨server_wire h.server _, fun record hrec => (h.ring record hrec).skipTo g, ?_,
    fun k hk hk' => ?_, ?_, fun _ => ?_, fun hne => absurd rfl hne⟩
  · simp only [hlog]
    exact h.stored
  · simp only [hnext] at hk'
    simp only [hlog]
    by_cases hp : p ≤ k
    · exact .inr (hgone k hp hk')
    · have hfirst : c.first ≤ k := hk
      refine h.behind k hfirst ?_
      rcases hf.position with hp' | hp' <;> omega
  · have hws : (c.mirror.ring.skipTo g).writeSeq = c.mirror.ring.writeSeq := by
      rw [MirrorRing.skipTo, if_pos hahead]
    simp only [hws]
    exact h.published
  · exact ⟨g, rest, rfl, hf.first_le.trans hlt.le, hnext.le, .inl hnext, hrest⟩

/-- A heartbeat changes nothing that matters. -/
theorem Inv.receiveBeat (h : c.Inv cfg batch limit s) {p b : ℕ} {rest : List TcpFrame}
    (hf : c.Flight s p (.beat b :: rest)) (hbound : b ≤ 2 ^ 63)
    (hrest : Chain s c.server.passed p rest c.server.cursor)
    (hr : c.receive cfg.geometry = some c') : c'.Inv cfg batch limit s := by
  obtain ⟨res, m, wire, -, hstep, rfl⟩ := receive_eq hr
  have hfits : (Frame.control kindHeartbeat b).Fits := control_fits (by decide) hbound
  rw [hf.wire, List.flatMap_cons, TcpFrame.bytes, TcpFrame.header, TcpFrame.body,
    Mirror.stepTcp_eq hfits rfl] at hstep
  cases hstep
  exact ⟨server_wire h.server _, h.ring, h.stored, h.behind, h.published,
    fun _ => ⟨p, rest, rfl, hf.first_le, hf.le, hf.position, hrest⟩, fun hne => absurd rfl hne⟩

/-- **A step of the mirror keeps the invariant of the connection.** -/
theorem Inv.receive (hcfg : cfg.Supported) (h : c.Inv cfg batch limit s) (hs : s.Inv cfg)
    (hr : c.receive cfg.geometry = some c') : c'.Inv cfg batch limit s := by
  obtain ⟨res, m, wire, hfailed, hstep, -⟩ := receive_eq hr
  obtain ⟨p, frames, hf⟩ := h.flight hfailed
  have hchain := hf.chain
  cases hchain with
  | nil p =>
    rw [hf.wire] at hstep
    cases hstep
  | data records next => exact h.receiveData hcfg hs hf records next hr
  | gap lt bound gone next => exact h.receiveGap hf lt bound gone next hr
  | beat bound next => exact h.receiveBeat hf bound next hr

/-- **A new connection starts at the mirror's write position or above it.** -/
theorem Inv.opened (hs : s.Inv cfg) {start : MirrorStart} {file : RingFile w} (hfile : file.Fits)
    (hlimit : ∀ next, file.nextSeq = some next → next ≤ max limit s.seq) :
    (opened cfg batch s.sys.mem.writeSeq start file).Inv cfg batch limit s := by
  have hws : s.sys.mem.writeSeq < s.seq := hs.sys.ring.writeSeq
  have hpos := position_pos s.sys.mem.writeSeq cfg.ring.cap (wanted start file)
  have hle := (position_le s.sys.mem.writeSeq cfg.ring.cap (wanted start file)).trans hws
  have hfirst := le_connect_first cfg.ring.cap s.sys.mem.writeSeq start hfile
  obtain ⟨hlog, hpub⟩ := connect_ring cfg.ring.cap s.sys.mem.writeSeq start file
  refine ⟨.start hpos hle, fun _ _ => .of_log hlog, ?_, fun k hk hk' => ?_, ?_, fun _ => ?_,
    fun hne => absurd rfl hne⟩
  · simp only [TcpConn.opened, hlog]
    rintro _ ⟨⟩
  · exact absurd (hk'.trans_le hfirst) (Nat.not_lt.mpr hk)
  · rcases hpub with hzero | ⟨ring, rfl, hring⟩
    · simp only [TcpConn.opened, hzero]
      exact lt_of_lt_of_le (Nat.zero_lt_of_lt hws) (le_max_right _ _)
    · simp only [TcpConn.opened, hring]
      exact hlimit _ rfl
  · exact ⟨_, [], rfl, le_refl _, hfirst, .inr rfl, .nil _⟩

/-- Every `DATA` frame that arrives starts at the write position or above it. -/
theorem Inv.head_le (h : c.Inv cfg batch limit s) (hs : s.Inv cfg) (hfailed : c.failed = none)
    (hlen : frameHeaderLen ≤ c.server.wire.length)
    (hkind : (Frame.decode (c.server.wire.take frameHeaderLen)).kind = kindData) :
    c.mirror.ring.nextSeq ≤ (Frame.decode (c.server.wire.take frameHeaderLen)).seq := by
  obtain ⟨p, frames, hf⟩ := h.flight hfailed
  -- the header at the front of the stream is the one that was put there
  have hdecode {f : Frame} {rest : List UInt8} (hwire : c.server.wire = f.encode ++ rest)
      (hfits : f.Fits) : Frame.decode (c.server.wire.take frameHeaderLen) = f := by
    rw [hwire, List.take_left' (Frame.length_encode f), ← List.append_nil f.encode]
    exact Frame.decode_encode hfits []
  have hchain := hf.chain
  have hwire := hf.wire
  cases hchain with
  | nil p =>
    rw [hwire] at hlen
    exact absurd hlen (by decide)
  | data records next =>
    rw [List.flatMap_cons, TcpFrame.bytes, DataOf.encode_header, List.append_assoc] at hwire
    rw [hdecode hwire (records.fits hs)]
    exact hf.le
  | gap lt bound gone next =>
    rw [List.flatMap_cons, TcpFrame.bytes, TcpFrame.header, List.append_assoc] at hwire
    rw [hdecode hwire (control_fits (by decide) bound)] at hkind
    exact absurd hkind (by decide : ¬ kindGap = kindData)
  | beat bound next =>
    rw [List.flatMap_cons, TcpFrame.bytes, TcpFrame.header, List.append_assoc] at hwire
    rw [hdecode hwire (control_fits (by decide) bound)] at hkind
    exact absurd hkind (by decide : ¬ kindHeartbeat = kindData)

end TcpConn

namespace TcpSystem

variable [DecidableEq ρ] {cfg : SourceConfig w} {batch limit : ℕ} {s s' : TcpSystem ρ w}

/-- What holds of the system. -/
structure Inv (cfg : SourceConfig w) (batch limit : ℕ) (s : TcpSystem ρ w) : Prop where
  source : s.source.Inv cfg
  file : ∀ next, s.file.nextSeq = some next → next ≤ max limit s.source.seq
  conn : ∀ c, s.conn = some c → c.Inv cfg batch limit s.source

omit [DecidableEq ρ] in
theorem Inv.fits (h : s.Inv cfg batch limit) (hlimit : limit < helloOldest) : s.file.Fits := by
  intro next hnext
  have hle := h.file next hnext
  have hbound := h.source.bound
  have hhello : 2 ^ 63 < helloOldest := by decide
  omega

/-- **Every step keeps the invariant.** -/
theorem Inv.step (hcfg : cfg.Supported) (hlimit : limit < helloOldest) {a : TcpLabel ρ w}
    (h : s.Inv cfg batch limit) (hstep : s.step cfg batch a = some s') :
    s'.Inv cfg batch limit := by
  cases step_moves hstep with
  | source a source next =>
    have hmove := Source.step_move next
    have hs' := h.source.step hcfg.toAligned hmove
    have hg := h.source.grows hmove
    exact ⟨hs', fun next hnext => (h.file next hnext).trans (max_le_max_left limit hg.seq),
      fun c hc => (h.conn c hc).grows h.source hs' hg⟩
  | connect start =>
    refine ⟨h.source, h.file, ?_⟩
    rintro c ⟨⟩
    exact .opened h.source (h.fits hlimit) h.file
  | serve a c server conn next =>
    refine ⟨h.source, h.file, ?_⟩
    rintro c' ⟨⟩
    exact (h.conn c conn).serve h.source next
  | receive c c' conn next =>
    refine ⟨h.source, h.file, ?_⟩
    rintro c'' ⟨⟩
    exact (h.conn c conn).receive hcfg h.source next
  | disconnect c conn =>
    refine ⟨h.source, ?_, by rintro _ ⟨⟩⟩
    rintro next ⟨⟩
    exact (h.conn c conn).published

/-- **Mirroring over TCP.** However the pushes of the source, the loop of `serve_client` and the
steps of the mirror come between each other, and wherever the mirror starts: a `DATA` frame never
starts below the write position, so that the ring is not thrown away; every record written is the
source's record of that sequence; the sequences written increase; and one that is missing between
two others was overwritten, or its blob reserved over, when the server went past it. The mirror
fails only when a single record is too long for a frame, which takes slots of almost `2 ^ 31`
bytes. -/
theorem tcp_mirrors (hcfg : cfg.Supported) {file : RingFile w} (hfile : file.Fits)
    (hreach : Transition.Reaches (step cfg batch) (create ρ cfg file) s) {c : TcpConn w}
    (hc : s.conn = some c) :
    (c.failed = none → frameHeaderLen ≤ c.server.wire.length →
      (Frame.decode (c.server.wire.take frameHeaderLen)).kind = kindData →
      c.mirror.ring.nextSeq ≤ (Frame.decode (c.server.wire.take frameHeaderLen)).seq) ∧
    (∀ x ∈ c.mirror.ring.log, (∃ r, s.source.Has x.seq r) ∧
      x.Right cfg.geometry s.source.record) ∧
    (c.mirror.ring.log.map Written.seq).Pairwise (· < ·) ∧
    (∀ k, (∃ x ∈ c.mirror.ring.log, x.seq < k) → (∃ x ∈ c.mirror.ring.log, k < x.seq) →
      (∀ x ∈ c.mirror.ring.log, x.seq ≠ k) →
      ∃ x ∈ c.server.passed, x.seq = k ∧ x.Gone cfg s.source) ∧
    (cfg.blob = none ∨ w + 8 < 2 ^ 31 → c.failed = none) := by
  have hinv : s.Inv cfg batch (helloOldest - 1) := by
    refine hreach.invariant (P := fun s => s.Inv cfg batch (helloOldest - 1))
      (fun h hstep => h.step hcfg (by decide) hstep) ⟨.create ρ cfg, ?_, by rintro _ ⟨⟩⟩
    intro next hnext
    exact (Nat.le_pred_of_lt (hfile next hnext)).trans (le_max_left _ _)
  have hcinv := hinv.conn c hc
  have hring := hcinv.ring s.source.record s.source.agrees_record
  refine ⟨fun hfailed hlen hkind => hcinv.head_le hinv.source hfailed hlen hkind,
    fun x hx => ⟨(hcinv.stored x hx).2, hring.right x hx⟩, hring.increasing, ?_, ?_⟩
  -- a sequence between two that were written is behind the write position
  · rintro k ⟨x, hx, hxk⟩ ⟨y, hy, hky⟩ hmiss
    have hfirst : c.first ≤ k := (hcinv.stored x hx).1.trans hxk.le
    rcases hcinv.behind k hfirst (hky.trans (hring.below y hy)) with ⟨z, hz, hzk⟩ | ⟨z, hz, hzk⟩
    · exact absurd hzk (hmiss z hz)
    · exact ⟨z, hz, hzk, hcinv.server.passed z hz⟩
  -- only a slot of two gigabytes can make a frame whose length is cut
  · intro hsmall
    by_contra hfailed
    obtain ⟨hblob, hlarge⟩ := hcinv.sized hfailed
    rcases hsmall with hnone | hlt
    · rw [hnone] at hblob
      cases hblob
    · omega

end TcpSystem

/-- A ring of two bytes. -/
def twoBytes : SourceConfig 1 := .ofRing 1 ⟨⟨2, isPowerOfTwo_two⟩, 0, .lossyLatestWins⟩

theorem twoBytes_supported : twoBytes.Supported where
  size := by rintro _ ⟨⟩
  align := by rintro _ ⟨⟩
  slotSize := by decide
  arena := by rintro _ ⟨⟩

/-- `push` of one byte, without interruption. -/
def pushByteSource (b : UInt8) : List (SourceLabel Unit 1) :=
  [.ring (.producer (.call (.push fun _ => b))), .ring (.producer .tick), .ring (.producer .tick),
    .ring (.producer (.word onlyWord)), .ring (.producer .tick), .ring (.producer .tick),
    .ring (.producer .tick)]

@[inherit_doc pushByteSource]
def pushByte (b : UInt8) : List (TcpLabel Unit 1) := (pushByteSource b).map .source

/-- One record goes from the ring to the mirror. -/
def mirrorByte : List (TcpLabel Unit 1) :=
  [.serve (.read .tick), .serve (.read (.word onlyWord)), .serve (.read .tick),
    .serve (.linger false), .serve (.next false), .receive]

/-- The server finds record `2` overwritten, and sends a `GAP`. -/
def gapByte : List (TcpLabel Unit 1) :=
  [.serve (.read .tick), .serve (.linger false), .serve (.next false), .serve (.next false),
    .receive]

/-- A mirror of everything from the oldest byte on receives the first one. Three more are pushed, so
that the second is lost, and the mirror receives the others. -/
theorem tcp_mirrors_bytes : ∃ (s : TcpSystem Unit 1) (c : TcpConn 1),
    Transition.Reaches (TcpSystem.step twoBytes 1) (TcpSystem.create Unit twoBytes .absent) s ∧
    s.conn = some c ∧ c.mirror.ring.log.map Written.seq = [1, 3, 4] ∧
    (∀ x ∈ c.mirror.ring.log, x.Right twoBytes.geometry s.source.record) ∧
    ∃ x ∈ c.server.passed, x.seq = 2 ∧ x.Gone twoBytes s.source := by
  obtain ⟨s, hs⟩ : ∃ s, Transition.run (TcpSystem.step twoBytes 1)
      (TcpSystem.create Unit twoBytes .absent)
      (.connect .oldest :: pushByte 5 ++ mirrorByte ++ pushByte 6 ++ pushByte 7 ++ pushByte 8 ++
        gapByte ++ mirrorByte ++ mirrorByte) = some s := ⟨_, rfl⟩
  obtain ⟨c, hc⟩ : ∃ c, s.conn = some c := by
    cases hs
    exact ⟨_, rfl⟩
  have hlog : c.mirror.ring.log.map Written.seq = [1, 3, 4] := by
    cases hs
    cases hc
    rfl
  obtain ⟨-, hright, -, hlost, -⟩ :=
    TcpSystem.tcp_mirrors twoBytes_supported (by rintro _ ⟨⟩) ⟨_, hs⟩ hc
  have hseq {k : ℕ} : k ∈ [1, 3, 4] ↔ ∃ x ∈ c.mirror.ring.log, x.seq = k := by
    rw [← hlog, List.mem_map]
  refine ⟨s, c, ⟨_, hs⟩, hc, hlog, fun x hx => (hright x hx).2, hlost 2 ?_ ?_ ?_⟩
  · obtain ⟨x, hx, hone⟩ := hseq.mp (show 1 ∈ [1, 3, 4] by decide)
    exact ⟨x, hx, by omega⟩
  · obtain ⟨x, hx, hthree⟩ := hseq.mp (show 3 ∈ [1, 3, 4] by decide)
    exact ⟨x, hx, by omega⟩
  · intro x hx htwo
    exact absurd (hseq.mpr ⟨x, hx, htwo⟩) (by decide)

end Ringfire
