import Ringfire.Layout.Geometry
import Ringfire.Replication.Handshake

/-!
# The header of the ring a mirror writes

`MirrorBuilder::connect` as far as it decides which ring the mirror writes: the file at its path,
when `MirrorRing::adopt` can use it and its layout is that of the source, or a new one. A new ring
gets the flags of `Geometry::mirror_flags`. A ring that is taken over keeps the flags it has, and
`same_layout` does not look at them.

## Main definitions

* `RingAtPath`: what is at the path of the mirror; `RingAtPath.Left`: who can have left it there
* `Layout.connect`: the geometry that was announced and the header of the ring that is written
* `TakesOver`: the file is taken over

## Main results

* `connect_marks_iff`: the ring is marked sparse unless a file is taken over that no mirror made
-/

namespace Ringfire

namespace Layout

open Checked LittleEndian

/-- `GEOMETRY_RESET`. -/
def geometryReset : ℕ := 0x01

/-- `GEOMETRY_MULTICAST`. -/
def geometryMulticast : ℕ := 0x02

/-- `MULTICAST_LEN`. -/
def multicastLen : ℕ := 16

/-- What `MirrorRing::adopt` finds at the path of the mirror. -/
structure RingAtPath where
  header : RingHeader
  /-- The header of the arena, where the ring header says that there is one. -/
  arena : Option ArenaHeader
  len : ℕ
  /-- Another process holds the lock. -/
  locked : Bool

/-- The file of a ring whose writer is gone. -/
def RingLayout.file (l : RingLayout) (total : ℕ) : RingAtPath where
  header := l.header
  arena := if l.arenaOffset = 0 then none else some ⟨l.arenaSize, l.arenaSize - 1⟩
  len := total
  locked := false

/-- The files that can be at the path: a ring that one of the creators made, or one whose creator
died before it had published the header. -/
inductive RingAtPath.Left : RingAtPath → Prop where
  | published {l : RingLayout} {total : ℕ} (created : Created l total) : Left (l.file total)
  | unpublished {f : RingAtPath} (magic : f.header.magic ≠ ringfireMagic) : Left f

/-- `MirrorRing::create` made the ring. -/
def RingAtPath.OfMirror (f : RingAtPath) : Prop :=
  ∃ (b : List UInt8) (g : Geometry), b.length = geometryLen ∧ Geometry.decode b = .ok g ∧
    f = g.mirrorLayout.file g.totalLen

/-- `MirrorRing::adopt`. -/
def adoptFile : Option RingAtPath → Except RingfireError (Option (RingAtPath × Geometry))
  | none => return none
  | some f => do
    require (f.locked = false) .producerAlreadyExists
    return (adopt f.header f.arena f.len).map fun g => (f, g)

/-- `read_exact`: the first bytes of a stream and what follows them. -/
def readExact (n : ℕ) (stream : List UInt8) : Except RingfireError (List UInt8 × List UInt8) := do
  require (n ≤ stream.length) .io
  return (stream.take n, stream.drop n)

/-- The checks on the `MULTICAST` frame. A group is a multicast address, or none at all: then the
records come from the source itself, which needs an IPv4 address. -/
def checkMulticast (ipv4 : Bool) (stream : List UInt8) : Except RingfireError Unit := do
  let (hdr, stream) ← readExact frameHeaderLen stream
  let frame := Frame.decode hdr
  require (frame.kind = kindMulticast ∧ frame.len = multicastLen) (.protocol "expected MULTICAST")
  let (info, _) ← readExact multicastLen stream
  let group := info.take 4
  let first := ofLe (group.take 1)
  require ((224 ≤ first ∧ first ≤ 239) ∨ ofLe group = 0)
    (.protocol "MULTICAST group is not a multicast address")
  if ofLe group = 0 then
    require (ipv4 = true) (.unsupported "unicast delivery needs an IPv4 source")

/-- The ring that was adopted, if the mirror resumes. -/
def adopted (start : MirrorStart) (found : Option RingAtPath) :
    Except RingfireError (Option (RingAtPath × Geometry)) :=
  if start = .resume then adoptFile found else .ok none

/-- The header of the ring that is written: that of the ring that was adopted, or of a new one. -/
def chooseRing (adopted : Option (RingAtPath × Geometry)) (reset : Bool) (g : Geometry) :
    Except RingfireError RingHeader :=
  match adopted with
  | some (f, own) =>
    if reset = false ∧ own.sameLayout g = true then .ok f.header else Prod.fst <$> g.create
  | none => Prod.fst <$> g.create

/-- `MirrorBuilder::connect` to a source that answers `stream`: the geometry that was announced, and
the header of the ring that the mirror writes. -/
def connect (start : MirrorStart) (found : Option RingAtPath) (ipv4 : Bool) (stream : List UInt8) :
    Except RingfireError (Geometry × RingHeader) := do
  let ring ← adopted start found
  let (hdr, rest) ← readExact frameHeaderLen stream
  let frame := Frame.decode hdr
  require (frame.kind = kindGeometry ∧ frame.len = geometryLen) (.protocol "expected GEOMETRY")
  let (body, rest) ← readExact geometryLen rest
  let g ← Geometry.decode body
  let reset : Bool := frame.flags &&& geometryReset ≠ 0
  if frame.flags &&& geometryMulticast ≠ 0 then checkMulticast ipv4 rest
  let h ← chooseRing ring reset g
  return (g, h)

/-- The header of the frame that the source answers with. -/
def announcedFrame (stream : List UInt8) : Frame := Frame.decode (stream.take frameHeaderLen)

/-- The geometry in the answer of the source. -/
def announced (stream : List UInt8) : Geometry :=
  Geometry.read ((stream.drop frameHeaderLen).take geometryLen)

/-- The file is taken over: the mirror resumes, the source does not tell it to start over, and the
file is a ring with the layout of the source. -/
def TakesOver (start : MirrorStart) (f : RingAtPath) (stream : List UInt8) : Prop :=
  start = .resume ∧ (announcedFrame stream).flags &&& geometryReset = 0 ∧
    ∃ own, adopt f.header f.arena f.len = some own ∧ own.sameLayout (announced stream) = true

section

variable {start : MirrorStart} {found : Option RingAtPath} {ipv4 : Bool} {stream : List UInt8}
  {f : RingAtPath} {g : Geometry} {h : RingHeader}

theorem readExact_eq_ok {n : ℕ} {b rest : List UInt8} :
    readExact n stream = .ok (b, rest) ↔
      n ≤ stream.length ∧ b = stream.take n ∧ rest = stream.drop n := by
  simp only [readExact, bind_eq_ok, require_eq_ok, exists_const]
  constructor
  · rintro ⟨hle, ⟨⟩⟩
    exact ⟨hle, rfl, rfl⟩
  · rintro ⟨hle, rfl, rfl⟩
    exact ⟨hle, rfl⟩

/-- A ring that is created gets the header of the mirror layout. -/
theorem Geometry.header_of_create (hc : Prod.fst <$> g.create = .ok h) :
    h = g.mirrorLayout.header := by
  unfold Geometry.create at hc
  split_ifs at hc
  · cases ha : initArena g.arenaSize with
    | error e =>
      rw [ha] at hc
      cases hc
    | ok a =>
      rw [ha] at hc
      cases hc
      rfl
  · cases hc
    rfl

/-- Only a mirror that resumes has adopted a ring. -/
theorem adopted_eq_some {own : Geometry} (ha : adopted start found = .ok (some (f, own))) :
    start = .resume ∧ found = some f ∧ adopt f.header f.arena f.len = some own := by
  unfold adopted at ha
  split_ifs at ha with hstart
  · cases found with
    | none => cases ha
    | some f₀ =>
      simp only [adoptFile, bind_eq_ok, require_eq_ok, exists_const] at ha
      obtain ⟨-, ha⟩ := ha
      simp only [pure, Except.pure, Except.ok.injEq, Option.map_eq_some_iff] at ha
      obtain ⟨_, hown, ⟨⟩⟩ := ha
      exact ⟨hstart, rfl, hown⟩
  · cases ha

/-- A mirror that resumes has not adopted a ring only when there is none it can use. -/
theorem adopted_eq_none (ha : adopted start found = .ok none) (hstart : start = .resume)
    (hf : found = some f) : adopt f.header f.arena f.len = none := by
  rw [adopted, if_pos hstart, hf] at ha
  simp only [adoptFile, bind_eq_ok, require_eq_ok, exists_const] at ha
  obtain ⟨-, ha⟩ := ha
  simpa only [pure, Except.pure, Except.ok.injEq, Option.map_eq_none_iff] using ha

/-- **Which ring a mirror writes.** -/
theorem connect_eq_ok (hok : connect start found ipv4 stream = .ok (g, h)) :
    g = announced stream ∧
      ((∃ f, found = some f ∧ TakesOver start f stream ∧ h = f.header) ∨
        (∀ f, found = some f → ¬ TakesOver start f stream) ∧ h = g.mirrorLayout.header) := by
  simp only [connect, bind_eq_ok, require_eq_ok, exists_const, Prod.exists, readExact_eq_ok] at hok
  obtain ⟨ring, hring, hdr, rest, ⟨-, rfl, rfl⟩, -, body, rest', ⟨-, rfl, rfl⟩, g', hg, hok⟩ := hok
  obtain ⟨hacc, rfl⟩ := Geometry.check_eq_ok.mp hg
  -- the `MULTICAST` frame can only make it fail
  have hchoose : chooseRing ring (decide ((announcedFrame stream).flags &&& geometryReset ≠ 0))
      (announced stream) = .ok h ∧ g = announced stream := by
    split_ifs at hok
    · obtain ⟨_, -, hok⟩ := bind_eq_ok.mp hok
      obtain ⟨h', hh, ⟨⟩⟩ := bind_eq_ok.mp hok
      exact ⟨hh, rfl⟩
    · obtain ⟨h', hh, ⟨⟩⟩ := bind_eq_ok.mp hok
      exact ⟨hh, rfl⟩
  obtain ⟨hchoose, hg⟩ := hchoose
  refine ⟨hg, ?_⟩
  subst hg
  cases ring with
  | none =>
    refine .inr ⟨fun f hf htakes => ?_, Geometry.header_of_create hchoose⟩
    obtain ⟨hstart, -, own, hown, -⟩ := htakes
    rw [adopted_eq_none hring hstart hf] at hown
    cases hown
  | some p =>
    obtain ⟨f, own⟩ := p
    obtain ⟨hstart, hf, hown⟩ := adopted_eq_some hring
    simp only [chooseRing] at hchoose
    split_ifs at hchoose with hcond
    · cases hchoose
      refine .inl ⟨f, hf, ⟨hstart, ?_, own, hown, hcond.2⟩, rfl⟩
      simpa using hcond.1
    · refine .inr ⟨fun f' hf' htakes => hcond ?_, Geometry.header_of_create hchoose⟩
      cases hf.symm.trans hf'
      obtain ⟨-, hreset, own', hown', hsame⟩ := htakes
      cases hown.symm.trans hown'
      exact ⟨by simpa using hreset, hsame⟩

/-! ## Flags -/

theorem Geometry.mirrorFlags_sparse (g : Geometry) : g.mirrorFlags &&& flagSparse ≠ 0 := by
  unfold Geometry.mirrorFlags
  split_ifs <;> decide

/-- Apart from a mirror, no creator marks its ring sparse. -/
theorem Created.not_sparse {l : RingLayout} {total : ℕ} (hl : Created l total) :
    l.flags &&& flagSparse = 0 ∨ (l.file total).OfMirror := by
  cases hl with
  | ring t capacity maxReaders schemaSig lossless =>
    refine .inl ?_
    unfold ringLayout
    dsimp only
    split_ifs <;> decide
  | mpmc t capacity schemaSig =>
    refine .inl ?_
    show (flagPolicyLatestWins ||| flagModeMpmc) &&& flagSparse = 0
    decide
  | blob m align capacity arenaCapacity maxReaders schemaSig =>
    refine .inl ?_
    show (flagPolicyLatestWins ||| flagModeSpmc ||| flagWithArena ||| flagWithRegistry) &&&
      flagSparse = 0
    decide
  | raw capacity elementSize =>
    refine .inl ?_
    show (flagPolicyLatestWins ||| flagModeSpmc) &&& flagSparse = 0
    decide
  | mirror b g len accepted => exact .inr ⟨b, g, len, accepted, rfl⟩

/-- A file that is adopted was published, and its geometry is read off its header. -/
theorem eq_of_adopt {arena : Option ArenaHeader} {len : ℕ} {own : Geometry}
    (ha : adopt h arena len = some own) :
    h.magic = ringfireMagic ∧ own = .fromHeader h h.view := by
  unfold adopt at ha
  split at ha
  · cases ha
  · next v hv =>
    simp only [validateRing, bind_eq_ok, require_eq_ok, exists_const] at hv
    obtain ⟨-, hmagic, -, -, -, -, -, -, -, -, ⟨⟩⟩ := hv
    refine ⟨hmagic, ?_⟩
    dsimp only at ha
    split_ifs at ha
    · unfold Geometry.adoptArena at ha
      split at ha
      · split_ifs at ha
        cases ha
        rfl
      · cases ha
    · cases ha
      rfl

/-- The flags a mirror writes depend on nothing but what `same_layout` compares. -/
theorem Geometry.mirrorFlags_eq {g' : Geometry} (hs : g.sameLayout g' = true) :
    g.mirrorFlags = g'.mirrorFlags := by
  simp only [sameLayout, decide_eq_true_eq] at hs
  obtain ⟨-, -, -, hcount, -, harena, -⟩ := hs
  have hhas : g.hasArena = g'.hasArena := by simp only [hasArena, harena]
  simp only [mirrorFlags, hcount, hhas]

/-- A mirror that takes over the ring of a mirror finds the flags it would have written. -/
theorem RingAtPath.OfMirror.flags (hf : f.OfMirror) (ht : TakesOver start f stream) :
    f.header.flags = (announced stream).mirrorFlags := by
  obtain ⟨b, g₀, -, hb, rfl⟩ := hf
  obtain ⟨-, -, own, hown, hsame⟩ := ht
  obtain ⟨-, rfl⟩ := Geometry.check_eq_ok.mp hb
  have hcount : (Geometry.read b).registryCount < 2 ^ 32 := by
    have hlt := ofLe_lt ((b.drop 24).take 4)
    have hle : ((b.drop 24).take 4).length ≤ 4 := List.length_take_le _ _
    calc (Geometry.read b).registryCount < 256 ^ ((b.drop 24).take 4).length := hlt
      _ ≤ 256 ^ 4 := Nat.pow_le_pow_right (by decide) hle
  -- what was adopted has the registry and the arena of the ring's own geometry
  have hown_eq : own.mirrorFlags = (Geometry.read b).mirrorFlags := by
    rw [(eq_of_adopt hown).2]
    show Geometry.mirrorFlags ⟨_, _, _, _, (Geometry.read b).registryCount % 2 ^ 32, _, _, _⟩ = _
    rw [Nat.mod_eq_of_lt hcount]
    rfl
  calc (Geometry.read b).mirrorFlags = own.mirrorFlags := hown_eq.symm
    _ = (announced stream).mirrorFlags := Geometry.mirrorFlags_eq hsame

/-- A file that is taken over and has the flags of a mirror was made by one. -/
theorem RingAtPath.Left.ofMirror (hf : f.Left) (ht : TakesOver start f stream)
    (hflags : f.header.flags = (announced stream).mirrorFlags) : f.OfMirror := by
  cases hf with
  | published created =>
    rcases created.not_sparse with hzero | hmirror
    · have hsparse := (announced stream).mirrorFlags_sparse
      rw [← hflags] at hsparse
      exact absurd hzero hsparse
    · exact hmirror
  | unpublished magic =>
    obtain ⟨-, -, own, hown, -⟩ := ht
    exact absurd (eq_of_adopt hown).1 magic

/-- **When the ring a mirror writes is marked sparse.** Whatever is left at the path and whatever
geometry the source announces, the flags of the ring that the mirror writes are those of
`mirror_flags`, unless a file is taken over that no mirror made. -/
theorem connect_marks_iff (hfound : ∀ f, found = some f → f.Left)
    (hok : connect start found ipv4 stream = .ok (g, h)) :
    h.flags = g.mirrorFlags ↔ ∀ f, found = some f → TakesOver start f stream → f.OfMirror := by
  obtain ⟨rfl, ⟨f, hf, htakes, rfl⟩ | ⟨hnone, rfl⟩⟩ := connect_eq_ok hok
  · constructor
    · intro hflags f' hf' htakes'
      cases hf.symm.trans hf'
      exact (hfound f hf).ofMirror htakes hflags
    · exact fun hmirror => (hmirror f hf htakes).flags htakes
  · exact ⟨fun _ f hf htakes => absurd htakes (hnone f hf), fun _ => rfl⟩

end

/-- The answer of a source with a ring of four `u64` and two readers. -/
def wordsAnswer : List UInt8 :=
  (⟨kindGeometry, 0, 0, geometryLen, 3⟩ : Frame).encode ++
    (ringLayout wordLayout 4 2 7 false).geometry.encode

/-- A mirror that resumes on the ring of a mirror keeps it, with its flags. -/
theorem connect_marks_iff_words :
    ∃ h, connect .resume (some ((announced wordsAnswer).mirrorLayout.file 320)) true wordsAnswer =
        .ok (announced wordsAnswer, h) ∧ h.flags = (announced wordsAnswer).mirrorFlags := by
  have hmirror : ((announced wordsAnswer).mirrorLayout.file 320).OfMirror :=
    ⟨wordsAnswer.drop 16, announced wordsAnswer, by decide +kernel, by decide +kernel, rfl⟩
  have hleft : ((announced wordsAnswer).mirrorLayout.file 320).Left :=
    .published (.mirror (wordsAnswer.drop 16) (announced wordsAnswer) (by decide +kernel)
      (by decide +kernel))
  have hok : connect .resume (some ((announced wordsAnswer).mirrorLayout.file 320)) true
      wordsAnswer = .ok (announced wordsAnswer, (announced wordsAnswer).mirrorLayout.header) := by
    decide +kernel
  refine ⟨_, hok, (connect_marks_iff ?_ hok).mpr ?_⟩
  · rintro f ⟨⟩
    exact hleft
  · rintro f ⟨⟩ -
    exact hmirror

/-- **A producer's ring is taken over as it is.** A `RingProducer` made the file at the path; a
mirror of a source with the same layout resumes on it, and its readers are never told to skip the
holes. -/
theorem connect_keeps_producer_flags :
    Created (ringLayout wordLayout 4 2 7 false) 320 ∧
      ∃ h, connect .resume (some ((ringLayout wordLayout 4 2 7 false).file 320)) true
          wordsAnswer = .ok (announced wordsAnswer, h) ∧
        h.flags ≠ (announced wordsAnswer).mirrorFlags ∧ h.flags &&& flagSparse = 0 := by
  refine ⟨.ring wordLayout 4 2 7 false (by decide) (by decide),
    (ringLayout wordLayout 4 2 7 false).header, ?_, ?_, ?_⟩
  · decide +kernel
  · decide +kernel
  · decide +kernel

end Layout

end Ringfire
