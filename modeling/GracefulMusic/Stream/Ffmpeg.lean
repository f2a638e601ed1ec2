import GracefulMusic.Text

/-! Decoding with libavcodec (`ffmpeg.c`).

What libavformat and libavcodec answer is given beforehand: the packets that are read, up
to the end of the file, and for each packet that is sent whether it is taken and whether a
frame is received; behind the listed answers packets are taken without a frame. A write or
a copy past the output buffer has no outcome. The branch for libavcodec from 57.48.101 on
is modelled, and the statistics are left out. -/
namespace GracefulMusic.Ffmpeg

inductive SampleFmt where
  | u8 | s16 | s32 | flt | dbl | u8p | s16p | s32p | fltp | dblp | s64 | s64p
  deriving DecidableEq

/-- What `ffmpeg_open` finds; `malloced` is the address of the output buffer as allocated. -/
structure Stream where
  sampleFmt : SampleFmt
  channels : Nat
  streamIndex : Nat
  malloced : Nat
  channels_pos : 0 < channels

/-- The bits announced, and of the format that the converter is set to. -/
def Stream.bits (st : Stream) : Nat :=
  match st.sampleFmt with
  | .u8 => 8
  | .s32 => 32
  | _ => 16

/-- The buffer starts at the next multiple of 16. -/
def Stream.capacity (st : Stream) : Nat := 192000 + 15 - (16 - st.malloced % 16) % 16

/-- The bytes of a frame as announced. -/
def Stream.frameSize (st : Stream) (nbSamples : Nat) : Nat :=
  nbSamples * st.channels * (st.bits / 8)

/-- A frame and what `swr_convert` makes of it, `nbSamples` samples for each channel. -/
structure Frame (st : Stream) where
  nbSamples : Nat
  converted : Text
  length_converted : converted.length = st.frameSize nbSamples

structure Packet where
  streamIndex : Nat
  size : Nat

/-- A packet is taken, or put off, with the frame received then; or it is refused. -/
inductive Answer (st : Stream) where
  | taken (frame : Option (Frame st))
  | again (frame : Option (Frame st))
  | refused

structure State (st : Stream) where
  packets : List Packet
  answers : List (Answer st)
  currPktSize : Nat
  buffer : Text
  bufferPos : Nat
  bufferUsedLen : Nat
  length_buffer : buffer.length = st.capacity

variable {st : Stream}

/-- `-INPUT_ERROR_INTERNAL`. -/
def errorInternal : Int := -14

/-- `swr_convert` into the buffer, whose length is then computed for 16 bits. -/
def convert (s : State st) (frame : Frame st) : Option (State st) :=
  if h : frame.converted.length ≤ st.capacity then
    some { s with
      buffer := frame.converted ++ s.buffer.drop frame.converted.length
      bufferPos := 0
      bufferUsedLen := frame.nbSamples * st.channels * 2
      length_buffer := by
        rw [List.length_append, List.length_drop, s.length_buffer]
        omega }
  else none

/-- What `send_packet` and `receive_frame` lead to: a frame, an error, or another round. -/
def decode (s : State st) : Except Int (Option (Frame st)) × State st :=
  match s.answers with
  | [] => (.ok none, { s with currPktSize := 0 })
  | .taken frame :: answers => (.ok frame, { s with answers := answers, currPktSize := 0 })
  | .again frame :: answers => (.ok frame, { s with answers := answers })
  | .refused :: answers => (.error errorInternal, { s with answers := answers })

/-- The loop of `ffmpeg_fill_buffer`; each round takes a packet or an answer. -/
def fillBufferLoop : Nat → State st → Option (Int × State st)
  | 0, _ => none
  | rounds + 1, s =>
    if s.currPktSize = 0 then
      match s.packets with
      | [] => some (0, s)
      | pkt :: packets =>
        let s := { s with packets := packets }
        fillBufferLoop rounds (if pkt.streamIndex = st.streamIndex
          then { s with currPktSize := pkt.size } else s)
    else
      let (result, s) := decode s
      match result with
      | .error e => some (e, s)
      | .ok none => fillBufferLoop rounds s
      | .ok (some frame) => (convert s frame).map fun s => (s.bufferUsedLen, s)

def fillBuffer (s : State st) : Option (Int × State st) :=
  fillBufferLoop (2 * s.packets.length + s.answers.length + 2) s

/-- The bytes in the buffer that are still to be handed out. -/
def State.pending (s : State st) : Text := (s.buffer.drop s.bufferPos).take s.bufferUsedLen

def copyOut (s : State st) (count : Nat) : Option (Int × Text × State st) :=
  let outSize := min s.bufferUsedLen count
  if s.bufferPos + outSize ≤ st.capacity then
    some (outSize, (s.buffer.drop s.bufferPos).take outSize,
      { s with bufferUsedLen := s.bufferUsedLen - outSize, bufferPos := s.bufferPos + outSize })
  else none

/-- The result and what is written to the caller's buffer. -/
def ffmpegRead (s : State st) (count : Nat) : Option (Int × Text × State st) :=
  if s.bufferUsedLen = 0 then
    (fillBuffer s).bind fun filled =>
      if filled.1 ≤ 0 then some (filled.1, [], filled.2) else copyOut filled.2 count
  else copyOut s count

/-! ### Reading on -/

/-- The bytes returned by a row of calls. -/
def readAll : List Nat → State st → Option (Text × State st)
  | [], s => some ([], s)
  | count :: counts, s =>
    (ffmpegRead s count).bind fun r => (readAll counts r.2.2).map fun rest => (r.2.1 ++ rest.1, rest.2)

def Answer.frame : Answer st → Option (Frame st)
  | .taken frame => frame
  | .again frame => frame
  | .refused => none

/-- The frames that are still to come. -/
def State.frames (s : State st) : List (Frame st) := s.answers.filterMap Answer.frame

/-- All that is to be handed out. -/
def State.toCome (s : State st) : Text := s.pending ++ s.frames.flatMap (·.converted)

/-- An opened file; the buffer holds what was in memory. -/
def opened (packets : List Packet) (answers : List (Answer st)) (buffer : Text)
    (length_buffer : buffer.length = st.capacity) : State st :=
  ⟨packets, answers, 0, buffer, 0, 0, length_buffer⟩

/-- The calls are defined, so no write is outside the buffer. They return the converted
samples from the first one on, and a call that returns 0 for a positive count comes at the
end of the file, with nothing left in the buffer. -/
def ReadsFrames (s : State st) (counts : List Nat) : Prop :=
  ∃ returned s', readAll counts s = some (returned, s') ∧ returned ++ s'.toCome = s.toCome ∧
    ∀ count > 0, ∃ rc data s'', ffmpegRead s' count = some (rc, data, s'') ∧
      (0 ≤ rc → rc = data.length) ∧ (rc < 0 → data = []) ∧
      (rc = 0 → s''.packets = [] ∧ s''.currPktSize = 0 ∧ s''.pending = [])

/-- The output has 16 bits. -/
def Stream.Wide (st : Stream) : Prop := st.sampleFmt ≠ .u8 ∧ st.sampleFmt ≠ .s32

/-- A frame is not empty and fits the output buffer. -/
def Frame.Held (frame : Frame st) : Prop :=
  0 < frame.nbSamples ∧ st.frameSize frame.nbSamples ≤ st.capacity

/-! ### One call -/

/-- What is handed out lies in the buffer, and the frames to come fit it. -/
structure Sound (s : State st) : Prop where
  inside : s.bufferPos + s.bufferUsedLen ≤ st.capacity
  held : ∀ frame ∈ s.frames, frame.Held

theorem pending_nil {s : State st} (h : s.bufferUsedLen = 0) : s.pending = [] := by
  rw [State.pending, h, List.take_zero]

/-- With 16 bits the length is that of the converted frame. -/
theorem convert_spec (hwide : st.Wide) (s : State st) {frame : Frame st} (hheld : frame.Held) :
    ∃ s', convert s frame = some s' ∧ s'.pending = frame.converted ∧ 0 < s'.bufferUsedLen ∧
      s'.bufferPos + s'.bufferUsedLen ≤ st.capacity ∧ s'.frames = s.frames := by
  have hbits : st.bits / 8 = 2 := by
    obtain ⟨hu8, hs32⟩ := hwide
    rw [Stream.bits]
    split
    · contradiction
    · contradiction
    · rfl
  have hlength : frame.converted.length = frame.nbSamples * st.channels * 2 := by
    rw [frame.length_converted, Stream.frameSize, hbits]
  have hfits : frame.converted.length ≤ st.capacity := by
    rw [frame.length_converted]
    exact hheld.2
  have hpos : 0 < frame.nbSamples * st.channels * 2 :=
    Nat.mul_pos (Nat.mul_pos hheld.1 st.channels_pos) (by decide)
  rw [convert, dif_pos hfits]
  refine ⟨_, rfl, ?_, hpos, ?_, rfl⟩
  · show ((frame.converted ++ s.buffer.drop frame.converted.length).drop 0).take
      (frame.nbSamples * st.channels * 2) = frame.converted
    rw [List.drop_zero, ← hlength, List.take_left]
  · show 0 + frame.nbSamples * st.channels * 2 ≤ st.capacity
    omega

/-- What the loop leads to from an empty buffer. -/
structure Filled (s : State st) (rc : Int) (s' : State st) : Prop where
  sound : Sound s'
  toCome : s'.toCome = s.toCome
  empty : rc ≤ 0 → s'.bufferUsedLen = 0
  full : 0 < rc → s'.bufferUsedLen ≠ 0
  ended : rc = 0 → s'.packets = [] ∧ s'.currPktSize = 0

theorem Filled.of_eq {s t s' : State st} {rc : Int} (h : Filled t rc s')
    (htoCome : t.toCome = s.toCome) : Filled s rc s' :=
  ⟨h.sound, h.toCome.trans htoCome, h.empty, h.full, h.ended⟩

/-- An upper bound on the rounds of the loop. -/
def roundsOf (s : State st) : Nat :=
  2 * s.packets.length + s.answers.length + if s.currPktSize = 0 then 0 else 1

theorem frames_cons {s : State st} {answer : Answer st} {answers : List (Answer st)}
    (h : s.answers = answer :: answers) :
    s.frames = answer.frame.toList ++ answers.filterMap Answer.frame := by
  rw [State.frames, h]
  cases hframe : answer.frame with
  | none => exact List.filterMap_cons_none hframe
  | some frame => exact List.filterMap_cons_some hframe

/-- A packet is sent: the state behind it, and the frames of it and of the rest. -/
theorem decode_spec (s : State st) (hpkt : s.currPktSize ≠ 0) :
    (decode s).2.bufferUsedLen = s.bufferUsedLen ∧ (decode s).2.bufferPos = s.bufferPos ∧
    roundsOf (decode s).2 < roundsOf s ∧
    match (decode s).1 with
    | .ok (some frame) => s.frames = frame :: (decode s).2.frames
    | .ok none => s.frames = (decode s).2.frames
    | .error e => e < 0 ∧ s.frames = (decode s).2.frames := by
  have hrounds : roundsOf s = 2 * s.packets.length + s.answers.length + 1 := by
    rw [roundsOf, if_neg hpkt]
  have hbound (t : State st) : roundsOf t ≤ 2 * t.packets.length + t.answers.length + 1 := by
    rw [roundsOf]
    split <;> omega
  rw [decode]
  cases hanswers : s.answers with
  | nil =>
    refine ⟨rfl, rfl, ?_, ?_⟩
    · rw [hrounds, hanswers]
      exact Nat.lt_succ_self _
    · show s.frames = [].filterMap Answer.frame
      rw [State.frames, hanswers]
  | cons answer answers =>
    have hframes := frames_cons hanswers
    rw [hanswers, List.length_cons] at hrounds
    cases answer with
    | taken frame =>
      refine ⟨rfl, rfl, ?_, ?_⟩
      · have hless := hbound { s with answers := answers, currPktSize := 0 }
        dsimp only at hless ⊢
        omega
      · cases frame <;> exact hframes
    | again frame =>
      refine ⟨rfl, rfl, ?_, ?_⟩
      · have hless := hbound { s with answers := answers }
        dsimp only at hless ⊢
        omega
      · cases frame <;> exact hframes
    | refused =>
      refine ⟨rfl, rfl, ?_, ?_⟩
      · have hless := hbound { s with answers := answers }
        dsimp only at hless ⊢
        omega
      · exact ⟨by decide, hframes⟩

theorem toCome_congr {s t : State st} (hs : s.bufferUsedLen = 0) (ht : t.bufferUsedLen = 0)
    (hframes : t.frames = s.frames) : t.toCome = s.toCome := by
  rw [State.toCome, State.toCome, pending_nil hs, pending_nil ht, hframes]

theorem fillBufferLoop_spec (hwide : st.Wide) (rounds : Nat) {s : State st} (hs : Sound s)
    (hempty : s.bufferUsedLen = 0) (hrounds : roundsOf s < rounds) :
    ∃ rc s', fillBufferLoop rounds s = some (rc, s') ∧ Filled s rc s' := by
  induction rounds generalizing s with
  | zero => omega
  | succ rounds ih =>
    rw [fillBufferLoop]
    by_cases hpkt : s.currPktSize = 0
    · rw [if_pos hpkt]
      cases hpackets : s.packets with
      | nil => exact ⟨0, s, rfl, hs, rfl, fun _ => hempty, by omega, fun _ => ⟨hpackets, hpkt⟩⟩
      | cons pkt packets =>
        dsimp only
        have hmeasure : roundsOf s = 2 * (packets.length + 1) + s.answers.length := by
          simp [roundsOf, hpackets, hpkt]
        have hnext (size : Nat) : ∃ rc s', fillBufferLoop rounds
            { s with packets := packets, currPktSize := size } = some (rc, s') ∧ Filled s rc s' := by
          obtain ⟨rc, s', hloop, hfilled⟩ :=
            ih (s := { s with packets := packets, currPktSize := size }) ⟨hs.inside, hs.held⟩ hempty
              (by
                have hless : (if size = 0 then 0 else 1) ≤ 1 := by split <;> omega
                show 2 * packets.length + s.answers.length + (if size = 0 then 0 else 1) < rounds
                omega)
          exact ⟨rc, s', hloop, hfilled.of_eq rfl⟩
        split
        · exact hnext pkt.size
        · exact hnext s.currPktSize
    · obtain ⟨hused, hpos, hless, hresult⟩ := decode_spec s hpkt
      rw [if_neg hpkt]
      dsimp only
      have hempty' : (decode s).2.bufferUsedLen = 0 := hused.trans hempty
      have hinside : (decode s).2.bufferPos + (decode s).2.bufferUsedLen ≤ st.capacity := by
        rw [hpos, hused]
        exact hs.inside
      cases hdecode : (decode s).1 with
      | error e =>
        rw [hdecode] at hresult
        obtain ⟨hneg, hframes⟩ := hresult
        refine ⟨e, _, rfl, ⟨hinside, fun f hf => hs.held f (hframes ▸ hf)⟩,
          toCome_congr hempty hempty' hframes.symm, fun _ => hempty', ?_, ?_⟩
        · intro hpositive
          omega
        · intro hzero
          omega
      | ok frame =>
        cases frame with
        | none =>
          rw [hdecode] at hresult
          obtain ⟨rc, s', hloop, hfilled⟩ :=
            ih ⟨hinside, fun f hf => hs.held f (hresult ▸ hf)⟩ hempty' (by omega)
          exact ⟨rc, s', hloop, hfilled.of_eq (toCome_congr hempty hempty' hresult.symm)⟩
        | some frame =>
          rw [hdecode] at hresult
          have hheld : frame.Held := hs.held frame (hresult ▸ List.mem_cons_self)
          obtain ⟨s', hconvert, hpending, hlen, hin, hframes⟩ :=
            convert_spec hwide (decode s).2 hheld
          dsimp only
          rw [hconvert]
          refine ⟨_, s', rfl, ⟨hin, ?_⟩, ?_, ?_, ?_, ?_⟩
          · intro f hf
            apply hs.held f
            rw [hresult, ← hframes]
            exact List.mem_cons_of_mem _ hf
          · rw [State.toCome, State.toCome, hpending, pending_nil hempty, hframes, hresult]
            rfl
          · intro hle
            omega
          · intro _
            omega
          · intro hzero
            omega

theorem copyOut_spec {s : State st} (hs : Sound s) (count : Nat) :
    ∃ data s', copyOut s count = some ((data.length : Int), data, s') ∧ Sound s' ∧
      data ++ s'.toCome = s.toCome ∧ data.length = min s.bufferUsedLen count := by
  have hinside := hs.inside
  have hlength : ((s.buffer.drop s.bufferPos).take (min s.bufferUsedLen count)).length =
      min s.bufferUsedLen count := by
    rw [List.length_take, List.length_drop, s.length_buffer]
    omega
  refine ⟨(s.buffer.drop s.bufferPos).take (min s.bufferUsedLen count),
    { s with
      bufferUsedLen := s.bufferUsedLen - min s.bufferUsedLen count
      bufferPos := s.bufferPos + min s.bufferUsedLen count }, ?_, ?_, ?_, hlength⟩
  · rw [copyOut, hlength]
    exact if_pos (by omega)
  · exact ⟨by dsimp only; omega, hs.held⟩
  · show _ ++ (((s.buffer.drop (s.bufferPos + min s.bufferUsedLen count)).take
      (s.bufferUsedLen - min s.bufferUsedLen count)) ++ _) = s.toCome
    rw [← List.append_assoc, ← List.drop_drop, ← List.take_add]
    have hsum : min s.bufferUsedLen count + (s.bufferUsedLen - min s.bufferUsedLen count) =
        s.bufferUsedLen := by omega
    rw [hsum]
    rfl

theorem ffmpegRead_spec (hwide : st.Wide) {s : State st} (hs : Sound s) (count : Nat) :
    ∃ rc data s', ffmpegRead s count = some (rc, data, s') ∧ Sound s' ∧
      data ++ s'.toCome = s.toCome ∧ (0 ≤ rc → rc = data.length) ∧ (rc < 0 → data = []) ∧
      (0 < count → rc = 0 → s'.packets = [] ∧ s'.currPktSize = 0 ∧ s'.pending = []) := by
  have hcopy {t : State st} (ht : Sound t) (htoCome : t.toCome = s.toCome)
      (hused : t.bufferUsedLen ≠ 0) : ∃ rc data s', copyOut t count = some (rc, data, s') ∧
        Sound s' ∧ data ++ s'.toCome = s.toCome ∧ (0 ≤ rc → rc = data.length) ∧
        (rc < 0 → data = []) ∧
        (0 < count → rc = 0 → s'.packets = [] ∧ s'.currPktSize = 0 ∧ s'.pending = []) := by
    obtain ⟨data, s', hdata, hs', hsplit, hlength⟩ := copyOut_spec ht count
    exact ⟨_, data, s', hdata, hs', hsplit.trans htoCome, fun _ => rfl, fun _ => by omega,
      fun _ _ => by omega⟩
  rw [ffmpegRead]
  by_cases hempty : s.bufferUsedLen = 0
  · obtain ⟨rc, t, hfill, hfilled⟩ := fillBufferLoop_spec hwide
      (2 * s.packets.length + s.answers.length + 2) hs hempty (by
        rw [roundsOf]
        split <;> omega)
    rw [if_pos hempty, fillBuffer, hfill, Option.bind_some]
    dsimp only
    by_cases hrc : rc ≤ 0
    · rw [if_pos hrc]
      refine ⟨rc, [], t, rfl, hfilled.sound, hfilled.toCome, ?_, fun _ => rfl, ?_⟩
      · intro hpos
        rw [List.length_nil]
        omega
      · intro _ hzero
        obtain ⟨hpackets, hpkt⟩ := hfilled.ended hzero
        exact ⟨hpackets, hpkt, pending_nil (hfilled.empty hrc)⟩
    · rw [if_neg hrc]
      exact hcopy hfilled.sound hfilled.toCome (hfilled.full (by omega))
  · rw [if_neg hempty]
    exact hcopy hs rfl hempty

/-! ### A row of calls -/

theorem readAll_spec (hwide : st.Wide) (counts : List Nat) {s : State st} (hs : Sound s) :
    ∃ returned s', readAll counts s = some (returned, s') ∧ Sound s' ∧
      returned ++ s'.toCome = s.toCome := by
  induction counts generalizing s with
  | nil => exact ⟨[], s, rfl, hs, rfl⟩
  | cons count counts ih =>
    obtain ⟨rc, data, t, hread, ht, hdata, -⟩ := ffmpegRead_spec hwide hs count
    obtain ⟨returned, s', hrest, hs', hreturned⟩ := ih ht
    refine ⟨data ++ returned, s', ?_, hs', ?_⟩
    · rw [readAll, hread, Option.bind_some, hrest]
      rfl
    · rw [List.append_assoc, hreturned, hdata]

def stereo : Stream := ⟨.fltp, 2, 0, 4096, by decide⟩

def stereoFrame : Frame stereo := ⟨1, [1, 2, 3, 4], by decide⟩

/-- One channel with samples of the given format, and a frame of one sample. -/
def mono (sampleFmt : SampleFmt) : Stream := ⟨sampleFmt, 1, 0, 4096, by decide⟩

def sample (sampleFmt : SampleFmt) : Frame (mono sampleFmt) :=
  ⟨1, List.replicate ((mono sampleFmt).frameSize 1) 7, List.length_replicate⟩

def sampleFile (sampleFmt : SampleFmt) : State (mono sampleFmt) :=
  opened [⟨0, 8⟩] [.taken (some (sample sampleFmt))]
    (List.replicate (mono sampleFmt).capacity 0) List.length_replicate

end GracefulMusic.Ffmpeg
