import GracefulMusic.Input.Samples
import GracefulMusic.Playback.Buffer

/-! Whole frames in the playback buffer (`player.c`, `input.c`, `buffer.c`).

The producer asks for room and reads into it; the consumer asks for bytes and hands them
to the output plugin. Either thread may go on between the other's steps. The formats'
frames all divide a chunk, so what is free in a chunk, what is asked of the plugin, what
it returns and what is played stay whole numbers of frames. -/
namespace GracefulMusic.Playback
open Samples

/-- The buffer with the plugin that is read from, and what `buffer_get_wpos` and
`buffer_get_rpos` last said to a thread that has not used it yet. -/
structure Playing (n : Nat) where
  buffer : Buffer n
  ip : InputPlugin
  room : Option (Option (Pos n) × Nat)
  available : Option (Option (Pos n) × Nat)

/-- The `BUG_ON`s of `ip_read`, and those of `buffer_fill` and `buffer_consume`. -/
inductive Fault where
  | read (bug : Bug)
  | fill
  | consume

/-- What happens next; what `select`, the plugin's `Read`, the output plugin's space and
`snd_pcm_writei` say is given with the step. -/
inductive Act where
  | getWpos
  | read (prebuffering : Bool) (tmp : Text) (select : Select) (answer : Nat → Answer)
  | getRpos
  | write (space written : Nat)
  | reset

namespace Playing
variable {n : Nat}

/-- What was read is stored where the room is. -/
def store (b : Buffer n) (pos : Option (Pos n)) (bytes : Text) : Buffer n :=
  match pos with
  | none => b
  | some p => b.setChunk p.chunk ((b.chunks p.chunk).write p.off bytes)

/-- The producer with room, in `producer_loop` or in `_prebuffer`. -/
def read (s : Playing n) (prebuffering : Bool) (pos : Option (Pos n)) (size : Nat) (tmp : Text)
    (select : Select) (answer : Nat → Answer) : Except Fault (Playing n) :=
  if size = 0 ∧ !prebuffering then .ok {s with room := none} -- buffer is full
  else
    match ipRead s.ip tmp size select answer with
    | .error bug => .error (.read bug)
    | .ok r =>
      let b := store s.buffer pos r.stored
      if r.rc = -1 ∧ r.again then .ok {s with buffer := b, ip := r.ip, room := none}
      else
        -- ip_read sets eof, and a count of 0 marks the chunk filled
        match b.fill (if r.rc < 0 then 0 else r.rc.toNat) with
        | none => .error .fill
        | some (b, _) => .ok {s with buffer := b, ip := r.ip, room := none}

/-- `op_alsa_write`, where `snd_pcm_writei` takes up to `written` frames. -/
def opWrite (frameSize size written : Nat) : Nat := min written (size / frameSize) * frameSize

/-- The consumer with bytes. -/
def write (s : Playing n) (frameSize size space written : Nat) : Except Fault (Playing n) :=
  if size = 0 ∨ space = 0 then .ok {s with available := none}
  else
    let size := if size > space then space else size
    match s.buffer.consume (opWrite frameSize size written) with
    | none => .error .consume
    | some b => .ok {s with buffer := b, available := none}

/-- A step; a thread that has not asked has nothing to report. `buffer_reset` is called with
both threads' mutexes held. -/
def step (host : Endian) (hn : 0 < n) (s : Playing n) : Act → Except Fault (Playing n)
  | .getWpos => .ok {s with room := some s.buffer.getWpos}
  | .read prebuffering tmp select answer =>
    match s.room with
    | none => .ok s
    | some (pos, size) => s.read prebuffering pos size tmp select answer
  | .getRpos => .ok {s with available := some s.buffer.getRpos}
  | .write space written =>
    match s.available with
    | none => .ok s
    | some (_, size) => s.write (sfGetFrameSize (setBufferSf host s.ip.sf)) size space written
  | .reset =>
    match s.room, s.available with
    | none, none => .ok {s with buffer := s.buffer.reset hn}
    | _, _ => .ok s

def run (host : Endian) (hn : 0 < n) (s : Playing n) (acts : List Act) : Except Fault (Playing n) :=
  acts.foldlM (step host hn) s

/-- A plugin has been opened; the buffer's memory was reset. -/
def start (host : Endian) (hn : 0 < n) (memory : Buffer n) (sf : SampleFormat) : Playing n :=
  ⟨memory.reset hn, ipSetup host sf, none, none⟩

end Playing

/-- 1 to 8 channels of 8, 16, 24 or 32 bits. -/
def Supported (sf : SampleFormat) : Prop :=
  (1 ≤ sfGetChannels sf ∧ sfGetChannels sf ≤ 8) ∧ sfGetBits sf ∈ [8, 16, 24, 32]

/-- How a plugin of a format may answer: with an end or an error, with any positive number of
whole frames it has room for, or with as much as it has of some whole frames. -/
inductive Plugin (sf : SampleFormat) : (Nat → Answer) → Prop
  | stopped (rc : Int) (h : rc ≤ 0) (again : Bool) : Plugin sf fun _ => .stopped rc h again
  | frames (data : Nat → Text)
      (h : ∀ count, sfGetFrameSize sf ≤ count →
        0 < (data count).length ∧ (data count).length ≤ count ∧
          sfGetFrameSize sf ∣ (data count).length) :
      Plugin sf fun count => .data (data count)
  | available (data : Text) (hdata : data ≠ []) (h : sfGetFrameSize sf ∣ data.length) :
      Plugin sf fun count => .data (data.take count)

/-- Every read is from a plugin of the format. -/
def Act.Reads (sf : SampleFormat) : Act → Prop
  | .read _ _ _ answer => Plugin sf answer
  | _ => True

/-! ### Frame sizes -/

/-- The frames of the format and those of the buffer: how they relate, and what they divide. -/
structure FrameSizes (frame bufferFrame scale : Nat) : Prop where
  scaled : bufferFrame = frame * scale
  frame_pos : 0 < frame
  scale_pos : 0 < scale
  chunk : bufferFrame ∣ chunkSize
  tmp : scale > 1 → frame ∣ tmpSize

theorem frameSizes (host : Endian) {sf : SampleFormat} (h : Supported sf) :
    FrameSizes (sfGetFrameSize sf) (sfGetFrameSize (setBufferSf host sf))
      (ipSetup host sf).pcmConvertScale := by
  obtain ⟨⟨hone, height⟩, hbits⟩ := h
  simp only [List.mem_cons, List.not_mem_nil, or_false] at hbits
  by_cases hsmall : sfGetChannels sf ≤ 2 ∧ sfGetBits sf ≤ 16
  · -- both formats have few bits
    obtain ⟨hch, hb, -, -⟩ := setBufferSf_fields host hsmall
    have hbits' : sfGetBits sf = 8 ∨ sfGetBits sf = 16 := by omega
    have hchannels : sfGetChannels sf = 1 ∨ sfGetChannels sf = 2 := by omega
    obtain hb' | hb' := hbits' <;> obtain hch' | hch' := hchannels <;>
      constructor <;>
      simp [sfGetFrameSize, sfGetSampleSize, ipSetup, hch, hb, hb', hch', chunkSize, tmpSize]
  · have hbuffer : setBufferSf host sf = sf := if_neg hsmall
    have hscale : (ipSetup host sf).pcmConvertScale = 1 := by
      rw [ipSetup]
      dsimp only
      rw [if_neg fun h => hsmall ⟨h.2, h.1⟩]
    rw [hbuffer, hscale, sfGetFrameSize, sfGetSampleSize]
    generalize sfGetChannels sf = channels at *
    have hall : ∀ bits ∈ [8, 16, 24, 32], ∀ c < 9, 0 < c →
        0 < (bits >>> 3) * c ∧ (bits >>> 3) * c ∣ chunkSize := by
      decide
    obtain ⟨hpos, hdvd⟩ := hall (sfGetBits sf) (by simpa using hbits) channels (by omega) (by omega)
    exact ⟨(Nat.mul_one _).symm, hpos, by decide, hdvd, fun h => absurd h (by decide)⟩

/-- What is asked of the plugin for room of whole frames. -/
theorem FrameSizes.asked {frame bufferFrame : Nat} {ip : InputPlugin}
    (h : FrameSizes frame bufferFrame ip.pcmConvertScale) {size : Nat} (hsize : size ≠ 0)
    (hdvd : bufferFrame ∣ size) :
    0 < ip.askedCount size ∧ frame ∣ ip.askedCount size ∧
      ip.askedCount size * ip.pcmConvertScale ≤ size := by
  obtain ⟨k, rfl⟩ := hdvd
  have hk : 0 < k := Nat.pos_of_ne_zero fun hzero => hsize (by rw [hzero, Nat.mul_zero])
  rw [InputPlugin.askedCount]
  by_cases hone : ip.pcmConvertScale > 1
  · have hdiv : bufferFrame * k / ip.pcmConvertScale = frame * k := by
      rw [h.scaled, Nat.mul_right_comm, Nat.mul_div_cancel _ h.scale_pos]
    have hmul : frame * k * ip.pcmConvertScale = bufferFrame * k := by
      rw [h.scaled, Nat.mul_right_comm]
    rw [if_pos hone, hdiv]
    dsimp only
    split
    · exact ⟨by decide, h.tmp hone, le_trans (Nat.mul_le_mul_right _ (by omega)) hmul.le⟩
    · exact ⟨Nat.mul_pos h.frame_pos hk, Nat.dvd_mul_right _ _, hmul.le⟩
  · have hscale : ip.pcmConvertScale = 1 := by have := h.scale_pos; omega
    rw [if_neg hone, hscale, Nat.mul_one, h.scaled, hscale, Nat.mul_one]
    exact ⟨Nat.mul_pos h.frame_pos hk, Nat.dvd_mul_right _ _, le_refl _⟩

/-- What a plugin says when it is asked for whole frames. -/
theorem Plugin.answers {sf : SampleFormat} {answer : Nat → Answer}
    (h : Plugin sf answer) {count : Nat}
    (hpos : 0 < count) (hdvd : sfGetFrameSize sf ∣ count) :
    (∃ rc, ∃ hrc : rc ≤ 0, ∃ again, answer count = .stopped rc hrc again) ∨
      ∃ byte bytes, answer count = .data (byte :: bytes) ∧ (byte :: bytes).length ≤ count ∧
        sfGetFrameSize sf ∣ (byte :: bytes).length := by
  have hcons : ∀ data : Text, 0 < data.length → data.length ≤ count →
      sfGetFrameSize sf ∣ data.length → answer count = .data data →
      ∃ byte bytes, answer count = .data (byte :: bytes) ∧ (byte :: bytes).length ≤ count ∧
        sfGetFrameSize sf ∣ (byte :: bytes).length := by
    intro data hne hle hwhole heq
    cases data with
    | nil => exact absurd hne (by simp)
    | cons byte bytes => exact ⟨byte, bytes, heq, hle, hwhole⟩
  cases h with
  | stopped rc h again => exact .inl ⟨rc, h, again, rfl⟩
  | frames data h =>
    obtain ⟨hne, hle, hwhole⟩ := h count (Nat.le_of_dvd hpos hdvd)
    exact .inr (hcons (data count) hne hle hwhole rfl)
  | available data hdata h =>
    have hlen : (data.take count).length = min count data.length := List.length_take
    have hdatapos := List.length_pos_of_ne_nil hdata
    refine .inr (hcons (data.take count) ?_ ?_ ?_ rfl)
    · omega
    · omega
    · rw [hlen]
      obtain hmin | hmin := Nat.le_total count data.length
      · rwa [Nat.min_eq_left hmin]
      · rwa [Nat.min_eq_right hmin]

/-- A read into room of whole frames stores whole frames. -/
theorem ipRead_whole {host : Endian} {sf : SampleFormat} (h : Supported sf) {ip : InputPlugin}
    (hsf : ip.sf = sf) (hscale : ip.pcmConvertScale = (ipSetup host sf).pcmConvertScale)
    {answer : Nat → Answer} (hplugin : Plugin sf answer) (tmp : Text) (select : Select) {size : Nat}
    (hsize : size ≠ 0) (hdvd : sfGetFrameSize (setBufferSf host sf) ∣ size) :
    ∃ r, ipRead ip tmp size select answer = .ok r ∧ r.ip.sf = ip.sf ∧
      r.ip.pcmConvertScale = ip.pcmConvertScale ∧
      sfGetFrameSize (setBufferSf host sf) ∣ r.rc.toNat ∧ r.rc.toNat ≤ size := by
  have hsizes := frameSizes host h
  rw [← hscale] at hsizes
  obtain ⟨hpos, hwhole, hle⟩ := hsizes.asked hsize hdvd
  unfold ipRead
  rw [if_neg hsize]
  cases select with
  | failed again => exact ⟨_, rfl, rfl, rfl, Nat.dvd_zero _, Nat.zero_le _⟩
  | timeout => exact ⟨_, rfl, rfl, rfl, Nat.dvd_zero _, Nat.zero_le _⟩
  | ready =>
    dsimp only
    obtain ⟨rc, hrc, again, heq⟩ | ⟨byte, bytes, heq, hlen, hframes⟩ := hplugin.answers hpos hwhole
    · rw [heq]
      dsimp only
      split
      · exact ⟨_, rfl, rfl, rfl, Nat.dvd_zero _, Nat.zero_le _⟩
      · refine ⟨_, rfl, rfl, rfl, ?_, ?_⟩
        · rw [Int.toNat_of_nonpos hrc]
          exact Nat.dvd_zero _
        · rw [Int.toNat_of_nonpos hrc]
          exact Nat.zero_le _
    · rw [heq]
      dsimp only
      rw [hsf, if_neg fun hne => hne (Nat.mod_eq_zero_of_dvd hframes)]
      refine ⟨_, rfl, hsf, rfl, ?_, ?_⟩
      · rw [Int.toNat_natCast, hsizes.scaled]
        exact Nat.mul_dvd_mul_right hframes _
      · rw [Int.toNat_natCast]
        exact le_trans (Nat.mul_le_mul_right _ hlen) hle

/-! ### The ring -/

/-- A chunk of whole frames; a chunk that is not filled has 1024 bytes free. -/
structure Chunk.Whole (frame : Nat) (c : Chunk) : Prop where
  l : frame ∣ c.l
  h : frame ∣ c.h
  le : c.l ≤ c.h
  fits : c.h ≤ chunkSize
  free : c.filled = false → c.h + 1024 ≤ chunkSize

theorem Chunk.whole_empty (frame : Nat) (data : Nat → UInt8) :
    Chunk.Whole frame ⟨data, 0, 0, false⟩ :=
  ⟨Nat.dvd_zero _, Nat.dvd_zero _, le_refl _, Nat.zero_le _,
    fun _ => show 0 + 1024 ≤ chunkSize by decide⟩

variable {n : Nat}

def Buffer.Whole (frame : Nat) (b : Buffer n) : Prop := ∀ i, (b.chunks i).Whole frame

theorem Buffer.Whole.setChunk {frame : Nat} {b : Buffer n} (h : b.Whole frame)
    (i : Fin n) {c : Chunk}
    (hc : c.Whole frame) : (b.setChunk i c).Whole frame := by
  intro j
  by_cases hj : j = i
  · rw [Buffer.setChunk, hj]
    dsimp only
    rwa [Function.update_self]
  · rw [Buffer.setChunk]
    dsimp only
    rw [Function.update_of_ne hj]
    exact h j

theorem Buffer.Whole.getWpos {frame : Nat} {b : Buffer n} (h : b.Whole frame)
    (hframe : frame ∣ chunkSize) :
    frame ∣ b.getWpos.2 ∧ (b.getWpos.2 ≠ 0 →
      (b.chunks b.widx).filled = false ∧ b.getWpos.2 = chunkSize - (b.chunks b.widx).h) := by
  rw [Buffer.getWpos]
  split
  · next hfree => exact ⟨Nat.dvd_sub hframe (h _).h, fun _ => ⟨by simpa using hfree, rfl⟩⟩
  · exact ⟨Nat.dvd_zero _, fun hne => absurd rfl hne⟩

theorem Buffer.Whole.getRpos {frame : Nat} {b : Buffer n} (h : b.Whole frame) :
    frame ∣ b.getRpos.2 ∧ (b.getRpos.2 ≠ 0 →
      (b.chunks b.ridx).filled = true ∧
        b.getRpos.2 = (b.chunks b.ridx).h - (b.chunks b.ridx).l) := by
  rw [Buffer.getRpos]
  split
  · next hfilled => exact ⟨Nat.dvd_sub (h _).h (h _).l, fun _ => ⟨hfilled, rfl⟩⟩
  · exact ⟨Nat.dvd_zero _, fun hne => absurd rfl hne⟩

/-- Reporting whole frames that fit. -/
theorem Buffer.Whole.fill {frame : Nat} {b : Buffer n} (h : b.Whole frame)
    (hopen : (b.chunks b.widx).filled = false) {count : Nat} (hdvd : frame ∣ count)
    (hle : count ≤ chunkSize - (b.chunks b.widx).h) :
    ∃ b' marked, b.fill count = some (b', marked) ∧ b'.Whole frame ∧ b'.ridx = b.ridx ∧
      ∀ i, (b.chunks i).filled = true → b'.chunks i = b.chunks i := by
  have hchunk := h b.widx
  have hfits : (b.chunks b.widx).h + count ≤ chunkSize := by
    have := hchunk.fits
    omega
  have hother : ∀ c i, (b.chunks i).filled = true →
      (b.setChunk b.widx c).chunks i = b.chunks i := by
    intro c i hi
    refine Function.update_of_ne (fun heq => ?_) _ _
    rw [heq, hopen] at hi
    cases hi
  rw [Buffer.fill]
  dsimp only
  rw [if_neg (by simp [hopen])]
  split
  · refine ⟨_, true, rfl, ?_, rfl, hother _⟩
    exact h.setChunk b.widx ⟨hchunk.l, Nat.dvd_add hchunk.h hdvd,
      le_trans hchunk.le (Nat.le_add_right _ _),
      hfits, fun hno => by cases hno⟩
  · next hroom =>
    refine ⟨_, false, rfl, ?_, rfl, hother _⟩
    exact h.setChunk b.widx ⟨hchunk.l, Nat.dvd_add hchunk.h hdvd,
      le_trans hchunk.le (Nat.le_add_right _ _),
      hfits, fun _ => by
        have := not_or.mp hroom
        show (b.chunks b.widx).h + count + 1024 ≤ chunkSize
        omega⟩

/-- Playing whole frames of what is there. -/
theorem Buffer.Whole.consume {frame : Nat} {b : Buffer n} (h : b.Whole frame)
    (hfilled : (b.chunks b.ridx).filled = true) {count : Nat} (hdvd : frame ∣ count)
    (hle : count ≤ (b.chunks b.ridx).h - (b.chunks b.ridx).l) :
    ∃ b', b.consume count = some b' ∧ b'.Whole frame ∧ b'.widx = b.widx ∧
      ∀ i, (b.chunks i).filled = false → b'.chunks i = b.chunks i := by
  have hchunk := h b.ridx
  have hother : ∀ c i, (b.chunks i).filled = false →
      (b.setChunk b.ridx c).chunks i = b.chunks i := by
    intro c i hi
    refine Function.update_of_ne (fun heq => ?_) _ _
    rw [heq, hfilled] at hi
    cases hi
  rw [Buffer.consume]
  dsimp only
  rw [if_neg (by simp [hfilled])]
  split
  · exact ⟨_, rfl, h.setChunk b.ridx (Chunk.whole_empty frame _), rfl, hother _⟩
  · refine ⟨_, rfl, h.setChunk b.ridx
      ⟨Nat.dvd_add hchunk.l hdvd, hchunk.h, ?_, hchunk.fits, hchunk.free⟩,
      rfl, hother _⟩
    have := hchunk.le
    show (b.chunks b.ridx).l + count ≤ (b.chunks b.ridx).h
    omega

/-! ### Runs -/

/-- Everything is in whole frames, and what a thread was told still holds. -/
structure Playing.Aligned (host : Endian) (sf : SampleFormat) (s : Playing n) : Prop where
  sf_eq : s.ip.sf = sf
  scale : s.ip.pcmConvertScale = (ipSetup host sf).pcmConvertScale
  whole : s.buffer.Whole (sfGetFrameSize (setBufferSf host sf))
  room : ∀ pos size, s.room = some (pos, size) → sfGetFrameSize (setBufferSf host sf) ∣ size ∧
    (size ≠ 0 → (s.buffer.chunks s.buffer.widx).filled = false ∧
      size = chunkSize - (s.buffer.chunks s.buffer.widx).h)
  available : ∀ pos size, s.available = some (pos, size) →
    sfGetFrameSize (setBufferSf host sf) ∣ size ∧
    (size ≠ 0 → (s.buffer.chunks s.buffer.ridx).filled = true ∧
      size = (s.buffer.chunks s.buffer.ridx).h - (s.buffer.chunks s.buffer.ridx).l)

namespace Playing
variable {host : Endian} {sf : SampleFormat} {s : Playing n}

/-- Bytes stored change no level. -/
theorem store_levels (b : Buffer n) (pos : Option (Pos n)) (bytes : Text) :
    (store b pos bytes).ridx = b.ridx ∧ (store b pos bytes).widx = b.widx ∧
      ∀ i, ((store b pos bytes).chunks i).l = (b.chunks i).l ∧
        ((store b pos bytes).chunks i).h = (b.chunks i).h ∧
        ((store b pos bytes).chunks i).filled = (b.chunks i).filled := by
  cases pos with
  | none => exact ⟨rfl, rfl, fun i => ⟨rfl, rfl, rfl⟩⟩
  | some p =>
    refine ⟨rfl, rfl, fun i => ?_⟩
    show ((Function.update b.chunks p.chunk _) i).l = _ ∧
      ((Function.update b.chunks p.chunk _) i).h = _ ∧
      ((Function.update b.chunks p.chunk _) i).filled = _
    by_cases hi : i = p.chunk
    · rw [hi, Function.update_self]
      exact ⟨rfl, rfl, rfl⟩
    · rw [Function.update_of_ne hi]
      exact ⟨rfl, rfl, rfl⟩

theorem store_whole {frame : Nat} {b : Buffer n} (h : b.Whole frame) (pos : Option (Pos n))
    (bytes : Text) :
    (store b pos bytes).Whole frame := by
  intro i
  obtain ⟨-, -, hlevels⟩ := store_levels b pos bytes
  obtain ⟨hl, hh, hfilled⟩ := hlevels i
  obtain ⟨dl, dh, le, fits, free⟩ := h i
  exact ⟨by rwa [hl], by rwa [hh], by rwa [hl, hh], by rwa [hh], by rwa [hh, hfilled]⟩

theorem Aligned.read (h : s.Aligned host sf) (hsf : Supported sf)
    {pos : Option (Pos n)} {size : Nat}
    (hroom : s.room = some (pos, size)) (prebuffering : Bool) (tmp : Text) (select : Select)
    {answer : Nat → Answer} (hplugin : Plugin sf answer) :
    (∃ s', s.read prebuffering pos size tmp select answer = .ok s' ∧ s'.Aligned host sf) ∨
      s.read prebuffering pos size tmp select answer = .error (.read .count) := by
  obtain ⟨hdvd, hopen⟩ := h.room pos size hroom
  have hnone : ∀ pos size, (none : Option (Option (Pos n) × Nat)) = some (pos, size) →
      sfGetFrameSize (setBufferSf host sf) ∣ size ∧ (size ≠ 0 → False) := by
    intro _ _ hsome
    cases hsome
  rw [Playing.read]
  by_cases hsize : size = 0
  · cases prebuffering with
    | false =>
      rw [if_pos ⟨hsize, rfl⟩]
      exact .inl ⟨_, rfl, h.sf_eq, h.scale, h.whole, fun p k hk => (by cases hk), h.available⟩
    | true =>
      unfold ipRead
      rw [if_neg (by simp), if_pos hsize]
      exact .inr rfl
  · rw [if_neg fun hzero => hsize hzero.1]
    obtain ⟨hfree, hlevel⟩ := hopen hsize
    obtain ⟨r, hr, hsf', hscale', hframes, hle⟩ :=
      ipRead_whole hsf h.sf_eq h.scale hplugin tmp select hsize hdvd
    obtain ⟨hridx, hwidx, hlevels⟩ := store_levels s.buffer pos r.stored
    have hwhole := store_whole h.whole pos r.stored
    have hrc : (if r.rc < 0 then 0 else r.rc.toNat) = r.rc.toNat := by
      split
      · next hneg => rw [Int.toNat_of_nonpos hneg.le]
      · rfl
    rw [hr]
    dsimp only
    rw [hrc]
    split
    · refine .inl ⟨_, rfl, hsf'.trans h.sf_eq, hscale'.trans h.scale, hwhole,
        fun p k hk => (by cases hk), ?_⟩
      intro p k hk
      dsimp only
      rw [hridx, (hlevels _).1, (hlevels _).2.1, (hlevels _).2.2]
      exact h.available p k hk
    · have hopen' : ((store s.buffer pos r.stored).chunks
          (store s.buffer pos r.stored).widx).filled = false := by
        rw [hwidx, (hlevels _).2.2, hfree]
      obtain ⟨b', marked, hfill, hwhole', hridx', hkept⟩ := hwhole.fill hopen' hframes
        (by rw [hwidx, (hlevels _).2.1, ← hlevel]; exact hle)
      rw [hfill]
      refine .inl ⟨_, rfl, hsf'.trans h.sf_eq, hscale'.trans h.scale, hwhole',
        fun p k hk => (by cases hk), ?_⟩
      intro p k hk
      obtain ⟨hdvd', hthere⟩ := h.available p k hk
      refine ⟨hdvd', fun hne => ?_⟩
      obtain ⟨hfilled, hsize'⟩ := hthere hne
      have hsame := hkept s.buffer.ridx (by rw [(hlevels _).2.2, hfilled])
      dsimp only
      rw [hridx', hridx, hsame, (hlevels _).1, (hlevels _).2.1, (hlevels _).2.2]
      exact ⟨hfilled, hsize'⟩

theorem Aligned.write (h : s.Aligned host sf) {pos : Option (Pos n)} {size : Nat}
    (havailable : s.available = some (pos, size)) (space written : Nat) :
    ∃ s', s.write (sfGetFrameSize (setBufferSf host sf)) size space written = .ok s' ∧
      s'.Aligned host sf := by
  obtain ⟨-, hthere⟩ := h.available pos size havailable
  rw [Playing.write]
  by_cases hzero : size = 0 ∨ space = 0
  · rw [if_pos hzero]
    exact ⟨_, rfl, h.sf_eq, h.scale, h.whole, h.room, fun p k hk => (by cases hk)⟩
  rw [if_neg hzero]
  obtain ⟨hfilled, hsize⟩ := hthere fun hno => hzero (.inl hno)
  dsimp only
  have hmin : (if size > space then space else size) ≤ size := by split <;> omega
  generalize (if size > space then space else size) = size' at hmin
  have hplayed : opWrite (sfGetFrameSize (setBufferSf host sf)) size' written ≤ size := by
    rw [opWrite]
    exact le_trans (Nat.mul_le_mul_right _ (Nat.min_le_right _ _))
      (le_trans (Nat.div_mul_le_self _ _) hmin)
  obtain ⟨b', hconsume, hwhole, hwidx, hkept⟩ := h.whole.consume hfilled
    (show _ ∣ opWrite (sfGetFrameSize (setBufferSf host sf)) size' written from
      Nat.dvd_mul_left _ _)
    (by rwa [← hsize])
  rw [hconsume]
  refine ⟨_, rfl, h.sf_eq, h.scale, hwhole, ?_, fun p k hk => (by cases hk)⟩
  intro p k hk
  obtain ⟨hdvd, hopen⟩ := h.room p k hk
  refine ⟨hdvd, fun hne => ?_⟩
  obtain ⟨hfree, hlevel⟩ := hopen hne
  dsimp only
  rw [hwidx, hkept _ hfree]
  exact ⟨hfree, hlevel⟩

theorem reset_whole (frame : Nat) (b : Buffer n) (hn : 0 < n) : (b.reset hn).Whole frame :=
  fun i => Chunk.whole_empty frame (b.chunks i).data

/-- A step keeps whole frames; the only `BUG_ON` it can meet is that of a read into no room. -/
theorem Aligned.step (h : s.Aligned host sf) (hsf : Supported sf) (hn : 0 < n) {a : Act}
    (ha : a.Reads sf) :
    (∃ s', s.step host hn a = .ok s' ∧ s'.Aligned host sf) ∨
      s.step host hn a = .error (.read .count) := by
  have hchunk := (frameSizes host hsf).chunk
  cases a with
  | getWpos =>
    refine .inl ⟨_, rfl, h.sf_eq, h.scale, h.whole, ?_, h.available⟩
    intro pos size hsome
    obtain ⟨hdvd, hopen⟩ := h.whole.getWpos hchunk
    rw [Option.some.inj hsome] at hdvd hopen
    exact ⟨hdvd, hopen⟩
  | read prebuffering tmp select answer =>
    rw [Playing.step]
    cases hroom : s.room with
    | none => exact .inl ⟨s, rfl, h⟩
    | some r => exact h.read hsf hroom prebuffering tmp select ha
  | getRpos =>
    refine .inl ⟨_, rfl, h.sf_eq, h.scale, h.whole, h.room, ?_⟩
    intro pos size hsome
    obtain ⟨hdvd, hthere⟩ := h.whole.getRpos
    rw [Option.some.inj hsome] at hdvd hthere
    exact ⟨hdvd, hthere⟩
  | write space written =>
    rw [Playing.step]
    cases havailable : s.available with
    | none => exact .inl ⟨s, rfl, h⟩
    | some r =>
      dsimp only
      rw [h.sf_eq]
      exact .inl (h.write havailable space written)
  | reset =>
    rw [Playing.step]
    cases hroom : s.room with
    | some r => exact .inl ⟨s, rfl, h⟩
    | none =>
      cases havailable : s.available with
      | some r => exact .inl ⟨s, rfl, h⟩
      | none =>
        refine .inl ⟨_, rfl, h.sf_eq, h.scale, reset_whole _ _ hn, ?_, ?_⟩
        · intro pos size hsome
          cases hsome
        · intro pos size hsome
          cases hsome

theorem start_aligned (host : Endian) (hn : 0 < n) (memory : Buffer n) (sf : SampleFormat) :
    (start host hn memory sf).Aligned host sf := by
  refine ⟨?_, rfl, reset_whole _ _ hn, fun _ _ hsome => (by cases hsome),
    fun _ _ hsome => (by cases hsome)⟩
  show (ipSetup host sf).sf = sf
  rw [ipSetup]
  dsimp only
  split <;> rfl

theorem Aligned.run (h : s.Aligned host sf) (hsf : Supported sf) (hn : 0 < n) {acts : List Act}
    (hacts : ∀ a ∈ acts, a.Reads sf) {s' : Playing n} (hrun : s.run host hn acts = .ok s') :
    s'.Aligned host sf := by
  induction acts generalizing s with
  | nil =>
    obtain rfl := Except.ok.inj hrun
    exact h
  | cons a acts ih =>
    rw [Playing.run, List.foldlM_cons] at hrun
    obtain ⟨s₁, hstep, hnext⟩ | hbug := h.step hsf hn (hacts a List.mem_cons_self)
    · rw [hstep] at hrun
      exact ih hnext (fun b hb => hacts b (List.mem_cons_of_mem _ hb)) hrun
    · rw [hbug] at hrun
      cases hrun

end Playing

/-- In every state the two threads can reach, for every supported format and whatever whole
frames the plugin returns: the chunks hold whole frames, whole frames are handed out, the
plugin is asked for a positive number of whole frames, and no step meets a `BUG_ON` but a read
into no room. -/
theorem frames_stay_whole (host : Endian) (sf : SampleFormat) (hsf : Supported sf) (hn : 0 < n)
    (memory : Buffer n) (acts : List Act) (hacts : ∀ a ∈ acts, a.Reads sf) (s : Playing n)
    (hrun : (Playing.start host hn memory sf).run host hn acts = .ok s) :
    (∀ i, sfGetFrameSize (setBufferSf host sf) ∣ (s.buffer.chunks i).l ∧
      sfGetFrameSize (setBufferSf host sf) ∣ (s.buffer.chunks i).h) ∧
    (sfGetFrameSize (setBufferSf host sf) ∣ s.buffer.getWpos.2 ∧
      ∀ p ∈ s.buffer.getWpos.1, sfGetFrameSize (setBufferSf host sf) ∣ p.off) ∧
    (sfGetFrameSize (setBufferSf host sf) ∣ s.buffer.getRpos.2 ∧
      ∀ p ∈ s.buffer.getRpos.1, sfGetFrameSize (setBufferSf host sf) ∣ p.off) ∧
    (∀ pos size, s.room = some (pos, size) → size ≠ 0 →
      0 < s.ip.askedCount size ∧ sfGetFrameSize sf ∣ s.ip.askedCount size) ∧
    ∀ a : Act, a.Reads sf →
      (∃ s', s.step host hn a = .ok s') ∨ s.step host hn a = .error (.read .count) := by
  have h := (Playing.start_aligned host hn memory sf).run hsf hn hacts hrun
  have hsizes := frameSizes host hsf
  refine ⟨fun i => ⟨(h.whole i).l, (h.whole i).h⟩, ⟨(h.whole.getWpos hsizes.chunk).1, ?_⟩,
    ⟨h.whole.getRpos.1, ?_⟩, ?_, ?_⟩
  · intro p hp
    rw [Buffer.getWpos] at hp
    split at hp
    · obtain rfl := Option.some.inj hp
      exact (h.whole _).h
    · cases hp
  · intro p hp
    rw [Buffer.getRpos] at hp
    split at hp
    · obtain rfl := Option.some.inj hp
      exact (h.whole _).l
    · cases hp
  · intro pos size hroom hsize
    rw [← h.scale] at hsizes
    obtain ⟨hpos, hdvd, -⟩ := hsizes.asked hsize (h.room pos size hroom).1
    exact ⟨hpos, hdvd⟩
  · intro a ha
    obtain ⟨s', hs', -⟩ | hbug := h.step hsf hn ha
    · exact .inl ⟨s', hs'⟩
    · exact .inr hbug

/-- Three channels of 24 bits. -/
def threeChannels : SampleFormat := 0x0300001a

/-- Two frames are read and one of them is played, from a ring of one chunk. -/
def twoFrames : List Act :=
  [.getWpos, .read false [] .ready fun count => .data ((List.replicate 18 0).take count),
    .getWpos, .read false [] .ready fun _ => .stopped 0 (le_refl 0) false, .getRpos, .write 17 5]

theorem frames_stay_whole_three_channels :
    ∃ s : Playing 1, (Playing.start .little Nat.one_pos ⟨fun _ => ⟨fun _ => 0, 0, 0, false⟩, 0, 0⟩
        threeChannels).run .little Nat.one_pos twoFrames = .ok s ∧
      9 ∣ s.buffer.getRpos.2 := by
  refine ⟨_, rfl, (frames_stay_whole .little threeChannels ⟨by decide, by decide⟩ Nat.one_pos
    ⟨fun _ => ⟨fun _ => 0, 0, 0, false⟩, 0, 0⟩ twoFrames ?_ _ rfl).2.2.1.1⟩
  simp only [twoFrames, List.forall_mem_cons, Act.Reads, true_and]
  exact ⟨.available _ (by decide) (by decide), .stopped 0 (le_refl 0) false,
    fun a ha => by cases ha⟩

end GracefulMusic.Playback
