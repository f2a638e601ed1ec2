import Mathlib.Algebra.Order.BigOperators.Group.List
import Mathlib.Algebra.Order.Group.Nat
import GracefulMusic.Foundation.Runs
import GracefulMusic.Playback.Alignment
import GracefulMusic.Playback.Fifo

/-! Prebuffering (`_prebuffer` of `player.c`) from whatever ring of chunks the settings and the
two threads leave.

What `select` and the plugin say is given in the order they are asked. The limit is a quarter of
a second of the format, and it is not compared with the number of chunks. -/
namespace GracefulMusic.Samples

def sfGetRate (sf : SampleFormat) : Nat := ((sf &&& sfRateMask) >>> 6).toNat

/-- An `unsigned int`. -/
def sfGetSecondSize (sf : SampleFormat) : Nat := sfGetRate sf * sfGetFrameSize sf % 2 ^ 32

end GracefulMusic.Samples

namespace GracefulMusic.Playback
open Samples

/-- What `select` says, and the plugin where it is ready; `again` says that `errno` is `EINTR`
or `EAGAIN`. -/
inductive Outcome where
  | failed (again : Bool)
  | timeout
  | stopped (rc : Int) (h : rc ≤ 0) (again : Bool)
  | data (bytes : Nat → Text)

namespace Outcome

def select : Outcome → Select
  | failed again => .failed again
  | timeout => .timeout
  | stopped .. | data _ => .ready

def answer : Outcome → Nat → Answer
  | stopped rc h again, _ => .stopped rc h again
  | data bytes, count => .data (bytes count)
  | failed _, _ | timeout, _ => .data []

/-- `ip_read` is to be called again. -/
def waits : Outcome → Bool
  | failed again => again
  | timeout => true
  | stopped rc _ again => rc = -1 ∧ again
  | data _ => false

/-- The end of the file, or an error. -/
def ends : Outcome → Bool
  | failed again => !again
  | timeout => false
  | stopped rc _ again => ¬(rc = -1 ∧ again)
  | data _ => false

/-- There is some sound for as much as is asked. -/
def sounds (count : Nat) : Outcome → Bool
  | data bytes => !(bytes count).isEmpty
  | _ => false

theorem not_ends {outcome : Outcome} {count : Nat}
    (h : outcome.waits = true ∨ outcome.sounds count = true) : outcome.ends = false := by
  cases outcome <;> simp_all [waits, sounds, ends]

/-- A plugin of the format puts whole frames into the room it is given. -/
def Whole (sf : SampleFormat) : Outcome → Prop
  | data bytes => ∀ count, (bytes count).length ≤ count ∧ sfGetFrameSize sf ∣ (bytes count).length
  | _ => True

end Outcome

inductive Stop where
  | limit | eof
  | error (rc : Int)
  deriving DecidableEq

/-- How far it came; `stop` is `none` where it goes on. -/
structure Prebuffered (n : Nat) where
  buffer : Buffer n
  ip : InputPlugin
  stop : Option Stop

def limitSize (bufferSf : SampleFormat) : Nat := 250 * sfGetSecondSize bufferSf % 2 ^ 32 / 1000

def limitChunks (remote : Bool) (bufferSf : SampleFormat) (nrChunks : Nat) : Nat :=
  if remote then nrChunks
  else
    let limitChunks := limitSize bufferSf / chunkSize
    if limitChunks < 1 then 1 else limitChunks

section
variable {n : Nat} (tmp : Text)

/-- The body of the loop, where the limit is not reached. -/
def prebufferTurn (b : Buffer n) (ip : InputPlugin) (outcome : Outcome) :
    Except Fault (Prebuffered n) :=
  let (pos, size) := b.getWpos
  match ipRead ip tmp size outcome.select outcome.answer with
  | .error bug => .error (.read bug)
  | .ok r =>
    let b := Playing.store b pos r.stored
    if r.rc = -1 ∧ r.again then .ok ⟨b, r.ip, none⟩
    else
      -- a count of 0 marks the current chunk filled
      match b.fill (if r.rc < 0 then 0 else r.rc.toNat) with
      | none => .error .fill
      | some (b, _) =>
        .ok ⟨b, r.ip, if r.rc < 0 then some (.error r.rc) else if r.rc = 0 then some .eof else none⟩

def prebufferLoop (limit : Nat) (b : Buffer n) (ip : InputPlugin) :
    List Outcome → Except Fault (Prebuffered n)
  | [] => .ok ⟨b, ip, if b.getFilledChunks ≥ limit then some .limit else none⟩
  | outcome :: rest =>
    if b.getFilledChunks ≥ limit then .ok ⟨b, ip, some .limit⟩
    else
      match prebufferTurn tmp b ip outcome with
      | .error fault => .error fault
      | .ok r =>
        match r.stop with
        | none => prebufferLoop limit r.buffer r.ip rest
        | some _ => .ok r

/-- `_prebuffer`, for the format that `ip_get_sf` says. -/
def prebuffer (host : Endian) (sf : SampleFormat) (remote : Bool) (b : Buffer n)
    (outcomes : List Outcome) : Except Fault (Prebuffered n) :=
  prebufferLoop tmp (limitChunks remote (setBufferSf host sf) n) b (ipSetup host sf) outcomes

end

/-! ### One turn -/

section
variable {n : Nat} {b : Buffer n} {k : Nat} {ip : InputPlugin}

theorem Ring.getWpos (h : Ring b k) (hk : k < n) :
    (b.chunks b.widx).filled = false ∧ b.getWpos =
      (some ⟨b.widx, (b.chunks b.widx).h⟩, chunkSize - (b.chunks b.widx).h) ∧
      1024 ≤ chunkSize - (b.chunks b.widx).h := by
  have hopen := h.room k (Nat.le_refl k) hk
  rw [← h.widx] at hopen
  have hroom := hopen.room
  refine ⟨hopen.filled, ?_, by omega⟩
  simp [Buffer.getWpos, hopen.filled]

theorem Ring.getWpos_full (h : Ring b k) (hk : k = n) : b.getWpos = (none, 0) := by
  have hfilled := (h.full 0 (hk ▸ b.ridx.pos)).filled
  have hwidx : b.widx = b.ridx := by rw [h.widx, hk, slot_self]
  rw [slot_zero] at hfilled
  simp [Buffer.getWpos, hwidx, hfilled]

/-- What is stored in the room is not in the ring yet. -/
theorem Ring.store (h : Ring b k) (hk : k < n) (bytes : Text) :
    Ring (Playing.store b (some ⟨b.widx, (b.chunks b.widx).h⟩) bytes) k ∧
      contents (Playing.store b (some ⟨b.widx, (b.chunks b.widx).h⟩) bytes) = contents b := by
  have hopen := h.room k (Nat.le_refl k) hk
  rw [← h.widx] at hopen
  constructor
  · exact h.keep hk ⟨hopen.filled, hopen.low, hopen.room⟩
  · have hsame := h.contents_write hk [] (c := (b.chunks b.widx).write (b.chunks b.widx).h bytes)
      (by rw [Chunk.bytes_write _ _ _ (Nat.le_refl _), List.append_nil])
    rwa [List.append_nil] at hsame

theorem Ring.length_contents_le (h : Ring b k) : (contents b).length ≤ n * chunkSize := by
  have hchunk : ∀ i < n, (b.chunks (slot b.ridx i)).h ≤ chunkSize := by
    intro i hi
    rcases Nat.lt_or_ge i k with hik | hik
    · exact (h.full i hik).bound
    · exact le_trans (Nat.le_add_right _ _) (h.room i hik hi).room
  rw [contents, List.length_flatMap]
  refine le_trans (List.sum_le_card_nsmul _ chunkSize ?_) (by simp)
  intro length hlength
  obtain ⟨i, hi, rfl⟩ := List.mem_map.mp hlength
  have := hchunk i (List.mem_range.mp hi)
  simp [Chunk.bytes, slice]
  omega

theorem askedCount_mul_le (hscale : 0 < ip.pcmConvertScale) (count : Nat) :
    ip.askedCount count * ip.pcmConvertScale ≤ count := by
  have hdiv := Nat.div_mul_le_self count ip.pcmConvertScale
  rw [InputPlugin.askedCount]
  split
  · dsimp only
    split
    · rename_i htmp
      exact le_trans (Nat.mul_le_mul_right _ htmp.le) hdiv
    · exact hdiv
  · rw [show ip.pcmConvertScale = 1 by omega, Nat.mul_one]

/-- A read into some room. -/
theorem Outcome.read {outcome : Outcome} (hscale : 0 < ip.pcmConvertScale)
    (hwhole : outcome.Whole ip.sf) (tmp : Text) {size : Nat} (hsize : 0 < size) :
    ∃ r, ipRead ip tmp size outcome.select outcome.answer = .ok r ∧ r.ip.sf = ip.sf ∧
      r.ip.pcmConvertScale = ip.pcmConvertScale ∧ r.rc.toNat ≤ size ∧
      ((r.rc = -1 ∧ r.again) ↔ outcome.waits) ∧
      (0 < r.rc ↔ outcome.sounds (ip.askedCount size)) := by
  unfold ipRead
  rw [if_neg hsize.ne']
  cases outcome with
  | failed again => exact ⟨_, rfl, rfl, rfl, Nat.zero_le _, by simp [waits], by simp [sounds]⟩
  | timeout => exact ⟨_, rfl, rfl, rfl, Nat.zero_le _, by simp [waits], by simp [sounds]⟩
  | stopped rc hrc again =>
    simp only [select, answer]
    split
    · rename_i hagain
      exact ⟨_, rfl, rfl, rfl, Nat.zero_le _, by simp [waits, hagain], by simp [sounds]⟩
    · exact ⟨_, rfl, rfl, rfl, by simp [Int.toNat_of_nonpos hrc], by simp [waits],
        by simp [sounds, hrc]⟩
  | data bytes =>
    simp only [select, answer]
    obtain ⟨hle, hframes⟩ := hwhole (ip.askedCount size)
    cases hbytes : bytes (ip.askedCount size) with
    | nil => exact ⟨_, rfl, rfl, rfl, Nat.zero_le _, by simp [waits], by simp [sounds, hbytes]⟩
    | cons byte rest =>
      rw [hbytes] at hle hframes
      simp only [Nat.mod_eq_zero_of_dvd hframes, ne_eq, not_true_eq_false, if_false]
      refine ⟨_, rfl, rfl, rfl, ?_, ?_, ?_⟩
      · rw [Int.toNat_natCast]
        exact le_trans (Nat.mul_le_mul_right _ hle) (askedCount_mul_le hscale size)
      · simp only [waits, Bool.false_eq_true, and_false]
      · simp [sounds, hbytes, hscale]

/-- A turn with room: whether it goes on, and what is then in the ring. -/
theorem prebufferTurn_spec (h : Ring b k) (hk : k < n) (hscale : 0 < ip.pcmConvertScale)
    {outcome : Outcome} (hwhole : outcome.Whole ip.sf) (tmp : Text) :
    ∃ r, prebufferTurn tmp b ip outcome = .ok r ∧ (∃ k', Ring r.buffer k') ∧ r.ip.sf = ip.sf ∧
      r.ip.pcmConvertScale = ip.pcmConvertScale ∧ r.stop ≠ some .limit ∧
      (r.stop = none ↔ outcome.waits ∨
        outcome.sounds (ip.askedCount (chunkSize - (b.chunks b.widx).h))) ∧
      (r.stop = none →
        (contents b).length + (if outcome.waits then 0 else 1) ≤ (contents r.buffer).length) := by
  obtain ⟨hopen, hwpos, hroom⟩ := h.getWpos hk
  obtain ⟨r, hread, hsf, hscale', hle, hwaits, hsounds⟩ :=
    outcome.read hscale hwhole tmp (show 0 < chunkSize - (b.chunks b.widx).h by omega)
  obtain ⟨hring, hsame⟩ := h.store hk r.stored
  simp only [prebufferTurn, hwpos, hread]
  by_cases hagain : r.rc = -1 ∧ r.again = true
  · have hwaits' := hwaits.mp hagain
    rw [if_pos hagain]
    refine ⟨_, rfl, ⟨k, hring⟩, hsf, hscale', nofun, by simp [hwaits'], fun _ => ?_⟩
    rw [if_pos hwaits', Nat.add_zero, hsame]
  · have hwaits' : outcome.waits = false := by simpa [hagain] using hwaits
    have hcount : (if r.rc < 0 then 0 else r.rc.toNat) = r.rc.toNat := by
      split
      · next hneg => rw [Int.toNat_of_nonpos hneg.le]
      · rfl
    obtain ⟨-, -, hlevels⟩ := Playing.store_levels b (some ⟨b.widx, (b.chunks b.widx).h⟩) r.stored
    have hcount' := hle.trans_eq (congrArg (chunkSize - ·) (hlevels b.widx).2.1.symm)
    obtain ⟨b', marked, k', hfill, hring', hcontents, -, -⟩ :=
      fill_spec hring ((hlevels b.widx).2.2.trans hopen) hcount'
    have hgo : (if r.rc < 0 then some (Stop.error r.rc) else if r.rc = 0 then some .eof else none) =
        none ↔ 0 < r.rc := by
      split_ifs with hneg hzero
      · exact iff_of_false nofun hneg.le.not_gt
      · exact iff_of_false nofun hzero.not_gt
      · exact iff_of_true rfl (by omega)
    rw [if_neg hagain, hcount]
    simp only [hfill]
    refine ⟨_, rfl, ⟨k', hring'⟩, hsf, hscale', ?_, ?_, fun hstop => ?_⟩
    · split_ifs <;> exact nofun
    · rw [hgo, hsounds, hwaits']
      simp
    · have hpos := hgo.mp hstop
      rw [hwaits', if_neg Bool.false_ne_true, hcontents, hsame, List.length_append]
      simp only [slice, List.length_map, List.length_range']
      omega

theorem prebufferTurn_full (h : Ring b k) (hk : k = n) (tmp : Text) (outcome : Outcome) :
    prebufferTurn tmp b ip outcome = .error (.read .count) := by
  simp [prebufferTurn, h.getWpos_full hk, ipRead]

/-! ### The loop -/

/-- What comes of it: no `BUG_ON`; where it goes on, the ring has room, no outcome was the end
or an error, and few were sound; and it stops at the limit, at the end or at an error. -/
structure Prebuffers (limit : Nat) (outcomes : List Outcome) (r : Prebuffered n) : Prop where
  ring : ∃ k, Ring r.buffer k
  room : r.stop = none → r.buffer.getFilledChunks < n
  going : r.stop = none → ∀ outcome ∈ outcomes, outcome.ends = false
  few : r.stop = none → (outcomes.filter fun outcome => !outcome.waits).length ≤ n * chunkSize
  limit : r.stop = some .limit → limit ≤ r.buffer.getFilledChunks

/-- It comes to something, or there is a read into no room. -/
theorem prebufferLoop_spec (limit : Nat) (h : Ring b k) (hscale : 0 < ip.pcmConvertScale)
    {outcomes : List Outcome} (hwhole : ∀ outcome ∈ outcomes, outcome.Whole ip.sf) (tmp : Text) :
    (∃ r, prebufferLoop tmp limit b ip outcomes = .ok r ∧ (∃ k, Ring r.buffer k) ∧
      (r.stop = some .limit → limit ≤ r.buffer.getFilledChunks) ∧
      (r.stop = none → r.buffer.getFilledChunks < limit ∧
        (∀ outcome ∈ outcomes, outcome.ends = false) ∧
        (contents b).length + (outcomes.filter fun outcome => !outcome.waits).length ≤
          (contents r.buffer).length)) ∨
    n < limit ∧ prebufferLoop tmp limit b ip outcomes = .error (.read .count) := by
  induction outcomes generalizing b k ip with
  | nil =>
    refine .inl ⟨_, rfl, ⟨k, h⟩, fun hstop => ?_, fun hstop => ⟨?_, nofun, Nat.le_refl _⟩⟩
    · by_contra hless
      simp [hless] at hstop
    · by_contra hless
      simp [Nat.not_lt.mp hless] at hstop
  | cons outcome rest ih =>
    rw [prebufferLoop]
    by_cases hreached : b.getFilledChunks ≥ limit
    · rw [if_pos hreached]
      exact .inl ⟨_, rfl, ⟨k, h⟩, fun _ => hreached, nofun⟩
    rw [if_neg hreached]
    rcases Nat.lt_or_eq_of_le h.le with hk | hfull
    · obtain ⟨hhead, htail⟩ := List.forall_mem_cons.mp hwhole
      obtain ⟨r, hturn, ⟨k', hring⟩, hsf, hscale', hnot, hiff, hgo⟩ :=
        prebufferTurn_spec h hk hscale hhead tmp
      rw [hturn]
      dsimp only
      cases hstop : r.stop with
      | some stop =>
        refine .inl ⟨r, rfl, ⟨k', hring⟩, fun hlim => absurd hlim hnot, fun hnone => ?_⟩
        rw [hstop] at hnone
        cases hnone
      | none =>
        have hends := Outcome.not_ends (hiff.mp hstop)
        have hmore := hgo hstop
        refine (ih hring (hscale' ▸ hscale) (hsf ▸ htail)).imp_left ?_
        rintro ⟨r', hloop, hring', hlim, hgo'⟩
        refine ⟨r', hloop, hring', hlim, fun hnone => ?_⟩
        obtain ⟨hless, hends', hmore'⟩ := hgo' hnone
        refine ⟨hless, List.forall_mem_cons.mpr ⟨hends, hends'⟩, ?_⟩
        cases hwaits : outcome.waits with
        | true =>
          rw [hwaits, if_pos rfl] at hmore
          rw [List.filter_cons_of_neg (by simp [hwaits])]
          omega
        | false =>
          rw [hwaits, if_neg Bool.false_ne_true] at hmore
          rw [List.filter_cons_of_pos (by simp [hwaits]), List.length_cons]
          omega
    · -- the ring is full
      rw [h.getFilledChunks_eq] at hreached
      exact .inr ⟨by omega, by rw [prebufferTurn_full h hfull]⟩

/-- A plugin that has sound, as much as there is room for. -/
def sound (frame : Nat) : Outcome := .data fun count => List.replicate (count / frame * frame) 0

theorem sound_whole (sf : SampleFormat) : (sound (sfGetFrameSize sf)).Whole sf := fun count => by
  rw [List.length_replicate]
  exact ⟨Nat.div_mul_le_self _ _, Nat.dvd_mul_left _ _⟩

theorem sound_sounds {frame count : Nat} (hframe : 0 < frame) (hle : frame ≤ count) :
    (sound frame).sounds count = true := by
  simp [sound, Outcome.sounds, Nat.div_eq_zero_iff, hframe.ne', hle]

theorem le_asked {frame size : Nat} (hscale : 0 < ip.pcmConvertScale)
    (hsize : frame * ip.pcmConvertScale ≤ size) (hfits : frame * ip.pcmConvertScale ≤ 1024) :
    frame ≤ ip.askedCount size := by
  have hframe : frame ≤ 1024 := le_trans (Nat.le_mul_of_pos_right _ hscale) hfits
  have hdiv : frame ≤ size / ip.pcmConvertScale := (Nat.le_div_iff_mul_le hscale).mpr hsize
  rw [InputPlugin.askedCount]
  split
  · dsimp only
    split
    · exact le_trans hframe (by decide)
    · exact hdiv
  · exact le_trans (Nat.le_mul_of_pos_right _ hscale) hsize

/-- A limit that the ring cannot reach: sound fills it, and there is a read into no room. -/
theorem prebufferLoop_fault {limit : Nat} (hlimit : n < limit) (h : Ring b k)
    (hscale : 0 < ip.pcmConvertScale) (hframe : 0 < sfGetFrameSize ip.sf)
    (hfits : sfGetFrameSize ip.sf * ip.pcmConvertScale ≤ 1024) (tmp : Text) :
    ∃ outcomes : List Outcome, (∀ outcome ∈ outcomes, outcome.Whole ip.sf) ∧
      prebufferLoop tmp limit b ip outcomes = .error (.read .count) := by
  induction hfree : n * chunkSize - (contents b).length using Nat.strong_induction_on
    generalizing b k ip with
  | _ free ih =>
    have hreached : ¬b.getFilledChunks ≥ limit := by
      have := h.le
      rw [h.getFilledChunks_eq]
      omega
    rw [← hfree] at ih
    rcases Nat.lt_or_eq_of_le h.le with hk | hfull
    · -- there is room, and sound for it
      obtain ⟨hopen, -, hroom⟩ := h.getWpos hk
      have hwhole := sound_whole ip.sf
      obtain ⟨r, hturn, ⟨k', hring⟩, hsf, hscale', -, hiff, hgo⟩ :=
        prebufferTurn_spec h hk hscale hwhole tmp
      have hstop := hiff.mpr (.inr (sound_sounds hframe (le_asked hscale (hfits.trans hroom) hfits)))
      have hmore : (contents b).length + 1 ≤ (contents r.buffer).length := hgo hstop
      have hbound := hring.length_contents_le
      obtain ⟨outcomes, houtcomes, hfault⟩ := ih _ (by omega) hring (hscale' ▸ hscale)
        (hsf ▸ hframe) (hsf ▸ hscale' ▸ hfits) rfl
      refine ⟨sound (sfGetFrameSize ip.sf) :: outcomes,
        List.forall_mem_cons.mpr ⟨hwhole, hsf ▸ houtcomes⟩, ?_⟩
      rw [prebufferLoop, if_neg hreached, hturn]
      simp only [hstop, hfault]
    · -- the ring is full
      refine ⟨[.timeout], by simp [Outcome.Whole], ?_⟩
      rw [prebufferLoop, if_neg hreached, prebufferTurn_full h hfull]

end

/-! ### Settings -/

/-- `buffer_nr_chunks`, with the ring. -/
structure Session where
  nrChunks : Nat
  buffer : Buffer nrChunks

/-- What becomes of the buffer; `memory` is what `xnew` returns, and a plugin puts whole frames. -/
inductive Op where
  | setBufferSeconds (sec : Int) (memory : Nat → Chunk)
  | bufferReset
  /-- The producer's loop. -/
  | produce (bytes : Text)
  /-- The consumer's loop. -/
  | consume (count : Nat)
  | prebuffer (tmp : Text) (sf : SampleFormat) (remote : Bool) (outcomes : List Outcome)
    (hwhole : ∀ outcome ∈ outcomes, outcome.Whole sf)

/-- `SECOND_SIZE` -/
def secondSize : Nat := 44100 * 16 / 8 * 2

namespace Session

/-- `buffer_init` -/
def bufferInit (nrChunks : Nat) (h : 0 < nrChunks) (memory : Nat → Chunk) : Session :=
  ⟨nrChunks, Buffer.reset ⟨fun i => memory i, ⟨0, h⟩, ⟨0, h⟩⟩ h⟩

/-- `player_init` -/
def playerInit (memory : Nat → Chunk) : Session :=
  bufferInit (10 * 44100 * 16 / 8 * 2 / chunkSize) (by decide) memory

theorem nrChunks_pos {sec : Int} (h : 1 ≤ sec ∧ sec ≤ 300) :
    0 < (sec.toNat * secondSize + chunkSize / 2) / chunkSize := by
  simp only [secondSize, chunkSize]
  omega

/-- The producer with what it has read. -/
def produce (s : Session) (bytes : Text) : Option Session :=
  let (pos, size) := s.buffer.getWpos
  if size = 0 then some s
  else
    let bytes := bytes.take size
    ((Playing.store s.buffer pos bytes).fill bytes.length).map fun (buffer, _) => {s with buffer}

def consume (s : Session) (count : Nat) : Option Session :=
  let (_, size) := s.buffer.getRpos
  if size = 0 then some s
  else (s.buffer.consume (min count size)).map fun buffer => {s with buffer}

/-- `none` is a `BUG_ON`. -/
def step (host : Endian) (s : Session) : Op → Option Session
  | .setBufferSeconds sec memory =>
    if h : 1 ≤ sec ∧ sec ≤ 300 then some (bufferInit _ (nrChunks_pos h) memory) else some s
  | .bufferReset => some {s with buffer := s.buffer.reset s.buffer.ridx.pos}
  | .produce bytes => s.produce bytes
  | .consume count => s.consume count
  | .prebuffer tmp sf remote outcomes _ =>
    match prebuffer tmp host sf remote s.buffer outcomes with
    | .error _ => none
    | .ok r => some {s with buffer := r.buffer}

/-- A quarter of a second is less than one chunk more than there are. -/
def Fits (host : Endian) (s : Session) (sf : SampleFormat) (remote : Bool) : Prop :=
  remote = true ∨
    250 * sfGetSecondSize (setBufferSf host sf) % 2 ^ 32 / 1000 < (s.nrChunks + 1) * chunkSize

/-- What `_prebuffer` does whatever `select` and the plugin say. -/
def Prebuffers (host : Endian) (s : Session) (sf : SampleFormat) (remote : Bool) : Prop :=
  ∀ tmp outcomes, (∀ outcome ∈ outcomes, outcome.Whole sf) →
    ∃ r, prebuffer tmp host sf remote s.buffer outcomes = .ok r ∧
      Playback.Prebuffers (limitChunks remote (setBufferSf host sf) s.nrChunks) outcomes r

variable {host : Endian} {s : Session}

theorem bufferReset_ring {n : Nat} (b : Buffer n) (hn : 0 < n) : ∃ k, Ring (b.reset hn) k :=
  (start_consistent b hn).ring

theorem produce_ring {k : Nat} (h : Ring s.buffer k) (bytes : Text) :
    ∃ t, s.produce bytes = some t ∧ ∃ k, Ring t.buffer k := by
  rw [produce]
  rcases Nat.lt_or_eq_of_le h.le with hk | hfull
  · obtain ⟨hopen, hwpos, hroom⟩ := h.getWpos hk
    obtain ⟨hring, -⟩ := h.store hk (bytes.take (chunkSize - (s.buffer.chunks s.buffer.widx).h))
    obtain ⟨-, -, hlevels⟩ := Playing.store_levels s.buffer
      (some ⟨s.buffer.widx, (s.buffer.chunks s.buffer.widx).h⟩)
      (bytes.take (chunkSize - (s.buffer.chunks s.buffer.widx).h))
    have hcount := (List.length_take_le (chunkSize - (s.buffer.chunks s.buffer.widx).h) bytes).trans_eq
      (congrArg (chunkSize - ·) (hlevels s.buffer.widx).2.1.symm)
    obtain ⟨b, marked, k', hfill, hring', -⟩ :=
      fill_spec hring ((hlevels s.buffer.widx).2.2.trans hopen) hcount
    simp only [hwpos]
    rw [if_neg (by omega), hfill]
    exact ⟨_, rfl, k', hring'⟩
  · have hwpos := h.getWpos_full hfull
    exact ⟨s, by simp [hwpos], k, h⟩

theorem consume_ring {k : Nat} (h : Ring s.buffer k) (count : Nat) :
    ∃ t, s.consume count = some t ∧ ∃ k, Ring t.buffer k := by
  rw [consume, Buffer.getRpos]
  cases hfilled : (s.buffer.chunks s.buffer.ridx).filled with
  | false => exact ⟨s, by simp, k, h⟩
  | true =>
    dsimp only
    rw [if_pos rfl]
    split
    · exact ⟨s, rfl, k, h⟩
    · obtain ⟨b, k', hconsume, hring, -⟩ := consume_spec h hfilled (Nat.min_le_right count _)
      rw [hconsume]
      exact ⟨_, rfl, k', hring⟩

theorem limitChunks_le_iff (remote : Bool) (sf : SampleFormat) :
    limitChunks remote (setBufferSf host sf) s.nrChunks ≤ s.nrChunks ↔ s.Fits host sf remote := by
  have hpos := s.buffer.ridx.pos
  have hdiv : limitSize (setBufferSf host sf) / chunkSize < s.nrChunks + 1 ↔
      limitSize (setBufferSf host sf) < (s.nrChunks + 1) * chunkSize :=
    Nat.div_lt_iff_lt_mul (by decide)
  rw [limitChunks, Fits, ← limitSize, ← hdiv]
  cases remote with
  | true => simp
  | false =>
    dsimp only
    rw [if_neg Bool.false_ne_true]
    split <;> simp <;> omega

theorem ipSetup_scale (host : Endian) (sf : SampleFormat) :
    (ipSetup host sf).sf = sf ∧ 0 < (ipSetup host sf).pcmConvertScale ∧
      (sfGetFrameSize sf ≤ 1024 → sfGetFrameSize sf * (ipSetup host sf).pcmConvertScale ≤ 1024) := by
  rw [ipSetup]
  dsimp only
  split
  · rename_i hsmall
    have hbits : sfGetBits sf / 8 ≤ 2 := by omega
    have hscale : 0 < (3 - sfGetChannels sf) * (3 - sfGetBits sf / 8) :=
      Nat.mul_pos (by omega) (by omega)
    have hframe : sfGetFrameSize sf ≤ 2 * 2 := by
      rw [sfGetFrameSize, sfGetSampleSize, Nat.shiftRight_eq_div_pow]
      exact Nat.mul_le_mul hbits hsmall.2
    have hscale' : (3 - sfGetChannels sf) * (3 - sfGetBits sf / 8) ≤ 3 * 3 :=
      Nat.mul_le_mul (Nat.sub_le _ _) (Nat.sub_le _ _)
    exact ⟨rfl, hscale, fun _ => le_trans (Nat.mul_le_mul hframe hscale') (by decide)⟩
  · exact ⟨rfl, Nat.one_pos, by rw [Nat.mul_one]; exact id⟩

variable (host) in
/-- `_prebuffer` does what it should, or the limit is more than the ring has chunks. -/
theorem prebuffer_spec {k : Nat} (h : Ring s.buffer k) (sf : SampleFormat) (remote : Bool)
    {outcomes : List Outcome} (hwhole : ∀ outcome ∈ outcomes, outcome.Whole sf) (tmp : Text) :
    (∃ r, prebuffer tmp host sf remote s.buffer outcomes = .ok r ∧ (∃ k, Ring r.buffer k) ∧
      (s.Fits host sf remote →
        Playback.Prebuffers (limitChunks remote (setBufferSf host sf) s.nrChunks) outcomes r)) ∨
    ¬s.Fits host sf remote ∧
      prebuffer tmp host sf remote s.buffer outcomes = .error (.read .count) := by
  obtain ⟨hsf, hscale, -⟩ := ipSetup_scale host sf
  rw [← limitChunks_le_iff remote sf]
  obtain ⟨r, hloop, ⟨k', hring⟩, hreached, hgo⟩ | ⟨hless, hfault⟩ := prebufferLoop_spec
    (limitChunks remote (setBufferSf host sf) s.nrChunks) h hscale (hsf.symm ▸ hwhole) tmp
  · refine .inl ⟨r, hloop, ⟨k', hring⟩, fun hlimit => ⟨⟨k', hring⟩,
      fun hstop => (hgo hstop).1.trans_le hlimit, fun hstop => (hgo hstop).2.1,
      fun hstop => ?_, hreached⟩⟩
    exact le_trans (Nat.le_add_left _ _) ((hgo hstop).2.2.trans hring.length_contents_le)
  · exact .inr ⟨Nat.not_le.mpr hless, hfault⟩

theorem prebuffers_of_fits {k : Nat} (h : Ring s.buffer k) {sf : SampleFormat} {remote : Bool}
    (hfits : s.Fits host sf remote) : s.Prebuffers host sf remote := by
  intro tmp outcomes hwhole
  obtain ⟨r, hrun, -, hdone⟩ | ⟨hnot, -⟩ := prebuffer_spec host h sf remote hwhole tmp
  · exact ⟨r, hrun, hdone hfits⟩
  · exact absurd hfits hnot

theorem faults_of_not_fits {k : Nat} (h : Ring s.buffer k) {sf : SampleFormat} {remote : Bool}
    (hframe : 0 < sfGetFrameSize sf) (hframe' : sfGetFrameSize sf ≤ 1024)
    (hfits : ¬s.Fits host sf remote) (tmp : Text) :
    ∃ outcomes : List Outcome, (∀ outcome ∈ outcomes, outcome.Whole sf) ∧
      prebuffer tmp host sf remote s.buffer outcomes = .error (.read .count) := by
  obtain ⟨hsf, hscale, hmul⟩ := ipSetup_scale host sf
  have hlimit := Nat.not_le.mp (mt (limitChunks_le_iff remote sf).mp hfits)
  obtain ⟨outcomes, hwhole, hfault⟩ := prebufferLoop_fault hlimit h hscale (hsf.symm ▸ hframe)
    (hsf.symm ▸ hmul hframe') tmp
  exact ⟨outcomes, hsf ▸ hwhole, hfault⟩

theorem step_ring {k : Nat} (h : Ring s.buffer k) (op : Op) {t : Session}
    (hstep : s.step host op = some t) : ∃ k, Ring t.buffer k := by
  cases op with
  | setBufferSeconds sec memory =>
    rw [step] at hstep
    split at hstep
    · obtain rfl := Option.some.inj hstep
      exact bufferReset_ring _ _
    · obtain rfl := Option.some.inj hstep
      exact ⟨k, h⟩
  | bufferReset =>
    obtain rfl := Option.some.inj hstep
    exact bufferReset_ring _ _
  | produce bytes =>
    obtain ⟨u, hu, hring⟩ := produce_ring h bytes
    obtain rfl := Option.some.inj (hu.symm.trans hstep)
    exact hring
  | consume count =>
    obtain ⟨u, hu, hring⟩ := consume_ring h count
    obtain rfl := Option.some.inj (hu.symm.trans hstep)
    exact hring
  | prebuffer tmp sf remote outcomes hwhole =>
    rw [step] at hstep
    obtain ⟨r, hrun, hring, -⟩ | ⟨-, hfault⟩ := prebuffer_spec host h sf remote hwhole tmp
    · rw [hrun] at hstep
      obtain rfl := Option.some.inj hstep
      exact hring
    · rw [hfault] at hstep
      cases hstep

/-- Where a step is a prebuffering, the quarter of a second fits. -/
def Admits (host : Endian) (s : Session) : Op → Prop
  | .prebuffer _ sf remote _ _ => s.Fits host sf remote
  | _ => True

theorem step_defined {k : Nat} (h : Ring s.buffer k) {op : Op} (hop : s.Admits host op) :
    ∃ t, s.step host op = some t := by
  cases op with
  | setBufferSeconds sec memory =>
    rw [step]
    split <;> exact ⟨_, rfl⟩
  | bufferReset => exact ⟨_, rfl⟩
  | produce bytes => exact (produce_ring h bytes).imp fun _ => And.left
  | consume count => exact (consume_ring h count).imp fun _ => And.left
  | prebuffer tmp sf remote outcomes hwhole =>
    obtain ⟨r, hrun, -⟩ := prebuffers_of_fits h hop tmp outcomes hwhole
    simp [step, hrun]

theorem run_ring {ops : List Op} {memory : Nat → Chunk}
    (hrun : Runs.run (step host) (playerInit memory) ops = some s) : ∃ k, Ring s.buffer k :=
  Runs.run_preserves (I := fun s => ∃ k, Ring s.buffer k)
    (fun _ op _ ⟨_, h⟩ hstep => step_ring h op hstep) _ s ops (bufferReset_ring _ _) hrun

/-- Stereo of 32 bits at 192 kHz. -/
def studioFormat : SampleFormat := 0x02bb8022

end Session
end GracefulMusic.Playback
