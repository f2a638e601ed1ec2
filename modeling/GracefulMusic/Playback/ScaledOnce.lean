import GracefulMusic.Playback.Scaling

/-! Every byte is scaled once (`player.c`).

With scaling in force the bytes from the consumer's position up to `scale_pos` are scaled
and those behind are not, and both lie in the chunk that is read. What the producer fills
is new and comes behind; what is consumed is taken from the front. -/
namespace GracefulMusic.Playback
variable {n : Nat}

/-! ### What the calls change -/

namespace Buffer
variable {b b' : Buffer n} {pos : Option (Pos n)} {size count : Nat}

theorem getRpos_some (h : b.getRpos = (pos, size)) (hne : size ≠ 0) :
    (b.chunks b.ridx).filled = true ∧ pos = some ⟨b.ridx, (b.chunks b.ridx).l⟩ ∧
      size = (b.chunks b.ridx).h - (b.chunks b.ridx).l := by
  rw [getRpos] at h
  split at h
  · next hfilled =>
    obtain ⟨rfl, rfl⟩ := Prod.mk.inj h
    exact ⟨hfilled, rfl, rfl⟩
  · obtain ⟨-, rfl⟩ := Prod.mk.inj h
    exact absurd rfl hne

theorem getWpos_some (h : b.getWpos = (pos, size)) (hne : size ≠ 0) :
    (b.chunks b.widx).filled = false ∧ pos = some ⟨b.widx, (b.chunks b.widx).h⟩ ∧
      size = chunkSize - (b.chunks b.widx).h := by
  rw [getWpos] at h
  split at h
  · next hfree =>
    obtain ⟨rfl, rfl⟩ := Prod.mk.inj h
    exact ⟨by simpa using hfree, rfl, rfl⟩
  · obtain ⟨-, rfl⟩ := Prod.mk.inj h
    exact absurd rfl hne

theorem getRpos_size_le : b.getRpos.2 ≤ (b.chunks b.ridx).h - (b.chunks b.ridx).l := by
  rw [getRpos]
  split
  · exact le_refl _
  · exact Nat.zero_le _

theorem getRpos_of_not_filled (h : (b.chunks b.ridx).filled = false) : b.getRpos.2 = 0 := by
  rw [getRpos, if_neg (by simp [h])]

theorem getRpos_congr (hridx : b'.ridx = b.ridx)
    (hchunk : (b'.chunks b.ridx).l = (b.chunks b.ridx).l ∧
      (b'.chunks b.ridx).h = (b.chunks b.ridx).h ∧
      (b'.chunks b.ridx).filled = (b.chunks b.ridx).filled) : b'.getRpos = b.getRpos := by
  obtain ⟨hl, hh, hfilled⟩ := hchunk
  rw [getRpos, getRpos, hridx]
  rw [hl, hh, hfilled]

theorem getWpos_congr (hwidx : b'.widx = b.widx)
    (hchunk : (b'.chunks b.widx).h = (b.chunks b.widx).h ∧
      (b'.chunks b.widx).filled = (b.chunks b.widx).filled) : b'.getWpos = b.getWpos := by
  obtain ⟨hh, hfilled⟩ := hchunk
  rw [getWpos, getWpos, hwidx]
  rw [hh, hfilled]

theorem store_getRpos (b : Buffer n) (pos : Option (Pos n)) (bytes : Text) :
    (Playing.store b pos bytes).getRpos = b.getRpos := by
  obtain ⟨hridx, -, hlevels⟩ := Playing.store_levels b pos bytes
  exact getRpos_congr hridx (hlevels _)

theorem store_getWpos (b : Buffer n) (pos : Option (Pos n)) (bytes : Text) :
    (Playing.store b pos bytes).getWpos = b.getWpos := by
  obtain ⟨-, hwidx, hlevels⟩ := Playing.store_levels b pos bytes
  exact getWpos_congr hwidx (hlevels _).2

/-- Only the chunk that is written grows. -/
theorem fill_levels {marked : Bool} (h : b.fill count = some (b', marked)) (i : Fin n) :
    (b'.chunks i).l = (b.chunks i).l ∧
      (b'.chunks i).h = if i = b.widx then (b.chunks i).h + count else (b.chunks i).h := by
  have hset : ∀ c : Chunk, c.l = (b.chunks b.widx).l → c.h = (b.chunks b.widx).h + count →
      ((b.setChunk b.widx c).chunks i).l = (b.chunks i).l ∧
      ((b.setChunk b.widx c).chunks i).h =
        if i = b.widx then (b.chunks i).h + count else (b.chunks i).h := by
    intro c hl hh
    rw [setChunk]
    dsimp only
    by_cases hi : i = b.widx
    · rw [hi, Function.update_self, if_pos rfl]
      exact ⟨hl, hh⟩
    · rw [Function.update_of_ne hi, if_neg hi]
      exact ⟨rfl, rfl⟩
  rw [fill] at h
  dsimp only at h
  split at h
  · cases h
  split at h
  · obtain ⟨rfl, -⟩ := Prod.mk.inj (Option.some.inj h)
    exact hset _ rfl rfl
  · obtain ⟨rfl, -⟩ := Prod.mk.inj (Option.some.inj h)
    exact hset _ rfl rfl

/-- The chunk that is read is emptied and left, or shrinks. -/
theorem consume_levels (h : b.consume count = some b') :
    (∀ i, i ≠ b.ridx → b'.chunks i = b.chunks i) ∧
      ((b.chunks b.ridx).l + count = (b.chunks b.ridx).h ∧
          (b'.chunks b.ridx).l = 0 ∧ (b'.chunks b.ridx).h = 0 ∨
        b'.ridx = b.ridx ∧ (b'.chunks b.ridx).l = (b.chunks b.ridx).l + count ∧
          (b'.chunks b.ridx).h = (b.chunks b.ridx).h ∧
          (b'.chunks b.ridx).filled = (b.chunks b.ridx).filled) := by
  rw [consume] at h
  dsimp only at h
  split at h
  · cases h
  split at h
  · next hend =>
    obtain rfl := Option.some.inj h
    refine ⟨fun i hi => Function.update_of_ne hi _ _, .inl ⟨hend, ?_⟩⟩
    rw [setChunk]
    dsimp only
    rw [Function.update_self]
    exact ⟨rfl, rfl⟩
  · obtain rfl := Option.some.inj h
    refine ⟨fun i hi => Function.update_of_ne hi _ _, .inr ⟨rfl, ?_⟩⟩
    rw [setChunk]
    dsimp only
    rw [Function.update_self]
    exact ⟨rfl, rfl, rfl⟩

end Buffer

/-! ### How often each place has been scaled -/

open Playout (change)

/-- The first `ahead` of the bytes that wait have been scaled once, the others never. -/
def Buffer.Marks (b : Buffer n) (times : Fin n → Nat → Nat) (ahead : Nat) : Prop :=
  ∀ i j, (b.chunks i).l ≤ j → j < (b.chunks i).h →
    times i j = if i = b.ridx ∧ j < (b.chunks i).l + ahead then 1 else 0

namespace Buffer.Marks
variable {b b' : Buffer n} {times : Fin n → Nat → Nat} {ahead count : Nat}

theorem store (h : b.Marks times ahead) (pos : Option (Pos n)) (bytes : Text) :
    (Playing.store b pos bytes).Marks times ahead := by
  obtain ⟨hridx, -, hlevels⟩ := Playing.store_levels b pos bytes
  intro i j hl hh
  obtain ⟨hl', hh', -⟩ := hlevels i
  rw [hl'] at hl
  rw [hh'] at hh
  rw [hridx, hl']
  exact h i j hl hh

theorem fill (h : b.Marks times ahead) (hahead : ahead ≤ b.getRpos.2)
    (hopen : (b.chunks b.widx).filled = false) {marked : Bool}
    (hfill : b.fill count = some (b', marked)) (hridx : b'.ridx = b.ridx) :
    b'.Marks (change (fun _ => 0) times b.widx (b.chunks b.widx).h
      ((b.chunks b.widx).h + count)) ahead := by
  intro i j hl hh
  obtain ⟨hl', hh'⟩ := fill_levels hfill i
  rw [hl'] at hl
  rw [hh'] at hh
  rw [hridx, hl', change]
  by_cases hnew : i = b.widx ∧ (b.chunks b.widx).h ≤ j ∧ j < (b.chunks b.widx).h + count
  · obtain ⟨rfl, hlo, hhi⟩ := hnew
    rw [if_pos ⟨rfl, hlo, hhi⟩, if_neg]
    intro hread
    -- the chunk that is filled is not read yet
    have hzero : b.getRpos.2 = 0 := getRpos_of_not_filled (by rw [← hread.1]; exact hopen)
    omega
  · rw [if_neg hnew]
    refine h i j hl ?_
    by_cases hi : i = b.widx
    · rw [if_pos hi] at hh
      subst hi
      have : ¬ (b.chunks b.widx).h ≤ j := fun hle => hnew ⟨rfl, hle, hh⟩
      omega
    · rwa [if_neg hi] at hh

theorem scale (h : b.Marks times ahead) {size : Nat} (hle : ahead ≤ size) :
    b.Marks (change (· + 1) times b.ridx ((b.chunks b.ridx).l + ahead)
      ((b.chunks b.ridx).l + size)) size := by
  intro i j hl hh
  have hold := h i j hl hh
  rw [change, hold]
  by_cases hi : i = b.ridx
  · subst hi
    by_cases hscaled : j < (b.chunks b.ridx).l + ahead
    · rw [if_neg (by omega), if_pos ⟨rfl, hscaled⟩, if_pos ⟨rfl, by omega⟩]
    · rw [if_neg (fun hno : b.ridx = b.ridx ∧ j < (b.chunks b.ridx).l + ahead =>
        hscaled hno.2)]
      by_cases hnew : j < (b.chunks b.ridx).l + size
      · rw [if_pos ⟨rfl, by omega, hnew⟩, if_pos ⟨rfl, hnew⟩]
      · rw [if_neg fun hno => hnew hno.2.2, if_neg fun hno => hnew hno.2]
  · rw [if_neg fun hno => hi hno.1, if_neg fun hno => hi hno.1, if_neg fun hno => hi hno.1]

theorem consume (h : b.Marks times ahead) (hcount : count ≤ ahead)
    (hahead : ahead ≤ (b.chunks b.ridx).h - (b.chunks b.ridx).l)
    (hconsume : b.consume count = some b') : b'.Marks times (ahead - count) := by
  obtain ⟨hother, hread⟩ := consume_levels hconsume
  intro i j hl hh
  by_cases hi : i = b.ridx
  · subst hi
    obtain ⟨-, -, hempty⟩ | ⟨hridx, hl', hh', -⟩ := hread
    · omega
    · rw [hl'] at hl
      rw [hh'] at hh
      rw [h b.ridx j (by omega) hh, hridx, hl', Nat.add_assoc, Nat.add_sub_cancel' hcount]
  · rw [hother i hi] at hl hh ⊢
    rw [h i j hl hh, if_neg fun hno => hi hno.1, if_neg]
    intro hnext
    obtain ⟨hend, -⟩ | ⟨hridx, -⟩ := hread
    · omega
    · exact hi (hnext.1.trans hridx)

/-- What the consumer is given, where that much has been scaled. -/
theorem handed (h : b.Marks times ahead) {size : Nat} (hsize : size ≤ ahead)
    (hahead : ahead ≤ (b.chunks b.ridx).h - (b.chunks b.ridx).l) :
    ∀ k ∈ (List.range' (b.chunks b.ridx).l size).map (times b.ridx), k = 1 := by
  intro k hk
  obtain ⟨j, hj, rfl⟩ := List.mem_map.mp hk
  obtain ⟨hlo, hhi⟩ := List.mem_range'_1.mp hj
  rw [h b.ridx j hlo (by omega), if_pos ⟨rfl, by omega⟩]

/-- Where nothing has been scaled. -/
theorem of_fresh (h : ∀ i, ∀ j < (b.chunks i).h, (b.chunks i).l ≤ j → times i j = 0) :
    b.Marks times 0 := by
  intro i j hl hh
  rw [h i j hh hl, if_neg (by omega)]

theorem reset (b : Buffer n) (hn : 0 < n) (times : Fin n → Nat → Nat) :
    (b.reset hn).Marks times 0 :=
  of_fresh fun _ j hh _ => absurd hh (Nat.not_lt_zero j)

end Buffer.Marks

/-! ### Steps -/

namespace Playout
variable {s : Playout n}

/-- What a thread was told still holds, and no more has been scaled than what is read. -/
structure Sound (s : Playout n) : Prop where
  whole : s.buffer.Whole s.frame
  room : ∀ pos size, s.room = some (pos, size) → size ≠ 0 → s.buffer.getWpos = (pos, size)
  available : ∀ pos size, s.available = some (pos, size) → size ≠ 0 →
    s.buffer.getRpos = (pos, size)
  ahead : s.inForce = true → s.consumerPos ≤ s.scalePos ∧
    s.scalePos - s.consumerPos ≤ s.buffer.getRpos.2 ∧ s.frame ∣ s.scalePos - s.consumerPos

/-- With scaling in force, what lies before `scale_pos` has been scaled, and no more. -/
structure Marked (s : Playout n) : Prop where
  places : s.inForce = true → s.buffer.Marks s.times (s.scalePos - s.consumerPos)
  written : s.ScaledOnce

theorem Sound.frees_room (h : s.Sound) : Sound {s with room := none} :=
  ⟨h.whole, fun _ _ hno => (by cases hno), h.available, h.ahead⟩

theorem Sound.frees_available (h : s.Sound) : Sound {s with available := none} :=
  ⟨h.whole, h.room, fun _ _ hno => (by cases hno), h.ahead⟩

theorem Sound.fill (h : s.Sound) {pos : Option (Pos n)} {size : Nat}
    (hroom : s.room = some (pos, size)) (hsize : size ≠ 0) {bytes : Text}
    (hle : bytes.length ≤ size) (hframes : s.frame ∣ bytes.length) :
    ∃ t, s.fill pos bytes = some t ∧ t.Sound ∧ (s.Marked → t.Marked) := by
  obtain ⟨hopen, hpos, hlevel⟩ := Buffer.getWpos_some (h.room pos size hroom hsize) hsize
  obtain ⟨hridx, hwidx, hlevels⟩ := Playing.store_levels s.buffer pos bytes
  have hstored := Buffer.store_getRpos s.buffer pos bytes
  have hmarks := fun times ahead (hm : s.buffer.Marks times ahead) => hm.store pos bytes
  have hwhole := Playing.store_whole h.whole pos bytes
  have hclear : s.clearTimes pos bytes.length = change (fun _ => 0) s.times s.buffer.widx
      (s.buffer.chunks s.buffer.widx).h
      ((s.buffer.chunks s.buffer.widx).h + bytes.length) := by
    rw [hpos]
    rfl
  rw [Playout.fill, hclear]
  generalize Playing.store s.buffer pos bytes = stored at *
  have hopen' : (stored.chunks stored.widx).filled = false := by
    rw [hwidx, (hlevels _).2.2, hopen]
  have hhigh : (stored.chunks stored.widx).h = (s.buffer.chunks s.buffer.widx).h := by
    rw [hwidx, (hlevels _).2.1]
  obtain ⟨b, marked, hfill, hwhole', hridx', hkept⟩ := hwhole.fill hopen' hframes
    (by rw [hhigh, ← hlevel]; exact hle)
  -- a chunk that is read is filled, and so not the one that grows
  have hread : ∀ size, size ≤ s.buffer.getRpos.2 → size ≠ 0 → b.getRpos = s.buffer.getRpos := by
    intro size hsize hne
    obtain ⟨hfilled, -, -⟩ := Buffer.getRpos_some (show stored.getRpos =
      (stored.getRpos.1, stored.getRpos.2) from rfl) (by rw [hstored]; omega)
    rw [← hstored, Buffer.getRpos_congr hridx' (by
      rw [hkept _ hfilled]
      exact ⟨rfl, rfl, rfl⟩)]
  rw [hfill]
  refine ⟨_, rfl, ⟨hwhole', fun _ _ hno => (by cases hno), ?_, ?_⟩, fun hmarked =>
    ⟨fun hforce => ?_, hmarked.written⟩⟩
  · intro p k hk hne
    have htold := h.available p k hk hne
    exact (hread k (by rw [htold]) hne).trans htold
  · intro hforce
    obtain ⟨hpos, hahead, hdvd⟩ := h.ahead hforce
    refine ⟨hpos, ?_, hdvd⟩
    show s.scalePos - s.consumerPos ≤ b.getRpos.2
    by_cases hzero : s.scalePos - s.consumerPos = 0
    · rw [hzero]
      exact Nat.zero_le _
    · rwa [hread _ hahead hzero]
  · obtain ⟨-, hahead, -⟩ := h.ahead hforce
    have hnew := (hmarks _ _ (hmarked.places hforce)).fill (by rwa [hstored]) hopen' hfill hridx'
    rwa [hhigh, hwidx] at hnew

/-- What has been scaled is enough. -/
theorem scaleSamples_done (hpos : s.consumerPos < s.scalePos)
    (hsmall : s.scalePos - s.consumerPos < 2 ^ 32) {size : Nat}
    (hdone : size ≤ s.scalePos - s.consumerPos) (p : Pos n) (scale : Text → Text) :
    s.scaleSamples p size scale = some s := by
  have hne : s.consumerPos ≠ s.scalePos := by omega
  rw [scaleSamples, if_neg (by omega), if_pos hne, Nat.mod_eq_of_lt hsmall]
  exact if_pos ⟨hne, hdone⟩

/-- What is left is scaled, and goes back to where it was. -/
theorem scaleSamples_rest (hpos : s.consumerPos ≤ s.scalePos)
    (hsmall : s.scalePos - s.consumerPos < 2 ^ 32) {size : Nat}
    (hrest : ¬ (s.consumerPos < s.scalePos ∧ size ≤ s.scalePos - s.consumerPos))
    (hframes : s.frame ∣ size - (s.scalePos - s.consumerPos))
    (hfits : s.consumerPos + size < 2 ^ 64) (p : Pos n) (scale : Text → Text) :
    ∃ bytes, s.scaleSamples p size scale = some {s with
      scalePos := s.consumerPos + size
      buffer := Playing.store s.buffer
        (some ⟨p.chunk, p.off + (s.scalePos - s.consumerPos)⟩) bytes
      times := change (· + 1) s.times p.chunk (p.off + (s.scalePos - s.consumerPos))
        (p.off + size)} := by
  have hoffs : (if s.consumerPos ≠ s.scalePos then (s.scalePos - s.consumerPos) % 2 ^ 32 else 0) =
      s.scalePos - s.consumerPos := by
    split
    · exact Nat.mod_eq_of_lt hsmall
    · omega
  have hscaled : (s.scalePos + (size - (s.scalePos - s.consumerPos))) % 2 ^ 64 =
      s.consumerPos + size := by
    rw [Nat.mod_eq_of_lt (by omega)]
    omega
  have hend : p.off + (s.scalePos - s.consumerPos) + (size - (s.scalePos - s.consumerPos)) =
      p.off + size := by
    omega
  rw [scaleSamples, if_neg (by omega), hoffs]
  dsimp only
  rw [if_neg (by omega), Nat.div_mul_cancel hframes, hscaled, hend]
  exact ⟨_, rfl⟩

/-- The consumer is told of bytes, and scales those it is going to write. -/
theorem Sound.scaled (h : s.Sound) {p : Pos n} {total size : Nat}
    (hread : s.buffer.getRpos = (some p, total)) (htotal : total ≠ 0) (hsize : size ≤ total)
    (hframes : s.frame ∣ size) (hfits : s.consumerPos + size < 2 ^ 64) (scale : Text → Text) :
    ∃ t, s.scaled p size scale = some t ∧ t.Sound ∧
      t.frame = s.frame ∧ t.consumerPos = s.consumerPos ∧ t.buffer.getRpos = s.buffer.getRpos ∧
      (t.inForce = true → size ≤ t.scalePos - t.consumerPos) ∧ (s.Marked → t.Marked) := by
  rw [Playout.scaled]
  by_cases hforce : s.inForce = true
  swap
  · rw [if_neg hforce]
    exact ⟨s, rfl, h, rfl, rfl, rfl, fun hno => absurd hno hforce, id⟩
  rw [if_pos hforce]
  obtain ⟨hpos, hahead, hdvd⟩ := h.ahead hforce
  obtain ⟨-, hp, hlevel⟩ := Buffer.getRpos_some hread htotal
  obtain rfl := Option.some.inj hp
  have hsmall : s.scalePos - s.consumerPos < 2 ^ 32 := by
    have hchunk := (h.whole s.buffer.ridx).fits
    have : chunkSize < 2 ^ 32 := by decide
    rw [hread] at hahead
    omega
  by_cases hdone : s.consumerPos < s.scalePos ∧ size ≤ s.scalePos - s.consumerPos
  · obtain ⟨hlt, hle⟩ := hdone
    exact ⟨s, scaleSamples_done hlt hsmall hle _ scale, h, rfl, rfl, rfl, fun _ => hle, id⟩
  obtain ⟨bytes, heq⟩ := scaleSamples_rest hpos hsmall hdone (Nat.dvd_sub hframes hdvd) hfits
    ⟨s.buffer.ridx, (s.buffer.chunks s.buffer.ridx).l⟩ scale
  rw [heq]
  dsimp only
  generalize (some ⟨s.buffer.ridx, (s.buffer.chunks s.buffer.ridx).l +
    (s.scalePos - s.consumerPos)⟩ : Option (Pos n)) = back
  have hrpos := Buffer.store_getRpos s.buffer back bytes
  have hwpos := Buffer.store_getWpos s.buffer back bytes
  have hsub : s.consumerPos + size - s.consumerPos = size := Nat.add_sub_cancel_left ..
  refine ⟨_, rfl, ⟨Playing.store_whole h.whole back bytes, ?_, ?_,
    fun _ => ⟨Nat.le_add_right _ _, ?_, ?_⟩⟩, rfl, rfl, hrpos, fun _ => hsub.ge, fun hmarked =>
    ⟨fun _ => ?_, hmarked.written⟩⟩
  · intro pos k hk hne
    exact hwpos.trans (h.room pos k hk hne)
  · intro pos k hk hne
    exact hrpos.trans (h.available pos k hk hne)
  · rw [hsub]
    exact le_trans hsize (congrArg Prod.snd (hrpos.trans hread)).ge
  · rw [hsub]
    exact hframes
  · rw [hsub]
    exact ((hmarked.places hforce).scale (by omega)).store back bytes

theorem Marked.opWrite (h : s.Marked) (hs : s.Sound) {p : Pos n} {total size : Nat}
    (hread : s.buffer.getRpos = (some p, total)) (htotal : total ≠ 0)
    (hsize : s.inForce = true → size ≤ s.scalePos - s.consumerPos) :
    (s.opWrite p size).Marked := by
  refine ⟨h.places, fun w hw hforce => ?_⟩
  obtain hold | hnew := List.mem_append.mp hw
  · exact h.written w hold hforce
  · obtain rfl := List.mem_singleton.mp hnew
    obtain ⟨-, hp, hlevel⟩ := Buffer.getRpos_some hread htotal
    obtain rfl := Option.some.inj hp
    obtain ⟨-, hahead, -⟩ := hs.ahead hforce
    exact (h.places hforce).handed (hsize hforce) (le_trans hahead Buffer.getRpos_size_le)

theorem Sound.consume (h : s.Sound) (hfree : s.available = none) {pos : Option (Pos n)}
    {total rc : Nat} (hread : s.buffer.getRpos = (pos, total)) (htotal : total ≠ 0)
    (hrc : rc ≤ total) (hframes : s.frame ∣ rc) (hfits : s.consumerPos + rc < 2 ^ 64)
    (hscaled : s.inForce = true → rc ≤ s.scalePos - s.consumerPos) :
    ∃ t, s.consume rc = some t ∧ t.Sound ∧ (s.Marked → t.Marked) := by
  obtain ⟨hfilled, -, hlevel⟩ := Buffer.getRpos_some hread htotal
  obtain ⟨b, hconsume, hwhole, hwidx, hkept⟩ :=
    h.whole.consume hfilled hframes (by rwa [← hlevel])
  rw [Playout.consume, hconsume]
  have hsub : s.scalePos - (s.consumerPos + rc) = s.scalePos - s.consumerPos - rc :=
    Nat.sub_add_eq ..
  refine ⟨_, rfl, ⟨hwhole, ?_, ?_, fun hforce => ?_⟩, fun hmarked =>
    ⟨fun hforce => ?_, hmarked.written⟩⟩
  · intro p k hk hne
    have htold := h.room p k hk hne
    obtain ⟨hopen, -, -⟩ := Buffer.getWpos_some htold hne
    rw [← htold]
    refine Buffer.getWpos_congr hwidx ?_
    rw [hkept _ hopen]
    exact ⟨rfl, rfl⟩
  · intro p k hk
    rw [hfree] at hk
    cases hk
  · obtain ⟨hpos, hahead, hdvd⟩ := h.ahead hforce
    have hle := hscaled hforce
    dsimp only
    rw [Nat.mod_eq_of_lt hfits, hsub]
    refine ⟨by omega, ?_, Nat.dvd_sub hdvd hframes⟩
    rw [hread] at hahead
    dsimp only at hahead
    obtain ⟨hend, -⟩ | ⟨hridx, hl, hh, hf⟩ := (Buffer.consume_levels hconsume).2
    · omega
    · rw [Buffer.getRpos, hridx, hf, hfilled, if_pos rfl, hl, hh]
      omega
  · obtain ⟨-, hahead, -⟩ := h.ahead hforce
    dsimp only
    rw [Nat.mod_eq_of_lt hfits, hsub]
    exact (hmarked.places hforce).consume (hscaled hforce)
      (le_trans hahead Buffer.getRpos_size_le) hconsume

theorem sizeOf_le (size space : Nat) : sizeOf size space ≤ size := by
  rw [sizeOf]
  split
  · omega
  · exact le_refl _

theorem Sound.write (h : s.Sound) {p : Pos n} {total size : Nat}
    (hread : s.buffer.getRpos = (some p, total)) (htotal : total ≠ 0) (hsize : size ≤ total)
    (hframes : s.frame ∣ size) (hfits : s.consumerPos + size < 2 ^ 64) {rc : Option Nat}
    (hrc : ∀ played ∈ rc, s.frame ∣ played ∧ played ≤ size) (scale : Text → Text) :
    ∃ t, s.write p size rc scale = some t ∧ t.Sound ∧ (s.Marked → t.Marked) := by
  obtain ⟨u, hu, hsound, hframe, hpos, hrpos, hscaled, hmarked⟩ :=
    h.scaled hread htotal hsize hframes hfits scale
  have hread' : u.buffer.getRpos = (some p, total) := hrpos.trans hread
  have hgiven : Sound (u.opWrite p size) :=
    ⟨hsound.whole, hsound.room, fun _ _ hno => (by cases hno), hsound.ahead⟩
  have hmarks := fun hm : s.Marked => (hmarked hm).opWrite hsound hread' htotal hscaled
  rw [Playout.write, hu]
  cases rc with
  | none => exact ⟨_, rfl, hgiven, hmarks⟩
  | some played =>
    obtain ⟨hdvd, hle⟩ := hrc played rfl
    obtain ⟨t, ht, hsound', hmarked'⟩ := hgiven.consume rfl hread' htotal (le_trans hle hsize)
      (show u.frame ∣ played by rwa [hframe])
      (show u.consumerPos + played < 2 ^ 64 by rw [hpos]; omega)
      (fun hforce => le_trans hle (hscaled hforce))
    exact ⟨t, ht, hsound', fun hm => hmarked' (hmarks hm)⟩

/-- The buffer is empty, and both positions are the same. -/
theorem sound_reset {hn : 0 < n} {b : Buffer n} (hbuffer : s.buffer = b.reset hn)
    (hroom : s.room = none) (havailable : s.available = none)
    (hpos : s.scalePos = s.consumerPos) : s.Sound := by
  refine ⟨?_, ?_, ?_, fun _ => ?_⟩
  · rw [hbuffer]
    exact Playing.reset_whole _ b hn
  · rw [hroom]
    exact fun _ _ hno => by cases hno
  · rw [havailable]
    exact fun _ _ hno => by cases hno
  · rw [hpos, Nat.sub_self]
    exact ⟨le_refl _, Nat.zero_le _, Nat.dvd_zero _⟩

theorem marked_reset {hn : 0 < n} {b : Buffer n} (hbuffer : s.buffer = b.reset hn)
    (hpos : s.scalePos = s.consumerPos) (hwritten : s.ScaledOnce) : s.Marked := by
  refine ⟨fun _ => ?_, hwritten⟩
  rw [hbuffer, hpos, Nat.sub_self]
  exact Buffer.Marks.reset b hn _

/-- The settings: `scale_pos` is what it was, or where the consumer is. -/
theorem Sound.catchUp (h : s.Sound) {t : Playout n} (hbuffer : t.buffer = s.buffer)
    (hframe : t.frame = s.frame) (hroom : t.room = s.room) (havailable : t.available = s.available)
    (hconsumer : t.consumerPos = s.consumerPos) (hpos : t.scalePos = s.catchUp) : t.Sound := by
  refine ⟨by rw [hbuffer, hframe]; exact h.whole, by rw [hbuffer, hroom]; exact h.room,
    by rw [hbuffer, havailable]; exact h.available, fun _ => ?_⟩
  rw [hpos, hconsumer, hbuffer, hframe, Playout.catchUp]
  by_cases hforce : s.inForce = true
  · rw [if_pos hforce]
    exact h.ahead hforce
  · rw [if_neg hforce, Nat.sub_self]
    exact ⟨le_refl _, Nat.zero_le _, Nat.dvd_zero _⟩

theorem Marked.catchUp (h : s.Marked) {t : Playout n} (hbuffer : t.buffer = s.buffer)
    (htimes : t.times = s.times) (hconsumer : t.consumerPos = s.consumerPos)
    (hpos : t.scalePos = s.catchUp) (hwritten : t.written = s.written)
    (hfresh : s.inForce = false → t.inForce = true → s.Fresh) : t.Marked := by
  refine ⟨fun hnew => ?_, by rw [ScaledOnce, hwritten]; exact h.written⟩
  rw [hpos, hconsumer, hbuffer, htimes, Playout.catchUp]
  by_cases hforce : s.inForce = true
  · rw [if_pos hforce]
    exact h.places hforce
  · rw [if_neg hforce, Nat.sub_self]
    exact Buffer.Marks.of_fresh (hfresh (by simpa using hforce) hnew)

/-- Whatever happens next, no `BUG_ON` is met; bytes are scaled once if scaling starts with
fresh ones. -/
theorem Sound.step (h : s.Sound) (hn : 0 < n) {a : PlayoutAct} (hlegal : s.Legal a)
    (hfits : s.Fits a) :
    ∃ t, s.step hn a = some t ∧ t.Sound ∧ (s.StartsFresh a → s.Marked → t.Marked) := by
  cases a with
  | getWpos =>
    refine ⟨_, rfl, ⟨h.whole, fun pos size hsome _ => Option.some.inj hsome, h.available,
      h.ahead⟩, fun _ hm => ⟨hm.places, hm.written⟩⟩
  | fill bytes =>
    unfold Playout.step
    dsimp only
    split
    · next pos size bytes hroom =>
      split
      · exact ⟨_, rfl, h.frees_room, fun _ hm => ⟨hm.places, hm.written⟩⟩
      · next hsize =>
        obtain ⟨hle, hframes⟩ := hlegal bytes rfl _ hroom hsize
        obtain ⟨t, ht, hsound, hmarked⟩ := h.fill hroom hsize hle hframes
        exact ⟨t, ht, hsound, fun _ => hmarked⟩
    · exact ⟨_, rfl, h.frees_room, fun _ hm => ⟨hm.places, hm.written⟩⟩
  | getRpos =>
    refine ⟨_, rfl, ⟨h.whole, h.room, fun pos size hsome _ => Option.some.inj hsome,
      h.ahead⟩, fun _ hm => ⟨hm.places, hm.written⟩⟩
  | write space rc scale =>
    rw [Playout.step]
    split
    · next p total havailable =>
      split
      · exact ⟨_, rfl, h.frees_available, fun _ hm => ⟨hm.places, hm.written⟩⟩
      · next hsize =>
        obtain ⟨hspace, hplayed⟩ := hlegal
        have htotal : total ≠ 0 := fun hzero => hsize (.inl hzero)
        have hread := h.available _ _ havailable htotal
        have hframes : s.frame ∣ sizeOf total space := by
          obtain ⟨hdvd, -⟩ := h.whole.getRpos
          rw [hread] at hdvd
          rw [sizeOf]
          split
          · exact hspace
          · exact hdvd
        obtain ⟨t, ht, hsound, hmarked⟩ := h.write hread htotal (sizeOf_le total space) hframes
          (hfits _ havailable)
          (fun played hrc => ⟨(hplayed played hrc).1, (hplayed played hrc).2 _ havailable⟩) scale
        exact ⟨t, ht, hsound, fun _ => hmarked⟩
    · exact ⟨_, rfl, h.frees_available, fun _ hm => ⟨hm.places, hm.written⟩⟩
  | setSoftVol soft =>
    rw [Playout.step]
    split
    · exact ⟨s, rfl, h, fun _ hm => hm⟩
    · next hfree =>
      refine ⟨_, rfl, h.catchUp rfl rfl rfl rfl rfl rfl, fun hfresh hm =>
        hm.catchUp rfl rfl rfl rfl rfl fun hoff hon => ?_⟩
      refine hfresh (by simpa using hfree) hoff ?_
      rw [inForce, Bool.or_eq_false_iff] at hoff
      rw [inForce, hoff.2, Bool.or_false] at hon
      exact hon
  | setRg rg =>
    rw [Playout.step]
    split
    · exact ⟨s, rfl, h, fun _ hm => hm⟩
    · next hfree =>
      obtain ⟨hroom, havailable⟩ := not_or.mp hfree
      refine ⟨_, rfl, h.catchUp rfl rfl rfl rfl rfl rfl, fun hfresh hm =>
        hm.catchUp rfl rfl rfl rfl rfl fun hoff hon => ?_⟩
      refine hfresh (by simpa using hroom) (by simpa using havailable) hoff ?_
      rw [inForce, Bool.or_eq_false_iff] at hoff
      rw [inForce, hoff.1, Bool.false_or, bne_iff_ne] at hon
      exact hon
  | seek newPos =>
    rw [Playout.step]
    split
    · exact ⟨s, rfl, h, fun _ hm => hm⟩
    · next hfree =>
      obtain ⟨hroom, havailable⟩ := not_or.mp hfree
      exact ⟨_, rfl, sound_reset rfl (by simpa using hroom) (by simpa using havailable) rfl,
        fun _ hm => marked_reset rfl rfl hm.written⟩
  | reset frame =>
    rw [Playout.step]
    split
    · exact ⟨s, rfl, h, fun _ hm => hm⟩
    · next hfree =>
      obtain ⟨hroom, havailable⟩ := not_or.mp hfree
      exact ⟨_, rfl, sound_reset rfl (by simpa using hroom) (by simpa using havailable) rfl,
        fun _ hm => marked_reset rfl rfl hm.written⟩

/-! ### Runs -/

/-- In every run the `BUG_ON` is not reached; where scaling only starts with fresh bytes, what
was written with scaling in force had been scaled exactly once. -/
theorem scaledOnce_always (hn : 0 < n) (memory : Buffer n) (times : Fin n → Nat → Nat)
    (frame : Nat) (softVol : Bool) (replaygain : ReplayGain) (acts : List PlayoutAct)
    (hlegal : Runs.Along (step hn) Legal (start hn memory times frame softVol replaygain) acts)
    (hfits : Runs.Along (step hn) Fits (start hn memory times frame softVol replaygain) acts) :
    Runs.Always (step hn) (fun _ => True)
        (start hn memory times frame softVol replaygain) acts ∧
      (Runs.Along (step hn) StartsFresh (start hn memory times frame softVol replaygain) acts →
        Runs.Always (step hn) ScaledOnce
          (start hn memory times frame softVol replaygain) acts) := by
  have hsound : Sound (start hn memory times frame softVol replaygain) :=
    @sound_reset n _ hn memory rfl rfl rfl rfl
  have hmarked : Marked (start hn memory times frame softVol replaygain) :=
    @marked_reset n _ hn memory rfl rfl fun _ hw => absurd hw List.not_mem_nil
  constructor
  · refine (Runs.always_of_along (I := Sound) (fun s a h ha => ?_) hsound
      (hlegal.and hfits)).mono fun _ _ => trivial
    obtain ⟨t, ht, hsound', -⟩ := h.step hn ha.1 ha.2
    exact ⟨t, ht, hsound'⟩
  · intro hfresh
    refine (Runs.always_of_along (I := fun s => s.Sound ∧ s.Marked) (fun s a h ha => ?_)
      ⟨hsound, hmarked⟩ ((hlegal.and hfits).and hfresh)).mono fun _ h => h.2.written
    obtain ⟨t, ht, hsound', hmarked'⟩ := h.1.step hn ha.1.1 ha.1.2
    exact ⟨t, ht, hsound', hmarked' ha.2 h.2⟩

def oneChunk : Buffer 1 :=
  ⟨fun _ => ⟨fun _ => 0, 0, 0, false⟩, ⟨0, Nat.one_pos⟩, ⟨0, Nat.one_pos⟩⟩

/-- A player with one chunk and frames of four bytes. -/
def stereo (softVol : Bool) : Playout 1 :=
  start Nat.one_pos oneChunk (fun _ _ => 0) 4 softVol .disabled

/-- Two frames, written one by one; soft volume is switched on in between. -/
def frameByFrame : List PlayoutAct :=
  [.getWpos, .fill (some [1, 2, 3, 4, 5, 6, 7, 8]), .getWpos, .fill (some []), .getRpos,
    .write 4 (some 4) id, .setSoftVol true, .getRpos, .write 8 (some 4) id]

theorem scaledOnce_frameByFrame :
    Runs.Always (step Nat.one_pos) (fun _ => True) (stereo false) frameByFrame ∧
      Runs.Always (step Nat.one_pos) ScaledOnce (stereo false) frameByFrame := by
  obtain ⟨hruns, honce⟩ := scaledOnce_always Nat.one_pos oneChunk (fun _ _ => 0) 4 false
    .disabled frameByFrame (by decide +kernel) (by decide +kernel)
  exact ⟨hruns, honce (by decide +kernel)⟩

/-- The plugin takes one frame of two; soft volume is switched off and on. -/
def offAndOn : List PlayoutAct :=
  [.getWpos, .fill (some [1, 2, 3, 4, 5, 6, 7, 8]), .getWpos, .fill (some []), .getRpos,
    .write 8 (some 4) id, .setSoftVol false, .setSoftVol true, .getRpos, .write 8 (some 4) id]

/-- The second frame is scaled again. -/
theorem scaledOnce_offAndOn :
    Runs.Along (step Nat.one_pos) Legal (stereo true) offAndOn ∧
      Runs.Along (step Nat.one_pos) Fits (stereo true) offAndOn ∧
      ∃ s : Playout 1, Runs.run (step Nat.one_pos) (stereo true) offAndOn = some s ∧
        s.written = [(true, [1, 1, 1, 1, 1, 1, 1, 1]), (true, [2, 2, 2, 2])] ∧
        ¬ s.ScaledOnce := by
  refine ⟨by decide +kernel, by decide +kernel, ?_⟩
  have hrun : (Runs.run (step Nat.one_pos) (stereo true) offAndOn).map (·.written) =
      some [(true, [1, 1, 1, 1, 1, 1, 1, 1]), (true, [2, 2, 2, 2])] := by
    decide +kernel
  obtain ⟨s, hs, hwritten⟩ := Option.map_eq_some_iff.mp hrun
  refine ⟨s, hs, hwritten, ?_⟩
  rw [ScaledOnce, hwritten]
  decide

end Playout

end GracefulMusic.Playback
