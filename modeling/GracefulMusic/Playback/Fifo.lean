import Mathlib.Data.Nat.ModEq
import GracefulMusic.Playback.Buffer

/-! The playback buffer is a lossless FIFO.

The filled chunks are a cyclic range that starts at the read index and ends at the
write index (`Ring`); its length `k` tells the full ring from the empty one. What
the ring holds, read in that order, is the bytes filled and not yet consumed
(`Consistent.flow`), and a thread's pointer stays good between its calls because
the other thread never touches a chunk on this one's side of the `filled` flag
(`ProducerHolds`, `ConsumerHolds`). -/
namespace GracefulMusic.Playback
variable {n : Nat}

/-! ### Cyclic positions -/

/-- The chunk `i` places after `r`. -/
def slot (r : Fin n) (i : Nat) : Fin n := ⟨(r + i) % n, Nat.mod_lt _ r.pos⟩

@[simp] theorem slot_zero (r : Fin n) : slot r 0 = r :=
  Fin.ext (Nat.mod_eq_of_lt r.isLt)

theorem slot_self (r : Fin n) : slot r n = r :=
  Fin.ext (by simp [slot, Nat.mod_eq_of_lt r.isLt])

theorem slot_next (r : Fin n) (i : Nat) : slot (Buffer.next r) i = slot r (i + 1) :=
  Fin.ext (by simp only [slot, Buffer.next, Nat.mod_add_mod]; congr 1; omega)

theorem next_slot (r : Fin n) (i : Nat) : Buffer.next (slot r i) = slot r (i + 1) :=
  Fin.ext (by simp [slot, Buffer.next, Nat.add_assoc])

theorem slot_inj {r : Fin n} {i j : Nat} (hi : i < n) (hj : j < n) :
    slot r i = slot r j ↔ i = j := by
  constructor
  · intro h
    have hmod : Nat.ModEq n (r.val + i) (r.val + j) := congrArg Fin.val h
    exact (Nat.ModEq.add_left_cancel' _ hmod).eq_of_lt_of_lt hi hj
  · intro heq
    subst heq
    rfl

/-! ### Slices -/

theorem slice_append (data : Nat → UInt8) {l m h : Nat} (hlm : l ≤ m) (hmh : m ≤ h) :
    slice data l m ++ slice data m h = slice data l h := by
  have hsplit := List.range'_append_1 (s := l) (m := m - l) (n := h - m)
  rw [show l + (m - l) = m by omega, show m - l + (h - m) = h - l by omega] at hsplit
  rw [slice, slice, slice, ← List.map_append, hsplit]

theorem slice_take (data : Nat → UInt8) (l size count : Nat) (h : count ≤ size) :
    (slice data l (l + size)).take count = slice data l (l + count) := by
  rw [← slice_append data (show l ≤ l + count by omega) (show l + count ≤ l + size by omega)]
  exact List.take_left' (by simp [slice])

@[simp] theorem slice_self (data : Nat → UInt8) (l : Nat) : slice data l l = [] := by
  simp [slice]

theorem slice_congr {data data' : Nat → UInt8} {l h : Nat}
    (heq : ∀ j, l ≤ j → j < h → data j = data' j) : slice data l h = slice data' l h := by
  apply List.map_congr_left
  intro j hj
  have := List.mem_range'_1.mp hj
  exact heq j this.1 (by omega)

/-- Storing bytes at the fill mark or beyond it does not change what is available. -/
theorem Chunk.bytes_write (c : Chunk) (off : Nat) (bytes : List UInt8) (h : c.h ≤ off) :
    (c.write off bytes).bytes = c.bytes := by
  apply slice_congr
  intro j _ hj
  simp only [Chunk.write] at hj ⊢
  rw [if_neg (by omega)]

/-! ### The ring -/

/-- Marked filled: the consumer's, with something left in it. -/
structure Chunk.Full (c : Chunk) : Prop where
  filled : c.filled = true
  some : c.l < c.h
  bound : c.h ≤ chunkSize

/-- Not marked filled: the producer's, with the room `buffer_get_wpos` promises. -/
structure Chunk.Open (c : Chunk) : Prop where
  filled : c.filled = false
  low : c.l = 0
  room : c.h + 1024 ≤ chunkSize

theorem empty_room : 0 + 1024 ≤ chunkSize := by decide

/-- The `k` chunks from the read index on are full, the others open, and past the
write index nothing has been written. -/
structure Ring (b : Buffer n) (k : Nat) : Prop where
  le : k ≤ n
  widx : b.widx = slot b.ridx k
  full : ∀ i, i < k → (b.chunks (slot b.ridx i)).Full
  room : ∀ i, k ≤ i → i < n → (b.chunks (slot b.ridx i)).Open
  blank : ∀ i, k < i → i < n → (b.chunks (slot b.ridx i)).h = 0

/-- What the ring holds, from the read index on. -/
def contents (b : Buffer n) : List UInt8 :=
  (List.range n).flatMap fun i => (b.chunks (slot b.ridx i)).bytes

theorem slot_surj (r i : Fin n) : ∃ j, j < n ∧ slot r j = i := by
  rcases Nat.lt_or_ge i.val r.val with h | h
  · refine ⟨i + n - r, by omega, Fin.ext ?_⟩
    show (r.val + (i.val + n - r.val)) % n = i.val
    rw [show r.val + (i.val + n - r.val) = i.val + n by omega, Nat.add_mod_right,
      Nat.mod_eq_of_lt i.isLt]
  · refine ⟨i - r, by omega, Fin.ext ?_⟩
    show (r.val + (i.val - r.val)) % n = i.val
    rw [show r.val + (i.val - r.val) = i.val by omega, Nat.mod_eq_of_lt i.isLt]

namespace Ring
variable {b : Buffer n} {k : Nat}

theorem full_iff (h : Ring b k) {i : Nat} (hi : i < n) :
    (b.chunks (slot b.ridx i)).filled = true ↔ i < k := by
  rcases Nat.lt_or_ge i k with hik | hik
  · simp [(h.full i hik).filled, hik]
  · simp [(h.room i hik hi).filled, Nat.not_lt.mpr hik]

/-- The chunk at the write index is open unless the ring is full. -/
theorem write_open (h : Ring b k) (hw : (b.chunks b.widx).filled = false) : k < n := by
  rcases Nat.lt_or_eq_of_le h.le with hk | rfl
  · exact hk
  · rw [h.widx, slot_self, ← slot_zero b.ridx] at hw
    have := (h.full 0 b.ridx.pos).filled
    rw [hw] at this
    cases this

/-- The chunk at the read index is full unless the ring is empty. -/
theorem read_full (h : Ring b k) (hr : (b.chunks b.ridx).filled = true) : 0 < k := by
  rw [← slot_zero b.ridx] at hr
  exact (h.full_iff b.ridx.pos).mp hr

/-- `buffer_get_filled_chunks` counts the full chunks. -/
theorem getFilledChunks_eq (h : Ring b k) : b.getFilledChunks = k := by
  have hr := b.ridx.isLt
  have hw : b.widx.val = (b.ridx.val + k) % n := congrArg Fin.val h.widx
  have hmod : (b.ridx.val + k) % n = if b.ridx.val + k < n then b.ridx.val + k
      else b.ridx.val + k - n := by
    split
    · exact Nat.mod_eq_of_lt ‹_›
    · rw [Nat.mod_eq_sub_mod (by omega), Nat.mod_eq_of_lt (by have := h.le; omega)]
  have hle := h.le
  have hfull := h.full_iff b.ridx.pos
  rw [slot_zero] at hfull
  simp only [Buffer.getFilledChunks, Fin.lt_def, GT.gt]
  split at hmod
  · rcases Nat.eq_zero_or_pos k with rfl | hk
    · simp only [Nat.lt_irrefl, iff_false, Bool.not_eq_true] at hfull
      rw [if_neg (by omega), if_neg (by omega), hfull]
      rfl
    · rw [if_pos (by omega)]
      omega
  · rw [if_neg (by omega)]
    split
    · omega
    · rw [if_pos (hfull.mpr (by omega))]
      omega

end Ring

/-! ### What the two calls do to the contents -/

/-- With nothing past the write index, the contents end with the chunk there. -/
theorem contents_split {b : Buffer n} {k : Nat} (hk : k < n)
    (hblank : ∀ i, k < i → i < n → (b.chunks (slot b.ridx i)).h = 0) :
    contents b = ((List.range k).flatMap fun i => (b.chunks (slot b.ridx i)).bytes) ++
      (b.chunks (slot b.ridx k)).bytes := by
  have hrange : List.range n = List.range (k + 1) ++ List.range' (k + 1) (n - (k + 1)) := by
    have := List.range'_append_1 (s := 0) (m := k + 1) (n := n - (k + 1))
    rw [Nat.zero_add, show k + 1 + (n - (k + 1)) = n by omega] at this
    rw [List.range_eq_range', List.range_eq_range', this]
  have hrest : ((List.range' (k + 1) (n - (k + 1))).flatMap
      fun i => (b.chunks (slot b.ridx i)).bytes) = [] := by
    apply List.flatMap_eq_nil_iff.mpr
    intro i hi
    have := List.mem_range'_1.mp hi
    simp [Chunk.bytes, slice, hblank i (by omega) (by omega)]
  rw [contents, hrange, List.flatMap_append, hrest, List.append_nil, List.range_succ,
    List.flatMap_append, List.flatMap_singleton]

/-- The contents begin with the chunk at the read index. -/
theorem contents_head (b : Buffer n) :
    contents b = (b.chunks b.ridx).bytes ++
      (List.range (n - 1)).flatMap fun i => (b.chunks (slot b.ridx (i + 1))).bytes := by
  have hn : List.range n = 0 :: (List.range (n - 1)).map Nat.succ := by
    rw [← List.range_succ_eq_map, show n - 1 + 1 = n by have := b.ridx.pos; omega]
  rw [contents, hn, List.flatMap_cons, slot_zero, List.flatMap_map]

section Write
variable {b : Buffer n} {k : Nat} {c : Chunk}

theorem Ring.slot_ne_widx (h : Ring b k) (hk : k < n) {i : Nat} (hi : i < n) (hne : i ≠ k) :
    slot b.ridx i ≠ b.widx := by
  rw [h.widx, ne_eq, slot_inj hi hk]
  exact hne

theorem Ring.chunk_ne (h : Ring b k) (hk : k < n) {i : Nat} (hi : i < n) (hne : i ≠ k) :
    (b.setChunk b.widx c).chunks (slot b.ridx i) = b.chunks (slot b.ridx i) :=
  Function.update_of_ne (h.slot_ne_widx hk hi hne) _ _

theorem Ring.chunk_eq (h : Ring b k) : (b.setChunk b.widx c).chunks (slot b.ridx k) = c := by
  rw [← h.widx]
  exact Function.update_self ..

/-- Replacing the chunk at the write index replaces the end of the contents. -/
theorem Ring.contents_write (h : Ring b k) (hk : k < n) (extra : List UInt8)
    (hc : c.bytes = (b.chunks b.widx).bytes ++ extra) :
    contents (b.setChunk b.widx c) = contents b ++ extra := by
  have hblank : ∀ i, k < i → i < n → ((b.setChunk b.widx c).chunks (slot b.ridx i)).h = 0 := by
    intro i hki hi
    rw [h.chunk_ne hk hi (by omega)]
    exact h.blank i hki hi
  rw [contents_split hk hblank, contents_split hk h.blank, List.append_assoc]
  congr 1
  · rw [List.flatMap_def, List.flatMap_def]
    congr 1
    apply List.map_congr_left
    intro i hi
    have := List.mem_range.mp hi
    exact congrArg Chunk.bytes (h.chunk_ne hk (by omega) (by omega))
  · show ((b.setChunk b.widx c).chunks (slot b.ridx k)).bytes = _
    rw [h.chunk_eq, hc, ← h.widx]

/-- The chunk at the write index may be replaced by another open one. -/
theorem Ring.keep (h : Ring b k) (hk : k < n) (hc : c.Open) : Ring (b.setChunk b.widx c) k where
  le := h.le
  widx := h.widx
  full i hi := by
    show ((b.setChunk b.widx c).chunks (slot b.ridx i)).Full
    rw [h.chunk_ne hk (by omega) (by omega)]
    exact h.full i hi
  room i hki hi := by
    show ((b.setChunk b.widx c).chunks (slot b.ridx i)).Open
    rcases Nat.lt_or_eq_of_le hki with hlt | rfl
    · rw [h.chunk_ne hk hi (by omega)]
      exact h.room i hki hi
    · rwa [h.chunk_eq]
  blank i hki hi := by
    show ((b.setChunk b.widx c).chunks (slot b.ridx i)).h = 0
    rw [h.chunk_ne hk hi (by omega)]
    exact h.blank i hki hi

/-- The chunk at the write index may be filled and the write index moved on. -/
theorem Ring.mark (h : Ring b k) (hk : k < n) (hc : c.Full) :
    Ring {b.setChunk b.widx c with widx := Buffer.next b.widx} (k + 1) where
  le := hk
  widx := by
    show Buffer.next b.widx = slot b.ridx (k + 1)
    rw [h.widx, next_slot]
  full i hi := by
    show ((b.setChunk b.widx c).chunks (slot b.ridx i)).Full
    rcases Nat.lt_or_eq_of_le (Nat.lt_succ_iff.mp hi) with hlt | rfl
    · rw [h.chunk_ne hk (by omega) (by omega)]
      exact h.full i hlt
    · rwa [h.chunk_eq]
  room i hki hi := by
    show ((b.setChunk b.widx c).chunks (slot b.ridx i)).Open
    rw [h.chunk_ne hk hi (by omega)]
    exact h.room i (by omega) hi
  blank i hki hi := by
    show ((b.setChunk b.widx c).chunks (slot b.ridx i)).h = 0
    rw [h.chunk_ne hk hi (by omega)]
    exact h.blank i (by omega) hi

/-- `buffer_fill` within the room `buffer_get_wpos` returned appends the bytes that
lie at the fill mark; it touches no chunk but the one at the write index. -/
theorem fill_spec (h : Ring b k) (hw : (b.chunks b.widx).filled = false) {count : Nat}
    (hcount : count ≤ chunkSize - (b.chunks b.widx).h) :
    ∃ b' f k', b.fill count = some (b', f) ∧ Ring b' k' ∧
      contents b' = contents b ++ slice (b.chunks b.widx).data (b.chunks b.widx).h
        ((b.chunks b.widx).h + count) ∧
      b'.ridx = b.ridx ∧ ∀ i, i ≠ b.widx → b'.chunks i = b.chunks i := by
  have hk := h.write_open hw
  have hopen := h.room k (Nat.le_refl k) hk
  rw [← h.widx] at hopen
  have hroom := hopen.room
  have hbytes : ∀ f, ({b.chunks b.widx with
        h := (b.chunks b.widx).h + count, filled := f} : Chunk).bytes =
      (b.chunks b.widx).bytes ++ slice (b.chunks b.widx).data (b.chunks b.widx).h
        ((b.chunks b.widx).h + count) := fun f =>
    (slice_append _ (by rw [hopen.low]; exact Nat.zero_le _) (Nat.le_add_right _ _)).symm
  simp only [Buffer.fill, hw, Bool.false_eq_true, if_false]
  split
  case isTrue hmark =>
    refine ⟨_, _, k + 1, rfl, h.mark hk ⟨rfl, ?_, ?_⟩, h.contents_write hk _ (hbytes true), rfl,
      fun i hi => Function.update_of_ne hi _ _⟩
    · show (b.chunks b.widx).l < (b.chunks b.widx).h + count
      rw [hopen.low]
      rcases hmark with hlt | ⟨_, hgt⟩
      · simp only [chunkSize] at hlt
        omega
      · exact hgt
    · show (b.chunks b.widx).h + count ≤ chunkSize
      omega
  case isFalse hmark =>
    refine ⟨_, _, k, rfl, h.keep hk ⟨rfl, hopen.low, ?_⟩, h.contents_write hk _ (hbytes false), rfl,
      fun i hi => Function.update_of_ne hi _ _⟩
    show (b.chunks b.widx).h + count + 1024 ≤ chunkSize
    omega

end Write

section Read
variable {b : Buffer n} {k : Nat} {c : Chunk}

theorem chunk_ne_ridx {i : Nat} (hi : i < n) (hne : i ≠ 0) :
    (b.setChunk b.ridx c).chunks (slot b.ridx i) = b.chunks (slot b.ridx i) := by
  apply Function.update_of_ne
  nth_rewrite 2 [← slot_zero b.ridx]
  rw [ne_eq, slot_inj hi b.ridx.pos]
  exact hne

theorem chunk_at_ridx : (b.setChunk b.ridx c).chunks b.ridx = c := Function.update_self ..

/-- The chunk at the read index may be replaced by another full one. -/
theorem Ring.take (h : Ring b k) (hk : 0 < k) (hc : c.Full) : Ring (b.setChunk b.ridx c) k where
  le := h.le
  widx := h.widx
  full i hi := by
    show ((b.setChunk b.ridx c).chunks (slot b.ridx i)).Full
    rcases Nat.eq_zero_or_pos i with rfl | hpos
    · rwa [slot_zero, chunk_at_ridx]
    · rw [chunk_ne_ridx (by have := h.le; omega) (by omega)]
      exact h.full i hi
  room i hki hi := by
    show ((b.setChunk b.ridx c).chunks (slot b.ridx i)).Open
    rw [chunk_ne_ridx hi (by omega)]
    exact h.room i hki hi
  blank i hki hi := by
    show ((b.setChunk b.ridx c).chunks (slot b.ridx i)).h = 0
    rw [chunk_ne_ridx hi (by omega)]
    exact h.blank i hki hi

/-- The chunk at the read index may be emptied and the read index moved on. -/
theorem Ring.release (h : Ring b k) (hk : 0 < k) (hc : c.Open) (hh : c.h = 0) :
    Ring {b.setChunk b.ridx c with ridx := Buffer.next b.ridx} (k - 1) where
  le := by have := h.le; omega
  widx := by
    show b.widx = slot (Buffer.next b.ridx) (k - 1)
    rw [h.widx, slot_next, show k - 1 + 1 = k by omega]
  full i hi := by
    show ((b.setChunk b.ridx c).chunks (slot (Buffer.next b.ridx) i)).Full
    rw [slot_next, chunk_ne_ridx (by have := h.le; omega) (by omega)]
    exact h.full (i + 1) (by omega)
  room i hki hi := by
    show ((b.setChunk b.ridx c).chunks (slot (Buffer.next b.ridx) i)).Open
    rw [slot_next]
    rcases Nat.lt_or_eq_of_le (show i + 1 ≤ n from hi) with hlt | heq
    · rw [chunk_ne_ridx hlt (by omega)]
      exact h.room (i + 1) (by omega) hlt
    · rwa [heq, slot_self, chunk_at_ridx]
  blank i hki hi := by
    show ((b.setChunk b.ridx c).chunks (slot (Buffer.next b.ridx) i)).h = 0
    rw [slot_next]
    rcases Nat.lt_or_eq_of_le (show i + 1 ≤ n from hi) with hlt | heq
    · rw [chunk_ne_ridx hlt (by omega)]
      exact h.blank (i + 1) (by omega) hlt
    · rwa [heq, slot_self, chunk_at_ridx]

theorem contents_tail :
    ((List.range (n - 1)).flatMap fun i =>
        ((b.setChunk b.ridx c).chunks (slot b.ridx (i + 1))).bytes) =
      (List.range (n - 1)).flatMap fun i => (b.chunks (slot b.ridx (i + 1))).bytes := by
  rw [List.flatMap_def, List.flatMap_def]
  congr 1
  apply List.map_congr_left
  intro i hi
  have := List.mem_range.mp hi
  exact congrArg Chunk.bytes (chunk_ne_ridx (by omega) (by omega))

/-- Replacing the chunk at the read index replaces the front of the contents. -/
theorem contents_take (front : List UInt8) (hc : (b.chunks b.ridx).bytes = front ++ c.bytes) :
    contents b = front ++ contents (b.setChunk b.ridx c) := by
  rw [contents_head b, contents_head (b.setChunk b.ridx c), hc, List.append_assoc]
  show front ++ (c.bytes ++ _) = front ++ (((b.setChunk b.ridx c).chunks b.ridx).bytes ++
    (List.range (n - 1)).flatMap fun i => ((b.setChunk b.ridx c).chunks (slot b.ridx (i + 1))).bytes)
  rw [contents_tail, chunk_at_ridx]

/-- Emptying it and moving on removes that front. -/
theorem contents_release (hc : c.bytes = []) :
    contents b = (b.chunks b.ridx).bytes ++
      contents {b.setChunk b.ridx c with ridx := Buffer.next b.ridx} := by
  have hn : List.range n = List.range (n - 1) ++ [n - 1] := by
    rw [← List.range_succ, show (n - 1).succ = n by have := b.ridx.pos; omega]
  rw [contents_head b]
  congr 1
  show _ = (List.range n).flatMap fun i =>
    ((b.setChunk b.ridx c).chunks (slot (Buffer.next b.ridx) i)).bytes
  simp only [slot_next]
  rw [hn, List.flatMap_append, contents_tail, List.flatMap_singleton,
    show n - 1 + 1 = n by have := b.ridx.pos; omega, slot_self, chunk_at_ridx, hc, List.append_nil]

/-- `buffer_consume` within the size `buffer_get_rpos` returned removes bytes from the
front; it touches no chunk but the one at the read index. -/
theorem consume_spec (h : Ring b k) (hr : (b.chunks b.ridx).filled = true) {count : Nat}
    (hcount : count ≤ (b.chunks b.ridx).h - (b.chunks b.ridx).l) :
    ∃ b' k', b.consume count = some b' ∧ Ring b' k' ∧
      contents b = slice (b.chunks b.ridx).data (b.chunks b.ridx).l
        ((b.chunks b.ridx).l + count) ++ contents b' ∧
      b'.widx = b.widx ∧ ∀ i, i ≠ b.ridx → b'.chunks i = b.chunks i := by
  have hk := h.read_full hr
  have hfull := h.full 0 hk
  rw [slot_zero] at hfull
  have hsome := hfull.some
  simp only [Buffer.consume, hr, Bool.not_true, Bool.false_eq_true, if_false]
  split
  case isTrue hlast =>
    refine ⟨_, k - 1, rfl, h.release hk ⟨rfl, rfl, empty_room⟩ rfl, ?_, rfl,
      fun i hi => Function.update_of_ne hi _ _⟩
    rw [hlast]
    exact contents_release rfl
  case isFalse hlast =>
    refine ⟨_, k, rfl, h.take hk ⟨rfl, ?_, hfull.bound⟩, contents_take _ ?_, rfl,
      fun i hi => Function.update_of_ne hi _ _⟩
    · show (b.chunks b.ridx).l + count < (b.chunks b.ridx).h
      omega
    · exact (slice_append _ (Nat.le_add_right _ _) (by omega)).symm

end Read

/-! ### The two threads -/

/-- A pointer the producer holds is at the fill mark of the chunk it writes. -/
def ProducerHolds (b : Buffer n) (g : Grant n) : Prop :=
  match g.pos with
  | none => g.size = 0
  | some p => p.chunk = b.widx ∧ p.off = (b.chunks b.widx).h ∧
      (b.chunks b.widx).filled = false ∧ g.size = chunkSize - (b.chunks b.widx).h

/-- A pointer the consumer holds is at the low mark of the chunk it reads. -/
def ConsumerHolds (b : Buffer n) (g : Grant n) : Prop :=
  match g.pos with
  | none => g.size = 0
  | some p => p.chunk = b.ridx ∧ p.off = (b.chunks b.ridx).l ∧
      (b.chunks b.ridx).filled = true ∧ g.size = (b.chunks b.ridx).h - (b.chunks b.ridx).l

/-- The invariant of every interleaving. -/
structure Consistent (s : System n) : Prop where
  ring : ∃ k, Ring s.buffer k
  flow : s.produced = s.consumed ++ contents s.buffer
  producer : ∀ g, s.producer = some g → ProducerHolds s.buffer g
  consumer : ∀ g, s.consumer = some g → ConsumerHolds s.buffer g
  taken : ∀ g bytes, s.consumer = some g → s.taken = some bytes →
    bytes = System.readable s.buffer g

/-- A full chunk and the open one at the other index are different chunks. -/
theorem ridx_ne_widx {b : Buffer n} (hr : (b.chunks b.ridx).filled = true)
    (hw : (b.chunks b.widx).filled = false) : b.ridx ≠ b.widx := by
  intro heq
  rw [heq, hw] at hr
  cases hr

/-- The consumer's pointer survives whatever leaves its chunk alone. -/
theorem ConsumerHolds.congr {b : Buffer n} {g : Grant n} (h : ConsumerHolds b g) (b' : Buffer n)
    (hridx : b'.ridx = b.ridx)
    (hchunk : (b.chunks b.ridx).filled = true → b'.chunks b.ridx = b.chunks b.ridx) :
    ConsumerHolds b' g ∧ System.readable b' g = System.readable b g := by
  cases hpos : g.pos with
  | none => simpa [ConsumerHolds, System.readable, hpos] using h
  | some p =>
    simp only [ConsumerHolds, System.readable, hpos] at h ⊢
    rw [hridx, h.1, hchunk h.2.2.1]
    exact ⟨⟨rfl, h.2⟩, rfl⟩

/-- The producer's pointer survives whatever leaves its chunk alone. -/
theorem ProducerHolds.congr {b : Buffer n} {g : Grant n} (h : ProducerHolds b g) (b' : Buffer n)
    (hwidx : b'.widx = b.widx)
    (hchunk : (b.chunks b.widx).filled = false → b'.chunks b.widx = b.chunks b.widx) :
    ProducerHolds b' g := by
  cases hpos : g.pos with
  | none => simpa [ProducerHolds, hpos] using h
  | some p =>
    simp only [ProducerHolds, hpos] at h ⊢
    rw [hwidx, hchunk h.2.2.1]
    exact h

theorem getWpos_holds (b : Buffer n) : ProducerHolds b ⟨b.getWpos.1, b.getWpos.2⟩ := by
  cases hf : (b.chunks b.widx).filled <;> simp [Buffer.getWpos, ProducerHolds, hf]

theorem getRpos_holds (b : Buffer n) : ConsumerHolds b ⟨b.getRpos.1, b.getRpos.2⟩ := by
  cases hf : (b.chunks b.ridx).filled <;> simp [Buffer.getRpos, ConsumerHolds, hf]

theorem start_consistent (memory : Buffer n) (hn : 0 < n) :
    Consistent (System.start memory hn) := by
  refine ⟨⟨0, Nat.zero_le _, (slot_zero _).symm, fun i hi => absurd hi (Nat.not_lt_zero i),
    fun i _ _ => ⟨rfl, rfl, empty_room⟩, fun i _ _ => rfl⟩, ?_,
    nofun, nofun, nofun⟩
  show ([] : List UInt8) = contents (memory.reset hn)
  exact (List.flatMap_eq_nil_iff.mpr fun i _ => slice_self _ _).symm

namespace System
variable {s t : System n}

theorem write_consistent (h : Consistent s) (bytes : List UInt8)
    (hstep : s.step (.write bytes) = some t) : Consistent t := by
  cases hp : s.producer with
  | none => simp [step, hp] at hstep
  | some g =>
    simp only [step, hp, Option.ite_none_right_eq_some] at hstep
    obtain ⟨_, hstep⟩ := hstep
    have hold := h.producer g hp
    cases hpos : g.pos with
    | none =>
      simp only [hpos, Option.some.injEq] at hstep
      exact hstep ▸ h
    | some p =>
      simp only [hpos, Option.some.injEq] at hstep
      simp only [ProducerHolds, hpos] at hold
      obtain ⟨hchunk, hoff, hopen, hsize⟩ := hold
      obtain ⟨k, hring⟩ := h.ring
      have hk := hring.write_open hopen
      have hwo := hring.room k (Nat.le_refl k) hk
      rw [← hring.widx] at hwo
      rw [hchunk] at hstep
      have hbytes : ((s.buffer.chunks s.buffer.widx).write p.off bytes).bytes =
          (s.buffer.chunks s.buffer.widx).bytes ++ [] := by
        rw [List.append_nil]
        exact Chunk.bytes_write _ _ _ (Nat.le_of_eq hoff.symm)
      have hheld := fun g' hg' => (h.consumer g' hg').congr (s.buffer.setChunk s.buffer.widx
          ((s.buffer.chunks s.buffer.widx).write p.off bytes)) rfl fun hr =>
        Function.update_of_ne (ridx_ne_widx hr hopen) _ _
      rw [← hstep]
      refine ⟨⟨k, hring.keep hk ⟨hwo.filled, hwo.low, hwo.room⟩⟩, ?_, ?_, ?_, ?_⟩
      · show s.produced = s.consumed ++ contents (s.buffer.setChunk s.buffer.widx _)
        rw [hring.contents_write hk [] hbytes, List.append_nil]
        exact h.flow
      · intro g' hg'
        cases hg'
        simp only [ProducerHolds, hpos, Buffer.setChunk, Function.update_self]
        exact ⟨hchunk, hoff, hopen, hsize⟩
      · intro g' hg'
        exact (hheld g' hg').1
      · intro g' taken hg' ht
        rw [h.taken g' taken hg' ht]
        exact (hheld g' hg').2.symm

theorem fill_consistent (h : Consistent s) (count : Nat)
    (hstep : s.step (.fill count) = some t) : Consistent t := by
  cases hp : s.producer with
  | none => simp [step, hp] at hstep
  | some g =>
    simp only [step, hp, Option.ite_none_right_eq_some, Option.map_eq_some_iff] at hstep
    obtain ⟨hcount, ⟨b, f⟩, hfill, rfl⟩ := hstep
    have hold := h.producer g hp
    obtain ⟨k, hring⟩ := h.ring
    have hopen : (s.buffer.chunks s.buffer.widx).filled = false := by
      cases hf : (s.buffer.chunks s.buffer.widx).filled
      · rfl
      · simp [Buffer.fill, hf] at hfill
    have hroom : count ≤ chunkSize - (s.buffer.chunks s.buffer.widx).h := by
      cases hpos : g.pos with
      | none =>
        simp only [ProducerHolds, hpos] at hold
        omega
      | some p =>
        simp only [ProducerHolds, hpos] at hold
        omega
    obtain ⟨b', f', k', hfill', hring', hcontents, hridx, hchunks⟩ :=
      fill_spec hring hopen hroom
    rw [hfill'] at hfill
    cases hfill
    -- The bytes reported are the ones that lie at the fill mark.
    have hread : (readable s.buffer g).take count = slice (s.buffer.chunks s.buffer.widx).data
        (s.buffer.chunks s.buffer.widx).h ((s.buffer.chunks s.buffer.widx).h + count) := by
      cases hpos : g.pos with
      | none =>
        simp only [ProducerHolds, hpos] at hold
        have : count = 0 := by omega
        simp [readable, hpos, this]
      | some p =>
        simp only [ProducerHolds, hpos] at hold
        simp only [readable, hpos, hold.1, hold.2.1]
        exact slice_take _ _ _ _ hcount
    refine ⟨⟨k', hring'⟩, ?_, nofun, ?_, ?_⟩
    · show s.produced ++ _ = s.consumed ++ contents b
      rw [hcontents, hread, h.flow, List.append_assoc]
    · intro g' hg'
      exact ((h.consumer g' hg').congr b hridx fun hr =>
        hchunks _ (ridx_ne_widx hr hopen)).1
    · intro g' taken hg' ht
      rw [h.taken g' taken hg' ht]
      exact (((h.consumer g' hg').congr b hridx fun hr =>
        hchunks _ (ridx_ne_widx hr hopen)).2).symm

theorem consume_consistent (h : Consistent s) (count : Nat)
    (hstep : s.step (.consume count) = some t) : Consistent t := by
  cases hc : s.consumer with
  | none => simp [step, hc] at hstep
  | some g =>
    cases ht : s.taken with
    | none => simp [step, hc, ht] at hstep
    | some bytes =>
      simp only [step, hc, ht, Option.ite_none_right_eq_some, Option.map_eq_some_iff] at hstep
      obtain ⟨hcount, b, hconsume, rfl⟩ := hstep
      have hold := h.consumer g hc
      obtain ⟨k, hring⟩ := h.ring
      have hfull : (s.buffer.chunks s.buffer.ridx).filled = true := by
        cases hf : (s.buffer.chunks s.buffer.ridx).filled
        · simp [Buffer.consume, hf] at hconsume
        · rfl
      have havail : count ≤
          (s.buffer.chunks s.buffer.ridx).h - (s.buffer.chunks s.buffer.ridx).l := by
        cases hpos : g.pos with
        | none =>
          simp only [ConsumerHolds, hpos] at hold
          omega
        | some p =>
          simp only [ConsumerHolds, hpos] at hold
          omega
      obtain ⟨b', k', hconsume', hring', hcontents, hwidx, hchunks⟩ :=
        consume_spec hring hfull havail
      rw [hconsume'] at hconsume
      cases hconsume
      -- The bytes the consumer read are still the ones at the low mark.
      have hread : bytes.take count = slice (s.buffer.chunks s.buffer.ridx).data
          (s.buffer.chunks s.buffer.ridx).l ((s.buffer.chunks s.buffer.ridx).l + count) := by
        rw [h.taken g bytes hc ht]
        cases hpos : g.pos with
        | none =>
          simp only [ConsumerHolds, hpos] at hold
          have : count = 0 := by omega
          simp [readable, hpos, this]
        | some p =>
          simp only [ConsumerHolds, hpos] at hold
          simp only [readable, hpos, hold.1, hold.2.1]
          exact slice_take _ _ _ _ hcount
      refine ⟨⟨k', hring'⟩, ?_, ?_, nofun, nofun⟩
      · show s.produced = (s.consumed ++ _) ++ contents b
        rw [hread, h.flow, hcontents, List.append_assoc]
      · intro g' hg'
        exact (h.producer g' hg').congr b hwidx fun hw =>
          hchunks _ (ridx_ne_widx hfull hw).symm

/-- One step of either thread keeps the invariant. -/
theorem step_consistent (s : System n) (e : Event) (t : System n) (h : Consistent s)
    (hstep : s.step e = some t) : Consistent t := by
  cases e with
  | getWpos =>
    simp only [step, Option.some.injEq] at hstep
    rw [← hstep]
    exact ⟨h.ring, h.flow, fun g hg => by cases hg; exact getWpos_holds _, h.consumer, h.taken⟩
  | write bytes => exact write_consistent h bytes hstep
  | fill count => exact fill_consistent h count hstep
  | getRpos =>
    simp only [step, Option.some.injEq] at hstep
    rw [← hstep]
    exact ⟨h.ring, h.flow, h.producer, fun g hg => by cases hg; exact getRpos_holds _,
      fun g bytes _ ht => by cases ht⟩
  | read =>
    cases hc : s.consumer with
    | none => simp [step, hc] at hstep
    | some g =>
      simp only [step, hc, Option.some.injEq] at hstep
      rw [← hstep]
      refine ⟨h.ring, h.flow, h.producer, fun g' hg' => h.consumer g' (hc.trans hg'), ?_⟩
      intro g' bytes hg' ht
      cases hg'
      cases ht
      rfl
  | consume count => exact consume_consistent h count hstep

end System

/-- **The playback buffer is a lossless FIFO.** In every interleaving of the two
threads: what has been consumed is a prefix of what has been filled; every chunk
keeps `l ≤ h ≤ CHUNK_SIZE`; an open chunk has at least 1024 bytes of room; the
filled chunks are the cyclic range of `k` chunks from the read index on, the write
index comes right after them, and `buffer_get_filled_chunks` returns `k`. -/
theorem buffer_fifo (memory : Buffer n) (hn : 0 < n) (history : List Event) (s : System n)
    (hrun : Runs.run System.step (System.start memory hn) history = some s) :
    s.consumed <+: s.produced ∧
      (∀ i, (s.buffer.chunks i).l ≤ (s.buffer.chunks i).h ∧ (s.buffer.chunks i).h ≤ chunkSize) ∧
      (∀ i, (s.buffer.chunks i).filled = false → (s.buffer.chunks i).h + 1024 ≤ chunkSize) ∧
      ∃ k ≤ n, s.buffer.widx = slot s.buffer.ridx k ∧
        (∀ i < n, (s.buffer.chunks (slot s.buffer.ridx i)).filled = true ↔ i < k) ∧
        s.buffer.getFilledChunks = k := by
  have h := Runs.run_preserves System.step_consistent _ s history
    (start_consistent memory hn) hrun
  obtain ⟨k, hring⟩ := h.ring
  refine ⟨⟨_, h.flow.symm⟩, fun i => ?_, fun i hi => ?_, k, hring.le, hring.widx,
    fun i hi => hring.full_iff hi, hring.getFilledChunks_eq⟩
  · obtain ⟨j, hj, rfl⟩ := slot_surj s.buffer.ridx i
    rcases Nat.lt_or_ge j k with hjk | hjk
    · have hfull := hring.full j hjk
      exact ⟨Nat.le_of_lt hfull.some, hfull.bound⟩
    · have hopen := hring.room j hjk hj
      have := hopen.room
      exact ⟨hopen.low ▸ Nat.zero_le _, by omega⟩
  · obtain ⟨j, hj, rfl⟩ := slot_surj s.buffer.ridx i
    rcases Nat.lt_or_ge j k with hjk | hjk
    · rw [(hring.full j hjk).filled] at hi
      cases hi
    · exact (hring.room j hjk hj).room

/-- One chunk: two bytes are written and filled, the chunk is closed with an empty
fill, and the consumer takes one of them. -/
def oneChunkHistory : List Event :=
  [.getWpos, .write [7, 9], .fill 2, .getWpos, .fill 0, .getRpos, .read, .consume 1]

def oneChunk : Buffer 1 := ⟨fun _ => ⟨fun _ => 0, 0, 0, false⟩, 0, 0⟩

theorem buffer_fifo_one_chunk :
    ∃ s, Runs.run System.step (System.start oneChunk Nat.one_pos) oneChunkHistory = some s ∧
      s.produced = [7, 9] ∧ s.consumed = [7] ∧ s.consumed <+: s.produced :=
  ⟨_, rfl, rfl, rfl, (buffer_fifo oneChunk Nat.one_pos oneChunkHistory _ rfl).1⟩

/-- A thread that was granted room does not run into `BUG_ON(c->filled)`. -/
theorem fill_defined {s : System n} (h : Consistent s) {g : Grant n} (hg : s.producer = some g)
    (hsome : g.size ≠ 0) {count : Nat} (hcount : count ≤ g.size) :
    (s.step (.fill count)).isSome := by
  have hold := h.producer g hg
  cases hpos : g.pos with
  | none =>
    simp only [ProducerHolds, hpos] at hold
    exact absurd hold hsome
  | some p =>
    simp only [ProducerHolds, hpos] at hold
    obtain ⟨k, hring⟩ := h.ring
    obtain ⟨b, f, k', hfill, _⟩ :=
      fill_spec hring hold.2.2.1 (show count ≤ _ from hold.2.2.2 ▸ hcount)
    simp [System.step, hg, hcount, hfill]

/-- A thread that was granted bytes does not run into `BUG_ON(!c->filled)`. -/
theorem consume_defined {s : System n} (h : Consistent s) {g : Grant n} {bytes : List UInt8}
    (hg : s.consumer = some g) (ht : s.taken = some bytes) (hsome : g.size ≠ 0) {count : Nat}
    (hcount : count ≤ g.size) : (s.step (.consume count)).isSome := by
  have hold := h.consumer g hg
  cases hpos : g.pos with
  | none =>
    simp only [ConsumerHolds, hpos] at hold
    exact absurd hold hsome
  | some p =>
    simp only [ConsumerHolds, hpos] at hold
    obtain ⟨k, hring⟩ := h.ring
    obtain ⟨b, k', hconsume, _⟩ :=
      consume_spec hring hold.2.2.1 (show count ≤ _ from hold.2.2.2 ▸ hcount)
    simp [System.step, hg, ht, hcount, hconsume]

end GracefulMusic.Playback
