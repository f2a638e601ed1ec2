import GracefulMusic.Text

/-! The frame scanner of the AAC plugin (`aac.c`).

The plugin keeps a window of the stream in `rBuf` and scans it for a frame header,
refilling it when fewer than six bytes are left. What the reads deliver is a parameter:
each lets the caller have at least one byte until the stream ends, and no more than it
asked for. The scanner is a function of the stream alone: where it stops, what it returns
and which bytes it takes for a header do not depend on how the reads cut it. -/
namespace GracefulMusic.Aac

/-- `FAAD_MIN_STREAMSIZE * 6 * 4`. -/
def bufferSize : Nat := 768 * 6 * 4

/-- The bytes not read yet, and how many bytes more than one each read has. -/
structure Source where
  rest : Text
  reads : Nat → Nat

def Source.read (s : Source) (count : Nat) : Text × Source :=
  let size := min (s.reads 0 + 1) count
  (s.rest.take size, ⟨s.rest.drop size, fun i => s.reads (i + 1)⟩)

/-- `rBuf` is the part of the buffer before `rBufLen`. -/
structure AacPrivate where
  rBuf : Text
  rBufPos : Nat
  len_le : rBuf.length ≤ bufferSize
  pos_le : rBufPos ≤ rBuf.length

structure InputPluginData where
  priv : AacPrivate
  source : Source

namespace InputPluginData

def bufferLength (ip : InputPluginData) : Nat := ip.priv.rBuf.length - ip.priv.rBufPos

def bufferData (ip : InputPluginData) : Text := ip.priv.rBuf.drop ip.priv.rBufPos

/-- What the plugin has not consumed yet. -/
def stream (ip : InputPluginData) : Text := ip.bufferData ++ ip.source.rest

end InputPluginData

/-- The move to the front of the buffer. -/
def AacPrivate.moved (p : AacPrivate) : AacPrivate :=
  if p.rBufPos > 0 then
    ⟨p.rBuf.drop p.rBufPos, 0, le_trans (by simp) p.len_le, Nat.zero_le _⟩
  else p

theorem AacPrivate.moved_pos (p : AacPrivate) : p.moved.rBufPos = 0 := by
  unfold moved
  split
  · rfl
  · omega

theorem AacPrivate.moved_rBuf (p : AacPrivate) : p.moved.rBuf = p.rBuf.drop p.rBufPos := by
  unfold moved
  split
  · rfl
  · next h => rw [Nat.eq_zero_of_not_pos h, List.drop_zero]

theorem Source.length_read (s : Source) (count : Nat) : (s.read count).1.length ≤ count := by
  rw [Source.read, List.length_take]
  omega

theorem Source.read_append (s : Source) (count : Nat) :
    (s.read count).1 ++ (s.read count).2.rest = s.rest :=
  List.take_append_drop _ _

theorem Source.read_eq_nil {s : Source} {count : Nat} (hcount : 0 < count)
    (h : (s.read count).1 = []) : s.rest = [] := by
  rw [Source.read, List.take_eq_nil_iff] at h
  exact h.resolve_left (by omega)

def bufferFill (ip : InputPluginData) : Int × InputPluginData :=
  let p := ip.priv.moved
  if p.rBuf.length = bufferSize then (1, ⟨p, ip.source⟩)
  else
    match h : (ip.source.read (bufferSize - p.rBuf.length)).1 with
    | [] => (0, ⟨p, (ip.source.read (bufferSize - p.rBuf.length)).2⟩)
    | byte :: data =>
      (1, ⟨⟨p.rBuf ++ byte :: data, p.rBufPos,
        by
          have hread := ip.source.length_read (bufferSize - p.rBuf.length)
          have hlen := p.len_le
          rw [h] at hread
          rw [List.length_append]
          omega,
        by
          have hpos := p.pos_le
          rw [List.length_append]
          omega⟩,
        (ip.source.read (bufferSize - p.rBuf.length)).2⟩)

/-- `none` is `BUG_ON(n > buffer_length(ip_data))`. -/
def bufferConsume (ip : InputPluginData) (n : Nat) : Option InputPluginData :=
  if h : n > ip.bufferLength then none
  else some ⟨⟨ip.priv.rBuf, ip.priv.rBufPos + n, ip.priv.len_le, by
    have := ip.priv.pos_le
    rw [InputPluginData.bufferLength] at h
    omega⟩, ip.source⟩

/-- The loop of `buffer_fill_min`; every round reads. -/
def bufferFillMinLoop (len : Nat) : Nat → InputPluginData → Option (Int × InputPluginData)
  | 0, _ => none
  | fuel + 1, ip =>
    if ip.bufferLength < len then
      let (rc, ip) := bufferFill ip
      if rc ≤ 0 then some (rc, ip) else bufferFillMinLoop len fuel ip
    else some (1, ip)

/-- `none` is `BUG_ON(len > BUFFER_SIZE)`. -/
def bufferFillMin (ip : InputPluginData) (len : Nat) : Option (Int × InputPluginData) :=
  if len > bufferSize then none else bufferFillMinLoop len (ip.source.rest.length + 2) ip

/-- `data` is six bytes; zero where they are no frame header. -/
def parseFrame (data : Text) : Nat :=
  let byte (i : Nat) : Nat := (data.getD i 0).toNat
  -- first 12 bits must be set
  if byte 0 ≠ 0xFF then 0
  else if byte 1 &&& 0xF0 ≠ 0xF0 then 0
  -- layer is always '00'
  else if byte 1 &&& 0x06 ≠ 0x00 then 0
  -- frame length is stored in 13 bits
  else (byte 3 <<< 11 ||| byte 4 <<< 3 ||| byte 5 >>> 5) &&& 0x1FFF

/-- How a scan of the buffered bytes ended: at a frame of a length, after too many
locations, or at the last five bytes. -/
inductive Stop where
  | frame (rc : Nat)
  | gaveUp
  | scanned
  deriving DecidableEq

/-- A scan: `n` locations were passed, `max` are left, and these are the bytes
`parse_frame` was called with. -/
structure Scan where
  stop : Stop
  n : Nat
  max : Nat
  tried : List Text
  deriving DecidableEq

/-- One location passed. -/
def Scan.after (s : Scan) (window : Text) : Scan := ⟨s.stop, s.n + 1, s.max, window :: s.tried⟩

/-- The `for` loop over the buffered bytes. -/
def scan : Text → Nat → Scan
  | [], max => ⟨.scanned, 0, max, []⟩
  | c :: data, max =>
    if (c :: data).length ≤ 5 then ⟨.scanned, 0, max, []⟩
    else if max = 0 then ⟨.gaveUp, 0, 0, []⟩
    else
      let window := (c :: data).take 6
      match parseFrame window with
      | 0 => (scan data (max - 1)).after window
      | rc => ⟨.frame rc, 0, max - 1, [window]⟩

/-- What `buffer_fill_frame` returns, with the bytes it called `parse_frame` with. -/
structure Result where
  rc : Int
  ip : InputPluginData
  tried : List Text

/-- The outer loop; every round tries a location. -/
def bufferFillFrameLoop : Nat → Nat → InputPluginData → List Text → Option Result
  | 0, _, _, _ => none
  | fuel + 1, max, ip, tried => do
    -- need at least 6 bytes of data
    let (rc, ip) ← bufferFillMin ip 6
    if rc ≤ 0 then some ⟨rc, ip, tried⟩
    else
      let s := scan ip.bufferData max
      match s.stop with
      | .gaveUp => some ⟨-1, ip, tried ++ s.tried⟩
      | .frame len =>
        -- found a frame, consume all data up to the frame
        let ip ← bufferConsume ip s.n
        let (rc, ip) ← bufferFillMin ip len
        if rc ≤ 0 then some ⟨rc, ip, tried ++ s.tried⟩ else some ⟨1, ip, tried ++ s.tried⟩
      | .scanned =>
        -- consume what we used
        let ip ← bufferConsume ip s.n
        bufferFillFrameLoop fuel s.max ip (tried ++ s.tried)

/-- Give up after 32KB. -/
def maxLocations : Nat := 32768

def bufferFillFrame (ip : InputPluginData) : Option Result :=
  bufferFillFrameLoop (maxLocations + 1) maxLocations ip []


/-! ### What a scan and a refill do -/

/-- What `parse_frame` says at an offset of a stream. -/
def announced (stream : Text) (i : Nat) : Nat := parseFrame ((stream.drop i).take 6)

/-- The bytes `parse_frame` is called with at the first `n` offsets, in order. -/
def windows (stream : Text) (n : Nat) : List Text :=
  (List.range n).map fun i => (stream.drop i).take 6

/-- `parse_frame` accepts none of the first `n` offsets. -/
def Clear (stream : Text) (n : Nat) : Prop := ∀ j < n, announced stream j = 0

theorem parseFrame_le (data : Text) : parseFrame data ≤ 8191 := by
  unfold parseFrame
  dsimp only
  split_ifs
  · exact Nat.zero_le _
  · exact Nat.zero_le _
  · exact Nat.zero_le _
  · exact Nat.and_le_right

theorem announced_cons (c : UInt8) (data : Text) (n : Nat) :
    announced (c :: data) (n + 1) = announced data n := rfl

theorem announced_drop (stream : Text) (k n : Nat) :
    announced (stream.drop k) n = announced stream (k + n) := by
  rw [announced, List.drop_drop, announced]

theorem windows_cons (c : UInt8) (data : Text) (n : Nat) :
    windows (c :: data) (n + 1) = (c :: data).take 6 :: windows data n := by
  rw [windows, List.range_succ_eq_map, List.map_cons, List.map_map]
  rfl

theorem windows_add (stream : Text) (k n : Nat) :
    windows stream (k + n) = windows stream k ++ windows (stream.drop k) n := by
  rw [windows, List.range_add, List.map_append, List.map_map]
  simp [windows, Function.comp_def]

/-- Six bytes of the first part are six bytes of the whole. -/
theorem take_drop_append {data rest : Text} {j : Nat} (h : j + 6 ≤ data.length) :
    ((data ++ rest).drop j).take 6 = (data.drop j).take 6 := by
  rw [List.drop_append_of_le_length (by omega), List.take_append_of_le_length (by simp; omega)]

theorem announced_append {data rest : Text} {j : Nat} (h : j + 6 ≤ data.length) :
    announced (data ++ rest) j = announced data j := by
  rw [announced, take_drop_append h, announced]

theorem windows_append {data rest : Text} {n : Nat} (h : n + 5 ≤ data.length ∨ n = 0) :
    windows (data ++ rest) n = windows data n := by
  apply List.map_congr_left
  intro j hj
  rw [List.mem_range] at hj
  exact take_drop_append (by omega)

theorem clear_zero (stream : Text) : Clear stream 0 := by
  intro j hj
  omega

theorem Clear.cons {c : UInt8} {data : Text} {n : Nat} (hc : announced (c :: data) 0 = 0)
    (h : Clear data n) : Clear (c :: data) (n + 1) := by
  intro j hj
  cases j with
  | zero => exact hc
  | succ j => exact h j (by omega)

theorem Clear.add {stream : Text} {k n : Nat} (hk : Clear stream k)
    (hn : Clear (stream.drop k) n) : Clear stream (k + n) := by
  intro j hj
  by_cases hlt : j < k
  · exact hk j hlt
  · have := hn (j - k) (by omega)
    rwa [announced_drop, show k + (j - k) = j by omega] at this

theorem Clear.append {data : Text} {n : Nat} (h : Clear data n) (rest : Text)
    (hlen : n + 5 ≤ data.length ∨ n = 0) : Clear (data ++ rest) n := by
  intro j hj
  rw [announced_append (by omega)]
  exact h j hj

/-- A scan of `data` passes every location before the first header, or all it may. -/
inductive Scanned (data : Text) (max : Nat) : Scan → Prop
  | frame {n : Nat} (hn : n + 6 ≤ data.length) (hmax : n < max) (hclear : Clear data n)
      (hrc : announced data n ≠ 0) :
      Scanned data max ⟨.frame (announced data n), n, max - (n + 1), windows data (n + 1)⟩
  | gaveUp (hlen : max + 6 ≤ data.length) (hclear : Clear data max) :
      Scanned data max ⟨.gaveUp, max, 0, windows data max⟩
  | scanned {n : Nat} (hn : n = data.length - 5) (hmax : n ≤ max) (hclear : Clear data n) :
      Scanned data max ⟨.scanned, n, max - n, windows data n⟩

/-- A location without a header in front of a scan. -/
theorem Scanned.cons {c : UInt8} {data : Text} {max : Nat} {s : Scan} (h : Scanned data (max - 1) s)
    (hmax : max ≠ 0) (hlen : 5 < (c :: data).length) (hc : announced (c :: data) 0 = 0) :
    Scanned (c :: data) max (s.after ((c :: data).take 6)) := by
  rw [List.length_cons] at hlen
  cases h with
  | @frame n hn hlt hclear hrc =>
    rw [Scan.after, ← windows_cons, show max - 1 - (n + 1) = max - (n + 1 + 1) by omega,
      ← announced_cons c]
    exact .frame (by rw [List.length_cons]; omega) (by omega) (hclear.cons hc) hrc
  | gaveUp hroom hclear =>
    rw [Scan.after, ← windows_cons]
    simp only [show max - 1 + 1 = max by omega]
    refine .gaveUp (by rw [List.length_cons]; omega) ?_
    have := hclear.cons hc
    rwa [show max - 1 + 1 = max by omega] at this
  | @scanned n hn hle hclear =>
    rw [Scan.after, ← windows_cons]
    simp only [show max - 1 - n = max - (n + 1) by omega]
    exact .scanned (by rw [List.length_cons]; omega) (by omega) (hclear.cons hc)

theorem scan_spec (data : Text) (max : Nat) : Scanned data max (scan data max) := by
  induction data generalizing max with
  | nil => exact .scanned rfl (Nat.zero_le _) (clear_zero _)
  | cons c data ih =>
    rw [scan]
    by_cases hshort : (c :: data).length ≤ 5
    · rw [if_pos hshort]
      show Scanned (c :: data) max ⟨.scanned, 0, max - 0, windows (c :: data) 0⟩
      exact .scanned (by omega) (Nat.zero_le _) (clear_zero _)
    rw [if_neg hshort]
    by_cases hmax : max = 0
    · rw [if_pos hmax]
      subst hmax
      exact .gaveUp (by omega) (clear_zero _)
    rw [if_neg hmax]
    dsimp only
    by_cases hc : parseFrame ((c :: data).take 6) = 0
    · rw [hc]
      exact (ih (max - 1)).cons hmax (by omega) hc
    · have hframe : Scanned (c :: data) max ⟨.frame (announced (c :: data) 0), 0, max - (0 + 1),
          windows (c :: data) (0 + 1)⟩ :=
        .frame (by omega) (by omega) (clear_zero _) hc
      split
      · contradiction
      · exact hframe

theorem InputPluginData.bufferLength_eq (ip : InputPluginData) :
    ip.bufferLength = ip.bufferData.length := by
  rw [bufferLength, bufferData, List.length_drop]

theorem InputPluginData.length_stream (ip : InputPluginData) :
    ip.stream.length = ip.bufferLength + ip.source.rest.length := by
  rw [stream, List.length_append, bufferLength_eq]

/-- A refill of a buffer that is not full loses nothing, and reads something unless the
stream is at its end. -/
theorem bufferFill_spec (ip : InputPluginData) (hroom : ip.bufferLength < bufferSize) :
    (bufferFill ip).2.stream = ip.stream ∧
      ((bufferFill ip).1 = 1 ∧ (bufferFill ip).2.source.rest.length < ip.source.rest.length ∨
        (bufferFill ip).1 = 0 ∧ ip.source.rest = []) := by
  have hlen : ip.priv.moved.rBuf.length = ip.bufferLength := by
    rw [AacPrivate.moved_rBuf, ← InputPluginData.bufferData, ← InputPluginData.bufferLength_eq]
  have hdata : ip.priv.moved.rBuf.drop ip.priv.moved.rBufPos = ip.bufferData := by
    rw [AacPrivate.moved_pos, AacPrivate.moved_rBuf, List.drop_zero, InputPluginData.bufferData]
  have hread := ip.source.read_append (bufferSize - ip.priv.moved.rBuf.length)
  unfold bufferFill
  dsimp only
  rw [if_neg (by omega)]
  split
  · next h =>
    have hend := Source.read_eq_nil (by omega) h
    rw [h, List.nil_append, hend] at hread
    refine ⟨?_, .inr ⟨rfl, hend⟩⟩
    rw [InputPluginData.stream, InputPluginData.bufferData, hdata, hread, InputPluginData.stream,
      hend]
  · next byte data h =>
    rw [h] at hread
    refine ⟨?_, .inl ⟨rfl, ?_⟩⟩
    · show (ip.priv.moved.rBuf ++ byte :: data).drop ip.priv.moved.rBufPos ++ _ = ip.stream
      rw [List.drop_append_of_le_length ip.priv.moved.pos_le, hdata, List.append_assoc]
      exact congrArg _ hread
    · show (ip.source.read _).2.rest.length < _
      rw [← hread, List.length_append, List.length_cons]
      omega

/-- Either there are `len` bytes in the buffer now, or the stream has no more than fewer. -/
inductive Filled (ip : InputPluginData) (len : Nat) : Int × InputPluginData → Prop
  | enough {ip' : InputPluginData} (hstream : ip'.stream = ip.stream)
      (hlen : len ≤ ip'.bufferLength) :
      Filled ip len (1, ip')
  | ended {ip' : InputPluginData} (hstream : ip'.stream = ip.stream)
      (hend : ip.stream.length < len) :
      Filled ip len (0, ip')

theorem bufferFillMinLoop_spec {len : Nat} (hlen : len ≤ bufferSize) (fuel : Nat)
    (ip : InputPluginData) (hfuel : ip.source.rest.length < fuel) :
    ∃ r, bufferFillMinLoop len fuel ip = some r ∧ Filled ip len r := by
  induction fuel generalizing ip with
  | zero => omega
  | succ fuel ih =>
    rw [bufferFillMinLoop]
    by_cases hshort : ip.bufferLength < len
    · rw [if_pos hshort]
      obtain ⟨hstream, ⟨hrc, hrest⟩ | ⟨hrc, hend⟩⟩ := bufferFill_spec ip (by omega)
      · dsimp only
        rw [hrc, if_neg (by decide)]
        obtain ⟨r, hr, hfilled⟩ := ih (bufferFill ip).2 (by omega)
        refine ⟨r, hr, ?_⟩
        cases hfilled with
        | enough h hle => exact .enough (h.trans hstream) hle
        | ended h hlt => exact .ended (h.trans hstream) (by rwa [hstream] at hlt)
      · dsimp only
        rw [hrc, if_pos (le_refl _)]
        refine ⟨_, rfl, .ended hstream ?_⟩
        rw [InputPluginData.length_stream, hend]
        exact hshort
    · rw [if_neg hshort]
      exact ⟨_, rfl, .enough rfl (by omega)⟩

theorem bufferFillMin_spec (ip : InputPluginData) {len : Nat} (hlen : len ≤ bufferSize) :
    ∃ r, bufferFillMin ip len = some r ∧ Filled ip len r := by
  rw [bufferFillMin, if_neg (by omega)]
  exact bufferFillMinLoop_spec hlen _ ip (by omega)

theorem bufferConsume_spec (ip : InputPluginData) {n : Nat} (hn : n ≤ ip.bufferLength) :
    ∃ ip', bufferConsume ip n = some ip' ∧ ip'.stream = ip.stream.drop n := by
  rw [bufferConsume, dif_neg (by omega)]
  refine ⟨_, rfl, ?_⟩
  rw [InputPluginData.stream, InputPluginData.bufferData, ← List.drop_drop, InputPluginData.stream,
    List.drop_append_of_le_length (by rwa [← InputPluginData.bufferLength_eq]),
      InputPluginData.bufferData]

/-! ### The scanner -/

/-- `parse_frame` accepts the six bytes at an offset. -/
def HeaderAt (stream : Text) (i : Nat) : Prop := i + 6 ≤ stream.length ∧ announced stream i ≠ 0

def FirstHeader (stream : Text) (i : Nat) : Prop :=
  HeaderAt stream i ∧ ∀ j < i, ¬ HeaderAt stream j

/-- What the scanner does on a stream: it finds the first header among the locations it
may try and has the whole frame buffered, or the stream ends within the frame; or there is
no header where it may look. -/
inductive Outcome (stream : Text) (r : Result) : Prop
  | found {i : Nat} (first : FirstHeader stream i) (near : i < maxLocations) (rc : r.rc = 1)
      (tried : r.tried = windows stream (i + 1)) (position : r.ip.stream = stream.drop i)
      (whole : announced stream i ≤ r.ip.bufferLength)
  | cut {i : Nat} (first : FirstHeader stream i) (near : i < maxLocations) (rc : r.rc = 0)
      (tried : r.tried = windows stream (i + 1)) (position : r.ip.stream = stream.drop i)
      (short : stream.length < i + announced stream i)
  | gaveUp {k : Nat} (none : ∀ j < maxLocations, ¬ HeaderAt stream j)
      (long : maxLocations + 6 ≤ stream.length) (rc : r.rc = -1)
      (tried : r.tried = windows stream maxLocations) (hk : k ≤ maxLocations)
      (position : r.ip.stream = stream.drop k)
  | ended (none : ∀ j, ¬ HeaderAt stream j) (short : stream.length < maxLocations + 6)
      (rc : r.rc = 0) (tried : r.tried = windows stream (stream.length - 5))
      (position : r.ip.stream = stream.drop (stream.length - 5))

theorem Clear.not_header {stream : Text} {n j : Nat} (h : Clear stream n) (hj : j < n) :
    ¬ HeaderAt stream j :=
  fun hheader => hheader.2 (h j hj)

theorem bufferFillFrameLoop_spec (stream : Text) (fuel k : Nat) (ip : InputPluginData)
    (hfuel : maxLocations < fuel + k) (hk : k ≤ maxLocations) (hlen : k ≤ stream.length - 5)
    (hclear : Clear stream k) (hstream : ip.stream = stream.drop k) :
    ∃ r, bufferFillFrameLoop fuel (maxLocations - k) ip (windows stream k) = some r ∧
      Outcome stream r := by
  induction fuel generalizing k ip with
  | zero => omega
  | succ fuel ih =>
    rw [bufferFillFrameLoop]
    obtain ⟨_, hfill, hfilled⟩ := bufferFillMin_spec ip (show 6 ≤ bufferSize by decide)
    rw [hfill, Option.bind_eq_bind, Option.bind_some]
    cases hfilled with
    | @ended ip' hsame hshort =>
      rw [hstream, List.length_drop] at hshort
      have hkend : k = stream.length - 5 := by omega
      refine ⟨_, rfl, .ended ?_ (by omega) rfl (by rw [hkend]) (by rw [hsame, hstream, hkend])⟩
      intro j hj
      exact hclear.not_header (by have := hj.1; omega) hj
    | @enough ip' hsame hsix =>
      dsimp only
      rw [if_neg (by decide)]
      have hstream' : ip'.bufferData ++ ip'.source.rest = stream.drop k := by
        rw [← InputPluginData.stream, hsame, hstream]
      have hroom : ip'.bufferLength + ip'.source.rest.length = stream.length - k := by
        rw [← InputPluginData.length_stream, hsame, hstream, List.length_drop]
      rw [InputPluginData.bufferLength_eq] at hsix hroom
      -- what was scanned is a part of the stream
      have hwindows : ∀ n, n + 5 ≤ ip'.bufferData.length →
          windows stream k ++ windows ip'.bufferData n = windows stream (k + n) := by
        intro n hn
        rw [windows_add, ← hstream', windows_append (.inl hn)]
      have hclears : ∀ n, n + 5 ≤ ip'.bufferData.length → Clear ip'.bufferData n →
          Clear stream (k + n) := by
        intro n hn h
        refine hclear.add ?_
        rw [← hstream']
        exact h.append _ (.inl hn)
      have hscan := scan_spec ip'.bufferData (maxLocations - k)
      generalize scan ip'.bufferData (maxLocations - k) = s at hscan
      cases hscan with
      | @frame n hn hmax hnone hrc =>
        dsimp only
        have hannounced : announced ip'.bufferData n = announced stream (k + n) := by
          rw [← announced_drop, ← hstream', announced_append hn]
        have hfirst : FirstHeader stream (k + n) :=
          ⟨⟨by omega, by rwa [← hannounced]⟩,
            fun j hj => (hclears n (by omega) hnone).not_header hj⟩
        obtain ⟨ip₁, hconsume, hstream₁⟩ := bufferConsume_spec ip' (n := n)
          (by rw [InputPluginData.bufferLength_eq]; omega)
        have hposition : ip₁.stream = stream.drop (k + n) := by
          rw [hstream₁, hsame, hstream, List.drop_drop]
        have hsize : announced ip'.bufferData n ≤ bufferSize :=
          le_trans (parseFrame_le _) (by decide)
        obtain ⟨_, hfill₂, hfilled₂⟩ := bufferFillMin_spec ip₁ hsize
        simp only [hconsume, hfill₂, hwindows (n + 1) (by omega), Option.bind_eq_bind,
          Option.bind_some]
        cases hfilled₂ with
        | @enough ip₂ hsame₂ hwhole =>
          exact ⟨_, rfl, .found hfirst (by omega) rfl rfl (hsame₂.trans hposition)
            (by rwa [← hannounced])⟩
        | @ended ip₂ hsame₂ hshort =>
          refine ⟨_, rfl, .cut hfirst (by omega) rfl rfl (hsame₂.trans hposition) ?_⟩
          rw [hposition, List.length_drop, hannounced] at hshort
          omega
      | gaveUp hlong hnone =>
        dsimp only
        have hsum : k + (maxLocations - k) = maxLocations := by omega
        have hall := hclears _ (by omega) hnone
        rw [hsum] at hall
        rw [hwindows _ (by omega), hsum]
        refine ⟨_, rfl, ?_⟩
        exact .gaveUp (fun j hj => hall.not_header hj) (by omega) rfl (by dsimp only) hk
          (hsame.trans hstream)
      | @scanned n hn hmax hnone =>
        dsimp only
        obtain ⟨ip₁, hconsume, hstream₁⟩ := bufferConsume_spec ip' (n := n)
          (by rw [InputPluginData.bufferLength_eq]; omega)
        simp only [hconsume, hwindows n (by omega), Option.bind_eq_bind, Option.bind_some,
          show maxLocations - k - n = maxLocations - (k + n) by omega]
        exact ih (k + n) ip₁ (by omega) (by omega) (by omega) (hclears n (by omega) hnone)
          (by rw [hstream₁, hsame, hstream, List.drop_drop])

theorem bufferFillFrame_spec (ip : InputPluginData) :
    ∃ r, bufferFillFrame ip = some r ∧ Outcome ip.stream r :=
  bufferFillFrameLoop_spec ip.stream (maxLocations + 1) 0 ip (by omega) (Nat.zero_le _)
    (Nat.zero_le _) (clear_zero _) rfl

theorem FirstHeader.unique {stream : Text} {i j : Nat} (hi : FirstHeader stream i)
    (hj : FirstHeader stream j) : i = j := by
  rcases Nat.lt_trichotomy i j with hlt | heq | hlt
  · exact absurd hi.1 (hj.2 i hlt)
  · exact heq
  · exact absurd hj.1 (hi.2 j hlt)

/-- What an outcome says of the answer, with a header in reach. -/
theorem Outcome.of_header {stream : Text} {r : Result} {i : Nat} (h : Outcome stream r)
    (hi : FirstHeader stream i) (near : i < maxLocations) :
    r.rc = (if i + announced stream i ≤ stream.length then 1 else 0) ∧
      r.tried = windows stream (i + 1) ∧ r.ip.stream = stream.drop i := by
  cases h with
  | found first _ rc tried position whole =>
    rw [first.unique hi] at tried position whole
    have hlength := congrArg List.length position
    rw [InputPluginData.length_stream, List.length_drop] at hlength
    rw [if_pos (by have := hi.1.1; omega)]
    exact ⟨rc, tried, position⟩
  | cut first _ rc tried position short =>
    rw [first.unique hi] at tried position short
    rw [if_neg (by omega)]
    exact ⟨rc, tried, position⟩
  | gaveUp none => exact absurd hi.1 (none i near)
  | ended none => exact absurd hi.1 (none i)

/-- What an outcome says of the answer, with no header in reach. -/
theorem Outcome.of_none {stream : Text} {r : Result} (h : Outcome stream r)
    (hnone : ∀ j < maxLocations, ¬ HeaderAt stream j) :
    r.rc = (if maxLocations + 6 ≤ stream.length then -1 else 0) ∧
      r.tried = windows stream (min maxLocations (stream.length - 5)) := by
  cases h with
  | found first near => exact absurd first.1 (hnone _ near)
  | cut first near => exact absurd first.1 (hnone _ near)
  | gaveUp _ long rc tried =>
    rw [if_pos long, min_eq_left (by omega)]
    exact ⟨rc, tried⟩
  | ended _ short rc tried =>
    rw [if_neg (by omega), min_eq_right (by omega)]
    exact ⟨rc, tried⟩

/-- The outcome is the stream's alone. -/
theorem Outcome.same {stream : Text} {r r' : Result} (h : Outcome stream r)
    (h' : Outcome stream r') :
    r.rc = r'.rc ∧ r.tried = r'.tried ∧ (r.rc = 1 → r.ip.stream = r'.ip.stream) := by
  by_cases hheader : ∃ i, FirstHeader stream i ∧ i < maxLocations
  · obtain ⟨i, hi, near⟩ := hheader
    obtain ⟨hrc, htried, hposition⟩ := h.of_header hi near
    obtain ⟨hrc', htried', hposition'⟩ := h'.of_header hi near
    exact ⟨hrc.trans hrc'.symm, htried.trans htried'.symm, fun _ => hposition.trans hposition'.symm⟩
  · have hnone : ∀ j < maxLocations, ¬ HeaderAt stream j := by
      intro j
      induction j using Nat.strong_induction_on with
      | _ j ih =>
        intro hj hhere
        exact hheader ⟨j, ⟨hhere, fun k hk => ih k hk (hk.trans hj)⟩, hj⟩
    obtain ⟨hrc, htried⟩ := h.of_none hnone
    obtain ⟨hrc', htried'⟩ := h'.of_none hnone
    refine ⟨hrc.trans hrc'.symm, htried.trans htried'.symm, ?_⟩
    intro hone
    rw [hrc] at hone
    split at hone
    · exact absurd hone (by decide)
    · exact absurd hone (by decide)

/-- For two states with the same stream before them, however it is split between what is
buffered and what each read will have: the scanner returns, reaching no `BUG_ON`, with the
outcome the stream has, and `parse_frame` was called with the same bytes. -/
theorem buffer_fill_frame_finds (a b : InputPluginData) (h : a.stream = b.stream) :
    ∃ ra rb, bufferFillFrame a = some ra ∧ bufferFillFrame b = some rb ∧
      Outcome a.stream ra ∧ Outcome a.stream rb ∧ ra.rc = rb.rc ∧ ra.tried = rb.tried ∧
      (ra.rc = 1 → ra.ip.stream = rb.ip.stream) := by
  obtain ⟨ra, hra, ha⟩ := bufferFillFrame_spec a
  obtain ⟨rb, hrb, hb⟩ := bufferFillFrame_spec b
  rw [← h] at hb
  exact ⟨ra, rb, hra, hrb, ha, hb, ha.same hb⟩

/-- Nine bytes, of which the last seven are a frame. -/
def shortStream : Text := [1, 255, 255, 241, 80, 128, 0, 255, 252]

theorem buffer_fill_frame_finds_short :
    ∃ ra rb, bufferFillFrame ⟨⟨[], 0, by decide, le_refl _⟩, ⟨shortStream, fun _ => 0⟩⟩ = some ra ∧
      bufferFillFrame ⟨⟨shortStream, 0, by decide, by decide⟩, ⟨[], fun _ => 0⟩⟩ = some rb ∧
      Outcome shortStream ra ∧ Outcome shortStream rb ∧ ra.rc = rb.rc ∧ ra.tried = rb.tried ∧
      (ra.rc = 1 → ra.ip.stream = rb.ip.stream) :=
  buffer_fill_frame_finds ⟨⟨[], 0, by decide, le_refl _⟩, ⟨shortStream, fun _ => 0⟩⟩
    ⟨⟨shortStream, 0, by decide, by decide⟩, ⟨[], fun _ => 0⟩⟩ (by decide)

end GracefulMusic.Aac
