import GracefulMusic.Text
import GracefulMusic.Foundation.Runs

/-! Streams with metadata in between (`read_wrapper.c`, `file.c`).

A server sends `metaint` bytes of audio, the length of a block of metadata, the block,
and so on. The wrapper takes the blocks out. What the system does at each `read` is given
beforehand: an error, or a bound on the bytes that are there. A call that has no outcome
left has not returned, and is `none`. A count is the size of a buffer, so adding to it
does not wrap around. -/
namespace GracefulMusic.Stream

inductive Errno where
  | eintr | eagain | other
  deriving DecidableEq

/-- `.ok n` lets a `read` have up to `n + 1` bytes. -/
structure Fd where
  stream : Text
  outcomes : List (Except Errno Nat)

def Fd.read (fd : Fd) (count : Nat) : Option (Except Errno Text × Fd) :=
  match fd.outcomes with
  | [] => none
  | .error e :: outcomes => some (.error e, {fd with outcomes})
  | .ok n :: outcomes =>
    let size := min (n + 1) count
    some (.ok (fd.stream.take size), ⟨fd.stream.drop size, outcomes⟩)

/-- The loop of `read_all`, with what is in the buffer and the error it ended with. Each
round takes an outcome. -/
def readAllLoop (count : Nat) : Nat → Fd → Text → Option (Text × Option Errno × Fd)
  | 0, _, _ => none
  | fuel + 1, fd, buf => do
    let (rc, fd) ← fd.read (count - buf.length)
    match rc with
    | .error .other => some (buf, some .other, fd)
    | .error _ =>
      if count - buf.length > 0 then readAllLoop count fuel fd buf else some (buf, none, fd)
    | .ok [] => some (buf, none, fd) -- eof
    | .ok data =>
      let buf := buf ++ data
      if count - buf.length > 0 then readAllLoop count fuel fd buf else some (buf, none, fd)

def readAll (fd : Fd) (count : Nat) : Option (Text × Option Errno × Fd) :=
  readAllLoop count (fd.outcomes.length + 1) fd []

/-- `metaData` is the buffer, of `16 * 255 + 1` bytes. -/
structure InputPluginData where
  fd : Fd
  metaInt : Nat
  counter : Nat
  metaData : Text
  metaDataChanged : Bool

/-- Bytes written to the start of a buffer. -/
def store (data buf : Text) : Text := data ++ buf.drop data.length

/-- The audio part of `read_wrapper`. -/
def readAudio (ip : InputPluginData) (count : Nat) :
    Option (Except Errno Text × InputPluginData) := do
  let count := if count + ip.counter > ip.metaInt then ip.metaInt - ip.counter else count
  let (rc, fd) ← ip.fd.read count
  match rc with
  | .error e => some (.error e, {ip with fd})
  | .ok data => some (.ok data, {ip with fd, counter := ip.counter + data.length})

def readWrapper (ip : InputPluginData) (count : Nat) :
    Option (Except Errno Text × InputPluginData) :=
  if ip.metaInt = 0 then
    -- no metadata in the stream
    (ip.fd.read count).map fun (rc, fd) => (rc, {ip with fd})
  else if ip.counter = ip.metaInt then do
    -- read metadata
    let (rc, fd) ← ip.fd.read 1
    match rc with
    | .error e => some (.error e, {ip with fd})
    | .ok [] => some (.ok [], {ip with fd})
    | .ok (byte :: _) =>
      if byte ≠ 0 then
        let len := byte.toNat * 16
        let (data, error, fd) ← readAll fd len
        let metaData := store data (store [0] ip.metaData)
        match error with
        | some e => some (.error e, {ip with fd, metaData})
        | none =>
          if data.length < len then
            some (.ok [], {ip with fd, metaData := store [0] metaData})
          else
            let metaData := metaData.set len 0
            readAudio {ip with fd, metaData, metaDataChanged := true, counter := 0} count
      else readAudio {ip with fd, counter := 0} count
  else readAudio ip count

/-! ### Calls one after the other -/

structure Session where
  ip : InputPluginData
  returned : Text

/-- One call; an error returns no bytes. -/
def step (s : Session) (count : Nat) : Option Session :=
  (readWrapper s.ip count).map fun (rc, ip) =>
    ⟨ip, s.returned ++ match rc with
      | .ok data => data
      | .error _ => []⟩

/-- `setup_remote`, with the buffer as it is allocated. -/
def start (stream : Text) (outcomes : List (Except Errno Nat)) (metaInt : Nat) (metaData : Text) :
    Session :=
  ⟨⟨⟨stream, outcomes⟩, metaInt, 0, metaData, false⟩, []⟩

/-! ### What is sent -/

/-- Audio, and the metadata behind it, empty or in units of 16 bytes. -/
structure Block (metaInt : Nat) where
  audio : Text
  metadata : Text
  length_audio : audio.length = metaInt
  length_metadata : ∃ n < 256, metadata.length = n * 16

variable {metaInt : Nat}

def Block.bytes (b : Block metaInt) : Text :=
  b.audio ++ UInt8.ofNat (b.metadata.length / 16) :: b.metadata

/-- The stream ends in audio. -/
def encode (blocks : List (Block metaInt)) (tail : Text) : Text :=
  blocks.flatMap Block.bytes ++ tail

def audio (blocks : List (Block metaInt)) (tail : Text) : Text :=
  blocks.flatMap Block.audio ++ tail

/-- The last metadata that is not empty. -/
def lastMetadata (blocks : List (Block metaInt)) : Option Text :=
  (blocks.map Block.metadata).reverse.find? (· ≠ [])

/-! ### Reading -/

/-- Reads fail with EINTR and EAGAIN only. -/
def Fd.Retries (fd : Fd) : Prop := .error .other ∉ fd.outcomes

theorem Fd.read_spec {fd fd' : Fd} {count : Nat} {rc : Except Errno Text} (hfd : fd.Retries)
    (h : fd.read count = some (rc, fd')) :
    fd'.Retries ∧ ((∃ e, rc = .error e ∧ e ≠ .other ∧ fd'.stream = fd.stream) ∨
      ∃ data, rc = .ok data ∧ fd.stream = data ++ fd'.stream ∧ data.length ≤ count ∧
        (0 < count → data = [] → fd.stream = [])) := by
  obtain ⟨stream, outcomes⟩ := fd
  rcases outcomes with _ | ⟨_ | n, outcomes⟩
  · cases h
  · rename_i e
    cases h
    simp only [Retries, List.mem_cons, not_or] at hfd
    exact ⟨hfd.2, .inl ⟨e, rfl, fun he => hfd.1 (he ▸ rfl), rfl⟩⟩
  · cases h
    simp only [Retries, List.mem_cons, not_or] at hfd
    refine ⟨hfd.2, .inr ⟨_, rfl, (List.take_append_drop _ _).symm, ?_, fun hcount hdata => ?_⟩⟩
    · rw [List.length_take]
      omega
    · have := (List.take_eq_nil_iff.mp hdata)
      exact this.resolve_left (by omega)

/-- A block that is there is read as a whole, whatever the single reads give. -/
theorem readAllLoop_spec {data rest : Text} (fuel : Nat) {fd fd' : Fd} {buf got : Text}
    {error : Option Errno} (hfd : fd.Retries) (hstream : buf ++ fd.stream = data ++ rest)
    (hbuf : buf.length < data.length)
    (h : readAllLoop data.length fuel fd buf = some (got, error, fd')) :
    got = data ∧ error = none ∧ fd'.stream = rest ∧ fd'.Retries := by
  induction fuel generalizing fd buf with
  | zero => cases h
  | succ fuel ih =>
    obtain ⟨⟨rc, fd₁⟩, hread, h⟩ := Option.bind_eq_some_iff.mp h
    obtain ⟨hfd₁, hcase⟩ := Fd.read_spec hfd hread
    rcases hcase with ⟨e, rfl, he, hsame⟩ | ⟨part, rfl, hpart, hle, hend⟩
    · have h : readAllLoop data.length fuel fd₁ buf = some (got, error, fd') := by
        cases e with
        | other => exact absurd rfl he
        | eintr => simpa only [gt_iff_lt, Nat.sub_pos_of_lt hbuf, if_true] using h
        | eagain => simpa only [gt_iff_lt, Nat.sub_pos_of_lt hbuf, if_true] using h
      exact ih hfd₁ (hsame ▸ hstream) hbuf h
    · rw [hpart, ← List.append_assoc] at hstream
      cases part with
      | nil =>
        -- the end would be inside the block
        have hnil := hend (by omega) rfl
        rw [hpart, List.nil_append] at hnil
        have := congrArg List.length hstream
        simp only [hnil, List.append_nil, List.length_append] at this
        omega
      | cons c part =>
        have hlen : (buf ++ c :: part).length ≤ data.length := by
          rw [List.length_append]
          omega
        by_cases hmore : (buf ++ c :: part).length < data.length
        · simp only [gt_iff_lt, Nat.sub_pos_of_lt hmore, if_true] at h
          exact ih hfd₁ hstream hmore h
        · have heq : (buf ++ c :: part).length = data.length := by omega
          simp only [gt_iff_lt, heq, Nat.sub_self, Nat.lt_irrefl, if_false] at h
          cases h
          obtain ⟨hgot, hrest⟩ := List.append_inj hstream heq
          exact ⟨hgot, rfl, hrest, hfd₁⟩

/-! ### The place in the stream -/

/-- The audio up to the next length byte. -/
def segment (blocks : List (Block metaInt)) (tail : Text) : Text :=
  match blocks with
  | [] => tail
  | b :: _ => b.audio

theorem segment_isPrefix (blocks : List (Block metaInt)) (tail : Text) :
    segment blocks tail <+: encode blocks tail ∧ segment blocks tail <+: audio blocks tail := by
  cases blocks with
  | nil => exact ⟨List.prefix_rfl, List.prefix_rfl⟩
  | cons b blocks =>
    simp only [segment, encode, audio, List.flatMap_cons, Block.bytes, List.append_assoc]
    exact ⟨List.prefix_append _ _, List.prefix_append _ _⟩

/-- The wrapper is `counter` bytes into the audio that follows the consumed blocks; the
buffer holds the last metadata there was, with its terminator. -/
structure At (blocks : List (Block metaInt)) (tail : Text) (s : Session)
    (consumed rest : List (Block metaInt)) : Prop where
  blocks : blocks = consumed ++ rest
  metaInt : s.ip.metaInt = metaInt
  retries : s.ip.fd.Retries
  stream : s.ip.fd.stream = (encode rest tail).drop s.ip.counter
  counter : s.ip.counter ≤ (segment rest tail).length
  returned : s.returned = consumed.flatMap Block.audio ++ (segment rest tail).take s.ip.counter
  buffer : s.ip.metaData.length = 16 * 255 + 1
  metadata : ∀ m, lastMetadata consumed = some m → m ++ [0] <+: s.ip.metaData

variable {blocks consumed rest : List (Block metaInt)} {tail : Text} {s : Session}

theorem length_segment_le (htail : tail.length ≤ metaInt) (rest : List (Block metaInt)) :
    (segment rest tail).length ≤ metaInt := by
  cases rest with
  | nil => exact htail
  | cons b rest => exact Nat.le_of_eq b.length_audio

/-- What is returned is the beginning of the audio, and all of it once the stream is
used up. -/
theorem At.returned_isPrefix (h : At blocks tail s consumed rest) :
    s.returned <+: audio blocks tail ∧
      (s.ip.fd.stream = [] → s.returned = audio blocks tail) := by
  rw [h.returned, h.blocks, audio, List.flatMap_append, List.append_assoc]
  refine ⟨?_, fun hend => ?_⟩
  · refine (List.prefix_append_right_inj _).mpr ?_
    exact (List.take_prefix _ _).trans (segment_isPrefix rest tail).2
  · have hlen := List.drop_eq_nil_iff.mp (h.stream ▸ hend)
    have hcounter := h.counter
    cases rest with
    | nil =>
      have : tail.take s.ip.counter = tail := List.take_of_length_le hlen
      simp [segment, this]
    | cons b rest =>
      exfalso
      simp only [segment, encode, List.flatMap_cons, Block.bytes, List.length_append,
        List.length_cons] at hlen hcounter
      omega

/-- A call that keeps the place returns no more than was asked for, and nothing only at
the end or on an error. -/
def Call (blocks : List (Block metaInt)) (tail returned : Text) (count : Nat)
    (consumed rest : List (Block metaInt)) (ip : InputPluginData) : Except Errno Text → Prop
  | .error _ => At blocks tail ⟨ip, returned⟩ consumed rest
  | .ok data => data.length ≤ count ∧ At blocks tail ⟨ip, returned ++ data⟩ consumed rest ∧
      (data = [] → ip.fd.stream = [])

/-- Reading audio goes no further than the next length byte. -/
theorem readAudio_spec (h : At blocks tail s consumed rest) (hroom : s.ip.counter < metaInt)
    {count : Nat} (hcount : 0 < count) {rc : Except Errno Text} {ip' : InputPluginData}
    (hread : readAudio s.ip count = some (rc, ip')) :
    Call blocks tail s.returned count consumed rest ip' rc := by
  obtain ⟨⟨rc₁, fd₁⟩, hread₁, hret⟩ := Option.bind_eq_some_iff.mp hread
  obtain ⟨hfd₁, hcase⟩ := Fd.read_spec h.retries hread₁
  rcases hcase with ⟨e, rfl, -, hsame⟩ | ⟨data, rfl, hdata, hle, hend⟩
  · cases hret
    exact ⟨h.blocks, h.metaInt, hfd₁, hsame.trans h.stream, h.counter, h.returned, h.buffer,
      h.metadata⟩
  · cases hret
    rw [h.metaInt] at hle hend
    have hbound : data.length ≤ count ∧ s.ip.counter + data.length ≤ metaInt := by
      split at hle <;> omega
    have hsplit : (encode rest tail).drop s.ip.counter = data ++ fd₁.stream := h.stream ▸ hdata
    have hseg : s.ip.counter + data.length ≤ (segment rest tail).length := by
      cases rest with
      | nil =>
        have := congrArg List.length hsplit
        simp only [encode, List.flatMap_nil, List.nil_append, List.length_drop,
          List.length_append] at this
        have := h.counter
        simp only [segment] at this ⊢
        omega
      | cons b rest => exact hbound.2.trans (Nat.le_of_eq b.length_audio.symm)
    -- the bytes are those of the segment
    have htake : (segment rest tail).take (s.ip.counter + data.length) =
        (segment rest tail).take s.ip.counter ++ data := by
      obtain ⟨more, hmore⟩ := (segment_isPrefix rest tail).1
      rw [List.take_add]
      congr 1
      have : ((segment rest tail).drop s.ip.counter ++ more).take data.length = data := by
        rw [← List.drop_append_of_le_length h.counter, hmore, hsplit, List.take_left]
      rwa [List.take_append_of_le_length (by rw [List.length_drop]; omega)] at this
    refine ⟨hbound.1, ⟨h.blocks, h.metaInt, hfd₁, ?_, hseg, ?_, h.buffer, h.metadata⟩,
      fun hnil => ?_⟩
    · show fd₁.stream = (encode rest tail).drop (s.ip.counter + data.length)
      rw [← List.drop_drop, hsplit, List.drop_left]
    · show s.returned ++ data = _
      rw [h.returned, List.append_assoc, htake]
    · have := hend (by split <;> omega) hnil
      rwa [hdata, hnil, List.nil_append] at this

theorem length_store {data buf : Text} (h : data.length ≤ buf.length) :
    (store data buf).length = buf.length := by
  rw [store, List.length_append, List.length_drop]
  omega

/-- A block and its terminator in the buffer. -/
theorem store_terminated {data buf : Text} (hlen : data.length < buf.length) :
    data ++ [0] <+: (store data buf).set data.length 0 := by
  obtain ⟨c, rest, hrest⟩ := List.exists_cons_of_length_pos
    (show 0 < (buf.drop data.length).length by rw [List.length_drop]; omega)
  rw [store, hrest, List.set_append_right _ _ (Nat.le_refl _), Nat.sub_self, List.set_cons_zero]
  exact (List.prefix_append_right_inj _).mpr (List.prefix_append [0] rest)

theorem lastMetadata_append (consumed : List (Block metaInt)) (b : Block metaInt) :
    lastMetadata (consumed ++ [b]) =
      if b.metadata ≠ [] then some b.metadata else lastMetadata consumed := by
  by_cases hb : b.metadata = []
  · simp [lastMetadata, hb]
  · simp [lastMetadata, hb]

/-- The length byte of a block, and what follows it. -/
theorem Block.length_byte (b : Block metaInt) :
    (UInt8.ofNat (b.metadata.length / 16)).toNat * 16 = b.metadata.length ∧
      (UInt8.ofNat (b.metadata.length / 16) = 0 ↔ b.metadata = []) := by
  obtain ⟨n, hn, hlen⟩ := b.length_metadata
  have hdiv : b.metadata.length / 16 = n := by omega
  have hnat : (UInt8.ofNat n).toNat = n := by
    rw [UInt8.toNat_ofNat']
    omega
  rw [hdiv, hnat]
  refine ⟨hlen.symm, ?_⟩
  rw [← UInt8.toNat_inj, hnat, ← List.length_eq_zero_iff, hlen]
  constructor
  · intro h
    have : n = 0 := h
    omega
  · intro h
    show n = 0
    omega

/-- The wrapper has left a block behind. -/
theorem At.pass {b : Block metaInt} (h : At blocks tail s consumed (b :: rest))
    (hcounter : s.ip.counter = metaInt) {fd : Fd} (hfd : fd.Retries)
    (hstream : fd.stream = encode rest tail) (buf : Text) (changed : Bool)
    (hbuf : buf.length = 16 * 255 + 1)
    (hmeta : ∀ m, lastMetadata (consumed ++ [b]) = some m → m ++ [0] <+: buf) :
    At blocks tail ⟨⟨fd, s.ip.metaInt, 0, buf, changed⟩, s.returned⟩ (consumed ++ [b]) rest := by
  refine ⟨?_, h.metaInt, hfd, hstream, Nat.zero_le _, ?_, hbuf, hmeta⟩
  · rw [h.blocks, List.append_assoc]
    rfl
  · rw [h.returned, hcounter, segment, List.take_of_length_le (Nat.le_of_eq b.length_audio)]
    simp

theorem readWrapper_spec (htail : tail.length ≤ metaInt) (hm : 0 < metaInt)
    (h : At blocks tail s consumed rest) {count : Nat} (hcount : 0 < count)
    {rc : Except Errno Text} {ip' : InputPluginData}
    (hread : readWrapper s.ip count = some (rc, ip')) :
    ∃ consumed' rest', Call blocks tail s.returned count consumed' rest' ip' rc := by
  have hle : s.ip.counter ≤ metaInt := h.counter.trans (length_segment_le htail rest)
  rw [readWrapper, if_neg (h.metaInt ▸ hm.ne')] at hread
  by_cases hcounter : s.ip.counter = metaInt
  swap
  · rw [if_neg (h.metaInt ▸ hcounter)] at hread
    exact ⟨consumed, rest, readAudio_spec h (by omega) hcount hread⟩
  rw [if_pos (hcounter.trans h.metaInt.symm)] at hread
  obtain ⟨⟨rc₁, fd₁⟩, hread₁, hret⟩ := Option.bind_eq_some_iff.mp hread
  obtain ⟨hfd₁, hcase⟩ := Fd.read_spec h.retries hread₁
  rcases hcase with ⟨e, rfl, -, hsame⟩ | ⟨data, rfl, hdata, hlen, hend⟩
  · cases hret
    exact ⟨consumed, rest, h.blocks, h.metaInt, hfd₁, hsame.trans h.stream, h.counter, h.returned,
      h.buffer, h.metadata⟩
  cases rest with
  | nil =>
    -- the stream ended with the audio
    have hnil : s.ip.fd.stream = [] := by
      rw [h.stream, List.drop_eq_nil_iff, hcounter]
      exact htail
    obtain ⟨rfl, hnil₁⟩ := List.append_eq_nil_iff.mp (hdata ▸ hnil)
    cases hret
    refine ⟨consumed, [], Nat.zero_le _, ?_, fun _ => hnil₁⟩
    rw [List.append_nil]
    exact ⟨h.blocks, h.metaInt, hfd₁, hnil₁.trans (hnil ▸ h.stream), h.counter, h.returned, h.buffer,
      h.metadata⟩
  | cons b rest =>
    have hbytes : s.ip.fd.stream =
        UInt8.ofNat (b.metadata.length / 16) :: (b.metadata ++ encode rest tail) := by
      rw [h.stream, hcounter]
      simp [encode, Block.bytes, ← b.length_audio]
    have hbyte : data = [UInt8.ofNat (b.metadata.length / 16)] ∧
        fd₁.stream = b.metadata ++ encode rest tail := by
      rw [hbytes] at hdata
      rcases data with _ | ⟨c, _ | ⟨d, data⟩⟩
      · rw [hbytes] at hend
        cases hend Nat.one_pos rfl
      · obtain ⟨hc, hrest⟩ := List.cons.inj hdata
        exact ⟨by rw [hc], hrest.symm⟩
      · simp at hlen
    obtain ⟨rfl, hstream₁⟩ := hbyte
    obtain ⟨hsize, hzero⟩ := b.length_byte
    by_cases hempty : b.metadata = []
    · simp only [hzero.mpr hempty, ne_eq, not_true_eq_false, if_false] at hret
      have h' := h.pass hcounter hfd₁ (by rw [hstream₁, hempty, List.nil_append]) s.ip.metaData
        s.ip.metaDataChanged h.buffer
        (by rw [lastMetadata_append, if_neg (not_not.mpr hempty)]; exact h.metadata)
      exact ⟨consumed ++ [b], rest, readAudio_spec h' hm hcount hret⟩
    · dsimp only at hret
      rw [if_pos (fun hz => hempty (hzero.mp hz)), hsize] at hret
      obtain ⟨⟨got, error, fd₂⟩, hall, hret⟩ := Option.bind_eq_some_iff.mp hret
      obtain ⟨rfl, rfl, hstream₂, hfd₂⟩ := readAllLoop_spec _ hfd₁
        (show [] ++ fd₁.stream = b.metadata ++ encode rest tail from hstream₁)
        (List.length_pos_iff.mpr hempty) hall
      simp only [Nat.lt_irrefl, if_false] at hret
      have hfit : b.metadata.length < (store [0] s.ip.metaData).length := by
        rw [length_store (by rw [h.buffer]; simp), h.buffer]
        obtain ⟨n, hn, hlen⟩ := b.length_metadata
        omega
      have h' := h.pass hcounter hfd₂ hstream₂
        ((store b.metadata (store [0] s.ip.metaData)).set b.metadata.length 0) true
        (by
          rw [List.length_set, length_store hfit.le, length_store (by rw [h.buffer]; simp), h.buffer])
        (by
          rw [lastMetadata_append, if_pos hempty]
          intro m h
          cases h
          exact store_terminated hfit)
      exact ⟨consumed ++ [b], rest, readAudio_spec h' hm hcount hret⟩

/-! ### Sessions -/

theorem step_at (htail : tail.length ≤ metaInt) (hm : 0 < metaInt) {s' : Session} {count : Nat}
    (hcount : 0 < count) (h : ∃ consumed rest, At blocks tail s consumed rest)
    (hstep : step s count = some s') : ∃ consumed rest, At blocks tail s' consumed rest := by
  obtain ⟨consumed, rest, h⟩ := h
  obtain ⟨⟨rc, ip'⟩, hread, rfl⟩ := Option.map_eq_some_iff.mp hstep
  obtain ⟨consumed', rest', hcall⟩ := readWrapper_spec htail hm h hcount hread
  refine ⟨consumed', rest', ?_⟩
  cases rc with
  | error e => simpa [Call] using hcall
  | ok data => exact hcall.2.1

theorem run_at (htail : tail.length ≤ metaInt) (hm : 0 < metaInt) {counts : List Nat}
    (hcounts : ∀ count ∈ counts, 0 < count) {s' : Session}
    (h : ∃ consumed rest, At blocks tail s consumed rest)
    (hrun : Runs.run step s counts = some s') : ∃ consumed rest, At blocks tail s' consumed rest := by
  induction counts generalizing s with
  | nil =>
    cases hrun
    exact h
  | cons count counts ih =>
    obtain ⟨s₁, hstep, hrest⟩ := Option.bind_eq_some_iff.mp hrun
    exact ih (fun c hc => hcounts c (.tail _ hc)) (step_at htail hm (hcounts count (.head _)) h hstep)
      hrest

/-- **The wrapper takes the metadata out**: whatever is asked for and however the reads
fall, what the calls return is the beginning of the audio, no call returns more than was
asked for, and when one returns nothing all the audio has been returned. The buffer holds
the last metadata of the blocks left behind. -/
theorem read_wrapper_audio (metaInt : Nat) (hm : 0 < metaInt) (blocks : List (Block metaInt))
    (tail : Text) (htail : tail.length ≤ metaInt) (outcomes : List (Except Errno Nat))
    (hretries : .error .other ∉ outcomes) (buf : Text) (hbuf : buf.length = 16 * 255 + 1)
    (counts : List Nat) (hcounts : ∀ count ∈ counts, 0 < count) (s : Session)
    (hrun : Runs.run step (start (encode blocks tail) outcomes metaInt buf) counts = some s) :
    s.returned <+: audio blocks tail ∧
      (s.ip.fd.stream = [] → s.returned = audio blocks tail) ∧
      (∃ consumed rest, blocks = consumed ++ rest ∧
        s.ip.fd.stream = (encode rest tail).drop s.ip.counter ∧
        s.ip.counter ≤ (segment rest tail).length ∧
        ∀ m, lastMetadata consumed = some m → m ++ [0] <+: s.ip.metaData) ∧
      ∀ count, 0 < count → ∀ data ip, readWrapper s.ip count = some (.ok data, ip) →
        data.length ≤ count ∧ (data = [] → s.returned = audio blocks tail) := by
  have hstart : At blocks tail (start (encode blocks tail) outcomes metaInt buf) [] blocks :=
    ⟨rfl, rfl, hretries, rfl, Nat.zero_le _, rfl, hbuf, nofun⟩
  obtain ⟨consumed, rest, h⟩ := run_at htail hm hcounts ⟨[], blocks, hstart⟩ hrun
  refine ⟨h.returned_isPrefix.1, h.returned_isPrefix.2,
    ⟨consumed, rest, h.blocks, h.stream, h.counter, h.metadata⟩, fun count hcount data ip hread => ?_⟩
  obtain ⟨consumed', rest', hle, hat, hend⟩ := readWrapper_spec htail hm h hcount hread
  refine ⟨hle, ?_⟩
  intro heq
  subst heq
  have := hat.returned_isPrefix.2 (hend rfl)
  rwa [List.append_nil] at this

/-- Two blocks of three bytes of audio, one with metadata. -/
def twoBlocks : List (Block 3) :=
  [⟨[1, 2, 3], List.replicate 16 9, rfl, 1, by decide, rfl⟩, ⟨[4, 5, 6], [], rfl, 0, by decide, rfl⟩]

/-- Read by two bytes, with interruptions at a length byte and inside the metadata. -/
theorem read_wrapper_audio_two_blocks :
    ∃ s, Runs.run step (start (encode twoBlocks [7])
        [.ok 1, .ok 1, .error .eagain, .ok 0, .ok 6, .error .eagain, .ok 20, .ok 2, .error .eintr,
          .ok 0, .ok 0, .ok 4] 3 (List.replicate 4081 0)) [2, 2, 2, 2, 2, 2, 2] = some s ∧
      s.returned = [1, 2, 3, 4, 5, 6, 7] ∧ s.returned <+: audio twoBlocks [7] := by
  have hrun : (Runs.run step (start (encode twoBlocks [7])
      [.ok 1, .ok 1, .error .eagain, .ok 0, .ok 6, .error .eagain, .ok 20, .ok 2, .error .eintr,
        .ok 0, .ok 0, .ok 4] 3 (List.replicate 4081 0)) [2, 2, 2, 2, 2, 2, 2]).any fun s =>
      decide (s.returned = [1, 2, 3, 4, 5, 6, 7]) := by
    decide +kernel
  obtain ⟨s, hs, hreturned⟩ := (Option.any_eq_true _ _).mp hrun
  exact ⟨s, hs, of_decide_eq_true hreturned, (read_wrapper_audio 3 (by decide) twoBlocks [7]
    (by decide) _ (by decide) _ List.length_replicate _ (by decide) s hs).1⟩

end GracefulMusic.Stream
