import GracefulMusic.Input.Samples

/-! What `ip_read` stores.

A frame is a list of values, one for each channel, and a format says how a value lies in
memory. The plugin delivers frames of its format; the buffer gets frames of the format
`set_buffer_sf` announces. On a big-endian machine the functions for unsigned 16-bit
samples take the word they load for what the file has: there the conversion is right
exactly for samples whose two bytes are equal. -/
namespace GracefulMusic.Samples

/-! ### The formats' meaning -/

/-- A value as a format stores it. -/
def encodeSample (sf : SampleFormat) (v : Int) : Text :=
  let little := (List.range (sfGetSampleSize sf)).map fun i => UInt8.ofInt (v / 256 ^ i)
  if sfGetBigendian sf = 1 then little.reverse else little

def encodeFrame (sf : SampleFormat) (frame : List Int) : Text := frame.flatMap (encodeSample sf)

/-- The values a format has. -/
def InRange (sf : SampleFormat) (v : Int) : Prop :=
  if sfGetSigned sf = 1 then -2 ^ (sfGetBits sf - 1) ≤ v ∧ v < 2 ^ (sfGetBits sf - 1)
  else 0 ≤ v ∧ v < 2 ^ sfGetBits sf

instance instDecidableInRange (sf : SampleFormat) (v : Int) : Decidable (InRange sf v) :=
  inferInstanceAs (Decidable (if sfGetSigned sf = 1 then
    -2 ^ (sfGetBits sf - 1) ≤ v ∧ v < 2 ^ (sfGetBits sf - 1) else 0 ≤ v ∧ v < 2 ^ sfGetBits sf))

structure IsFrame (sf : SampleFormat) (frame : List Int) : Prop where
  channels : frame.length = sfGetChannels sf
  range : ∀ v ∈ frame, InRange sf v

/-- A value around zero, in 16 bits. -/
def recentre (sf : SampleFormat) (v : Int) : Int :=
  (if sfGetSigned sf = 1 then v else v - 2 ^ (sfGetBits sf - 1)) * 2 ^ (16 - sfGetBits sf)

/-- One channel is played on both sides. -/
def toStereo (sf : SampleFormat) (frame : List Int) : List Int :=
  if sfGetChannels sf = 1 then frame.flatMap fun v => [v, v] else frame

/-! ### Reading -/

/-- One call of `ip_read` that finds the plugin ready. -/
structure Reading where
  count : Nat
  tmp : Text
  frames : List (List Int)

def Reading.run (host : Endian) (sf : SampleFormat) (r : Reading) : Except Bug Read :=
  ipRead (ipSetup host sf) r.tmp r.count .ready fun _ => .data (r.frames.flatMap (encodeFrame sf))

/-- The plugin delivers one frame or more, and no more than it was asked for. -/
structure Delivered (host : Endian) (sf : SampleFormat) (r : Reading) : Prop where
  count_pos : 0 < r.count
  frames_ne : r.frames ≠ []
  isFrame : ∀ f ∈ r.frames, IsFrame sf f
  fits : (r.frames.flatMap (encodeFrame sf)).length ≤ (ipSetup host sf).askedCount r.count

/-- The reads store the 16-bit stereo form of all frames, in the announced format, and none
returns more than was requested. -/
def Converted (host : Endian) (sf : SampleFormat) (reads : List Reading) : Prop :=
  ∃ results, reads.mapM (Reading.run host sf) = .ok results ∧
    List.Forall₂ (fun r x => x.rc ≤ r.count ∧ (x.stored.length : Int) = x.rc) reads results ∧
    results.flatMap (·.stored) = (reads.flatMap (·.frames)).flatMap fun f =>
      encodeFrame (setBufferSf host sf) (toStereo sf (f.map (recentre sf)))

/-- A little-endian machine, a format that is not unsigned 16-bit, or only samples whose two
bytes are equal. -/
def OrderIrrelevant (host : Endian) (sf : SampleFormat) (frames : List (List Int)) : Prop :=
  host = .little ∨ sfGetBits sf = 8 ∨ sfGetSigned sf = 1 ∨ ∀ f ∈ frames, ∀ v ∈ f, v % 256 = v / 256

/-! ### Words -/

theorem int16_ofInt_congr {a b : Int} (h : a % 65536 = b % 65536) :
    Int16.ofInt a = Int16.ofInt b := by
  apply Int16.toInt_inj.mp
  rw [Int16.toInt_ofInt, Int16.toInt_ofInt, show Int16.size = 65536 from rfl, Int.bmod_def,
    Int.bmod_def]
  omega

theorem int16_toInt_ofInt_emod (a : Int) : (Int16.ofInt a).toInt % 65536 = a % 65536 := by
  rw [Int16.toInt_ofInt, show Int16.size = 65536 from rfl, Int.bmod_def]
  omega

theorem uint16_toNat_ofInt (w : Int) : (UInt16.ofInt w).toNat = (w % 65536).toNat := by
  rw [UInt16.ofInt, UInt16.toNat_ofNat', show (2 : Int) ^ 16 = 65536 from rfl]
  omega

theorem int16_toUInt16_ofInt (w : Int) : (Int16.ofInt w).toUInt16 = UInt16.ofInt w := by
  apply UInt16.toNat_inj.mp
  rw [uint16_toNat_ofInt]
  show (BitVec.ofInt 16 w).toNat = _
  rw [BitVec.toNat_ofInt]
  rfl

theorem uint8_toNat_ofInt (w : Int) : (UInt8.ofInt w).toNat = (w % 256).toNat := by
  rw [UInt8.ofInt, UInt8.toNat_ofNat', show (2 : Int) ^ 8 = 256 from rfl]
  omega

theorem bytes16_ofInt (order : Endian) (v : Int) :
    bytes16 order (UInt16.ofInt v) = match order with
      | .little => [UInt8.ofInt v, UInt8.ofInt (v / 256)]
      | .big => [UInt8.ofInt (v / 256), UInt8.ofInt v] := by
  have hlow : UInt8.ofNat ((UInt16.ofInt v).toNat % 256) = UInt8.ofInt v := by
    apply UInt8.toNat_inj.mp
    rw [uint8_toNat_ofInt, UInt8.toNat_ofNat', uint16_toNat_ofInt]
    omega
  have hhigh : UInt8.ofNat ((UInt16.ofInt v).toNat / 256) = UInt8.ofInt (v / 256) := by
    apply UInt8.toNat_inj.mp
    rw [uint8_toNat_ofInt, UInt8.toNat_ofNat', uint16_toNat_ofInt]
    omega
  cases order
  · rw [← hlow, ← hhigh]
    rfl
  · rw [← hlow, ← hhigh]
    rfl

/-- The byte order of a format. -/
def order (sf : SampleFormat) : Endian := if sfGetBigendian sf = 1 then .big else .little

theorem encodeSample_16 {sf : SampleFormat} (h : sfGetBits sf = 16) (v : Int) :
    encodeSample sf v = bytes16 (order sf) (UInt16.ofInt v) := by
  rw [bytes16_ofInt, encodeSample, sfGetSampleSize, h, order]
  by_cases hbig : sfGetBigendian sf = 1
  · rw [if_pos hbig, if_pos hbig]
    simp [List.range_succ]
  · rw [if_neg hbig, if_neg hbig]
    simp [List.range_succ]

theorem encodeSample_8 {sf : SampleFormat} (h : sfGetBits sf = 8) (v : Int) :
    encodeSample sf v = [UInt8.ofInt v] := by
  rw [encodeSample, sfGetSampleSize, h]
  simp

theorem length_bytes16 (order : Endian) (x : UInt16) : (bytes16 order x).length = 2 := by
  cases order <;> rfl

theorem swapUint16_swapUint16 (x : UInt16) : swapUint16 (swapUint16 x) = x := by
  apply UInt16.toNat_inj.mp
  have hhigh : x.toNat / 256 < 256 := Nat.div_lt_of_lt_mul x.toNat_lt
  have hsplit : x.toNat = x.toNat % 256 + 256 * (x.toNat / 256) := (Nat.mod_add_div _ _).symm
  simp only [swapUint16, UInt16.toNat_ofNat']
  have hlow := Nat.mod_lt x.toNat (show 256 > 0 by decide)
  generalize x.toNat % 256 = low at *
  generalize x.toNat / 256 = high at *
  have hword : (low * 256 + high) % 2 ^ 16 = low * 256 + high := by omega
  rw [hword, show (low * 256 + high) % 256 = high by omega,
    show (low * 256 + high) / 256 = low by omega, hsplit, Nat.mod_eq_of_lt (by omega),
    Nat.mul_comm high, Nat.add_comm]

/-- A word that was stored in one order and is loaded in another. -/
def reloaded (host order : Endian) (x : UInt16) : UInt16 := if order = host then x else swapUint16 x

theorem load16_bytes16 (host order : Endian) (x : UInt16) (rest : Text) :
    load16 host (bytes16 order x ++ rest) =
      (reloaded host order x).toInt16 :: load16 host rest := by
  have hlt := x.toNat_lt
  have hlow : (UInt8.ofNat (x.toNat % 256)).toNat = x.toNat % 256 := by
    rw [UInt8.toNat_ofNat']
    omega
  have hhigh : (UInt8.ofNat (x.toNat / 256)).toNat = x.toNat / 256 := by
    rw [UInt8.toNat_ofNat']
    omega
  have hword : word16 host ((bytes16 order x).getD 0 0) ((bytes16 order x).getD 1 0) =
      reloaded host order x := by
    apply UInt16.toNat_inj.mp
    cases host <;> cases order <;>
      simp [bytes16, word16, reloaded, swapUint16, hlow, hhigh, UInt16.toNat_ofNat'] <;> omega
  rw [← hword]
  cases order <;> rfl

theorem load16_flatMap (host order : Endian) (xs : List UInt16) :
    load16 host (xs.flatMap (bytes16 order)) = xs.map fun x => (reloaded host order x).toInt16 := by
  induction xs with
  | nil => rfl
  | cons x xs ih => rw [List.flatMap_cons, load16_bytes16, ih, List.map_cons]

theorem length_flatMap_bytes16 (order : Endian) (xs : List UInt16) :
    (xs.flatMap (bytes16 order)).length = 2 * xs.length := by
  induction xs with
  | nil => rfl
  | cons x xs ih =>
    rw [List.flatMap_cons, List.length_append, ih, length_bytes16, List.length_cons]
    omega

theorem inPlace_flatMap (host order : Endian) (f : Int16 → Int16) (xs : List UInt16) :
    inPlace host f (xs.flatMap (bytes16 order)) xs.length =
      store16 host (xs.map fun x => f (reloaded host order x).toInt16) := by
  rw [inPlace, load16_flatMap, List.take_of_length_le (by simp),
    List.drop_of_length_le (by rw [length_flatMap_bytes16]), List.append_nil, List.map_map]
  rfl

theorem convert16_store16 (host : Endian) (d : List Int16) :
    convert16OneChTo16TwoCh host (store16 host d) d.length =
      store16 host (d.flatMap fun s => [s, s]) := by
  have hload : load16 host (store16 host d) = d := by
    rw [store16, ← List.flatMap_map, load16_flatMap, List.map_map]
    refine (List.map_congr_left fun x _ => ?_).trans (List.map_id d)
    rw [Function.comp_apply, reloaded, if_pos rfl]
    rfl
  rw [convert16OneChTo16TwoCh, hload, List.take_length]

/-! ### One read -/

/-- 8 or 16 bits, and one or two channels. -/
structure Convertible (sf : SampleFormat) : Prop where
  bits : sfGetBits sf = 8 ∨ sfGetBits sf = 16
  channels : sfGetChannels sf = 1 ∨ sfGetChannels sf = 2

theorem Convertible.fields {sf : SampleFormat} (h : Convertible sf) (host : Endian) :
    sfGetChannels (setBufferSf host sf) = 2 ∧ sfGetBits (setBufferSf host sf) = 16 ∧
      sfGetSigned (setBufferSf host sf) = 1 ∧
      sfGetBigendian (setBufferSf host sf) = if host = .big then 1 else 0 :=
  setBufferSf_fields host ⟨by cases h.channels <;> omega, by cases h.bits <;> omega⟩

theorem encodeSample_buffer {sf : SampleFormat} (h : Convertible sf) (host : Endian) (w : Int) :
    encodeSample (setBufferSf host sf) w = bytes16 host (UInt16.ofInt w) := by
  obtain ⟨-, hbits, -, hbig⟩ := h.fields host
  rw [encodeSample_16 hbits, order, hbig]
  cases host <;> rfl

/-- The value whose form is stored for a value of the plugin's. -/
def coded (host : Endian) (sf : SampleFormat) (v : Int) : Int :=
  if host = .big ∧ sfGetBits sf = 16 ∧ sfGetSigned sf = 0 then v % 256 * 256 + v / 256 - 32768
  else recentre sf v

theorem store16_map_ofInt (host : Endian) (ws : List Int) :
    store16 host (ws.map Int16.ofInt) = ws.flatMap fun w => bytes16 host (UInt16.ofInt w) := by
  rw [store16, List.flatMap_map]
  exact List.flatMap_congr fun w _ => by rw [int16_toUInt16_ofInt]

theorem toInt8_emod (c : UInt8) : c.toInt8.toInt % 256 = c.toNat :=
  forall_byte (P := fun c => c.toInt8.toInt % 256 = c.toNat) (by decide +kernel) c

theorem u8_sample (v : Int) :
    Int16.ofInt ((Int16.ofInt ((UInt8.ofInt v).toNat * 256)).toInt - 32768) =
      Int16.ofInt ((v - 128) * 256) := by
  apply int16_ofInt_congr
  have h := int16_toInt_ofInt_emod ((UInt8.ofInt v).toNat * 256)
  rw [uint8_toNat_ofInt] at h ⊢
  omega

theorem u8_sample_signed (v : Int) :
    Int16.ofInt ((Int16.ofInt ((UInt8.ofInt v).toInt8.toInt * 256)).toInt - 32768) =
      Int16.ofInt ((v - 128) * 256) := by
  apply int16_ofInt_congr
  have h := int16_toInt_ofInt_emod ((UInt8.ofInt v).toInt8.toInt * 256)
  have hbyte := toInt8_emod (UInt8.ofInt v)
  rw [uint8_toNat_ofInt] at hbyte
  omega

theorem s8_sample (v : Int) :
    Int16.ofInt ((UInt8.ofInt v).toInt8.toInt * 256) = Int16.ofInt (v * 256) := by
  apply int16_ofInt_congr
  have hbyte := toInt8_emod (UInt8.ofInt v)
  rw [uint8_toNat_ofInt] at hbyte
  omega

/-- The functions for 8-bit samples; nothing is done in place. -/
theorem setup_8 {sf : SampleFormat} (h : Convertible sf) (hbits : sfGetBits sf = 8) (host : Endian)
    (tmp buf : Text) :
    (ipSetup host sf).convert tmp buf =
      (if sfGetSigned sf = 0 then
        if sfGetChannels sf = 1 then convertU8OneChToS16TwoCh else convertU8TwoChToS16TwoCh
      else if sfGetChannels sf = 1 then convertS8OneChToS16TwoCh else convertS8TwoChToS16TwoCh)
        host buf buf.length := by
  have hsigned := sfGetSigned_lt sf
  have hbig := sfGetBigendian_lt sf
  obtain hch | hch := h.channels <;>
    obtain hs | hs : sfGetSigned sf = 0 ∨ sfGetSigned sf = 1 := by omega
  all_goals obtain hb | hb : sfGetBigendian sf = 0 ∨ sfGetBigendian sf = 1 := by omega
  all_goals
    simp [InputPlugin.convert, ipSetup, hbits, hs, hch, hb, pcmConv, pcmConvInPlace,
      sfGetSampleSize]

theorem convert_8 {sf : SampleFormat} (h : Convertible sf) (hbits : sfGetBits sf = 8)
    (host : Endian)
    (tmp : Text) (vs : List Int) :
    (ipSetup host sf).convert tmp (vs.flatMap (encodeSample sf)) =
      store16 host ((toStereo sf (vs.map (coded host sf))).map Int16.ofInt) := by
  have hsrc : vs.flatMap (encodeSample sf) = vs.map UInt8.ofInt := by
    rw [List.map_eq_flatMap]
    exact List.flatMap_congr fun v _ => encodeSample_8 hbits v
  have htake : (vs.map UInt8.ofInt).take (vs.map UInt8.ofInt).length = vs.map UInt8.ofInt :=
    List.take_length
  have hrecentre : coded host sf = fun v => (if sfGetSigned sf = 1 then v else v - 128) * 256 := by
    funext v
    rw [coded, if_neg (by omega), recentre, hbits]
    rfl
  rw [hsrc, setup_8 h hbits, hrecentre, toStereo]
  have hsigned := sfGetSigned_lt sf
  obtain hs | hs : sfGetSigned sf = 0 ∨ sfGetSigned sf = 1 := by omega
  · rw [if_pos hs, hs]
    obtain hch | hch := h.channels
    · rw [if_pos hch, if_pos hch, convertU8OneChToS16TwoCh, htake]
      simp only [List.flatMap_map, List.map_flatMap, List.map_cons, List.map_nil, u8_sample,
        Nat.zero_ne_one, if_false]
    · rw [if_neg (by omega), if_neg (by omega), convertU8TwoChToS16TwoCh, htake]
      simp only [List.map_map, Function.comp_def, u8_sample_signed, Nat.zero_ne_one, if_false]
  · rw [if_neg (by omega), hs]
    obtain hch | hch := h.channels
    · rw [if_pos hch, if_pos hch, convertS8OneChToS16TwoCh, htake]
      simp only [List.flatMap_map, List.map_flatMap, List.map_cons, List.map_nil, s8_sample,
        if_true]
    · rw [if_neg (by omega), if_neg (by omega), convertS8TwoChToS16TwoCh, htake]
      simp only [List.map_map, Function.comp_def, s8_sample, if_true]

/-- The functions for 16-bit samples: what is done in place, and the second channel. -/
theorem setup_16 {sf : SampleFormat} (h : Convertible sf) (hbits : sfGetBits sf = 16)
    (host : Endian)
    (tmp buf : Text) :
    (ipSetup host sf).convert tmp buf =
      let buf' :=
        if sfGetSigned sf = 0 then
          if sfGetBigendian sf = 0 then convertU16LeToS16Le host buf (buf.length / 2)
          else convertU16BeToS16Le host buf (buf.length / 2)
        else if order sf = host then buf else swapS16ByteOrder host buf (buf.length / 2)
      if sfGetChannels sf = 1 then convert16OneChTo16TwoCh host buf' (buf.length / 2)
      else buf' := by
  have hsigned := sfGetSigned_lt sf
  have hbig := sfGetBigendian_lt sf
  obtain hch | hch := h.channels <;>
    obtain hs | hs : sfGetSigned sf = 0 ∨ sfGetSigned sf = 1 := by omega
  all_goals obtain hb | hb : sfGetBigendian sf = 0 ∨ sfGetBigendian sf = 1 := by omega
  all_goals
    cases host <;>
      simp [InputPlugin.convert, ipSetup, hbits, hs, hch, hb, pcmConv, pcmConvInPlace,
        sfGetSampleSize, order]

/-- An unsigned word read in a format's order. -/
theorem toNat_reloaded {v : Int} (hv : 0 ≤ v ∧ v < 65536) (host order : Endian) :
    ((reloaded host order (UInt16.ofInt v)).toNat : Int) =
      if order = host then v else v % 256 * 256 + v / 256 := by
  obtain ⟨n, rfl⟩ := Int.eq_ofNat_of_zero_le hv.1
  have hn : (UInt16.ofInt n).toNat = n := by
    rw [uint16_toNat_ofInt]
    omega
  rw [reloaded]
  by_cases ho : order = host
  · rw [if_pos ho, if_pos ho, hn]
  · have hhigh : n / 256 < 256 := by omega
    rw [if_neg ho, if_neg ho, swapUint16, UInt16.toNat_ofNat', hn]
    have hlow := Nat.mod_lt n (show 256 > 0 by decide)
    rw [Nat.mod_eq_of_lt (by omega)]
    push_cast
    rfl

/-- Swapping is reading in the other order. -/
theorem swapUint16_reloaded_eq (host order : Endian) (x : UInt16) :
    swapUint16 (reloaded host order x) =
      reloaded host (if order = .big then .little else .big) x := by
  cases host <;> cases order <;> first | rfl | exact swapUint16_swapUint16 x

theorem coded_16 {sf : SampleFormat} (hbits : sfGetBits sf = 16) (host : Endian) (v : Int) :
    coded host sf v =
      if sfGetSigned sf = 1 then v
      else if host = .big ∧ sfGetSigned sf = 0 then v % 256 * 256 + v / 256 - 32768
      else v - 32768 := by
  rw [coded, recentre, hbits]
  by_cases hs : sfGetSigned sf = 1
  · rw [if_pos hs, if_pos hs, if_neg (by omega)]
    exact Int.mul_one v
  · rw [if_neg hs, if_neg hs]
    by_cases hh : host = .big ∧ sfGetSigned sf = 0
    · rw [if_pos ⟨hh.1, rfl, hh.2⟩, if_pos hh]
    · rw [if_neg fun h => hh ⟨h.1, h.2.2⟩, if_neg hh]
      exact Int.mul_one _

/-- What the function `f` makes of the samples in place. -/
theorem inPlace_coded (host : Endian) (sf : SampleFormat) (f : Int16 → Int16) (vs : List Int)
    (hf : ∀ v ∈ vs, f (reloaded host (order sf) (UInt16.ofInt v)).toInt16 =
      Int16.ofInt (coded host sf v)) :
    inPlace host f ((vs.map UInt16.ofInt).flatMap (bytes16 (order sf))) vs.length =
      store16 host (vs.map fun v => Int16.ofInt (coded host sf v)) := by
  have h := inPlace_flatMap host (order sf) f (vs.map UInt16.ofInt)
  rw [List.length_map, List.map_map] at h
  rw [h]
  exact congrArg _ (List.map_congr_left hf)

/-- The functions for unsigned samples leave the coded samples. -/
theorem unsigned_coded {sf : SampleFormat} (hbits : sfGetBits sf = 16) (hs : sfGetSigned sf = 0)
    (host : Endian) (vs : List Int) (hvs : ∀ v ∈ vs, InRange sf v) :
    (if sfGetBigendian sf = 0 then
        convertU16LeToS16Le host ((vs.map UInt16.ofInt).flatMap (bytes16 (order sf))) vs.length
      else convertU16BeToS16Le host ((vs.map UInt16.ofInt).flatMap (bytes16 (order sf))) vs.length) =
        store16 host (vs.map fun v => Int16.ofInt (coded host sf v)) := by
  have hbig := sfGetBigendian_lt sf
  have hrange : ∀ v ∈ vs, 0 ≤ v ∧ v < 65536 := by
    intro v hv
    have := hvs v hv
    rwa [InRange, hs, hbits, if_neg (by decide)] at this
  obtain hb | hb : sfGetBigendian sf = 0 ∨ sfGetBigendian sf = 1 := by omega
  · rw [if_pos hb]
    refine inPlace_coded host sf _ vs fun v hv => ?_
    show Int16.ofInt (((reloaded host (order sf) (UInt16.ofInt v)).toNat : Int) - 32768) = _
    rw [toNat_reloaded (hrange v hv), order, hb, coded_16 hbits, hs]
    cases host <;> rfl
  · rw [if_neg (by omega)]
    refine inPlace_coded host sf _ vs fun v hv => ?_
    show Int16.ofInt
      (((swapUint16 (reloaded host (order sf) (UInt16.ofInt v))).toNat : Int) - 32768) = _
    rw [swapUint16_reloaded_eq, toNat_reloaded (hrange v hv), order, hb, coded_16 hbits, hs]
    cases host <;> rfl

/-- Signed samples are swapped where they are not in the machine's order. -/
theorem signed_coded {sf : SampleFormat} (hbits : sfGetBits sf = 16) (hs : sfGetSigned sf = 1)
    (host : Endian) (vs : List Int) :
    (if order sf = host then (vs.map UInt16.ofInt).flatMap (bytes16 (order sf))
      else swapS16ByteOrder host ((vs.map UInt16.ofInt).flatMap (bytes16 (order sf))) vs.length) =
        store16 host (vs.map fun v => Int16.ofInt (coded host sf v)) := by
  have hcoded : ∀ v, (UInt16.ofInt v).toInt16 = Int16.ofInt (coded host sf v) := by
    intro v
    rw [coded_16 hbits, hs, ← int16_toUInt16_ofInt]
    rfl
  by_cases ho : order sf = host
  · rw [if_pos ho, ho, store16, List.flatMap_map, List.flatMap_map]
    refine List.flatMap_congr fun v _ => ?_
    rw [← hcoded]
    rfl
  · rw [if_neg ho]
    refine inPlace_coded host sf _ vs fun v _ => ?_
    show (swapUint16 (reloaded host (order sf) (UInt16.ofInt v))).toInt16 = _
    rw [reloaded, if_neg ho, swapUint16_swapUint16, hcoded]

theorem convert_16 {sf : SampleFormat} (h : Convertible sf) (hbits : sfGetBits sf = 16)
    (host : Endian) (tmp : Text) (vs : List Int) (hvs : ∀ v ∈ vs, InRange sf v) :
    (ipSetup host sf).convert tmp (vs.flatMap (encodeSample sf)) =
      store16 host ((toStereo sf (vs.map (coded host sf))).map Int16.ofInt) := by
  have hsrc : vs.flatMap (encodeSample sf) =
      (vs.map UInt16.ofInt).flatMap (bytes16 (order sf)) := by
    rw [List.flatMap_map]
    exact List.flatMap_congr fun v _ => encodeSample_16 hbits v
  have hlen : ((vs.map UInt16.ofInt).flatMap (bytes16 (order sf))).length / 2 = vs.length := by
    rw [length_flatMap_bytes16, Nat.mul_div_cancel_left _ (by decide), List.length_map]
  have hbuf : (if sfGetSigned sf = 0 then
      if sfGetBigendian sf = 0 then
        convertU16LeToS16Le host ((vs.map UInt16.ofInt).flatMap (bytes16 (order sf))) vs.length
      else convertU16BeToS16Le host ((vs.map UInt16.ofInt).flatMap (bytes16 (order sf))) vs.length
      else if order sf = host then (vs.map UInt16.ofInt).flatMap (bytes16 (order sf))
      else swapS16ByteOrder host ((vs.map UInt16.ofInt).flatMap (bytes16 (order sf))) vs.length) =
        store16 host (vs.map fun v => Int16.ofInt (coded host sf v)) := by
    have hsigned := sfGetSigned_lt sf
    obtain hs | hs : sfGetSigned sf = 0 ∨ sfGetSigned sf = 1 := by omega
    · rw [if_pos hs, unsigned_coded hbits hs host vs hvs]
    · rw [if_neg (by omega), signed_coded hbits hs]
  -- the second channel
  have hsecond := convert16_store16 host (vs.map fun v => Int16.ofInt (coded host sf v))
  rw [List.length_map] at hsecond
  rw [hsrc, setup_16 h hbits, hlen]
  dsimp only
  rw [hbuf, hsecond, toStereo]
  split
  · simp [List.flatMap_map, List.map_flatMap]
  · rw [List.map_map]
    rfl

theorem length_encodeSample (sf : SampleFormat) (v : Int) :
    (encodeSample sf v).length = sfGetSampleSize sf := by
  rw [encodeSample]
  split <;> simp

theorem length_frames {sf : SampleFormat} {frames : List (List Int)}
    (h : ∀ f ∈ frames, IsFrame sf f) :
    (frames.flatMap (encodeFrame sf)).length = frames.length * sfGetFrameSize sf := by
  induction frames with
  | nil => simp
  | cons f frames ih =>
    have hframe : (encodeFrame sf f).length = sfGetFrameSize sf := by
      rw [encodeFrame, List.length_flatMap, List.map_congr_left fun v _ => length_encodeSample sf v,
        List.map_const', List.sum_replicate, (h f List.mem_cons_self).channels, sfGetFrameSize,
        nsmul_eq_mul,
        Nat.cast_id, Nat.mul_comm]
    rw [List.flatMap_cons, List.length_append, hframe,
      ih fun g hg => h g (List.mem_cons_of_mem _ hg), List.length_cons, Nat.succ_mul, Nat.add_comm]

/-- The form of one value in the buffer. -/
def stored (host : Endian) (sf : SampleFormat) (w : Int) : Text :=
  if sfGetChannels sf = 1 then bytes16 host (UInt16.ofInt w) ++ bytes16 host (UInt16.ofInt w)
  else bytes16 host (UInt16.ofInt w)

theorem encodeFrame_stereo {sf : SampleFormat} (h : Convertible sf) (host : Endian)
    (ws : List Int) :
    encodeFrame (setBufferSf host sf) (toStereo sf ws) = ws.flatMap (stored host sf) := by
  have henc : encodeSample (setBufferSf host sf) = fun w => bytes16 host (UInt16.ofInt w) := by
    funext w
    exact encodeSample_buffer h host w
  have hstored : stored host sf = fun w =>
      if sfGetChannels sf = 1 then bytes16 host (UInt16.ofInt w) ++ bytes16 host (UInt16.ofInt w)
      else bytes16 host (UInt16.ofInt w) := rfl
  rw [encodeFrame, henc, hstored, toStereo]
  by_cases hch : sfGetChannels sf = 1
  · simp only [if_pos hch, List.flatMap_assoc, List.flatMap_cons, List.flatMap_nil, List.append_nil]
  · simp only [if_neg hch]

theorem convert_spec {sf : SampleFormat} (h : Convertible sf) (host : Endian) (tmp : Text)
    (vs : List Int) (hvs : ∀ v ∈ vs, InRange sf v) :
    (ipSetup host sf).convert tmp (vs.flatMap (encodeSample sf)) =
      vs.flatMap fun v => stored host sf (coded host sf v) := by
  have hstore : store16 host ((toStereo sf (vs.map (coded host sf))).map Int16.ofInt) =
      vs.flatMap fun v => stored host sf (coded host sf v) := by
    have hframe := encodeFrame_stereo h host (vs.map (coded host sf))
    rw [List.flatMap_map] at hframe
    rw [store16_map_ofInt, ← hframe, encodeFrame]
    exact List.flatMap_congr fun w _ => (encodeSample_buffer h host w).symm
  rw [← hstore]
  obtain hbits | hbits := h.bits
  · exact convert_8 h hbits host tmp vs
  · exact convert_16 h hbits host tmp vs hvs

theorem length_stored (host : Endian) (sf : SampleFormat) (w : Int) :
    (stored host sf w).length = if sfGetChannels sf = 1 then 4 else 2 := by
  rw [stored]
  split
  · rw [List.length_append, length_bytes16]
  · rw [length_bytes16]

/-- The scale is what the bytes grow by. -/
theorem scale_spec {sf : SampleFormat} (h : Convertible sf) (host : Endian) :
    (ipSetup host sf).sf = sf ∧
      sfGetSampleSize sf * (ipSetup host sf).pcmConvertScale =
        if sfGetChannels sf = 1 then 4 else 2 := by
  obtain hbits | hbits := h.bits <;> obtain hch | hch := h.channels <;>
    simp [ipSetup, hbits, hch, sfGetSampleSize]

theorem askedCount_mul_le (ip : InputPlugin) (count : Nat) (hscale : 0 < ip.pcmConvertScale) :
    ip.askedCount count * ip.pcmConvertScale ≤ count := by
  have hdiv := Nat.div_mul_le_self count ip.pcmConvertScale
  rw [InputPlugin.askedCount]
  by_cases hone : ip.pcmConvertScale > 1
  · rw [if_pos hone]
    dsimp only
    split
    · exact le_trans (Nat.mul_le_mul_right _ (by omega)) hdiv
    · exact hdiv
  · rw [if_neg hone, show ip.pcmConvertScale = 1 by omega, Nat.mul_one]

/-- Frame after frame, or sample after sample. -/
theorem flatten_flatMap (frames : List (List Int)) (g : Int → Text) :
    frames.flatten.flatMap g = frames.flatMap fun f => f.flatMap g := by
  rw [← List.flatMap_id, List.flatMap_assoc]
  rfl

theorem run_spec {sf : SampleFormat} (h : Convertible sf) {host : Endian} {r : Reading}
    (hr : Delivered host sf r) :
    ∃ x, r.run host sf = .ok x ∧ x.rc ≤ r.count ∧ (x.stored.length : Int) = x.rc ∧
      x.stored = r.frames.flatMap fun f =>
        encodeFrame (setBufferSf host sf) (toStereo sf (f.map (coded host sf))) := by
  obtain ⟨hsf, hgrow⟩ := scale_spec h host
  have hbuf : r.frames.flatMap (encodeFrame sf) = r.frames.flatten.flatMap (encodeSample sf) := by
    rw [flatten_flatMap]
    rfl
  have hrange : ∀ v ∈ r.frames.flatten, InRange sf v := by
    intro v hv
    obtain ⟨f, hf, hvf⟩ := List.mem_flatten.mp hv
    exact (hr.isFrame f hf).range v hvf
  have hform : r.frames.flatten.flatMap (fun v => stored host sf (coded host sf v)) =
      r.frames.flatMap fun f =>
        encodeFrame (setBufferSf host sf) (toStereo sf (f.map (coded host sf))) := by
    rw [flatten_flatMap]
    refine List.flatMap_congr fun f _ => ?_
    rw [encodeFrame_stereo h, List.flatMap_map]
  have hlength := length_frames hr.isFrame
  have hsize : 0 < sfGetFrameSize sf := by
    rw [sfGetFrameSize, sfGetSampleSize]
    obtain hb | hb := h.bits <;> obtain hc | hc := h.channels <;> rw [hb, hc] <;> decide
  have hpos : 0 < (r.frames.flatMap (encodeFrame sf)).length := by
    rw [hlength]
    exact Nat.mul_pos (List.length_pos_of_ne_nil hr.frames_ne) hsize
  have hscale : 0 < (ipSetup host sf).pcmConvertScale := by
    by_contra hzero
    rw [Nat.eq_zero_of_not_pos hzero] at hgrow
    split at hgrow <;> omega
  have hstored := convert_spec h host r.tmp r.frames.flatten hrange
  rw [← hbuf, hform] at hstored
  have hsamples : (r.frames.flatMap (encodeFrame sf)).length =
      r.frames.flatten.length * sfGetSampleSize sf := by
    rw [hbuf, List.length_flatMap, List.map_congr_left fun v _ => length_encodeSample sf v,
      List.map_const', List.sum_replicate, nsmul_eq_mul, Nat.cast_id]
  refine ⟨⟨((r.frames.flatMap (encodeFrame sf)).length * (ipSetup host sf).pcmConvertScale : Nat),
    false, (ipSetup host sf).convert r.tmp (r.frames.flatMap (encodeFrame sf)), ipSetup host sf⟩,
    ?_, ?_, ?_, hstored⟩
  · rw [Reading.run, ipRead, if_neg (by have := hr.count_pos; omega)]
    dsimp only
    generalize r.frames.flatMap (encodeFrame sf) = buf at *
    cases buf with
    | nil => exact absurd hpos (by simp)
    | cons byte bytes =>
      dsimp only
      rw [if_neg]
      rw [hsf, hlength, Nat.mul_mod_left]
      exact fun hne => hne rfl
  · show ((_ : Nat) : Int) ≤ _
    exact_mod_cast le_trans (Nat.mul_le_mul_right _ hr.fits) (askedCount_mul_le _ _ hscale)
  · show (((ipSetup host sf).convert r.tmp _).length : Int) = ((_ : Nat) : Int)
    rw [hstored, ← hform, List.length_flatMap,
      List.map_congr_left fun v _ => length_stored host sf _,
      List.map_const', List.sum_replicate, nsmul_eq_mul, Nat.cast_id, hsamples, Nat.mul_assoc,
      hgrow]

/-! ### All reads -/

/-- What the reads store is the form of the values the code takes the samples for. -/
theorem runs_spec {sf : SampleFormat} (h : Convertible sf) {host : Endian} (reads : List Reading)
    (hreads : ∀ r ∈ reads, Delivered host sf r) :
    ∃ results, reads.mapM (Reading.run host sf) = .ok results ∧
      List.Forall₂ (fun r x => x.rc ≤ r.count ∧ (x.stored.length : Int) = x.rc) reads results ∧
      results.flatMap (·.stored) = (reads.flatMap (·.frames)).flatMap fun f =>
        encodeFrame (setBufferSf host sf) (toStereo sf (f.map (coded host sf))) := by
  induction reads with
  | nil => exact ⟨[], rfl, .nil, rfl⟩
  | cons r reads ih =>
    obtain ⟨x, hx, hle, hlen, hstored⟩ := run_spec h (hreads r List.mem_cons_self)
    obtain ⟨results, hresults, hall, hform⟩ :=
      ih fun r' hr' => hreads r' (List.mem_cons_of_mem _ hr')
    refine ⟨x :: results, ?_, .cons ⟨hle, hlen⟩ hall, ?_⟩
    · rw [List.mapM_cons, hx, hresults]
      rfl
    · rw [List.flatMap_cons, List.flatMap_cons, List.flatMap_append, hform, hstored]

/-- Blocks of the same lengths, one after the other, are equal block by block. -/
theorem flatMap_blocks {α β : Type} {f g : α → List β} {l : List α}
    (hlen : ∀ x ∈ l, (f x).length = (g x).length) :
    l.flatMap f = l.flatMap g ↔ ∀ x ∈ l, f x = g x := by
  refine ⟨fun h => ?_, fun h => List.flatMap_congr h⟩
  induction l with
  | nil => simp
  | cons x l ih =>
    rw [List.flatMap_cons, List.flatMap_cons] at h
    obtain ⟨hhead, htail⟩ := List.append_inj h (hlen x List.mem_cons_self)
    intro y hy
    rcases List.mem_cons.mp hy with rfl | hy
    · exact hhead
    · exact ih (fun z hz => hlen z (List.mem_cons_of_mem _ hz)) htail y hy

theorem bytes16_inj {host : Endian} {x y : UInt16} (h : bytes16 host x = bytes16 host y) :
    x = y := by
  have hx := load16_bytes16 host host x []
  have hy := load16_bytes16 host host y []
  rw [h, hy, reloaded, reloaded, if_pos rfl, if_pos rfl] at hx
  have hword : y.toInt16.toUInt16 = x.toInt16.toUInt16 :=
    congrArg Int16.toUInt16 (List.cons.inj hx).1
  exact hword.symm

theorem stored_inj {host : Endian} {sf : SampleFormat} {w w' : Int}
    (h : stored host sf w = stored host sf w') : w % 65536 = w' % 65536 := by
  have hword : UInt16.ofInt w = UInt16.ofInt w' := by
    rw [stored, stored] at h
    split at h
    · exact bytes16_inj (List.append_inj h (by rw [length_bytes16, length_bytes16])).1
    · exact bytes16_inj h
  have hnat := congrArg UInt16.toNat hword
  rw [uint16_toNat_ofInt, uint16_toNat_ofInt] at hnat
  omega

/-- The forms of the frames agree exactly if the values do. -/
theorem frames_agree {sf : SampleFormat} (h : Convertible sf) (host : Endian)
    (frames : List (List Int))
    (c c' : Int → Int) :
    (frames.flatMap (fun f => encodeFrame (setBufferSf host sf) (toStereo sf (f.map c))) =
      frames.flatMap fun f => encodeFrame (setBufferSf host sf) (toStereo sf (f.map c'))) ↔
      ∀ f ∈ frames, ∀ v ∈ f, stored host sf (c v) = stored host sf (c' v) := by
  have hform : ∀ (k : Int → Int) (f : List Int),
      encodeFrame (setBufferSf host sf) (toStereo sf (f.map k)) =
        f.flatMap fun v => stored host sf (k v) := by
    intro k f
    rw [encodeFrame_stereo h, List.flatMap_map]
  simp only [hform]
  have hlen : ∀ f : List Int, ∀ v ∈ f,
      (stored host sf (c v)).length = (stored host sf (c' v)).length := by
    intro f v _
    rw [length_stored, length_stored]
  rw [flatMap_blocks fun f _ => ?_]
  · exact forall₂_congr fun f _ => flatMap_blocks (hlen f)
  · rw [List.length_flatMap, List.length_flatMap, List.map_congr_left (hlen f)]

/-- The conversion is right on a little-endian machine, for every format but unsigned 16-bit,
and for the samples that are the same in both orders; and only then. -/
theorem ip_read_converts (host : Endian) (sf : SampleFormat) (h : Convertible sf)
    (reads : List Reading)
    (hreads : ∀ r ∈ reads, Delivered host sf r) :
    Converted host sf reads ↔ OrderIrrelevant host sf (reads.flatMap (·.frames)) := by
  obtain ⟨results, hresults, hall, hform⟩ := runs_spec h reads hreads
  have hconverted : Converted host sf reads ↔ ∀ f ∈ reads.flatMap (·.frames), ∀ v ∈ f,
      stored host sf (coded host sf v) = stored host sf (recentre sf v) := by
    rw [← frames_agree h, ← hform]
    refine ⟨fun ⟨results', hresults', _, hnormal⟩ => ?_,
      fun hnormal => ⟨results, hresults, hall, hnormal⟩⟩
    obtain rfl := Except.ok.inj (hresults.symm.trans hresults')
    exact hnormal
  rw [hconverted]
  by_cases haffected : host = .big ∧ sfGetBits sf = 16 ∧ sfGetSigned sf = 0
  · obtain ⟨hhost, hbits, hs⟩ := haffected
    have hirrelevant : OrderIrrelevant host sf (reads.flatMap (·.frames)) ↔
        ∀ f ∈ reads.flatMap (·.frames), ∀ v ∈ f, v % 256 = v / 256 := by
      rw [OrderIrrelevant, hhost, hbits, hs]
      simp
    rw [hirrelevant]
    refine forall₂_congr fun f hf => forall₂_congr fun v hv => ?_
    obtain ⟨r, hr, hfr⟩ := List.mem_flatMap.mp hf
    have hrange := ((hreads r hr).isFrame f hfr).range v hv
    rw [InRange, hs, hbits, if_neg (by decide)] at hrange
    rw [coded_16 hbits, recentre, hs, hbits, hhost]
    refine ⟨fun heq => ?_, fun heq => ?_⟩
    · have := stored_inj heq
      simp at this hrange
      omega
    · simp
      congr 1
      omega
  · have hcoded : ∀ v, coded host sf v = recentre sf v := fun v => by rw [coded, if_neg haffected]
    have hsigned := sfGetSigned_lt sf
    refine iff_of_true (fun f _ v _ => by rw [hcoded]) ?_
    by_cases hhost : host = .little
    · exact .inl hhost
    · have hbig : host = .big := by
        cases host with
        | little => exact absurd rfl hhost
        | big => rfl
      obtain hbits | hbits := h.bits
      · exact .inr (.inl hbits)
      · exact .inr (.inr (.inl (by
          by_contra hs
          exact haffected ⟨hbig, hbits, by omega⟩)))

/-- Unsigned 16-bit little-endian, one channel. -/
def unsignedMono : SampleFormat := 0x01000010

/-- Unsigned 8-bit, one channel. -/
def byteMono : SampleFormat := 0x01000008

/-- Silence of an unsigned 16-bit file on a big-endian machine. -/
theorem ip_read_swapped :
    Convertible unsignedMono ∧ Delivered .big unsignedMono ⟨4, [], [[32768]]⟩ ∧
      ¬ Converted .big unsignedMono [⟨4, [], [[32768]]⟩] := by
  have hformat : Convertible unsignedMono := ⟨by decide, by decide⟩
  have hread : Delivered .big unsignedMono ⟨4, [], [[32768]]⟩ := by
    refine ⟨by decide, by decide, fun f hf => ?_, by decide⟩
    obtain rfl := List.mem_singleton.mp hf
    exact ⟨by decide, by decide⟩
  refine ⟨hformat, hread, fun ⟨results, hresults, _, hnormal⟩ => ?_⟩
  obtain ⟨results', hresults', -, hform⟩ := runs_spec hformat [⟨4, [], [[32768]]⟩] fun r hr => by
    rwa [List.mem_singleton.mp hr]
  obtain rfl := Except.ok.inj (hresults.symm.trans hresults')
  exact absurd (hform.symm.trans hnormal) (by decide +kernel)

theorem ip_read_converts_bytes :
    Converted .little byteMono [⟨9, [], [[0], [255]]⟩, ⟨4, [7], [[128]]⟩] := by
  refine (ip_read_converts .little byteMono ⟨by decide, by decide⟩ _ fun r hr => ?_).mpr (.inl rfl)
  have hall : ∀ f ∈ [[0], [255], [128]], IsFrame byteMono f := by
    intro f hf
    simp only [List.mem_cons, List.not_mem_nil, or_false] at hf
    rcases hf with rfl | rfl | rfl <;> exact ⟨by decide, by decide⟩
  simp only [List.mem_cons, List.not_mem_nil, or_false] at hr
  rcases hr with rfl | rfl
  · exact ⟨by decide, by decide, fun f hf => hall f (List.mem_append_left [[128]] hf), by decide⟩
  · exact ⟨by decide, by decide,
      fun f hf => hall f (List.mem_append_right [[0], [255]] hf), by decide⟩

end GracefulMusic.Samples
