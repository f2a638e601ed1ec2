import GracefulMusic.Playback.Volume

/-! Whole buffers at a volume (`player.c`).

A word of the buffer is loaded and stored in the format's byte order, so it is scaled as the
sample it stands for, and the loop over the frames scales all of them. -/
namespace GracefulMusic.Samples

/-! ### Words -/

theorem emod_mul_ediv (v m : Int) (hm : 0 < m) : v % (256 * m) / 256 = v / 256 % m := by
  have hsplit : v % (256 * m) = 256 * (v / 256 % m) + v % 256 := by
    have hv : v = 256 * (v / 256 % m) + v % 256 + 256 * m * (v / 256 / m) := by
      have hquot := Int.emod_add_mul_ediv (v / 256) m
      have hbyte := Int.emod_add_mul_ediv v 256
      have : 256 * m * (v / 256 / m) = 256 * (m * (v / 256 / m)) := by ring
      omega
    have hlow := Int.emod_nonneg (v / 256) (ne_of_gt hm)
    have hhigh := Int.emod_lt_of_pos (v / 256) hm
    conv_lhs => rw [hv]
    rw [Int.add_mul_emod_self_left]
    exact Int.emod_eq_of_lt (by omega) (by omega)
  omega

/-- The bytes of a number, the lowest first. -/
theorem littleBytes_eq (n : Nat) (v : Int) : Bytes.littleBytes n (v % 256 ^ n).toNat =
    (List.range n).map fun i => UInt8.ofInt (v / 256 ^ i) := by
  induction n generalizing v with
  | zero => rfl
  | succ n ih =>
    have hpow : (0 : Int) < 256 ^ n := by positivity
    have hsucc : (256 : Int) ^ (n + 1) = 256 * 256 ^ n := by ring
    have hnonneg := Int.emod_nonneg v (ne_of_gt (show (0 : Int) < 256 * 256 ^ n by positivity))
    have hlow : UInt8.ofNat (v % (256 * 256 ^ n)).toNat = UInt8.ofInt v := by
      apply UInt8.toNat_inj.mp
      have hmod := Int.emod_emod_of_dvd v (Int.dvd_mul_right 256 (256 ^ n))
      rw [uint8_toNat_ofInt, UInt8.toNat_ofNat']
      omega
    have hrest : (v % (256 * 256 ^ n)).toNat / 256 = (v / 256 % 256 ^ n).toNat := by
      have hdiv := emod_mul_ediv v (256 ^ n) hpow
      omega
    rw [Bytes.littleBytes, hsucc, hlow, hrest, ih, List.range_succ_eq_map, List.map_cons,
      List.map_map, pow_zero, Int.ediv_one]
    congr 1
    apply List.map_congr_left
    intro i _
    show UInt8.ofInt (v / 256 / 256 ^ i) = UInt8.ofInt (v / 256 ^ (i + 1))
    rw [Int.ediv_ediv_of_nonneg (by decide), pow_succ']

theorem encodeSample_eq (sf : SampleFormat) (v : Int) : encodeSample sf v =
    Bytes.ofNat (if sfGetBigendian sf = 1 then .big else .little) (sfGetSampleSize sf)
      (v % 256 ^ sfGetSampleSize sf).toNat := by
  unfold encodeSample
  split <;> simp only [Bytes.ofNat, littleBytes_eq]

/-- Storing with the swap that the format needs gives the format's bytes. -/
theorem storeWord_eq (host : Endian) (sf : SampleFormat) (v : Int) :
    storeWord host (sfNeedSwap host sf) (sfGetSampleSize sf) v = encodeSample sf v := by
  have hbit := sfGetBigendian_lt sf
  rw [encodeSample_eq]
  obtain hlittle | hbig : sfGetBigendian sf = 0 ∨ sfGetBigendian sf = 1 := by omega
  · cases host <;> simp [storeWord, sfNeedSwap, hlittle, Bytes.ofNat]
  · cases host <;> simp [storeWord, sfNeedSwap, hbig, Bytes.ofNat]

theorem loadWord_eq (host : Endian) (sf : SampleFormat) {bits : Nat} {v : Int}
    (hbits : 0 < bits) (hsize : bits = 8 * sfGetSampleSize sf) (h : InBits bits v) :
    loadWord host (sfNeedSwap host sf) (encodeSample sf v) = v := by
  have hbit := sfGetBigendian_lt sf
  have hlength := length_encodeSample sf v
  have hvalue : loadWord host (sfNeedSwap host sf) (encodeSample sf v) =
      ((Bytes.toNat (if sfGetBigendian sf = 1 then .big else .little) (encodeSample sf v) : Nat) :
        Int).bmod (256 ^ sfGetSampleSize sf) := by
    obtain hlittle | hbig : sfGetBigendian sf = 0 ∨ sfGetBigendian sf = 1 := by omega
    · cases host <;> simp [loadWord, sfNeedSwap, hlittle, Bytes.toNat, hlength]
    · cases host <;> simp [loadWord, sfNeedSwap, hbig, Bytes.toNat, hlength]
  have hpow : (256 : Int) ^ sfGetSampleSize sf = 2 * 2 ^ (bits - 1) := by
    rw [← pow_succ', Nat.sub_add_cancel hbits, hsize, pow_mul]
    rfl
  have hcast : (((v % 256 ^ sfGetSampleSize sf).toNat % 256 ^ sfGetSampleSize sf : Nat) : Int) =
      v % ((256 ^ sfGetSampleSize sf : Nat) : Int) := by
    push_cast
    rw [Int.toNat_of_nonneg (Int.emod_nonneg v (by positivity)), Int.emod_emod]
  rw [hvalue, encodeSample_eq, Bytes.toNat_ofNat, hcast, Int.emod_bmod]
  obtain ⟨hlow, hhigh⟩ := h
  apply Int.bmod_eq_of_le_mul_two
  · push_cast
    omega
  · push_cast
    omega

/-! ### Frames -/

/-- A frame is a sample for each side. -/
def encodeFrames (sf : SampleFormat) (frames : List (Int × Int)) : Text :=
  frames.flatMap fun f => encodeSample sf f.1 ++ encodeSample sf f.2

/-- The loop does what the two sides' functions do to each frame, as long as they are
defined. -/
theorem scaleLoop_frames {size : Nat} {enc : Int → Text} (hlength : ∀ s, (enc s).length = size)
    {l r : Text → Option Text} {L R : Int → Prop} [DecidablePred L] [DecidablePred R]
    {x y : Int → Int} (frames : List (Int × Int))
    (hl : ∀ f ∈ frames, l (enc f.1) = if L f.1 then some (enc (x f.1)) else none)
    (hr : ∀ f ∈ frames, r (enc f.2) = if R f.2 then some (enc (y f.2)) else none) (tail : Text) :
    scaleLoop size l r frames.length ((frames.flatMap fun f => enc f.1 ++ enc f.2) ++ tail) =
      if ∀ f ∈ frames, L f.1 ∧ R f.2 then
        some ((frames.flatMap fun f => enc (x f.1) ++ enc (y f.2)) ++ tail)
      else none := by
  induction frames with
  | nil => rw [if_pos fun f hf => absurd hf List.not_mem_nil]; rfl
  | cons f frames ih =>
    have hrest := ih (fun g hg => hl g (List.mem_cons_of_mem f hg))
      fun g hg => hr g (List.mem_cons_of_mem f hg)
    have htake : ∀ rest : Text, (enc f.1 ++ rest).take size = enc f.1 := fun rest =>
      List.take_left' (hlength f.1)
    have hdrop : ∀ rest : Text, (enc f.1 ++ rest).drop size = rest := fun rest =>
      List.drop_left' (hlength f.1)
    have htake₂ : ∀ rest : Text, (enc f.2 ++ rest).take size = enc f.2 := fun rest =>
      List.take_left' (hlength f.2)
    have hdrop₂ : ∀ rest : Text, (enc f.2 ++ rest).drop size = rest := fun rest =>
      List.drop_left' (hlength f.2)
    rw [List.length_cons, scaleLoop, List.flatMap_cons, List.append_assoc, List.append_assoc, htake,
      hdrop, htake₂, Nat.mul_two, ← List.drop_drop, hdrop, hdrop₂, hl f List.mem_cons_self,
      hr f List.mem_cons_self, hrest]
    simp only [List.forall_mem_cons, List.flatMap_cons, List.append_assoc]
    by_cases hL : L f.1
    · by_cases hR : R f.2
      · by_cases hall : ∀ f ∈ frames, L f.1 ∧ R f.2
        · simp only [if_pos hL, if_pos hR, if_pos hall, if_pos (show (_ ∧ _) ∧ _ from
            ⟨⟨hL, hR⟩, hall⟩)]
          simp
        · have hnot : ¬((L f.1 ∧ R f.2) ∧ ∀ f ∈ frames, L f.1 ∧ R f.2) := fun h => hall h.2
          simp only [if_pos hL, if_pos hR, if_neg hall, if_neg hnot]
          rfl
      · simp [hL, hR]
    · simp [hL]

/-- One side's function: a factor of 65536 leaves the side alone. -/
def side (scale : Int → Text → Option Text) (vol : Int) : Text → Option Text :=
  if vol ≠ softVolScale then scale vol else some

theorem scaleLoop_some (size frames : Nat) (buf : Text) :
    scaleLoop size some some frames buf = some buf := by
  induction frames generalizing buf with
  | zero => rfl
  | succ frames ih =>
    rw [scaleLoop, ih]
    show some (buf.take size ++ (buf.drop size).take size ++ buf.drop (size * 2)) = some buf
    rw [Nat.mul_two, ← List.drop_drop, List.append_assoc, List.take_append_drop,
      List.take_append_drop]

theorem scaleFrames_eq (size : Nat) (scale : Int → Text → Option Text) (l r : Int) (buf : Text) :
    scaleFrames size scale l r buf =
      scaleLoop size (side scale l) (side scale r) (buf.length / size / 2) buf := by
  unfold scaleFrames side
  by_cases hl : l = softVolScale
  · by_cases hr : r = softVolScale
    · simp only [hl, hr, ne_eq, not_true_eq_false, if_false, and_self, scaleLoop_some]
    · simp only [hl, hr, ne_eq, not_true_eq_false, not_false_eq_true, if_false, if_true, and_true]
  · by_cases hr : r = softVolScale
    · simp only [hl, hr, ne_eq, not_true_eq_false, not_false_eq_true, if_false, if_true, and_false]
    · simp only [hl, hr, ne_eq, not_false_eq_true, if_true, and_self]

section
variable {scale : Int → Text → Option Text} {width bits : Nat} {sf : SampleFormat} {l r : Int}

theorem side_eq (hscale : ∀ vol s, InBits bits s →
      scale vol (encodeSample sf s) = (scaleSample width bits s vol).map (encodeSample sf))
    {vol s : Int} (hvol : 0 ≤ vol) (h : InBits bits s) : side scale vol (encodeSample sf s) =
      if vol = softVolScale ∨ Fits width s vol then some (encodeSample sf (scaledValue bits s vol))
      else none := by
  unfold side
  by_cases hunit : vol = softVolScale
  · rw [if_neg (not_not.mpr hunit), if_pos (.inl hunit), hunit, scaledValue_unit h]
  · rw [if_pos hunit, hscale vol s h, scaleSample_eq hvol]
    by_cases hfits : Fits width s vol
    · rw [if_pos hfits, if_pos (.inr hfits)]
      rfl
    · rw [if_neg hfits, if_neg (not_or.mpr ⟨hunit, hfits⟩)]
      rfl

/-- What is left over behind the last frame is not touched. -/
theorem scaleFrames_frames (hsize : 0 < sfGetSampleSize sf)
    (hscale : ∀ vol s, InBits bits s →
      scale vol (encodeSample sf s) = (scaleSample width bits s vol).map (encodeSample sf))
    (hl : 0 ≤ l) (hr : 0 ≤ r) {frames : List (Int × Int)}
    (hframes : ∀ f ∈ frames, InBits bits f.1 ∧ InBits bits f.2) {tail : Text}
    (htail : tail.length < sfGetSampleSize sf * 2) :
    scaleFrames (sfGetSampleSize sf) scale l r (encodeFrames sf frames ++ tail) =
      if ∀ f ∈ frames, (l = softVolScale ∨ Fits width f.1 l) ∧ (r = softVolScale ∨ Fits width f.2 r)
      then some (encodeFrames sf (frames.map fun f =>
        (scaledValue bits f.1 l, scaledValue bits f.2 r)) ++ tail)
      else none := by
  have hlength : (encodeFrames sf frames).length = frames.length * (sfGetSampleSize sf * 2) := by
    unfold encodeFrames
    clear hframes
    induction frames with
    | nil => exact (Nat.zero_mul _).symm
    | cons f frames ih =>
      rw [List.flatMap_cons, List.length_append, ih, List.length_append, length_encodeSample,
        length_encodeSample, List.length_cons, Nat.succ_mul]
      omega
  have hcount : (encodeFrames sf frames ++ tail).length / sfGetSampleSize sf / 2 =
      frames.length := by
    rw [List.length_append, hlength, Nat.div_div_eq_div_mul, Nat.mul_comm,
      Nat.mul_add_div (by omega), Nat.div_eq_of_lt htail, Nat.add_zero]
  have hloop := @scaleLoop_frames _ _ (length_encodeSample sf) (side scale l) (side scale r)
    (fun s => l = softVolScale ∨ Fits width s l) (fun s => r = softVolScale ∨ Fits width s r) _ _
    (fun s => scaledValue bits s l) (fun s => scaledValue bits s r) frames
    (fun f hf => side_eq hscale hl (hframes f hf).1)
    (fun f hf => side_eq hscale hr (hframes f hf).2) tail
  rw [scaleFrames_eq, hcount]
  unfold encodeFrames
  rw [List.flatMap_map]
  exact hloop

end

/-! ### The volume -/

namespace Volume
variable (v : Volume)

theorem factor_range (vol : Nat) : 0 ≤ v.factor vol ∧ v.factor vol ≤ softVolScale := by
  have htable : (softVolDb.all fun c => decide (0 ≤ c ∧ c ≤ softVolScale)) = true := by
    decide +kernel
  unfold factor
  split
  · rw [List.getD_eq_getElem?_getD]
    cases hentry : softVolDb[vol]? with
    | none => exact ⟨Int.le_refl 0, by decide⟩
    | some c =>
      exact of_decide_eq_true (List.all_eq_true.mp htable c (List.mem_of_getElem? hentry))
  · exact ⟨by decide, Int.le_refl _⟩

theorem left_range : 0 ≤ v.left ∧ v.left < 2 ^ 31 :=
  v.rgTimes_range _ (v.factor_range _).1 (v.factor_range _).2

theorem right_range : 0 ≤ v.right ∧ v.right < 2 ^ 31 :=
  v.rgTimes_range _ (v.factor_range _).1 (v.factor_range _).2

/-- Full volume without replay gain. -/
theorem unit (h : v.rgIsOne ∧ v.softVolL = 100 ∧ v.softVolR = 100) :
    v.left = softVolScale ∧ v.right = softVolScale := by
  obtain ⟨hone, hl, hr⟩ := h
  unfold left right factor
  rw [v.rgTimes_one hone, if_neg fun h => h.2 hl, if_neg fun h => h.2 hr]
  exact ⟨rfl, rfl⟩

end Volume

/-- The product of a 16-bit sample fits in an `int`; a 24-bit big-endian sample is the same
scaled or not. -/
def Scalable (sf : SampleFormat) (sample vol : Int) : Prop :=
  (sfGetBits sf = 16 → vol = softVolScale ∨ Fits 32 sample vol) ∧
    (sfGetBits sf = 24 → sfGetBigendian sf = 1 → LeftAlone 24 sample vol)

theorem scaledValue_inBits (bits : Nat) (sample vol : Int) :
    InBits bits (scaledValue bits sample vol) := by
  have hpow : (0 : Int) < 2 ^ (bits - 1) := by positivity
  unfold InBits scaledValue
  omega

theorem encodeSample_inj {sf : SampleFormat} (hsize : 0 < sfGetSampleSize sf) {s t : Int}
    (hs : InBits (8 * sfGetSampleSize sf) s) (ht : InBits (8 * sfGetSampleSize sf) t) :
    encodeSample sf s = encodeSample sf t ↔ s = t := by
  refine ⟨fun h => ?_, fun h => by rw [h]⟩
  have hload := congrArg (loadWord .little (sfNeedSwap .little sf)) h
  rwa [loadWord_eq .little sf (by omega) rfl hs, loadWord_eq .little sf (by omega) rfl ht] at hload

theorem encodeFrames_inj {sf : SampleFormat} (hsize : 0 < sfGetSampleSize sf)
    {x y : Int → Int} (hx : ∀ s, InBits (8 * sfGetSampleSize sf) (x s))
    (hy : ∀ s, InBits (8 * sfGetSampleSize sf) (y s)) {frames : List (Int × Int)}
    (hframes : ∀ f ∈ frames, InBits (8 * sfGetSampleSize sf) f.1 ∧
      InBits (8 * sfGetSampleSize sf) f.2) :
    encodeFrames sf frames = encodeFrames sf (frames.map fun f => (x f.1, y f.2)) ↔
      ∀ f ∈ frames, x f.1 = f.1 ∧ y f.2 = f.2 := by
  induction frames with
  | nil => exact iff_of_true rfl fun f hf => absurd hf List.not_mem_nil
  | cons f frames ih =>
    obtain ⟨hl, hr⟩ := hframes f List.mem_cons_self
    have hrest := ih fun g hg => hframes g (List.mem_cons_of_mem f hg)
    have happend : ∀ s t u w, encodeSample sf s ++ u = encodeSample sf t ++ w ↔
        encodeSample sf s = encodeSample sf t ∧ u = w := by
      intro s t u w
      refine ⟨fun h => List.append_inj h ?_, fun h => by rw [h.1, h.2]⟩
      rw [length_encodeSample, length_encodeSample]
    have hcons : ∀ g gs, encodeFrames sf (g :: gs) =
        encodeSample sf g.1 ++ (encodeSample sf g.2 ++ encodeFrames sf gs) := fun g gs => by
      rw [encodeFrames, List.flatMap_cons, List.append_assoc]
      rfl
    rw [List.map_cons, hcons, hcons, happend, happend, encodeSample_inj hsize hl (hx _),
      encodeSample_inj hsize hr (hy _), hrest, List.forall_mem_cons]
    constructor
    · intro h
      exact ⟨⟨h.1.symm, h.2.1.symm⟩, h.2.2⟩
    · intro h
      exact ⟨h.1.1.symm, h.1.2.symm, h.2⟩

/-- The frames as they should be played. -/
def scaledFrames (sf : SampleFormat) (v : Volume) (frames : List (Int × Int)) : List (Int × Int) :=
  frames.map fun f =>
    (scaledValue (sfGetBits sf) f.1 v.left, scaledValue (sfGetBits sf) f.2 v.right)

/-- The formats that are scaled. -/
structure Stereo (sf : SampleFormat) : Prop where
  channels : sfGetChannels sf = 2
  bits : sfGetBits sf = 16 ∨ sfGetBits sf = 24 ∨ sfGetBits sf = 32

theorem Stereo.sampleSize {sf : SampleFormat} (h : Stereo sf) :
    sfGetBits sf = 8 * sfGetSampleSize sf ∧ 0 < sfGetSampleSize sf := by
  unfold sfGetSampleSize
  obtain hbits | hbits | hbits := h.bits <;> rw [hbits] <;> decide

theorem encodeSample_24 {sf : SampleFormat} (hbits : sfGetBits sf = 24)
    (horder : sfGetBigendian sf = 0) (s : Int) : encodeSample sf s = writeS24le s := by
  unfold encodeSample sfGetSampleSize
  rw [hbits, if_neg (by omega)]
  simp [List.range_succ, writeS24le]

theorem readS24le_write {s : Int} (h : InBits 24 s) : readS24le (writeS24le s) = s := by
  have hhigh := toInt8_emod (UInt8.ofInt (s / 2 ^ 16))
  have hrange := (UInt8.ofInt (s / 2 ^ 16)).toInt8.toInt_lt
  have hrange' := (UInt8.ofInt (s / 2 ^ 16)).toInt8.le_toInt
  obtain ⟨hlow, hlimit⟩ := h
  rw [uint8_toNat_ofInt] at hhigh
  rw [writeS24le, readS24le, uint8_toNat_ofInt, uint8_toNat_ofInt]
  omega

/-- A word in memory is scaled as the sample it stands for. -/
theorem scaleWord_eq (host : Endian) {sf : SampleFormat} (hsf : Stereo sf) (width : Nat)
    {size : Nat} (hsize : size = sfGetSampleSize sf) (vol : Int) {s : Int} (hs : InBits (sfGetBits sf) s) :
    (scaleSample width (sfGetBits sf) (loadWord host (sfNeedSwap host sf) (encodeSample sf s))
        vol).map (storeWord host (sfNeedSwap host sf) size) =
      (scaleSample width (sfGetBits sf) s vol).map (encodeSample sf) := by
  have hbits := hsf.sampleSize
  rw [loadWord_eq host sf (by omega) hbits.1 hs, hsize]
  congr 1
  funext x
  exact storeWord_eq host sf x

section
variable {sf : SampleFormat} {v : Volume} {frames : List (Int × Int)} {tail : Text}
  (hsf : Stereo sf)
  (hframes : ∀ f ∈ frames, InBits (sfGetBits sf) f.1 ∧ InBits (sfGetBits sf) f.2)
include hsf hframes

/-- Where the buffer stays what it is, all samples have to be their own scaled values. -/
theorem unscaled_exact_iff : some (encodeFrames sf frames ++ tail) =
    some (encodeFrames sf (scaledFrames sf v frames) ++ tail) ↔
      ∀ f ∈ frames, scaledValue (sfGetBits sf) f.1 v.left = f.1 ∧
        scaledValue (sfGetBits sf) f.2 v.right = f.2 := by
  have hbits := hsf.sampleSize
  have hinj := @encodeFrames_inj sf hbits.2 (scaledValue (sfGetBits sf) · v.left)
    (scaledValue (sfGetBits sf) · v.right) (fun s => hbits.1 ▸ scaledValue_inBits _ s _)
    (fun s => hbits.1 ▸ scaledValue_inBits _ s _) frames (hbits.1 ▸ hframes)
  rw [Option.some.injEq, List.append_left_inj]
  exact hinj

/-- Where all frames are gone through, the products have to fit. -/
theorem scaleFrames_exact_iff (htail : tail.length < sfGetSampleSize sf * 2)
    (scale : Int → Text → Option Text) (width : Nat)
    (hscale : ∀ vol s, InBits (sfGetBits sf) s → scale vol (encodeSample sf s) =
      (scaleSample width (sfGetBits sf) s vol).map (encodeSample sf)) :
    scaleFrames (sfGetSampleSize sf) scale v.left v.right (encodeFrames sf frames ++ tail) =
        some (encodeFrames sf (scaledFrames sf v frames) ++ tail) ↔
      ∀ f ∈ frames, (v.left = softVolScale ∨ Fits width f.1 v.left) ∧
        (v.right = softVolScale ∨ Fits width f.2 v.right) := by
  rw [scaleFrames_frames hsf.sampleSize.2 hscale v.left_range.1 v.right_range.1 hframes htail]
  split
  · rename_i hall
    exact iff_of_true rfl hall
  · rename_i hnot
    exact iff_of_false (fun h => by cases h) hnot

/-- In 64 bits they always do. -/
theorem scaleFrames_exact_64 (htail : tail.length < sfGetSampleSize sf * 2)
    (scale : Int → Text → Option Text)
    (hscale : ∀ vol s, InBits (sfGetBits sf) s → scale vol (encodeSample sf s) =
      (scaleSample 64 (sfGetBits sf) s vol).map (encodeSample sf)) :
    scaleFrames (sfGetSampleSize sf) scale v.left v.right (encodeFrames sf frames ++ tail) =
      some (encodeFrames sf (scaledFrames sf v frames) ++ tail) := by
  have hbits : sfGetBits sf ≤ 32 := by
    obtain h | h | h := hsf.bits <;> omega
  apply (scaleFrames_exact_iff hsf hframes htail scale 64 hscale).mpr
  refine fun f hf => ⟨.inr ?_, .inr ?_⟩
  · exact fits_64 hbits (hframes f hf).1 v.left_range.1 v.left_range.2
  · exact fits_64 hbits (hframes f hf).2 v.right_range.1 v.right_range.2

end

/-- 16-bit little-endian stereo. -/
def stereo16 : SampleFormat := 0x02000012

def halfVolume : Volume where
  softVol := true
  softVolL := 50
  softVolR := 50
  rgIsOne := true
  rgTimes := id
  softVolL_le := by decide
  softVolR_le := by decide
  rgTimes_one := fun _ => rfl
  rgTimes_range := fun x hx hle => ⟨hx, lt_of_le_of_lt hle (by decide)⟩

theorem stereo16_stereo : Stereo stereo16 := ⟨by decide, by decide⟩

/-- `replaygain_scale` is 2. -/
def doubled : Volume where
  softVol := false
  softVolL := 100
  softVolR := 100
  rgIsOne := false
  rgTimes x := 2 * x
  softVolL_le := by decide
  softVolR_le := by decide
  rgTimes_one := fun h => absurd h Bool.false_ne_true
  rgTimes_range := fun x hx hle => by
    unfold softVolScale at hle
    omega

end GracefulMusic.Samples
