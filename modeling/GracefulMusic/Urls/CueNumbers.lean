import GracefulMusic.Urls.CueTimes

/-! Looking up a track by its number (`cue.h`).

A sheet keeps its base and how many tracks it has, and no numbers. What it finds is compared
with the numbers on the TRACK lines it was parsed from. -/
namespace GracefulMusic.Cue

/-- The number on the first TRACK line. -/
def firstNumber (numbers : List UInt32) : Nat := (numbers.head?.getD 0).toNat

/-- The number on the last one. -/
def lastNumber (numbers : List UInt32) : Nat := (numbers.getLast?.getD 0).toNat

/-- What the sheet counts from: as many numbers as it has tracks, back from the last. -/
def baseNumber (numbers : List UInt32) : Nat :=
  ((numbers.getLast?.getD 0 + 1).toUInt64 - UInt64.ofNat numbers.length).toNat

/-- A number finds a track if it is one of the sheet's, and the track it finds has it. -/
structure Finds (numbers : List UInt32) (s : CueSheet) (n : UInt64) : Prop where
  found : (cueGetTrack s n).isSome ↔
    firstNumber numbers ≤ n.toNat ∧ n.toNat < firstNumber numbers + numbers.length
  inside : ∀ i, cueGetTrack s n = some i → i.toNat < s.tracks.length
  numbered : ∀ i, cueGetTrack s n = some i →
    (numbers.map UInt32.toNat)[i.toNat]? = some n.toNat

/-- Behind a track that is numbered like -1 any number may follow. A number is then looked up
as it should be where it belongs to no track, or where the track has it that stands as far
from the first one as the number does from the base. -/
def Elsewhere (numbers : List UInt32) (n : Nat) : Prop :=
  ¬ (baseNumber numbers ≤ n ∧ n ≤ baseNumber numbers + numbers.length) ∧
      ¬ (firstNumber numbers ≤ n ∧ n < firstNumber numbers + numbers.length) ∨
    (firstNumber numbers ≤ n ∧ n < firstNumber numbers + numbers.length) ∧
      baseNumber numbers ≤ n ∧
      (numbers.map UInt32.toNat)[n - baseNumber numbers]? = some n

/-- The number is not the one behind the last. -/
def Located (numbers : List UInt32) (n : Nat) : Prop :=
  if 2 ^ 32 - 1 ∉ numbers.map UInt32.toNat then n ≠ lastNumber numbers + 1
  else Elsewhere numbers n

theorem trackNumbersLoop_length (fuel : Nat) (src : Text) :
    (trackNumbersLoop fuel src).length ≤ fuel := by
  induction fuel generalizing src with
  | zero => exact le_refl _
  | succ fuel ih =>
    rw [trackNumbersLoop]
    split
    · have hrest := ih (cueSkipLine src)
      have hone : (trackNumber src).toList.length ≤ 1 := by
        cases trackNumber src <;> simp
      rw [List.length_append]
      omega
    · exact Nat.zero_le _

/-- A track is found from the base up to one behind the last. -/
theorem cueGetTrack_eq_some_iff {s : CueSheet} (hsize : s.tracks.length < 2 ^ 64) {n i : UInt64} :
    cueGetTrack s n = some i ↔ s.trackBase.toNat ≤ n.toNat ∧
      n.toNat ≤ s.trackBase.toNat + s.tracks.length ∧ i.toNat = n.toNat - s.trackBase.toNat := by
  have hcount : s.numTracks.toNat = s.tracks.length := UInt64.toNat_ofNat_of_lt' hsize
  rw [cueGetTrack]
  by_cases hlow : n < s.trackBase
  · rw [if_pos (.inl hlow)]
    have hlow := UInt64.lt_iff_toNat_lt.mp hlow
    exact iff_of_false (fun h => by cases h) fun h => by omega
  · have hle := UInt64.not_lt.mp hlow
    have hsub : (n - s.trackBase).toNat = n.toNat - s.trackBase.toNat :=
      UInt64.toNat_sub_of_le _ _ hle
    have hle := UInt64.le_iff_toNat_le.mp hle
    by_cases hhigh : n - s.trackBase > s.numTracks
    · rw [if_pos (.inr hhigh)]
      have hhigh := UInt64.lt_iff_toNat_lt.mp hhigh
      rw [hsub, hcount] at hhigh
      exact iff_of_false (fun h => by cases h) fun h => by omega
    · rw [if_neg (not_or.mpr ⟨hlow, hhigh⟩), Option.some.injEq, ← UInt64.toNat_inj, hsub]
      have hhigh := UInt64.le_iff_toNat_le.mp (UInt64.not_lt.mp hhigh)
      rw [hsub, hcount] at hhigh
      omega

theorem cueGetTrack_isSome_iff {s : CueSheet} (hsize : s.tracks.length < 2 ^ 64) {n : UInt64} :
    (cueGetTrack s n).isSome ↔ s.trackBase.toNat ≤ n.toNat ∧
      n.toNat ≤ s.trackBase.toNat + s.tracks.length := by
  rw [Option.isSome_iff_exists]
  constructor
  · intro h
    obtain ⟨i, hi⟩ := h
    obtain ⟨hlow, hhigh, -⟩ := (cueGetTrack_eq_some_iff hsize).mp hi
    exact ⟨hlow, hhigh⟩
  · intro h
    have hlt : n.toNat - s.trackBase.toNat < 2 ^ 64 :=
      lt_of_le_of_lt (Nat.sub_le _ _) n.toNat_lt
    exact ⟨UInt64.ofNat (n.toNat - s.trackBase.toNat), (cueGetTrack_eq_some_iff hsize).mpr
      ⟨h.1, h.2, UInt64.toNat_ofNat_of_lt' hlt⟩⟩

section
variable {numbers : List UInt32} {s : CueSheet} {n : UInt64}

/-- Numbers that follow each other. -/
theorem finds_iff_of_range (hsize : s.tracks.length < 2 ^ 64)
    (hlength : s.tracks.length = numbers.length) (hne : numbers ≠ [])
    (hrange : numbers.map UInt32.toNat = List.range' s.trackBase.toNat numbers.length) :
    Finds numbers s n ↔ n.toNat ≠ lastNumber numbers + 1 := by
  have hpos := List.length_pos_of_ne_nil hne
  have hfirst : firstNumber numbers = s.trackBase.toNat := by
    have hhead := congrArg List.head? hrange
    obtain ⟨m, hm⟩ := Nat.exists_eq_add_one.mpr hpos
    rw [hm, List.range'_succ, List.head?_cons, List.head?_map] at hhead
    obtain ⟨k, hk, hnat⟩ := Option.map_eq_some_iff.mp hhead
    rw [firstNumber, hk, Option.getD_some, hnat]
  have hlast : lastNumber numbers + 1 = s.trackBase.toNat + numbers.length := by
    have hend := congrArg List.getLast? hrange
    obtain ⟨m, hm⟩ := Nat.exists_eq_add_one.mpr hpos
    rw [hm, List.range'_concat, List.getLast?_concat, List.getLast?_map] at hend
    obtain ⟨k, hk, hnat⟩ := Option.map_eq_some_iff.mp hend
    rw [lastNumber, hk, Option.getD_some, hnat, hm]
    omega
  rw [hlast]
  constructor
  · intro h heq
    -- the number behind the last finds what is behind the tracks
    obtain ⟨i, hi⟩ := Option.isSome_iff_exists.mp
      ((cueGetTrack_isSome_iff hsize (n := n)).mpr ⟨by omega, by omega⟩)
    obtain ⟨-, -, hindex⟩ := (cueGetTrack_eq_some_iff hsize).mp hi
    have hinside := h.inside i hi
    omega
  · intro hn
    refine ⟨?_, ?_, ?_⟩
    · rw [cueGetTrack_isSome_iff hsize, hfirst]
      omega
    · intro i hi
      obtain ⟨hlow, hhigh, hindex⟩ := (cueGetTrack_eq_some_iff hsize).mp hi
      omega
    · intro i hi
      obtain ⟨hlow, hhigh, hindex⟩ := (cueGetTrack_eq_some_iff hsize).mp hi
      rw [hrange, hindex, List.getElem?_range' (by omega)]
      congr 1
      omega

/-- Any numbers. -/
theorem finds_iff_elsewhere (hsize : s.tracks.length < 2 ^ 64)
    (hlength : s.tracks.length = numbers.length) (hbase : s.trackBase.toNat = baseNumber numbers) :
    Finds numbers s n ↔ Elsewhere numbers n.toNat := by
  rw [Elsewhere, ← hbase, ← hlength]
  constructor
  · intro h
    by_cases hfound : (cueGetTrack s n).isSome
    · right
      obtain ⟨i, hi⟩ := Option.isSome_iff_exists.mp hfound
      obtain ⟨hlow, hhigh, hindex⟩ := (cueGetTrack_eq_some_iff hsize).mp hi
      have hfirst := h.found.mp hfound
      rw [← hlength] at hfirst
      have hnumber := h.numbered i hi
      rw [hindex] at hnumber
      exact ⟨hfirst, hlow, hnumber⟩
    · left
      have hfirst := mt h.found.mpr hfound
      rw [← hlength] at hfirst
      exact ⟨mt (cueGetTrack_isSome_iff hsize).mpr hfound, hfirst⟩
  · intro h
    obtain ⟨hout, hfirst⟩ | ⟨hfirst, hlow, hnumber⟩ := h
    · have hnone := mt (cueGetTrack_isSome_iff hsize).mp hout
      refine ⟨iff_of_false hnone (by rwa [← hlength]), fun i hi => ?_, fun i hi => ?_⟩ <;>
        exact absurd (Option.isSome_of_eq_some hi) hnone
    · obtain ⟨hin, -⟩ := List.getElem?_eq_some_iff.mp hnumber
      rw [List.length_map] at hin
      refine ⟨iff_of_true ((cueGetTrack_isSome_iff hsize).mpr ⟨hlow, by omega⟩)
        (by rwa [← hlength]), fun i hi => ?_, fun i hi => ?_⟩
      · obtain ⟨-, -, hindex⟩ := (cueGetTrack_eq_some_iff hsize).mp hi
        omega
      · obtain ⟨-, -, hindex⟩ := (cueGetTrack_eq_some_iff hsize).mp hi
        rwa [hindex]

end

/-- A number is looked up as it should be, if and only if it is not the one behind the last
track, or the sheet has a track that is numbered like -1 and the number is looked up as it
should be by chance. -/
theorem cueGetTrack_finds_iff {src : Text} {s : CueSheet} (hparse : cueParse src = some s)
    (hsrc : src.length < 2 ^ 64) (n : UInt64) :
    Finds (trackNumbers src) s n ↔ Located (trackNumbers src) n.toNat := by
  obtain ⟨hlength, hnumbersNe, hbase⟩ := cueParse_tracks hparse
  obtain ⟨herr, hne, horder, -, -, -⟩ := cueParse_stages hparse
  have hsize : s.tracks.length < 2 ^ 64 := by
    rw [hlength]
    exact lt_of_le_of_lt (trackNumbersLoop_length src.length src) hsrc
  have hbase' : s.trackBase.toNat = baseNumber (trackNumbers src) := by
    rw [hbase, baseNumber]
  rw [Located]
  split
  · next hmax =>
    have hall : ∀ k ∈ trackNumbers src, k.toNat ≠ 2 ^ 32 - 1 := fun k hk heq =>
      hmax (heq ▸ List.mem_map_of_mem hk)
    have hnumbers := trackNumbers_eq herr
    have hread : ∀ t ∈ readTracks src, t.nr.toNat ≠ 2 ^ 32 - 1 := by
      intro t ht
      apply hall
      rw [hnumbers]
      exact List.mem_map_of_mem ht
    obtain ⟨first, hfirst⟩ := inOrder_start hne hread horder
    have hrange : (trackNumbers src).map UInt32.toNat =
        List.range' first (trackNumbers src).length := by
      rw [hnumbers, List.map_map, List.length_map]
      exact hfirst
    have hstart : s.trackBase.toNat = first := by
      rw [hbase]
      exact base_eq_first hnumbersNe hrange hall
    rw [← hstart] at hrange
    exact finds_iff_of_range hsize hlength hnumbersNe hrange
  · exact finds_iff_elsewhere hsize hlength hbase'

def twoTracks : Text :=
  ascii "FILE a WAVE\nTRACK 4 AUDIO\nINDEX 1 0:0:0\nTRACK 5 AUDIO\nINDEX 1 0:20:0\n"

theorem cueGetTrack_finds_five :
    ∃ s, cueParse twoTracks = some s ∧ Finds (trackNumbers twoTracks) s 5 := by
  obtain ⟨s, hs⟩ := Option.isSome_iff_exists.mp
    (show (cueParse twoTracks).isSome = true by decide +kernel)
  have hnumbers : trackNumbers twoTracks = [4, 5] := by decide +kernel
  refine ⟨s, hs, (cueGetTrack_finds_iff hs (by decide +kernel) 5).mpr ?_⟩
  rw [hnumbers, Located, if_pos (by decide)]
  decide

/-- The number behind the last finds what is behind the tracks. -/
theorem cueGetTrack_behind :
    ∃ s, cueParse twoTracks = some s ∧ s.tracks.length = 2 ∧ cueGetTrack s 6 = some 2 ∧
      ¬ Finds (trackNumbers twoTracks) s 6 := by
  obtain ⟨s, hs⟩ := Option.isSome_iff_exists.mp
    (show (cueParse twoTracks).isSome = true by decide +kernel)
  have hget : (cueParse twoTracks).map (fun s => (s.tracks.length, cueGetTrack s 6)) =
      some (2, some 2) := by
    decide +kernel
  rw [hs, Option.map_some, Option.some.injEq, Prod.mk.injEq] at hget
  obtain ⟨hlength, htrack⟩ := hget
  refine ⟨s, hs, hlength, htrack, fun h => ?_⟩
  have hinside := h.inside 2 htrack
  rw [hlength] at hinside
  exact absurd hinside (by decide)

end GracefulMusic.Cue
