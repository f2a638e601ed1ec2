import GracefulMusic.Cache.File

/-! What the checks of the cache file are worth (`cache.c`).

The strings of an entry that passes the check are an odd number of strings with
terminators. Three or more are decoded to the last; of a single one the decoder looks for
the second behind the entry. -/
namespace GracefulMusic.Cache
open Bytes (terminated)

theorem align_bounds (host : Host) (size : Nat) :
    size ≤ align host size ∧ (size < 2 ^ 32 → align host size ≤ 2 ^ 32) := by
  unfold align Host.longSize
  cases host.long64 with
  | true =>
    rw [if_pos rfl]
    omega
  | false =>
    rw [if_neg nofun]
    omega

/-! ### Strings -/

theorem takeWhile_ne_zero (s : CString) (b : Text) :
    (s.val ++ 0 :: b).takeWhile (fun c => decide (c ≠ 0)) = s.val := by
  rw [List.takeWhile_append_of_pos]
  · rw [List.takeWhile_cons_of_neg (by simp), List.append_nil]
  · intro c hc
    have hne : c ≠ 0 := fun h => s.property (h ▸ hc)
    simpa using hne

/-- A string that begins where another part ends. -/
theorem stringAt_of_split {row a b : Text} {s : CString} {pos : Nat}
    (hrow : row = a ++ (s.val ++ 0 :: b)) (hpos : pos = a.length) :
    stringAt row pos = some s := by
  subst hrow hpos
  unfold stringAt
  dsimp only
  simp only [List.drop_left, takeWhile_ne_zero]
  rw [if_pos (by simp)]

/-- Behind the end there is no string. -/
theorem stringAt_length (s : Text) : stringAt s s.length = none := by
  unfold stringAt
  dsimp only
  rw [if_neg (by simp)]

theorem terminated_pairStrings_cons (key value : CString) (rest : List (CString × CString)) :
    terminated (pairStrings ((key, value) :: rest)) =
      key.val ++ 0 :: (value.val ++ 0 :: terminated (pairStrings rest)) := rfl

theorem readPairs_of_split {row a : Text} {comments : List (CString × CString)} (pos : Nat)
    (hrow : row = a ++ terminated (pairStrings comments)) (hpos : pos = a.length) :
    readPairs row comments.length pos = some comments := by
  induction comments generalizing a pos with
  | nil => rfl
  | cons kv rest ih =>
    obtain ⟨key, value⟩ := kv
    rw [terminated_pairStrings_cons] at hrow
    have hkey := stringAt_of_split hrow hpos
    have hvalue : stringAt row (pos + key.val.length + 1) = some value :=
      stringAt_of_split (a := a ++ (key.val ++ [0])) (b := terminated (pairStrings rest))
        (by simp [hrow]) (by simp [hpos, Nat.add_assoc])
    have hrest := ih (a := a ++ (key.val ++ 0 :: (value.val ++ [0])))
      (pos + key.val.length + 1 + value.val.length + 1) (by simp [hrow])
      (by simp only [hpos, List.length_append, List.length_cons, List.length_nil]; omega)
    rw [List.length_cons, readPairs, hkey]
    simp only [Option.bind_eq_bind, Option.bind_some, hvalue, hrest]

/-- The strings of an entry: filename, codec, codec profile and pairs. -/
def rowOf (filename codec codecProfile : CString) (comments : List (CString × CString)) : Text :=
  terminated (filename.val :: codec.val :: codecProfile.val :: pairStrings comments)

theorem length_pairStrings (comments : List (CString × CString)) :
    (pairStrings comments).length = 2 * comments.length := by
  induction comments with
  | nil => rfl
  | cons kv rest ih =>
    rw [pairStrings, List.flatMap_cons, List.length_append, ← pairStrings, ih, List.length_cons]
    simp only [List.length_cons, List.length_nil]
    omega

theorem not_mem_pairStrings (comments : List (CString × CString)) :
    ∀ s ∈ pairStrings comments, (0 : UInt8) ∉ s := by
  intro s hs
  obtain ⟨kv, -, hs⟩ := List.mem_flatMap.mp hs
  rcases List.mem_cons.mp hs with rfl | hs
  · exact kv.1.property
  · rw [List.mem_singleton] at hs
    exact hs ▸ kv.2.property

theorem count_rowOf (filename codec codecProfile : CString)
    (comments : List (CString × CString)) :
    (rowOf filename codec codecProfile comments).count 0 = 2 * comments.length + 3 := by
  rw [rowOf, Bytes.count_terminated]
  · simp only [List.length_cons, length_pairStrings]
  · intro s hs
    simp only [List.mem_cons] at hs
    rcases hs with rfl | rfl | rfl | hs
    · exact filename.property
    · exact codec.property
    · exact codecProfile.property
    · exact not_mem_pairStrings comments s hs

/-- What is made of an entry with its three strings and its pairs. -/
def tiOf (n : Numbers) (filename codec codecProfile : CString)
    (comments : List (CString × CString)) : Ti where
  filename := filename
  comments := comments
  duration := n.duration
  bitrate := n.bitrate.toInt
  mtime := n.mtime
  playCount := n.playCount.toUInt32
  bpm := setBpm comments n.bpm
  codec := nonEmpty codec
  codecProfile := nonEmpty codecProfile

theorem cacheEntryToTi_rowOf (host : Host) (e : Text) (filename codec codecProfile : CString)
    (comments : List (CString × CString))
    (hrow : strings e (Numbers.read host e).size.toNat =
      rowOf filename codec codecProfile comments) :
    cacheEntryToTi host e =
      some (tiOf (Numbers.read host e) filename codec codecProfile comments) := by
  have hcount : ((rowOf filename codec codecProfile comments).count 0 - 3 : Int).tdiv 2 =
      comments.length := by
    rw [count_rowOf, show ((2 * comments.length + 3 : Nat) - 3 : Int) = 2 * comments.length by omega]
    exact Int.mul_tdiv_cancel_left _ (by decide)
  have hfilename : stringAt (rowOf filename codec codecProfile comments) 0 = some filename :=
    stringAt_of_split (a := []) rfl rfl
  have hcodec : stringAt (rowOf filename codec codecProfile comments)
      (filename.val.length + 1) = some codec :=
    stringAt_of_split (a := filename.val ++ [0])
      (b := codecProfile.val ++ 0 :: terminated (pairStrings comments))
      (by simp [rowOf, terminated]) (by simp)
  have hprofile : stringAt (rowOf filename codec codecProfile comments)
      (filename.val.length + 1 + codec.val.length + 1) = some codecProfile :=
    stringAt_of_split (a := filename.val ++ 0 :: (codec.val ++ [0]))
      (b := terminated (pairStrings comments)) (by simp [rowOf, terminated])
      (by simp only [List.length_append, List.length_cons, List.length_nil]; omega)
  have hpairs : readPairs (rowOf filename codec codecProfile comments) comments.length
      (filename.val.length + 1 + codec.val.length + 1 + codecProfile.val.length + 1) =
      some comments :=
    readPairs_of_split _
      (a := filename.val ++ 0 :: (codec.val ++ 0 :: (codecProfile.val ++ [0])))
      (by simp [rowOf, terminated])
      (by simp only [List.length_append, List.length_cons, List.length_nil]; omega)
  have hpos : ¬(comments.length : Int) < 0 := by omega
  unfold cacheEntryToTi
  simp only [hrow, hcount, Option.bind_eq_bind, hfilename, hcodec, hprofile, Option.bind_some,
    if_neg hpos, Int.toNat_natCast, hpairs]
  rfl

/-! ### Entries that pass the check -/

/-- An even number of strings is so many pairs. -/
theorem exists_pairs : ∀ ss : List Text, (∀ s ∈ ss, (0 : UInt8) ∉ s) → ss.length % 2 = 0 →
    ∃ comments, ss = pairStrings comments
  | [], _, _ => ⟨[], rfl⟩
  | [_], _, heven => absurd heven (by simp)
  | key :: value :: rest, hss, heven => by
    obtain ⟨comments, rfl⟩ := exists_pairs rest
      (fun s hs => hss s (List.mem_cons_of_mem _ (List.mem_cons_of_mem _ hs)))
      (by simp only [List.length_cons] at heven; omega)
    exact ⟨(⟨key, hss key (by simp)⟩, ⟨value, hss value (by simp)⟩) :: comments, rfl⟩

/-- The check, taken apart. -/
theorem validCacheEntry_eq_true {host : Host} {e : Text} {avail : Nat}
    (hvalid : validCacheEntry host e avail = some true) :
    entryTotalSize ≤ (uint32At host e 0).toNat ∧ (uint32At host e 0).toNat ≤ avail ∧
      (uint32At host e 0).toNat - entryTotalSize < 2 ^ 31 ∧
      (strings e (uint32At host e 0).toNat).count 0 % 2 = 1 ∧
      (strings e (uint32At host e 0).toNat).getLast? = some 0 := by
  unfold validCacheEntry at hvalid
  dsimp only at hvalid
  split at hvalid
  · cases hvalid
  split at hvalid
  · cases hvalid
  split at hvalid
  · cases hvalid
  split at hvalid
  · cases hvalid
  · rename_i hsize hint hodd
    refine ⟨by omega, by omega, by omega, by omega, ?_⟩
    simpa using hvalid

/-- The check can only fail to end where the entry has so many bytes of strings that an
`int` does not count them. -/
theorem validCacheEntry_eq_none {host : Host} {e : Text} {avail : Nat} :
    validCacheEntry host e avail = none ↔
      entryTotalSize ≤ (uint32At host e 0).toNat ∧ (uint32At host e 0).toNat ≤ avail ∧
        2 ^ 31 ≤ (uint32At host e 0).toNat - entryTotalSize := by
  unfold validCacheEntry
  dsimp only
  have hsmall : entryTotalSize = 80 := rfl
  split
  · exact iff_of_false nofun fun h => by omega
  split
  · exact iff_of_false nofun fun h => by omega
  split
  · rename_i h h' h''
    exact iff_of_true rfl ⟨by omega, by omega, h''⟩
  split
  · exact iff_of_false nofun fun h => by omega
  · exact iff_of_false nofun fun h => by omega

/-- **An entry that passes the check is decoded inside of it exactly when it has more than
one string**; there are as many pairs then as its terminators say. -/
theorem decodes_iff {host : Host} {e : Text} {avail : Nat}
    (hvalid : validCacheEntry host e avail = some true) :
    (∃ ti, cacheEntryToTi host e = some ti ∧
      (strings e (uint32At host e 0).toNat).count 0 = 2 * ti.comments.length + 3) ↔
    (strings e (uint32At host e 0).toNat).count 0 ≠ 1 := by
  obtain ⟨-, -, -, hodd, hlast⟩ := validCacheEntry_eq_true hvalid
  obtain ⟨ss, hss, hrow⟩ := Bytes.exists_terminated _ fun _ => hlast
  have hcount := Bytes.count_terminated hss
  rw [← hrow] at hcount
  constructor
  · rintro ⟨ti, -, hti⟩ hone
    omega
  · intro hne
    match ss, hss, hrow, hcount with
    | [], _, _, hcount => simp [hcount] at hodd
    | [s], _, _, hcount => simp [hcount] at hne
    | [s, t], _, _, hcount => simp [hcount] at hodd
    | filename :: codec :: codecProfile :: rest, hss, hrow, hcount =>
      have heven : rest.length % 2 = 0 := by
        simp only [List.length_cons] at hcount
        omega
      obtain ⟨comments, rfl⟩ := exists_pairs rest
        (fun s hs => hss s (by simp [hs])) heven
      have hdecode := cacheEntryToTi_rowOf host e ⟨filename, hss _ (by simp)⟩
        ⟨codec, hss _ (by simp)⟩ ⟨codecProfile, hss _ (by simp)⟩ comments hrow
      refine ⟨_, hdecode, ?_⟩
      rw [hcount]
      simp only [List.length_cons, length_pairStrings]
      rfl

/-- With one string the second is looked for where the entry ends. -/
theorem cacheEntryToTi_one {host : Host} {e : Text} {avail : Nat}
    (hvalid : validCacheEntry host e avail = some true)
    (hone : (strings e (uint32At host e 0).toNat).count 0 = 1) : cacheEntryToTi host e = none := by
  obtain ⟨-, -, -, -, hlast⟩ := validCacheEntry_eq_true hvalid
  obtain ⟨ss, hss, hrow⟩ := Bytes.exists_terminated _ fun _ => hlast
  have hcount := Bytes.count_terminated hss
  rw [← hrow, hone] at hcount
  obtain ⟨s, rfl⟩ := List.length_eq_one_iff.mp hcount.symm
  have hfilename : stringAt (strings e (uint32At host e 0).toNat) 0 =
      some ⟨s, hss s (List.mem_singleton_self s)⟩ :=
    stringAt_of_split (a := []) hrow rfl
  have hbehind : stringAt (strings e (uint32At host e 0).toNat) (s.length + 1) = none := by
    have h := stringAt_length (strings e (uint32At host e 0).toNat)
    rwa [congrArg List.length hrow, Bytes.length_terminated, List.map_singleton,
      List.sum_singleton] at h
  unfold cacheEntryToTi
  show (stringAt (strings e (uint32At host e 0).toNat) 0).bind _ = none
  rw [hfilename, Option.bind_some]
  show (stringAt (strings e (uint32At host e 0).toNat) (s.length + 1)).bind _ = none
  rw [hbehind, Option.bind_none]

end GracefulMusic.Cache
