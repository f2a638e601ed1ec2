import GracefulMusic.Cache.Decoder

/-! Whatever is in the cache file (`cache.c`).

The loop of `read_cache` goes from entry to entry by their sizes. At each of them it stays
inside of the entry and goes forward exactly when the entry `Fits`. -/
namespace GracefulMusic.Cache

section
variable (host : Host) (file : Text)

/-- The size that the loop knows of. -/
def fileSize : Nat := file.length % 2 ^ 32

def contents : Text := file.take (fileSize file)

/-- The size of the entry at an offset. -/
def sizeAt (p : Nat) : Nat := (uint32At host ((contents file).drop p) 0).toNat

def validAt (p : Nat) : Option Bool :=
  validCacheEntry host ((contents file).drop p) (fileSize file - p)

/-- The strings of the entry at an offset. -/
def stringsAt (p : Nat) : Text := strings ((contents file).drop p) (sizeAt host file p)

/-- The offsets that the loop comes to. -/
inductive Visited : Nat → Prop
  | start (hlength : 8 ≤ file.length) (hsize : fileSize file ≠ 0)
    (hheader : file.take 8 = cacheHeader host) : Visited 8
  | next {p : Nat} (h : Visited p) (hp : p < fileSize file)
    (hvalid : validAt host file p = some true) : Visited (nextOffset host (contents file) p)

/-- At an offset the check ends. Where the entry passes it, it is decoded inside of it, with
as many pairs as its terminators say; it lies in the file, and the loop goes forward. -/
structure ReadsWell (p : Nat) : Prop where
  checked : validAt host file p ≠ none
  decoded : validAt host file p = some true →
    ∃ ti, cacheEntryToTi host ((contents file).drop p) = some ti ∧
      (stringsAt host file p).count 0 = 2 * ti.comments.length + 3
  inside : validAt host file p = some true → p + sizeAt host file p ≤ fileSize file
  forward : validAt host file p = some true → p < nextOffset host (contents file) p

/-- The strings of an entry that can be one are counted by an `int`; an entry that passes
the check has more than one, and the offset behind it is an `unsigned int`. -/
structure Fits (p : Nat) : Prop where
  counted : entryTotalSize ≤ sizeAt host file p → sizeAt host file p ≤ fileSize file - p →
    sizeAt host file p - entryTotalSize < 2 ^ 31
  strings : validAt host file p = some true → (stringsAt host file p).count 0 ≠ 1
  offset : validAt host file p = some true → p + align host (sizeAt host file p) < 2 ^ 32

end

variable {host : Host} {file : Text} {p : Nat}

theorem fileSize_lt (file : Text) : fileSize file < 2 ^ 32 := Nat.mod_lt _ (by decide)

/-- An offset that no longer is one has gone back. -/
theorem forward_iff (hp : p < fileSize file) (hvalid : validAt host file p = some true) :
    p < nextOffset host (contents file) p ↔ p + align host (sizeAt host file p) < 2 ^ 32 := by
  have hsize := fileSize_lt file
  obtain ⟨hmin, hmax, -⟩ := validCacheEntry_eq_true hvalid
  obtain ⟨hge, hle⟩ := align_bounds host (sizeAt host file p)
  have hmin' : 80 ≤ sizeAt host file p := hmin
  have hmax' : sizeAt host file p ≤ fileSize file - p := hmax
  have hle' := hle (by omega)
  show p < (p + align host (sizeAt host file p)) % 2 ^ 32 ↔ _
  omega

theorem readsWell_iff_fits (hp : p < fileSize file) :
    ReadsWell host file p ↔ Fits host file p := by
  constructor
  · intro h
    refine ⟨fun hmin hmax => ?_, fun hvalid => (decodes_iff hvalid).mp (h.decoded hvalid),
      fun hvalid => (forward_iff hp hvalid).mp (h.forward hvalid)⟩
    by_contra hlarge
    exact h.checked (validCacheEntry_eq_none.mpr ⟨hmin, hmax, not_lt.mp hlarge⟩)
  · intro h
    refine ⟨fun hnone => ?_, fun hvalid => (decodes_iff hvalid).mpr (h.strings hvalid),
      fun hvalid => ?_, fun hvalid => (forward_iff hp hvalid).mpr (h.offset hvalid)⟩
    · obtain ⟨hmin, hmax, hlarge⟩ := validCacheEntry_eq_none.mp hnone
      exact absurd (h.counted hmin hmax) (not_lt.mpr hlarge)
    · obtain ⟨-, hmax, -⟩ := validCacheEntry_eq_true hvalid
      have hmax' : sizeAt host file p ≤ fileSize file - p := hmax
      omega

/-- From an offset on the loop comes to its end. -/
theorem readLoop_isSome (h : ∀ q, Visited host file q → q < fileSize file → ReadsWell host file q)
    (hp : Visited host file p) {fuel : Nat} (hfuel : fileSize file - p < fuel) (t : Table Ti) :
    (readLoop host (contents file) (fileSize file) fuel p t).isSome := by
  induction fuel generalizing p t with
  | zero => exact absurd hfuel (Nat.not_lt_zero _)
  | succ fuel ih =>
    unfold readLoop
    split
    · rename_i hlt
      have hwell := h p hp hlt
      obtain ⟨valid, hvalid⟩ := Option.ne_none_iff_exists'.mp hwell.checked
      have hcheck : validCacheEntry host ((contents file).drop p) (fileSize file - p) =
          some valid := hvalid
      rw [hcheck]
      cases valid with
      | false => rfl
      | true =>
        obtain ⟨ti, hti, -⟩ := hwell.decoded hvalid
        have hforward := hwell.forward hvalid
        simp only [Option.bind_eq_bind, Option.bind_some, hti, if_true]
        exact ih (.next hp hlt hvalid) (by omega) _
    · rfl

/-- **The cache file is read safely exactly when its entries fit**: at every offset that
the loop comes to the check ends, an entry that passes it is decoded inside of it and with
the right number of pairs, and the loop goes forward to its end. -/
theorem read_cache_safe (host : Host) (file : Text) :
    ((∀ p, Visited host file p → p < fileSize file → ReadsWell host file p) ∧
      (readCache host file).isSome) ↔
    ∀ p, Visited host file p → p < fileSize file → Fits host file p := by
  constructor
  · exact fun h p hp hlt => (readsWell_iff_fits hlt).mp (h.1 p hp hlt)
  · intro h
    have hwell : ∀ p, Visited host file p → p < fileSize file → ReadsWell host file p :=
      fun p hp hlt => (readsWell_iff_fits hlt).mpr (h p hp hlt)
    refine ⟨hwell, ?_⟩
    unfold readCache
    split
    · rfl
    · rename_i hlength
      dsimp only
      split
      · rfl
      split
      · rfl
      · rename_i hsize hheader
        exact readLoop_isSome hwell (.start (not_lt.mp hlength) hsize (not_not.mp hheader))
          (Nat.lt_succ_of_le (Nat.sub_le _ _)) _

/-- A file with one entry of 81 bytes, whose only string is empty. -/
def oneStringFile : Text :=
  cacheHeader ⟨.little, true⟩ ++ [81, 0, 0, 0] ++ List.replicate 77 0

/-- It passes the check, and its codec is looked for behind it. -/
theorem one_string_decoded_outside :
    Visited ⟨.little, true⟩ oneStringFile 8 ∧ 8 < fileSize oneStringFile ∧
      validAt ⟨.little, true⟩ oneStringFile 8 = some true ∧
      cacheEntryToTi ⟨.little, true⟩ ((contents oneStringFile).drop 8) = none := by
  refine ⟨.start (by decide) (by decide) (by decide), by decide, by decide +kernel,
    by decide +kernel⟩

end GracefulMusic.Cache
