import Mathlib.Algebra.Order.Ring.Nat
import Mathlib.Algebra.Order.BigOperators.Group.List
import GracefulMusic.Cache.Decoder

/-! What is written to the cache file is read back (`cache.c`).

The file is the header and the entries, each from the next multiple of the size of a `long`
on, wherever the buffer was flushed (`layout`). The reader comes to the same offsets by the
sizes of the entries. Sizes and offsets stay what they are only as far as the integers go
that the code keeps them in. -/
namespace GracefulMusic.Cache
open Bytes (terminated)

/-! ### Entries -/

theorem uint32At_of_split {host : Host} {e a b : Text} {x : UInt32} {pos : Nat}
    (he : e = a ++ (Bytes.ofNat host.order 4 x.toNat ++ b)) (hpos : pos = a.length) :
    uint32At host e pos = x := by
  subst he hpos
  have htake : (Bytes.ofNat host.order 4 x.toNat ++ b).take 4 = Bytes.ofNat host.order 4 x.toNat :=
    List.take_left' (Bytes.length_ofNat ..)
  rw [uint32At, List.drop_left, htake, Bytes.toNat_ofNat, Nat.mod_eq_of_lt (by exact x.toNat_lt),
    UInt32.ofNat_toNat]

theorem uint64At_of_split {host : Host} {e a b : Text} {x : UInt64} {pos : Nat}
    (he : e = a ++ (Bytes.ofNat host.order 8 x.toNat ++ b)) (hpos : pos = a.length) :
    uint64At host e pos = x := by
  subst he hpos
  have htake : (Bytes.ofNat host.order 8 x.toNat ++ b).take 8 = Bytes.ofNat host.order 8 x.toNat :=
    List.take_left' (Bytes.length_ofNat ..)
  rw [uint64At, List.drop_left, htake, Bytes.toNat_ofNat, Nat.mod_eq_of_lt (by exact x.toNat_lt),
    UInt64.ofNat_toNat]

theorem length_bytes (host : Host) (n : Numbers) : (n.bytes host).length = entryTotalSize := by
  simp [Numbers.bytes, entryReservedSize, entryTotalSize]

/-- The numbers of an entry are read back. -/
theorem read_bytes (host : Host) (n : Numbers) (rest : Text) :
    Numbers.read host (n.bytes host ++ rest) = n := by
  have hsize : uint32At host (n.bytes host ++ rest) 0 = n.size :=
    uint32At_of_split (a := []) (by
      simp only [Numbers.bytes, List.append_assoc, List.nil_append]
      rfl) rfl
  have hplayCount : uint32At host (n.bytes host ++ rest) 4 = n.playCount.toUInt32 :=
    uint32At_of_split (a := Bytes.ofNat host.order 4 n.size.toNat) (by
      simp only [Numbers.bytes, List.append_assoc]
      rfl) (by simp)
  have hmtime : uint64At host (n.bytes host ++ rest) 8 = n.mtime.toUInt64 :=
    uint64At_of_split (a := Bytes.ofNat host.order 4 n.size.toNat ++
      Bytes.ofNat host.order 4 n.playCount.toUInt32.toNat) (by
      simp only [Numbers.bytes, List.append_assoc]
      rfl) (by simp)
  have hduration : uint32At host (n.bytes host ++ rest) 16 = n.duration.toUInt32 :=
    uint32At_of_split (a := Bytes.ofNat host.order 4 n.size.toNat ++
      (Bytes.ofNat host.order 4 n.playCount.toUInt32.toNat ++
      Bytes.ofNat host.order 8 n.mtime.toUInt64.toNat)) (by
      simp only [Numbers.bytes, List.append_assoc]
      rfl) (by simp)
  have hbitrate : uint32At host (n.bytes host ++ rest) 20 = n.bitrate.toUInt32 :=
    uint32At_of_split (a := Bytes.ofNat host.order 4 n.size.toNat ++
      (Bytes.ofNat host.order 4 n.playCount.toUInt32.toNat ++
      (Bytes.ofNat host.order 8 n.mtime.toUInt64.toNat ++
      Bytes.ofNat host.order 4 n.duration.toUInt32.toNat))) (by
      simp only [Numbers.bytes, List.append_assoc]
      rfl) (by simp)
  have hbpm : uint32At host (n.bytes host ++ rest) 24 = n.bpm.toUInt32 :=
    uint32At_of_split (a := Bytes.ofNat host.order 4 n.size.toNat ++
      (Bytes.ofNat host.order 4 n.playCount.toUInt32.toNat ++
      (Bytes.ofNat host.order 8 n.mtime.toUInt64.toNat ++
      (Bytes.ofNat host.order 4 n.duration.toUInt32.toNat ++
      Bytes.ofNat host.order 4 n.bitrate.toUInt32.toNat)))) (by
      simp only [Numbers.bytes, List.append_assoc]
      rfl) (by simp)
  rw [Numbers.read, hsize, hplayCount, hmtime, hduration, hbitrate, hbpm]
  rfl

/-! ### The layout of the file -/

/-- The bytes of the strings of an entry. -/
def stringBytes (ti : Ti) : Nat := (terminated (tiStrings ti)).length

def entrySize (ti : Ti) : Nat := entryTotalSize + stringBytes ti

section
variable (host : Host)

def entryBytes (ti : Ti) : Text :=
  (numbers ti (entrySize ti)).bytes host ++ terminated (tiStrings ti)

def padding (length : Nat) : Text := List.replicate (align host length - length) 0

/-- What follows what is in the file already. -/
def layout : List Ti → Text → Text
  | [], acc => acc
  | ti :: rest, acc => layout rest (acc ++ padding host acc.length ++ entryBytes host ti)

end

variable {host : Host} {ti : Ti}

theorem length_entryBytes (host : Host) (ti : Ti) : (entryBytes host ti).length = entrySize ti := by
  rw [entryBytes, List.length_append, length_bytes]
  rfl

theorem le_align (host : Host) (length : Nat) : length ≤ align host length :=
  (align_bounds host length).1

theorem align_align_add (host : Host) (length size : Nat) :
    align host (align host length + size) = align host length + align host size := by
  unfold align Host.longSize
  cases host.long64 with
  | true =>
    rw [if_pos rfl]
    omega
  | false =>
    rw [if_neg nofun]
    omega

theorem length_padding (host : Host) (acc : Text) :
    (acc ++ padding host acc.length).length = align host acc.length := by
  have h := le_align host acc.length
  rw [List.length_append, padding, List.length_replicate]
  omega

/-- An entry takes at least a byte. -/
theorem length_layout_ge (host : Host) (tis : List Ti) (acc : Text) :
    acc.length + tis.length ≤ (layout host tis acc).length := by
  induction tis generalizing acc with
  | nil => exact le_refl _
  | cons ti rest ih =>
    have hpos : 0 < entrySize ti := Nat.lt_of_lt_of_le (by decide) (Nat.le_add_right ..)
    have hrest := ih (acc ++ padding host acc.length ++ entryBytes host ti)
    rw [List.length_append, length_entryBytes, List.length_append] at hrest
    rw [layout, List.length_cons]
    omega

/-- What is laid out stays where it is. -/
theorem exists_layout_append (host : Host) (tis : List Ti) (acc : Text) :
    ∃ rest, layout host tis acc = acc ++ rest := by
  induction tis generalizing acc with
  | nil => exact ⟨[], (List.append_nil acc).symm⟩
  | cons ti tis ih =>
    obtain ⟨rest, hrest⟩ := ih (acc ++ padding host acc.length ++ entryBytes host ti)
    exact ⟨_, by rw [layout, hrest, List.append_assoc, List.append_assoc]⟩

/-! ### Reading an entry -/

/-- What is read back for an info: no string for an empty one, and the beats from the
comments where there are none. -/
def reread (ti : Ti) : Ti :=
  {ti with
    bpm := setBpm ti.comments ti.bpm
    codec := ti.codec.bind nonEmpty
    codecProfile := ti.codecProfile.bind nonEmpty}

/-- A pointer to a string as it is written. -/
def stringOf (s : Option CString) : CString := s.getD .empty

theorem val_stringOf (s : Option CString) : (stringOf s).val = orEmpty s := by
  cases s <;> rfl

theorem nonEmpty_stringOf (s : Option CString) : nonEmpty (stringOf s) = s.bind nonEmpty := by
  cases s <;> rfl

theorem terminated_tiStrings (ti : Ti) : terminated (tiStrings ti) =
    rowOf ti.filename (stringOf ti.codec) (stringOf ti.codecProfile) ti.comments := by
  rw [rowOf, val_stringOf, val_stringOf]
  rfl

theorem size_entryBytes (hsize : entrySize ti < 2 ^ 32) (rest : Text) :
    (uint32At host (entryBytes host ti ++ rest) 0).toNat = entrySize ti := by
  have hread := congrArg Numbers.size (read_bytes host (numbers ti (entrySize ti))
    (terminated (tiStrings ti) ++ rest))
  rw [← List.append_assoc] at hread
  have hsame : uint32At host (entryBytes host ti ++ rest) 0 = .ofNat (entrySize ti) := hread
  rw [hsame]
  exact UInt32.toNat_ofNat_of_lt' hsize

theorem strings_entryBytes (ti : Ti) (rest : Text) :
    strings (entryBytes host ti ++ rest) (entrySize ti) = terminated (tiStrings ti) := by
  rw [strings, entryBytes, List.append_assoc, List.drop_left' (length_bytes ..)]
  exact List.take_left' (by rw [entrySize, Nat.add_sub_cancel_left]; rfl)

/-- The check of an entry that was written counts its strings, or fails to. -/
theorem validCacheEntry_entryBytes (hsize : entrySize ti < 2 ^ 32) (rest : Text) {avail : Nat}
    (havail : entrySize ti ≤ avail) :
    validCacheEntry host (entryBytes host ti ++ rest) avail =
      if stringBytes ti < 2 ^ 31 then some true else none := by
  have hmin : entryTotalSize ≤ entrySize ti := Nat.le_add_right ..
  have hcount : (terminated (tiStrings ti)).count 0 = 2 * ti.comments.length + 3 := by
    rw [terminated_tiStrings, count_rowOf]
  have hlast : (terminated (tiStrings ti)).getLast? = some 0 := Bytes.getLast?_terminated nofun
  have hdiff : entrySize ti - entryTotalSize = stringBytes ti := Nat.add_sub_cancel_left ..
  unfold validCacheEntry
  dsimp only
  rw [size_entryBytes hsize, strings_entryBytes, hcount, hlast, hdiff, if_neg (by omega),
    if_neg (by omega)]
  split
  · rw [if_neg (by omega)]
  · rw [if_neg (by omega), if_pos (by omega)]
    simp

/-- **An entry that was written is read back**. -/
theorem cacheEntryToTi_entryBytes (hsize : entrySize ti < 2 ^ 32)
    (hbitrate : -2 ^ 31 ≤ ti.bitrate ∧ ti.bitrate < 2 ^ 31) (rest : Text) :
    cacheEntryToTi host (entryBytes host ti ++ rest) = some (reread ti) := by
  have hread : Numbers.read host (entryBytes host ti ++ rest) = numbers ti (entrySize ti) := by
    rw [entryBytes, List.append_assoc]
    exact read_bytes ..
  have hn : (numbers ti (entrySize ti)).size.toNat = entrySize ti :=
    UInt32.toNat_ofNat_of_lt' hsize
  rw [cacheEntryToTi_rowOf host _ ti.filename (stringOf ti.codec) (stringOf ti.codecProfile)
    ti.comments (by rw [hread, hn, strings_entryBytes, terminated_tiStrings]), hread]
  simp only [tiOf, numbers, reread, nonEmpty_stringOf, UInt32.toUInt32_toInt32,
    Int32.toInt_ofInt_of_le hbitrate.1 hbitrate.2]

/-! ### Reading the file -/

/-- The entry at the aligned end of what comes before it. -/
theorem drop_layout (host : Host) (ti : Ti) (tis : List Ti) (acc : Text) :
    ∃ rest, (layout host (ti :: tis) acc).drop (align host acc.length) =
      entryBytes host ti ++ rest := by
  obtain ⟨rest, hrest⟩ := exists_layout_append host tis
    (acc ++ padding host acc.length ++ entryBytes host ti)
  refine ⟨rest, ?_⟩
  rw [layout, hrest, List.append_assoc]
  exact List.drop_left' (length_padding host acc)

theorem length_step (host : Host) (ti : Ti) (acc : Text) :
    (acc ++ padding host acc.length ++ entryBytes host ti).length =
      align host acc.length + entrySize ti := by
  rw [List.length_append, length_padding, length_entryBytes]

/-- One round of the loop at an entry that was written. -/
theorem readLoop_entry {tis : List Ti} {acc buf : Text}
    (hbuf : buf = layout host (ti :: tis) acc) (hsize : buf.length < 2 ^ 32)
    (hbitrate : -2 ^ 31 ≤ ti.bitrate ∧ ti.bitrate < 2 ^ 31) (fuel : Nat) (t : Table Ti) :
    readLoop host buf buf.length (fuel + 1) (align host acc.length % 2 ^ 32) t =
      if stringBytes ti < 2 ^ 31 then
        readLoop host buf buf.length fuel
          (align host (acc ++ padding host acc.length ++ entryBytes host ti).length % 2 ^ 32)
          (addEntry t (reread ti))
      else none := by
  obtain ⟨rest, hrest⟩ := drop_layout host ti tis acc
  have hge : align host acc.length + entrySize ti ≤ buf.length := by
    rw [hbuf, layout, ← length_step]
    exact le_trans (Nat.le_add_right ..) (length_layout_ge host _ _)
  have hpos : 0 < entrySize ti := Nat.lt_of_lt_of_le (by decide) (Nat.le_add_right ..)
  have hentry : entrySize ti < 2 ^ 32 := by omega
  have hoffset : align host acc.length % 2 ^ 32 = align host acc.length :=
    Nat.mod_eq_of_lt (by omega)
  have hnext : nextOffset host buf (align host acc.length) =
      align host (acc ++ padding host acc.length ++ entryBytes host ti).length % 2 ^ 32 := by
    rw [nextOffset, hbuf, hrest, size_entryBytes hentry, length_step, align_align_add]
  rw [hoffset, readLoop, if_pos (by omega), hnext]
  rw [← hbuf] at hrest
  rw [hrest, validCacheEntry_entryBytes hentry rest (by omega)]
  split
  · simp only [Option.bind_eq_bind, Option.bind_some, if_true,
      cacheEntryToTi_entryBytes hentry hbitrate]
  · rfl

/-- The entries are read one after the other, as long as their strings are counted. -/
theorem readLoop_layout {tis : List Ti} {acc buf : Text} (hbuf : buf = layout host tis acc)
    (hsize : buf.length < 2 ^ 32)
    (hbitrate : ∀ ti ∈ tis, -2 ^ 31 ≤ ti.bitrate ∧ ti.bitrate < 2 ^ 31) (fuel : Nat)
    (t : Table Ti) :
    readLoop host buf buf.length (fuel + tis.length) (align host acc.length % 2 ^ 32) t =
      if ∀ ti ∈ tis, stringBytes ti < 2 ^ 31 then
        readLoop host buf buf.length fuel (align host buf.length % 2 ^ 32)
          ((tis.map reread).foldl addEntry t)
      else none := by
  induction tis generalizing acc t with
  | nil =>
    rw [if_pos nofun, hbuf]
    rfl
  | cons ti tis ih =>
    rw [List.length_cons, ← Nat.add_assoc,
      readLoop_entry hbuf hsize (hbitrate ti (List.mem_cons_self ..))]
    have hrest := ih (t := addEntry t (reread ti)) hbuf
      fun u hu => hbitrate u (List.mem_cons_of_mem ti hu)
    by_cases hti : stringBytes ti < 2 ^ 31
    · rw [if_pos hti, hrest]
      simp only [List.forall_mem_cons, hti, true_and]
      rfl
    · rw [if_neg hti, if_neg fun h => hti (h ti (List.mem_cons_self ..))]

theorem entries_addEntry (t : Table Ti) (ti : Ti) :
    (addEntry t ti).entries.Perm (ti :: t.entries) := t.entries_addTi _ ti

/-- The loop only adds to the table, and adds something where there is something left. -/
theorem length_of_readLoop {buf : Text} {size fuel offset : Nat} {t t' : Table Ti}
    (hread : readLoop host buf size fuel offset t = some (.ok t')) :
    t.entries.length ≤ t'.entries.length ∧ (offset < size → t.entries.length < t'.entries.length) := by
  induction fuel generalizing offset t with
  | zero => cases hread
  | succ fuel ih =>
    unfold readLoop at hread
    split at hread
    · obtain ⟨valid, -, hread⟩ := Option.bind_eq_some_iff.mp hread
      cases valid with
      | false => cases hread
      | true =>
        obtain ⟨ti, -, hread⟩ := Option.bind_eq_some_iff.mp hread
        have hadd := (entries_addEntry t ti).length_eq
        rw [List.length_cons] at hadd
        have hle := (ih hread).1
        exact ⟨by omega, fun _ => by omega⟩
    · rename_i hoffset
      cases hread
      exact ⟨le_refl _, fun h => absurd h hoffset⟩

theorem entries_foldl (tis : List Ti) (t : Table Ti) :
    (tis.foldl addEntry t).entries.Perm (tis ++ t.entries) ∧
      (tis.foldl addEntry t).total = tis.length + t.total := by
  induction tis generalizing t with
  | nil => exact ⟨.refl _, (Nat.zero_add _).symm⟩
  | cons ti tis ih =>
    obtain ⟨hperm, htotal⟩ := ih (addEntry t ti)
    refine ⟨hperm.trans ?_, ?_⟩
    · exact ((entries_addEntry t ti).append_left tis).trans List.perm_middle
    · have hadd : (addEntry t ti).total = t.total + 1 := rfl
      rw [List.foldl_cons, htotal, hadd, List.length_cons]
      omega

theorem length_cacheHeader (host : Host) : (cacheHeader host).length = 8 := rfl

theorem readCache_eq {tis : List Ti} {buf : Text} (hbuf : buf = layout host tis (cacheHeader host))
    (hsize : buf.length < 2 ^ 32) :
    readCache host buf = readLoop host buf buf.length (buf.length + 1) 8 Table.empty := by
  obtain ⟨rest, hrest⟩ := exists_layout_append host tis (cacheHeader host)
  have hlength : 8 ≤ buf.length := by
    have h := length_layout_ge host tis (cacheHeader host)
    rw [← hbuf, length_cacheHeader] at h
    omega
  have hheader : buf.take 8 = cacheHeader host := by
    rw [hbuf, hrest]
    exact List.take_left' (length_cacheHeader host)
  unfold readCache
  dsimp only
  rw [Nat.mod_eq_of_lt hsize, if_neg (by omega), if_neg (by omega),
    if_neg (not_not.mpr hheader), List.take_length]

/-- **What the layout of a cache reads back as.** -/
theorem readCache_layout {tis : List Ti} {buf : Text}
    (hbuf : buf = layout host tis (cacheHeader host)) (hsize : buf.length < 2 ^ 32)
    (hbitrate : ∀ ti ∈ tis, -2 ^ 31 ≤ ti.bitrate ∧ ti.bitrate < 2 ^ 31) :
    (∃ t, readCache host buf = some (.ok t) ∧ t.entries.Perm (tis.map reread)) ↔
    (∀ ti ∈ tis, stringBytes ti < 2 ^ 31) ∧ align host buf.length < 2 ^ 32 := by
  have hcount := length_layout_ge host tis (cacheHeader host)
  rw [← hbuf, length_cacheHeader] at hcount
  have hstart : align host (cacheHeader host).length % 2 ^ 32 = 8 := by
    rw [length_cacheHeader]
    unfold align Host.longSize
    cases host.long64 <;> rfl
  have hfuel : buf.length + 1 = (buf.length - tis.length + 1) + tis.length := by omega
  have hread := readLoop_layout hbuf hsize hbitrate (buf.length - tis.length + 1) Table.empty
  rw [hstart, ← hfuel, ← readCache_eq hbuf hsize] at hread
  have hperm := (entries_foldl (tis.map reread) Table.empty).1
  rw [Table.entries_empty, List.append_nil] at hperm
  rw [hread]
  have hge := le_align host buf.length
  constructor
  · intro h
    obtain ⟨t, ht, htis⟩ := h
    split at ht
    · rename_i hsmall
      refine ⟨hsmall, ?_⟩
      by_contra hwrap
      have hzero : align host buf.length % 2 ^ 32 < buf.length := by
        have hle := (align_bounds host buf.length).2 hsize
        omega
      have hmore := (length_of_readLoop ht).2 hzero
      rw [hperm.length_eq, htis.length_eq] at hmore
      exact lt_irrefl _ hmore
    · cases ht
  · intro h
    obtain ⟨hsmall, halign⟩ := h
    rw [if_pos hsmall, Nat.mod_eq_of_lt halign, readLoop, if_neg (by omega)]
    exact ⟨_, rfl, hperm⟩

/-! ### Writing -/

/-- The lengths that `write_ti` takes are ints, and so is their number. -/
def Writable (ti : Ti) : Prop :=
  (∀ s ∈ tiStrings ti, s.length + 1 < 2 ^ 31) ∧ 2 * ti.comments.length + 3 ≤ 2 ^ 30

instance (ti : Ti) : Decidable (Writable ti) := inferInstanceAs (Decidable (_ ∧ _))

theorem lenOf_eq (s : Text) : lenOf s = if s.length + 1 < 2 ^ 31 then some (s.length + 1) else none :=
  rfl

/-- The room for lengths after one more pair, from a power of two on. -/
theorem exists_alloc {j count : Nat} (hj : 1 ≤ j) (hj' : j ≤ 30) (hcount : count ≤ 2 ^ j)
    (hroom : count + 2 ≤ 2 ^ 30) :
    ∃ j', 1 ≤ j' ∧ j' ≤ 30 ∧ (if count + 2 > 2 ^ j then 2 ^ j * 2 else 2 ^ j) = 2 ^ j' ∧
      count + 2 ≤ 2 ^ j' := by
  by_cases hfull : count + 2 > 2 ^ j
  · have hlt : j < 30 := by
      by_contra hge
      have heq : j = 30 := by omega
      subst heq
      omega
    have htwo : 2 ^ 1 ≤ 2 ^ j := Nat.pow_le_pow_right (by decide) hj
    refine ⟨j + 1, by omega, hlt, by rw [if_pos hfull, Nat.pow_succ], ?_⟩
    rw [Nat.pow_succ]
    omega
  · exact ⟨j, hj, hj', if_neg hfull, by omega⟩

theorem pairLens_eq (comments : List (CString × CString)) (j count : Nat) (hj : 1 ≤ j)
    (hj' : j ≤ 30) (hcount : count ≤ 2 ^ j) :
    pairLens comments (2 ^ j) count =
      if (∀ s ∈ pairStrings comments, s.length + 1 < 2 ^ 31) ∧
        (comments = [] ∨ count + 2 * comments.length ≤ 2 ^ 30) then
        some ((pairStrings comments).map fun s => s.length + 1) else none := by
  induction comments generalizing j count with
  | nil =>
    rw [if_pos ⟨nofun, .inl rfl⟩]
    rfl
  | cons kv rest ih =>
    obtain ⟨key, value⟩ := kv
    have hstrings : pairStrings ((key, value) :: rest) = key.val :: value.val :: pairStrings rest :=
      rfl
    rw [pairLens, hstrings, List.length_cons]
    by_cases hroom : count + 2 ≤ 2 ^ 30
    · obtain ⟨i, hi, hi', halloc, hfits⟩ := exists_alloc hj hj' hcount hroom
      have hint : 2 ^ i < 2 ^ 31 := Nat.pow_lt_pow_right (by decide) (by omega)
      have hrest : (rest = [] ∨ count + 2 + 2 * rest.length ≤ 2 ^ 30) ↔
          ((key, value) :: rest = [] ∨ count + 2 * (rest.length + 1) ≤ 2 ^ 30) := by
        constructor
        · rintro (rfl | h)
          · exact .inr hroom
          · exact .inr (by omega)
        · rintro (h | h)
          · cases h
          · exact .inr (by omega)
      rw [halloc, if_neg (not_le.mpr hint), ih i (count + 2) hi hi' hfits, lenOf_eq, lenOf_eq]
      simp only [List.forall_mem_cons, hrest]
      split_ifs <;> first | rfl | tauto
    · have hfull : j = 30 := by
        by_contra hne
        have hle : 2 ^ j ≤ 2 ^ 29 := Nat.pow_le_pow_right (by decide) (by omega)
        omega
      subst hfull
      have hmore : count + 2 > 2 ^ 30 := Nat.lt_of_not_le hroom
      rw [if_pos hmore, if_pos (by decide : 2 ^ 31 ≤ 2 ^ 30 * 2), if_neg]
      rintro ⟨-, h | h⟩
      · cases h
      · omega

theorem lens_eq (ti : Ti) :
    lens ti = if Writable ti then some ((tiStrings ti).map fun s => s.length + 1) else none := by
  have hpairs := pairLens_eq ti.comments 6 3 (by decide) (by decide) (by decide)
  have hcount : (ti.comments = [] ∨ 3 + 2 * ti.comments.length ≤ 2 ^ 30) ↔
      2 * ti.comments.length + 3 ≤ 2 ^ 30 := by
    rw [Nat.add_comm, or_iff_right_of_imp]
    intro h
    rw [h, List.length_nil]
    decide
  have hroom : pairLens ti.comments 64 3 = pairLens ti.comments (2 ^ 6) 3 := rfl
  rw [lens, hroom, hpairs]
  simp only [lenOf_eq, Writable, tiStrings, List.forall_mem_cons, hcount]
  split_ifs <;> first | rfl | tauto

theorem buffer_padded (b : Gbuf) (pad : Nat) :
    (if pad = 0 then b else b.set 0 pad).buffer = b.buffer ++ List.replicate pad 0 := by
  split
  · rename_i hpad
    rw [hpad]
    exact (List.append_nil _).symm
  · rfl

theorem addStrings_eq (b : Gbuf) (ss : List Text) :
    (addStrings b ss (ss.map fun s => s.length + 1)).buffer = b.buffer ++ terminated ss := by
  induction ss generalizing b with
  | nil => exact (List.append_nil _).symm
  | cons s rest ih =>
    have hwhole : (s ++ [0]).take (s.length + 1) = s ++ [0] := List.take_of_length_le (by simp)
    rw [List.map_cons, addStrings, ih, hwhole]
    simp [Gbuf.addBytes, terminated]

/-- The file with what the buffer has for it. -/
def Writer.contents (w : Writer) : Text := w.file ++ w.buf.buffer

theorem contents_flushBuffer (w : Writer) :
    (flushBuffer w).file = w.contents ∧ (flushBuffer w).contents = w.contents ∧
      (flushBuffer w).offset = w.offset := by
  unfold flushBuffer
  split
  · rename_i hempty
    rw [Writer.contents, hempty, List.append_nil]
    exact ⟨rfl, rfl, rfl⟩
  · exact ⟨rfl, List.append_nil _, rfl⟩

/-- What is added to the buffer for an entry. -/
theorem contents_written (w : Writer) (pad offset : Nat) (n : Numbers) (ss : List Text) :
    Writer.contents {w with
      buf := addStrings ((if pad = 0 then w.buf else w.buf.set 0 pad).addBytes (n.bytes host)) ss
        (ss.map fun s => s.length + 1)
      offset } =
    w.contents ++ List.replicate pad 0 ++ (n.bytes host ++ terminated ss) := by
  simp only [Writer.contents, addStrings_eq, Gbuf.addBytes, buffer_padded, List.append_assoc]

/-- **An entry is written behind the others**, wherever the buffer is flushed. -/
theorem writeTi_eq (host : Host) {w : Writer} (hoffset : w.offset = w.contents.length)
    (hsize : (w.contents ++ padding host w.contents.length ++ entryBytes host ti).length < 2 ^ 32)
    (hti : Writable ti) :
    ∃ w', writeTi host ti w = some w' ∧
      w'.contents = w.contents ++ padding host w.contents.length ++ entryBytes host ti ∧
      w'.offset = w'.contents.length := by
  rw [length_step] at hsize
  have hge := le_align host w.contents.length
  have hsum : (entryTotalSize + ((tiStrings ti).map fun s => s.length + 1).sum) % 2 ^ 32 =
      entrySize ti := by
    rw [← Bytes.length_terminated]
    exact Nat.mod_eq_of_lt (by exact Nat.lt_of_le_of_lt (Nat.le_add_left ..) hsize)
  rw [writeTi, lens_eq, if_pos hti]
  simp only [Option.bind_eq_bind, Option.bind_some, hsum]
  refine ⟨_, rfl, ?_⟩
  generalize hw₁ : (if w.buf.avail < _ then flushBuffer w else w) = w₁
  have hflushed : w₁.contents = w.contents ∧ w₁.offset = w.offset := by
    rw [← hw₁]
    split
    · exact (contents_flushBuffer w).2
    · exact ⟨rfl, rfl⟩
  rw [contents_written, hflushed.1, hflushed.2, hoffset]
  refine ⟨rfl, ?_⟩
  have hlength := length_step host ti w.contents
  rw [padding, entryBytes] at hlength
  rw [hlength, Nat.add_sub_cancel' hge]
  exact Nat.mod_eq_of_lt hsize

theorem writeTi_of_not_writable (w : Writer) (hti : ¬ Writable ti) : writeTi host ti w = none := by
  rw [writeTi, lens_eq, if_neg hti]
  rfl

/-- The entries of a cache one after the other, or none where one cannot be written. -/
theorem writeTis_layout (host : Host) (tis : List Ti) {w : Writer} (hoffset : w.offset = w.contents.length)
    (hsize : (layout host tis w.contents).length < 2 ^ 32) :
    (writeTis host tis w).map Writer.contents =
      if ∀ ti ∈ tis, Writable ti then some (layout host tis w.contents) else none := by
  induction tis generalizing w with
  | nil =>
    rw [if_pos nofun]
    rfl
  | cons ti tis ih =>
    rw [layout] at hsize ⊢
    by_cases hti : Writable ti
    · have hentry := length_layout_ge host tis
        (w.contents ++ padding host w.contents.length ++ entryBytes host ti)
      obtain ⟨w', hw', hcontents, hoffset'⟩ := writeTi_eq host hoffset (by omega) hti
      rw [← hcontents] at hsize ⊢
      rw [writeTis, hw', Option.bind_some, ih hoffset' hsize]
      simp only [List.forall_mem_cons, hti, true_and]
    · rw [writeTis, writeTi_of_not_writable w hti, if_neg fun h => hti (h ti (List.mem_cons_self ..))]
      rfl

/-- **What `cache_close` writes** for a table that has as many entries as it counts. -/
theorem cacheClose_eq {t : Table Ti} (htotal : t.total = t.entries.length)
    (hsize : (layout host (getTrackInfos t) (cacheHeader host)).length < 2 ^ 32) :
    cacheClose host t = if ∀ ti ∈ t.entries, Writable ti then
      some (layout host (getTrackInfos t) (cacheHeader host)) else none := by
  have hperm : (getTrackInfos t).Perm t.entries := t.sorted_perm _
  have hall : (getTrackInfos t).take t.total = getTrackInfos t := by
    rw [htotal, ← hperm.length_eq, List.take_length]
  have hstart : Writer.contents
      ⟨[], ((⟨[], 0⟩ : Gbuf).grow (64 * 1024 - 1)).addBytes (cacheHeader host), 8⟩ =
      cacheHeader host := rfl
  have hlayout := writeTis_layout host (getTrackInfos t)
    (w := ⟨[], ((⟨[], 0⟩ : Gbuf).grow (64 * 1024 - 1)).addBytes (cacheHeader host), 8⟩)
    (by rw [hstart]; rfl) (by rwa [hstart])
  have hflush : (fun w => (flushBuffer w).file) = Writer.contents :=
    funext fun w => (contents_flushBuffer w).1
  rw [cacheClose, hall, hflush, hlayout, hstart]
  refine if_congr ?_ rfl rfl
  exact forall_congr' fun ti => by rw [hperm.mem_iff]

/-! ### The round trip -/

/-- The cache with entries added one after the other. -/
def storeOf (tis : List Ti) : Table Ti := tis.foldl addEntry Table.empty

theorem entries_storeOf (tis : List Ti) :
    (storeOf tis).entries.Perm tis ∧ (storeOf tis).total = (storeOf tis).entries.length := by
  obtain ⟨hperm, htotal⟩ := entries_foldl tis Table.empty
  rw [Table.entries_empty, List.append_nil] at hperm
  exact ⟨hperm, htotal.trans hperm.length_eq.symm⟩

/-- How long the file of a cache is. -/
def fileLength (host : Host) (tis : List Ti) : Nat :=
  (layout host (getTrackInfos (storeOf tis)) (cacheHeader host)).length

theorem length_lt_stringBytes {s : Text} (hs : s ∈ tiStrings ti) : s.length + 1 ≤ stringBytes ti := by
  rw [stringBytes, Bytes.length_terminated]
  exact List.le_sum_of_mem (List.mem_map_of_mem hs)

theorem cacheClose_storeOf {tis : List Ti} (hsize : fileLength host tis < 2 ^ 32) :
    cacheClose host (storeOf tis) = if ∀ ti ∈ tis, Writable ti then
      some (layout host (getTrackInfos (storeOf tis)) (cacheHeader host)) else none := by
  obtain ⟨hperm, htotal⟩ := entries_storeOf tis
  rw [cacheClose_eq htotal hsize]
  refine if_congr ?_ rfl rfl
  exact forall_congr' fun ti => by rw [hperm.mem_iff]

/-- **A cache is read back as it was written** exactly where the strings of each entry and
the lengths taken of them fit into an `int` and the end of the file, aligned, into an
`unsigned int`. -/
theorem cache_round_trip (host : Host) (tis : List Ti) (hsize : fileLength host tis < 2 ^ 32)
    (hbitrate : ∀ ti ∈ tis, -2 ^ 31 ≤ ti.bitrate ∧ ti.bitrate < 2 ^ 31) :
    (∃ file t, cacheClose host (storeOf tis) = some file ∧ readCache host file = some (.ok t) ∧
      t.entries.Perm (tis.map reread)) ↔
    (∀ ti ∈ tis, stringBytes ti < 2 ^ 31 ∧ 2 * ti.comments.length + 3 ≤ 2 ^ 30) ∧
      align host (fileLength host tis) < 2 ^ 32 := by
  have hperm : (getTrackInfos (storeOf tis)).Perm tis :=
    (Table.sorted_perm ..).trans (entries_storeOf tis).1
  have hread := readCache_layout (rfl : _ = layout host _ (cacheHeader host)) hsize
    fun ti hti => hbitrate ti (hperm.mem_iff.mp hti)
  have hstrings : (∀ ti ∈ getTrackInfos (storeOf tis), stringBytes ti < 2 ^ 31) ↔
      ∀ ti ∈ tis, stringBytes ti < 2 ^ 31 := forall_congr' fun ti => by rw [hperm.mem_iff]
  rw [hstrings] at hread
  rw [cacheClose_storeOf hsize]
  constructor
  · intro h
    obtain ⟨file, t, hwrite, ht, htis⟩ := h
    split at hwrite
    · rename_i hwritable
      cases hwrite
      obtain ⟨hsmall, halign⟩ := hread.mp ⟨t, ht, htis.trans (hperm.map reread).symm⟩
      exact ⟨fun ti hti => ⟨hsmall ti hti, (hwritable ti hti).2⟩, halign⟩
    · cases hwrite
  · intro h
    obtain ⟨hsmall, halign⟩ := h
    obtain ⟨t, ht, htis⟩ := hread.mpr ⟨fun ti hti => (hsmall ti hti).1, halign⟩
    have hwritable : ∀ ti ∈ tis, Writable ti := fun ti hti =>
      ⟨fun s hs => Nat.lt_of_le_of_lt (length_lt_stringBytes hs) (hsmall ti hti).1,
        (hsmall ti hti).2⟩
    exact ⟨_, t, if_pos hwritable, ht, htis.trans (hperm.map reread)⟩

/-! ### A single entry -/

theorem getTrackInfos_singleton (ti : Ti) : getTrackInfos (storeOf [ti]) = [ti] :=
  List.perm_singleton.mp ((Table.sorted_perm ..).trans (entries_storeOf [ti]).1)

theorem fileLength_singleton (host : Host) (ti : Ti) : fileLength host [ti] = 8 + entrySize ti := by
  have hstart : align host 8 = 8 := by
    unfold align Host.longSize
    cases host.long64 <;> rfl
  rw [fileLength, getTrackInfos_singleton, layout, layout, length_step, length_cacheHeader, hstart]

/-- A track with one comment and neither codec nor profile. -/
def tagged (value : CString) : Ti where
  filename := ⟨ascii "/a", by decide⟩
  comments := [(⟨ascii "t", by decide⟩, value)]
  duration := 60
  bitrate := 128000
  mtime := 1
  playCount := 2
  bpm := 0
  codec := none
  codecProfile := none

theorem entrySize_tagged (value : CString) : entrySize (tagged value) = 88 + value.val.length := by
  have hstrings : tiStrings (tagged value) = [ascii "/a", [], [], ascii "t", value.val] := rfl
  rw [entrySize, stringBytes, Bytes.length_terminated, hstrings]
  have hpath : (ascii "/a").length = 2 := rfl
  have hkey : (ascii "t").length = 1 := rfl
  simp only [List.map_cons, List.map_nil, List.sum_cons, List.sum_nil, entryTotalSize, hpath, hkey,
    List.length_nil]
  omega

theorem cache_round_trip_tagged :
    ∃ file t, cacheClose ⟨.little, true⟩ (storeOf [tagged .empty]) = some file ∧
      readCache ⟨.little, true⟩ file = some (.ok t) ∧
      t.entries.Perm ([tagged .empty].map reread) := by
  have hlength : fileLength ⟨.little, true⟩ [tagged .empty] = 96 := by
    rw [fileLength_singleton, entrySize_tagged]
    rfl
  refine (cache_round_trip ⟨.little, true⟩ [tagged .empty] ?_ ?_).mpr ⟨?_, ?_⟩
  · rw [hlength]
    decide
  · decide
  · decide
  · rw [hlength]
    decide

/-- A string of `2 ^ 31` letters. -/
def longValue : CString :=
  ⟨List.replicate (2 ^ 31) 97, fun h => absurd (List.eq_of_mem_replicate h) (by decide)⟩

/-- **The length of a value that does not fit into an `int`**: the file would be smaller than
4 GiB, and is not written. -/
theorem long_value_not_written :
    fileLength ⟨.little, true⟩ [tagged longValue] < 2 ^ 32 ∧
    ¬ ∃ file t, cacheClose ⟨.little, true⟩ (storeOf [tagged longValue]) = some file ∧
      readCache ⟨.little, true⟩ file = some (.ok t) ∧
      t.entries.Perm ([tagged longValue].map reread) := by
  have hvalue : longValue.val.length = 2 ^ 31 := List.length_replicate
  have hsize : fileLength ⟨.little, true⟩ [tagged longValue] < 2 ^ 32 := by
    rw [fileLength_singleton, entrySize_tagged, hvalue]
    decide
  refine ⟨hsize, ?_⟩
  intro h
  obtain ⟨file, t, hwrite, -, -⟩ := h
  rw [cacheClose_storeOf hsize] at hwrite
  split at hwrite
  · rename_i hwritable
    have hmem : longValue.val ∈ tiStrings (tagged longValue) :=
      .tail _ (.tail _ (.tail _ (.tail _ (.head _))))
    have hint := (hwritable _ (List.mem_singleton.mpr rfl)).1 _ hmem
    rw [hvalue] at hint
    exact absurd hint (by decide)
  · cases hwrite

end GracefulMusic.Cache
