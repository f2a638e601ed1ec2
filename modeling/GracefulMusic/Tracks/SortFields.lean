import GracefulMusic.Expr.Eval
import GracefulMusic.Foundation.Comparison
import GracefulMusic.TextOrder

/-! The fields that tracks are sorted by (`track_info_cmp`).

Numbers are compared by their difference, as an `int`: of a `time_t` or a `long` the higher
bits are cut off, and a difference of two `int`s wraps. So numbers are compared modulo
2^32. -/
namespace GracefulMusic

/-! ### The fields -/

def strcmp0 : Option Text → Option Text → Int
  | none, some _ => -1
  | none, none => 0
  | some _, none => 1
  | some s, some t => strcmp s t

/-- The locale. A collation key is a string; `strcoll` orders strings, and what it returns
can be negated. -/
structure SortLocale where
  strcoll : Text → Text → Int
  strcoll_order : TotalPreorder strcoll
  strcoll_range : ∀ s t, -2 ^ 31 < strcoll s t ∧ strcoll s t < 2 ^ 31
  /-- `u_strcasecoll_key` -/
  strcasecollKey : Text → Text
  strcasecollKey_noNul : ∀ s, 0 ∉ strcasecollKey s

namespace SortField

def isReplayGain : SortField → Bool
  | .rgTrackGain | .rgTrackPeak | .rgAlbumGain | .rgAlbumPeak => true
  | _ => false

/-- `getentry` for the numbers. -/
def number : SortField → Option (TrackInfo → Int)
  | .tracknumber => some (·.tracknumber)
  | .discnumber => some (·.discnumber)
  | .date => some (·.date)
  | .originaldate => some (·.originaldate)
  | .playCount => some fun ti => ti.playCount
  | .bpm => some (·.bpm)
  | .filemtime => some (·.mtime)
  | .bitrate => some (·.bitrate)
  | _ => none

/-- `getentry` for the strings; collation keys are made of the tags. -/
def string (locale : SortLocale) (ti : TrackInfo) : SortField → Option Text
  | .artist => ti.artist.map locale.strcasecollKey
  | .album => ti.album.map locale.strcasecollKey
  | .title => ti.title.map locale.strcasecollKey
  | .albumartist => ti.albumartist.map locale.strcasecollKey
  | .genre => (Expr.keyValueGetValue ti.comments (ascii "genre")).map locale.strcasecollKey
  | .comment => (Expr.keyValueGetValue ti.comments (ascii "comment")).map locale.strcasecollKey
  | .codec => ti.codec
  | .codecProfile => ti.codecProfile
  | .media => Expr.keyValueGetValue ti.comments (ascii "media")
  | _ => none

end SortField

section
variable (locale : SortLocale) (doublecmp0 : SortField → TrackInfo → TrackInfo → Int)

/-- The `switch` of `track_info_cmp`. -/
def sortFieldCmp (field : SortField) (a b : TrackInfo) : Int :=
  match field.number with
  | some entry => toInt (entry a - entry b)
  | none =>
    if field = .filename then locale.strcoll a.filename b.filename
    else if field.isReplayGain then doublecmp0 field a b
    else strcmp0 (field.string locale a) (field.string locale b)

/-- `track_info_cmp`: the negation of a reversed key wraps too. -/
def sortCmp (keys : List SortKey) (a b : TrackInfo) : Int :=
  toInt (trackInfoCmp (sortFieldCmp locale doublecmp0) a b keys)

/-- What one key says. -/
def keyCmp (key : SortKey) (a b : TrackInfo) : Int :=
  toInt (if key.rev then -sortFieldCmp locale doublecmp0 key.field a b
    else sortFieldCmp locale doublecmp0 key.field a b)

end

/-- The strings of a track end at their terminators. -/
structure CStrings (ti : TrackInfo) : Prop where
  codec : ∀ s ∈ ti.codec, 0 ∉ s
  codecProfile : ∀ s ∈ ti.codecProfile, 0 ∉ s
  comments : ∀ kv ∈ ti.comments, 0 ∉ kv.2

/-- Two tracks that a field does not tell apart. -/
def SameField (locale : SortLocale) (field : SortField) (a b : TrackInfo) : Prop :=
  match field.number with
  | some entry => entry a % 2 ^ 32 = entry b % 2 ^ 32
  | none =>
    if field = .filename then locale.strcoll a.filename b.filename = 0
    else field.string locale a = field.string locale b

/-- The numbers lie, modulo 2^32, in one half of the circle. -/
def WithinHalf (field : SortField) (S : TrackInfo → Prop) : Prop :=
  ∀ entry, field.number = some entry → ∃ base, ∀ ti, S ti → (entry ti - base) % 2 ^ 32 < 2 ^ 31

/-! ### Strings -/

theorem strcmp_range (s t : Text) : -256 < strcmp s t ∧ strcmp s t < 256 := by
  induction s generalizing t with
  | nil =>
    cases t with
    | nil => exact ⟨by decide, by decide⟩
    | cons d t =>
      have hd := d.toNat_lt
      rw [strcmp]
      omega
  | cons c s ih =>
    have hc := c.toNat_lt
    cases t with
    | nil =>
      rw [strcmp]
      omega
    | cons d t =>
      have hd := d.toNat_lt
      rw [strcmp]
      split
      · exact ih t
      · omega

/-- A missing string comes first. -/
theorem strcmp0_order {α : Type*} (f : α → Option Text) (hf : ∀ a, ∀ s ∈ f a, 0 ∉ s) :
    TotalPreorder fun a b => strcmp0 (f a) (f b) := by
  have hsome : ∀ {a s}, f a = some s → 0 ∉ s := fun h => hf _ _ h
  refine ⟨fun a b => ?_, fun a b c hab hbc => ?_⟩
  · cases ha : f a with
    | none => cases hb : f b <;> simp [strcmp0]
    | some s =>
      cases hb : f b with
      | none => simp [strcmp0]
      | some t =>
        rw [strcmp0, strcmp0, strcmp_swap s t]
        omega
  · cases hc : f c with
    | none =>
      cases hb : f b with
      | none =>
        rw [hb] at hab
        exact hab
      | some t =>
        rw [hb, hc] at hbc
        exact absurd (show (1 : Int) ≤ 0 from hbc) (by decide)
    | some u =>
      cases ha : f a with
      | none => exact Int.neg_nonpos_of_nonneg (by decide)
      | some s =>
        cases hb : f b with
        | none =>
          rw [ha, hb] at hab
          exact absurd (show (1 : Int) ≤ 0 from hab) (by decide)
        | some t =>
          rw [ha, hb] at hab
          rw [hb, hc] at hbc
          exact strcmp_trans (hsome ha) (hsome hb) (hsome hc) hab hbc

theorem strcmp0_range (s t : Option Text) : -2 ^ 31 < strcmp0 s t ∧ strcmp0 s t < 2 ^ 31 := by
  cases s with
  | none => cases t <;> simp [strcmp0]
  | some s =>
    cases t with
    | none => simp [strcmp0]
    | some t =>
      have := strcmp_range s t
      rw [strcmp0]
      omega

theorem strcmp0_eq_zero {s t : Option Text} (hs : ∀ u ∈ s, 0 ∉ u) (ht : ∀ u ∈ t, 0 ∉ u) :
    strcmp0 s t = 0 ↔ s = t := by
  cases s with
  | none => cases t <;> simp [strcmp0]
  | some s =>
    cases t with
    | none => simp [strcmp0]
    | some t => rw [strcmp0, strcmp_eq_zero (hs s rfl) (ht t rfl), Option.some.injEq]

theorem CStrings.string {ti : TrackInfo} (h : CStrings ti) (locale : SortLocale)
    (field : SortField) : ∀ s ∈ field.string locale ti, 0 ∉ s := by
  have hkey : ∀ t : Option Text, ∀ s ∈ t.map locale.strcasecollKey, 0 ∉ s := by
    intro t s hs
    obtain ⟨u, -, rfl⟩ := Option.map_eq_some_iff.mp hs
    exact locale.strcasecollKey_noNul u
  have hvalue : ∀ key, ∀ s ∈ Expr.keyValueGetValue ti.comments key, 0 ∉ s := by
    intro key s hs
    obtain ⟨kv, hkv, rfl⟩ := Option.map_eq_some_iff.mp hs
    exact h.comments kv (List.mem_of_find?_eq_some hkv)
  have hnone : ∀ s ∈ (none : Option Text), 0 ∉ s := fun s hs => by cases hs
  cases field with
  | artist => exact hkey _
  | album => exact hkey _
  | title => exact hkey _
  | albumartist => exact hkey _
  | genre => exact hkey _
  | comment => exact hkey _
  | codec => exact h.codec
  | codecProfile => exact h.codecProfile
  | media => exact hvalue _
  | _ => exact hnone

end GracefulMusic
