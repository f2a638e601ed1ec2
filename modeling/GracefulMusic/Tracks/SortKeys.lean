import GracefulMusic.Commands.Arguments
import GracefulMusic.TrackInfo

/-! Sort keys as text (`track_info.c`, `pl.c`).

A setting is kept as the keys and as the text they are printed to, which has room for 128
bytes. What is saved is the text, and the next start parses it. -/
namespace GracefulMusic
open Commands (skipSpaces skipSpaces_of_head)

def sortFieldNames : List (String × SortField) := [
  ("artist", .artist), ("album", .album), ("title", .title), ("play_count", .playCount),
  ("tracknumber", .tracknumber), ("discnumber", .discnumber), ("date", .date),
  ("originaldate", .originaldate), ("genre", .genre), ("comment", .comment),
  ("albumartist", .albumartist), ("filename", .filename), ("filemtime", .filemtime),
  ("rg_track_gain", .rgTrackGain), ("rg_track_peak", .rgTrackPeak),
  ("rg_album_gain", .rgAlbumGain), ("rg_album_peak", .rgAlbumPeak), ("bitrate", .bitrate),
  ("codec", .codec), ("codec_profile", .codecProfile), ("media", .media), ("bpm", .bpm)]

/-- `sort_key_map`: the names of the fields, and the same reversed. -/
def sortKeyMap : List (Text × SortKey) :=
  (sortFieldNames.map fun e => (ascii e.1, ⟨e.2, false⟩)) ++
    sortFieldNames.map fun e => (ch '-' :: ascii e.1, ⟨e.2, true⟩)

/-- The loop of `parse_sort_keys`; of a word 31 bytes are looked at. -/
def parseSortKeysLoop : Nat → Text → Option (List SortKey)
  | 0, _ => some []
  | fuel + 1, s =>
    let s := skipSpaces s
    let word := s.takeWhile (· ≠ ch ' ')
    if word = [] then some []
    else do
      let e ← sortKeyMap.find? (·.1 = word.take 31) -- invalid sort key
      let keys ← parseSortKeysLoop fuel (s.drop word.length)
      some (e.2 :: keys)

def parseSortKeys (value : Text) : Option (List SortKey) :=
  parseSortKeysLoop (value.length + 1) value

/-- The table has all keys, so there is always a name. -/
def sortKeyToStr (key : SortKey) : Text :=
  ((sortKeyMap.find? (·.2 = key)).map (·.1)).getD []

/-- The loop of `sort_keys_to_str`, with what is in the buffer. -/
def sortKeysToStrLoop (bufsize : Nat) : List SortKey → Text → Text
  | [], buf => buf
  | key :: keys, buf =>
    let str := sortKeyToStr key
    if (bufsize : Int) - buf.length - str.length - 2 < 0 then buf
    else sortKeysToStrLoop bufsize keys (buf ++ str ++ [ch ' '])

/-- The terminator takes the place of the last space. -/
def sortKeysToStr (keys : List SortKey) (bufsize : Nat) : Text :=
  (sortKeysToStrLoop bufsize keys []).dropLast

/-! ### The setting -/

/-- The sort keys of an `editable_shared`. -/
structure SortSetting where
  keys : List SortKey
  sortStr : Text

/-- `sizeof(sort_str)`. -/
def sortStrSize : Nat := 128

def optionMaxSize : Nat := 4096

def plGetSortStr (s : SortSetting) (size : Nat) : Text := s.sortStr.take (size - 1)

def plSetSortStr (s : SortSetting) (buf : Text) : SortSetting :=
  match parseSortKeys buf with
  | none => s
  | some keys => ⟨keys, sortKeysToStr keys sortStrSize⟩

/-! ### Names -/

/-- Every name is a word that is looked at as a whole and stands in the table once, as every key. -/
theorem sortKeyMap_entries : ∀ e ∈ sortKeyMap,
    (sortKeyMap.find? (·.1 = e.1) = some e ∧ sortKeyMap.find? (·.2 = e.2) = some e) ∧
      e.1 ≠ [] ∧ ch ' ' ∉ e.1 ∧ e.1.length ≤ 31 := by
  decide +kernel

theorem mem_sortKeyMap (key : SortKey) : ∃ str, (str, key) ∈ sortKeyMap := by
  obtain ⟨field, rev⟩ := key
  have hfield : field ∈ sortFieldNames.map Prod.snd := by cases field <;> decide
  obtain ⟨⟨name, _⟩, hname, rfl⟩ := List.mem_map.mp hfield
  cases rev with
  | false => exact ⟨_, List.mem_append_left _ (List.mem_map_of_mem hname)⟩
  | true => exact ⟨_, List.mem_append_right _ (List.mem_map_of_mem hname)⟩

theorem sortKeyToStr_spec (key : SortKey) :
    sortKeyMap.find? (·.1 = sortKeyToStr key) = some (sortKeyToStr key, key) ∧
      sortKeyToStr key ≠ [] ∧ ch ' ' ∉ sortKeyToStr key ∧ (sortKeyToStr key).length ≤ 31 := by
  obtain ⟨str, hmem⟩ := mem_sortKeyMap key
  obtain ⟨⟨hname, hkey⟩, hword⟩ := sortKeyMap_entries _ hmem
  have hstr : sortKeyToStr key = str := by
    rw [sortKeyToStr, hkey]
    rfl
  rw [hstr]
  exact ⟨hname, hword⟩

/-- The names, each with a space behind it. -/
def spelt (keys : List SortKey) : Text := keys.flatMap fun key => sortKeyToStr key ++ [ch ' ']

theorem spelt_cons (key : SortKey) (keys : List SortKey) :
    spelt (key :: keys) = sortKeyToStr key ++ ch ' ' :: spelt keys := by
  rw [spelt, List.flatMap_cons, List.append_assoc, List.singleton_append, spelt]

theorem spelt_length_pos {keys : List SortKey} (h : keys ≠ []) : 0 < (spelt keys).length := by
  obtain ⟨key, keys, rfl⟩ := List.exists_cons_of_ne_nil h
  rw [spelt_cons, List.length_append, List.length_cons]
  omega

/-! ### Parsing -/

/-- One word of the text. -/
theorem parseSortKeysLoop_word (fuel : Nat) (key : SortKey) {rest : Text}
    (hrest : rest = [] ∨ rest.head? = some (ch ' ')) :
    parseSortKeysLoop (fuel + 1) (sortKeyToStr key ++ rest) =
      (parseSortKeysLoop fuel rest).map (key :: ·) := by
  obtain ⟨hfind, hne, hspace, hlen⟩ := sortKeyToStr_spec key
  have hskip : skipSpaces (sortKeyToStr key ++ rest) = sortKeyToStr key ++ rest := by
    apply skipSpaces_of_head
    obtain ⟨c, cs, hc⟩ := List.exists_cons_of_ne_nil hne
    rw [hc] at hspace ⊢
    rw [List.cons_append, List.head?_cons]
    exact fun heq => hspace (Option.some.inj heq ▸ .head _)
  have hword : (sortKeyToStr key ++ rest).takeWhile (· ≠ ch ' ') = sortKeyToStr key := by
    have hall : ∀ c ∈ sortKeyToStr key, decide (c ≠ ch ' ') = true :=
      fun c hc => decide_eq_true fun heq : c = ch ' ' => hspace (heq ▸ hc)
    rw [List.takeWhile_append_of_pos hall]
    rcases hrest with rfl | hrest
    · rw [List.takeWhile_nil, List.append_nil]
    · obtain ⟨rest, rfl⟩ := List.head?_eq_some_iff.mp hrest
      rw [List.takeWhile_cons_of_neg (by simp), List.append_nil]
  rw [parseSortKeysLoop]
  simp only [hskip, hword, if_neg hne, List.take_of_length_le hlen, hfind,
    List.drop_left, Option.bind_eq_bind, Option.bind_some]
  cases parseSortKeysLoop fuel rest <;> rfl

/-- Spaces in front of a word are skipped. -/
theorem parseSortKeysLoop_space (fuel : Nat) (s : Text) :
    parseSortKeysLoop fuel (ch ' ' :: s) = parseSortKeysLoop fuel s := by
  cases fuel with
  | zero => rfl
  | succ fuel =>
    have hskip : skipSpaces (ch ' ' :: s) = skipSpaces s :=
      List.dropWhile_cons_of_pos (by simp)
    rw [parseSortKeysLoop, hskip, parseSortKeysLoop]

theorem parseSortKeysLoop_nil (fuel : Nat) : parseSortKeysLoop fuel [] = some [] := by
  cases fuel <;> rfl

/-- **The names are read back**, with the last space or without it. -/
theorem parseSortKeysLoop_spelt {keys : List SortKey} {fuel : Nat} (hfuel : keys.length ≤ fuel) :
    parseSortKeysLoop fuel (spelt keys) = some keys ∧
      parseSortKeysLoop fuel (spelt keys).dropLast = some keys := by
  induction keys generalizing fuel with
  | nil => exact ⟨parseSortKeysLoop_nil fuel, parseSortKeysLoop_nil fuel⟩
  | cons key keys ih =>
    obtain ⟨fuel, rfl⟩ := Nat.exists_eq_add_one_of_ne_zero (Nat.ne_of_gt
      (Nat.lt_of_lt_of_le (Nat.succ_pos _) hfuel))
    obtain ⟨hspelt, hlast⟩ := ih (Nat.le_of_succ_le_succ hfuel)
    have hnames : ∀ rest, parseSortKeysLoop fuel rest = some keys →
        parseSortKeysLoop (fuel + 1) (sortKeyToStr key ++ ch ' ' :: rest) = some (key :: keys) := by
      intro rest hrest
      rw [parseSortKeysLoop_word fuel key (.inr rfl), parseSortKeysLoop_space, hrest,
        Option.map_some]
    rw [spelt_cons]
    refine ⟨hnames _ hspelt, ?_⟩
    rw [List.dropLast_append_of_ne_nil (List.cons_ne_nil _ _)]
    cases keys with
    | nil =>
      have hnothing : (ch ' ' :: spelt []).dropLast = [] := rfl
      rw [hnothing, parseSortKeysLoop_word fuel key (.inl rfl), parseSortKeysLoop_nil,
        Option.map_some]
    | cons next keys =>
      have hne : spelt (next :: keys) ≠ [] :=
        List.length_pos_iff.mp (spelt_length_pos (List.cons_ne_nil _ _))
      rw [List.dropLast_cons_of_ne_nil hne]
      exact hnames _ hlast

theorem length_le_spelt (keys : List SortKey) : keys.length ≤ (spelt keys).length := by
  induction keys with
  | nil => exact Nat.le_refl _
  | cons key keys ih =>
    rw [spelt_cons, List.length_append, List.length_cons, List.length_cons]
    omega

theorem parseSortKeys_printed (keys : List SortKey) :
    parseSortKeys (spelt keys).dropLast = some keys := by
  have hlen := length_le_spelt keys
  refine (parseSortKeysLoop_spelt ?_).2
  rw [List.length_dropLast]
  omega

/-! ### Printing -/

/-- What is printed is a row of keys from the first on, and it is all of them where the names, each
with a space, leave a byte of the buffer. -/
theorem sortKeysToStrLoop_spec (bufsize : Nat) (keys : List SortKey) (buf : Text) :
    ∃ front back, keys = front ++ back ∧
      sortKeysToStrLoop bufsize keys buf = buf ++ spelt front ∧
      (back = [] ↔ keys = [] ∨ buf.length + (spelt keys).length + 1 ≤ bufsize) := by
  induction keys generalizing buf with
  | nil =>
    refine ⟨[], [], rfl, ?_, iff_of_true rfl (.inl rfl)⟩
    rw [sortKeysToStrLoop, spelt, List.flatMap_nil, List.append_nil]
  | cons key keys ih =>
    have hlength : (spelt (key :: keys)).length =
        (sortKeyToStr key).length + 1 + (spelt keys).length := by
      rw [spelt_cons, List.length_append, List.length_cons]
      omega
    rw [sortKeysToStrLoop]
    split
    · rename_i hfull
      refine ⟨[], key :: keys, rfl, ?_, iff_of_false nofun ?_⟩
      · rw [spelt, List.flatMap_nil, List.append_nil]
      · rintro (h | h)
        · cases h
        · omega
    · rename_i hroom
      obtain ⟨front, back, rfl, hloop, hback⟩ := ih (buf ++ sortKeyToStr key ++ [ch ' '])
      refine ⟨key :: front, back, rfl, ?_, ?_⟩
      · rw [hloop, spelt_cons]
        simp only [List.append_assoc, List.singleton_append]
      · have hall : (front ++ back = [] ∨
            (buf ++ sortKeyToStr key ++ [ch ' ']).length + (spelt (front ++ back)).length + 1 ≤
              bufsize) ↔
            buf.length + (spelt (key :: (front ++ back))).length + 1 ≤ bufsize := by
          rw [hlength, List.length_append, List.length_append, List.length_singleton]
          constructor
          · rintro (h | h)
            · rw [h, spelt, List.flatMap_nil, List.length_nil]
              omega
            · omega
          · intro h
            exact .inr (by omega)
        rw [hback, hall]
        exact (or_iff_right (List.cons_ne_nil _ _)).symm

theorem parseSortKeys_sortKeysToStr (keys : List SortKey) (bufsize : Nat) :
    parseSortKeys (sortKeysToStr keys bufsize) = some keys ↔
      keys = [] ∨ (spelt keys).length + 1 ≤ bufsize := by
  obtain ⟨front, back, rfl, hloop, hback⟩ := sortKeysToStrLoop_spec bufsize keys []
  rw [List.nil_append] at hloop
  rw [List.length_nil, Nat.zero_add] at hback
  rw [sortKeysToStr, hloop, parseSortKeys_printed, Option.some.injEq, ← hback]
  exact List.self_eq_append_right

/-- A byte of the buffer stays free for the terminator. -/
theorem sortKeysToStrLoop_length {bufsize : Nat} (keys : List SortKey) {buf : Text}
    (h : buf.length < bufsize) : (sortKeysToStrLoop bufsize keys buf).length < bufsize := by
  induction keys generalizing buf with
  | nil => exact h
  | cons key keys ih =>
    rw [sortKeysToStrLoop]
    split
    · exact h
    · apply ih
      rw [List.length_append, List.length_append, List.length_singleton]
      omega

theorem plGetSortStr_set {s : SortSetting} {buf : Text} {keys : List SortKey}
    (h : parseSortKeys buf = some keys) :
    plGetSortStr (plSetSortStr s buf) optionMaxSize = sortKeysToStr keys sortStrSize := by
  have hlength : (sortKeysToStr keys sortStrSize).length < sortStrSize := by
    rw [sortKeysToStr, List.length_dropLast]
    exact Nat.lt_of_le_of_lt (Nat.sub_le _ _) (sortKeysToStrLoop_length keys (by decide))
  rw [plGetSortStr, plSetSortStr, h]
  exact List.take_of_length_le (Nat.le_trans (Nat.le_of_lt hlength) (by decide))

/-- What is expected of the text of a setting: it is that of its keys, also after it was saved. -/
structure SortSurvives (keys : List SortKey) : Prop where
  printed : parseSortKeys (sortKeysToStr keys sortStrSize) = some keys
  restored : ∀ buf s s', parseSortKeys buf = some keys →
    (plSetSortStr s' (plGetSortStr (plSetSortStr s buf) optionMaxSize)).keys = keys

/-- **A sort setting survives** just when its names, each with a space, leave a byte of the
buffer. -/
theorem sortSurvives_iff (keys : List SortKey) :
    SortSurvives keys ↔ (spelt keys).length + 1 ≤ sortStrSize := by
  have hprinted : parseSortKeys (sortKeysToStr keys sortStrSize) = some keys ↔
      (spelt keys).length + 1 ≤ sortStrSize := by
    rw [parseSortKeys_sortKeysToStr]
    refine or_iff_right_of_imp ?_
    rintro rfl
    decide
  constructor
  · exact fun h => hprinted.mp h.printed
  · intro hroom
    have hparse := hprinted.mpr hroom
    refine ⟨hparse, fun buf s s' hbuf => ?_⟩
    rw [plGetSortStr_set hbuf, plSetSortStr, hparse]

/-- The last of these names would just fit: they have 127 characters. -/
theorem sortSurvives_last_lost :
    parseSortKeys (ascii "albumartist albumartist albumartist albumartist albumartist " ++
      ascii "albumartist albumartist albumartist albumartist albumartist comment") =
      some (List.replicate 10 ⟨.albumartist, false⟩ ++ [⟨.comment, false⟩]) ∧
    parseSortKeys (sortKeysToStr (List.replicate 10 ⟨.albumartist, false⟩ ++ [⟨.comment, false⟩])
      sortStrSize) = some (List.replicate 10 ⟨.albumartist, false⟩) ∧
    ¬ SortSurvives (List.replicate 10 ⟨.albumartist, false⟩ ++ [⟨.comment, false⟩]) := by
  have hprinted : parseSortKeys (sortKeysToStr
      (List.replicate 10 ⟨.albumartist, false⟩ ++ [⟨.comment, false⟩]) sortStrSize) =
      some (List.replicate 10 ⟨.albumartist, false⟩) := by
    decide +kernel
  refine ⟨by decide +kernel, hprinted, fun h => ?_⟩
  rw [h.printed] at hprinted
  exact absurd hprinted (by decide +kernel)

end GracefulMusic
