import GracefulMusic.Foundation.Successor
import GracefulMusic.Library.CurrentTrack

/-! From album to album in the sorted list (`lib.c`).

Sorted and without shuffle the search for the end of the current album starts at `track`,
which is still null, and not at the current track. So the first or the last listed track
is found whatever is played. -/
namespace GracefulMusic.Lib
open Sequence

inductive AaaMode where
  | all
  | artist
  | album

/-- The albums of the listed tracks with their artists, and the options in force. -/
structure SortedMode (P A R : Type) where
  album : P → A
  artist : A → R
  aaaMode : AaaMode
  repeats : Bool

namespace SortedMode
variable {P A R : Type} [DecidableEq P] [DecidableEq A] [DecidableEq R] (o : SortedMode P A R)

def aaaModeFilter (curTrack : Option P) (album : A) : Bool :=
  match o.aaaMode with
  | .album => curTrack.map o.album = some album
  | .artist => curTrack.map (fun cur => o.artist (o.album cur)) = some (o.artist album)
  | .all => true

/-- `none` where rounds that find nothing are repeated for ever. -/
def simpleListGetNext (head : List P) (filter : A → Bool) (allowRepeat : Bool) :
    Option P → Option (Option P)
  | none => some (if allowRepeat then head.head? else none)
  | some cur =>
    match (behind head cur).find? fun t => filter (o.album t) with
    | some track => some (some track)
    | none =>
      if allowRepeat && o.repeats then (head.find? fun t => filter (o.album t)).map some
      else some none

def simpleListGetPrev (head : List P) (filter : A → Bool) (allowRepeat : Bool) :
    Option P → Option (Option P)
  | none => some (if allowRepeat then head.getLast? else none)
  | some cur =>
    match (before head cur).reverse.find? fun t => filter (o.album t) with
    | some track => some (some track)
    | none =>
      if allowRepeat && o.repeats then (head.reverse.find? fun t => filter (o.album t)).map some
      else some none

/-- The loop of the two below: on to the end of the list, and back to the last track that
was of the album. -/
def sortedAlbumLoop (get : Option P → Option (Option P)) : Nat → Option P → Option P → Option P
  | 0, _, track => track
  | fuel + 1, next, track =>
    match get next with
    | some (some next) =>
      sortedAlbumLoop get fuel (some next)
        (if track.map o.album = some (o.album next) then some next else track)
    | _ => track

def sortedAlbumFirstTrack (head : List P) (track : Option P) : Option P :=
  o.sortedAlbumLoop (o.simpleListGetPrev head (fun _ => true) false) (head.length + 1) track track

def sortedAlbumLastTrack (head : List P) (track : Option P) : Option P :=
  o.sortedAlbumLoop (o.simpleListGetNext head (fun _ => true) false) (head.length + 1) track track

/-- `lib_goto_next_album`, with the track that it returns. -/
def libGotoNextAlbum (c : Session P) : Option (Session P × Option P) :=
  if c.lib.tree.isEmpty then (if c.curTrack.isSome then none else some (c, none))
  else do
    let track := o.sortedAlbumLastTrack c.lib.editable.head none
    let track ← o.simpleListGetNext c.lib.editable.head (o.aaaModeFilter c.curTrack) true track
    some (c.libSetTrack track, track)

/-- `lib_goto_prev_album`. -/
def libGotoPrevAlbum (c : Session P) : Option (Session P × Option P) :=
  if c.lib.tree.isEmpty then (if c.curTrack.isSome then none else some (c, none))
  else do
    let track := o.sortedAlbumFirstTrack c.lib.editable.head none
    let track ← o.simpleListGetPrev c.lib.editable.head (o.aaaModeFilter c.curTrack) true track
    let track := o.sortedAlbumFirstTrack c.lib.editable.head track
    some (c.libSetTrack track, track)

/-! ### What should be selected -/

def firstListed (head : List P) (album : A) : Option P := head.find? fun t => o.album t = album

def lastListed (head : List P) (album : A) : Option P :=
  head.reverse.find? fun t => o.album t = album

/-- Whether the album of a track is one to play. -/
def passes (c : Session P) (t : P) : Bool := o.aaaModeFilter c.curTrack (o.album t)

/-- The first track behind the current album that passes. -/
def nextAlbum (c : Session P) (cur : P) : Option P :=
  (o.lastListed c.lib.editable.head (o.album cur)).bind fun last =>
    ((behind c.lib.editable.head last).find? (o.passes c)).or
      (if o.repeats then c.lib.editable.head.find? (o.passes c) else none)

/-- The nearest track in front of the current album that passes. -/
def prevAlbumTrack (c : Session P) (cur : P) : Option P :=
  (o.firstListed c.lib.editable.head (o.album cur)).bind fun first =>
    ((before c.lib.editable.head first).reverse.find? (o.passes c)).or
      (if o.repeats then c.lib.editable.head.reverse.find? (o.passes c) else none)

/-- The first listed track of its album. -/
def prevAlbum (c : Session P) (cur : P) : Option P :=
  (o.prevAlbumTrack c cur).bind fun t => o.firstListed c.lib.editable.head (o.album t)

/-! ### The ends of an album -/

/-- The tracks that `get` leads to, one after the other. -/
def Leads (get : Option P → Option (Option P)) : P → List P → Prop
  | t, [] => get (some t) = some none
  | t, u :: rest => get (some t) = some (some u) ∧ Leads get u rest

variable {o}

omit [DecidableEq P] [DecidableEq R] in
theorem sortedAlbumLoop_leads {get : Option P → Option (Option P)} {t u : P} {rest : List P}
    (h : Leads get t rest) {fuel : Nat} (hfuel : rest.length < fuel) :
    o.sortedAlbumLoop get fuel (some t) (some u) =
      (rest.reverse.find? fun v => o.album v = o.album u).or (some u) := by
  induction rest generalizing t u fuel with
  | nil =>
    obtain ⟨fuel, rfl⟩ : ∃ k, fuel = k + 1 := ⟨fuel - 1, by omega⟩
    rw [sortedAlbumLoop, show get (some t) = some none from h]
    rfl
  | cons v rest ih =>
    obtain ⟨hget, hrest⟩ := h
    rw [List.length_cons] at hfuel
    obtain ⟨fuel, rfl⟩ : ∃ k, fuel = k + 1 := ⟨fuel - 1, by omega⟩
    rw [sortedAlbumLoop, hget, List.reverse_cons, List.find?_append]
    dsimp only
    by_cases hsame : o.album u = o.album v
    · have hmap : Option.map o.album (some u) = some (o.album v) := congrArg some hsame
      rw [if_pos hmap, ih hrest (by omega), hsame, Option.or_assoc]
      simp
    · have hmap : ¬ Option.map o.album (some u) = some (o.album v) :=
        fun h => hsame (Option.some.inj h)
      rw [if_neg hmap, ih hrest (by omega), Option.or_assoc]
      simp [Ne.symm hsame]

omit [DecidableEq A] [DecidableEq R] in
theorem leads_prev {head front back : List P} {t : P} (hhead : head = front ++ t :: back)
    (hnodup : head.Nodup) :
    Leads (o.simpleListGetPrev head (fun _ => true) false) t front.reverse := by
  induction front using List.reverseRecOn generalizing t back with
  | nil =>
    rw [List.reverse_nil, Leads, simpleListGetPrev, before_split hhead List.not_mem_nil]
    rfl
  | append_singleton front u ih =>
    have hnot : t ∉ front ++ [u] := fun hmem =>
      (List.nodup_middle.mp (hhead ▸ hnodup)).notMem (List.mem_append_left _ hmem)
    have hearlier : head = front ++ u :: (t :: back) := by
      rw [hhead, List.append_assoc, List.singleton_append]
    rw [List.reverse_append, List.reverse_singleton, List.singleton_append]
    refine ⟨?_, ih hearlier⟩
    rw [simpleListGetPrev, before_split hhead hnot, List.reverse_append,
      List.reverse_singleton, List.singleton_append, List.find?_cons_of_pos rfl]

omit [DecidableEq R] in
/-- Back to the first listed track of the album. -/
theorem sortedAlbumFirstTrack_eq {head : List P} (hnodup : head.Nodup) {t : P} (ht : t ∈ head) :
    o.sortedAlbumFirstTrack head (some t) = o.firstListed head (o.album t) := by
  obtain ⟨front, back, hhead⟩ := List.append_of_mem ht
  have hlength : front.reverse.length < head.length + 1 := by
    rw [hhead, List.length_reverse, List.length_append, List.length_cons]
    omega
  rw [sortedAlbumFirstTrack, sortedAlbumLoop_leads (leads_prev hhead hnodup) hlength,
    List.reverse_reverse, firstListed, hhead, List.find?_append]
  simp

/-! ### The steps -/

/-- The current track is among those that are listed, once each, and in the tree. -/
structure Placed (c : Session P) (cur : P) : Prop where
  nodup : c.lib.editable.head.Nodup
  tree : c.lib.tree.Perm c.lib.editable.head
  current : c.curTrack = some cur
  shown : cur ∈ c.lib.editable.head

variable {c : Session P} {cur : P}

omit [DecidableEq P] in
theorem Placed.tree_nonempty (h : Placed c cur) : ¬ c.lib.tree.isEmpty = true := by
  intro hempty
  rw [List.isEmpty_iff] at hempty
  have hmem := h.tree.mem_iff.mpr h.shown
  rw [hempty] at hmem
  exact List.not_mem_nil hmem

/-- From null no album is left, and the first listed track is taken. -/
theorem libGotoNextAlbum_eq (h : Placed c cur) :
    o.libGotoNextAlbum c =
      some (c.libSetTrack c.lib.editable.head.head?, c.lib.editable.head.head?) := by
  rw [libGotoNextAlbum, if_neg h.tree_nonempty]
  rfl

/-- And backwards the album of the last listed one. -/
theorem libGotoPrevAlbum_eq (h : Placed c cur) {last : P}
    (hlast : c.lib.editable.head.getLast? = some last) :
    o.libGotoPrevAlbum c =
      some (c.libSetTrack (o.firstListed c.lib.editable.head (o.album last)),
        o.firstListed c.lib.editable.head (o.album last)) := by
  have hstart : o.simpleListGetPrev c.lib.editable.head (o.aaaModeFilter c.curTrack) true
      (o.sortedAlbumFirstTrack c.lib.editable.head none) = some (some last) :=
    congrArg some hlast
  rw [libGotoPrevAlbum, if_neg h.tree_nonempty]
  dsimp only
  rw [hstart, Option.bind_eq_bind, Option.bind_some,
    sortedAlbumFirstTrack_eq h.nodup (List.mem_of_getLast? hlast)]

theorem behind_cons_subset (a b : P) (l : List P) : behind (a :: l) b ⊆ l := by
  intro t ht
  rw [behind, List.dropWhile_cons] at ht
  split at ht
  · exact (List.dropWhile_sublist _).subset (List.mem_of_mem_tail ht)
  · exact ht

/-- Nothing behind the current album passes, and from the start of the list on the first
track does. -/
structure NextMet (o : SortedMode P A R) (c : Session P) (cur : P) : Prop where
  behind : ∀ last ∈ o.lastListed c.lib.editable.head (o.album cur),
    ∀ t ∈ Sequence.behind c.lib.editable.head last, ¬ o.passes c t = true
  repeats : o.repeats = true
  first : ∀ t ∈ c.lib.editable.head.head?, o.passes c t = true

/-- The nearest track that passes, or else the last one, is of the last listed album. -/
def PrevMet (o : SortedMode P A R) (c : Session P) (cur : P) : Prop :=
  ∀ first ∈ o.firstListed c.lib.editable.head (o.album cur),
  ∀ last ∈ c.lib.editable.head.getLast?,
    (∃ t ∈ (before c.lib.editable.head first).reverse.find? (o.passes c),
        o.album t = o.album last) ∨
      (∀ t ∈ before c.lib.editable.head first, ¬ o.passes c t = true) ∧
        o.repeats = true ∧ o.passes c last = true

theorem nextAlbum_iff (h : Placed c cur) :
    o.nextAlbum c cur = c.lib.editable.head.head? ↔ NextMet o c cur := by
  obtain ⟨last, hlast⟩ : ∃ t, o.lastListed c.lib.editable.head (o.album cur) = some t := by
    rw [← Option.isSome_iff_exists, lastListed, List.find?_isSome]
    exact ⟨cur, List.mem_reverse.mpr h.shown, decide_eq_true rfl⟩
  have hnodup := h.nodup
  obtain ⟨front, rest, hhead⟩ := List.exists_cons_of_ne_nil (List.ne_nil_of_mem h.shown)
  have hfront : front ∉ rest := (List.nodup_cons.mp (hhead ▸ hnodup)).1
  have hmet : NextMet o c cur ↔
      (∀ t ∈ behind (front :: rest) last, ¬ o.passes c t = true) ∧
        o.repeats = true ∧ o.passes c front = true := by
    constructor
    · intro hm
      exact ⟨hhead ▸ hm.behind last hlast, hm.repeats,
        hm.first front (by rw [hhead]; rfl)⟩
    · intro hm
      obtain ⟨hbehind, hrepeats, hfirst⟩ := hm
      refine ⟨fun l hl => ?_, hrepeats, fun t ht => ?_⟩
      · obtain rfl : last = l := Option.some.inj (hlast.symm.trans hl)
        rwa [hhead]
      · rw [hhead] at ht
        obtain rfl : front = t := Option.some.inj ht
        exact hfirst
  rw [hmet, nextAlbum, hlast, Option.bind_some, hhead, List.head?_cons]
  cases hfind : (behind (front :: rest) last).find? (o.passes c) with
  | some t =>
    have hmem := List.mem_of_find?_eq_some hfind
    have hpass := List.find?_some hfind
    rw [Option.some_or]
    refine iff_of_false (fun heq => ?_) fun hm => hm.1 t hmem hpass
    obtain rfl := Option.some.inj heq
    exact hfront (behind_cons_subset _ _ _ hmem)
  | none =>
    have hnone := List.find?_eq_none.mp hfind
    rw [Option.none_or, and_iff_right hnone]
    by_cases hrepeats : o.repeats = true
    · rw [if_pos hrepeats, and_iff_right hrepeats]
      by_cases hpass : o.passes c front = true
      · rw [List.find?_cons_of_pos hpass]
        exact iff_of_true rfl hpass
      · rw [List.find?_cons_of_neg hpass]
        exact iff_of_false (fun heq => hfront (List.mem_of_find?_eq_some heq)) hpass
    · rw [if_neg hrepeats]
      exact iff_of_false nofun fun hm => hrepeats hm.1

omit [DecidableEq P] [DecidableEq R] in
/-- Albums of listed tracks have first listed tracks of their own. -/
theorem firstListed_inj {head : List P} {t u : P} (ht : t ∈ head) :
    o.firstListed head (o.album t) = o.firstListed head (o.album u) ↔ o.album t = o.album u := by
  refine ⟨fun heq => ?_, fun heq => by rw [heq]⟩
  obtain ⟨v, hv⟩ : ∃ v, o.firstListed head (o.album t) = some v := by
    rw [← Option.isSome_iff_exists, firstListed, List.find?_isSome]
    exact ⟨t, ht, decide_eq_true rfl⟩
  have hu := heq ▸ hv
  rw [firstListed] at hv hu
  have hvt : o.album v = o.album t := by simpa using List.find?_some hv
  have hvu : o.album v = o.album u := by simpa using List.find?_some hu
  exact hvt.symm.trans hvu

/-- What is found is listed, and then the albums are the same. -/
theorem prevAlbum_eq_iff {last : P} (hlast : last ∈ c.lib.editable.head) :
    o.prevAlbum c cur = o.firstListed c.lib.editable.head (o.album last) ↔
      ∃ t ∈ o.prevAlbumTrack c cur, o.album t = o.album last := by
  rw [prevAlbum]
  cases hfound : o.prevAlbumTrack c cur with
  | none =>
    refine iff_of_false (fun heq => ?_) (by simp)
    have hsome : (o.firstListed c.lib.editable.head (o.album last)).isSome = true := by
      rw [firstListed, List.find?_isSome]
      exact ⟨last, hlast, decide_eq_true rfl⟩
    rw [← heq] at hsome
    cases hsome
  | some t =>
    rw [Option.bind_some, eq_comm, firstListed_inj hlast, eq_comm]
    simp

omit [DecidableEq P] in
/-- The last track that passes is of the album of the last one where that passes. -/
theorem find_last_iff {last : P} (hlast : c.lib.editable.head.getLast? = some last) :
    (∃ t ∈ c.lib.editable.head.reverse.find? (o.passes c), o.album t = o.album last) ↔
      o.passes c last = true := by
  constructor
  · intro hm
    obtain ⟨t, hfound, halbum⟩ := hm
    have hpass := List.find?_some hfound
    rwa [passes, halbum] at hpass
  · intro hpass
    obtain ⟨init, hinit⟩ := List.getLast?_eq_some_iff.mp hlast
    refine ⟨last, ?_, rfl⟩
    rw [hinit, List.reverse_append, List.reverse_singleton, List.singleton_append,
      List.find?_cons_of_pos hpass]
    rfl

theorem prevAlbum_iff (h : Placed c cur) {last : P}
    (hlast : c.lib.editable.head.getLast? = some last) :
    o.prevAlbum c cur = o.firstListed c.lib.editable.head (o.album last) ↔ PrevMet o c cur := by
  obtain ⟨first, hfirst⟩ : ∃ t, o.firstListed c.lib.editable.head (o.album cur) = some t := by
    rw [← Option.isSome_iff_exists, firstListed, List.find?_isSome]
    exact ⟨cur, h.shown, decide_eq_true rfl⟩
  have hmem := List.mem_of_getLast? hlast
  have hmet : PrevMet o c cur ↔
      (∃ t ∈ (before c.lib.editable.head first).reverse.find? (o.passes c),
        o.album t = o.album last) ∨
      (∀ t ∈ before c.lib.editable.head first, ¬ o.passes c t = true) ∧
        o.repeats = true ∧ o.passes c last = true := by
    refine ⟨fun hm => hm first hfirst last hlast, fun hm first' hfirst' last' hlast' => ?_⟩
    obtain rfl : first = first' := Option.some.inj (hfirst.symm.trans hfirst')
    obtain rfl : last = last' := Option.some.inj (hlast.symm.trans hlast')
    exact hm
  rw [hmet, prevAlbum_eq_iff hmem, prevAlbumTrack, hfirst, Option.bind_some]
  cases hfind : (before c.lib.editable.head first).reverse.find? (o.passes c) with
  | some t =>
    have hfound := List.mem_reverse.mp (List.mem_of_find?_eq_some hfind)
    have hpass := List.find?_some hfind
    rw [Option.some_or, or_iff_left fun hm => hm.1 t hfound hpass]
  | none =>
    have hnone : ∀ t ∈ before c.lib.editable.head first, ¬ o.passes c t = true :=
      fun t ht => List.find?_eq_none.mp hfind t (List.mem_reverse.mpr ht)
    rw [Option.none_or, and_iff_right hnone, or_iff_right (by simp)]
    by_cases hrepeats : o.repeats = true
    · rw [if_pos hrepeats, and_iff_right hrepeats]
      exact find_last_iff hlast
    · rw [if_neg hrepeats]
      exact iff_of_false (by simp) fun hm => hrepeats hm.1

/-- The step to the next album selects what follows the current one, if and only if that is
the first listed track; the step to the previous album selects the first track of the album
in front of it, if and only if that is the album of the last listed track. -/
theorem albumSteps_iff (o : SortedMode P A R) (h : Placed c cur) :
    (o.libGotoNextAlbum c = some (c.libSetTrack (o.nextAlbum c cur), o.nextAlbum c cur) ↔
      NextMet o c cur) ∧
    (o.libGotoPrevAlbum c = some (c.libSetTrack (o.prevAlbum c cur), o.prevAlbum c cur) ↔
      PrevMet o c cur) := by
  have hselect (t u : Option P) :
      some (c.libSetTrack t, t) = some (c.libSetTrack u, u) ↔ u = t := by
    refine ⟨fun heq => (congrArg Prod.snd (Option.some.inj heq)).symm, fun heq => by rw [heq]⟩
  constructor
  · rw [libGotoNextAlbum_eq h, hselect, nextAlbum_iff h]
  · have hlast := List.getLast?_eq_some_getLast (List.ne_nil_of_mem h.shown)
    rw [libGotoPrevAlbum_eq h hlast, hselect, prevAlbum_iff h hlast]

/-- Three albums of a track each, the one in the middle played. -/
def middleTrack : Session Nat where
  lib :=
    { editable := ⟨⟨[0, 1, 2], .leaf, fun _ => false⟩, fun t => {uid := t, filename := []},
        fun _ => false, 3, 0, 0, []⟩
      shuffle := [0, 1, 2], tree := [0, 1, 2], tiHash := fun _ => [], removeFromHash := true
      inForce := {} }
  curTrack := some 1
  curTrackTi := none

def eachAlbum : SortedMode Nat Nat Nat := ⟨id, id, .all, false⟩

theorem middleTrack_placed : Placed middleTrack 1 :=
  ⟨by decide, List.Perm.refl _, rfl, by decide⟩

theorem albumSteps_iff_middle :
    (eachAlbum.libGotoNextAlbum middleTrack =
        some (middleTrack.libSetTrack (eachAlbum.nextAlbum middleTrack 1),
          eachAlbum.nextAlbum middleTrack 1) ↔ NextMet eachAlbum middleTrack 1) ∧
      (eachAlbum.libGotoPrevAlbum middleTrack =
        some (middleTrack.libSetTrack (eachAlbum.prevAlbum middleTrack 1),
          eachAlbum.prevAlbum middleTrack 1) ↔ PrevMet eachAlbum middleTrack 1) :=
  albumSteps_iff eachAlbum middleTrack_placed

/-- From the middle the next album is the first one, and the previous album the last one. -/
theorem albumSteps_astray :
    (eachAlbum.libGotoNextAlbum middleTrack).map Prod.snd = some (some 0) ∧
      eachAlbum.nextAlbum middleTrack 1 = some 2 ∧
      (eachAlbum.libGotoPrevAlbum middleTrack).map Prod.snd = some (some 2) ∧
      eachAlbum.prevAlbum middleTrack 1 = some 0 := by
  decide

end SortedMode
end GracefulMusic.Lib
