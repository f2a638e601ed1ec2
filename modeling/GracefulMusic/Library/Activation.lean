import GracefulMusic.Library.Tree
import GracefulMusic.Shuffle.Order

/-! Activating a row of the library views (`cmd_win_activate`).

A pointer is followed only where something is loaded through it; the address of a field
of no track is not used. What follows a NULL pointer has no outcome. The player and the
windows are left out: the result is the track that is played. -/
namespace GracefulMusic.Activation

inductive ShuffleMode where
  | off | tracks | albums
  deriving DecidableEq

/-- `TREE_VIEW` and `SORTED_VIEW`. -/
inductive LibraryView where
  | tree | sorted
  deriving DecidableEq

/-- `sorted` is the list of the sorted view. -/
structure Library (P : Type) where
  tree : Lib.Tree P
  sorted : List P
  shuffleRoot : Shuffle.Tree P
  albumShuffleRoot : Shuffle.Tree P
  curTrack : Option P

/-- The row of the tree window, and those of the track window and of the sorted view. -/
structure Selection (P : Type) where
  artist : Option P
  album : Option P
  track : Option P
  sorted : Option P

variable {P : Type}

def treeGetSelected (lib : Library P) (sel : Selection P) (showAllTracks : Bool) :
    Option (Option P) :=
  if lib.tree.libArtistRoot.isEmpty then some none
  else if sel.album = none ∧ showAllTracks = false then
    -- the track window is empty
    sel.artist.bind fun artist =>
      (lib.tree.albums artist).head?.bind fun album => (lib.tree.tracks album).head?.map some
  else some sel.track

def treeActivateSelected (lib : Library P) (sel : Selection P) (showAllTracks : Bool) :
    Option (Library P × Option P) :=
  (treeGetSelected lib sel showAllTracks).map fun track => ({ lib with curTrack := track }, track)

def sortedGetSelected (lib : Library P) (sel : Selection P) : Option P :=
  if lib.sorted = [] then none else sel.sorted

def libSetTrack (lib : Library P) (track : Option P) : Library P × Option P :=
  match track with
  | some t => ({ lib with curTrack := some t }, some t)
  | none => (lib, none)

def activate (view : LibraryView) (lib : Library P) (sel : Selection P) (showAllTracks : Bool) :
    Option (Library P × Option P) :=
  match view with
  | .tree => treeActivateSelected lib sel showAllTracks
  | .sorted => some (libSetTrack lib (sortedGetSelected lib sel))

def cmdWinActivate [DecidableEq P] (b : OrderedTree.Balancing P) (shuffle : ShuffleMode)
    (view : LibraryView) (lib : Library P) (sel : Selection P) (showAllTracks : Bool) :
    Option (Library P × Option P) :=
  (activate view lib sel showAllTracks).bind fun activated =>
    match shuffle with
    | .off => some activated
    | .tracks =>
      match activated.2, activated.1.curTrack with
      | some info, some next =>
        some ({ activated.1 with
          shuffleRoot := activated.1.shuffleRoot.shuffleInsert b lib.curTrack next }, some info)
      | _, _ => some activated
    | .albums =>
      let previous := lib.curTrack.map lib.tree.albumOf
      match activated.1.curTrack with
      | none => none
      | some cur =>
        if activated.2.isSome then
          some ({ activated.1 with
            albumShuffleRoot := activated.1.albumShuffleRoot.shuffleInsert b previous
              (activated.1.tree.albumOf cur) }, activated.2)
        else some activated

/-! ### Libraries -/

/-- The views hold the same tracks, the albums are those of the tree, and nothing in the
tree is empty. -/
structure Coherent (lib : Library P) : Prop where
  sorted : lib.sorted.Perm lib.tree.allTracks
  shuffle : lib.shuffleRoot.order.Perm lib.tree.allTracks
  albumShuffle : lib.albumShuffleRoot.order.Perm lib.tree.allAlbums
  albums : ∀ artist ∈ lib.tree.artists, lib.tree.albums artist ≠ []
  tracks : ∀ album ∈ lib.tree.allAlbums, lib.tree.tracks album ≠ []
  albumOf : ∀ album ∈ lib.tree.allAlbums, ∀ t ∈ lib.tree.tracks album, lib.tree.albumOf t = album
  current : ∀ t ∈ lib.curTrack, t ∈ lib.tree.allTracks

/-- What the track window shows. -/
def trackWindow (lib : Library P) (sel : Selection P) (showAllTracks : Bool) : List P :=
  match sel.album, sel.artist with
  | some album, _ => lib.tree.tracks album
  | none, some artist =>
    if showAllTracks then (lib.tree.albums artist).flatMap lib.tree.tracks else []
  | none, none => []

/-- Where a window has rows, one of them is selected. -/
structure Valid (lib : Library P) (sel : Selection P) (showAllTracks : Bool) : Prop where
  artist : lib.tree.artists ≠ [] → ∃ artist ∈ lib.tree.artists, sel.artist = some artist ∧
    ∀ album ∈ sel.album, album ∈ lib.tree.albums artist
  track : trackWindow lib sel showAllTracks ≠ [] →
    ∃ t ∈ trackWindow lib sel showAllTracks, sel.track = some t
  sorted : lib.sorted ≠ [] → ∃ t ∈ lib.sorted, sel.sorted = some t

/-- The track of the selected row; an artist without rows in the track window stands for
the first track of its first album. -/
def selectedRow (view : LibraryView) (lib : Library P) (sel : Selection P) (showAllTracks : Bool) :
    Option P :=
  if lib.sorted = [] then none
  else
    match view with
    | .sorted => sel.sorted
    | .tree =>
      if sel.album = none ∧ showAllTracks = false then
        sel.artist.bind fun artist =>
          (lib.tree.albums artist).head?.bind fun album => (lib.tree.tracks album).head?
      else sel.track

/-- The order in use has the track, or its album, behind the one that was current. -/
def InOrder [DecidableEq P] (shuffle : ShuffleMode) (lib lib' : Library P) (track : P) : Prop :=
  match shuffle with
  | .off => lib'.shuffleRoot = lib.shuffleRoot ∧ lib'.albumShuffleRoot = lib.albumShuffleRoot
  | .tracks =>
    Shuffle.Moved lib.curTrack track lib.shuffleRoot.order lib'.shuffleRoot.order ∧
      lib'.albumShuffleRoot = lib.albumShuffleRoot
  | .albums =>
    Shuffle.Moved (lib.curTrack.map lib.tree.albumOf) (lib.tree.albumOf track)
      lib.albumShuffleRoot.order lib'.albumShuffleRoot.order ∧
      lib'.shuffleRoot = lib.shuffleRoot

/-- No NULL pointer is followed, and the selected track becomes the current one, in its
place in the order. -/
def Activates [DecidableEq P] (b : OrderedTree.Balancing P) (shuffle : ShuffleMode)
    (view : LibraryView) (lib : Library P) (sel : Selection P) (showAllTracks : Bool) : Prop :=
  ∃ lib' info, cmdWinActivate b shuffle view lib sel showAllTracks = some (lib', info) ∧
    info = selectedRow view lib sel showAllTracks ∧ lib'.tree = lib.tree ∧
    lib'.sorted = lib.sorted ∧
    match selectedRow view lib sel showAllTracks with
    | some track => lib'.curTrack = some track ∧ InOrder shuffle lib lib' track
    | none => lib' = lib

/-! ### The selected row -/

variable {lib : Library P} {sel : Selection P} {showAllTracks : Bool}

theorem Coherent.empty_iff (h : Coherent lib) :
    lib.sorted = [] ↔ lib.tree.artists = [] := by
  constructor
  · intro hsorted
    by_contra hartists
    obtain ⟨artist, hartist⟩ := List.exists_mem_of_ne_nil _ hartists
    obtain ⟨album, halbum⟩ := List.exists_mem_of_ne_nil _ (h.albums artist hartist)
    have hall : album ∈ lib.tree.allAlbums := List.mem_flatMap.mpr ⟨artist, hartist, halbum⟩
    obtain ⟨t, ht⟩ := List.exists_mem_of_ne_nil _ (h.tracks album hall)
    have hmem := h.sorted.mem_iff.mpr (List.mem_flatMap.mpr ⟨album, hall, ht⟩)
    rw [hsorted] at hmem
    cases hmem
  · intro hartists
    have hnil : lib.tree.allTracks = [] := by
      rw [Lib.Tree.allTracks, Lib.Tree.allAlbums, hartists]
      rfl
    exact List.Perm.eq_nil (hnil ▸ h.sorted)

theorem mem_allTracks {artist album t : P} (hartist : artist ∈ lib.tree.artists)
    (halbum : album ∈ lib.tree.albums artist) (ht : t ∈ lib.tree.tracks album) :
    t ∈ lib.tree.allTracks :=
  List.mem_flatMap.mpr ⟨album, List.mem_flatMap.mpr ⟨artist, hartist, halbum⟩, ht⟩

/-- In a tree that is not empty the selection leads to a track. -/
theorem treeGetSelected_spec (h : Coherent lib) (hsel : Valid lib sel showAllTracks)
    (hne : lib.sorted ≠ []) : ∃ t, treeGetSelected lib sel showAllTracks = some (some t) ∧
      selectedRow .tree lib sel showAllTracks = some t ∧ t ∈ lib.tree.allTracks := by
  have hartists : lib.tree.artists ≠ [] := fun hnil => hne (h.empty_iff.mpr hnil)
  have hroot : lib.tree.libArtistRoot.isEmpty = false := by
    rw [Bool.eq_false_iff]
    exact fun hempty => hartists ((OrderedTree.isEmpty_iff _).mp hempty)
  obtain ⟨artist, hartist, hselArtist, hselAlbum⟩ := hsel.artist hartists
  rw [treeGetSelected, selectedRow, if_neg (by rw [hroot]; decide), if_neg hne]
  by_cases hfirst : sel.album = none ∧ showAllTracks = false
  · rw [if_pos hfirst, if_pos hfirst, hselArtist, Option.bind_some, Option.bind_some]
    obtain ⟨album, albums, halbums⟩ := List.exists_cons_of_ne_nil (h.albums artist hartist)
    have halbum : album ∈ lib.tree.albums artist := halbums ▸ List.mem_cons_self
    obtain ⟨t, tracks, htracks⟩ := List.exists_cons_of_ne_nil
      (h.tracks album (List.mem_flatMap.mpr ⟨artist, hartist, halbum⟩))
    have ht : t ∈ lib.tree.tracks album := htracks ▸ List.mem_cons_self
    rw [halbums, List.head?_cons, Option.bind_some, Option.bind_some, htracks, List.head?_cons]
    exact ⟨t, rfl, rfl, mem_allTracks hartist halbum ht⟩
  · rw [if_neg hfirst, if_neg hfirst]
    have hwindow : ∀ t ∈ trackWindow lib sel showAllTracks, t ∈ lib.tree.allTracks := by
      intro t ht
      rw [trackWindow, hselArtist] at ht
      cases halbum : sel.album with
      | some album =>
        rw [halbum] at ht
        exact mem_allTracks hartist (hselAlbum album halbum) ht
      | none =>
        rw [halbum] at ht
        dsimp only at ht
        split at ht
        · obtain ⟨album, halbum, ht⟩ := List.mem_flatMap.mp ht
          exact mem_allTracks hartist halbum ht
        · cases ht
    have hshown : trackWindow lib sel showAllTracks ≠ [] := by
      rw [trackWindow, hselArtist]
      cases halbum : sel.album with
      | some album =>
        exact h.tracks album (List.mem_flatMap.mpr ⟨artist, hartist, hselAlbum album halbum⟩)
      | none =>
        have hall : showAllTracks = true := by
          by_contra hnot
          exact hfirst ⟨halbum, Bool.eq_false_of_not_eq_true hnot⟩
        obtain ⟨album, hmem⟩ := List.exists_mem_of_ne_nil _ (h.albums artist hartist)
        obtain ⟨t, ht⟩ := List.exists_mem_of_ne_nil _
          (h.tracks album (List.mem_flatMap.mpr ⟨artist, hartist, hmem⟩))
        dsimp only
        rw [if_pos hall]
        exact List.ne_nil_of_mem (List.mem_flatMap.mpr ⟨album, hmem, ht⟩)
    obtain ⟨t, ht, hselTrack⟩ := hsel.track hshown
    exact ⟨t, congrArg some hselTrack, hselTrack, hwindow t ht⟩

/-- What an activation does to the current track. -/
theorem activate_some (h : Coherent lib) (hsel : Valid lib sel showAllTracks)
    (hne : lib.sorted ≠ []) (view : LibraryView) :
    ∃ t, activate view lib sel showAllTracks = some ({ lib with curTrack := some t }, some t) ∧
      selectedRow view lib sel showAllTracks = some t ∧ t ∈ lib.tree.allTracks := by
  cases view with
  | tree =>
    obtain ⟨t, hget, hrow, ht⟩ := treeGetSelected_spec h hsel hne
    refine ⟨t, ?_, hrow, ht⟩
    rw [activate, treeActivateSelected, hget]
    rfl
  | sorted =>
    obtain ⟨t, ht, hselSorted⟩ := hsel.sorted hne
    refine ⟨t, ?_, ?_, h.sorted.mem_iff.mp ht⟩
    · rw [activate, sortedGetSelected, if_neg hne, hselSorted]
      rfl
    · rw [selectedRow, if_neg hne]
      exact hselSorted

theorem activate_none (sel : Selection P) (showAllTracks : Bool) (h : Coherent lib)
    (hnil : lib.sorted = []) (view : LibraryView) :
    lib.curTrack = none ∧ activate view lib sel showAllTracks = some (lib, none) := by
  have hartists := h.empty_iff.mp hnil
  have hcur : lib.curTrack = none := by
    cases hcur : lib.curTrack with
    | none => rfl
    | some t =>
      have ht := h.sorted.mem_iff.mpr (h.current t hcur)
      rw [hnil] at ht
      cases ht
  refine ⟨hcur, ?_⟩
  cases view with
  | tree =>
    rw [activate, treeActivateSelected, treeGetSelected,
      if_pos ((OrderedTree.isEmpty_iff _).mpr hartists), Option.map_some, ← hcur]
  | sorted =>
    rw [activate, sortedGetSelected, if_pos hnil]
    rfl

/-- With the albums shuffled an empty view makes the command follow the NULL pointer that
is the current track; it does what it should in all other cases. -/
theorem cmd_win_activate_order [DecidableEq P] (b : OrderedTree.Balancing P)
    (h : Coherent lib) (hsel : Valid lib sel showAllTracks)
    (shuffle : ShuffleMode) (view : LibraryView) :
    Activates b shuffle view lib sel showAllTracks ↔
      ¬ (shuffle = .albums ∧ lib.sorted = []) := by
  by_cases hnil : lib.sorted = []
  · obtain ⟨hcur, hactivate⟩ := activate_none sel showAllTracks h hnil view
    have hrow : selectedRow view lib sel showAllTracks = none := if_pos hnil
    constructor
    · intro hright hcase
      obtain ⟨lib', info, hcmd, -⟩ := hright
      rw [cmdWinActivate, hactivate, hcase.1, Option.bind_some] at hcmd
      dsimp only at hcmd
      rw [hcur] at hcmd
      cases hcmd
    · intro hnot
      rw [Activates, hrow, cmdWinActivate, hactivate, Option.bind_some]
      refine ⟨lib, none, ?_, rfl, rfl, rfl, rfl⟩
      cases shuffle with
      | off => rfl
      | tracks => rfl
      | albums => exact absurd ⟨rfl, hnil⟩ hnot
  · obtain ⟨t, hactivate, hrow, ht⟩ := activate_some h hsel hnil view
    refine iff_of_true ?_ (fun hcase => hnil hcase.2)
    rw [Activates, hrow, cmdWinActivate, hactivate, Option.bind_some]
    have hprevious : ∀ p ∈ lib.curTrack, p ∈ lib.shuffleRoot.order :=
      fun p hp => h.shuffle.mem_iff.mpr (h.current p hp)
    have halbum : ∀ p ∈ lib.tree.allTracks, lib.tree.albumOf p ∈ lib.albumShuffleRoot.order := by
      intro p hp
      obtain ⟨album, hmem, hp⟩ := List.mem_flatMap.mp hp
      rw [h.albumOf album hmem p hp]
      exact h.albumShuffle.mem_iff.mpr hmem
    have hpreviousAlbum : ∀ p ∈ lib.curTrack.map lib.tree.albumOf,
        p ∈ lib.albumShuffleRoot.order := by
      intro p hp
      obtain ⟨cur, hcur, hp⟩ := Option.map_eq_some_iff.mp hp
      rw [← hp]
      exact halbum cur (h.current cur hcur)
    cases shuffle with
    | off => exact ⟨_, _, rfl, rfl, rfl, rfl, rfl, rfl, rfl⟩
    | tracks =>
      exact ⟨_, _, rfl, rfl, rfl, rfl, rfl, Shuffle.shuffleInsert_moved b t hprevious, rfl⟩
    | albums =>
      exact ⟨_, _, rfl, rfl, rfl, rfl, rfl,
        Shuffle.shuffleInsert_moved b (lib.tree.albumOf t) hpreviousAlbum, rfl⟩

theorem noName_noNul : 0 ∉ ([] : Text) := List.not_mem_nil

def noName : Lib.Name := ⟨[], ⟨[], noName_noNul⟩⟩

/-- An artist 0 with an album 1, where there are tracks. -/
def sampleTree (tracks : List Nat) : Lib.Tree Nat where
  libArtistRoot := if tracks = [] then .leaf else .node .leaf 0 .leaf
  artist _ := ⟨.node .leaf 1 .leaf, noName, none, none, false⟩
  album _ := ⟨OrderedTree.ofList tracks, 0, noName, none, 0, 0⟩
  albumOf _ := 1

def sampleLibrary (tracks : List Nat) (cur : Option Nat) : Library Nat where
  tree := sampleTree tracks
  sorted := tracks
  shuffleRoot := ⟨OrderedTree.ofList tracks, id⟩
  albumShuffleRoot := ⟨if tracks = [] then .leaf else .node .leaf 1 .leaf, id⟩
  curTrack := cur

theorem cmd_win_activate_example : Activates OrderedTree.Balancing.none .tracks .tree
    (sampleLibrary [2, 3, 4] (some 3)) ⟨some 0, none, none, some 4⟩ false := by
  have hcoherent : Coherent (sampleLibrary [2, 3, 4] (some 3)) :=
    ⟨by decide, by decide, by decide, by decide, by decide, by decide,
      fun t ht => by cases ht; decide⟩
  have hvalid : Valid (sampleLibrary [2, 3, 4] (some 3)) ⟨some 0, none, none, some 4⟩ false :=
    ⟨fun _ => ⟨0, by decide, rfl, by simp⟩, fun h => absurd rfl h, fun _ => ⟨4, by decide, rfl⟩⟩
  exact (cmd_win_activate_order OrderedTree.Balancing.none hcoherent hvalid .tracks .tree).mpr
    fun h => absurd h.1 (by decide)

/-- In an empty library, with the albums shuffled. -/
theorem cmd_win_activate_empty : Coherent (sampleLibrary [] none) ∧
    Valid (sampleLibrary [] none) ⟨none, none, none, none⟩ true ∧
    cmdWinActivate OrderedTree.Balancing.none .albums .tree (sampleLibrary [] none)
      ⟨none, none, none, none⟩ true = none ∧
    ¬ Activates OrderedTree.Balancing.none .albums .tree (sampleLibrary [] none)
      ⟨none, none, none, none⟩ true := by
  refine ⟨⟨by decide, by decide, by decide, by decide, by decide, by decide,
      fun t ht => absurd ht (by simp [sampleLibrary])⟩,
    ⟨fun h => absurd rfl h, fun h => absurd rfl h, fun h => absurd rfl h⟩, rfl, ?_⟩
  intro h
  obtain ⟨lib', info, hcmd, -⟩ := h
  cases hcmd

end GracefulMusic.Activation
