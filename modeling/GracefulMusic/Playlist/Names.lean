import GracefulMusic.Foundation.Sequence
import GracefulMusic.Playlist.Files
import GracefulMusic.Urls.Strings

/-! The names of the playlists and their files (`pl.c`).

Playlists are found by their pointers. Each has a file of its name in the playlist directory;
no name there is a link. What a call on a file comes to is an argument. The tracks of a playlist
are the names that it is saved with. -/
namespace GracefulMusic.PlaylistNames
open Pl (savePlaylist)

/-! ### The playlist directory -/

inductive Node where
  | regular (bytes : Text)
  | other

abbrev Directory := Text → Option Node

def isRegular : Option Node → Bool
  | some (.regular _) => true
  | _ => false

def isOther : Option Node → Bool
  | some .other => true
  | _ => false

/-- The names that lead to directories which no call changes. -/
def isDots (name : Text) : Bool := name = [] || name = ascii "." || name = ascii ".."

namespace Directory
variable (dir : Directory)

/-- `open` and `write`: what is written of the bytes, or `none` where the file is not opened. -/
def save (name bytes : Text) (written : Option Nat) : Directory :=
  match written with
  | none => dir
  | some n =>
    if isDots name || isOther (dir name) then dir
    else Function.update dir name (some (.regular (bytes.take n)))

def rename (cur new : Text) (ok : Bool) : Directory :=
  if ok && (dir cur).isSome && !isDots cur && !isDots new then
    Function.update (Function.update dir new (dir cur)) cur none
  else dir

def unlink (name : Text) (ok : Bool) : Directory :=
  if ok && !isDots name then Function.update dir name none else dir

end Directory

/-- What the directory is read as: each name once. -/
structure Listing where
  names : List Text
  nodup : names.Nodup
  plain : ∀ name ∈ names, slash ∉ name

/-! ### Playlists -/

structure Playlist where
  name : Text
  filenames : List Text

structure Playlists where
  plHead : List Nat
  playlist : Nat → Playlist
  visible : Nat
  /-- The pointers below have been given out. -/
  allocated : Nat
  dir : Directory

/-- `get_filename` -/
def getFilename (path : Text) : Option Text :=
  let file :=
    match splitSlash path with
    | none => path
    | some (_, file) => file
  if file = [] then none else some file

namespace Playlists
variable (s : Playlists)

def name (pl : Nat) : Text := (s.playlist pl).name

/-- `pl_new`, and its place at the end of the list. -/
def plNew (name : Text) : Playlists where
  plHead := s.plHead ++ [s.allocated]
  playlist := Function.update s.playlist s.allocated ⟨name, []⟩
  visible := s.visible
  allocated := s.allocated + 1
  dir := s.dir

def plNameExists (name : Text) : Bool := s.plHead.any fun pl => s.name pl = name

def plCheckNewPlName (name : Text) : Bool := slash ∉ name && !s.plNameExists name

/-- The loop of `pl_create_name`, with the rounds that are left until `i == 100`. -/
def plCreateNameLoop (file : Text) : Nat → Text → Option Text
  | 0, name => if s.plNameExists name then none else some name
  | rounds + 1, name =>
    if s.plNameExists name then
      plCreateNameLoop file rounds (file ++ ch '.' :: decimal (99 - rounds))
    else some name

def plCreateName (file : Text) : Option Text := s.plCreateNameLoop file 99 file

def plCreate (name : Text) : Playlists := if s.plCheckNewPlName name then s.plNew name else s

/-- The tracks come from a job. -/
def plImport (path : Text) : Playlists :=
  match getFilename path with
  | none => s -- not a valid path
  | some file =>
    match s.plCreateName file with
    | none => s
    | some name => s.plNew name

def plRenameSelectedPl (name : Text) (ok : Bool) : Playlists :=
  if s.name s.visible = name then s
  else if s.plCheckNewPlName name then
    {s with
      dir := s.dir.rename (s.name s.visible) name ok
      playlist := Function.update s.playlist s.visible {s.playlist s.visible with name}}
  else s

/-- The list window moves to the next row, or else to the one before. -/
def plDeleteSelectedPl (answer ok : Bool) : Playlists :=
  match (Sequence.after s.plHead s.visible).or (Sequence.before s.plHead s.visible).getLast? with
  | none => s -- cannot delete the last playlist
  | some next =>
    if answer then
      {s with
        visible := next
        plHead := s.plHead.erase s.visible
        dir := s.dir.unlink (s.name s.visible) ok}
    else s

def plSaveOne (pl : Nat) (written : Option Nat) : Playlists :=
  {s with dir := s.dir.save (s.name pl) (savePlaylist (s.playlist pl).filenames) written}

def plSaveAll (written : Nat → Option Nat) : Playlists :=
  s.plHead.foldl (fun s pl => s.plSaveOne pl (written pl)) s

end Playlists

def plLoadAll (listing : Listing) (dir : Directory) : Playlists :=
  (listing.names.filter fun file =>
    file ≠ ascii "." && file ≠ ascii ".." && isRegular (dir file)).foldl Playlists.plNew
      ⟨[], fun _ => ⟨[], []⟩, 0, 0, dir⟩

def Playlists.plCreateDefault (s : Playlists) : Playlists := s.plNew (ascii "default")

/-- `pl_sort_all`; the list window then selects its first row. -/
def Playlists.plSortAll (s : Playlists) : Playlists :=
  let plHead := s.plHead.mergeSort fun l r => strcmp (s.name l) (s.name r) ≤ 0
  {s with plHead, visible := plHead.head?.getD 0}

def plInit (listing : Listing) (dir : Directory) : Playlists :=
  if (plLoadAll listing dir).plHead = [] then (plLoadAll listing dir).plCreateDefault.plSortAll
  else (plLoadAll listing dir).plSortAll

/-! ### Runs -/

inductive Op where
  | create (name : Text)
  | importFile (path : Text)
  | rename (name : Text) (ok : Bool)
  | delete (answer ok : Bool)
  | save (written : Nat → Option Nat)
  | select (pl : Nat)
  | setTracks (pl : Nat) (filenames : List Text)
  /-- What other programs do to the directory. -/
  | outside (dir : Directory)

def step (s : Playlists) : Op → Playlists
  | .create name => s.plCreate name
  | .importFile path => s.plImport path
  | .rename name ok => s.plRenameSelectedPl name ok
  | .delete answer ok => s.plDeleteSelectedPl answer ok
  | .save written => s.plSaveAll written
  | .select pl => if pl ∈ s.plHead then {s with visible := pl} else s
  | .setTracks pl filenames =>
    {s with playlist := Function.update s.playlist pl {s.playlist pl with filenames}}
  | .outside dir => {s with dir}

def run (s : Playlists) (ops : List Op) : Playlists := ops.foldl step s

/-! ### The directory -/

theorem update_other {dir : Directory} {name other : Text} (h : other ≠ name) (node : Option Node) :
    Function.update dir name node other = dir other :=
  Function.update_of_ne h node dir

theorem save_other {dir : Directory} {name other : Text} (h : other ≠ name) (bytes : Text)
    (written : Option Nat) : dir.save name bytes written other = dir other := by
  unfold Directory.save
  split
  · rfl
  split
  · rfl
  · exact update_other h _

theorem rename_other {dir : Directory} {cur new other : Text} (hcur : other ≠ cur)
    (hnew : other ≠ new) (ok : Bool) : dir.rename cur new ok other = dir other := by
  unfold Directory.rename
  split
  · rw [update_other hcur, update_other hnew]
  · rfl

theorem unlink_other {dir : Directory} {name other : Text} (h : other ≠ name) (ok : Bool) :
    dir.unlink name ok other = dir other := by
  unfold Directory.unlink
  split
  · exact update_other h _
  · rfl

/-- A file that can be written. -/
def Writable (dir : Directory) (name : Text) : Prop :=
  isDots name = false ∧ isOther (dir name) = false

theorem save_self {dir : Directory} {name bytes : Text} (h : Writable dir name) {n : Nat}
    (hn : bytes.length ≤ n) : dir.save name bytes (some n) name = some (.regular bytes) := by
  have hopen : (isDots name || isOther (dir name)) = false := by
    rw [h.1, h.2]
    rfl
  rw [Directory.save, hopen, if_neg Bool.false_ne_true, Function.update_self,
    List.take_of_length_le hn]

/-! ### Names -/

/-- What holds of the playlists at any time. -/
structure Named (s : Playlists) : Prop where
  below : ∀ pl ∈ s.plHead, pl < s.allocated
  distinct : (s.plHead.map s.name).Nodup
  plain : ∀ pl ∈ s.plHead, slash ∉ s.name pl

/-- `Named`, and a playlist is visible. -/
structure Shown (s : Playlists) : Prop extends Named s where
  visible : s.visible ∈ s.plHead

variable {s : Playlists}

theorem Named.pointers (h : Named s) : s.plHead.Nodup := h.distinct.of_map

theorem Named.inj (h : Named s) {pl other : Nat} (hpl : pl ∈ s.plHead) (hother : other ∈ s.plHead)
    (heq : s.name pl = s.name other) : pl = other :=
  List.inj_on_of_nodup_map h.distinct hpl hother heq

theorem plNameExists_iff (name : Text) :
    s.plNameExists name = true ↔ name ∈ s.plHead.map s.name := by
  rw [Playlists.plNameExists, List.any_eq_true, List.mem_map]
  simp only [decide_eq_true_eq]

theorem plNew_name (name : Text) : (s.plNew name).name s.allocated = name := by
  simp [Playlists.plNew, Playlists.name]

theorem plNew_other {pl : Nat} (hpl : pl < s.allocated) (name : Text) :
    (s.plNew name).name pl = s.name pl := by
  simp [Playlists.plNew, Playlists.name, Nat.ne_of_lt hpl]

theorem Named.plNew_names (h : Named s) (name : Text) :
    (s.plNew name).plHead.map (s.plNew name).name = s.plHead.map s.name ++ [name] := by
  have hkeep : s.plHead.map (s.plNew name).name = s.plHead.map s.name :=
    List.map_congr_left fun pl hpl => plNew_other (h.below pl hpl) name
  have hhead : (s.plNew name).plHead = s.plHead ++ [s.allocated] := rfl
  rw [hhead, List.map_append, hkeep, List.map_singleton, plNew_name]

/-- A new name is neither that of another playlist nor has it a slash. -/
theorem Named.plNew (h : Named s) {name : Text} (hnew : name ∉ s.plHead.map s.name)
    (hplain : slash ∉ name) : Named (s.plNew name) where
  below pl hpl := by
    obtain hpl | hpl := List.mem_append.mp hpl
    · exact Nat.lt_succ_of_lt (h.below pl hpl)
    · rw [List.mem_singleton.mp hpl]
      exact Nat.lt_succ_self _
  distinct := by
    rw [h.plNew_names]
    exact List.nodup_append.mpr ⟨h.distinct, List.nodup_singleton _, fun a ha b hb heq => by
      rw [List.mem_singleton.mp hb] at heq
      exact hnew (heq ▸ ha)⟩
  plain pl hpl := by
    obtain hpl | hpl := List.mem_append.mp hpl
    · rw [plNew_other (h.below pl hpl)]
      exact h.plain pl hpl
    · rw [List.mem_singleton.mp hpl, plNew_name]
      exact hplain

theorem Shown.plNew (h : Shown s) {name : Text} (hnew : name ∉ s.plHead.map s.name)
    (hplain : slash ∉ name) : Shown (s.plNew name) where
  toNamed := h.toNamed.plNew hnew hplain
  visible := List.mem_append_left _ h.visible

/-! ### Where names come from -/

theorem plCheckNewPlName_spec {name : Text} (h : s.plCheckNewPlName name = true) :
    name ∉ s.plHead.map s.name ∧ slash ∉ name := by
  simp only [Playlists.plCheckNewPlName, Bool.and_eq_true, decide_eq_true_eq,
    Bool.not_eq_true'] at h
  refine ⟨fun hmem => ?_, h.1⟩
  rw [plNameExists_iff name |>.mpr hmem] at h
  exact absurd h.2 (by decide)

theorem getFilename_plain {path file : Text} (h : getFilename path = some file) : slash ∉ file := by
  rw [getFilename] at h
  split at h
  · rename_i hnone
    split at h
    · cases h
    · cases h
      exact notMem_of_splitSlash hnone
  · rename_i hsplit
    split at h
    · cases h
    · cases h
      exact splitSlash_behind hsplit

theorem decimal_plain (n : Nat) : slash ∉ decimal n := fun h =>
  absurd (decimal_digits h) (by decide)

/-- The loop ends with a name that no playlist has. -/
theorem plCreateNameLoop_spec {file : Text} (hfile : slash ∉ file) (rounds : Nat)
    {name result : Text} (hname : slash ∉ name)
    (h : s.plCreateNameLoop file rounds name = some result) :
    result ∉ s.plHead.map s.name ∧ slash ∉ result := by
  have hfound {name result : Text} (hname : slash ∉ name) (hexists : ¬ s.plNameExists name = true)
      (heq : some name = some result) : result ∉ s.plHead.map s.name ∧ slash ∉ result := by
    cases heq
    exact ⟨fun hmem => hexists ((plNameExists_iff name).mpr hmem), hname⟩
  induction rounds generalizing name with
  | zero =>
    rw [Playlists.plCreateNameLoop] at h
    split at h
    · cases h
    · rename_i hexists
      exact hfound hname hexists h
  | succ rounds ih =>
    rw [Playlists.plCreateNameLoop] at h
    split at h
    · refine ih (fun hmem => ?_) h
      obtain hmem | hmem := List.mem_append.mp hmem
      · exact hfile hmem
      obtain hdot | hmem := List.mem_cons.mp hmem
      · exact absurd hdot (by decide)
      · exact decimal_plain _ hmem
    · rename_i hexists
      exact hfound hname hexists h

/-! ### One operation -/

theorem Shown.plCreate (h : Shown s) (name : Text) : Shown (s.plCreate name) := by
  unfold Playlists.plCreate
  split
  · rename_i hcheck
    obtain ⟨hnew, hplain⟩ := plCheckNewPlName_spec hcheck
    exact h.plNew hnew hplain
  · exact h

theorem Shown.plImport (h : Shown s) (path : Text) : Shown (s.plImport path) := by
  unfold Playlists.plImport
  split
  · exact h
  · rename_i file hfile
    have hplain := getFilename_plain hfile
    split
    · exact h
    · rename_i name hname
      obtain ⟨hnew, hname⟩ := plCreateNameLoop_spec hplain 99 hplain hname
      exact h.plNew hnew hname

/-- What changes neither the list nor the names. -/
theorem Shown.of_names {s' : Playlists} (h : Shown s) (hhead : s'.plHead = s.plHead)
    (hname : ∀ pl, s'.name pl = s.name pl) (hallocated : s'.allocated = s.allocated)
    (hvisible : s'.visible ∈ s'.plHead) : Shown s' where
  below := by
    rw [hhead, hallocated]
    exact h.below
  distinct := by
    rw [hhead, funext hname]
    exact h.distinct
  plain := by
    rw [hhead]
    intro pl hpl
    rw [hname]
    exact h.plain pl hpl
  visible := hvisible

/-- The names after one of them is changed. -/
def renamed (s : Playlists) (pl : Nat) (name : Text) (dir : Directory) : Playlists :=
  {s with dir, playlist := Function.update s.playlist pl {s.playlist pl with name}}

theorem renamed_self (pl : Nat) (name : Text) (dir : Directory) :
    (renamed s pl name dir).name pl = name := by
  simp [renamed, Playlists.name]

theorem renamed_other {pl other : Nat} (h : other ≠ pl) (name : Text) (dir : Directory) :
    (renamed s pl name dir).name other = s.name other := by
  simp [renamed, Playlists.name, h]

theorem Shown.renamed (h : Shown s) (pl : Nat) {name : Text} (hnew : name ∉ s.plHead.map s.name)
    (hplain : slash ∉ name) (dir : Directory) : Shown (renamed s pl name dir) where
  below := h.below
  distinct := by
    refine List.Nodup.map_on (fun a ha b hb heq => ?_) h.pointers
    have hfree (c : Nat) (hc : c ∈ s.plHead) : s.name c ≠ name := fun heq =>
      hnew (List.mem_map.mpr ⟨c, hc, heq⟩)
    by_cases hapl : a = pl
    · by_cases hbpl : b = pl
      · rw [hapl, hbpl]
      · rw [hapl, renamed_self, renamed_other hbpl] at heq
        exact absurd heq.symm (hfree b hb)
    · by_cases hbpl : b = pl
      · rw [hbpl, renamed_self, renamed_other hapl] at heq
        exact absurd heq (hfree a ha)
      · rw [renamed_other hapl, renamed_other hbpl] at heq
        exact h.inj ha hb heq
  plain a ha := by
    by_cases hapl : a = pl
    · rw [hapl, renamed_self]
      exact hplain
    · rw [renamed_other hapl]
      exact h.plain a ha
  visible := h.visible

theorem Shown.plRenameSelectedPl (h : Shown s) (name : Text) (ok : Bool) :
    Shown (s.plRenameSelectedPl name ok) := by
  unfold Playlists.plRenameSelectedPl
  split
  · exact h
  split
  · rename_i hcheck
    obtain ⟨hnew, hplain⟩ := plCheckNewPlName_spec hcheck
    exact h.renamed s.visible hnew hplain _
  · exact h

theorem Shown.plDeleteSelectedPl (h : Shown s) (answer ok : Bool) :
    Shown (s.plDeleteSelectedPl answer ok) := by
  unfold Playlists.plDeleteSelectedPl
  split
  · exact h
  · rename_i next hnext
    split
    · have hsub : (s.plHead.erase s.visible).Sublist s.plHead := List.erase_sublist
      exact {
        below := fun pl hpl => h.below pl (hsub.subset hpl)
        distinct := h.distinct.sublist (hsub.map s.name)
        plain := fun pl hpl => h.plain pl (hsub.subset hpl)
        visible := Sequence.mem_of_neighbour h.pointers h.visible hnext }
    · exact h

/-- All of the playlist is written. -/
def Written (s : Playlists) (pl : Nat) (written : Option Nat) : Prop :=
  ∃ n, written = some n ∧ (savePlaylist (s.playlist pl).filenames).length ≤ n

/-- What is in the file that the playlist is saved to. -/
def Saved (s : Playlists) (dir : Directory) (pl : Nat) : Prop :=
  dir (s.name pl) = some (.regular (savePlaylist (s.playlist pl).filenames))

/-- Saving changes the files of these playlists only. -/
theorem foldl_plSaveOne (pls : List Nat) (written : Nat → Option Nat) :
    ∃ dir, pls.foldl (fun s pl => s.plSaveOne pl (written pl)) s = {s with dir} ∧
      ∀ other ∉ pls.map s.name, dir other = s.dir other := by
  induction pls generalizing s with
  | nil => exact ⟨s.dir, rfl, fun _ _ => rfl⟩
  | cons pl pls ih =>
    obtain ⟨dir, hdir, hother⟩ := @ih (s.plSaveOne pl (written pl))
    refine ⟨dir, hdir, fun other hmem => ?_⟩
    rw [hother other fun h => hmem (List.mem_cons_of_mem _ h)]
    exact save_other (fun h : other = s.name pl => hmem (h ▸ List.mem_cons_self)) _ _

theorem foldl_plSaveOne_saved {pls : List Nat} (hpls : (pls.map s.name).Nodup)
    (written : Nat → Option Nat) : ∀ pl ∈ pls, Written s pl (written pl) →
      Writable s.dir (s.name pl) →
      Saved s (pls.foldl (fun s pl => s.plSaveOne pl (written pl)) s).dir pl := by
  induction pls generalizing s with
  | nil => exact nofun
  | cons first pls ih =>
    intro pl hpl hwritten hwritable
    obtain ⟨hfirst, hrest⟩ := List.nodup_cons.mp hpls
    obtain rfl | hpl := List.mem_cons.mp hpl
    · obtain ⟨dir, hdir, hother⟩ := foldl_plSaveOne (s := s.plSaveOne pl (written pl)) pls written
      obtain ⟨n, hn, hlength⟩ := hwritten
      rw [List.foldl_cons, hdir, Saved]
      dsimp only
      rw [hother _ hfirst, hn]
      exact save_self hwritable hlength
    · have hne : s.name pl ≠ s.name first := fun heq =>
        hfirst (heq ▸ List.mem_map_of_mem hpl)
      have hdir : (s.plSaveOne first (written first)).dir (s.name pl) = s.dir (s.name pl) :=
        save_other hne _ _
      exact @ih (s.plSaveOne first (written first)) hrest pl hpl hwritten
        ⟨hwritable.1, (congrArg isOther hdir).trans hwritable.2⟩

theorem step_shown (h : Shown s) (op : Op) : Shown (step s op) := by
  cases op with
  | create name => exact h.plCreate name
  | importFile path => exact h.plImport path
  | rename name ok => exact h.plRenameSelectedPl name ok
  | delete answer ok => exact h.plDeleteSelectedPl answer ok
  | save written =>
    obtain ⟨dir, hdir, -⟩ := foldl_plSaveOne (s := s) s.plHead written
    rw [step, Playlists.plSaveAll, hdir]
    exact h.of_names rfl (fun _ => rfl) rfl h.visible
  | select pl =>
    rw [step]
    split
    · rename_i hpl
      exact h.of_names rfl (fun _ => rfl) rfl hpl
    · exact h
  | setTracks pl filenames =>
    refine h.of_names rfl (fun other => ?_) rfl h.visible
    by_cases hother : other = pl
    · simp [step, Playlists.name, hother]
    · simp [step, Playlists.name, hother]
  | outside dir => exact h.of_names rfl (fun _ => rfl) rfl h.visible

theorem run_shown (h : Shown s) (ops : List Op) : Shown (run s ops) := by
  induction ops generalizing s with
  | nil => exact h
  | cons op ops ih => exact ih (step_shown h op)

/-! ### The start -/

theorem foldl_plNew {names : List Text} (h : Named s)
    (hnodup : (s.plHead.map s.name ++ names).Nodup) (hplain : ∀ name ∈ names, slash ∉ name) :
    Named (names.foldl Playlists.plNew s) := by
  induction names generalizing s with
  | nil => exact h
  | cons name names ih =>
    have hnew : name ∉ s.plHead.map s.name := fun hmem =>
      (List.nodup_append.mp hnodup).2.2 name hmem name List.mem_cons_self rfl
    refine ih (h.plNew hnew (hplain name List.mem_cons_self)) ?_
      fun other hother => hplain other (List.mem_cons_of_mem _ hother)
    rwa [h.plNew_names, List.append_assoc, List.singleton_append]

theorem plLoadAll_named (listing : Listing) (dir : Directory) : Named (plLoadAll listing dir) := by
  have hempty : Named ⟨[], fun _ => ⟨[], []⟩, 0, 0, dir⟩ := ⟨nofun, List.nodup_nil, nofun⟩
  refine foldl_plNew hempty ?_ fun name hname => listing.plain name (List.mem_of_mem_filter hname)
  exact listing.nodup.filter _

theorem Named.plSortAll (h : Named s) (hne : s.plHead ≠ []) : Shown s.plSortAll := by
  have hperm : s.plSortAll.plHead.Perm s.plHead := List.mergeSort_perm _ _
  exact {
    below := fun pl hpl => h.below pl (hperm.subset hpl)
    distinct := (hperm.map s.name).nodup_iff.mpr h.distinct
    plain := fun pl hpl => h.plain pl (hperm.subset hpl)
    visible := by
      have hvisible : s.plSortAll.visible = s.plSortAll.plHead.head?.getD 0 := rfl
      rw [hvisible]
      cases hhead : s.plSortAll.plHead with
      | nil =>
        rw [hhead] at hperm
        exact absurd hperm.symm.eq_nil hne
      | cons first rest => exact List.mem_cons_self }

theorem plInit_shown (listing : Listing) (dir : Directory) : Shown (plInit listing dir) := by
  have hloaded := plLoadAll_named listing dir
  unfold plInit
  split
  · rename_i hempty
    have hnew : ascii "default" ∉
        (plLoadAll listing dir).plHead.map (plLoadAll listing dir).name := by
      rw [hempty]
      exact List.not_mem_nil
    have hdefault : Named (plLoadAll listing dir).plCreateDefault := hloaded.plNew hnew (by decide)
    exact hdefault.plSortAll (List.append_ne_nil_of_right_ne_nil _ (List.cons_ne_nil _ _))
  · rename_i hne
    exact hloaded.plSortAll hne

/-! ### Files -/

def plNameToPlFile (playlistDir name : Text) : Text := playlistDir ++ slash :: name

/-- Each playlist has a file of its own. -/
structure OwnFiles (s : Playlists) : Prop where
  path (playlistDir : Text) : ∀ pl ∈ s.plHead, ∀ other ∈ s.plHead,
    plNameToPlFile playlistDir (s.name pl) = plNameToPlFile playlistDir (s.name other) → pl = other
  save (pl : Nat) (written : Option Nat) : pl ∈ s.plHead → ∀ other ∈ s.plHead, other ≠ pl →
    (s.plSaveOne pl written).dir (s.name other) = s.dir (s.name other)
  rename (name : Text) (ok : Bool) : ∀ other ∈ s.plHead, other ≠ s.visible →
    (s.plRenameSelectedPl name ok).dir (s.name other) = s.dir (s.name other)
  delete (answer ok : Bool) : ∀ other ∈ s.plHead, other ≠ s.visible →
    (s.plDeleteSelectedPl answer ok).dir (s.name other) = s.dir (s.name other)
  saved (written : Nat → Option Nat) : ∀ pl ∈ s.plHead, Written s pl (written pl) →
    Writable s.dir (s.name pl) → Saved s (s.plSaveAll written).dir pl

theorem Shown.ownFiles (h : Shown s) : OwnFiles s where
  path playlistDir pl hpl other hother heq :=
    h.inj hpl hother (List.cons.inj (List.append_cancel_left heq)).2
  save pl written hpl other hother hne :=
    save_other (fun heq => hne (h.inj hother hpl heq)) _ _
  rename name ok other hother hne := by
    unfold Playlists.plRenameSelectedPl
    split
    · rfl
    split
    · rename_i hcheck
      have hnew := (plCheckNewPlName_spec hcheck).1
      refine rename_other (fun heq => hne (h.inj hother h.visible heq)) (fun heq => ?_) ok
      exact hnew (List.mem_map.mpr ⟨other, hother, heq⟩)
    · rfl
  delete answer ok other hother hne := by
    unfold Playlists.plDeleteSelectedPl
    split
    · rfl
    split
    · exact unlink_other (fun heq => hne (h.inj hother h.visible heq)) ok
    · rfl
  saved written := foldl_plSaveOne_saved h.distinct written

/-- **The names of the playlists** differ at any time and have no slash, whatever the names are
and whatever the calls on files come to: each playlist has a file of its own. -/
theorem names_own_files (listing : Listing) (dir : Directory) (ops : List Op) :
    ((run (plInit listing dir) ops).plHead.map (run (plInit listing dir) ops).name).Nodup ∧
    (∀ pl ∈ (run (plInit listing dir) ops).plHead, slash ∉ (run (plInit listing dir) ops).name pl) ∧
    OwnFiles (run (plInit listing dir) ops) := by
  have h := run_shown (plInit_shown listing dir) ops
  exact ⟨h.distinct, h.plain, h.ownFiles⟩

end GracefulMusic.PlaylistNames
