import GracefulMusic.Text
import Mathlib.Data.List.Sort

/-! The table of input plugins and the choice of one for a file (`interface.h`, `input.c`).

`O` is the type of ops tables, told apart by their addresses; what `Open` answers for a
file is given. A hash table holds one value for a key, and inserting puts the new value
in its place, so the index knows the last plugin registered for an extension. The loop
that opens a file asks the index again when a plugin does not support the file. -/
namespace GracefulMusic.Input

def inputErrorErrno : Int := 1

def inputErrorUnrecognizedFileType : Int := 2

def inputErrorUnsupportedFileType : Int := 3

/-- The name behind the last dot of the last component. -/
def getExtension (filename : Text) : Option Text :=
  let back := filename.reverse.dropWhile fun c => c ≠ ch '/' ∧ c ≠ ch '.'
  if back.head? = some (ch '.') then
    some (filename.reverse.takeWhile fun c => c ≠ ch '/' ∧ c ≠ ch '.').reverse
  else none

example : getExtension (ascii "/music/a.tar.gz") = some (ascii "gz") := by decide

example : getExtension (ascii "/music.d/a") = none := by decide

variable {O : Type}

structure InputPlugin (O : Type) where
  name : Text
  priority : Int
  extensions : List Text
  ops : Option O

/-- `gInputPlugins`, with what `g_hash_table_lookup` finds in the index. -/
structure InputPlugins (O : Type) where
  plugins : List (InputPlugin O)
  pluginExtIndex : Text → Option (InputPlugin O)

/-- `REGISTER_INPUT_PLUGIN`, after the plugin has filled in its own fields. -/
def InputPlugins.register (g : InputPlugins O) (ip : InputPlugin O) : InputPlugins O :=
  if ip.ops.isNone then g
  else
    { plugins := g.plugins ++ [ip]
      pluginExtIndex := ip.extensions.foldl (fun index ext => Function.update index ext (some ip))
        g.pluginExtIndex }

/-- `input_plugin_register`, whatever the plugins. -/
def inputPluginRegister (table : List (InputPlugin O)) : InputPlugins O :=
  table.foldl InputPlugins.register ⟨[], fun _ => none⟩

def InputPlugins.getOpsByExtension (g : InputPlugins O) (ext : Text) : Option O :=
  (g.pluginExtIndex ext).bind (·.ops)

structure File where
  fileName : Text
  /-- What `open` gives to read, if it succeeds. -/
  contents : Option Text

section
variable (Open : O → File → Int)

/-- The loop of `open_file_locked`: the tables whose `Open` was called, and the result. -/
def openLoop (g : InputPlugins O) (ext : Text) (file : File) :
    Nat → O → Option (List O × Int)
  | 0, _ => none
  | fuel + 1, ops =>
    let rc := Open ops file
    if rc ≠ -inputErrorUnsupportedFileType then some ([ops], rc)
    else
      match g.getOpsByExtension ext with
      | some next => (openLoop g ext file fuel next).map fun (calls, rc) => (ops :: calls, rc)
      | none => some ([ops], rc)

def openFileLocked (g : InputPlugins O) (file : File) (fuel : Nat) : Option (List O × Int) :=
  match getExtension file.fileName with
  | none => some ([], -inputErrorUnrecognizedFileType)
  | some ext =>
    match g.getOpsByExtension ext with
    | none => some ([], -inputErrorUnrecognizedFileType)
    | some ops =>
      if file.contents.isNone then some ([], -inputErrorErrno)
      else openLoop Open g ext file fuel ops

end

/-! ### What a fallback is -/

def sortIp (a b : InputPlugin O) : Int := b.priority - a.priority

/-- The plugins registered for an extension. -/
def InputPlugins.candidates (g : InputPlugins O) (ext : Text) : List (InputPlugin O) :=
  g.plugins.filter (ext ∈ ·.extensions)

/-- Each table once, up to the first that supports the file. -/
def fallback (Open : O → File → Int) (file : File) : List O → List O × Int
  | [] => ([], -inputErrorUnsupportedFileType)
  | ops :: rest =>
    if Open ops file ≠ -inputErrorUnsupportedFileType then ([ops], Open ops file)
    else (ops :: (fallback Open file rest).1, (fallback Open file rest).2)

/-- Opening the file ends, as a fallback through the plugins in descending priority. -/
def FallsBack (Open : O → File → Int) (g : InputPlugins O) (ext : Text) (file : File) : Prop :=
  ∃ fuel, ∃ order : List (InputPlugin O), order.Perm (g.candidates ext) ∧
    order.Pairwise (fun a b => sortIp a b ≤ 0) ∧
    openFileLocked Open g file fuel = some (fallback Open file (order.filterMap (·.ops)))

/-! ### The index -/

theorem updates_eq (ip : InputPlugin O) (ext : Text) (extensions : List Text)
    (index : Text → Option (InputPlugin O)) :
    extensions.foldl (fun index ext => Function.update index ext (some ip)) index ext =
      if ext ∈ extensions then some ip else index ext := by
  induction extensions generalizing index with
  | nil => rfl
  | cons e rest ih =>
    rw [List.foldl_cons, ih]
    by_cases he : ext = e
    · simp [he]
    · simp [he]

/-- What registering keeps true of the tables. -/
structure InputPlugins.Registered (g : InputPlugins O) : Prop where
  ops : ∀ ip ∈ g.plugins, ip.ops.isSome
  index : ∀ ext, g.pluginExtIndex ext = (g.candidates ext).getLast?

theorem InputPlugins.Registered.register {g : InputPlugins O} (h : g.Registered)
    (ip : InputPlugin O) : (g.register ip).Registered := by
  unfold InputPlugins.register
  cases hops : ip.ops with
  | none => exact h
  | some ops =>
    refine ⟨fun p hp => ?_, fun ext => ?_⟩
    · rcases List.mem_append.mp hp with hp | hp
      · exact h.ops p hp
      · rw [List.mem_singleton.mp hp, hops]
        rfl
    · show List.foldl _ g.pluginExtIndex ip.extensions ext =
        ((g.plugins ++ [ip]).filter (ext ∈ ·.extensions)).getLast?
      rw [updates_eq, List.filter_append, List.filter_singleton]
      by_cases hext : ext ∈ ip.extensions
      · simp [hext]
      · rw [if_neg hext, decide_eq_false hext]
        exact (h.index ext).trans (by rw [InputPlugins.candidates]; simp)

theorem registered (table : List (InputPlugin O)) : (inputPluginRegister table).Registered := by
  unfold inputPluginRegister
  have hnone : (⟨[], fun _ => none⟩ : InputPlugins O).Registered := ⟨nofun, fun _ => rfl⟩
  generalize (⟨[], fun _ => none⟩ : InputPlugins O) = g at hnone
  induction table generalizing g with
  | nil => exact hnone
  | cons ip rest ih => exact ih _ (hnone.register ip)

/-! ### The loop -/

variable {Open : O → File → Int}

/-- Asking the index again finds the same table, so the loop ends with its first call or
never. -/
theorem openLoop_eq_some_iff {g : InputPlugins O} {ext : Text} {file : File} {ops : O}
    (hops : g.getOpsByExtension ext = some ops) (outcome : List O × Int) :
    (∃ fuel, openLoop Open g ext file fuel ops = some outcome) ↔
      Open ops file ≠ -inputErrorUnsupportedFileType ∧ outcome = ([ops], Open ops file) := by
  constructor
  · intro h
    obtain ⟨fuel, hrun⟩ := h
    by_cases hrc : Open ops file = -inputErrorUnsupportedFileType
    · exfalso
      induction fuel generalizing outcome with
      | zero => cases hrun
      | succ fuel ih =>
        rw [openLoop, if_neg (not_not.mpr hrc), hops] at hrun
        obtain ⟨rest, hrest, -⟩ := Option.map_eq_some_iff.mp hrun
        exact ih rest hrest
    · cases fuel with
      | zero => cases hrun
      | succ fuel =>
        rw [openLoop, if_pos hrc] at hrun
        exact ⟨hrc, (Option.some.inj hrun).symm⟩
  · intro h
    obtain ⟨hrc, rfl⟩ := h
    exact ⟨1, if_pos hrc⟩

/-- A fallback that calls one table only. -/
theorem fallback_eq_single {file : File} {ops : O} {order : List O}
    (h : fallback Open file order = ([ops], Open ops file)) : order.head? = some ops := by
  cases order with
  | nil => cases h
  | cons o rest =>
    rw [fallback] at h
    split at h
    · rw [List.head?_cons, (List.cons.inj (Prod.mk.inj h).1).1]
    · rw [List.head?_cons, (List.cons.inj (Prod.mk.inj h).1).1]

theorem open_file_falls_back (table : List (InputPlugin O)) (file : File) (ext : Text)
    (hext : getExtension file.fileName = some ext)
    (hcandidates : (inputPluginRegister table).candidates ext ≠ [])
    (hfile : file.contents.isSome) :
    FallsBack Open (inputPluginRegister table) ext file ↔
      ∃ ops, (inputPluginRegister table).getOpsByExtension ext = some ops ∧
        Open ops file ≠ -inputErrorUnsupportedFileType ∧
        ∃ top ∈ (inputPluginRegister table).candidates ext, top.ops = some ops ∧
          ∀ ip ∈ (inputPluginRegister table).candidates ext, ip.priority ≤ top.priority := by
  have hreg := registered table
  generalize inputPluginRegister table = g at hreg hcandidates
  obtain ⟨last, hlast⟩ := Option.isSome_iff_exists.mp (List.getLast?_isSome.mpr hcandidates)
  have hsome : ∀ ip ∈ g.candidates ext, ip.ops.isSome := fun ip hip =>
    hreg.ops ip (List.mem_of_mem_filter hip)
  obtain ⟨ops, hlastOps⟩ := Option.isSome_iff_exists.mp (hsome last (List.mem_of_getLast? hlast))
  have hops : g.getOpsByExtension ext = some ops := by
    rw [InputPlugins.getOpsByExtension, hreg.index, hlast]
    exact hlastOps
  have hopen : ∀ fuel, openFileLocked Open g file fuel = openLoop Open g ext file fuel ops := by
    intro fuel
    simp only [openFileLocked, hext, hops]
    rw [if_neg]
    simpa [Option.isSome_iff_ne_none] using hfile
  unfold FallsBack
  simp only [hopen]
  constructor
  · intro h
    obtain ⟨fuel, order, hperm, hsorted, hrun⟩ := h
    obtain ⟨hrc, hcalls⟩ := (openLoop_eq_some_iff hops _).mp ⟨fuel, hrun⟩
    have hhead := fallback_eq_single hcalls
    refine ⟨ops, hops, hrc, ?_⟩
    cases order with
    | nil => cases hhead
    | cons top rest =>
      obtain ⟨o, ho⟩ := Option.isSome_iff_exists.mp (hsome top (hperm.subset (.head _)))
      rw [List.filterMap_cons_some ho] at hhead
      refine ⟨top, hperm.subset (.head _), ho.trans hhead, fun ip hip => ?_⟩
      rcases List.mem_cons.mp (hperm.symm.subset hip) with rfl | hip
      · exact Int.le_refl _
      · have hle := List.rel_of_pairwise_cons hsorted hip
        unfold sortIp at hle
        omega
  · intro h
    obtain ⟨o, ho, hrc, top, htop, htopOps, hmax⟩ := h
    obtain rfl := Option.some.inj (hops.symm.trans ho)
    obtain ⟨front, back, hsplit⟩ := List.append_of_mem htop
    -- the plugin in front, and the others sorted
    let le : InputPlugin O → InputPlugin O → Bool := fun a b => sortIp a b ≤ 0
    have htrans : ∀ a b c, le a b = true → le b c = true → le a c = true := by
      intro a b c hab hbc
      have hab := of_decide_eq_true hab
      have hbc := of_decide_eq_true hbc
      unfold sortIp at hab hbc
      exact decide_eq_true (by unfold sortIp; omega)
    have htotal : ∀ a b, (le a b || le b a) = true := by
      intro a b
      rcases Int.le_total a.priority b.priority with h | h
      · exact Bool.or_eq_true_iff.mpr (.inr (decide_eq_true (by unfold sortIp; omega)))
      · exact Bool.or_eq_true_iff.mpr (.inl (decide_eq_true (by unfold sortIp; omega)))
    have hsorted : ((front ++ back).mergeSort le).Pairwise fun a b => sortIp a b ≤ 0 :=
      (List.pairwise_mergeSort htrans htotal (front ++ back)).imp fun h => of_decide_eq_true h
    have hperm : (top :: (front ++ back).mergeSort le).Perm (g.candidates ext) := by
      rw [hsplit]
      exact (List.Perm.cons _ (List.mergeSort_perm _ _)).trans List.perm_middle.symm
    obtain ⟨fuel, hrun⟩ := (openLoop_eq_some_iff hops _).mpr ⟨hrc, rfl⟩
    refine ⟨fuel, top :: (front ++ back).mergeSort le, hperm, ?_, ?_⟩
    · refine List.pairwise_cons.mpr ⟨fun ip hip => ?_, hsorted⟩
      have hle := hmax ip (hperm.subset (.tail _ hip))
      unfold sortIp
      omega
    · rw [hrun, List.filterMap_cons_some htopOps, fallback, if_pos hrc]

/-- Two plugins for an extension, the one with the lower priority registered last. -/
def twoDecoders : List (InputPlugin Bool) :=
  [{ name := ascii "flac", priority := 50, extensions := [ascii "flac"], ops := some true },
    { name := ascii "ffmpeg", priority := 30, extensions := [ascii "mp3", ascii "flac"],
      ops := some false }]

theorem open_file_falls_back_mp3 :
    FallsBack (fun _ _ => 0) (inputPluginRegister twoDecoders) (ascii "mp3")
      ⟨ascii "a.mp3", some []⟩ :=
  (open_file_falls_back twoDecoders ⟨ascii "a.mp3", some []⟩ (ascii "mp3") (by decide)
    (by decide) rfl).mpr ⟨false, rfl, by decide, _, List.mem_singleton.mpr rfl, rfl,
      fun ip hip => by rw [List.mem_singleton.mp hip]⟩

/-- `ffmpeg` finds no codec, and is asked again. -/
theorem open_file_without_fallback :
    ¬FallsBack (fun ops _ => if ops then 0 else -inputErrorUnsupportedFileType)
      (inputPluginRegister twoDecoders) (ascii "mp3") ⟨ascii "a.mp3", some []⟩ := by
  intro h
  obtain ⟨fuel, order, -, -, hrun⟩ := h
  have hnever : ∀ fuel, openLoop (fun ops _ => if ops then 0 else -inputErrorUnsupportedFileType)
      (inputPluginRegister twoDecoders) (ascii "mp3") ⟨ascii "a.mp3", some []⟩ fuel false =
        none := by
    intro fuel
    induction fuel with
    | zero => rfl
    | succ fuel ih => exact congrArg (Option.map _) ih
  exact absurd (hrun.symm.trans (hnever fuel)) (Option.some_ne_none _)

end GracefulMusic.Input
