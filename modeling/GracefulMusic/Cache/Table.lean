import GracefulMusic.Library.Views

/-! The hash table of the cache (`cache.c`).

Chains of entries by the hash of their filenames, and how many there are. An entry goes in
front of its chain whether or not there is one of its name, and is taken out of it as the
object that it is. -/
namespace GracefulMusic.Cache

@[irreducible] def hashSize : Nat := 1023

theorem hashSize_pos : 0 < hashSize := by
  rw [hashSize]
  decide

structure Table (α : Type*) where
  chains : Nat → List α
  total : Nat

namespace Table
variable {α : Type*}

def empty : Table α := ⟨fun _ => [], 0⟩

def place (filename : Text) : Nat := (Lib.hashStr filename).toNat % hashSize

theorem place_lt (filename : Text) : place filename < hashSize := Nat.mod_lt _ hashSize_pos

/-- `add_ti`. -/
def addTi (filename : α → Text) (t : Table α) (ti : α) : Table α where
  chains := Function.update t.chains (place (filename ti)) (ti :: t.chains (place (filename ti)))
  total := t.total + 1

/-- The chains one after the other. -/
def entries (t : Table α) : List α := (List.range hashSize).flatMap t.chains

/-- What one chain changes in, all chains one after the other do. -/
theorem flatMap_range_update (f : Nat → List α) (chain : List α) {n i : Nat} (hi : i < n) :
    ∃ a b, (List.range n).flatMap f = a ++ f i ++ b ∧
      (List.range n).flatMap (Function.update f i chain) = a ++ chain ++ b := by
  induction n with
  | zero => exact absurd hi (Nat.not_lt_zero i)
  | succ n ih =>
    rw [List.range_succ, List.flatMap_append, List.flatMap_append, List.flatMap_singleton,
      List.flatMap_singleton]
    rcases Nat.lt_succ_iff_lt_or_eq.mp hi with hi | rfl
    · obtain ⟨a, b, hf, hu⟩ := ih hi
      refine ⟨a, b ++ f n, ?_, ?_⟩
      · rw [hf, List.append_assoc]
      · rw [hu, Function.update_of_ne hi.ne', List.append_assoc]
    · refine ⟨(List.range i).flatMap f, [], (List.append_nil _).symm, ?_⟩
      rw [Function.update_self, List.append_nil]
      refine congrArg (· ++ chain) (List.flatMap_congr fun j hj => ?_)
      exact Function.update_of_ne (List.mem_range.mp hj).ne _ _

theorem entries_addTi (filename : α → Text) (t : Table α) (ti : α) :
    (t.addTi filename ti).entries.Perm (ti :: t.entries) := by
  obtain ⟨a, b, ht, ht'⟩ := flatMap_range_update t.chains
    (ti :: t.chains (place (filename ti))) (place_lt (filename ti))
  have hentries : t.entries = a ++ t.chains (place (filename ti)) ++ b := by rw [entries, ht]
  have hadd : (t.addTi filename ti).entries =
      a ++ ti :: t.chains (place (filename ti)) ++ b := by rw [entries, addTi, ht']
  rw [hadd, hentries, List.append_assoc, List.append_assoc]
  exact List.perm_middle

/-- The entries in the order of their filenames. -/
def sorted (filename : α → Text) (t : Table α) : List α :=
  t.entries.mergeSort fun a b => strcmp (filename a) (filename b) ≤ 0

theorem sorted_perm (filename : α → Text) (t : Table α) : (t.sorted filename).Perm t.entries :=
  List.mergeSort_perm ..

theorem chains_addTi (filename : α → Text) (t : Table α) (ti : α) (i : Nat) :
    (t.addTi filename ti).chains i =
      if i = place (filename ti) then ti :: t.chains (place (filename ti)) else t.chains i :=
  Function.update_apply ..

theorem entries_empty : (empty : Table α).entries = [] := List.flatMap_eq_nil_iff.mpr fun _ _ => rfl

/-! ### Sound tables -/

/-- Each entry in its chain, and all of them counted. -/
structure Sound (filename : α → Text) (t : Table α) : Prop where
  placed : ∀ i, ∀ ti ∈ t.chains i, place (filename ti) = i
  counted : t.total = t.entries.length

variable {filename : α → Text} {t : Table α} {ti : α}

theorem Sound.mem_chain_iff (h : t.Sound filename) :
    ti ∈ t.chains (place (filename ti)) ↔ ti ∈ t.entries := by
  rw [entries, List.mem_flatMap]
  constructor
  · intro hti
    exact ⟨_, List.mem_range.mpr (place_lt _), hti⟩
  · intro h
    obtain ⟨i, -, hti⟩ := h
    rwa [h.placed i ti hti]

theorem Sound.empty : (empty : Table α).Sound filename := ⟨nofun, by rw [entries_empty]; rfl⟩

theorem Sound.addTi (h : t.Sound filename) (ti : α) : (t.addTi filename ti).Sound filename := by
  refine ⟨fun i u hu => ?_, ?_⟩
  · rw [chains_addTi] at hu
    split at hu
    · rename_i hi
      rcases List.mem_cons.mp hu with rfl | hu
      · exact hi.symm
      · exact hi ▸ h.placed _ u hu
    · exact h.placed i u hu
  · rw [(entries_addTi filename t ti).length_eq, List.length_cons, ← h.counted]
    rfl

/-- `lookup_cache_entry`. -/
def lookup (filename : α → Text) (t : Table α) (name : Text) : Option α :=
  (t.chains (place name)).find? fun ti => filename ti = name

theorem lookup_some {name : Text} (h : t.lookup filename name = some ti) :
    filename ti = name ∧ ti ∈ t.chains (place (filename ti)) := by
  have hname : filename ti = name := by simpa using List.find?_some h
  exact ⟨hname, hname.symm ▸ List.mem_of_find?_eq_some h⟩

theorem Sound.lookup_none (hsound : t.Sound filename) {name : Text}
    (h : t.lookup filename name = none) (hti : ti ∈ t.entries) : filename ti ≠ name := by
  intro heq
  subst heq
  have hne := List.find?_eq_none.mp h ti (hsound.mem_chain_iff.mpr hti)
  simp at hne

/-! ### Removal -/

section
variable [DecidableEq α]

/-- `do_cache_remove_ti`: nothing where the object is not in its chain. -/
def removeTi (filename : α → Text) (t : Table α) (ti : α) : Table α :=
  if ti ∈ t.chains (place (filename ti)) then
    { chains := Function.update t.chains (place (filename ti))
        ((t.chains (place (filename ti))).erase ti)
      total := t.total - 1 }
  else t

theorem entries_perm_removeTi (hti : ti ∈ t.chains (place (filename ti))) :
    t.entries.Perm (ti :: (t.removeTi filename ti).entries) := by
  obtain ⟨a, b, ht, ht'⟩ := flatMap_range_update t.chains
    ((t.chains (place (filename ti))).erase ti) (place_lt (filename ti))
  have hentries : t.entries = a ++ t.chains (place (filename ti)) ++ b := by rw [entries, ht]
  have hremove : (t.removeTi filename ti).entries =
      a ++ (t.chains (place (filename ti))).erase ti ++ b := by
    rw [entries, removeTi, if_pos hti, ht']
  rw [hentries, hremove, List.append_assoc, List.append_assoc]
  refine .trans ?_ List.perm_middle
  exact ((List.perm_cons_erase hti).append_right b).append_left a

theorem Sound.entries_removeTi (h : t.Sound filename) (ti : α) :
    (t.removeTi filename ti).entries.Perm (t.entries.erase ti) := by
  by_cases hti : ti ∈ t.chains (place (filename ti))
  · have hperm := (entries_perm_removeTi hti).erase ti
    rw [List.erase_cons_head] at hperm
    exact hperm.symm
  · rw [removeTi, if_neg hti, List.erase_of_not_mem fun hmem => hti (h.mem_chain_iff.mpr hmem)]

theorem mem_chains_of_removeTi {i : Nat} {u : α} (hu : u ∈ (t.removeTi filename ti).chains i) :
    u ∈ t.chains i := by
  unfold removeTi at hu
  split at hu
  · dsimp only at hu
    rw [Function.update_apply] at hu
    split at hu
    · rename_i hi
      exact hi ▸ List.mem_of_mem_erase hu
    · exact hu
  · exact hu

theorem Sound.removeTi (h : t.Sound filename) (ti : α) :
    (t.removeTi filename ti).Sound filename := by
  refine ⟨fun i u hu => h.placed i u (mem_chains_of_removeTi hu), ?_⟩
  by_cases hti : ti ∈ t.chains (place (filename ti))
  · have hlength := (entries_perm_removeTi hti).length_eq
    have htotal : (t.removeTi filename ti).total = t.total - 1 := by
      rw [Table.removeTi, if_pos hti]
    rw [List.length_cons, ← h.counted] at hlength
    omega
  · rw [Table.removeTi, if_neg hti]
    exact h.counted

end

end Table

end GracefulMusic.Cache
