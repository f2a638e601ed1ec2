import Mathlib.Algebra.BigOperators.Group.List.Basic
import Mathlib.Algebra.Order.Ring.Int
import Mathlib.Data.List.DropRight
import Mathlib.Data.List.Infix
import Mathlib.Data.List.Induction
import Mathlib.Data.List.Nodup
import Mathlib.Data.List.TakeWhile

/-! Hash tables with chains, one entry for a key.

A table is a function from positions to chains; `size` positions are in use. `place`
puts a key at its position. An insertion pushes on the chain unless the key is found
there, a removal takes the first entry with the key off the chain and is undefined
where there is none. Over a well-formed table the two are insertion and removal of a
set of entries with distinct keys (`mem_insert`, `mem_remove`). -/

structure HashTable (α κ : Type*) where
  size : Nat
  key : α → κ
  place : κ → Nat
  place_lt : ∀ k, place k < size

namespace HashTable
variable {α κ : Type*} (T : HashTable α κ)

/-- The chains in order of their positions. -/
@[irreducible] def entries (h : Nat → List α) : List α := (List.range T.size).flatMap h

def empty (_ : Nat) : List α := []

/-- Entries are at their places, and no key occurs twice. -/
structure WellFormed (h : Nat → List α) : Prop where
  placed : ∀ i, ∀ a ∈ h i, T.place (T.key a) = i
  distinct : ∀ i, ((h i).map T.key).Nodup

section
variable [DecidableEq κ]

/-- `none` where the key is there already. -/
def insert (h : Nat → List α) (a : α) : Option (Nat → List α) :=
  let i := T.place (T.key a)
  if T.key a ∈ (h i).map T.key then none else some (Function.update h i (a :: h i))

/-- `none` where there is no such key. -/
def remove (h : Nat → List α) (k : κ) : Option (Nat → List α) :=
  let i := T.place k
  if k ∈ (h i).map T.key then
    some (Function.update h i ((h i).eraseP fun b => T.key b = k))
  else none

end

variable {T} {h h' : Nat → List α} {a b : α}

theorem wellFormed_empty : T.WellFormed empty := ⟨nofun, fun _ => List.nodup_nil⟩

theorem WellFormed.mem_iff (hw : T.WellFormed h) : a ∈ T.entries h ↔ a ∈ h (T.place (T.key a)) := by
  simp only [entries, List.mem_flatMap, List.mem_range]
  constructor
  · intro h
    obtain ⟨i, -, ha⟩ := h
    rwa [hw.placed i a ha]
  · exact fun ha => ⟨_, T.place_lt _, ha⟩

theorem WellFormed.key_inj (hw : T.WellFormed h) (ha : a ∈ T.entries h) (hb : b ∈ T.entries h)
    (hkey : T.key a = T.key b) : a = b := by
  rw [hw.mem_iff] at ha hb
  rw [← hkey] at hb
  exact List.inj_on_of_nodup_map (hw.distinct _) ha hb hkey

theorem WellFormed.nodup (hw : T.WellFormed h) : (T.entries h).Nodup := by
  rw [entries, List.nodup_flatMap]
  refine ⟨fun i _ => (hw.distinct i).of_map, ?_⟩
  refine List.nodup_range.imp fun {i j} hij a hai haj => ?_
  exact hij ((hw.placed i a hai).symm.trans (hw.placed j a haj))

section
variable [DecidableEq κ]

theorem insert_eq_none (hw : T.WellFormed h) :
    T.insert h a = none ↔ ∃ b ∈ T.entries h, T.key b = T.key a := by
  rw [insert]
  constructor
  · intro hnone
    split at hnone
    · rename_i hmem
      obtain ⟨b, hb, hkey⟩ := List.mem_map.mp hmem
      refine ⟨b, ?_, hkey⟩
      rwa [hw.mem_iff, hkey]
    · cases hnone
  · intro h
    obtain ⟨b, hb, hkey⟩ := h
    rw [hw.mem_iff, hkey] at hb
    exact if_pos (List.mem_map.mpr ⟨b, hb, hkey⟩)

theorem wellFormed_insert (hw : T.WellFormed h) (hins : T.insert h a = some h') :
    T.WellFormed h' := by
  rw [insert] at hins
  split at hins
  · cases hins
  · rename_i hnew
    obtain rfl := Option.some.inj hins
    constructor
    · intro i b hb
      by_cases hi : i = T.place (T.key a)
      · subst hi
        rw [Function.update_self, List.mem_cons] at hb
        rcases hb with rfl | hb
        · rfl
        · exact hw.placed _ b hb
      · rw [Function.update_of_ne hi] at hb
        exact hw.placed i b hb
    · intro i
      by_cases hi : i = T.place (T.key a)
      · subst hi
        rw [Function.update_self, List.map_cons, List.nodup_cons]
        exact ⟨hnew, hw.distinct _⟩
      · rw [Function.update_of_ne hi]
        exact hw.distinct i

theorem mem_insert (hw : T.WellFormed h) (hins : T.insert h a = some h') :
    b ∈ T.entries h' ↔ b = a ∨ b ∈ T.entries h := by
  rw [(wellFormed_insert hw hins).mem_iff, hw.mem_iff]
  rw [insert] at hins
  split at hins
  · cases hins
  · obtain rfl := Option.some.inj hins
    by_cases hi : T.place (T.key b) = T.place (T.key a)
    · rw [hi, Function.update_self, List.mem_cons]
    · rw [Function.update_of_ne hi]
      refine (or_iff_right ?_).symm
      intro heq
      subst heq
      exact hi rfl

theorem remove_isSome (hw : T.WellFormed h) (ha : a ∈ T.entries h) :
    ∃ h', T.remove h (T.key a) = some h' :=
  ⟨_, if_pos (List.mem_map_of_mem (hw.mem_iff.mp ha))⟩

theorem wellFormed_remove (hw : T.WellFormed h) {k : κ} (hrem : T.remove h k = some h') :
    T.WellFormed h' := by
  rw [remove] at hrem
  split at hrem
  · obtain rfl := Option.some.inj hrem
    constructor
    · intro i b hb
      by_cases hi : i = T.place k
      · subst hi
        rw [Function.update_self] at hb
        exact hw.placed _ b (List.mem_of_mem_eraseP hb)
      · rw [Function.update_of_ne hi] at hb
        exact hw.placed i b hb
    · intro i
      by_cases hi : i = T.place k
      · subst hi
        rw [Function.update_self]
        exact (hw.distinct _).sublist (List.eraseP_sublist.map _)
      · rw [Function.update_of_ne hi]
        exact hw.distinct i
  · cases hrem

/-- With distinct keys, taking out the first of a key takes out all there are. -/
theorem mem_eraseP_key {key : α → κ} {l : List α} (hl : (l.map key).Nodup) (ha : a ∈ l) :
    b ∈ l.eraseP (fun c => key c = key a) ↔ b ∈ l ∧ b ≠ a := by
  induction l with
  | nil => cases ha
  | cons c l ih =>
    obtain ⟨hc, hl⟩ := List.nodup_cons.mp hl
    rcases List.mem_cons.mp ha with rfl | ha
    · rw [List.eraseP_cons_of_pos (by simp), List.mem_cons]
      constructor
      · intro hb
        refine ⟨.inr hb, ?_⟩
        intro heq
        subst heq
        exact hc (List.mem_map_of_mem hb)
      · rintro ⟨rfl | hb, hne⟩
        · exact absurd rfl hne
        · exact hb
    · have hca : key c ≠ key a := fun h => hc (h ▸ List.mem_map_of_mem ha)
      rw [List.eraseP_cons_of_neg (by simpa using hca), List.mem_cons, List.mem_cons, ih hl ha]
      constructor
      · rintro (rfl | ⟨hb, hne⟩)
        · exact ⟨.inl rfl, fun h => hca (congrArg key h)⟩
        · exact ⟨.inr hb, hne⟩
      · rintro ⟨rfl | hb, hne⟩
        · exact .inl rfl
        · exact .inr ⟨hb, hne⟩

theorem mem_remove (hw : T.WellFormed h) (ha : a ∈ T.entries h)
    (hrem : T.remove h (T.key a) = some h') :
    b ∈ T.entries h' ↔ b ∈ T.entries h ∧ b ≠ a := by
  rw [(wellFormed_remove hw hrem).mem_iff, hw.mem_iff]
  have hchain := hw.mem_iff.mp ha
  rw [remove] at hrem
  split at hrem
  · obtain rfl := Option.some.inj hrem
    by_cases hi : T.place (T.key b) = T.place (T.key a)
    · rw [hi, Function.update_self]
      exact mem_eraseP_key (hw.distinct _) hchain
    · rw [Function.update_of_ne hi]
      refine (and_iff_left ?_).symm
      intro heq
      subst heq
      exact hi rfl
  · cases hrem

end

end HashTable
