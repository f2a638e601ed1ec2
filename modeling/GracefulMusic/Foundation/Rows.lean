import Mathlib.Algebra.BigOperators.Group.List.Basic
import Mathlib.Algebra.Order.Ring.Int
import Mathlib.Data.List.DropRight
import Mathlib.Data.List.Infix
import Mathlib.Data.List.Induction
import Mathlib.Data.List.Nodup
import Mathlib.Data.List.TakeWhile

/-! Rows of members, each with a pointer to its owner.

Owners keep their members in rows, and a member keeps the address of its owner, as the
nodes of a hierarchy do that are linked both ways. The rows of all owners together are
`owners.flatMap row`. An operation writes to one row at a time. -/
namespace Rows
variable {α β : Type*}

/-- No row has a member twice, and the members of a row point at its owner. -/
structure Linked (owners : List α) (row : α → List β) (owner : β → α) : Prop where
  nodup : ∀ a ∈ owners, (row a).Nodup
  back : ∀ a ∈ owners, ∀ b ∈ row a, owner b = a

variable {owners owners' : List α} {row : α → List β} {owner : β → α} {a : α} {b : β} {l : List β}

namespace Linked

theorem owner_mem (h : Linked owners row owner) (hb : b ∈ owners.flatMap row) :
    owner b ∈ owners ∧ b ∈ row (owner b) := by
  obtain ⟨a, ha, hb⟩ := List.mem_flatMap.mp hb
  rw [h.back a ha b hb]
  exact ⟨ha, hb⟩

/-- A member is in the row of its owner and in no other. -/
theorem existsUnique (h : Linked owners row owner) (hb : b ∈ owners.flatMap row) :
    ∃! a, a ∈ owners ∧ b ∈ row a :=
  ⟨owner b, h.owner_mem hb, fun a ha => (h.back a ha.1 b ha.2).symm⟩

theorem members_nodup (h : Linked owners row owner) (howners : owners.Nodup) :
    (owners.flatMap row).Nodup := by
  refine List.nodup_flatMap.mpr ⟨h.nodup, howners.imp_of_mem ?_⟩
  intro a c ha hc hac b hba hbc
  exact hac ((h.back a ha b hba).symm.trans (h.back c hc b hbc))

/-- Fewer owners, or the same in another order. -/
theorem mono (h : Linked owners row owner) (hsub : ∀ a ∈ owners', a ∈ owners) :
    Linked owners' row owner :=
  ⟨fun a ha => h.nodup a (hsub a ha), fun a ha => h.back a (hsub a ha)⟩

variable [DecidableEq α]

/-- A row that loses members or changes their order. -/
theorem narrow (h : Linked owners row owner) (hl : l.Nodup) (hsub : ∀ b ∈ l, b ∈ row a) :
    Linked owners (Function.update row a l) owner := by
  refine ⟨fun c hc => ?_, fun c hc b hb => ?_⟩
  · by_cases hca : c = a
    · subst hca
      rwa [Function.update_self]
    · rw [Function.update_of_ne hca]
      exact h.nodup c hc
  · by_cases hca : c = a
    · subst hca
      rw [Function.update_self] at hb
      exact h.back c hc b (hsub b hb)
    · rw [Function.update_of_ne hca] at hb
      exact h.back c hc b hb

/-- A row that takes a new member, whose pointer is written. -/
theorem insert [DecidableEq β] (h : Linked owners row owner) (ha : a ∈ owners)
    (hb : b ∉ owners.flatMap row) (hl : l.Perm (b :: row a)) :
    Linked owners (Function.update row a l) (Function.update owner b a) := by
  have hnew : ∀ c ∈ owners, b ∉ row c := fun c hc hbc =>
    hb (List.mem_flatMap.mpr ⟨c, hc, hbc⟩)
  refine ⟨fun c hc => ?_, fun c hc d hd => ?_⟩
  · by_cases hca : c = a
    · subst hca
      rw [Function.update_self]
      exact hl.nodup_iff.mpr (List.nodup_cons.mpr ⟨hnew c hc, h.nodup c hc⟩)
    · rw [Function.update_of_ne hca]
      exact h.nodup c hc
  · by_cases hdb : d = b
    · subst hdb
      rw [Function.update_self]
      by_contra hca
      rw [Function.update_of_ne (Ne.symm hca)] at hd
      exact hnew c hc hd
    · rw [Function.update_of_ne hdb]
      by_cases hca : c = a
      · subst hca
        rw [Function.update_self] at hd
        exact h.back c hc d ((List.mem_cons.mp (hl.mem_iff.mp hd)).resolve_left hdb)
      · rw [Function.update_of_ne hca] at hd
        exact h.back c hc d hd

end Linked

/-! ### All members -/

variable [DecidableEq α]

/-- Writing a row of an owner writes one stretch of the members. -/
theorem members_split (row : α → List β) (howners : owners.Nodup) (ha : a ∈ owners) (l : List β) :
    ∃ front back, owners.flatMap row = front ++ row a ++ back ∧
      owners.flatMap (Function.update row a l) = front ++ l ++ back := by
  obtain ⟨before, after, rfl⟩ := List.append_of_mem ha
  have hnew := (List.nodup_middle.mp howners).notMem
  have hkeep : ∀ l' : List α, a ∉ l' → l'.flatMap (Function.update row a l) = l'.flatMap row :=
    fun l' hl' => List.flatMap_congr fun c hc => by
      rw [Function.update_of_ne]
      intro heq
      subst heq
      exact hl' hc
  refine ⟨before.flatMap row, after.flatMap row, by simp, ?_⟩
  rw [List.flatMap_append, List.flatMap_cons, Function.update_self,
    hkeep before fun h => hnew (List.mem_append_left _ h),
    hkeep after fun h => hnew (List.mem_append_right _ h), List.append_assoc]

theorem members_insert (row : α → List β) (howners : owners.Nodup) (ha : a ∈ owners)
    (hl : l.Perm (b :: row a)) :
    (owners.flatMap (Function.update row a l)).Perm (b :: owners.flatMap row) := by
  obtain ⟨front, back, hold, hnew⟩ := members_split row howners ha l
  rw [hold, hnew, List.append_assoc, List.append_assoc]
  refine ((hl.append_right back).append_left front).trans ?_
  exact List.perm_middle

theorem members_erase (row : α → List β) (howners : owners.Nodup) (ha : a ∈ owners)
    (hl : (row a).Perm (b :: l)) :
    (owners.flatMap row).Perm (b :: owners.flatMap (Function.update row a l)) := by
  obtain ⟨front, back, hold, hnew⟩ := members_split row howners ha l
  rw [hold, hnew, List.append_assoc, List.append_assoc]
  refine ((hl.append_right back).append_left front).trans ?_
  exact List.perm_middle

end Rows
