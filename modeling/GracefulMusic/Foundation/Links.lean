import Mathlib.Data.List.Nodup
import Mathlib.Logic.Function.Basic

/-! Circular doubly linked lists in a memory of links.

A list is its head and the nodes that `next` leads through until it comes back, with `prev`
leading the other way. Nodes are taken out and put in front of the head by joining neighbours;
lists that have no node in common leave each other alone. -/

structure Links (P : Type*) where
  next : P → P
  prev : P → P

namespace Links
variable {P : Type*} (m : Links P)

/-- `next` leads from one node through the list to the other, and `prev` leads back. -/
def Chain : P → List P → P → Prop
  | a, [], b => m.next a = b ∧ m.prev b = a
  | a, x :: l, b => (m.next a = x ∧ m.prev x = a) ∧ Chain x l b

structure IsList (head : P) (l : List P) : Prop where
  chain : m.Chain head l head
  nodup : (head :: l).Nodup

/-- Two lists that have no node in common. -/
structure Apart (u : P) (us : List P) (s : P) (ss : List P) : Prop where
  left : m.Chain u us u
  right : m.Chain s ss s
  nodup : ((u :: us) ++ (s :: ss)).Nodup

variable {m} {m' : Links P} {a b x y u s : P} {l r us ss : List P}

theorem Chain.append : m.Chain a (l ++ x :: r) b ↔ m.Chain a l x ∧ m.Chain x r b := by
  induction l generalizing a with
  | nil => rfl
  | cons y l ih => simp [Chain, ih, and_assoc]

theorem Chain.concat : m.Chain a (l ++ [x]) b ↔ m.Chain a l x ∧ m.next x = b ∧ m.prev b = x :=
  Chain.append

/-- A chain rests on the links of its nodes. -/
theorem Chain.congr (hnext : ∀ x ∈ a :: l, m'.next x = m.next x)
    (hprev : ∀ x ∈ b :: l, m'.prev x = m.prev x) (h : m.Chain a l b) : m'.Chain a l b := by
  induction l generalizing a with
  | nil => exact ⟨(hnext a (.head _)).trans h.1, (hprev b (.head _)).trans h.2⟩
  | cons y l ih =>
    refine ⟨⟨(hnext a (.head _)).trans h.1.1, (hprev y (.tail _ (.head _))).trans h.1.2⟩, ?_⟩
    exact ih (fun x hx => hnext x (.tail _ hx))
      (fun x hx => hprev x ((List.mem_cons.mp hx).elim (· ▸ .head _) fun h => .tail _ (.tail _ h)))
      h.2

theorem Chain.next_eq (h : m.Chain a l b) : m.next a = l.headD b := by
  cases l with
  | nil => exact h.1
  | cons y l => exact h.1.1

theorem Chain.next_prev (h : m.Chain a l b) : m.next (m.prev b) = b := by
  induction l generalizing a with
  | nil => rw [h.2, h.1]
  | cons y l ih => exact ih h.2

theorem Chain.prev_next (h : m.Chain a l b) : m.prev (m.next a) = a := by
  cases l with
  | nil => rw [h.1, h.2]
  | cons y l => rw [h.1.1, h.1.2]

theorem Chain.prev_mem (h : m.Chain a l b) : m.prev b ∈ a :: l := by
  induction l generalizing a with
  | nil => exact h.2 ▸ .head _
  | cons y l ih => exact .tail _ (ih h.2)

theorem Chain.next_mem (h : m.Chain a l b) : m.next a ∈ b :: l := by
  cases l with
  | nil => exact h.1 ▸ .head _
  | cons y l => exact h.1.1 ▸ .tail _ (.head _)

theorem Chain.next_last (h : m.Chain a (l ++ r) b) : m.next (l.getLastD a) = r.headD b := by
  induction l generalizing a with
  | nil => exact h.next_eq
  | cons y l ih =>
    rw [List.getLastD_cons]
    exact ih h.2

theorem Chain.prev_eq (h : m.Chain a l b) : m.prev b = l.getLastD a := by
  induction l generalizing a with
  | nil => exact h.2
  | cons y l ih =>
    rw [List.getLastD_cons]
    exact ih h.2

theorem IsList.next_last {head : P} (h : m.IsList head (l ++ r)) :
    m.next (l.getLastD head) = r.headD head := h.chain.next_last

theorem IsList.prev_eq {head : P} (h : m.IsList head (l ++ x :: r)) :
    m.prev x = l.getLastD head := (Chain.append.mp h.chain).1.prev_eq

theorem Apart.not_mem (h : m.Apart u us s ss) (hy : y ∈ u :: us) : y ∉ s :: ss :=
  (List.nodup_append.mp h.nodup).2.2 y hy |> fun hne hmem => hne y hmem rfl

theorem Apart.symm (h : m.Apart u us s ss) : m.Apart s ss u us :=
  ⟨h.right, h.left, (List.nodup_append_comm).mp h.nodup⟩

/-- What `next` and `prev` of the nodes of the lists are is all that matters. -/
theorem Apart.congr (hlinks : ∀ y ∈ (u :: us) ++ (s :: ss),
    m'.next y = m.next y ∧ m'.prev y = m.prev y) (h : m.Apart u us s ss) : m'.Apart u us s ss := by
  have hleft : ∀ y ∈ u :: us, _ := fun y hy => hlinks y (List.mem_append_left _ hy)
  have hright : ∀ y ∈ s :: ss, _ := fun y hy => hlinks y (List.mem_append_right _ hy)
  exact ⟨h.left.congr (fun y hy => (hleft y hy).1) fun y hy => (hleft y hy).2,
    h.right.congr (fun y hy => (hright y hy).1) fun y hy => (hright y hy).2, h.nodup⟩

section
variable [DecidableEq P]

/-- Two nodes become neighbours. -/
def join (m : Links P) (a b : P) : Links P where
  next := Function.update m.next a b
  prev := Function.update m.prev b a

/-- Joining the neighbours of a node takes it out of a chain. -/
theorem Chain.remove (hl : m.Chain a l x) (hr : m.Chain x r b) (hnodup : (l ++ x :: r).Nodup)
    (ha : a ∉ l ++ x :: r) (hb : b ∉ l ++ x :: r) :
    (m.join (m.prev x) (m.next x)).Chain a (l ++ r) b := by
  induction l generalizing a with
  | nil =>
    have hprev : m.prev x = a := hl.2
    cases r with
    | nil =>
      have hnext : m.next x = b := hr.1
      simp [Chain, join, hprev, hnext]
    | cons y r =>
      have hnext : m.next x = y := hr.1.1
      have hy : y ∉ r ∧ b ≠ y := by simp_all
      refine ⟨by simp [join, hprev, hnext], hr.2.congr (fun z hz => ?_) fun z hz => ?_⟩
      · have hz' : z ≠ a := fun heq => ha (heq ▸ .tail _ hz)
        simp [join, hprev, hz']
      · have hz' : z ≠ y := fun heq => by
          rcases List.mem_cons.mp hz with rfl | hz
          · exact hy.2 heq
          · exact hy.1 (heq ▸ hz)
        simp [join, hnext, hz']
  | cons y l ih =>
    obtain ⟨hy, hnodup'⟩ := List.nodup_cons.mp hnodup
    have hprev : a ≠ m.prev x := fun heq => ha (heq ▸ by
      have := hl.2.prev_mem
      simp_all)
    have hnext : y ≠ m.next x := fun heq => by
      rcases List.mem_cons.mp hr.next_mem with hb' | hmem
      · exact hb ((heq.trans hb') ▸ .head _)
      · exact hy (by rw [heq]; simp [hmem])
    refine ⟨⟨by simp [join, hprev, hl.1.1], by simp [join, hnext, hl.1.2]⟩, ?_⟩
    exact ih hl.2 hnodup' hy fun hmem => hb (.tail _ hmem)

/-- Joining the last node with another one leads the chain there. -/
theorem Chain.redirect (h : m.Chain a l b) (hnodup : (a :: l).Nodup) (hx : x ∉ l) :
    (m.join (m.prev b) x).Chain a l x := by
  induction l generalizing a with
  | nil =>
    have hprev : m.prev b = a := h.2
    simp [Chain, join, hprev]
  | cons y l ih =>
    obtain ⟨ha, hnodup'⟩ := List.nodup_cons.mp hnodup
    have hprev : a ≠ m.prev b := fun heq => ha (heq ▸ h.2.prev_mem)
    have hyx : y ≠ x := fun heq => hx (heq ▸ .head _)
    refine ⟨⟨by simp [join, hprev, h.1.1], by simp [join, hyx, h.1.2]⟩, ?_⟩
    exact ih h.2 hnodup' fun hmem => hx (.tail _ hmem)

/-- Joining another node with the first one lets the chain begin there. -/
theorem Chain.begin_at (h : m.Chain a (y :: l) b) (hx : x ∉ y :: l) (hy : y ∉ b :: l) :
    (m.join x y).Chain x (y :: l) b := by
  refine ⟨by simp [join], h.2.congr (fun z hz => ?_) fun z hz => ?_⟩
  · simp [join, ne_of_mem_of_not_mem hz hx]
  · simp [join, ne_of_mem_of_not_mem hz hy]

/-- Joining a new node behind the last one extends a chain. -/
theorem Chain.extend (h : m.Chain a l b) (hnodup : (a :: l).Nodup) (hx : x ∉ a :: b :: l)
    (hb : b ∉ l) : ((m.join (m.prev b) x).join x b).Chain a (l ++ [x]) b := by
  simp only [List.mem_cons, not_or] at hx
  obtain ⟨hxa, hxb, hxl⟩ := hx
  rw [Chain.concat]
  refine ⟨(h.redirect hnodup hxl).congr (fun y hy => ?_) fun y hy => ?_, by simp [join],
    by simp [join]⟩
  · have hne : y ≠ x := ne_of_mem_of_not_mem hy (by simp [hxa, hxl])
    simp [join, hne]
  · have hne : y ≠ b := ne_of_mem_of_not_mem hy (by simp [hb, Ne.symm hxb])
    simp [join, hne]

/-- Joining a new node with its neighbours puts it between them. -/
theorem Chain.insert (h : m.Chain a (l ++ r) b) (hnodup : (a :: (l ++ r)).Nodup) (hb : b ∉ l ++ r)
    (hx : x ∉ a :: b :: (l ++ r)) :
    ((m.join (l.getLastD a) x).join x (r.headD b)).Chain a (l ++ x :: r) b := by
  simp only [List.mem_cons, not_or] at hx
  obtain ⟨hxa, hxb, hxl⟩ := hx
  induction l generalizing a with
  | nil =>
    cases r with
    | nil => simp [Chain, join, Ne.symm hxa, hxb]
    | cons y r =>
      obtain ⟨ha, hr⟩ := List.nodup_cons.mp hnodup
      obtain ⟨hy, -⟩ := List.nodup_cons.mp hr
      have hxy : x ≠ y := List.ne_of_not_mem_cons hxl
      refine ⟨by simp [join, Ne.symm hxa, hxy], by simp [join], ?_⟩
      refine h.2.congr (fun z hz => ?_) fun z hz => ?_
      · have hza : z ≠ a := ne_of_mem_of_not_mem hz ha
        have hzx : z ≠ x := ne_of_mem_of_not_mem hz hxl
        simp [join, hza, hzx]
      · have hzx : z ≠ x := ne_of_mem_of_not_mem hz (by simp_all)
        have hzy : z ≠ y := by
          rcases List.mem_cons.mp hz with rfl | hz
          · exact fun heq => hb (heq ▸ .head _)
          · exact ne_of_mem_of_not_mem hz hy
        simp [join, hzx, hzy]
  | cons y l ih =>
    obtain ⟨ha, hnodup'⟩ := List.nodup_cons.mp hnodup
    obtain ⟨hy, -⟩ := List.nodup_cons.mp hnodup'
    rw [List.getLastD_cons]
    have hxy : y ≠ x := (List.ne_of_not_mem_cons hxl).symm
    have hlast : a ≠ l.getLastD y := fun heq => by
      have hmem : a ∈ y :: l := heq ▸ List.getLastD_mem_cons
      exact ha (List.mem_append_left r hmem)
    have hfirst : y ≠ r.headD b := by
      cases r with
      | nil => exact fun heq => hb (heq ▸ .head _)
      | cons z r => exact fun heq => hy (heq ▸ List.mem_append_right l (.head _))
    refine ⟨⟨?_, ?_⟩, ?_⟩
    · exact (Function.update_of_ne (Ne.symm hxa) _ _).trans
        ((Function.update_of_ne hlast _ _).trans h.1.1)
    · exact (Function.update_of_ne hfirst _ _).trans
        ((Function.update_of_ne hxy _ _).trans h.1.2)
    exact ih h.2 hnodup' (fun hmem => hb (.tail _ hmem)) (Ne.symm hxy)
      (fun hmem => hxl (.tail _ hmem))

/-! ### One list -/

theorem IsList.remove {head : P} (h : m.IsList head (l ++ x :: r)) :
    (m.join (m.prev x) (m.next x)).IsList head (l ++ r) ∧ x ∉ head :: (l ++ r) := by
  obtain ⟨hl, hr⟩ := Chain.append.mp h.chain
  obtain ⟨hhead, hnodup⟩ := List.nodup_cons.mp h.nodup
  obtain ⟨hx, hrest⟩ := List.nodup_cons.mp (List.perm_middle.nodup_iff.mp hnodup)
  have hsub : (l ++ r).Sublist (l ++ x :: r) := (List.sublist_cons_self x r).append_left l
  refine ⟨⟨hl.remove hr hnodup hhead hhead,
    List.nodup_cons.mpr ⟨fun hmem => hhead (hsub.subset hmem), hrest⟩⟩, ?_⟩
  rintro (_ | hmem)
  · exact hhead (List.mem_append_right l (.head _))
  · exact hx ‹_›

theorem IsList.insert {head : P} (h : m.IsList head (l ++ r)) (hx : x ∉ head :: (l ++ r)) :
    ((m.join (l.getLastD head) x).join x (r.headD head)).IsList head (l ++ x :: r) := by
  obtain ⟨hhead, hnodup⟩ := List.nodup_cons.mp h.nodup
  have hxl : x ∉ l ++ r := fun hmem => hx (.tail _ hmem)
  have hxhead : x ≠ head := List.ne_of_not_mem_cons hx
  refine ⟨h.chain.insert h.nodup hhead (by simp [hxhead, hxl]), ?_⟩
  refine List.nodup_cons.mpr ⟨fun hmem => ?_, ?_⟩
  · rcases List.mem_cons.mp (List.perm_middle.mem_iff.mp hmem) with heq | hmem
    · exact hxhead heq.symm
    · exact hhead hmem
  · exact List.perm_middle.nodup_iff.mpr (List.nodup_cons.mpr ⟨hxl, hnodup⟩)

/-- The nodes of one head may be given to another one. -/
theorem IsList.rehead (h : m.IsList s (y :: l)) (hx : x ∉ s :: y :: l) :
    ((m.join x y).join (m.prev s) x).IsList x (y :: l) := by
  obtain ⟨hs, hnodup⟩ := List.nodup_cons.mp h.nodup
  have hxl : x ∉ y :: l := fun hmem => hx (.tail _ hmem)
  have hys : y ∉ s :: l := by
    simp only [List.mem_cons, not_or] at hs ⊢
    exact ⟨Ne.symm hs.1, (List.nodup_cons.mp hnodup).1⟩
  have hprev : (m.join x y).prev s = m.prev s :=
    Function.update_of_ne (ne_of_mem_of_not_mem List.mem_cons_self hs).symm _ _
  have hnodup' : (x :: y :: l).Nodup := List.nodup_cons.mpr ⟨hxl, hnodup⟩
  exact ⟨hprev ▸ (h.chain.begin_at hxl hys).redirect hnodup' hxl, hnodup'⟩

/-! ### Two lists -/

theorem Apart.remove (h : m.Apart u (l ++ x :: r) s ss) :
    (m.join (m.prev x) (m.next x)).Apart u (l ++ r) s ss ∧
      x ∉ (u :: (l ++ r)) ++ (s :: ss) := by
  obtain ⟨hl, hr⟩ := Chain.append.mp h.left
  have hnodup := h.nodup
  have hperm : ((u :: (l ++ x :: r)) ++ (s :: ss)).Perm
      (x :: ((u :: (l ++ r)) ++ (s :: ss))) := by
    simp only [List.cons_append, List.append_assoc]
    exact ((List.perm_middle.cons u).trans (.swap _ _ _))
  obtain ⟨hx, hrest⟩ := List.nodup_cons.mp (hperm.nodup_iff.mp hnodup)
  obtain ⟨hu, hul⟩ := List.nodup_cons.mp (List.nodup_append.mp hnodup).1
  refine ⟨⟨hl.remove hr hul hu hu, ?_, hrest⟩, hx⟩
  have hprev : m.prev x ∈ u :: (l ++ x :: r) := List.mem_append_left (x :: r) hl.prev_mem
  have hnext : m.next x ∈ u :: (l ++ x :: r) := by
    rcases List.mem_cons.mp hr.next_mem with heq | hmem
    · exact heq ▸ .head _
    · exact .tail _ (List.mem_append_right _ (.tail _ hmem))
  refine h.right.congr (fun y hy => ?_) fun y hy => ?_
  · exact Function.update_of_ne (ne_of_mem_of_not_mem hy (h.not_mem hprev)) _ _
  · exact Function.update_of_ne (ne_of_mem_of_not_mem hy (h.not_mem hnext)) _ _

theorem Apart.extend (h : m.Apart u us s ss) (hx : x ∉ (u :: us) ++ (s :: ss)) :
    ((m.join (m.prev s) x).join x s).Apart u us s (ss ++ [x]) := by
  obtain ⟨hxu, hxs⟩ := not_or.mp (mt List.mem_append.mpr hx)
  have hss := (List.nodup_append.mp h.nodup).2.1
  refine ⟨?_, h.right.extend hss (by simpa using hxs) (List.nodup_cons.mp hss).1, ?_⟩
  · have hmem : ∀ y ∈ u :: us, y ≠ m.prev s ∧ y ≠ x ∧ y ≠ s := by
      intro y hy
      exact ⟨(ne_of_mem_of_not_mem h.right.prev_mem (h.not_mem hy)).symm,
        ne_of_mem_of_not_mem hy hxu, (ne_of_mem_of_not_mem List.mem_cons_self (h.not_mem hy)).symm⟩
    refine h.left.congr (fun y hy => ?_) fun y hy => ?_
    · obtain ⟨hprev, hyx, -⟩ := hmem y hy
      simp [join, hprev, hyx]
    · obtain ⟨-, hyx, hys⟩ := hmem y hy
      simp [join, hyx, hys]
  · rw [← List.cons_append, ← List.append_assoc]
    exact List.nodup_append.mpr ⟨h.nodup, List.nodup_singleton x, fun y hy z hz heq => by
      rw [List.mem_singleton.mp hz] at heq
      exact hx (heq ▸ hy)⟩

end
end Links
