import GracefulMusic.Foundation.Successor
import GracefulMusic.Playlist.Playlists

/-! Shuffle trees (`track.c`).

A tree is built by random numbers, but `shuffle_insert` does not care for them. The values
of `rand()` are drawn from a list, and what runs out of them has no outcome. The nodes of
a tree are its tracks, or the albums of the library. -/
namespace GracefulMusic.Shuffle
open GracefulMusic.Pl (Options)

structure Tree (P : Type) where
  root : OrderedTree P
  rand : P → Nat

variable {P : Type} [DecidableEq P] (b : OrderedTree.Balancing P)

namespace Tree

/-- The nodes in order. -/
def order (s : Tree P) : List P := s.root.toList

def compareRand (s : Tree P) (x y : P) : Int :=
  if s.rand x < s.rand y then -1 else if s.rand x > s.rand y then 1 else 0

/-- A track whose number is there already gets another one. -/
def shuffleListAdd (track : P) : List Nat → Tree P → Option (Tree P × List Nat)
  | [], _ => none
  | r :: draws, s =>
    let s := { s with rand := Function.update s.rand track r }
    match s.root.locate (s.compareRand track) with
    | some _ => shuffleListAdd track draws s
    | none =>
      some ({ s with root := b.rebalance (s.root.attach (s.compareRand track) track) }, draws)

/-- `rb_erase`. -/
def remove (track : P) (s : Tree P) : Tree P := { s with root := b.remove s.root track }

/-- Each track moves over to a new tree. -/
def shuffleListReshuffle (s : Tree P) (draws : List Nat) : Option (Tree P × List Nat) :=
  s.order.foldlM (fun tmp track => shuffleListAdd b track tmp.2 tmp.1)
    (⟨.leaf, s.rand⟩, draws)

def shuffleInsert (previous : Option P) (next : P) (s : Tree P) : Tree P :=
  if previous = some next then s
  else
    let root := b.remove s.root next
    match previous with
    | some p => { s with root := b.rebalance (root.attachAfter p next) }
    | none => { s with root := b.rebalance (root.attachFirst next) }

def autoReshuffle (o : Options) (s : Tree P × List Nat) : Option (Tree P × List Nat) :=
  if o.autoReshuffle then shuffleListReshuffle b s.1 s.2 else some s

/-- The loop at `again`: from the given nodes to one that passes the filter, and with
repeat from the end of the tree on. -/
def scan (o : Options) (passes : P → Bool) (nodes : List P → List P) :
    Nat → List P → Tree P × List Nat → Option (Option P × Tree P × List Nat)
  | 0, _, _ => none
  | rounds + 1, rest, s =>
    match rest.find? passes with
    | some track => some (some track, s)
    | none =>
      if o.repeats then
        (autoReshuffle b o s).bind fun s => scan o passes nodes rounds (nodes s.1.order) s
      else some (none, s)

def shuffleListGetNext (o : Options) (passes : P → Bool) (rounds : Nat) (cur : Option P)
    (s : Tree P × List Nat) : Option (Option P × Tree P × List Nat) :=
  match cur with
  | none => (autoReshuffle b o s).map fun s => (s.1.order.head?, s)
  | some cur => scan b o passes id rounds (Sequence.behind s.1.order cur) s

def shuffleListGetPrev (o : Options) (passes : P → Bool) (rounds : Nat) (cur : Option P)
    (s : Tree P × List Nat) : Option (Option P × Tree P × List Nat) :=
  match cur with
  | none => (autoReshuffle b o s).map fun s => (s.1.order.getLast?, s)
  | some cur => scan b o passes List.reverse rounds (Sequence.before s.1.order cur).reverse s

end Tree

/-! ### Histories -/

inductive Op (P : Type) where
  | add (track : P)
  | remove (track : P)
  | insert (previous : Option P) (next : P)
  | reshuffle

/-- A node is linked once, and nodes that are named are linked. -/
def step (s : Tree P × List Nat) : Op P → Option (Tree P × List Nat)
  | .add track => if track ∈ s.1.order then none else s.1.shuffleListAdd b track s.2
  | .remove track => if track ∈ s.1.order then some (s.1.remove b track, s.2) else none
  | .insert previous next =>
    if next ∈ s.1.order ∧ ∀ p ∈ previous, p ∈ s.1.order then
      some (s.1.shuffleInsert b previous next, s.2)
    else none
  | .reshuffle => s.1.shuffleListReshuffle b s.2

/-- What an operation does to the tracks that were added and not removed. -/
def Op.onTracks (tracks : List P) : Op P → List P
  | .add track => track :: tracks
  | .remove track => tracks.erase track
  | _ => tracks

def present (ops : List (Op P)) : List P := ops.foldl Op.onTracks []

/-- From an empty tree, with any numbers in the nodes that are not linked yet. -/
def run (rand : P → Nat) (draws : List Nat) (ops : List (Op P)) : Option (Tree P × List Nat) :=
  Runs.run (step b) (⟨.leaf, rand⟩, draws) ops

end GracefulMusic.Shuffle

/-! The order of a shuffle tree over any history, on its sequence of nodes. -/
namespace GracefulMusic.Shuffle
open GracefulMusic.Pl (Options)
open Tree

variable {P : Type} [DecidableEq P] (b : OrderedTree.Balancing P)

/-! ### Adding -/

/-- A new node lands somewhere, and the others stay as they were. -/
theorem shuffleListAdd_order {track : P} {draws draws' : List Nat} {s s' : Tree P}
    (h : s.shuffleListAdd b track draws = some (s', draws')) :
    ∃ front back, s.order = front ++ back ∧ s'.order = front ++ track :: back := by
  induction draws generalizing s with
  | nil => cases h
  | cons r draws ih =>
    rw [shuffleListAdd] at h
    dsimp only at h
    split at h
    · have hretry := ih h
      exact hretry
    · rename_i hlocate
      obtain ⟨front, back, hsplit, hattach, -⟩ := OrderedTree.attach_split track hlocate
      have hs' : _ = s' := congrArg Prod.fst (Option.some.inj h)
      refine ⟨front, back, hsplit, ?_⟩
      rw [← hs', order, b.toList_rebalance, hattach]

theorem shuffleListAdd_perm {track : P} {draws draws' : List Nat} {s s' : Tree P}
    (h : s.shuffleListAdd b track draws = some (s', draws')) : s'.order.Perm (track :: s.order) := by
  obtain ⟨front, back, hsplit, hs'⟩ := shuffleListAdd_order b h
  rw [hsplit, hs']
  exact List.perm_middle

omit [DecidableEq P] in
theorem compareRand_zero {s : Tree P} {x y : P} (h : s.compareRand x y = 0) :
    s.rand x = s.rand y := by
  rw [compareRand] at h
  split at h
  · cases h
  · split at h
    · cases h
    · omega

/-- The retries end with the first number that no node has. -/
theorem shuffleListAdd_returns {track : P} {draws : List Nat} {s : Tree P}
    (htrack : track ∉ s.order) (h : ∃ r ∈ draws, ∀ a ∈ s.order, s.rand a ≠ r) :
    ∃ s', s.shuffleListAdd b track draws = some s' := by
  induction draws generalizing s with
  | nil =>
    obtain ⟨r, hr, -⟩ := h
    cases hr
  | cons r draws ih =>
    have hsame : ∀ a ∈ s.order, Function.update s.rand track r a = s.rand a :=
      fun a ha => Function.update_of_ne (fun heq : a = track => htrack (heq ▸ ha)) r s.rand
    rw [shuffleListAdd]
    dsimp only
    split
    · rename_i a hlocate
      apply ih
      · exact htrack
      · obtain ⟨hmem, hzero⟩ := OrderedTree.locate_mem hlocate
        obtain ⟨r', hr', hfresh⟩ := h
        have hrand : s.rand a = r := by
          have hequal := compareRand_zero hzero
          dsimp only at hequal
          rw [hsame a hmem, Function.update_self] at hequal
          exact hequal.symm
        obtain heq | hr' := List.mem_cons.mp hr'
        · exact absurd (hrand.trans heq.symm) (hfresh a hmem)
        · refine ⟨r', hr', ?_⟩
          intro c hc
          show Function.update s.rand track r c ≠ r'
          rw [hsame c hc]
          exact hfresh c hc
    · exact ⟨_, rfl⟩

theorem shuffleListReshuffle_perm {s s' : Tree P} {draws draws' : List Nat}
    (h : s.shuffleListReshuffle b draws = some (s', draws')) : s'.order.Perm s.order := by
  have hloop : ∀ (tracks : List P) (tmp : Tree P × List Nat),
      tracks.foldlM (fun tmp track => shuffleListAdd b track tmp.2 tmp.1) tmp = some (s', draws') →
        s'.order.Perm (tracks ++ tmp.1.order) := by
    intro tracks
    induction tracks with
    | nil =>
      intro tmp hrun
      cases hrun
      exact List.Perm.refl _
    | cons track tracks ih =>
      intro tmp hrun
      rw [List.foldlM_cons] at hrun
      obtain ⟨next, hadd, hrest⟩ := Option.bind_eq_some_iff.mp hrun
      have hperm := (shuffleListAdd_perm b hadd).append_left tracks
      exact (ih next hrest).trans (hperm.trans List.perm_middle)
  have hperm := hloop s.order _ h
  rwa [show s.order ++ (⟨.leaf, s.rand⟩ : Tree P).order = s.order from List.append_nil _] at hperm

/-! ### Moving -/

/-- Only `next` is moved: to the place behind `previous`, or to the front. -/
def Moved (previous : Option P) (next : P) (old new : List P) : Prop :=
  if previous = some next then new = old
  else ∃ front back, old.erase next = front ++ back ∧ new = front ++ next :: back ∧
    front.getLast? = previous

theorem shuffleInsert_moved {s : Tree P} {previous : Option P} (next : P)
    (hprevious : ∀ p ∈ previous, p ∈ s.order) :
    Moved previous next s.order (s.shuffleInsert b previous next).order := by
  rw [Moved, shuffleInsert]
  by_cases hsame : previous = some next
  · rw [if_pos hsame, if_pos hsame]
  · rw [if_neg hsame, if_neg hsame]
    have herase : (b.remove s.root next).toList = s.order.erase next := b.toList_remove _ _
    cases previous with
    | none =>
      refine ⟨[], s.order.erase next, rfl, ?_, rfl⟩
      rw [order, b.toList_rebalance, OrderedTree.toList_attachFirst, herase]
      rfl
    | some p =>
      have hp : p ∈ (b.remove s.root next).toList := by
        rw [herase]
        exact (List.mem_erase_of_ne fun heq => hsame (congrArg some heq)).mpr (hprevious p rfl)
      obtain ⟨front, back, hsplit, hattach⟩ := OrderedTree.toList_attachAfter next hp
      refine ⟨front ++ [p], back, ?_, ?_, List.getLast?_concat⟩
      · rw [← herase, hsplit, List.append_assoc]
        rfl
      · rw [order, b.toList_rebalance, hattach, List.append_assoc]
        rfl

theorem Moved.perm {previous : Option P} {next : P} {old new : List P}
    (h : Moved previous next old new) (hnext : next ∈ old) : new.Perm old := by
  rw [Moved] at h
  split at h
  · rw [h]
  · obtain ⟨front, back, herase, hnew, -⟩ := h
    rw [hnew]
    apply List.perm_middle.trans
    rw [← herase]
    exact (List.perm_cons_erase hnext).symm

/-- The list that stands for the tree in the playlists is moved in the same way. -/
theorem shuffleInsert_list {s : Tree P} (hs : s.order.Nodup) {previous : Option P} {next : P}
    (hprevious : ∀ p ∈ previous, p ∈ s.order) :
    (s.shuffleInsert b previous next).order = Pl.shuffleInsert s.order previous next := by
  have hmoved := shuffleInsert_moved b next hprevious
  rw [Moved] at hmoved
  rw [Pl.shuffleInsert]
  split at hmoved
  · rename_i hsame
    rw [if_pos hsame, hmoved]
  · rename_i hsame
    obtain ⟨front, back, herase, hnew, hlast⟩ := hmoved
    rw [if_neg hsame, hnew, herase]
    cases previous with
    | none =>
      rw [List.getLast?_eq_none_iff.mp hlast]
      rfl
    | some p =>
      obtain ⟨init, hinit⟩ := List.getLast?_eq_some_iff.mp hlast
      have hnodup : (front ++ back).Nodup := herase ▸ hs.erase next
      rw [hinit, List.append_assoc, List.singleton_append] at hnodup
      have hp := (List.nodup_middle.mp hnodup).notMem
      rw [hinit, List.append_assoc, List.append_assoc, List.singleton_append,
        List.singleton_append, Sequence.insertAfter_split next hp]

/-! ### Histories -/

theorem step_present {s s' : Tree P × List Nat} {op : Op P} {tracks : List P}
    (h : s.1.order.Perm tracks ∧ s.1.order.Nodup) (hstep : step b s op = some s') :
    s'.1.order.Perm (op.onTracks tracks) ∧ s'.1.order.Nodup := by
  obtain ⟨hperm, hnodup⟩ := h
  cases op with
  | add track =>
    rw [step] at hstep
    split at hstep
    · cases hstep
    · rename_i hfresh
      have hadd := shuffleListAdd_perm b hstep
      exact ⟨hadd.trans (hperm.cons track), hadd.nodup_iff.mpr (List.nodup_cons.mpr ⟨hfresh, hnodup⟩)⟩
  | remove track =>
    rw [step] at hstep
    split at hstep
    · have hs' := congrArg Prod.fst (Option.some.inj hstep)
      have herase : s'.1.order = s.1.order.erase track := by
        rw [← hs']
        exact b.toList_remove _ _
      rw [herase]
      exact ⟨hperm.erase track, hnodup.erase track⟩
    · cases hstep
  | insert previous next =>
    rw [step] at hstep
    split at hstep
    · rename_i hlinked
      have hs' := congrArg Prod.fst (Option.some.inj hstep)
      have hmove := (shuffleInsert_moved b next hlinked.2).perm hlinked.1
      rw [← hs']
      exact ⟨hmove.trans hperm, hmove.nodup_iff.mpr hnodup⟩
    · cases hstep
  | reshuffle =>
    have hre := shuffleListReshuffle_perm b hstep
    exact ⟨hre.trans hperm, hre.nodup_iff.mpr hnodup⟩

theorem run_present {rand : P → Nat} {draws : List Nat} {ops : List (Op P)}
    {s : Tree P × List Nat} (h : run b rand draws ops = some s) :
    s.1.order.Perm (present ops) ∧ s.1.order.Nodup := by
  have hrun : ∀ (ops : List (Op P)) (s₀ : Tree P × List Nat) (tracks : List P),
      s₀.1.order.Perm tracks ∧ s₀.1.order.Nodup → Runs.run (step b) s₀ ops = some s →
        s.1.order.Perm (ops.foldl Op.onTracks tracks) ∧ s.1.order.Nodup := by
    intro ops
    induction ops with
    | nil =>
      intro s₀ tracks h₀ hs
      cases hs
      exact h₀
    | cons op ops ih =>
      intro s₀ tracks h₀ hs
      obtain ⟨s₁, hstep, hrest⟩ := Option.bind_eq_some_iff.mp hs
      exact ih s₁ _ (step_present b h₀ hstep) hrest
  exact hrun ops (⟨.leaf, rand⟩, draws) [] ⟨List.Perm.refl _, List.nodup_nil⟩ h

/-! ### Walking -/

variable {o : Options} {passes : P → Bool} {s : Tree P × List Nat}

/-- With repeat, the second round finds a node where one passes. -/
theorem scan_found (hrepeat : o.repeats = true) (hauto : o.autoReshuffle = false)
    (nodes : List P → List P) (rounds : Nat) {rest : List P}
    (hfound : ((nodes s.1.order).find? passes).isSome = true) :
    scan b o passes nodes (rounds + 2) rest s =
      some ((rest.find? passes).or ((nodes s.1.order).find? passes), s) := by
  obtain ⟨track, htrack⟩ := Option.isSome_iff_exists.mp hfound
  have hkept : autoReshuffle b o s = some s := by
    rw [autoReshuffle, hauto]
    rfl
  rw [scan]
  cases hrest : rest.find? passes with
  | some t => rfl
  | none =>
    dsimp only
    rw [if_pos hrepeat, hkept, Option.bind_some, scan, htrack]
    rfl

/-- The node that a step forwards leads to. -/
def nextOf (passes : P → Bool) (order : List P) (cur : P) : Option P :=
  ((Sequence.behind order cur).find? passes).or (order.find? passes)

def prevOf (passes : P → Bool) (order : List P) (cur : P) : Option P :=
  ((Sequence.before order cur).reverse.find? passes).or (order.reverse.find? passes)

/-- A run of the operations leaves each track that was added and not removed once in the
tree; from there a move takes nothing but its track along, and the steps lead round. -/
theorem shuffle_order {rand : P → Nat} {draws : List Nat} {ops : List (Op P)}
    (h : run b rand draws ops = some s) :
    (s.1.order.Perm (present ops) ∧ s.1.order.Nodup) ∧
    (∀ previous next, (∀ p ∈ previous, p ∈ s.1.order) → next ∈ s.1.order →
      Moved previous next s.1.order (s.1.shuffleInsert b previous next).order) ∧
    (∀ o : Options, o.repeats = true → o.autoReshuffle = false →
      ∀ (passes : P → Bool) (cur : P), cur ∈ s.1.order → passes cur = true →
        ∃ next prev : P → Option P,
          (∀ t ∈ s.1.order, ∀ rounds,
            shuffleListGetNext b o passes (rounds + 2) (some t) s = some (next t, s) ∧
            shuffleListGetPrev b o passes (rounds + 2) (some t) s = some (prev t, s)) ∧
          (∃ visited : List P, visited.Perm (s.1.order.filter passes) ∧
            (∀ n (hn : n < visited.length), Sequence.walk next n cur = some visited[n]) ∧
            Sequence.walk next visited.length cur = some cur) ∧
          ∀ t ∈ s.1.order, passes t = true →
            (next t).bind prev = some t ∧ (prev t).bind next = some t) := by
  obtain ⟨hperm, hnodup⟩ := run_present b h
  refine ⟨⟨hperm, hnodup⟩, fun previous next hprevious _ =>
    shuffleInsert_moved b next hprevious, ?_⟩
  intro o hrepeat hauto passes cur hcur hpasses
  have hforward := Sequence.find_circular (p := passes) hnodup
  have hbackward := Sequence.find_circularBack (p := passes) hnodup
  refine ⟨nextOf passes s.1.order, prevOf passes s.1.order, ?_, ?_, ?_⟩
  · intro t _ rounds
    constructor
    · exact scan_found b hrepeat hauto id rounds (List.find?_isSome.mpr ⟨cur, hcur, hpasses⟩)
    · exact scan_found b hrepeat hauto List.reverse rounds
        (List.find?_isSome.mpr ⟨cur, List.mem_reverse.mpr hcur, hpasses⟩)
  · exact Sequence.circular_visits hforward (List.mem_filter.mpr ⟨hcur, hpasses⟩)
  · intro t ht htpasses
    exact Sequence.circular_inverse hforward hbackward (List.mem_filter.mpr ⟨ht, htpasses⟩)

/-- The second track meets the number of the first, and draws again. -/
def sampleOps : List (Op Nat) :=
  [.add 1, .add 2, .add 3, .insert (some 3) 1, .remove 2, .insert none 1, .add 4, .reshuffle]

theorem shuffle_order_example :
    ∃ s, run OrderedTree.Balancing.none (fun _ => 0) [5, 5, 3, 9, 4, 8, 2, 6] sampleOps = some s ∧
      s.1.order.Perm [4, 3, 1] ∧ s.1.order.Nodup := by
  obtain ⟨s, hs⟩ := Option.isSome_iff_exists.mp (show (run OrderedTree.Balancing.none (fun _ => 0)
    [5, 5, 3, 9, 4, 8, 2, 6] sampleOps).isSome = true by decide +kernel)
  exact ⟨s, hs, (shuffle_order OrderedTree.Balancing.none hs).1⟩

end GracefulMusic.Shuffle
