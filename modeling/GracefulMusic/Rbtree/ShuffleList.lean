import GracefulMusic.Playlist.Lists
import GracefulMusic.Rbtree.History
import GracefulMusic.Shuffle.Order

/-! Shuffle lists in memory (`track.c`).

A node has a random number that orders it when it is added; `shuffle_insert` moves nodes
without asking for it, so the tree is not sorted for long. A reshuffle has two trees in the
same memory, and moves the nodes from one to the other. -/
namespace GracefulMusic.Rbtree
open RedBlack (Color Side ColorTree Frame Context)
open RedBlack.ColorTree RedBlack.Context
open GracefulMusic.Shuffle (present)

variable {P : Type}

/-- Why there is no outcome: something is read through a null pointer or a loop does not end,
or there are no more values of `rand()`. -/
inductive Stop where
  | fault | draws

def orFault {α : Type} : Option α → Except Stop α
  | some a => .ok a
  | none => .error .fault

structure ShuffleState (P : Type) where
  memory : Memory P
  rand : P → Nat

namespace Memory

/-- The tree that another root points to. -/
def withRoot (m : Memory P) (root : Option P) : Memory P := {m with root}

/-- The loop of `shuffle_insert`: to the left from the place `cur`, which was read from `link`. -/
def leftmost (m : Memory P) : Nat → Option (P × Side) → Option P → Option (Option (P × Side))
  | 0, _, _ => none
  | rounds + 1, link, cur =>
    match cur with
    | none => some link
    | some p => leftmost m rounds (some (p, .left)) (m.child p .left)

variable [DecidableEq P]

def shuffleInsert (rounds : Nat) (previous : Option P) (next : P) (m : Memory P) :
    Option (Memory P) :=
  if previous = some next then some m
  else do
    let m ← m.rbErase rounds next
    let link ← match previous with
      | some p => m.leftmost rounds (some (p, .right)) (m.child p .right)
      | none => m.leftmost rounds none m.root
    (m.rbLinkNode next link).rbInsertColor rounds next

end Memory

def compareRand (rand : P → Nat) (x y : P) : Int :=
  if rand x < rand y then -1 else if rand x > rand y then 1 else 0

variable [DecidableEq P]

namespace ShuffleState

/-- A track whose number is there already gets another one. -/
def shuffleListAdd (rounds : Nat) (track : P) :
    List Nat → ShuffleState P → Except Stop (ShuffleState P × List Nat)
  | [], _ => .error .draws
  | r :: draws, s =>
    let rand := Function.update s.rand track r
    match s.memory.rbInsert rounds (compareRand rand track) track with
    | none => .error .fault
    | some (some _, memory) => shuffleListAdd rounds track draws ⟨memory, rand⟩
    | some (none, memory) => .ok (⟨memory, rand⟩, draws)

/-- The loop of a reshuffle: `tmptree` is the root of the other tree. The next node is looked
up before the body is run. -/
def reshuffleLoop (rounds : Nat) : Nat → Option P → Option P → ShuffleState P → List Nat →
    Except Stop (ShuffleState P × Option P × List Nat)
  | 0, _, _, _, _ => .error .fault
  | _ + 1, none, tmptree, s, draws => .ok (s, tmptree, draws)
  | loops + 1, some track, tmptree, s, draws => do
    let tmp ← orFault (s.memory.rbNext rounds track)
    let m ← orFault (s.memory.rbErase rounds track)
    let (s, draws) ← shuffleListAdd rounds track draws ⟨m.withRoot tmptree, s.rand⟩
    reshuffleLoop rounds loops tmp s.memory.root ⟨s.memory.withRoot m.root, s.rand⟩ draws

def shuffleListReshuffle (rounds : Nat) (s : ShuffleState P) (draws : List Nat) :
    Except Stop (ShuffleState P × List Nat) := do
  let first ← orFault (s.memory.rbFirst rounds)
  let (s, tmptree, draws) ← reshuffleLoop rounds rounds first none s draws
  .ok (⟨s.memory.withRoot tmptree, s.rand⟩, draws)

def step (rounds : Nat) (s : ShuffleState P × List Nat) :
    Shuffle.Op P → Except Stop (ShuffleState P × List Nat)
  | .add track => s.1.shuffleListAdd rounds track s.2
  | .remove track => do
    let memory ← orFault (s.1.memory.rbErase rounds track)
    .ok ({ s.1 with memory }, s.2)
  | .insert previous next => do
    let memory ← orFault (s.1.memory.shuffleInsert rounds previous next)
    .ok ({ s.1 with memory }, s.2)
  | .reshuffle => s.1.shuffleListReshuffle rounds s.2

def run (rounds : Nat) (s : ShuffleState P × List Nat) (ops : List (Shuffle.Op P)) :
    Except Stop (ShuffleState P × List Nat) := ops.foldlM (step rounds) s

end ShuffleState

/-- A track is added once, and tracks that are named are there. -/
def LegalAt (tracks : List P) : Shuffle.Op P → Prop
  | .add track => track ∉ tracks
  | .remove track => track ∈ tracks
  | .insert previous next => next ∈ tracks ∧ ∀ p ∈ previous, p ∈ tracks
  | .reshuffle => True

/-- What an operation does to the order of the tracks; `rand` are the numbers after it. -/
def Effect (rand : P → Nat) (old new : List P) : Shuffle.Op P → Prop
  | .add track => ∃ front back, old = front ++ back ∧ new = front ++ track :: back
  | .remove track => new = old.erase track
  | .insert previous next => new = Pl.shuffleInsert old previous next
  | .reshuffle => new.Perm old ∧ Sorted rand new

/-! ### One operation -/

variable {m : Memory P} {s : Side} {c : Color} {a b t : ColorTree P} {k v x : P} {p : Context P}
  {l : List P} {rounds : Nat}

omit [DecidableEq P] in
theorem Memory.Stores.congr {m' : Memory P} (h : m.Stores t) (hroot : m'.root = m.root)
    (hnode : ∀ q ∈ t.toList, m'.node q = m.node q) : m'.Stores t :=
  ⟨h.1.congr hroot (fun q hq => hnode q (hq.resolve_right (notMem_hole q))) fun _ _ _ => rfl, h.2⟩

omit [DecidableEq P] in
theorem Memory.Stores.nodup (h : m.Stores t) : t.toList.Nodup := by
  simpa [keys, before, after] using h.1.nodup

omit [DecidableEq P] in
/-- Going to the left is a search that always goes there. -/
theorem leftmost_search (m : Memory P) (rounds : Nat) (link : Option (P × Side))
    (cur : Option P) : (m.leftmost rounds link cur).map Memory.Place.free =
      m.search (fun _ => -1) rounds link cur := by
  induction rounds generalizing link cur with
  | zero => rfl
  | succ rounds ih =>
    cases cur with
    | none => rfl
    | some p => exact ih _ _

omit [DecidableEq P] in
theorem toList_attachLeft (x : P) (t : OrderedTree P) :
    (t.attach (fun _ => -1) x).toList = x :: t.toList := by
  induction t with
  | leaf => rfl
  | node left key right hl _ =>
    rw [OrderedTree.attach, if_pos (by decide)]
    simp [OrderedTree.toList, hl]

omit [DecidableEq P] in
theorem leftmost_at (h : At m.node m t p) (hrounds : t.height < rounds) :
    ∃ p', At m.node m .leaf p' ∧ plug .leaf p' = plug t p ∧
      m.leftmost rounds (linkOf p) (ptr t) = some (linkOf p') ∧
      ∀ x, before p' ++ x :: after p' = before p ++ x :: t.toList ++ after p := by
  rcases search_at (fun _ => -1) h hrounds with ⟨k, hk, -⟩ | ⟨-, p', hp', hplug, hsearch, hlist⟩
  · exact absurd (OrderedTree.locate_mem hk).2 (by decide)
  · refine ⟨p', hp', hplug, ?_, fun x => ?_⟩
    · rw [← leftmost_search] at hsearch
      obtain ⟨link, hlink, hfree⟩ := Option.map_eq_some_iff.mp hsearch
      rw [hlink, Memory.Place.free.inj hfree]
    · rw [hlist x, toList_attachLeft, toList_shape]

/-- `shuffle_insert` moves a node right behind another one, or to the front. -/
theorem shuffleInsert_stores {previous : Option P} {next : P} (hm : m.Stores t)
    (hnext : next ∈ t.toList) (hprevious : ∀ p ∈ previous, p ∈ t.toList)
    (hrounds : 2 * Nat.log 2 (t.toList.length + 1) < rounds) :
    ∃ m' t', m.shuffleInsert rounds previous next = some m' ∧ m'.Stores t' ∧
      t'.toList = Pl.shuffleInsert t.toList previous next := by
  rw [Memory.shuffleInsert, Pl.shuffleInsert]
  by_cases hsame : previous = some next
  · exact ⟨m, t, if_pos hsame, hm, (if_pos hsame).symm⟩
  rw [if_neg hsame, if_neg hsame]
  obtain ⟨m₁, t₁, herase, hm₁, hlist₁, -⟩ := rbErase_stores hm hnext hrounds
  have hout : next ∉ t₁.toList := by
    rw [hlist₁]
    exact hm.nodup.not_mem_erase
  have hheight : t₁.height < rounds := by
    refine lt_of_le_of_lt hm₁.2.height_le (lt_of_le_of_lt ?_ hrounds)
    refine Nat.mul_le_mul_left 2 (Nat.log_mono_right (Nat.succ_le_succ ?_))
    rw [hlist₁]
    exact List.length_erase_le
  rw [← hlist₁]
  obtain ⟨h₁, hb₁⟩ := hm₁
  simp only [bind, herase, Option.bind_some]
  cases previous with
  | none =>
    obtain ⟨p', hp', hplug, hleft, hlist⟩ := leftmost_at h₁ hheight
    rw [plug_nil] at hplug
    have hlength := length_le_height .leaf p'
    rw [hplug] at hlength
    obtain ⟨m', t', hrun, hm', hlist', -⟩ := rbLinkNode_stores hp' (hplug ▸ hb₁)
      (fun hmem => hout (hplug ▸ mem_plug.mpr (.inr hmem))) (by omega : p'.length < rounds)
    refine ⟨m', t', ?_, hm', ?_⟩
    · have hleft : m₁.leftmost rounds none m₁.root = some (linkOf p') := h₁.root ▸ hleft
      simp only [hleft, Option.bind_some, hrun]
    · rw [hlist', hlist]
      simp [before, after, Sequence.insertAfter]
  | some q =>
    have hq : q ∈ t₁.toList := by
      rw [hlist₁]
      exact (List.mem_erase_of_ne fun heq => hsame (congrArg some heq)).mpr (hprevious q rfl)
    have hnodup : t₁.toList.Nodup := hlist₁ ▸ hm.nodup.erase next
    obtain ⟨c, l, r, p, rfl⟩ := exists_path hq
    have hfar := at_far.mp (at_plug.mpr h₁)
    have hheights := length_le_height (build .left c l q r) p
    have hr : r.height < rounds := by
      have hstep : r.height < (build .left c l q r).height := by
        simp only [build, height]
        omega
      omega
    obtain ⟨p', hp', hplug, hleft, hlist⟩ := leftmost_at hfar hr
    have hwhole : plug .leaf p' = plug (build .left c l q r) p := hplug
    have hlength := length_le_height .leaf p'
    rw [hwhole] at hlength
    obtain ⟨m', t', hrun, hm', hlist', -⟩ := rbLinkNode_stores hp' (hwhole ▸ hb₁)
      (fun hmem => hout (hwhole ▸ mem_plug.mpr (.inr hmem))) (by omega : p'.length < rounds)
    refine ⟨m', t', ?_, hm', ?_⟩
    · have hchild : m₁.child q .right = ptr r := (at_plug.mpr h₁).far
      have hleft : m₁.leftmost rounds (some (q, .right)) (m₁.child q .right) =
          some (linkOf p') := hchild ▸ hleft
      simp only [hleft, Option.bind_some, hrun]
    · have hsplit : (plug (build .left c l q r) p).toList =
          (before p ++ l.toList) ++ q :: (r.toList ++ after p) := by
        rw [toList_plug]
        simp [build, toList]
      rw [hsplit] at hnodup ⊢
      rw [Sequence.insertAfter_split next (List.nodup_middle.mp hnodup).notMem, hlist', hlist]
      simp [before, after, Side.other]

/-- There is an outcome that is as said, or there are too few numbers. -/
def Yields {α : Type} (r : Except Stop α) (Q : α → Prop) : Prop :=
  (∃ a, r = .ok a ∧ Q a) ∨ r = .error .draws

omit [DecidableEq P] in
theorem compares_rand (rand : P → Nat) : Compares rand (compareRand rand) := by
  intro x y
  unfold compareRand
  split
  · omega
  · split <;> omega

omit [DecidableEq P] in
theorem Sorted.congr {rand rand' : P → Nat} (h : ∀ q ∈ l, rand' q = rand q) (hs : Sorted rand l) :
    Sorted rand' l :=
  hs.imp_of_mem fun hx hy hlt => by rwa [h _ hx, h _ hy]

theorem rbInsert_found {m' : Memory P} {probe : P → Int}
    (h : m.rbInsert rounds probe x = some (some k, m')) : m' = m := by
  obtain ⟨place, -, h⟩ := Option.bind_eq_some_iff.mp h
  cases place with
  | taken => cases h; rfl
  | free link =>
    obtain ⟨_, -, h⟩ := Option.bind_eq_some_iff.mp h
    cases h

/-- A track comes to some place; in a tree that is sorted by the numbers, to its own. -/
theorem shuffleListAdd_yields {s : ShuffleState P} (draws : List Nat) (hm : s.memory.Stores t)
    (hx : x ∉ t.toList) (hrounds : 2 * Nat.log 2 (t.toList.length + 1) < rounds) :
    Yields (s.shuffleListAdd rounds x draws) fun r => ∃ t' front back, r.1.memory.Stores t' ∧
      t.toList = front ++ back ∧ t'.toList = front ++ x :: back ∧
      (Sorted s.rand t.toList → Sorted r.1.rand t'.toList) ∧
      ∀ q ∉ t'.toList, r.1.memory.node q = s.memory.node q := by
  induction draws generalizing s with
  | nil => exact .inr rfl
  | cons r draws ih =>
    let rand := Function.update s.rand x r
    have hrand : ∀ q ∈ t.toList, rand q = s.rand q := fun q hq =>
      Function.update_of_ne (fun (heq : q = x) => hx (heq ▸ hq)) ..
    obtain ⟨m', t', hrun, hm', hlist, hframe⟩ :=
      rbInsert_stores (compareRand rand x) hm hx hrounds
    have hfirst := hrun
    rw [ShuffleState.shuffleListAdd, hfirst]
    cases hloc : t.shape.locate (compareRand rand x) with
    | some k =>
      rw [attach_of_locate hloc, toList_shape] at hlist
      rw [hloc] at hrun
      have hsame : m' = s.memory := rbInsert_found hrun
      rcases ih (s := ⟨m', rand⟩) (hsame ▸ hm) with ⟨a, ha, t'', front, back, h⟩ | hnone
      · refine .inl ⟨a, ha, t'', front, back, h.1, h.2.1, h.2.2.1, fun hs => ?_, fun q hq => ?_⟩
        · exact h.2.2.2.1 (hs.congr hrand)
        · rw [h.2.2.2.2 q hq, hsame]
      · exact .inr hnone
    | none =>
      obtain ⟨front, back, hsplit, hattach, -, -⟩ := OrderedTree.attach_split x hloc
      refine .inl ⟨_, rfl, t', front, back, hm', toList_shape t ▸ hsplit, hlist.trans hattach,
        fun hs => ?_, hframe⟩
      have hs' : Sorted rand t.toList := hs.congr hrand
      rw [hlist, toList_attach (compares_rand rand) hs' x]
      exact hs'.onList hx

/-- The loop of a reshuffle moves what is left of the tree over to the other one. -/
theorem reshuffleLoop_yields {s : ShuffleState P} {u : ColorTree P} {loops : Nat}
    (tmptree : Option P) (draws : List Nat) (hm : s.memory.Stores t)
    (hu : (s.memory.withRoot tmptree).Stores u) (hdisjoint : ∀ q ∈ t.toList, q ∉ u.toList)
    (hs : Sorted s.rand u.toList) (hloops : t.toList.length < loops)
    (hrounds : t.toList.length + u.toList.length < rounds)
    (hlog : 2 * Nat.log 2 (t.toList.length + u.toList.length + 1) < rounds) :
    Yields (s.reshuffleLoop rounds loops t.toList.head? tmptree draws) fun r =>
      ∃ u', (r.1.memory.withRoot r.2.1).Stores u' ∧ u'.toList.Perm (t.toList ++ u.toList) ∧
        Sorted r.1.rand u'.toList := by
  induction loops generalizing s t u tmptree draws with
  | zero => omega
  | succ loops ih =>
    cases hlist : t.toList with
    | nil => exact .inl ⟨_, rfl, u, hu, .refl _, hs⟩
    | cons x rest =>
      have hx : x ∈ t.toList := hlist ▸ .head _
      obtain ⟨-, -, hwalk⟩ := rbForEach_visits hm (by omega : t.toList.length < rounds)
      obtain ⟨hnext, -⟩ := hwalk [] x rest hlist
      have hlog₁ : 2 * Nat.log 2 (t.toList.length + 1) < rounds :=
        lt_of_le_of_lt (Nat.mul_le_mul_left 2 (Nat.log_mono_right (by omega))) hlog
      obtain ⟨m₁, t₁, herase, hm₁, hlist₁, hframe₁⟩ := rbErase_stores hm hx hlog₁
      rw [hlist, List.erase_cons_head] at hlist₁
      have hnodup := hm.nodup
      rw [hlist] at hnodup hdisjoint hloops hrounds hlog
      simp only [List.length_cons] at hloops hrounds hlog
      have hu₁ : (m₁.withRoot tmptree).Stores u :=
        hu.congr rfl fun q hq => hframe₁ q fun hmem => hdisjoint q (hlist ▸ hmem) hq
      have hlog₂ : 2 * Nat.log 2 (u.toList.length + 1) < rounds :=
        lt_of_le_of_lt (Nat.mul_le_mul_left 2 (Nat.log_mono_right (by omega))) hlog
      simp only [List.head?_cons, ShuffleState.reshuffleLoop, hnext, herase, orFault, bind,
        Except.bind]
      rcases shuffleListAdd_yields (s := ⟨m₁.withRoot tmptree, s.rand⟩) draws hu₁
          (hdisjoint x (.head _)) hlog₂ with
        ⟨a, ha, u₂, front, back, hu₂, hsplit, hlist₂, hs₂, hframe₂⟩ | hstop
      · have hperm : u₂.toList.Perm (x :: u.toList) := by
          rw [hlist₂, hsplit]
          exact List.perm_middle
        have hm₂ : (a.1.memory.withRoot m₁.root).Stores t₁ := by
          refine hm₁.congr rfl fun q hq => hframe₂ q fun hmem => ?_
          rw [hlist₁] at hq
          rcases List.mem_cons.mp (hperm.mem_iff.mp hmem) with rfl | hmem
          · exact (List.nodup_cons.mp hnodup).1 hq
          · exact hdisjoint q (.tail _ hq) hmem
        have hlength := hperm.length_eq
        simp only [List.length_cons] at hlength
        have hrest := ih (s := ⟨a.1.memory.withRoot m₁.root, a.1.rand⟩) (u := u₂)
          a.1.memory.root a.2 hm₂ (hu₂.congr rfl fun _ _ => rfl) ?_ (hs₂ hs)
          (by rw [hlist₁]; omega) (by rw [hlist₁, hlength]; omega)
          (by rw [hlist₁, hlength]; convert hlog using 4; omega)
        · rw [hlist₁] at hrest
          rw [ha]
          rcases hrest with ⟨b, hb, u', hu', hperm', hs'⟩ | hstop
          · refine .inl ⟨b, hb, u', hu', hperm'.trans ?_, hs'⟩
            exact (hperm.append_left rest).trans List.perm_middle
          · exact .inr hstop
        · intro q hq hmem
          rw [hlist₁] at hq
          rcases List.mem_cons.mp (hperm.mem_iff.mp hmem) with rfl | hmem
          · exact (List.nodup_cons.mp hnodup).1 hq
          · exact hdisjoint q (.tail _ hq) hmem
      · rw [hstop]
        exact .inr rfl

theorem shuffleListReshuffle_yields {s : ShuffleState P} (draws : List Nat)
    (hm : s.memory.Stores t) (hrounds : t.toList.length < rounds)
    (hlog : 2 * Nat.log 2 (t.toList.length + 1) < rounds) :
    Yields (s.shuffleListReshuffle rounds draws) fun r => ∃ t', r.1.memory.Stores t' ∧
      t'.toList.Perm t.toList ∧ Sorted r.1.rand t'.toList := by
  have hfirst : s.memory.rbFirst rounds = some t.toList.head? :=
    rbEnd_head (s := .right) hm.1 (lt_of_le_of_lt hm.2.height_le hlog)
  have hempty : (s.memory.withRoot none).Stores .leaf :=
    ⟨⟨trivial, rfl, .nil, fun _ _ _ => rfl⟩, rfl, 0, .leaf⟩
  rw [ShuffleState.shuffleListReshuffle, hfirst]
  rcases reshuffleLoop_yields none draws hm hempty (fun q _ => notMem_leaf q) .nil hrounds
    (by simpa [toList] using hrounds) (by simpa [toList] using hlog) with
    ⟨a, ha, u, hu, hperm, hs⟩ | hstop
  · refine .inl ⟨(⟨a.1.memory.withRoot a.2.1, a.1.rand⟩, a.2.2), ?_, u, hu,
      by simpa [toList] using hperm, hs⟩
    simp only [orFault, bind, Except.bind, ha]
  · refine .inr ?_
    simp only [orFault, bind, Except.bind, hstop]

/-! ### Histories -/

theorem log_le (n : Nat) : 2 * Nat.log 2 (n + 1) ≤ n + 1 := by
  have hpow : ∀ e, 2 * e ≤ 2 ^ e := fun e => by
    induction e with
    | zero => omega
    | succ e ih =>
      have hpos : 0 < 2 ^ e := Nat.two_pow_pos e
      rw [pow_succ]
      cases e with
      | zero => decide
      | succ e => omega
  exact (hpow _).trans (Nat.pow_log_le_self 2 (by omega))

/-- One operation on a tree, from any order of its nodes. -/
theorem step_yields {s : ShuffleState P × List Nat} {op : Shuffle.Op P}
    (hm : s.1.memory.Stores t) (hlegal : LegalAt t.toList op)
    (hrounds : t.toList.length + 1 < rounds) :
    Yields (ShuffleState.step rounds s op) fun r => ∃ t', r.1.memory.Stores t' ∧
      Effect r.1.rand t.toList t'.toList op := by
  have hlog : 2 * Nat.log 2 (t.toList.length + 1) < rounds := lt_of_le_of_lt (log_le _) hrounds
  cases op with
  | add track =>
    rcases shuffleListAdd_yields s.2 hm hlegal hlog with
      ⟨a, ha, t', front, back, hm', hsplit, hlist, -⟩ | hstop
    · exact .inl ⟨a, ha, t', hm', front, back, hsplit, hlist⟩
    · exact .inr hstop
  | remove track =>
    obtain ⟨m', t', hrun, hm', hlist, -⟩ := rbErase_stores hm hlegal hlog
    refine .inl ⟨(⟨m', s.1.rand⟩, s.2), ?_, t', hm', hlist⟩
    simp only [ShuffleState.step, hrun, orFault, bind, Except.bind]
  | insert previous next =>
    obtain ⟨m', t', hrun, hm', hlist⟩ := shuffleInsert_stores hm hlegal.1 hlegal.2 hlog
    refine .inl ⟨(⟨m', s.1.rand⟩, s.2), ?_, t', hm', hlist⟩
    simp only [ShuffleState.step, hrun, orFault, bind, Except.bind]
  | reshuffle =>
    rcases shuffleListReshuffle_yields s.2 hm (by omega) hlog with ⟨a, ha, t', hm', h⟩ | hstop
    · exact .inl ⟨a, ha, t', hm', h⟩
    · exact .inr hstop

/-- The history is legal for the tracks that are there. -/
def LegalHistory : List (Shuffle.Op P) → List P → Prop
  | [], _ => True
  | op :: ops, tracks => LegalAt tracks op ∧ LegalHistory ops (op.onTracks tracks)

omit [DecidableEq P] in
theorem LegalAt.perm {tracks tracks' : List P} {op : Shuffle.Op P} (h : tracks.Perm tracks')
    (hlegal : LegalAt tracks op) : LegalAt tracks' op := by
  cases op with
  | add track => exact fun hmem => hlegal (h.mem_iff.mpr hmem)
  | remove track => exact h.mem_iff.mp hlegal
  | insert previous next =>
    exact ⟨h.mem_iff.mp hlegal.1, fun p hp => h.mem_iff.mp (hlegal.2 p hp)⟩
  | reshuffle => trivial

theorem Effect.perm {rand : P → Nat} {old new tracks : List P} {op : Shuffle.Op P}
    (h : Effect rand old new op) (hold : old.Perm tracks) (hnodup : old.Nodup)
    (hlegal : LegalAt old op) : new.Perm (op.onTracks tracks) := by
  cases op with
  | add track =>
    obtain ⟨front, back, rfl, rfl⟩ := h
    exact List.perm_middle.trans (.cons track hold)
  | remove track =>
    obtain rfl := h
    exact hold.erase track
  | insert previous next =>
    obtain rfl := h
    exact (Pl.shuffleInsert_perm hnodup hlegal.1 hlegal.2).trans hold
  | reshuffle => exact h.1.trans hold

theorem length_onTracks (op : Shuffle.Op P) (tracks : List P) :
    (op.onTracks tracks).length ≤ tracks.length + 1 := by
  cases op with
  | add track => exact Nat.le_refl _
  | remove track => exact List.length_erase_le.trans (Nat.le_succ _)
  | insert | reshuffle => exact Nat.le_succ _

theorem length_history (ops : List (Shuffle.Op P)) (tracks : List P) :
    (ops.foldl Shuffle.Op.onTracks tracks).length ≤ tracks.length + ops.length := by
  induction ops generalizing tracks with
  | nil => exact Nat.le_refl _
  | cons op ops ih =>
    have hrest := ih (op.onTracks tracks)
    have hop := length_onTracks op tracks
    rw [List.foldl_cons, List.length_cons]
    omega

theorem run_yields {s : ShuffleState P × List Nat} {ops : List (Shuffle.Op P)} {tracks : List P}
    (hm : s.1.memory.Stores t) (hperm : t.toList.Perm tracks) (hlegal : LegalHistory ops tracks)
    (hrounds : tracks.length + ops.length + 1 < rounds) :
    Yields (ShuffleState.run rounds s ops) fun r => ∃ t', r.1.memory.Stores t' ∧
      t'.toList.Perm (ops.foldl Shuffle.Op.onTracks tracks) := by
  induction ops generalizing s t tracks with
  | nil => exact .inl ⟨s, rfl, t, hm, hperm⟩
  | cons op ops ih =>
    obtain ⟨hop, hlegal⟩ := hlegal
    simp only [List.length_cons] at hrounds
    have hlength := hperm.length_eq
    have hop' := hop.perm hperm.symm
    have hafter := length_onTracks op tracks
    rw [ShuffleState.run, List.foldlM_cons]
    rcases step_yields hm hop' (by omega : t.toList.length + 1 < rounds) with
      ⟨s₁, hstep, t₁, hm₁, heffect⟩ | hstop
    · have hperm₁ := heffect.perm hperm hm.nodup hop'
      rcases ih hm₁ hperm₁ hlegal (by omega) with ⟨r, hrun, h⟩ | hstop
      · refine .inl ⟨r, ?_, h⟩
        simp only [hstep, bind, Except.bind]
        exact hrun
      · refine .inr ?_
        simp only [hstep, bind, Except.bind]
        exact hstop
    · refine .inr ?_
      simp only [hstop, bind, Except.bind]

/-- From an empty tree on, in memory with anything in it: a history of additions, removals,
insertions and reshuffles is stopped by nothing but a lack of numbers. The tree is balanced
and has the tracks that were added and not removed, each once; the loop over it sees them in
its order, and every further operation changes that order as it should. -/
theorem shuffleList_history (m : Memory P) (hroot : m.root = none) (rand : P → Nat)
    (draws : List Nat) (ops : List (Shuffle.Op P)) (hlegal : LegalHistory ops []) (rounds : Nat)
    (hrounds : ops.length + 1 < rounds) :
    Yields (ShuffleState.run rounds (⟨m, rand⟩, draws) ops) fun s => ∃ t, s.1.memory.Stores t ∧
      t.toList.Perm (present ops) ∧ s.1.memory.rbForEach rounds = some t.toList ∧
      ∀ op, LegalAt (present ops) op → Yields (ShuffleState.step rounds s op) fun s' =>
        ∃ t', s'.1.memory.Stores t' ∧ Effect s'.1.rand t.toList t'.toList op := by
  have hempty : m.Stores .leaf := ⟨⟨trivial, hroot, .nil, fun _ _ _ => rfl⟩, rfl, 0, .leaf⟩
  have hlength : (present ops).length ≤ ops.length :=
    (length_history ops []).trans_eq (Nat.zero_add _)
  rcases run_yields (s := (⟨m, rand⟩, draws)) hempty (.refl _) hlegal
    (by simpa [toList] using hrounds) with ⟨s, hrun, t, hm, hperm⟩ | hstop
  · have hcount : t.toList.length ≤ ops.length := hperm.length_eq.trans_le hlength
    refine .inl ⟨s, hrun, t, hm, hperm, (rbForEach_visits hm (by omega)).1, fun op hop => ?_⟩
    exact step_yields hm (hop.perm hperm.symm) (by omega)
  · exact .inr hstop

/-- Two tracks draw the same number, and one is moved to the front. -/
def drawnOps : List (Shuffle.Op Nat) :=
  [.add 0, .add 1, .add 2, .insert none 2, .reshuffle, .remove 0]

theorem shuffleList_drawn :
    Yields (ShuffleState.run 8 (⟨noNodes, id⟩, [5, 5, 3, 9, 1, 8, 2]) drawnOps) fun s =>
      ∃ t, s.1.memory.Stores t ∧ t.toList.Perm [2, 1] ∧
        s.1.memory.rbForEach 8 = some t.toList := by
  have hlegal : LegalHistory drawnOps [] := by
    refine ⟨?_, ?_, ?_, ?_, trivial, ?_, trivial⟩
    exacts [(by decide : 0 ∉ ([] : List Nat)), (by decide : 1 ∉ [0]), (by decide : 2 ∉ [1, 0]),
      ⟨(by decide : 2 ∈ [2, 1, 0]), by decide⟩, (by decide : 0 ∈ [2, 1, 0])]
  rcases shuffleList_history noNodes rfl id [5, 5, 3, 9, 1, 8, 2] drawnOps hlegal 8 (by decide) with
    ⟨s, hrun, t, hm, hperm, hall, -⟩ | hstop
  · exact .inl ⟨s, hrun, t, hm, hperm, hall⟩
  · exact .inr hstop

end GracefulMusic.Rbtree
