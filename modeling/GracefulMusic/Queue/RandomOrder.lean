import GracefulMusic.Foundation.Sequence
import GracefulMusic.Queue.RandArray
import GracefulMusic.Text

/-! Random tracks and albums for the queue (`command_mode.c`, `track.c`).

The nodes that are put in a random order are known by their numbers, in the order in which they
are allocated. -/
namespace GracefulMusic.RandomQueue

/-! ### A random order -/

section List
variable {α : Type} [DecidableEq α]

/-- `item->next`, where `none` is the head. -/
def next (l : List α) : Option α → Option α
  | none => l.head?
  | some a => Sequence.after l a

def prev (l : List α) : Option α → Option α
  | none => l.getLast?
  | some a => (Sequence.before l a).getLast?

/-- With a number of `rand`; `nr` is the length of the list. -/
def listAddRand (l : List α) (node : α) (nr rand : Nat) : List α :=
  let pos := rand % (nr + 1)
  if pos ≤ nr / 2 then Sequence.insertAfter node ((next l)^[pos] none) l
  else Sequence.insertBefore node ((prev l)^[nr - pos] none) l

omit [DecidableEq α] in
theorem split_at {l : List α} {k : Nat} (hk : k < l.length) :
    ∃ front a back, l = front ++ a :: back ∧ front.length = k := by
  refine ⟨l.take k, l[k], l.drop (k + 1), ?_, List.length_take_of_le hk.le⟩
  rw [List.getElem_cons_drop, List.take_append_drop]

theorem next_split {a : α} {front back : List α} (hl : (front ++ a :: back).Nodup) :
    next (front ++ a :: back) (some a) = back.head? :=
  Sequence.after_split back fun h =>
    (List.nodup_middle.mp hl).notMem (List.mem_append_left _ h)

theorem prev_split {a : α} {front back : List α} (hl : (front ++ a :: back).Nodup) :
    prev (front ++ a :: back) (some a) = front.getLast? :=
  congrArg List.getLast? (Sequence.takeWhile_split back fun h =>
    (List.nodup_middle.mp hl).notMem (List.mem_append_left _ h))

theorem iterate_next {l : List α} (hl : l.Nodup) {k : Nat} (hk : k ≤ l.length) :
    (next l)^[k] none = (l.take k).getLast? := by
  induction k with
  | zero => simp
  | succ k ih =>
    rw [Function.iterate_succ_apply', ih (by omega)]
    cases k with
    | zero => cases l <;> simp [next]
    | succ k =>
      obtain ⟨front, a, back, rfl, rfl⟩ := split_at (l := l) (k := k) (by omega)
      have hlast : ((front ++ a :: back).take (front.length + 1)).getLast? = some a := by
        simp [List.take_append]
      rw [hlast, next_split hl]
      cases back with
      | nil =>
        rw [List.length_append, List.length_singleton] at hk
        omega
      | cons b back =>
        have htake : (front ++ a :: b :: back).take (front.length + 1 + 1) = front ++ [a, b] := by
          rw [show front.length + 1 + 1 = front.length + 2 by omega, List.take_length_add_append]
          rfl
        rw [htake]
        simp

theorem iterate_prev {l : List α} (hl : l.Nodup) {k : Nat} (hk : k ≤ l.length) :
    (prev l)^[k] none = (l.drop (l.length - k)).head? := by
  induction k with
  | zero => simp
  | succ k ih =>
    rw [Function.iterate_succ_apply', ih (by omega)]
    cases k with
    | zero => simp [prev, List.getLast?_eq_getElem?]
    | succ k =>
      obtain ⟨front, a, back, rfl, hfront⟩ :=
        split_at (l := l) (k := l.length - (k + 1)) (by omega)
      rw [← hfront, List.drop_left, List.head?_cons, prev_split hl]
      have hk' : (front ++ a :: back).length - (k + 1 + 1) = front.length - 1 := by omega
      have hpos : front.length - 1 < front.length := by omega
      rw [hk', List.drop_append_of_le_length hpos.le, List.head?_append_of_ne_nil,
        List.head?_drop, List.getLast?_eq_getElem?]
      simpa using hpos

/-- From both ends the node comes to the same place. -/
theorem listAddRand_eq {l : List α} (hl : l.Nodup) (node : α) (rand : Nat) :
    listAddRand l node l.length rand =
      l.take (rand % (l.length + 1)) ++ node :: l.drop (rand % (l.length + 1)) := by
  have hpos : rand % (l.length + 1) ≤ l.length := Nat.le_of_lt_succ (Nat.mod_lt _ (by omega))
  rw [listAddRand]
  generalize rand % (l.length + 1) = pos at hpos ⊢
  have hsplit := List.take_append_drop pos l
  split
  · rw [iterate_next hl hpos]
    cases hlast : (l.take pos).getLast? with
    | none =>
      rw [List.getLast?_eq_none_iff.mp hlast] at hsplit ⊢
      rw [List.nil_append] at hsplit
      rw [hsplit]
      rfl
    | some a =>
      obtain ⟨front, hfront⟩ := List.getLast?_eq_some_iff.mp hlast
      have hl' : l = front ++ a :: l.drop pos := by
        conv_lhs => rw [← hsplit, hfront]
        simp
      rw [hfront, List.append_assoc, List.singleton_append]
      conv_lhs => rw [hl']
      apply Sequence.insertAfter_split
      rw [hl'] at hl
      exact (List.nodup_middle.mp hl).notMem
  · have hback : l.length - (l.length - pos) = pos := by omega
    rw [iterate_prev hl (by omega), hback]
    conv_lhs => rw [← hsplit]
    rw [List.take_append_drop]
    have hnodup : (l.take pos ++ l.drop pos).Nodup := by rwa [hsplit]
    have h := Sequence.insertBefore_split node hnodup
    rwa [hsplit] at h

end List

/-- The nodes from `i` on are put into the list, each with its number of `rand`. -/
def addAll : List Nat → Nat → List Nat → List Nat
  | [], _, l => l
  | x :: rands, i, l => addAll rands (i + 1) (listAddRand l i i x)

theorem addAll_concat (rands : List Nat) (x i : Nat) (l : List Nat) :
    addAll (rands ++ [x]) i l =
      listAddRand (addAll rands i l) (i + rands.length) (i + rands.length) x := by
  induction rands generalizing i l with
  | nil => rfl
  | cons y rands ih =>
    rw [List.cons_append, addAll, ih, addAll, List.length_cons]
    congr 1 <;> omega

theorem range_perm_facts {n : Nat} {l : List Nat} (h : l.Perm (List.range n)) :
    l.Nodup ∧ l.length = n ∧ n ∉ l :=
  ⟨h.nodup_iff.mpr List.nodup_range, h.length_eq.trans List.length_range, fun hn =>
    absurd (List.mem_range.mp (h.subset hn)) (lt_irrefl n)⟩

theorem listAddRand_range {n : Nat} {l : List Nat} (h : l.Perm (List.range n)) (x : Nat) :
    listAddRand l n n x = l.take (x % (n + 1)) ++ n :: l.drop (x % (n + 1)) := by
  obtain ⟨hnodup, hlength, -⟩ := range_perm_facts h
  have heq := listAddRand_eq hnodup n x
  rwa [hlength] at heq

theorem addAll_perm (rands : List Nat) : (addAll rands 0 []).Perm (List.range rands.length) := by
  induction rands using List.reverseRecOn with
  | nil => exact List.Perm.refl _
  | append_singleton rands x ih =>
    rw [addAll_concat, Nat.zero_add, listAddRand_range ih, List.length_append,
      List.length_singleton, List.range_succ]
    refine List.perm_middle.trans ?_
    rw [List.take_append_drop]
    exact (ih.cons _).trans (List.perm_append_singleton ..).symm

/-- A fair shuffle: every order comes of exactly one choice of the places. -/
theorem addAll_unique (n : Nat) {q : List Nat} (hq : q.Perm (List.range n)) :
    ∃! places : List Nat, places.length = n ∧ (∀ p ∈ places.zipIdx, p.1 ≤ p.2) ∧
      addAll places 0 [] = q := by
  induction n generalizing q with
  | zero =>
    refine ⟨[], ⟨rfl, by simp, (List.perm_nil.mp hq).symm⟩, fun places h => ?_⟩
    exact List.length_eq_zero_iff.mp h.1
  | succ n ih =>
    obtain ⟨front, back, rfl⟩ := List.append_of_mem
      (hq.symm.subset (List.mem_range.mpr (Nat.lt_succ_self n)))
    have hrest : (front ++ back).Perm (List.range n) := by
      have hlast : (List.range (n + 1)).Perm (n :: List.range n) := by
        rw [List.range_succ]
        exact List.perm_append_singleton ..
      exact (List.perm_middle.symm.trans (hq.trans hlast)).cons_inv
    obtain ⟨hnodup, hlength, hnew⟩ := range_perm_facts hrest
    have hfront : front.length ≤ n := by
      rw [List.length_append] at hlength
      omega
    obtain ⟨places, ⟨hplaces, hbound, hall⟩, hunique⟩ := ih hrest
    refine ⟨places ++ [front.length], ⟨?_, ?_, ?_⟩, fun places' ⟨hlength', hbound', hall'⟩ => ?_⟩
    · rw [List.length_append, hplaces, List.length_singleton]
    · intro p hp
      rw [List.zipIdx_append, List.mem_append] at hp
      rcases hp with hp | hp
      · exact hbound p hp
      · rw [List.zipIdx_singleton, List.mem_singleton] at hp
        rw [hp, hplaces]
        omega
    · rw [addAll_concat, hall, Nat.zero_add, hplaces, listAddRand_range hrest,
        Nat.mod_eq_of_lt (by omega), List.take_left, List.drop_left]
    · obtain ⟨places'', place, rfl⟩ : ∃ l x, places' = l ++ [x] := by
        rcases List.eq_nil_or_concat' places' with h | ⟨l, x, h⟩
        · rw [h] at hlength'
          cases hlength'
        · exact ⟨l, x, h⟩
      have hlen : places''.length = n := by
        rw [List.length_append, List.length_singleton] at hlength'
        omega
      have hplace : place ≤ n := by
        have h := hbound' (place, places''.length) (by simp [List.zipIdx_append])
        rwa [hlen] at h
      have hperm := addAll_perm places''
      rw [hlen] at hperm
      obtain ⟨-, hlength'', hnew''⟩ := range_perm_facts hperm
      rw [addAll_concat, Nat.zero_add, hlen, listAddRand_range hperm,
        Nat.mod_eq_of_lt (by omega)] at hall'
      obtain ⟨htake, -, hdrop⟩ := (List.append_cons_inj_of_notMem
        (fun h => hnew'' (List.mem_of_mem_take h))
        (fun h => hnew'' (List.mem_of_mem_drop h))).mp hall'
      have hsame : addAll places'' 0 [] = front ++ back := by
        rw [← htake, ← hdrop, List.take_append_drop]
      have hbound'' : ∀ p ∈ places''.zipIdx, p.1 ≤ p.2 := fun p hp =>
        hbound' p (by rw [List.zipIdx_append]; exact List.mem_append_left _ hp)
      rw [hunique places'' ⟨hlen, hbound'', hsame⟩, ← htake,
        List.length_take_of_le (by omega)]

/-- The order of three nodes in which the last one is in the middle of the others. -/
theorem addAll_unique_middle :
    ∃! places : List Nat, places.length = 3 ∧ (∀ p ∈ places.zipIdx, p.1 ≤ p.2) ∧
      addAll places 0 [] = [1, 2, 0] :=
  addAll_unique 3 (by decide)

/-! ### The walk -/

section Walk
variable {σ β : Type} (next : σ → Option σ) (read : σ → Option β)

/-- `while (pos < r[i])` of the commands; `none` is a step behind the end. -/
def advance : Nat → σ → Option σ
  | 0, s => some s
  | steps + 1, s => (next s).bind (advance steps)

/-- The loops over the array of both commands: a node for each index, with what it is for. -/
def collect : List Nat → Nat → σ → List Nat → List β → List Nat →
    Option (List Nat × List β × List Nat)
  | [], _, _, head, items, rands => some (head, items, rands)
  | v :: r, pos, s, head, items, rands =>
    (advance next (v - pos) s).bind fun s =>
      (read s).bind fun item =>
        match rands with
        | [] => none
        | x :: rands =>
          collect r (max pos v) s (listAddRand head items.length items.length x)
            (items ++ [item]) rands

/-- The loop that takes the nodes out of the list again. -/
def inOrder (head : List Nat) (items : List β) : List β := head.filterMap fun i => items[i]?

/-- The walk goes over a list, of which it knows the rest. -/
structure Walks (view : σ → List β) (Inv : σ → Prop) : Prop where
  next : ∀ s, Inv s → 2 ≤ (view s).length →
    ∃ s', next s = some s' ∧ Inv s' ∧ view s' = (view s).tail
  read : ∀ s, Inv s → read s = (view s).head?

variable {next read} {view : σ → List β} {Inv : σ → Prop}

theorem Walks.advance (h : Walks next read view Inv) {s : σ} (hs : Inv s) (steps : Nat)
    (hsteps : steps < (view s).length) :
    ∃ s', advance next steps s = some s' ∧ Inv s' ∧ view s' = (view s).drop steps := by
  induction steps generalizing s with
  | zero => exact ⟨s, rfl, hs, rfl⟩
  | succ steps ih =>
    obtain ⟨s₁, hnext, hs₁, hview⟩ := h.next s hs (by omega)
    have hlength : (view s₁).length = (view s).length - 1 := by rw [hview, List.length_tail]
    obtain ⟨s', hadvance, hs', hview'⟩ := ih hs₁ (by omega)
    refine ⟨s', ?_, hs', ?_⟩
    · rw [RandomQueue.advance, hnext, Option.bind_some, hadvance]
    · rw [hview', hview, List.drop_tail]

/-- With a number of `rand` for each index the nodes are put in order, and hold what is at the
indexes. -/
theorem Walks.collect (h : Walks next read view Inv) {s : σ} (hs : Inv s) (pos : Nat)
    {r : List Nat} (hsorted : (pos :: r).Pairwise (· ≤ ·))
    (hbelow : ∀ v ∈ r, v < pos + (view s).length) (head : List Nat) (items : List β)
    (rands : List Nat) :
    collect next read r pos s head items rands =
      if rands.length < r.length then none
      else some (addAll (rands.take r.length) items.length head,
        items ++ r.filterMap (fun v => (view s)[v - pos]?), rands.drop r.length) := by
  induction r generalizing s pos head items rands with
  | nil => simp [RandomQueue.collect, addAll]
  | cons v r ih =>
    obtain ⟨hpos, hsorted'⟩ := List.pairwise_cons.mp hsorted
    have hv : pos ≤ v := hpos v List.mem_cons_self
    have hlt := hbelow v List.mem_cons_self
    obtain ⟨s', hadvance, hs', hview⟩ := h.advance hs (v - pos) (by omega)
    have hread : read s' = some ((view s).get ⟨v - pos, by omega⟩) := by
      rw [h.read s' hs', hview, List.head?_drop, List.getElem?_eq_getElem (by omega)]
      rfl
    have hmax : max pos v = v := max_eq_right hv
    have hlater : ∀ w ∈ r, v ≤ w := (List.pairwise_cons.mp hsorted').1
    have hitem : (view s)[v - pos]? = some ((view s).get ⟨v - pos, by omega⟩) :=
      List.getElem?_eq_getElem (by omega)
    rw [RandomQueue.collect, hadvance, Option.bind_some, hread, Option.bind_some, hmax]
    cases rands with
    | nil => simp
    | cons x rands =>
      have hbelow' : ∀ w ∈ r, w < v + (view s').length := by
        intro w hw
        have := hbelow w (List.mem_cons_of_mem v hw)
        rw [hview, List.length_drop]
        omega
      have hrest : (r.filterMap fun w => (view s')[w - v]?) =
          r.filterMap fun w => (view s)[w - pos]? := by
        apply List.filterMap_congr
        intro w hw
        have := hlater w hw
        rw [hview, List.getElem?_drop]
        congr 1
        omega
      dsimp only
      rw [ih hs' v hsorted' hbelow', hrest]
      simp only [List.length_cons, List.length_append, List.length_nil, Nat.zero_add,
        Nat.add_lt_add_iff_right, List.take_succ_cons, addAll, List.filterMap_cons, hitem,
        List.append_assoc, List.singleton_append, List.drop_succ_cons]

end Walk

/-- What is at increasing indexes of a list. -/
theorem filterMap_sublist {β : Type} {l : List β} {r : List Nat} (hsorted : r.Pairwise (· < ·))
    (hbelow : ∀ v ∈ r, v < l.length) :
    (r.filterMap fun v => l[v]?).Sublist l ∧ (r.filterMap fun v => l[v]?).length = r.length := by
  obtain ⟨is, rfl⟩ : ∃ is : List (Fin l.length), r = is.map Fin.val :=
    ⟨r.pmap Fin.mk hbelow, by simp [List.map_pmap]⟩
  have hget : ((is.map Fin.val).filterMap fun v => l[v]?) = is.map fun i => l[i] := by
    rw [List.filterMap_map]
    have hsome : (fun v : Nat => l[v]?) ∘ Fin.val = fun i : Fin l.length => some l[i] := by
      funext i
      exact List.getElem?_eq_getElem i.isLt
    rw [hsome, List.filterMap_eq_map']
  have his : is.Pairwise (· < ·) := (List.pairwise_map (f := Fin.val)).mp hsorted
  rw [hget]
  exact ⟨List.map_getElem_sublist his, by simp⟩

theorem inOrder_perm {β : Type} {head : List Nat} {items : List β}
    (h : head.Perm (List.range items.length)) : (inOrder head items).Perm items := by
  have hall : inOrder (List.range items.length) items = items := by
    have hsub := filterMap_sublist (l := items) (r := List.range items.length)
      List.pairwise_lt_range (fun v hv => List.mem_range.mp hv)
    exact hsub.1.eq_of_length (hsub.2.trans List.length_range)
  exact (h.filterMap _).trans (List.Perm.of_eq hall)

/-! ### The commands -/

/-- What comes of a command: `refused` is an error, and `queued` is what is appended to the
queue. -/
inductive Outcome (τ : Type) where
  | refused
  | queued (tracks : List τ)
  deriving DecidableEq

/-- The number in the argument, as an `int`; `none` is not a positive integer. -/
def argCount (arg : Option Text) : Option Int :=
  match arg with
  | none => some 1
  | some arg =>
    let (val, isInt) := strToInt arg
    if !isInt ∨ val ≤ 0 then none else some (toInt val)

/-- What `xnew` gives: an array with anything in it. -/
def xnew (junk : Nat → Nat) (n : Nat) : List Nat := (List.range n).map junk

/-- The tracks in the order of `lib_editable`; the walk knows those from the node on. -/
def nextTrack {τ : Type} : List τ → Option (List τ)
  | [] => none
  | _ :: rest => some rest

/-- The count is compared with an `unsigned int`. -/
def cmdTqueue {τ : Type} (junk : Nat → Nat) (tracks : List τ) (arg : Option Text)
    (rands : List Nat) : Option (Outcome τ) :=
  match argCount arg with
  | none => some .refused
  | some count =>
    let count := min (count % 2 ^ 32).toNat tracks.length
    if count = 0 then some (.queued [])
    else
      (randArray count tracks.length (xnew junk (count + 1)) rands).bind fun (r, rands) =>
        (collect nextTrack List.head? (r.take count) 0 tracks [] [] rands).map
          fun (head, items, _) => .queued (inOrder head items)

/-- The album behind an album: the next one of its artist, or the first one of the next artist.
The walk knows the albums of the artist from the album on, and the artists behind. -/
def nextAlbum {α : Type} : List α × List (List α) → Option (List α × List (List α))
  | ([], _) => none
  | ([_], []) => none
  | ([_], albums :: artists) => some (albums, artists)
  | (_ :: album :: albums, artists) => some (album :: albums, artists)

/-- An artist is the list of its albums, and an album that of its tracks. An array of a negative
size cannot be had. -/
def cmdLqueue {τ : Type} (junk : Nat → Nat) (artists : List (List (List τ))) (arg : Option Text)
    (rands : List Nat) : Option (Outcome τ) :=
  match argCount arg with
  | none => some .refused
  | some count =>
    let nmax := artists.flatten.length
    let count := if count > nmax then (nmax : Int) else count
    if count = 0 then some (.queued [])
    else if count < 0 then none
    else
      (randArray count.toNat nmax (xnew junk (count.toNat + 1)) rands).bind fun (r, rands) =>
        (collect nextAlbum (fun s => s.1.head?) (r.take count.toNat) 0
          (artists.headD [], artists.tail) [] [] rands).map
          fun (head, items, _) => .queued (inOrder head items).flatten

theorem walks_tracks (τ : Type) :
    Walks nextTrack List.head? (fun tracks : List τ => tracks) fun _ => True where
  next tracks _ hlength := by
    cases tracks with
    | nil => cases hlength
    | cons t tracks => exact ⟨tracks, rfl, trivial, rfl⟩
  read tracks _ := rfl

/-- Every artist has an album. -/
theorem walks_albums (α : Type) :
    Walks nextAlbum (fun s => s.1.head?) (fun s : List α × List (List α) => s.1 ++ s.2.flatten)
      fun s => s.1 ≠ [] ∧ ∀ albums ∈ s.2, albums ≠ [] where
  next s hs hlength := by
    obtain ⟨albums, artists⟩ := s
    obtain ⟨hne, hall⟩ := hs
    cases albums with
    | nil => exact absurd rfl hne
    | cons a albums =>
      cases albums with
      | cons b albums => exact ⟨_, rfl, ⟨List.cons_ne_nil b albums, hall⟩, rfl⟩
      | nil =>
        cases artists with
        | nil => exact absurd hlength (by simp)
        | cons albums artists =>
          exact ⟨_, rfl, ⟨hall albums List.mem_cons_self, fun b hb =>
            hall b (List.mem_cons_of_mem albums hb)⟩, rfl⟩
  read s hs := by
    obtain ⟨albums, artists⟩ := s
    cases albums with
    | nil => exact absurd rfl hs.1
    | cons a albums => rfl

/-- Both commands: the array, the walk and the random order together. -/
theorem picked {σ β : Type} {next : σ → Option σ} {read : σ → Option β} {view : σ → List β}
    {Inv : σ → Prop} (h : Walks next read view Inv) {s : σ} (hs : Inv s) (junk : Nat → Nat)
    {size : Nat} (hpos : 0 < size) (hsize : size ≤ (view s).length) (rands : List Nat) :
    let outcome := (randArray size (view s).length (xnew junk (size + 1)) rands).bind
      fun (r, rands) => (collect next read (r.take size) 0 s [] [] rands).map
        fun (head, items, _) => inOrder head items
    (outcome = none ↔ ∀ drawn rest,
        draw (view s).length rands (drawCount size (view s).length) [] = some (drawn, rest) →
          rest.length < size) ∧
      ∀ queue, outcome = some queue →
        ∃ items : List β, items.Sublist (view s) ∧ items.length = size ∧ queue.Perm items := by
  dsimp only
  have hxnew : (xnew junk (size + 1)).length = size + 1 := by simp [xnew]
  rcases randArray_eq hsize (hpos.trans_le hsize) hxnew rands with
    ⟨hdraw, hrand⟩ | ⟨drawn, rest, r, hdraw, hrand, -, htake⟩
  · rw [hrand, hdraw]
    refine ⟨iff_of_true rfl fun drawn rest h => ?_, fun queue h => ?_⟩
    · cases h
    · cases h
  · have hfirst : Drawn (view s).length 0 [] :=
      ⟨List.nodup_nil, fun v hv => absurd hv List.not_mem_nil, rfl⟩
    have hdrawn := draw_drawn (hpos.trans_le hsize) hfirst hdraw
    rw [Nat.zero_add] at hdrawn
    obtain ⟨hlength, hsorted, hbelow⟩ := chosen_indexes hsize hdrawn
    have hcollect := h.collect hs 0
      (List.pairwise_cons.mpr ⟨fun v _ => Nat.zero_le v, hsorted.imp le_of_lt⟩)
      (fun v hv => by simpa using hbelow v hv) [] [] rest
    rw [hlength] at hcollect
    rw [hrand, hdraw, Option.bind_some]
    dsimp only
    rw [htake, hcollect]
    by_cases hrest : rest.length < size
    · rw [if_pos hrest]
      refine ⟨iff_of_true rfl fun drawn' rest' h => ?_, fun queue h => ?_⟩
      · cases h
        exact hrest
      · cases h
    · rw [if_neg hrest]
      refine ⟨iff_of_false (by simp) fun hall => hrest (hall drawn rest rfl), fun queue h => ?_⟩
      cases h
      obtain ⟨hsub, hitems⟩ := filterMap_sublist hsorted hbelow
      refine ⟨_, hsub, hitems.trans hlength, inOrder_perm ?_⟩
      have hperm := addAll_perm (rest.take size)
      rw [List.length_take_of_le (by omega)] at hperm
      simpa [hitems, hlength] using hperm

/-- `lqueue` appends as many albums as it is asked for, each of them once and with its tracks in
their order. An argument beyond the `int` range that becomes negative ends the program. -/
theorem lqueue_picks {τ : Type} (junk : Nat → Nat) (artists : List (List (List τ)))
    (hartists : ∀ albums ∈ artists, albums ≠ []) {arg : Option Text} {count : Int}
    (harg : argCount arg = some count) (rands : List Nat) :
    let nmax := artists.flatten.length
    let size := min count.toNat nmax
    (cmdLqueue junk artists arg rands = none ↔ count < 0 ∨ 0 < size ∧ ∀ drawn rest,
        draw nmax rands (drawCount size nmax) [] = some (drawn, rest) → rest.length < size) ∧
      ∀ outcome, cmdLqueue junk artists arg rands = some outcome →
        ∃ order albums : List (List τ), outcome = .queued order.flatten ∧
          albums.Sublist artists.flatten ∧ albums.length = size ∧ order.Perm albums := by
  rw [cmdLqueue, harg]
  dsimp only
  generalize hnmax : artists.flatten.length = nmax
  have hcount : (if count > (nmax : Int) then (nmax : Int) else count).toNat =
      min count.toNat nmax := by
    split <;> omega
  have hsign : (if count > (nmax : Int) then (nmax : Int) else count) < 0 ↔ count < 0 := by
    split <;> omega
  rw [hcount]
  generalize hsize : min count.toNat nmax = size at hcount ⊢
  by_cases hzero : (if count > (nmax : Int) then (nmax : Int) else count) = 0
  · have hsize' : size = 0 := by
      rw [← hcount, hzero]
      rfl
    have hpos : ¬ count < 0 := by
      rw [← hsign, hzero]
      decide
    rw [if_pos hzero]
    refine ⟨iff_of_false (by simp) (by simp [hsize', hpos]), fun outcome h => ?_⟩
    cases h
    exact ⟨[], [], rfl, List.nil_sublist _, hsize'.symm, List.Perm.refl _⟩
  rw [if_neg hzero]
  by_cases hneg : count < 0
  · rw [if_pos (hsign.mpr hneg)]
    refine ⟨iff_of_true rfl (.inl hneg), fun outcome h => ?_⟩
    cases h
  · have hpos : 0 < size := by
      rcases Nat.eq_zero_or_pos size with h | h
      · rw [h] at hcount
        have hnot := hsign.not.mpr hneg
        omega
      · exact h
    rw [if_neg (hsign.not.mpr hneg)]
    cases artists with
    | nil =>
      rw [List.flatten_nil, List.length_nil] at hnmax
      omega
    | cons albums artists =>
      have hview : albums ++ artists.flatten = (albums :: artists).flatten := rfl
      obtain ⟨hnone, hqueue⟩ := picked (walks_albums (List τ)) (s := (albums, artists))
        ⟨hartists albums List.mem_cons_self, fun b hb =>
          hartists b (List.mem_cons_of_mem albums hb)⟩ junk hpos
        (by rw [hview, hnmax, ← hsize]; exact min_le_right _ _) rands
      rw [hview, hnmax] at hnone hqueue
      constructor
      · simp only [hneg, false_or, hpos, true_and]
        rw [← hnone]
        simp [Option.bind_eq_none_iff]
      · intro outcome h
        obtain ⟨⟨r, rest⟩, hrand, h⟩ := Option.bind_eq_some_iff.mp h
        obtain ⟨⟨head, items, rest'⟩, hcollect, rfl⟩ := Option.map_eq_some_iff.mp h
        obtain ⟨items', hsub, hlength, hperm⟩ := hqueue (inOrder head items) (by
          rw [hrand, Option.bind_some]
          dsimp only
          rw [List.headD_cons, List.tail_cons] at hcollect
          rw [hcollect]
          rfl)
        exact ⟨_, items', rfl, hsub, hlength, hperm⟩

/-- Two albums of three, of two artists. -/
theorem lqueue_picks_two : ∃ order albums : List (List Nat),
    cmdLqueue (fun _ => 0) [[[1, 2], [3]], [[4, 5]]] (some (ascii "2")) [4, 0, 1] =
        some (.queued order.flatten) ∧
      albums.Sublist [[1, 2], [3], [4, 5]] ∧ albums.length = 2 ∧ order.Perm albums := by
  have harg : argCount (some (ascii "2")) = some 2 := by decide
  obtain ⟨-, h⟩ := lqueue_picks (fun _ => 0) [[[1, 2], [3]], [[4, 5]]] (by decide) harg [4, 0, 1]
  have hrun : cmdLqueue (fun _ => 0) [[[1, 2], [3]], [[4, 5]]] (some (ascii "2")) [4, 0, 1] =
      some (.queued [1, 2, 4, 5]) := by
    decide
  obtain ⟨order, albums, houtcome, hsub, hlength, hperm⟩ := h _ hrun
  exact ⟨order, albums, hrun.trans (congrArg some houtcome), hsub, hlength, hperm⟩

end GracefulMusic.RandomQueue
