import GracefulMusic.Foundation.Runs

/-! Windows (`window.c`).

A window shows a part of a circular list of rows. A row is its position in the list; the
position after the last row is the list's head, which is no row: `getNext` goes from the
last row to the head and from the head to the first row. `selectable` is what the hook of
that name returns, with `none` for the head; where the hook is `NULL` it is always true.
The callback `sel_changed` and the flag `changed` are left out. A loop that never ends and
a `BUG_ON` are `none`. -/
namespace GracefulMusic

structure Window (ρ : Type) where
  rows : List ρ
  selectable : Option ρ → Bool
  nrRows : Nat
  top : Nat
  sel : Nat

namespace Window
variable {ρ : Type} (w : Window ρ)

def head : Nat := w.rows.length

def selectableAt (i : Nat) : Bool := w.selectable w.rows[i]?

/-- The return value of `get_next` and `get_prev` is whether the new position is a row. -/
def getNext (i : Nat) : Nat := if i < w.head then i + 1 else 0

def getPrev (i : Nat) : Nat := if 0 < i then i - 1 else w.head

/-! ### Loops -/

/-- `while (!found(iter)) move(iter)` -/
def seek (move : Nat → Nat) (found : Nat → Bool) : Nat → Nat → Option Nat
  | 0, i => if found i then some i else none
  | fuel + 1, i => if found i then some i else seek move found fuel (move i)

/-- `while (!selectable(iter)) move(iter)` -/
def toSelectable (move : Nat → Nat) (i : Nat) : Option Nat := seek move w.selectableAt w.head i

/-- `while (!iters_equal(iter, target)) { get_next(iter); count++; }` -/
def distance (target : Nat) : Nat → Nat → Option Nat
  | 0, i => if i = target then some 0 else none
  | fuel + 1, i => if i = target then some 0 else (distance target fuel (w.getNext i)).map (· + 1)

/-- `while (count < bound) { if (!move(iter)) break; count++; }` -/
def reach (move : Nat → Nat) : Nat → Nat → Nat
  | 0, _ => 0
  | bound + 1, i => if move i < w.head then reach move bound (move i) + 1 else 0

/-- The variables of the loop over the rows in `window_up` and `window_down`. -/
structure Walk where
  iter : Nat
  sel : Nat
  moved : Nat
  skipped : Nat

def advance (k : Walk) (iter : Nat) : Walk :=
  if w.selectableAt iter then ⟨iter, iter, k.moved + 1, k.skipped⟩
  else {k with iter, skipped := k.skipped + 1}

def walk (move : Nat → Nat) (rows : Nat) : Nat → Walk → Walk
  | 0, k => k
  | fuel + 1, k =>
    if k.moved < rows ∧ move k.iter < w.head then walk move rows fuel (w.advance k (move k.iter))
    else k

/-! ### Moving the selection -/

def up (scrollOffset rows : Nat) : Option (Window ρ) := do
  let buffer ← w.distance w.sel w.head w.top
  let k := w.walk w.getPrev rows w.head ⟨w.sel, w.sel, 0, 0⟩
  -- without a selectable row above, the top row moves instead
  let skipped := if k.moved = 0 then 0 else k.skipped
  let upperBound :=
    if k.moved = 0 then min (buffer + rows) (w.nrRows / 2) else min scrollOffset (w.nrRows / 2)
  let actualOffset := w.reach w.getPrev upperBound k.sel
  let topUp := actualOffset + k.moved + skipped - buffer
  some {w with sel := k.sel, top := w.getPrev^[topUp] w.top}

def down (scrollOffset rows : Nat) : Option (Window ρ) := do
  let distance ← w.distance w.sel w.head w.top
  let buffer : Int := (w.nrRows : Int) - 1 - distance
  let k := w.walk w.getNext rows w.head ⟨w.sel, w.sel, 0, 0⟩
  let skipped := if k.moved = 0 then 0 else k.skipped
  let upperBound : Int :=
    if k.moved = 0 then min (buffer + rows) ((w.nrRows - 1) / 2 : Nat)
    else min scrollOffset ((w.nrRows - 1) / 2 : Nat)
  let actualOffset := w.reach w.getNext upperBound.toNat k.sel
  let topDown : Int := actualOffset + k.moved + skipped - buffer
  some {w with sel := k.sel, top := w.getNext^[topDown.toNat] w.top}

def setSel (scrollOffset iter : Nat) : Option (Window ρ) :=
  if w.top = w.head ∨ iter = w.head then none
  else if w.sel = iter then some w
  else do
    let first := w.getNext w.head
    let topNr ← w.distance w.top w.head first
    let selNr ← w.distance iter w.head first
    let upperBound := min scrollOffset (w.nrRows / 2)
    if selNr < topNr + upperBound then
      let top := if selNr < upperBound then first else w.getPrev^[upperBound] iter
      some {w with sel := iter, top}
    else
      let upperBound := min scrollOffset ((w.nrRows - 1) / 2)
      if topNr + w.nrRows ≤ selNr then
        -- the selected row is not visible
        let top := w.getNext^[selNr + 1 - (topNr + w.nrRows)] w.top
        some {w with sel := iter, top := w.getNext^[w.reach w.getNext upperBound iter] top}
      else
        let room := topNr + w.nrRows - (selNr + 1)
        let below := w.reach w.getNext room iter
        -- where the list ends within the window, nothing is left to show below
        let bottomNr := if below < room then selNr + upperBound else selNr + below
        let tmp := w.getNext^[below] iter
        let down := w.reach w.getNext (selNr + upperBound - bottomNr) tmp
        some {w with sel := iter, top := w.getNext^[down] w.top}

def gotoTop : Option (Window ρ) := do
  let first := w.getNext w.head
  let sel ← w.toSelectable w.getNext first
  some {w with top := first, sel}

/-- `window_set_contents` goes to the top of the new list. -/
def setContents (rows : List ρ) : Option (Window ρ) := ({w with rows} : Window ρ).gotoTop

def gotoBottom : Option (Window ρ) := do
  let last := w.getPrev w.head
  let sel ← w.toSelectable w.getPrev last
  some {w with top := w.getPrev^[w.reach w.getPrev (w.nrRows - 1) last] last, sel}

/-! ### Pages -/

/-- The loop of the two functions that page upwards. -/
def pageBack (w : Window ρ) : Nat → Nat → Nat → Window ρ
  | 0, _, _ => w
  | count + 1, sel, top =>
    if w.getPrev sel < w.head ∧ w.getPrev top < w.head then
      let found := if w.selectableAt (w.getPrev sel) then
        {w with sel := w.getPrev sel, top := w.getPrev top} else w
      pageBack found count (w.getPrev sel) (w.getPrev top)
    else w

def pageUp : Window ρ := w.pageBack (w.nrRows - 1) w.sel w.top

def halfPageUp : Window ρ := w.pageBack ((w.nrRows - 1) / 2) w.sel w.top

/-- `window_bottom` -/
def bottom : Nat := w.getNext^[w.reach w.getNext (w.nrRows - 1) w.top] w.top

/-- The loop of the two functions that page downwards. -/
def pageForward (w : Window ρ) : Nat → Nat → Nat → Nat → Window ρ
  | 0, _, _, _ => w
  | count + 1, sel, bot, top =>
    if w.getNext sel < w.head ∧ w.getNext bot < w.head then
      let found := if w.selectableAt (w.getNext sel) then
        {w with sel := w.getNext sel, top := w.getNext top} else w
      pageForward found count (w.getNext sel) (w.getNext bot) (w.getNext top)
    else w

def pageDown : Window ρ := w.pageForward (w.nrRows - 1) w.sel w.bottom w.top

def halfPageDown : Window ρ := w.pageForward ((w.nrRows - 1) / 2) w.sel w.bottom w.top

def scrollDown : Option (Window ρ) :=
  if w.getNext w.bottom < w.head ∧ w.getNext w.top < w.head then do
    let sel ← w.toSelectable w.getNext (if w.top = w.sel then w.getNext w.sel else w.sel)
    some {w with top := w.getNext w.top, sel}
  else some w

def scrollUp : Option (Window ρ) :=
  if w.getPrev w.top < w.head then do
    -- keep selected row on screen
    let sel ← w.toSelectable w.getPrev (if w.bottom = w.sel then w.getPrev w.sel else w.sel)
    some {w with top := w.getPrev w.top, sel}
  else some w

/-- `window_goto_pos`: the walk does not stop at the end of the list. -/
def gotoPos (pos : Nat) : Window ρ := {w with sel := w.getNext^[pos] w.top}

def pageTop : Option (Window ρ) := do
  let sel ← w.toSelectable w.getNext (w.gotoPos 0).sel
  some {w with sel}

def pageBottom : Option (Window ρ) := do
  let sel ← w.toSelectable w.getPrev (w.gotoPos (w.nrRows - 1)).sel
  some {w with sel}

def pageMiddle : Option (Window ρ) := do
  let sel ← w.toSelectable w.getNext (w.gotoPos (w.nrRows / 2)).sel
  some {w with sel}

/-! ### Changes of the list -/

/-- The number of rows from a row to the selected one, `none` where the list ends first. -/
def below : Nat → Nat → Option Nat
  | 0, _ => none
  | fuel + 1, i =>
    if i = w.sel then some 0
    else if w.getNext i < w.head then (below fuel (w.getNext i)).map (· + 1)
    else none

/-- The end of `window_changed`: as few empty rows as possible. -/
def minimize : Window ρ :=
  let rows := w.reach w.getNext (w.nrRows - 1) w.top + 1
  {w with top := w.getPrev^[w.reach w.getPrev (w.nrRows - rows) w.top] w.top}

def changed : Option (Window ρ) :=
  if w.top = w.head then some {w with top := w.getNext w.top, sel := w.getNext w.top}
  else
    match w.below w.head w.top with
    | some delta => some {w with top := w.getNext^[delta - (w.nrRows - 1)] w.top}.minimize
    | none => do
      -- the selected row is above the top row
      let top ← seek w.getPrev (· == w.sel) w.head w.top
      some {w with top}.minimize

def setNrRows (nrRows : Nat) : Option (Window ρ) :=
  if nrRows < 1 then some w else {w with nrRows}.changed

/-- The distance to the next selectable row, 0 where the list ends first. -/
def gap (move : Nat → Nat) : Nat → Nat → Nat
  | 0, _ => 0
  | fuel + 1, i =>
    if ¬ move i < w.head then 0
    else if w.selectableAt (move i) then 1
    else if gap move fuel (move i) = 0 then 0 else gap move fuel (move i) + 1

/-- The selection after its row has vanished; the head where nothing else is selectable. -/
def nearest (iter : Nat) : Option Nat :=
  let down := w.gap w.getNext w.head iter
  let up := w.gap w.getPrev w.head iter
  if 0 < down ∧ (up = 0 ∨ down ≤ up) then w.toSelectable w.getNext (w.getNext iter)
  else if 0 < up then w.toSelectable w.getPrev (w.getPrev iter)
  else some w.head

def rowVanishes (iter : Nat) : Option (Window ρ) :=
  -- `window_set_empty` sets a head that the `BUG_ON` after it refuses
  if ¬ w.getNext iter < w.head ∧ ¬ w.getPrev (w.getNext iter) < w.head then none
  else
    let top := if w.top = iter then
        (if w.getNext iter < w.head then w.getNext iter else w.getPrev iter)
      else w.top
    if w.sel = iter then do
      let sel ← w.nearest iter
      some {w with top, sel}
    else some {w with top}

/-- The row leaves the list; the other rows and the head stay what they are. -/
def remove (iter : Nat) : Window ρ where
  rows := w.rows.eraseIdx iter
  selectable := w.selectable
  nrRows := w.nrRows
  top := if iter < w.top then w.top - 1 else w.top
  sel := if iter < w.sel then w.sel - 1 else w.sel

def insert (iter : Nat) (row : ρ) : Window ρ where
  rows := w.rows.insertIdx iter row
  selectable := w.selectable
  nrRows := w.nrRows
  top := if iter ≤ w.top then w.top + 1 else w.top
  sel := if iter ≤ w.sel then w.sel + 1 else w.sel

end Window

/-- What the rest of the program does with a window. -/
inductive WindowOp (ρ : Type) where
  | up (rows : Nat)
  | down (rows : Nat)
  | setSel (iter : Nat)
  | gotoTop
  | gotoBottom
  | pageUp
  | halfPageUp
  | pageDown
  | halfPageDown
  | scrollDown
  | scrollUp
  | pageTop
  | pageBottom
  | pageMiddle
  | setNrRows (nrRows : Nat)
  /-- The window is given another list. -/
  | setContents (rows : List ρ)
  /-- `window_row_vanishes`, then the row is removed, then `window_changed`. -/
  | removeRow (iter : Nat)
  /-- A row is added in front of another, or at the end, then `window_changed`. -/
  | addRow (iter : Nat) (row : ρ)

/-- One operation, with the value of the option `scroll_offset` at that time. -/
def Window.step {ρ : Type} (w : Window ρ) : Nat × WindowOp ρ → Option (Window ρ)
  | (scrollOffset, .up rows) => w.up scrollOffset rows
  | (scrollOffset, .down rows) => w.down scrollOffset rows
  | (scrollOffset, .setSel iter) => w.setSel scrollOffset iter
  | (_, .gotoTop) => w.gotoTop
  | (_, .gotoBottom) => w.gotoBottom
  | (_, .pageUp) => some w.pageUp
  | (_, .halfPageUp) => some w.halfPageUp
  | (_, .pageDown) => some w.pageDown
  | (_, .halfPageDown) => some w.halfPageDown
  | (_, .scrollDown) => w.scrollDown
  | (_, .scrollUp) => w.scrollUp
  | (_, .pageTop) => w.pageTop
  | (_, .pageBottom) => w.pageBottom
  | (_, .pageMiddle) => w.pageMiddle
  | (_, .setNrRows nrRows) => w.setNrRows nrRows
  | (_, .setContents rows) => w.setContents rows
  | (_, .removeRow iter) =>
    if iter < w.head then (w.rowVanishes iter).bind fun w => (w.remove iter).changed else none
  | (_, .addRow iter row) => if iter ≤ w.head then (w.insert iter row).changed else none

end GracefulMusic
