import GracefulMusic.Cache.Table
import GracefulMusic.Foundation.Runs

/-! The cache while it is refreshed (`cache.c`, `track_info.c`).

A refresh takes the entries with a reference to each and goes through them one after the
other; before each it may give up the lock, and while it reads a file it keeps it. A step
is a part of a round, a call from elsewhere under the lock, or a change of references,
which needs no lock. Infos are told apart by their `uid`. The rest of the program holds
references of its own, and a result hands over those of the refresh. -/
namespace GracefulMusic.Cache.Refresh
open Lib GracefulMusic.Expr

/-- A `struct track_info`. -/
structure Info where
  uid : Nat
  filename : Text
  mtime : Int64
  duration : Int32
  deriving DecidableEq

/-- What there is to read from a file. -/
structure Contents where
  mtime : Int64
  duration : Int32

/-- What becomes of a place in the array: `NULL`, or an info that is out of the table, with
what is put into its `next`. -/
abbrev Outcome := Option (Info × Option Info)

/-- A refresh that runs, with the info whose file it reads. -/
structure Progress where
  force : Bool
  done : List Outcome
  reading : Option Info
  rest : List Info

structure State where
  table : Table Info
  /-- The infos that were ever made, the last first. -/
  made : List Info
  refCount : Nat → Nat
  /-- The references that the rest of the program has. -/
  held : Nat → Nat
  refresh : Option Progress
  results : List (List Outcome)

/-- What `stat` says of a file: its time, or that there is none. -/
abbrev Stat := Option Int64

inductive Action where
  | start (force : Bool)
  | next (stat : Stat)
  | read (contents : Option Contents)
  | finish
  | getTi (filename : Text) (force skipTrackInfo : Bool) (contents : Option Contents)
      (memory : Int64)
  | removeTi (ti : Info)
  | ref (ti : Info)
  | unref (ti : Info)
  | handle

namespace State
variable (s : State)

/-! ### Track infos -/

def trackInfoRef (ti : Info) : State :=
  {s with refCount := Function.update s.refCount ti.uid (s.refCount ti.uid + 1)}

def trackInfoUnref (ti : Info) : State :=
  {s with refCount := Function.update s.refCount ti.uid (s.refCount ti.uid - 1)}

def trackInfoUniqueRef (ti : Info) : Bool := s.refCount ti.uid = 1

/-- The info that is made next. -/
def fresh (filename : Text) (c : Contents) : Info where
  uid := s.made.length
  filename := filename
  mtime := c.mtime
  duration := c.duration

/-- An info that was just made, as an entry: `add_ti`. -/
def addTi (new : Info) : State :=
  {s with
    table := s.table.addTi Info.filename new
    made := new :: s.made
    refCount := Function.update s.refCount new.uid 1}

def doCacheRemoveTi (ti : Info) : State :=
  if ti ∈ s.table.chains (Table.place ti.filename) then
    {s with table := s.table.removeTi Info.filename ti}.trackInfoUnref ti
  else s

/-! ### A round of `cache_refresh` -/

def unchanged (ti : Info) (force : Bool) (stat : Stat) : Bool :=
  !isUrl ti.filename && !force && stat = some ti.mtime

def deleted (ti : Info) : State × Outcome :=
  if s.trackInfoUniqueRef ti then (s.trackInfoUnref ti, none) else (s, some (ti, none))

/-- What comes before the file is read; there is no outcome yet where it is to be read. -/
def visit (force : Bool) (ti : Info) (stat : Stat) : State × Option Outcome :=
  if unchanged ti force stat then (s.trackInfoUnref ti, some none)
  else
    let s := s.doCacheRemoveTi ti
    if isUrl ti.filename || stat.isSome then
      -- clear cache-only entries
      if force && s.trackInfoUniqueRef ti then (s.trackInfoUnref ti, some none)
      else (s, none)
    else let (s, outcome) := s.deleted ti; (s, some outcome)

/-- What is done with what was read, or with a file that could not be. -/
def changed (ti : Info) : Option Contents → State × Outcome
  | some c =>
    let new := s.fresh ti.filename c
    let s := s.addTi new
    if s.trackInfoUniqueRef ti then (s.trackInfoUnref ti, none)
    else (s.trackInfoRef new, some (ti, some new))
  -- treat as deleted
  | none => s.deleted ti

/-! ### `cache_get_ti` -/

/-- A new entry, and the reference that is returned. -/
def load (filename : Text) (c : Contents) : State :=
  let new := s.fresh filename c
  let s := (s.addTi new).trackInfoRef new
  {s with held := Function.update s.held new.uid (s.held new.uid + 1)}

/-- Where infos are skipped, the time is not set: it is what was in `memory`. -/
def cacheGetTi (filename : Text) (force skipTrackInfo : Bool) (contents : Option Contents)
    (memory : Int64) : State :=
  match s.table.lookup Info.filename filename with
  | some ti =>
    if (!skipTrackInfo && ti.duration = 0 && !isHttpUrl filename) || force then
      match contents with
      | some c => (s.doCacheRemoveTi ti).load filename c
      | none => s.doCacheRemoveTi ti
    else
      let held := Function.update s.held ti.uid (s.held ti.uid + 1)
      {s.trackInfoRef ti with held}
  | none =>
    if skipTrackInfo && !force then s.load filename ⟨memory, 0⟩
    else
      match contents with
      | some c => s.load filename c
      | none => s

/-! ### Steps -/

def refAll (tis : List Info) : State := tis.foldl trackInfoRef s

/-- The references in an array of results become those of who handles it. -/
def handOver (tis : List Outcome) : State :=
  let infos := tis.flatMap fun outcome => outcome.toList.flatMap fun r => r.1 :: r.2.toList
  {s with held := infos.foldl (fun held ti => Function.update held ti.uid (held ti.uid + 1)) s.held}

/-- Whether the refresh has the lock for longer than a step. -/
def locked : Bool := s.refresh.any fun r => r.reading.isSome

def step (s : State) : Action → Option State
  | .start force =>
    match s.refresh with
    | some _ => none
    | none =>
      let tis := s.table.sorted Info.filename
      some {s.refAll tis with refresh := some ⟨force, [], none, tis.take s.table.total⟩}
  | .next stat =>
    match s.refresh with
    | some ⟨force, done, none, ti :: rest⟩ =>
      match s.visit force ti stat with
      | (s, some outcome) => some {s with refresh := some ⟨force, done ++ [outcome], none, rest⟩}
      | (s, none) => some {s with refresh := some ⟨force, done, some ti, rest⟩}
    | _ => none
  | .read contents =>
    match s.refresh with
    | some ⟨force, done, some ti, rest⟩ =>
      let (s, outcome) := s.changed ti contents
      some {s with refresh := some ⟨force, done ++ [outcome], none, rest⟩}
    | _ => none
  | .finish =>
    match s.refresh with
    | some ⟨_, done, none, []⟩ => some {s with refresh := none, results := s.results ++ [done]}
    | _ => none
  | .getTi filename force skipTrackInfo contents memory =>
    if s.locked then none else some (s.cacheGetTi filename force skipTrackInfo contents memory)
  | .removeTi ti =>
    if s.locked || s.held ti.uid = 0 then none else some (s.doCacheRemoveTi ti)
  | .ref ti =>
    if s.held ti.uid = 0 then none
    else
      let held := Function.update s.held ti.uid (s.held ti.uid + 1)
      some {s.trackInfoRef ti with held}
  | .unref ti =>
    if s.held ti.uid = 0 then none
    else
      let held := Function.update s.held ti.uid (s.held ti.uid - 1)
      some {s.trackInfoUnref ti with held}
  | .handle =>
    match s.results with
    | [] => none
    | tis :: rest => some {s.handOver tis with results := rest}

end State

end GracefulMusic.Cache.Refresh
