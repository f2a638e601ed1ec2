import GracefulMusic.TrackInfo

/-! The worker thread between its two queues (`worker.c`, `job.c`).

Jobs wait in one list, their results in another. An add job collects tracks in a buffer,
which becomes a result when it is full and when the job ends. What the files of a job
hold is a part of the job here. Refreshes of the cache are left out. -/
namespace GracefulMusic.Jobs

/-- What tracks are added to. -/
inductive Target where
  | lib
  | queue
  | playlist (pl : Nat)
  deriving DecidableEq

/-- `struct add_data`: the callback with its argument, and the tracks that the worker
will find. `serial` numbers the jobs as they are scheduled. -/
structure AddData where
  serial : Nat
  target : Target
  prepend : Bool
  tracks : List TrackInfo

/-- A track of an update job that the job does not skip: `none` stands for `UPDATE_REMOVE`,
else the tracks are what adding its file again will find. -/
structure UpdateEntry where
  ti : TrackInfo
  readd : Option (List TrackInfo)

/-- `delete` is the job behind a playlist that was deleted. -/
inductive Job where
  | add (data : AddData)
  | update (entries : List UpdateEntry)
  | delete (pl : Nat)

/-! ### Types of jobs -/

def jobTypeLib : UInt32 := (1 : UInt32) <<< 0
def jobTypePl : UInt32 := (1 : UInt32) <<< 1
def jobTypeQueue : UInt32 := (1 : UInt32) <<< 2
def jobTypeAdd : UInt32 := (1 : UInt32) <<< 16
def jobTypeUpdate : UInt32 := (1 : UInt32) <<< 17
def jobTypeDelete : UInt32 := (1 : UInt32) <<< 19
def jobTypeAny : UInt32 := ~~~0

def Target.jobType : Target → UInt32
  | .lib => jobTypeLib
  | .queue => jobTypeQueue
  | .playlist _ => jobTypePl

namespace Job

def type : Job → UInt32
  | .add data => data.target.jobType ||| jobTypeAdd
  | .update _ => jobTypeLib ||| jobTypeUpdate
  | .delete _ => jobTypePl ||| jobTypeDelete

/-- What a job changes in the end. A deletion waits for the others. -/
def target : Job → Option Target
  | .add data => some data.target
  | .update _ => some .lib
  | .delete _ => none

/-- The job has a pointer to the playlist. -/
def refersTo (pl : Nat) : Job → Prop
  | .add data => data.target = .playlist pl
  | .update _ => False
  | .delete pl' => pl' = pl

instance (pl : Nat) : DecidablePred (refersTo pl)
  | .add data => inferInstanceAs (Decidable (data.target = .playlist pl))
  | .update _ => isFalse id
  | .delete pl' => inferInstanceAs (Decidable (pl' = pl))

def workerMatchesType (pat : UInt32) (job : Job) : Bool := job.type &&& pat ≠ 0

/-- `opaque` of the add data is the playlist. -/
def plMatchAddJob (pl : Nat) (job : Job) : Bool :=
  job.type = jobTypePl ||| jobTypeAdd && job.target = some (.playlist pl)

theorem workerMatchesType_lib (job : Job) :
    job.workerMatchesType jobTypeLib = true ↔ job.target = some .lib := by
  rcases job with ⟨serial, _ | _ | pl, prepend, tracks⟩ | entries | pl <;>
    simp +decide [workerMatchesType, type, target, Target.jobType]

theorem workerMatchesType_queue (job : Job) :
    job.workerMatchesType jobTypeQueue = true ↔ job.target = some .queue := by
  rcases job with ⟨serial, _ | _ | pl, prepend, tracks⟩ | entries | pl <;>
    simp +decide [workerMatchesType, type, target, Target.jobType]

/-- A clear leaves deletions in the list. -/
theorem clear_spares_delete (pl : Nat) :
    workerMatchesType jobTypeLib (.delete pl) = false ∧
      workerMatchesType jobTypeQueue (.delete pl) = false :=
  ⟨Bool.eq_false_iff.mpr fun h => (nomatch (workerMatchesType_lib _).mp h),
    Bool.eq_false_iff.mpr fun h => nomatch (workerMatchesType_queue _).mp h⟩

theorem workerMatchesType_any (job : Job) : job.workerMatchesType jobTypeAny = true := by
  rcases job with ⟨serial, _ | _ | pl, prepend, tracks⟩ | entries | pl <;>
    simp +decide [workerMatchesType, type, Target.jobType]

theorem plMatchAddJob_iff (pl : Nat) (job : Job) :
    job.plMatchAddJob pl = true ↔ job.target = some (.playlist pl) := by
  rcases job with ⟨serial, _ | _ | pl', prepend, tracks⟩ | entries | pl' <;>
    simp +decide [plMatchAddJob, type, target, Target.jobType]

end Job

/-! ### The worker -/

/-- `cur_job`, with the tracks it has still to find and those in `ti_buffer`. -/
inductive Running where
  | add (data : AddData) (remaining buffer : List TrackInfo)
  | update (entries : List UpdateEntry)
  | delete (pl : Nat)

inductive Result where
  | add (data : AddData) (tis : List TrackInfo)
  | update (entries : List UpdateEntry)
  | plDelete (pl : Nat)

def Running.job : Running → Job
  | .add data _ _ => .add data
  | .update entries => .update entries
  | .delete pl => .delete pl

def Result.job : Result → Job
  | .add data _ => .add data
  | .update entries => .update entries
  | .plDelete pl => .delete pl

structure Worker where
  workerJobs : List Job
  curJob : Option Running
  results : List Result

def tiCap : Nat := 32

/-- `add_ti`, on the results and the buffer. -/
def addTi (data : AddData) (s : List Result × List TrackInfo) (ti : TrackInfo) :
    List Result × List TrackInfo :=
  if s.2.length = tiCap then (s.1 ++ [.add data s.2], [ti]) else (s.1, s.2 ++ [ti])

/-- The end of `do_add_job`. -/
def flushTiBuffer (data : AddData) (s : List Result × List TrackInfo) : List Result :=
  if s.2 = [] then s.1 else s.1 ++ [.add data s.2]

def Job.start : Job → Running
  | .add data => .add data data.tracks []
  | .update entries => .update entries
  | .delete pl => .delete pl

/-- `free_cb`: a deletion has its result from here, so that it has one even if the job is
removed. -/
def Job.freeCb : Job → List Result
  | .delete pl => [.plDelete pl]
  | _ => []

namespace Worker

def workerAddJob (w : Worker) (job : Job) : Worker := {w with workerJobs := w.workerJobs ++ [job]}

/-- The worker takes a job up. -/
def take (w : Worker) : Worker :=
  match w.curJob, w.workerJobs with
  | none, job :: rest => {w with curJob := some job.start, workerJobs := rest}
  | _, _ => w

/-- An add job comes to its next track. -/
def produce (w : Worker) : Worker :=
  match w.curJob with
  | some (.add data (ti :: remaining) buffer) =>
    let (results, buffer) := addTi data (w.results, buffer) ti
    {w with results, curJob := some (.add data remaining buffer)}
  | _ => w

/-- A job ends. -/
def finish (w : Worker) : Worker :=
  match w.curJob with
  | some (.add data [] buffer) =>
    {w with results := flushTiBuffer data (w.results, buffer), curJob := none}
  | some (.update entries) => {w with results := w.results ++ [.update entries], curJob := none}
  | some (.delete pl) => {w with results := w.results ++ Job.freeCb (.delete pl), curJob := none}
  | _ => w

/-- `worker_remove_jobs_by_cb`, which waits for the current job if that matches: an add
job comes to `more` tracks before it sees that it is cancelled. -/
def workerRemoveJobs (w : Worker) (cb : Job → Bool) (more : Nat) : Worker :=
  let w := {w with
    workerJobs := w.workerJobs.filter fun job => !cb job
    results := w.results ++ (w.workerJobs.filter cb).flatMap Job.freeCb}
  match w.curJob with
  | none => w
  | some running =>
    if cb running.job then
      match running with
      | .add data remaining buffer =>
        let found := (remaining.take more).foldl (addTi data) (w.results, buffer)
        {w with results := flushTiBuffer data found, curJob := none}
      | .update entries => {w with results := w.results ++ [.update entries], curJob := none}
      | .delete pl => {w with results := w.results ++ Job.freeCb (.delete pl), curJob := none}
    else w

/-- Where no job of the list matches, the current one is tested on what lies behind the
list head: `past` is the type that is read there. -/
def workerHasJobByType (w : Worker) (pat past : UInt32) : Bool :=
  w.workerJobs.any (Job.workerMatchesType pat) || (w.curJob.isSome && past &&& pat ≠ 0)

/-! ### Jobs and tracks on their way -/

/-- The jobs that wait, run, or have results that are not handled. -/
def jobs (w : Worker) : List Job :=
  w.results.map Result.job ++ (w.curJob.map Running.job).toList ++ w.workerJobs

/-- The numbers of the add jobs that a removal cancels. -/
def cancelled (w : Worker) (cb : Job → Bool) : List Nat :=
  ((w.curJob.map Running.job).toList ++ w.workerJobs).filterMap fun
    | .add data => if cb (.add data) then some data.serial else none
    | _ => none

end Worker

/-- A list of tracks, if it belongs to the add job of the number. -/
def AddData.share (n : Nat) (data : AddData) (tis : List TrackInfo) : List TrackInfo :=
  if data.serial = n then tis else []

def Result.share (n : Nat) : Result → List TrackInfo
  | .add data tis => data.share n tis
  | _ => []

def Running.share (n : Nat) : Running → List TrackInfo
  | .add data remaining buffer => data.share n (buffer ++ remaining)
  | _ => []

def Job.share (n : Nat) : Job → List TrackInfo
  | .add data => data.share n data.tracks
  | _ => []

namespace Worker

/-- The tracks of an add job that its callback has not been given. -/
def inFlight (w : Worker) (n : Nat) : List TrackInfo :=
  w.results.flatMap (Result.share n) ++ w.curJob.elim [] (Running.share n) ++
    w.workerJobs.flatMap (Job.share n)

end Worker

end GracefulMusic.Jobs
