import GracefulMusic.Server.Commands

/-! Which lines of a client are handled.

As long as a call that ends inside a line is not followed by a newline, the lines of the
stream are handled in turn, however the stream is split. What a call has of a line is lost
with its buffer, so a line that is completed in a later call is handled without its
beginning (`completed`). -/
namespace GracefulMusic.Server
open Frames
variable {env : Env}

/-! ### The log -/

theorem handleLine_log (env : Env) (c : Client) (raw : Text) :
    ∃ outcome, (handleLine env c raw).handled = c.handled ++ [(raw, outcome)] := by
  rw [handleLine]
  split
  · split
    · exact ⟨.disabled, rfl⟩
    · split
      · exact ⟨.accepted, rfl⟩
      · exact ⟨.refused, rfl⟩
  · dsimp only
    split <;> exact ⟨_, rfl⟩

theorem foldl_closed {c : Client} (hc : c.closed = true) (lines : List Text) :
    lines.foldl (handleNext env) c = c := by
  induction lines with
  | nil => rfl
  | cons raw lines ih => rw [List.foldl_cons, handleNext, if_pos hc, ih]

theorem foldl_log (env : Env) (lines : List Text) (c : Client) :
    ∃ more, (lines.foldl (handleNext env) c).handled = c.handled ++ more := by
  induction lines generalizing c with
  | nil => exact ⟨[], (List.append_nil _).symm⟩
  | cons raw lines ih =>
    rw [List.foldl_cons, handleNext]
    split
    · exact ih c
    · obtain ⟨outcome, hone⟩ := handleLine_log env c raw
      obtain ⟨more, hmore⟩ := ih (handleLine env c raw)
      exact ⟨(raw, outcome) :: more, by rw [hmore, hone, List.append_assoc, List.singleton_append]⟩

theorem foldl_cons_log (env : Env) {c : Client} (hopen : c.closed = false) (raw : Text) (lines : List Text) :
    ∃ outcome more, ((raw :: lines).foldl (handleNext env) c).handled =
      c.handled ++ (raw, outcome) :: more := by
  obtain ⟨outcome, hone⟩ := handleLine_log env c raw
  obtain ⟨more, hmore⟩ := foldl_log env lines (handleLine env c raw)
  refine ⟨outcome, more, ?_⟩
  rw [List.foldl_cons, handleNext, if_neg (by rw [hopen]; decide), hmore, hone, List.append_assoc,
    List.singleton_append]

/-! ### The lines of a stream -/

theorem follow_closed {c : Client} (hc : c.closed = true) (cur stream : Text) :
    follow env c cur stream = c := foldl_closed hc _

/-- A line that has filled the buffer is not handled, nor what comes behind it. -/
theorem follow_full {cur : Text} (hcur : bufSize ≤ cur.length) (c : Client) (stream : Text) :
    follow env c cur stream = c := by
  rw [follow]
  by_cases hmem : newline ∈ stream
  · obtain ⟨row, rest, hframes⟩ := frames_of_mem hmem
    have hlong : ¬ (cur ++ row).length < bufSize := by
      rw [List.length_append]
      omega
    rw [(hframes cur).1, List.takeWhile_cons_of_neg (by simpa using hlong)]
    rfl
  · rw [(frames_of_notMem hmem cur).1]
    rfl

theorem frames_fit {cur chunk : Text} (hfit : cur.length + chunk.length ≤ bufSize) :
    ∀ raw ∈ frames newline cur chunk, decide (raw.length < bufSize) = true := by
  intro raw hraw
  have := length_lt_of_mem_frames hraw
  exact decide_eq_true (by omega)

theorem follow_fit {cur chunk : Text} (hfit : cur.length + chunk.length ≤ bufSize) (c : Client) :
    follow env c cur chunk = (frames newline cur chunk).foldl (handleNext env) c := by
  rw [follow, List.takeWhile_eq_self_iff.mpr (frames_fit hfit)]

/-- A stream is followed piece by piece. -/
theorem follow_append {cur chunk : Text} (hfit : cur.length + chunk.length ≤ bufSize) (c : Client)
    (stream : Text) :
    follow env c cur (chunk ++ stream) =
      follow env (follow env c cur chunk) (unfinished newline cur chunk) stream := by
  rw [follow_fit hfit, follow, follow, frames_append,
    List.takeWhile_append_of_pos (frames_fit hfit), List.foldl_append]

theorem follow_pass {chunk : Text} (hchunk : newline ∉ chunk) (c : Client) (cur stream : Text) :
    follow env c cur (chunk ++ stream) = follow env c (cur ++ chunk) stream := by
  obtain ⟨hframes, hcat⟩ := frames_of_notMem hchunk cur
  rw [follow, follow, frames_append, hframes, hcat, List.nil_append]

/-- The next line of a stream is the first that is handled, or nothing is. -/
theorem follow_first (env : Env) {c : Client} (hopen : c.closed = false) {cur row stream : Text}
    {lines : List Text} (hframes : frames newline cur stream = (cur ++ row) :: lines) :
    (follow env c cur stream).handled = c.handled ∨ ∃ outcome more,
      (follow env c cur stream).handled = c.handled ++ (cur ++ row, outcome) :: more := by
  rw [follow, hframes]
  by_cases hfit : (cur ++ row).length < bufSize
  · rw [List.takeWhile_cons_of_pos (by simpa using hfit)]
    exact .inr (foldl_cons_log env hopen _ _)
  · rw [List.takeWhile_cons_of_neg (by simpa using hfit)]
    exact .inl rfl

/-! ### One read -/

/-- The loop over the buffer handles its lines until one closes the connection. -/
theorem scan_spec (env : Env) (s : Text) (line : Text) {c : Client} (hopen : c.closed = false) :
    (scan env s line c).client = (frames newline line s).foldl (handleNext env) c ∧
      ((scan env s line c).client.closed = false →
        (scan env s line c).buf = unfinished newline line s) := by
  induction s generalizing line c with
  | nil => exact ⟨rfl, fun _ => rfl⟩
  | cons b s ih =>
    rw [scan, frames, unfinished]
    by_cases hb : b = newline
    · have hfirst : handleNext env c line = handleLine env c line := by
        rw [handleNext, if_neg (by rw [hopen]; decide)]
      rw [if_neg (not_not.mpr hb), if_pos hb, if_pos hb, List.foldl_cons, hfirst]
      split
      · rename_i hclosed
        exact ⟨(foldl_closed hclosed _).symm, fun h => absurd (hclosed.symm.trans h) (by decide)⟩
      · rename_i hclosed
        exact ih [] (Bool.eq_false_iff.mpr hclosed)
    · rw [if_pos hb, if_neg hb, if_neg hb]
      exact ih _ hopen

theorem handleLine_authenticated {c : Client} (hc : c.authenticated = true) (raw : Text) :
    (handleLine env c raw).authenticated = true := by
  rw [handleLine, if_neg (by rw [hc]; decide)]
  dsimp only
  split <;> exact hc

theorem foldl_authenticated {c : Client} (hc : c.authenticated = true) (lines : List Text) :
    (lines.foldl (handleNext env) c).authenticated = true := by
  induction lines generalizing c with
  | nil => exact hc
  | cons raw lines ih =>
    rw [List.foldl_cons, handleNext]
    split
    · exact ih hc
    · exact ih (handleLine_authenticated hc raw)

/-- What holds between two reads. -/
structure Sane (env : Env) (s : Conn) : Prop where
  line : s.client.closed = false → newline ∉ s.buf
  size : s.client.closed = false → s.buf.length ≤ bufSize
  known : env.unix = true → s.client.authenticated = true

theorem step_closed {s : Conn} (hclosed : s.client.closed = true) (r : Read) :
    step env s r = some s := by
  rw [step.eq_def, if_pos hclosed]

theorem Sane.step_again {s : Conn} (hs : Sane env s) (hopen : s.client.closed = false)
    (hroom : s.buf.length ≠ bufSize) : step env s .again = some ⟨s.client, []⟩ := by
  have hauth : (s.client.authenticated || env.unix) = s.client.authenticated := by
    cases hunix : env.unix with
    | false => exact Bool.or_false _
    | true => rw [hs.known hunix]; rfl
  rw [step.eq_def, if_neg (by rw [hopen]; decide), if_neg hroom]
  dsimp only
  rw [begin, hauth]

theorem Sane.step_data {s t : Conn} {chunk : Text} (hs : Sane env s)
    (hopen : s.client.closed = false) (hroom : s.buf.length ≠ bufSize)
    (hstep : step env s (.data chunk) = some t) :
    s.buf.length + chunk.length ≤ bufSize ∧ t.client = follow env s.client s.buf chunk ∧
      (t.client.closed = false → t.buf = unfinished newline s.buf chunk) := by
  rw [step.eq_def, if_neg (by rw [hopen]; decide), if_neg hroom] at hstep
  dsimp only at hstep
  split at hstep
  · rename_i hfit
    obtain rfl := Option.some.inj hstep
    obtain ⟨hclient, hbuf⟩ := scan_spec env (s.buf ++ chunk) [] hopen
    obtain ⟨hnone, hcur⟩ := frames_of_notMem (hs.line hopen) []
    rw [frames_append, hnone, hcur, List.nil_append, List.nil_append] at hclient
    exact ⟨hfit.2, by rw [hclient, follow_fit hfit.2], fun h => by
      rw [hbuf h, unfinished_append, hcur, List.nil_append]⟩
  · cases hstep

theorem step_interrupted {s : Conn} (hopen : s.client.closed = false)
    (hroom : s.buf.length ≠ bufSize) : step env s .interrupted = some s := by
  rw [step.eq_def, if_neg (by rw [hopen]; decide), if_neg hroom]

theorem step_stop {s : Conn} (r : Read) (hr : r = .stop ∨ s.buf.length = bufSize)
    (hopen : s.client.closed = false) : step env s r = some s.close := by
  rw [step.eq_def, if_neg (by rw [hopen]; decide)]
  split
  · rfl
  · rename_i hroom
    rw [hr.resolve_right hroom]

/-- The reads by what they do. -/
theorem Sane.step_cases {s t : Conn} (hs : Sane env s) {r : Read} (hstep : step env s r = some t) :
    (s.client.closed = true ∧ t = s) ∨
    (s.client.closed = false ∧ (r = .stop ∨ s.buf.length = bufSize) ∧ t = s.close) ∨
    (s.client.closed = false ∧ s.buf.length < bufSize ∧
      (r = .interrupted ∧ t = s ∨ r = .again ∧ t = ⟨s.client, []⟩ ∨
        ∃ chunk, r = .data chunk ∧ s.buf.length + chunk.length ≤ bufSize ∧
          t.client = follow env s.client s.buf chunk ∧
          (t.client.closed = false → t.buf = unfinished newline s.buf chunk))) := by
  cases hclosed : s.client.closed with
  | true =>
    obtain rfl := Option.some.inj ((step_closed hclosed r).symm.trans hstep)
    exact .inl ⟨rfl, rfl⟩
  | false =>
    by_cases hfull : r = .stop ∨ s.buf.length = bufSize
    · obtain rfl := Option.some.inj ((step_stop r hfull hclosed).symm.trans hstep)
      exact .inr (.inl ⟨rfl, hfull, rfl⟩)
    · rw [not_or] at hfull
      have hroom : s.buf.length < bufSize := Nat.lt_of_le_of_ne (hs.size hclosed) hfull.2
      apply Or.inr
      apply Or.inr
      apply And.intro rfl
      apply And.intro hroom
      cases r with
      | data chunk =>
        exact .inr (.inr ⟨chunk, rfl, hs.step_data hclosed hfull.2 hstep⟩)
      | interrupted =>
        obtain rfl := Option.some.inj ((step_interrupted hclosed hfull.2).symm.trans hstep)
        exact .inl ⟨rfl, rfl⟩
      | again =>
        obtain rfl := Option.some.inj ((hs.step_again hclosed hfull.2).symm.trans hstep)
        exact .inr (.inl ⟨rfl, rfl⟩)
      | stop => exact absurd rfl hfull.1

theorem Sane.step {s t : Conn} (hs : Sane env s) {r : Read} (hstep : step env s r = some t) :
    Sane env t := by
  rcases hs.step_cases hstep with ⟨_, rfl⟩ | ⟨_, _, rfl⟩ | ⟨hopen, _, ⟨_, rfl⟩ | ⟨_, rfl⟩ |
    ⟨chunk, _, hfit, hclient, hbuf⟩⟩
  · exact hs
  · exact ⟨nofun, nofun, hs.known⟩
  · exact hs
  · exact ⟨fun _ => List.not_mem_nil, fun _ => Nat.zero_le _, hs.known⟩
  · constructor
    · intro h
      rw [hbuf h]
      exact notMem_unfinished (hs.line hopen) chunk
    · intro h
      rw [hbuf h]
      exact Nat.le_trans (length_unfinished_le _ _) hfit
    · intro hunix
      rw [hclient]
      exact foldl_authenticated (hs.known hunix) _

theorem sane_serverAccept (env : Env) : Sane env (serverAccept env) :=
  ⟨fun _ => List.not_mem_nil, fun _ => Nat.zero_le _, fun hunix => hunix⟩

/-! ### Runs -/

theorem run_closed {s t : Conn} {reads : List Read} (hclosed : s.client.closed = true)
    (hrun : Runs.run (step env) s reads = some t) : t = s := by
  induction reads with
  | nil => exact (Option.some.inj hrun).symm
  | cons r reads ih =>
    rw [Runs.run, step_closed hclosed, Option.bind_some] at hrun
    exact ih hrun

/-- The log only grows. -/
theorem run_log {s t : Conn} {reads : List Read} (hs : Sane env s)
    (hrun : Runs.run (step env) s reads = some t) :
    ∃ more, t.client.handled = s.client.handled ++ more := by
  induction reads generalizing s with
  | nil =>
    obtain rfl := Option.some.inj hrun
    exact ⟨[], (List.append_nil _).symm⟩
  | cons r reads ih =>
    obtain ⟨u, hu, hrest⟩ := Option.bind_eq_some_iff.mp hrun
    obtain ⟨more, hmore⟩ := ih (hs.step hu) hrest
    rcases hs.step_cases hu with ⟨_, rfl⟩ | ⟨_, _, rfl⟩ | ⟨_, _, ⟨_, rfl⟩ | ⟨_, rfl⟩ |
      ⟨chunk, _, hfit, hclient, _⟩⟩
    · exact ⟨more, hmore⟩
    · exact ⟨more, hmore⟩
    · exact ⟨more, hmore⟩
    · exact ⟨more, hmore⟩
    · obtain ⟨first, hfirst⟩ := foldl_log env (frames newline s.buf chunk) s.client
      rw [follow_fit hfit] at hclient
      exact ⟨first ++ more, by rw [hmore, hclient, hfirst, List.append_assoc]⟩

/-- Where no newline comes in time nothing more is handled, of the stream neither. -/
theorem quiet {s t : Conn} {reads : List Read} (hs : Sane env s) (hopen : s.client.closed = false)
    (hrun : Runs.run (step env) s reads = some t)
    (hnone : completes (bufSize - s.buf.length) reads = false) (c : Client) {cur : Text}
    (hcur : s.buf.length ≤ cur.length) :
    t.client.handled = s.client.handled ∧ follow env c cur (received reads) = c := by
  induction reads generalizing s cur with
  | nil =>
    obtain rfl := Option.some.inj hrun
    exact ⟨rfl, rfl⟩
  | cons r reads ih =>
    obtain ⟨u, hu, hrest⟩ := Option.bind_eq_some_iff.mp hrun
    rcases hs.step_cases hu with ⟨hclosed, _⟩ | ⟨_, hstop, rfl⟩ | ⟨_, hroom, hkind⟩
    · exact absurd (hopen.symm.trans hclosed) (by decide)
    · obtain rfl := run_closed (s := s.close) rfl hrest
      refine ⟨rfl, ?_⟩
      rcases hstop with rfl | hfull
      · rfl
      · exact follow_full (by omega) c _
    · have hleft : bufSize - s.buf.length ≠ 0 := by omega
      rcases hkind with ⟨rfl, rfl⟩ | ⟨rfl, rfl⟩ | ⟨chunk, rfl, hfit, hclient, hbuf⟩
      · exact ih hs hopen hrest (by simpa [completes, hleft] using hnone) hcur
      · exact ih (hs.step hu) hopen hrest (by simpa [completes, hleft] using hnone) (Nat.zero_le _)
      · have hno : newline ∉ chunk ∧ completes (bufSize - s.buf.length - chunk.length) reads = false := by
          simpa [completes, hleft] using hnone
        obtain ⟨hframes, hcat⟩ := frames_of_notMem hno.1 s.buf
        rw [follow_fit hfit, hframes, List.foldl_nil] at hclient
        have hopen' : u.client.closed = false := hclient ▸ hopen
        have hlen : u.buf.length = s.buf.length + chunk.length := by
          rw [hbuf hopen', hcat, List.length_append]
        have hcur' : u.buf.length ≤ (cur ++ chunk).length := by
          rw [hlen, List.length_append]
          omega
        obtain ⟨hhandled, hfollow⟩ := ih (hs.step hu) hopen' hrest
          (by rw [hlen, Nat.sub_add_eq]; exact hno.2) hcur'
        refine ⟨by rw [hhandled, hclient], ?_⟩
        rw [received, follow_pass hno.1]
        exact hfollow

/-- Where a newline comes in time, what the call has of the line is handled. -/
theorem completed {s t : Conn} {reads : List Read} (hs : Sane env s)
    (hopen : s.client.closed = false) (hrun : Runs.run (step env) s reads = some t)
    (hsome : completes (bufSize - s.buf.length) reads = true) :
    ∃ row lines, (∀ cur, frames newline cur (received reads) = (cur ++ row) :: lines) ∧
      ∃ line outcome more, t.client.handled = s.client.handled ++ (line, outcome) :: more ∧
        line.length ≤ s.buf.length + row.length := by
  induction reads generalizing s with
  | nil => cases hsome
  | cons r reads ih =>
    obtain ⟨u, hu, hrest⟩ := Option.bind_eq_some_iff.mp hrun
    rcases hs.step_cases hu with ⟨hclosed, _⟩ | ⟨_, hstop, rfl⟩ | ⟨_, hroom, hkind⟩
    · exact absurd (hopen.symm.trans hclosed) (by decide)
    · exfalso
      rcases hstop with rfl | hfull
      · cases hsome
      · rw [hfull, Nat.sub_self] at hsome
        cases r <;> cases hsome
    · have hleft : bufSize - s.buf.length ≠ 0 := by omega
      rcases hkind with ⟨rfl, rfl⟩ | ⟨rfl, rfl⟩ | ⟨chunk, rfl, hfit, hclient, hbuf⟩
      · exact ih hs hopen hrest (by simpa [completes, hleft] using hsome)
      · obtain ⟨row, lines, hframes, line, outcome, more, hhandled, hlen⟩ :=
          ih (hs.step hu) hopen hrest (by simpa [completes, hleft] using hsome)
        rw [List.length_nil] at hlen
        exact ⟨row, lines, hframes, line, outcome, more, hhandled, by omega⟩
      · by_cases hmem : newline ∈ chunk
        · obtain ⟨row, rest, hframes⟩ := frames_of_mem hmem
          obtain ⟨outcome, first, hfirst⟩ := foldl_cons_log env hopen (s.buf ++ row)
            (frames newline [] rest)
          obtain ⟨more, hmore⟩ := run_log (hs.step hu) hrest
          rw [follow_fit hfit, (hframes s.buf).1] at hclient
          refine ⟨row, frames newline [] rest ++ frames newline (unfinished newline [] rest)
            (received reads), fun cur => ?_, s.buf ++ row, outcome, first ++ more, ?_, ?_⟩
          · rw [received, frames_append, (hframes cur).1, (hframes cur).2, List.cons_append]
          · rw [hmore, hclient, hfirst, List.append_assoc, List.cons_append]
          · rw [List.length_append]
        · have hlater : completes (bufSize - s.buf.length - chunk.length) reads = true := by
            simpa [completes, hleft, hmem] using hsome
          obtain ⟨hnone, hcat⟩ := frames_of_notMem hmem s.buf
          rw [follow_fit hfit, hnone, List.foldl_nil] at hclient
          have hopen' : u.client.closed = false := hclient ▸ hopen
          have hbytes : u.buf = s.buf ++ chunk := (hbuf hopen').trans hcat
          obtain ⟨row, lines, hframes, line, outcome, more, hhandled, hlen⟩ :=
            ih (hs.step hu) hopen' hrest
              (by rw [hbytes, List.length_append, Nat.sub_add_eq]; exact hlater)
          rw [hbytes, List.length_append] at hlen
          refine ⟨chunk ++ row, lines, fun cur => ?_, line, outcome, more, by rw [hhandled, hclient],
            by rw [List.length_append]; omega⟩
          obtain ⟨hnone', hcat'⟩ := frames_of_notMem hmem cur
          rw [received, frames_append, hnone', hcat', hframes, List.nil_append, List.append_assoc]

/-! ### Where a call ends -/

/-- `Kept` from any state on. -/
def KeptFrom (env : Env) (s : Conn) (reads : List Read) : Prop :=
  ∀ front rest t, reads = front ++ .again :: rest → Runs.run (step env) s front = some t →
    t.client.closed = false → t.buf ≠ [] → t.buf.length < bufSize → completes bufSize rest = false

theorem keptFrom_cons {s u : Conn} {r : Read} {reads : List Read} (hu : step env s r = some u) :
    KeptFrom env s (r :: reads) ↔
      (r = .again → s.client.closed = false → s.buf ≠ [] → s.buf.length < bufSize →
        completes bufSize reads = false) ∧ KeptFrom env u reads := by
  constructor
  · intro h
    constructor
    · intro heq
      subst heq
      exact h [] reads s rfl rfl
    · intro front rest t hsplit hrun
      exact h (r :: front) rest t (by rw [hsplit, List.cons_append])
        (by rw [Runs.run, hu, Option.bind_some, hrun])
  · rintro ⟨hhere, hlater⟩ front rest t hsplit hrun
    cases front with
    | nil =>
      obtain ⟨rfl, rfl⟩ := List.cons.inj hsplit
      obtain rfl := Option.some.inj hrun
      exact hhere rfl
    | cons q front =>
      obtain ⟨rfl, rfl⟩ := List.cons.inj hsplit
      rw [Runs.run, hu, Option.bind_some] at hrun
      exact hlater front rest t rfl hrun

/-- Exactly where no line is completed whose beginning is lost, the stream is handled as
its lines are. -/
theorem follows_iff {s t : Conn} {reads : List Read} (hs : Sane env s)
    (hrun : Runs.run (step env) s reads = some t) :
    t.client.handled = (follow env s.client s.buf (received reads)).handled ↔
      KeptFrom env s reads := by
  induction reads generalizing s with
  | nil =>
    obtain rfl := Option.some.inj hrun
    apply iff_of_true rfl
    intro front rest t hsplit
    exact absurd hsplit.symm (List.append_ne_nil_of_right_ne_nil _ (List.cons_ne_nil _ _))
  | cons r reads ih =>
    obtain ⟨u, hu, hrest⟩ := Option.bind_eq_some_iff.mp hrun
    rw [keptFrom_cons hu, ← ih (hs.step hu) hrest]
    rcases hs.step_cases hu with ⟨hclosed, rfl⟩ | ⟨hopen, hstop, rfl⟩ | ⟨hopen, hroom, hkind⟩
    · rw [follow_closed hclosed, follow_closed hclosed]
      exact ⟨fun h => ⟨fun _ h' => absurd (hclosed.symm.trans h') (by decide), h⟩, And.right⟩
    · have hfollow : follow env s.client s.buf (received (r :: reads)) = s.client := by
        rcases hstop with rfl | hfull
        · rfl
        · exact follow_full (Nat.le_of_eq hfull.symm) _ _
      obtain rfl := run_closed (s := s.close) rfl hrest
      rw [hfollow, follow_closed (c := s.close.client) rfl]
      apply iff_of_true rfl
      refine ⟨fun hr _ _ hroom => ?_, rfl⟩
      rcases hstop with rfl | hfull
      · cases hr
      · omega
    · rcases hkind with ⟨rfl, rfl⟩ | ⟨rfl, rfl⟩ | ⟨chunk, rfl, hfit, hclient, hbuf⟩
      · exact ⟨fun h => ⟨nofun, h⟩, And.right⟩
      · rw [show received (.again :: reads) = received reads from rfl]
        by_cases hempty : s.buf = []
        · rw [hempty]
          exact ⟨fun h => ⟨fun _ _ hbuf => absurd rfl hbuf, h⟩, And.right⟩
        cases hnext : completes bufSize reads with
        | false =>
          have hquiet := fun cur => quiet (hs.step hu) hopen hrest hnext s.client (Nat.zero_le
            (List.length cur))
          rw [(hquiet s.buf).2]
          show _ ↔ _ ∧ t.client.handled = (follow env s.client [] (received reads)).handled
          rw [(hquiet []).2]
          exact ⟨fun h => ⟨fun _ _ _ _ => rfl, h⟩, And.right⟩
        | true =>
          -- the line that is handled is shorter than the line of the stream
          obtain ⟨row, lines, hframes, line, outcome, more, hhandled, hlen⟩ :=
            completed (hs.step hu) hopen hrest hnext
          have hpos := List.length_pos_iff.mpr hempty
          apply iff_of_false
          · intro hsame
            replace hhandled : t.client.handled = s.client.handled ++ (line, outcome) :: more :=
              hhandled
            rcases follow_first env hopen (hframes s.buf) with hnone | ⟨_, _, hfirst⟩
            · rw [hsame, hnone] at hhandled
              simp at hhandled
            · rw [hsame, hfirst] at hhandled
              obtain ⟨hentry, -⟩ := List.cons.inj (List.append_cancel_left hhandled)
              rw [← (Prod.mk.inj hentry).1, List.length_append, List.length_nil] at hlen
              omega
          · intro h
            exact absurd (h.1 rfl hopen hempty hroom) (by decide)
      · have hfollow : follow env s.client s.buf (received (.data chunk :: reads)) =
            follow env u.client u.buf (received reads) := by
          rw [received, follow_append hfit, ← hclient]
          cases hclosed : u.client.closed with
          | true => rw [follow_closed hclosed, follow_closed hclosed]
          | false => rw [hbuf hclosed]
        rw [hfollow]
        exact ⟨fun h => ⟨nofun, h⟩, And.right⟩

/-! ### The password -/

theorem carries_of_passwdArg {password raw : Text}
    (h : passwdArg (raw.takeWhile (· ≠ 0)) = password) : Carries password raw := by
  rw [passwdArg] at h
  split at h
  · rename_i hname
    obtain ⟨rest, hrest⟩ := List.isPrefixOf_iff_prefix.mp hname
    rw [← hrest] at h
    obtain rfl : rest = password := h
    exact .inr hrest.symm
  · exact .inl h

/-- A client is known by a line that was accepted, and nothing stands before that line. -/
structure Barred (password : Text) (c : Client) : Prop where
  accepted : c.authenticated = true → ∃ line, (line, Outcome.accepted) ∈ c.handled ∧
    Carries password line
  executed : ∀ before raw command behind, c.handled = before ++ (raw, .executed command) :: behind →
    ∃ line, (line, Outcome.accepted) ∈ before ∧ Carries password line

theorem Barred.log {password : Text} {c : Client} (h : Barred password c) (raw : Text)
    {outcome : Outcome} (hauth : ∀ command, outcome = .executed command → c.authenticated = true) :
    Barred password (c.log raw outcome) := by
  constructor
  · intro hc
    obtain ⟨line, hline, hcarries⟩ := h.accepted hc
    exact ⟨line, List.mem_append_left _ hline, hcarries⟩
  · intro before raw' command behind hsplit
    replace hsplit : c.handled ++ [(raw, outcome)] =
      before ++ (raw', .executed command) :: behind := hsplit
    rcases List.eq_nil_or_concat behind with rfl | ⟨behind, last, rfl⟩
    · obtain ⟨rfl, hentry⟩ := List.append_inj' hsplit rfl
      obtain ⟨-, houtcome⟩ := Prod.mk.inj (List.cons.inj hentry).1
      exact h.accepted (hauth command houtcome)
    · rw [List.concat_eq_append, ← List.cons_append, ← List.append_assoc] at hsplit
      exact h.executed _ _ _ _ (List.append_inj' hsplit rfl).1

theorem Barred.handleLine {password : Text} (hpassword : env.serverPassword = some password)
    {c : Client} (h : Barred password c) (raw : Text) : Barred password (handleLine env c raw) := by
  rw [Server.handleLine, hpassword]
  split
  · dsimp only
    split
    · rename_i hsame
      have hlog := h.log raw (show ∀ command, Outcome.accepted = .executed command → _ from nofun)
      refine ⟨fun _ => ⟨raw, ?_, carries_of_passwdArg hsame⟩, hlog.executed⟩
      exact List.mem_append_right _ List.mem_cons_self
    · have hlog := h.log raw (show ∀ command, Outcome.refused = .executed command → _ from nofun)
      exact ⟨hlog.accepted, hlog.executed⟩
  · rename_i hauth
    have hknown : ∀ command, Outcome.executed (commandOf (raw.takeWhile (· ≠ 0))) =
        .executed command → c.authenticated = true := fun _ _ => by simpa using hauth
    have hlog := h.log raw hknown
    dsimp only
    split
    · exact hlog
    · exact ⟨hlog.accepted, hlog.executed⟩

theorem Barred.foldl {password : Text} (hpassword : env.serverPassword = some password)
    {c : Client} (h : Barred password c) (lines : List Text) :
    Barred password (lines.foldl (handleNext env) c) := by
  induction lines generalizing c with
  | nil => exact h
  | cons raw lines ih =>
    rw [List.foldl_cons, handleNext]
    split
    · exact ih h
    · exact ih (h.handleLine hpassword raw)

theorem run_guarded {t : Conn} {reads : List Read}
    (hrun : Runs.run (step env) (serverAccept env) reads = some t) :
    Guarded env t.client.handled := by
  intro hunix password hpassword
  have hstep : ∀ (s : Conn) (r : Read) (u : Conn), Sane env s ∧ Barred password s.client →
      step env s r = some u → Sane env u ∧ Barred password u.client := by
    intro s r u ⟨hs, hbarred⟩ hu
    apply And.intro (hs.step hu)
    rcases hs.step_cases hu with ⟨_, rfl⟩ | ⟨_, _, rfl⟩ | ⟨_, _, ⟨_, rfl⟩ | ⟨_, rfl⟩ |
      ⟨chunk, _, hfit, hclient, _⟩⟩
    · exact hbarred
    · exact ⟨hbarred.accepted, hbarred.executed⟩
    · exact hbarred
    · exact hbarred
    · rw [hclient]
      exact hbarred.foldl hpassword _
  have hstart : Barred password (serverAccept env).client := by
    constructor
    · intro hauth
      exact absurd (hunix.symm.trans hauth) (by decide)
    · intro before raw command behind hsplit
      exact absurd hsplit.symm (List.append_ne_nil_of_right_ne_nil _ (List.cons_ne_nil _ _))
  exact (Runs.run_preserves hstep _ t reads ⟨sane_serverAccept env, hstart⟩ hrun).2.executed

/-! ### Every splitting -/

/-- The lines of the stream are handled one by one and in order, none before the password,
exactly where no call ends inside a line that a later one completes. -/
theorem read_commands_lines (env : Env) (reads : List Read) (t : Conn)
    (hrun : Runs.run (step env) (serverAccept env) reads = some t) :
    t.client.handled = linesHandled env (received reads) ∧ Guarded env t.client.handled ↔
      Kept env reads := by
  have hlines := follows_iff (sane_serverAccept env) hrun
  exact (and_iff_left (run_guarded hrun)).trans hlines

/-- A password, and a command in two pieces. -/
theorem read_commands_lines_two_reads :
    let env : Env := ⟨false, some (ascii "x"), fun _ => true⟩
    ∃ t, Runs.run (step env) (serverAccept env)
        [.data (ascii "passwd x\nsta"), .data (ascii "tus\n")] = some t ∧
      t.client.handled = linesHandled env (ascii "passwd x\nstatus\n") ∧
      Guarded env t.client.handled := by
  intro env
  have hrun : Runs.run (step env) (serverAccept env)
      [.data (ascii "passwd x\nsta"), .data (ascii "tus\n")] =
      some ⟨⟨true, false, [(ascii "passwd x", .accepted), (ascii "status", .executed .status)]⟩, []⟩ := by
    decide +kernel
  have hkept : Kept env [.data (ascii "passwd x\nsta"), .data (ascii "tus\n")] := by
    intro front rest s hsplit
    have hmem : Read.again ∈ front ++ .again :: rest :=
      List.mem_append_right _ List.mem_cons_self
    rw [← hsplit] at hmem
    simp at hmem
  exact ⟨_, hrun, (read_commands_lines env _ _ hrun).mpr hkept⟩

/-- A command that arrives in two calls is handled without its beginning. -/
theorem call_loses_beginning :
    let env : Env := ⟨true, none, fun _ => true⟩
    let parted := [Read.data (ascii "player-"), .again, .data (ascii "pause\n")]
    let whole := [Read.data (ascii "player-pause\n")]
    received parted = received whole ∧
      (Runs.run (step env) (serverAccept env) parted).map (·.client.handled) =
        some [(ascii "pause", .executed (.run (ascii "pause") none))] ∧
      (Runs.run (step env) (serverAccept env) whole).map (·.client.handled) =
        some [(ascii "player-pause", .executed (.run (ascii "player-pause") none))] := by
  decide +kernel

/-- Two ways of splitting a stream make no difference. -/
theorem split_irrelevant {reads reads' : List Read} {t t' : Conn}
    (hrun : Runs.run (step env) (serverAccept env) reads = some t)
    (hrun' : Runs.run (step env) (serverAccept env) reads' = some t')
    (hkept : Kept env reads) (hkept' : Kept env reads') (hsame : received reads = received reads') :
    t.client.handled = t'.client.handled := by
  have hlines := (follows_iff (sane_serverAccept env) hrun).mpr hkept
  have hlines' := (follows_iff (sane_serverAccept env) hrun').mpr hkept'
  rw [hlines, hlines', hsame]

end GracefulMusic.Server
