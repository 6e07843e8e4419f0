import LiburingRs.Ring

/-!
# `poll-bench`

The benchmark's loop runs until the clock reaches `tstop`.  A round tries `get_sqe`
`QUEUE_DEPTH` times, filling each entry it gets with a poll for input on the pipe's
read end (fixed file `0`, tag `1`), submits them, writes a byte into the pipe and
reads it back, and then calls `wait_cqe` `QUEUE_DEPTH` times, counting every
completion in `nr_reqs`, a failed poll included.  A submit that hands the kernel fewer
than `QUEUE_DEPTH` entries is reported on stderr, and the round goes on.

The kernel's part is an oracle by round: the clock, the outcome of the enter, what the
pipe's `write` and `read` return, the completions posted before each `wait_cqe`, and
whether a `wait_cqe` on an empty queue fails.  Whatever it does, every round starts on
a ring as `IoUring::new(1024)` set it up and `nr_reqs` is `QUEUE_DEPTH` times the rounds
finished: the waits can only retire the round's own polls, so a round finishes only
when the kernel took all of them.  After the short submit the code reports and goes
on from, the round fails or waits for good.
-/

namespace LiburingRs

namespace Examples

namespace PollBench

/-- `QUEUE_DEPTH`. -/
def queueDepth : Nat := 32

/-- The ring's size: `IoUring::with_flags(1024, SINGLE_ISSUER)`, or `IoUring::new(1024)`
where the flag is refused. -/
def ringEntries : Nat := 1024

/-- `libc::POLLIN`. -/
def pollin : Nat := 1

/-- A `POLL_ADD` as `io_uring_prep_poll_add` prepares it, with whether `set_flags`
marked its descriptor a registered file (`IOSQE_FIXED_FILE`). -/
structure PollAdd where
  fd : Int
  pollMask : Nat
  fixedFile : Bool
  deriving DecidableEq, Repr

/-- The entry each round queues: a poll for input on registered file `0`, the pipe's
read end, tagged `1`. -/
def pollSqe : Sqe PollAdd := ⟨⟨0, pollin, true⟩, 1, false⟩

/-- The errors `main` returns, boxed: the ring's, or a message. -/
inductive Failure where
  | ring (e : Error)
  | message (text : String)
  deriving DecidableEq, Repr

/-- The kernel's side of a run, by round: whether `get_time_ms()` has reached `tstop`
at the round's check; the outcome of the `io_uring_enter` inside `submit`; what the
`write` into the pipe and the `read` back return; the completions posted before the
round's `i`-th `wait_cqe` (an index in flight and a result each); and whether that
`wait_cqe` fails on an empty queue. -/
structure Kernel where
  stopped : Nat → Bool
  enter : Nat → Except Int Nat
  pipeWrite : Nat → Int
  pipeRead : Nat → Int
  completions : Nat → Nat → List (Nat × Int)
  waitError : Nat → Nat → Option Int

/-- The kernel completes entries in flight, in order; a completion of nothing in flight
is ignored. -/
def post (completions : List (Nat × Int)) (ring : Ring PollAdd) : Ring PollAdd :=
  completions.foldl (fun ring c => (ring.complete c.1 c.2).getD ring) ring

/-- The ring, `nr_reqs`, and a ghost count of the rounds finished. -/
structure Locals where
  ring : Ring PollAdd
  nrReqs : Nat
  rounds : Nat
  deriving DecidableEq, Repr

/-- The `for` loop that queues a round's polls: `tries` calls of `get_sqe`, a call on a
full queue skipped. -/
def queuePolls : Nat → Ring PollAdd → Ring PollAdd
  | 0, ring => ring
  | tries + 1, ring => queuePolls tries ((ring.getSqe pollSqe).getD ring)

/-- The `for` loop that waits for round `n`'s completions, the `i`-th wait next and
`waits` left; `none` while a `wait_cqe` blocks.  A failed poll is reported on stderr and
counted all the same. -/
def waitPolls (kernel : Kernel) (n : Nat) :
    Nat → Nat → Locals → Option (Except Failure Locals)
  | 0, _, st => some (.ok st)
  | waits + 1, i, st =>
      match (post (kernel.completions n i) st.ring).waitCqe (kernel.waitError n i) with
      | none => none
      | some (.error e) => some (.error (.ring e))
      | some (.ok (_, ring)) =>
          waitPolls kernel n waits (i + 1) { st with ring, nrReqs := st.nrReqs + 1 }

/-- One round of the loop: `Ok none` at the `break` once the clock has reached `tstop`,
`Ok (some st)` to go on, `none` while a call waits.  A submit that hands the kernel
fewer than `QUEUE_DEPTH` entries is reported on stderr, and the round goes on. -/
def iteration (kernel : Kernel) (st : Locals) : Option (Except Failure (Option Locals)) :=
  if kernel.stopped st.rounds then some (.ok none)
  else
    match (queuePolls queueDepth st.ring).submit (kernel.enter st.rounds) with
    | (_, .error e) => some (.error (.ring e))
    | (ring, .ok _) =>
        if kernel.pipeWrite st.rounds ≠ 1 then some (.error (.message "Write failed"))
        else if kernel.pipeRead st.rounds ≠ 1 then some (.error (.message "Read failed"))
        else
          match waitPolls kernel st.rounds queueDepth 0 { st with ring } with
          | none => none
          | some (.error e) => some (.error e)
          | some (.ok st) => some (.ok (some { st with rounds := st.rounds + 1 }))

/-- The benchmark's loop, with `fuel` rounds; on `Ok` the locals at the `break`. -/
def benchLoop (kernel : Kernel) : Nat → Locals → Option (Except Failure Locals)
  | 0, _ => none
  | fuel + 1, st =>
      match iteration kernel st with
      | none => none
      | some (.error e) => some (.error e)
      | some (.ok none) => some (.ok st)
      | some (.ok (some st)) => benchLoop kernel fuel st

/-- The locals when the loop starts: a fresh ring of `1024` entries, `nr_reqs = 0`. -/
def start : Locals := ⟨Ring.empty ringEntries, 0, 0⟩

/-- `main` from the benchmark's loop on, with `fuel` rounds. -/
def main (kernel : Kernel) (fuel : Nat) : Option (Except Failure Locals) :=
  benchLoop kernel fuel start

section Round

variable {kernel : Kernel} {n : Nat} {st st' : Locals}

/-- With room for them, `tries` calls of `get_sqe` all succeed. -/
theorem queuePolls_room {entries : Nat} : ∀ tries (prepared : List (Sqe PollAdd)),
    prepared.length + tries ≤ entries →
      queuePolls tries ⟨entries, prepared, [], [], []⟩ =
        ⟨entries, prepared ++ List.replicate tries pollSqe, [], [], []⟩
  | 0, prepared, _ => by simp [queuePolls]
  | tries + 1, prepared, room => by
      have got : Ring.getSqe pollSqe ⟨entries, prepared, [], [], []⟩ =
          some ⟨entries, prepared ++ [pollSqe], [], [], []⟩ := by
        have fits : prepared.length < entries := by omega
        simp only [Ring.getSqe, List.length_nil, Nat.zero_add, if_pos fits]
      rw [queuePolls, got, Option.getD_some,
        queuePolls_room tries _ (by rw [List.length_append, List.length_singleton]; omega),
        List.replicate_succ, List.append_assoc, List.singleton_append]

/-- On a fresh ring the round's `get_sqe` calls all succeed. -/
theorem queuePolls_empty :
    queuePolls queueDepth (Ring.empty ringEntries) =
      ⟨ringEntries, List.replicate queueDepth pollSqe, [], [], []⟩ :=
  queuePolls_room queueDepth [] (by decide)

theorem keeps_post : ∀ (completions : List (Nat × Int)) (ring : Ring PollAdd),
    Ring.Keeps ring (post completions ring)
  | [], ring => .refl ring
  | c :: rest, ring =>
      (Ring.keeps_complete ring c.1 c.2).trans (keeps_post rest _)

/-- Nothing is posted while nothing is in flight. -/
theorem post_of_inflight_nil {ring : Ring PollAdd} (idle : ring.inflight = []) :
    ∀ completions, post completions ring = ring
  | [] => rfl
  | c :: rest => by
      have still : (ring.complete c.1 c.2).getD ring = ring := by simp [Ring.complete, idle]
      rw [post, List.foldl_cons, still]
      exact post_of_inflight_nil idle rest

/-- Completing the oldest entry in flight once for each entry empties the flight. -/
theorem post_oldest (res : Int) : ∀ k (ring : Ring PollAdd), ring.inflight.length = k →
    (post (List.replicate k (0, res)) ring).inflight = []
  | 0, _, idle => List.eq_nil_of_length_eq_zero idle
  | k + 1, ring, count => by
      obtain ⟨sqe, rest, inflight⟩ : ∃ sqe rest, ring.inflight = sqe :: rest := by
        cases h : ring.inflight with
        | nil => rw [h] at count; cases count
        | cons sqe rest => exact ⟨sqe, rest, rfl⟩
      have done : ring.complete 0 res =
          some { ring with inflight := rest, cq := ring.cq ++ [⟨sqe, res⟩] } := by
        simp [Ring.complete, inflight]
      rw [List.replicate_succ, post, List.foldl_cons, done, Option.getD_some]
      rw [inflight, List.length_cons] at count
      exact post_oldest res k _ (Nat.succ.inj count)

/-- What the waits of a round do: each retires one completion and counts it, and the
submission side and the round are left alone. -/
structure Retired (waits : Nat) (st st' : Locals) : Prop where
  entries : st'.ring.entries = st.ring.entries
  published : st'.ring.published = st.ring.published
  prepared : st'.ring.prepared = st.ring.prepared
  live : st'.ring.live.length + waits = st.ring.live.length
  nrReqs : st'.nrReqs = st.nrReqs + waits
  rounds : st'.rounds = st.rounds

theorem waitPolls_retired :
    ∀ {waits i : Nat} {st : Locals}, waitPolls kernel n waits i st = some (.ok st') →
      Retired waits st st'
  | 0, _, _, waited => by
      cases waited
      exact ⟨rfl, rfl, rfl, rfl, rfl, rfl⟩
  | waits + 1, i, st, waited => by
      have kept := keeps_post (kernel.completions n i) st.ring
      unfold waitPolls at waited
      split at waited
      · cases waited
      · cases waited
      · rename_i cqe ring popped
        have rest := waitPolls_retired waited
        unfold Ring.waitCqe at popped
        split at popped
        · rename_i found
          cases popped
          have moved := Ring.popCqe_live found
          obtain ⟨_, -, rfl⟩ := Ring.popCqe_eq_some found
          have count := kept.live.length_eq
          rw [moved, List.length_cons] at count
          exact ⟨rest.entries.trans kept.entries, rest.published.trans kept.published,
            rest.prepared.trans kept.prepared, by have := rest.live; dsimp only at this; omega,
            by rw [rest.nrReqs]; dsimp only; omega, rest.rounds⟩
        · cases failure : kernel.waitError n i <;> simp [failure] at popped

/-- The clock having reached `tstop` is the only way a round breaks. -/
theorem iteration_eq_break_iff :
    iteration kernel st = some (.ok none) ↔ kernel.stopped st.rounds := by
  constructor
  · intro stepped
    unfold iteration at stepped
    split at stepped
    · assumption
    · split at stepped
      · cases stepped
      · split_ifs at stepped
        · cases stepped
        · cases stepped
        · split at stepped <;> cases stepped
  · intro stopped
    simp [iteration, stopped]

/-- A round goes on exactly when the clock is short of `tstop`, the enter succeeds, the
pipe's write and read move one byte each, and all its waits return. -/
theorem iteration_eq_continue_iff :
    iteration kernel st = some (.ok (some st')) ↔
      kernel.stopped st.rounds = false ∧ kernel.pipeWrite st.rounds = 1 ∧
        kernel.pipeRead st.rounds = 1 ∧
        ∃ consumed st₁, kernel.enter st.rounds = .ok consumed ∧
          waitPolls kernel st.rounds queueDepth 0
            { st with ring := ((queuePolls queueDepth st.ring).submit (.ok consumed)).1 } =
              some (.ok st₁) ∧
          st' = { st₁ with rounds := st₁.rounds + 1 } := by
  constructor
  · intro stepped
    unfold iteration at stepped
    split at stepped
    · cases stepped
    · rename_i running
      cases entered : kernel.enter st.rounds with
      | error errno => simp [entered, Ring.submit] at stepped
      | ok consumed =>
          simp only [entered, Ring.submit] at stepped
          split_ifs at stepped with wrote read
          · cases stepped
          · cases stepped
          · split at stepped
            · cases stepped
            · cases stepped
            · rename_i st₁ waited
              cases stepped
              exact ⟨by simpa using running, by simpa using wrote, by simpa using read,
                consumed, st₁, rfl, waited, rfl⟩
  · rintro ⟨running, wrote, read, consumed, st₁, entered, waited, rfl⟩
    simp only [Ring.submit] at waited
    simp only [iteration, running, entered, wrote, read, Ring.submit, waited]
    rfl

theorem iteration_rounds (stepped : iteration kernel st = some (.ok (some st'))) :
    st'.rounds = st.rounds + 1 := by
  obtain ⟨-, -, -, _, _, _, waited, rfl⟩ := iteration_eq_continue_iff.1 stepped
  exact congrArg (· + 1) (waitPolls_retired waited).rounds

end Round

/-- At the start of every round: the ring is as `IoUring::new(1024)` set it up, and
`nr_reqs` counts `QUEUE_DEPTH` completions for each round finished. -/
structure Counted (st : Locals) : Prop where
  fresh : st.ring = Ring.empty ringEntries
  nrReqs : st.nrReqs = queueDepth * st.rounds

/-- A round from a fresh ring finishes only when its enter took all `QUEUE_DEPTH`
polls, and then it retires every one of them. -/
theorem Counted.iteration {kernel : Kernel} {st st' : Locals} (counted : Counted st)
    (stepped : iteration kernel st = some (.ok (some st'))) :
    Counted st' ∧
      ∃ consumed, kernel.enter st.rounds = .ok consumed ∧ queueDepth ≤ consumed := by
  obtain ⟨-, -, -, consumed, st₁, entered, waited, rfl⟩ := iteration_eq_continue_iff.1 stepped
  have retired := waitPolls_retired waited
  rw [counted.fresh, queuePolls_empty] at retired
  have queued : (⟨ringEntries, List.replicate queueDepth pollSqe, [], [], []⟩ :
      Ring PollAdd).live.length = queueDepth := by
    simp [Ring.live]
  have live := retired.live
  rw [Ring.submit_live, queued] at live
  have idle : st₁.ring.live = [] := List.eq_nil_of_length_eq_zero (by omega)
  have took : queueDepth ≤ consumed := by
    have published := retired.published
    rw [(List.append_eq_nil.1 (List.append_eq_nil.1 idle).1).2] at published
    have := congrArg List.length published
    simp only [Ring.submit, List.nil_append, List.length_drop, List.length_replicate,
      List.length_nil] at this
    omega
  refine ⟨⟨?_, ?_⟩, consumed, entered, took⟩
  · rw [Ring.eq_empty_of_live_nil idle, retired.entries]
    rfl
  · dsimp only
    rw [retired.nrReqs, retired.rounds, counted.nrReqs]
    dsimp only
    ring

section Progress

variable {kernel : Kernel} {n : Nat}

/-- While the completions posted before the next wait leave nothing in flight and at
least as many completions queued as waits left, every wait returns. -/
theorem waitPolls_progress : ∀ waits i (st : Locals),
    (post (kernel.completions n i) st.ring).inflight = [] →
    waits ≤ (post (kernel.completions n i) st.ring).cq.length →
      ∃ st', waitPolls kernel n waits i st = some (.ok st')
  | 0, _, st, _, _ => ⟨st, rfl⟩
  | waits + 1, i, st, idle, queued => by
      obtain ⟨cqe, rest, headCqe⟩ : ∃ cqe rest,
          (post (kernel.completions n i) st.ring).cq = cqe :: rest := by
        cases h : (post (kernel.completions n i) st.ring).cq with
        | nil => rw [h] at queued; cases queued
        | cons cqe rest => exact ⟨cqe, rest, rfl⟩
      have popped : (post (kernel.completions n i) st.ring).waitCqe (kernel.waitError n i) =
          some (.ok (cqe, { post (kernel.completions n i) st.ring with cq := rest })) := by
        simp [Ring.waitCqe, Ring.popCqe, headCqe]
      rw [waitPolls, popped]
      dsimp only
      have still : post (kernel.completions n (i + 1))
          { post (kernel.completions n i) st.ring with cq := rest } =
            { post (kernel.completions n i) st.ring with cq := rest } :=
        @post_of_inflight_nil { post (kernel.completions n i) st.ring with cq := rest } idle _
      refine waitPolls_progress waits (i + 1) _ (by rw [still]; exact idle) ?_
      rw [still]
      rw [headCqe, List.length_cons] at queued
      exact Nat.le_of_succ_le_succ queued

/-- A round whose enter takes every poll, whose pipe moves its byte both ways, and whose
polls all complete before its first wait, goes on from a fresh ring. -/
theorem iteration_goes_on {st : Locals} (counted : Counted st)
    (running : kernel.stopped st.rounds = false) {consumed : Nat}
    (entered : kernel.enter st.rounds = .ok consumed) (took : queueDepth ≤ consumed)
    (wrote : kernel.pipeWrite st.rounds = 1) (read : kernel.pipeRead st.rounds = 1)
    (completed : (post (kernel.completions st.rounds 0)
      ⟨ringEntries, [], [], List.replicate queueDepth pollSqe, []⟩).inflight = []) :
    ∃ st', iteration kernel st = some (.ok (some st')) := by
  have submitted : ((queuePolls queueDepth st.ring).submit (.ok consumed)).1 =
      ⟨ringEntries, [], [], List.replicate queueDepth pollSqe, []⟩ := by
    have all : (List.replicate queueDepth pollSqe).length ≤ consumed := by simpa using took
    rw [counted.fresh, queuePolls_empty]
    simp only [Ring.submit, List.nil_append, List.drop_eq_nil_of_le all,
      List.take_of_length_le all]
  have kept := keeps_post (kernel.completions st.rounds 0)
    ⟨ringEntries, [], [], List.replicate queueDepth pollSqe, []⟩
  have count := kept.live.length_eq
  simp only [Ring.live, kept.published, kept.prepared, completed, List.length_append,
    List.length_map, List.length_nil, List.length_replicate] at count
  obtain ⟨st₁, waited⟩ := waitPolls_progress queueDepth 0 { st with ring :=
    ((queuePolls queueDepth st.ring).submit (.ok consumed)).1 }
    (by rw [submitted]; exact completed) (by rw [submitted]; dsimp only; omega)
  exact ⟨_, iteration_eq_continue_iff.2
    ⟨running, wrote, read, consumed, st₁, entered, waited, rfl⟩⟩

/-- Under such a kernel the loop runs round after round until the clock reaches
`tstop`, and breaks there. -/
theorem benchLoop_counts {rounds : Nat}
    (entered : ∀ n, ∃ consumed, kernel.enter n = .ok consumed ∧ queueDepth ≤ consumed)
    (piped : ∀ n, kernel.pipeWrite n = 1 ∧ kernel.pipeRead n = 1)
    (completed : ∀ n, (post (kernel.completions n 0)
      ⟨ringEntries, [], [], List.replicate queueDepth pollSqe, []⟩).inflight = [])
    (running : ∀ n < rounds, kernel.stopped n = false) (stops : kernel.stopped rounds = true) :
    ∀ fuel (st : Locals), Counted st → st.rounds ≤ rounds → rounds - st.rounds < fuel →
      ∃ final, benchLoop kernel fuel st = some (.ok final) ∧ Counted final ∧
        final.rounds = rounds
  | 0, _, _, _, bound => absurd bound (Nat.not_lt_zero _)
  | fuel + 1, st, counted, behind, bound => by
      rw [benchLoop]
      by_cases last : st.rounds = rounds
      · rw [iteration_eq_break_iff.2 (last ▸ stops)]
        exact ⟨st, rfl, counted, last⟩
      · obtain ⟨consumed, enteredAt, took⟩ := entered st.rounds
        obtain ⟨st', stepped⟩ := iteration_goes_on counted (running _ (by omega)) enteredAt took
          (piped _).1 (piped _).2 (completed _)
        have advanced := iteration_rounds stepped
        rw [stepped]
        exact benchLoop_counts entered piped completed running stops fuel st'
          (counted.iteration stepped).1 (by omega) (by omega)

end Progress

/-- The locals at the start of each round, in a run with `kernel`. -/
abbrev Reachable (kernel : Kernel) : Locals → Prop :=
  LiburingRs.Reachable
    (fun st (_ : Unit) => match iteration kernel st with
      | some (.ok (some st')) => some st'
      | _ => none)
    start

theorem Reachable.counted {kernel : Kernel} {st : Locals} (reach : Reachable kernel st) :
    Counted st := by
  induction reach with
  | init => exact ⟨rfl, rfl⟩
  | @step st st' _ _ stepped ih =>
      split at stepped
      · rename_i next iterated
        cases stepped
        exact (ih.iteration iterated).1
      · cases stepped

/-- Whatever the kernel does, every round of the benchmark starts on a ring as
`IoUring::new(1024)` set it up, and `nr_reqs` has counted `QUEUE_DEPTH` completions
for each round finished, failed polls included. -/
theorem rounds_start_fresh {kernel : Kernel} {st : Locals} (reach : Reachable kernel st) :
    st.ring = Ring.empty ringEntries ∧ st.nrReqs = queueDepth * st.rounds :=
  ⟨reach.counted.fresh, reach.counted.nrReqs⟩

/-- One round under a kernel that takes every poll and completes them all at once. -/
theorem rounds_start_fresh_one_round :
    ∃ st, Reachable ⟨fun n => decide (2 ≤ n), fun _ => .ok 32, fun _ => 1, fun _ => 1,
        fun _ i => if i = 0 then List.replicate 32 (0, 0) else [], fun _ _ => none⟩ st ∧
      st.rounds = 1 ∧ st.ring = Ring.empty ringEntries ∧
        st.nrReqs = queueDepth * st.rounds := by
  obtain ⟨st', stepped⟩ := @iteration_goes_on ⟨fun n => decide (2 ≤ n), fun _ => .ok 32,
    fun _ => 1, fun _ => 1, fun _ i => if i = 0 then List.replicate 32 (0, 0) else [],
    fun _ _ => none⟩ start ⟨rfl, rfl⟩ rfl 32 rfl (le_refl _) rfl rfl
    (post_oldest 0 32 _ rfl)
  refine ⟨st', ?reach, iteration_rounds stepped, rounds_start_fresh ?reach⟩
  exact LiburingRs.Reachable.step (e := ()) .init (by simp only [stepped])

/-- After the short submit that the benchmark reports on stderr and goes on from, the
round never finishes: whatever the kernel does next, it fails or waits for good. -/
theorem short_submit_stalls {kernel : Kernel} {st : Locals} {submitted : Nat}
    (reach : Reachable kernel st) (running : kernel.stopped st.rounds = false)
    (returned : ((queuePolls queueDepth st.ring).submit (kernel.enter st.rounds)).2 =
      .ok submitted)
    (short : submitted ≠ queueDepth) :
    iteration kernel st = none ∨ ∃ e, iteration kernel st = some (.error e) := by
  match stepped : iteration kernel st with
  | none => exact .inl rfl
  | some (.error e) => exact .inr ⟨e, rfl⟩
  | some (.ok none) => simp [iteration_eq_break_iff.1 stepped] at running
  | some (.ok (some st')) =>
      obtain ⟨-, consumed, entered, took⟩ := reach.counted.iteration stepped
      rw [entered, reach.counted.fresh, queuePolls_empty, Ring.submit_ok] at returned
      simp only [List.nil_append, List.length_take, List.length_replicate,
        Except.ok.injEq] at returned
      exact absurd (by rw [← returned]; exact min_eq_right took) short

/-- A first enter that takes 31 of the 32 polls: the first round stalls. -/
theorem short_submit_stalls_first_round :
    ∃ kernel : Kernel, kernel.enter 0 = .ok 31 ∧ Reachable kernel start ∧
      kernel.stopped start.rounds = false ∧
      ((queuePolls queueDepth start.ring).submit (kernel.enter start.rounds)).2 = .ok 31 ∧
      31 ≠ queueDepth ∧
      (iteration kernel start = none ∨ ∃ e, iteration kernel start = some (.error e)) := by
  refine ⟨⟨fun _ => false, fun _ => .ok 31, fun _ => 1, fun _ => 1, fun _ _ => [],
    fun _ _ => none⟩, rfl, .init, rfl, ?returned, by decide,
    short_submit_stalls .init rfl ?returned (by decide)⟩
  show ((queuePolls queueDepth (Ring.empty ringEntries)).submit (.ok 31)).2 = .ok 31
  rw [queuePolls_empty]
  rfl

/-- When every enter takes all the polls handed to it, the pipe moves its byte both ways,
and every round's polls complete before its first wait, the benchmark runs until the
clock reaches `tstop`, after `rounds` rounds, and returns `Ok` with `nr_reqs` equal to
`QUEUE_DEPTH` times `rounds`. -/
theorem main_counts_rounds {kernel : Kernel} {rounds : Nat}
    (entered : ∀ n, ∃ consumed, kernel.enter n = .ok consumed ∧ queueDepth ≤ consumed)
    (piped : ∀ n, kernel.pipeWrite n = 1 ∧ kernel.pipeRead n = 1)
    (completed : ∀ n, (post (kernel.completions n 0)
      ⟨ringEntries, [], [], List.replicate queueDepth pollSqe, []⟩).inflight = [])
    (running : ∀ n < rounds, kernel.stopped n = false) (stops : kernel.stopped rounds = true)
    (fuel : Nat) (enough : rounds < fuel) :
    ∃ final, main kernel fuel = some (.ok final) ∧ final.rounds = rounds ∧
      final.nrReqs = queueDepth * rounds := by
  obtain ⟨final, ran, counted, last⟩ := benchLoop_counts entered piped completed running stops
    fuel start ⟨rfl, rfl⟩ (Nat.zero_le _) (Nat.sub_zero rounds ▸ enough)
  exact ⟨final, ran, last, last ▸ counted.nrReqs⟩

/-- Two rounds under a kernel that takes every poll and completes them all at once. -/
theorem main_counts_two_rounds :
    (∀ n, ∃ consumed, (fun _ => .ok 32 : Nat → Except Int Nat) n = .ok consumed ∧
      queueDepth ≤ consumed) ∧
    (∀ n, (fun _ => 1 : Nat → Int) n = 1 ∧ (fun _ => 1 : Nat → Int) n = 1) ∧
    (∀ n, (post ((fun _ i => if i = 0 then List.replicate 32 (0, 0) else [] :
      Nat → Nat → List (Nat × Int)) n 0)
        ⟨ringEntries, [], [], List.replicate queueDepth pollSqe, []⟩).inflight = []) ∧
    (∀ n < 2, (fun n => decide (2 ≤ n) : Nat → Bool) n = false) ∧
    (fun n => decide (2 ≤ n) : Nat → Bool) 2 = true ∧ 2 < 3 ∧
    ∃ final, main ⟨fun n => decide (2 ≤ n), fun _ => .ok 32, fun _ => 1, fun _ => 1,
        fun _ i => if i = 0 then List.replicate 32 (0, 0) else [], fun _ _ => none⟩ 3 =
          some (.ok final) ∧ final.rounds = 2 ∧ final.nrReqs = queueDepth * 2 :=
  have entered : ∀ n, ∃ consumed,
      (fun _ => .ok 32 : Nat → Except Int Nat) n = .ok consumed ∧ queueDepth ≤ consumed :=
    fun _ => ⟨32, rfl, le_refl _⟩
  have piped : ∀ n, (fun _ => 1 : Nat → Int) n = 1 ∧ (fun _ => 1 : Nat → Int) n = 1 :=
    fun _ => ⟨rfl, rfl⟩
  have completed : ∀ n, (post ((fun _ i => if i = 0 then List.replicate 32 (0, 0) else [] :
      Nat → Nat → List (Nat × Int)) n 0)
        ⟨ringEntries, [], [], List.replicate queueDepth pollSqe, []⟩).inflight = [] :=
    fun _ => post_oldest 0 32 _ rfl
  have running : ∀ n < 2, (fun n => decide (2 ≤ n) : Nat → Bool) n = false :=
    fun n below => by
      simp only [decide_eq_false_iff_not, not_le]
      exact below
  ⟨entered, piped, completed, running, rfl, by decide,
    @main_counts_rounds ⟨fun n => decide (2 ≤ n), fun _ => .ok 32, fun _ => 1, fun _ => 1,
      fun _ i => if i = 0 then List.replicate 32 (0, 0) else [], fun _ _ => none⟩ 2
      entered piped completed running rfl 3 (by decide)⟩

end PollBench

end Examples

end LiburingRs
