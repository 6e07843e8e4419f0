import LiburingRs.Tokio.System

/-!
# Errors of `SubmitFuture::poll`

A poll returns an error from one of three calls.  On the first poll, `get_sqe` may
find the submission queue full: the operation is dropped and only `next_user_data`
has moved.  `IoUring::submit` may fail, but `io_uring_submit` publishes the prepared
entries before it enters the kernel, so the stamped entry stays in the submission
ring, visible to the kernel, and the next successful submit of any future on the ring
hands it over; its completion then carries a tag nobody waits for.  Once the operation
is submitted, `poll_read_ready` may fail, and the waker the poll registered stays in
`wakers`.
-/

namespace LiburingRs

namespace Tokio

section PollErrors

variable {Op : Type} {task : Nat} {env : PollEnv} {inner : AsyncIoUringInner Op}
  {future : SubmitFuture Op} {e : Error}

/-- The entries `IoUring::submit` leaves when `io_uring_enter` fails: the prepared ones
are published after those already published. -/
theorem Ring.submit_error (ring : Ring Op) (errno : Int) :
    ring.submit (.error errno) =
      ({ ring with prepared := [], published := ring.published ++ ring.prepared },
        .error (.io errno)) :=
  rfl

/-- Every way a poll returns an error: a full submission queue on the first poll, which
changes nothing but `next_user_data`; a failed `io_uring_enter` on the first poll, which
also leaves the stamped entry published to the kernel; or a failed `poll_read_ready`,
after a first poll has submitted the operation and registered the task's waker under
its tag. -/
theorem poll_ready_error (failed : (poll task env inner future).output = .ready (.error e)) :
    (∃ op, future = .unsubmitted op ∧ e = .submissionQueueFull ∧
      (poll task env inner future).inner =
        { inner with nextUserData := inner.nextUserData + 1 }) ∨
    (∃ op errno, future = .unsubmitted op ∧ env.enter = .error errno ∧ e = .io errno ∧
      (poll task env inner future).inner =
        { inner with
          nextUserData := inner.nextUserData + 1
          ring := { inner.ring with
            prepared := []
            published := inner.ring.published ++ inner.ring.prepared ++
              [⟨op, inner.nextUserData, false⟩] } }) ∨
    (∃ errno, env.readError = some errno ∧ e = .io errno ∧
      ∀ op, future = .unsubmitted op → (∃ consumed, env.enter = .ok consumed) ∧
        (poll task env inner future).inner.wakers inner.nextUserData = some task) := by
  cases future with
  | submitted userData =>
      obtain ⟨errno, read, rfl, -⟩ := awaitCompletion_ready_error failed
      exact .inr (.inr ⟨errno, read, rfl, fun _ unsubmitted => nomatch unsubmitted⟩)
  | unsubmitted op =>
      simp only [poll] at failed ⊢
      split at failed
      · cases failed
        exact .inl ⟨op, rfl, rfl, rfl⟩
      · rename_i ring got
        obtain ⟨-, rfl⟩ := Ring.getSqe_eq_some_iff.1 got
        split at failed
        · rename_i ring' e' submit
          cases enter : env.enter with
          | ok consumed => simp [Ring.submit, enter] at submit
          | error errno =>
              rw [enter, Ring.submit_error, Prod.mk.injEq] at submit
              obtain ⟨rfl, ⟨⟩⟩ := submit
              cases failed
              refine .inr (.inl ⟨op, errno, rfl, rfl, rfl, ?_⟩)
              simp
        · rename_i ring' consumed submit
          obtain ⟨errno, read, rfl, registered⟩ := awaitCompletion_ready_error failed
          refine .inr (.inr ⟨errno, read, rfl, fun _ _ => ⟨?_, ?_⟩⟩)
          · cases enter : env.enter with
            | ok consumed => exact ⟨consumed, rfl⟩
            | error errno => simp [Ring.submit, enter] at submit
          · exact registered.trans (Function.update_same _ _ _)

/-- The first poll of a NOP on a ring with no entries finds the queue full. -/
theorem poll_ready_error_queue_full :
    (poll 0 ⟨.ok 1, none⟩ (AsyncIoUringInner.new 0 : AsyncIoUringInner Unit)
        (.unsubmitted ())).inner =
      { AsyncIoUringInner.new 0 with nextUserData := 2 } := by
  rcases poll_ready_error (rfl : (poll 0 ⟨.ok 1, none⟩
      (AsyncIoUringInner.new 0 : AsyncIoUringInner Unit) (.unsubmitted ())).output =
        .ready (.error .submissionQueueFull))
    with ⟨_, -, -, queueFull⟩ | ⟨_, _, -, enter, -⟩ | ⟨_, read, -⟩
  · exact queueFull
  · cases enter
  · cases read

end PollErrors

namespace System

/-- The first poll of a NOP fails in `io_uring_enter` (with `EINTR`), which leaves the
ring changed and the stamped entry published.  The first poll of a second NOP then
hands that entry to the kernel along with its own. -/
theorem failed_submit_executed :
    ∃ s : System Unit, Reachable 8 s ∧
      ∃ s', s.next (.poll 0 ⟨.error 4, none⟩) = some s' ∧
      (∃ task, s'.tasks[0]? = some task ∧ task.output = some (.error (.io 4)) ∧
        task.tag = some 1) ∧
      s'.inner.ring ≠ s.inner.ring ∧
      ∃ s'', s'.next (.poll 1 ⟨.ok 2, none⟩) = some s'' ∧
        ∃ sqe ∈ s''.inner.ring.inflight, sqe.userData = 1 :=
  ⟨_, Reachable.run Reachable.init
    (rfl : run next (init 8 : System Unit) [.spawn (), .spawn ()] = _), _, rfl,
    ⟨_, rfl, rfl, rfl⟩, by decide, _, rfl, by decide⟩

end System

end Tokio

end LiburingRs
