import LiburingRs.Tokio.Delivery

/-!
# Lost wakeups

A task that returned `Pending` is woken by one of two wakers: the one it registered in
`wakers` under its tag, which a poll of another task wakes when it drains that tag, or
the reader waker tokio keeps for the ring's `AsyncFd`, which the kernel's next
completion wakes.  `SubmitFuture::poll` arms the second one only when
`poll_read_ready` returns `Pending`.  When the readiness flag is already set, it
clears it and returns `Pending` with no reader armed, so a completion posted after
that wakes nobody.

The flag stays set after a poll that finds its own completion in the queue, since
that poll never reaches `poll_read_ready`.  One NOP completed that way leaves the flag
set for the next one, which then waits with nobody to wake it.  A task that is the
reader is not lost: the completion of its own entry wakes it, and its next poll
returns the result.
-/

namespace LiburingRs

namespace Tokio

namespace System

variable {Op : Type} {s s' : System Op}

/-- No task is scheduled, every operation handed to the ring has completed, and an
undropped task that returned `Pending` still has no result. -/
def Stuck (s : System Op) : Prop :=
  s.woken = [] ∧ s.inner.ring.inflight = [] ∧ s.inner.ring.published = [] ∧
    s.inner.ring.prepared = [] ∧ ∃ task ∈ s.tasks, task.pended = true ∧ task.live = true

instance [DecidableEq Op] : DecidablePred (@Stuck Op) :=
  fun _ => inferInstanceAs (Decidable (_ ∧ _))

/-- In a stuck state the executor has nothing to poll. -/
theorem Stuck.no_poll (stuck : s.Stuck) (id : Nat) (env : PollEnv) :
    s.next (.poll id env) = none := by
  cases stepped : s.next (.poll id env) with
  | none => rfl
  | some s' =>
      obtain ⟨-, -, scheduled, -⟩ := next_poll stepped
      simp [stuck.1] at scheduled

/-- In a stuck state the kernel has nothing to complete. -/
theorem Stuck.no_complete (stuck : s.Stuck) (index : Nat) (res : Int) :
    s.next (.complete index res) = none := by
  simp [next, Ring.complete, stuck.2.1]

/-- One NOP completes and is polled to its result, which leaves the readiness flag
set.  The first poll of a second NOP clears the flag and waits with no reader armed;
its completion then wakes nobody, and nothing but a new task or a drop can happen. -/
theorem stale_readiness_stuck :
    ∃ s : System Unit, Reachable 8 s ∧ s.Stuck ∧ (∀ id env, s.next (.poll id env) = none) ∧
      ∀ index res, s.next (.complete index res) = none := by
  obtain ⟨s, reach, stuck⟩ : ∃ s : System Unit, Reachable 8 s ∧ s.Stuck :=
    ⟨_, Reachable.run Reachable.init (rfl : run next (init 8 : System Unit) [.spawn (),
      .poll 0 ⟨.ok 1, none⟩, .complete 0 0, .poll 0 ⟨.ok 1, none⟩, .spawn (),
      .poll 1 ⟨.ok 1, none⟩, .complete 0 0] = _), by decide⟩
  exact ⟨s, reach, stuck, stuck.no_poll, stuck.no_complete⟩

end System

end Tokio

end LiburingRs
