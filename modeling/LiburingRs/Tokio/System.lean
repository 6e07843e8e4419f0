import LiburingRs.Tokio.Poll
import LiburingRs.Refinement

/-!
# The tokio multiplexer in its executor

Many `SubmitFuture`s share one `AsyncIoUring`.  Each runs in a task of its own; the
executor polls tasks that were woken, and a newly spawned task starts woken.  Between
polls the kernel completes any operation in flight, which posts its completion, sets
the readiness of the ring's `AsyncFd`, and wakes the waker tokio kept for it.  A task
may also be dropped at any time: `SubmitFuture` has no `Drop`, so its operation and
its waker entry stay behind.

The events are replayed by a deterministic `next`, so that a concrete schedule is
checked by evaluation.
-/

namespace LiburingRs

namespace Tokio

/-- An executor task running one `SubmitFuture`: the operation it was spawned with,
the future, what it returned once ready, whether it ever returned `Pending`, and
whether it was dropped. -/
structure Task (Op : Type) where
  op : Op
  future : SubmitFuture Op
  output : Option (Except Error Int)
  pended : Bool
  dropped : Bool

namespace Task

variable {Op : Type}

/-- A task still waiting for its result: neither ready nor dropped. -/
def live (task : Task Op) : Bool := task.output.isNone && !task.dropped

/-- The tag of a task whose operation was taken by its first poll. -/
def tag (task : Task Op) : Option (BitVec 64) :=
  match task.future with
  | .submitted userData => some userData
  | .unsubmitted _ => none

@[simp]
theorem tag_eq_some {task : Task Op} {userData : BitVec 64} :
    task.tag = some userData ↔ task.future = .submitted userData := by
  cases h : task.future <;> simp [tag, h]

/-- A fresh task for `submit_op(op)`. -/
def spawn (op : Op) : Task Op := ⟨op, .unsubmitted op, none, false, false⟩

end Task

/-- The value a `Poll` returned once it is ready. -/
def Poll.value {α : Type} : Poll α → Option α
  | .ready value => some value
  | .pending => none

@[simp]
theorem Poll.value_eq_some {α : Type} {p : Poll α} {value : α} :
    p.value = some value ↔ p = .ready value := by
  cases p <;> simp [Poll.value]

/-- The multiplexer with its executor: the shared state, the tasks in spawn order,
and the tasks scheduled to be polled. -/
structure System (Op : Type) where
  inner : AsyncIoUringInner Op
  tasks : List (Task Op)
  woken : List Nat

/-- What can happen next: a task is spawned, the executor polls a woken task, the
kernel completes the `index`-th operation in flight, or a task is dropped. -/
inductive Event (Op : Type) where
  | spawn (op : Op)
  | poll (task : Nat) (env : PollEnv)
  | complete (index : Nat) (res : Int)
  | drop (task : Nat)

namespace System

variable {Op : Type}

/-- `Waker::wake` for task `id`: the executor schedules the task unless it has
finished, was dropped, or is already scheduled. -/
def schedule (tasks : List (Task Op)) (woken : List Nat) (id : Nat) : List Nat :=
  if (tasks[id]?.map Task.live).getD false ∧ id ∉ woken then woken ++ [id] else woken

/-- The task a poll leaves behind. -/
def polledTask (task : Task Op) (polled : Polled Op) : Task Op :=
  { task with future := polled.future, output := polled.output.value,
              pended := task.pended || polled.output.value.isNone }

/-- One event. -/
def next (s : System Op) : Event Op → Option (System Op)
  | .spawn op =>
      some { s with tasks := s.tasks ++ [Task.spawn op], woken := s.woken ++ [s.tasks.length] }
  | .poll id env =>
      match s.tasks[id]? with
      | none => none
      | some task =>
          if id ∈ s.woken ∧ task.live then
            let polled := poll id env s.inner task.future
            let tasks := s.tasks.set id (polledTask task polled)
            some ⟨polled.inner, tasks, polled.woken.foldl (schedule tasks) (s.woken.erase id)⟩
          else none
  | .complete index res =>
      (s.inner.ring.complete index res).map fun ring =>
        { s with inner := { s.inner with ring, asyncFd := ⟨true, none⟩ },
                 woken := match s.inner.asyncFd.reader with
                   | some reader => schedule s.tasks s.woken reader
                   | none => s.woken }
  | .drop id =>
      match s.tasks[id]? with
      | none => none
      | some task =>
          some { s with tasks := s.tasks.set id { task with dropped := true },
                        woken := s.woken.erase id }

theorem next_spawn {s s' : System Op} {op : Op} (stepped : s.next (.spawn op) = some s') :
    s' = { s with tasks := s.tasks ++ [Task.spawn op], woken := s.woken ++ [s.tasks.length] } :=
  (Option.some.inj stepped).symm

theorem next_poll {s s' : System Op} {id : Nat} {env : PollEnv}
    (stepped : s.next (.poll id env) = some s') :
    ∃ task, s.tasks[id]? = some task ∧ id ∈ s.woken ∧ task.live = true ∧
      s' = ⟨(poll id env s.inner task.future).inner,
        s.tasks.set id (polledTask task (poll id env s.inner task.future)),
        (poll id env s.inner task.future).woken.foldl
          (schedule (s.tasks.set id (polledTask task (poll id env s.inner task.future))))
          (s.woken.erase id)⟩ := by
  simp only [next] at stepped
  split at stepped
  · cases stepped
  · rename_i task found
    split at stepped
    · rename_i enabled
      exact ⟨task, found, enabled.1, enabled.2, (Option.some.inj stepped).symm⟩
    · cases stepped

theorem next_complete {s s' : System Op} {index : Nat} {res : Int}
    (stepped : s.next (.complete index res) = some s') :
    ∃ ring, s.inner.ring.complete index res = some ring ∧
      s' = { s with inner := { s.inner with ring, asyncFd := ⟨true, none⟩ },
                    woken := match s.inner.asyncFd.reader with
                      | some reader => schedule s.tasks s.woken reader
                      | none => s.woken } := by
  simp only [next, Option.map_eq_some'] at stepped
  obtain ⟨ring, done, rfl⟩ := stepped
  exact ⟨ring, done, rfl⟩

theorem next_drop {s s' : System Op} {id : Nat} (stepped : s.next (.drop id) = some s') :
    ∃ task, s.tasks[id]? = some task ∧
      s' = { s with tasks := s.tasks.set id { task with dropped := true },
                    woken := s.woken.erase id } := by
  simp only [next] at stepped
  split at stepped
  · cases stepped
  · rename_i task found
    exact ⟨task, found, (Option.some.inj stepped).symm⟩

/-- `AsyncIoUring::new(entries)` before any `submit_op`. -/
def init (entries : Nat) : System Op := ⟨AsyncIoUringInner.new entries, [], []⟩

/-- The states reachable from a fresh multiplexer. -/
abbrev Reachable (entries : Nat) : System Op → Prop :=
  LiburingRs.Reachable next (init entries)

/-- A poll makes the ring calls of the view: `get_sqe`, `submit`, and a `peek_cqe` for
each completion the drain loop retires. -/
theorem poll_ring_reachable {entries id : Nat} {env : PollEnv} {inner : AsyncIoUringInner Op}
    (reach : Ring.Reachable entries inner.ring) (future : SubmitFuture Op) :
    Ring.Reachable entries (poll id env inner future).inner.ring := by
  have drained : ∀ {inner : AsyncIoUringInner Op} {userData : BitVec 64},
      Ring.Reachable entries inner.ring →
        Ring.Reachable entries (awaitCompletion id env.readError userData inner).inner.ring :=
    fun reach => awaitCompletion_ring ▸ reach.retire drain_retired_append_cq
  cases future with
  | submitted userData => exact drained reach
  | unsubmitted op =>
      simp only [poll]
      split
      · exact reach
      · rename_i ring got
        have submitted :=
          (reach.step (e := Ring.Event.getSqe ⟨op, inner.nextUserData, false⟩) got).step
            (e := Ring.Event.submit env.enter) rfl
        split
        · rename_i _ _ _ submit
          rwa [submit] at submitted
        · rename_i _ _ _ submit
          rw [submit] at submitted
          exact drained submitted

/-- The ring of every state the multiplexer reaches is one the view reaches. -/
theorem Reachable.ring {entries : Nat} {s : System Op} (reach : Reachable entries s) :
    Ring.Reachable entries s.inner.ring := by
  induction reach with
  | init => exact .init
  | @step s s' e _ stepped ih =>
      cases e with
      | spawn op => rwa [next_spawn stepped]
      | poll id env =>
          obtain ⟨task, -, -, -, rfl⟩ := next_poll stepped
          exact poll_ring_reachable ih task.future
      | complete index res =>
          obtain ⟨ring, done, rfl⟩ := next_complete stepped
          exact ih.step (e := Ring.Event.complete index res) done
      | drop id =>
          obtain ⟨task, -, rfl⟩ := next_drop stepped
          exact ih

/-- Every state the multiplexer reaches on a ring of `2 ^ k` entries is backed by
index states liburing reaches by its own steps, which represent its ring: what the
model's ring says of free entries and pending completions is what the indices the
code reads say. -/
theorem ring_represented {k : Nat} {s : System Op} (small : 2 ^ k ≤ maxEntries)
    (reach : Reachable (2 ^ k) s) : ∃ ix : Ring.Indices Op, ix.Represents s.inner.ring :=
  reach.ring.represented small

/-- Two NOP futures polled to `Pending`, the first completed. -/
theorem ring_represented_two_nops :
    ∃ s : System Unit, Reachable (2 ^ 3) s ∧ s.inner.ring.cq ≠ [] ∧
      ∃ ix : Ring.Indices Unit, ix.Represents s.inner.ring := by
  have reach := LiburingRs.Reachable.run (Reachable.init : Reachable (2 ^ 3) (init 8))
    (rfl : run next (init 8 : System Unit) [.spawn (), .spawn (), .poll 0 ⟨.ok 1, none⟩,
      .poll 1 ⟨.ok 1, none⟩, .complete 0 0] = _)
  exact ⟨_, reach, by simp, ring_represented (by decide) reach⟩

end System

end Tokio

end LiburingRs
