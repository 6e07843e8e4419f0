import LiburingRs.Ring

/-!
# One poll of the tokio multiplexer

`SubmitFuture::poll` of `async_io/tokio_impl.rs` runs with the mutex of
`AsyncIoUringInner` held, so one poll is one atomic step on the shared state: the
ring, tokio's readiness state for the ring's `AsyncFd`, the map from tags to wakers
and the next tag.  Each task of the executor runs one future, so a waker is the
number of the task it wakes.

The first poll stamps the operation with the next tag, submits it and registers the
task's waker.  Every poll then drains the completion queue: it retires completions
from the head, stops at its own tag, and wakes the waker registered for any other
tag.  A poll that did not find its own completion waits for the descriptor to become
readable.
-/

namespace LiburingRs

namespace Tokio

/-- tokio's readiness state for the ring's `AsyncFd`: the read-readiness flag, and the
one slot for the waker of the last `poll_read_ready` that returned `Pending`. -/
structure AsyncFd where
  ready : Bool
  reader : Option Nat
  deriving DecidableEq, Repr

/-- `AsyncIoUringInner`; `wakers` is the `HashMap<u64, Waker>`. -/
structure AsyncIoUringInner (Op : Type) where
  ring : Ring Op
  asyncFd : AsyncFd
  wakers : BitVec 64 → Option Nat
  nextUserData : BitVec 64

/-- `AsyncIoUring::new`: a fresh ring and `AsyncFd`, no wakers, first tag `1`. -/
def AsyncIoUringInner.new {Op : Type} (entries : Nat) : AsyncIoUringInner Op :=
  ⟨Ring.empty entries, ⟨false, none⟩, fun _ => none, 1⟩

/-- The `op` and `user_data` fields of `SubmitFuture`: the operation until the first
poll takes it, then the tag that poll gave it.  The other two combinations of the two
options are never built. -/
inductive SubmitFuture (Op : Type) where
  | unsubmitted (op : Op)
  | submitted (userData : BitVec 64)
  deriving DecidableEq, Repr

/-- `std::task::Poll`. -/
inductive Poll (α : Type) where
  | ready (value : α)
  | pending
  deriving DecidableEq, Repr

/-- What one poll depends on besides the shared state: the outcome of
`io_uring_enter` inside `IoUring::submit`, and whether `poll_read_ready` reports an
I/O error (`some errno`) instead of readiness. -/
structure PollEnv where
  enter : Except Int Nat
  readError : Option Int

/-- What the drain loop leaves: the own result if it was found, the rest of the
completion queue, the wakers, the wakers it woke and the completions it retired. -/
structure Drained (Op : Type) where
  own : Option Int
  cq : List (Cqe Op)
  wakers : BitVec 64 → Option Nat
  woken : List Nat
  retired : List (Cqe Op)

/-- The drain loop of `SubmitFuture::poll`.  Each `peek_cqe` hands out the head
completion, whose `Cqe` is dropped (and the completion retired) when the closure
returns.  The own tag removes the own waker and stops with the result; another tag
removes the waker registered for it and wakes it; an empty queue stops the loop. -/
def drain {Op : Type} (userData : BitVec 64) :
    List (Cqe Op) → (BitVec 64 → Option Nat) → Drained Op
  | [], wakers => ⟨none, [], wakers, [], []⟩
  | cqe :: rest, wakers =>
      if cqe.userData = userData then
        ⟨some cqe.result, rest, Function.update wakers userData none, [], [cqe]⟩
      else
        let next := drain userData rest (Function.update wakers cqe.userData none)
        { next with woken := (wakers cqe.userData).toList ++ next.woken,
                    retired := cqe :: next.retired }

/-- What one poll leaves and returns: the shared state, the future, the wakers it
woke, the completions it retired, and its output. -/
structure Polled (Op : Type) where
  inner : AsyncIoUringInner Op
  future : SubmitFuture Op
  woken : List Nat
  retired : List (Cqe Op)
  output : Poll (Except Error Int)

/-- `SubmitFuture::poll` from the drain loop on, for the future of task `task`
holding tag `userData`: the own result, or else `poll_read_ready`.  When the
descriptor is ready its readiness is cleared; otherwise tokio keeps the task's waker
as the reader.  Both `Pending` branches register the task's waker under its tag. -/
def awaitCompletion {Op : Type} (task : Nat) (readError : Option Int)
    (userData : BitVec 64) (inner : AsyncIoUringInner Op) : Polled Op :=
  let drained := drain userData inner.ring.cq inner.wakers
  let inner := { inner with ring := { inner.ring with cq := drained.cq },
                            wakers := drained.wakers }
  let polled := fun (inner : AsyncIoUringInner Op) output =>
    (⟨inner, .submitted userData, drained.woken, drained.retired, output⟩ : Polled Op)
  match drained.own, readError with
  | some result, _ => polled inner (.ready (.ok result))
  | none, some errno => polled inner (.ready (.error (.io errno)))
  | none, none =>
      let wakers := Function.update inner.wakers userData (some task)
      if inner.asyncFd.ready then
        polled { inner with asyncFd := { inner.asyncFd with ready := false }, wakers } .pending
      else
        polled { inner with asyncFd := { inner.asyncFd with reader := some task }, wakers }
          .pending

/-- `SubmitFuture::poll` for the future of task `task`.  The first poll takes the
operation, stamps it with `next_user_data`, queues and submits it, and registers the
task's waker; a full queue or a failed submit returns the error at once. -/
def poll {Op : Type} (task : Nat) (env : PollEnv) (inner : AsyncIoUringInner Op) :
    SubmitFuture Op → Polled Op
  | .submitted userData => awaitCompletion task env.readError userData inner
  | .unsubmitted op =>
      let userData := inner.nextUserData
      let inner := { inner with nextUserData := inner.nextUserData + 1 }
      match inner.ring.getSqe ⟨op, userData, false⟩ with
      | none => ⟨inner, .submitted userData, [], [], .ready (.error .submissionQueueFull)⟩
      | some ring =>
          match ring.submit env.enter with
          | (ring, .error e) =>
              ⟨{ inner with ring }, .submitted userData, [], [], .ready (.error e)⟩
          | (ring, .ok _) =>
              awaitCompletion task env.readError userData
                { inner with ring, wakers := Function.update inner.wakers userData (some task) }

section DrainLemmas

variable {Op : Type} {userData : BitVec 64} {cqe : Cqe Op} {rest cq : List (Cqe Op)}
  {wakers : BitVec 64 → Option Nat}

theorem drain_cons_own (own : cqe.userData = userData) :
    drain userData (cqe :: rest) wakers =
      ⟨some cqe.result, rest, Function.update wakers userData none, [], [cqe]⟩ := by
  simp [drain, own]

theorem drain_cons_foreign (foreign : cqe.userData ≠ userData) :
    drain userData (cqe :: rest) wakers =
      { drain userData rest (Function.update wakers cqe.userData none) with
        woken := (wakers cqe.userData).toList ++
          (drain userData rest (Function.update wakers cqe.userData none)).woken,
        retired :=
          cqe :: (drain userData rest (Function.update wakers cqe.userData none)).retired } := by
  simp [drain, foreign]

/-- Removing a waker keeps every other registration. -/
theorem update_none_eq_some {tag key : BitVec 64} {task : Nat}
    (kept : Function.update wakers key none tag = some task) : wakers tag = some task := by
  by_cases same : tag = key
  · subst same
    simp at kept
  · simpa [Function.update_noteq same] using kept

/-- The drain retires a prefix of the queue and leaves the rest. -/
theorem drain_retired_append_cq :
    (drain userData cq wakers).retired ++ (drain userData cq wakers).cq = cq := by
  induction cq generalizing wakers with
  | nil => rfl
  | cons cqe rest ih =>
      by_cases own : cqe.userData = userData
      · rw [drain_cons_own own]
        rfl
      · rw [drain_cons_foreign own]
        exact congrArg (cqe :: ·) ih

/-- A drain that finds no own completion retires the whole queue, none of it own. -/
theorem drain_own_eq_none (notFound : (drain userData cq wakers).own = none) :
    (drain userData cq wakers).retired = cq ∧ ∀ cqe ∈ cq, cqe.userData ≠ userData := by
  induction cq generalizing wakers with
  | nil => exact ⟨rfl, by simp⟩
  | cons cqe rest ih =>
      by_cases own : cqe.userData = userData
      · rw [drain_cons_own own] at notFound
        cases notFound
      · rw [drain_cons_foreign own] at notFound ⊢
        obtain ⟨retired, others⟩ := ih notFound
        simp only [retired, List.mem_cons, forall_eq_or_imp, true_and]
        exact ⟨own, others⟩

/-- A drain that finds the own result `res` retires, last, a completion carrying the
own tag and `res`, and before it only completions carrying other tags. -/
theorem drain_own_eq_some {res : Int} (found : (drain userData cq wakers).own = some res) :
    ∃ others cqe, (drain userData cq wakers).retired = others ++ [cqe] ∧
      cqe.userData = userData ∧ cqe.result = res ∧
      ∀ other ∈ others, other.userData ≠ userData := by
  induction cq generalizing wakers with
  | nil => cases found
  | cons cqe rest ih =>
      by_cases own : cqe.userData = userData
      · rw [drain_cons_own own] at found ⊢
        cases found
        exact ⟨[], cqe, rfl, own, rfl, by simp⟩
      · rw [drain_cons_foreign own] at found ⊢
        obtain ⟨others, last, retired, lastOwn, lastRes, othersForeign⟩ := ih found
        refine ⟨cqe :: others, last, by simp [retired], lastOwn, lastRes, ?_⟩
        simp only [List.mem_cons, forall_eq_or_imp]
        exact ⟨own, othersForeign⟩

/-- The drain only ever removes wakers. -/
theorem drain_wakers_eq_some {tag : BitVec 64} {task : Nat}
    (kept : (drain userData cq wakers).wakers tag = some task) : wakers tag = some task := by
  induction cq generalizing wakers with
  | nil => exact kept
  | cons cqe rest ih =>
      by_cases own : cqe.userData = userData
      · rw [drain_cons_own own] at kept
        exact update_none_eq_some kept
      · rw [drain_cons_foreign own] at kept
        exact update_none_eq_some (ih kept)

/-- Every waker the drain wakes was registered before it. -/
theorem drain_woken_registered {task : Nat} (woke : task ∈ (drain userData cq wakers).woken) :
    ∃ tag, wakers tag = some task := by
  induction cq generalizing wakers with
  | nil => cases woke
  | cons cqe rest ih =>
      by_cases own : cqe.userData = userData
      · rw [drain_cons_own own] at woke
        cases woke
      · rw [drain_cons_foreign own] at woke
        simp only [List.mem_append, Option.mem_toList] at woke
        rcases woke with registered | later
        · exact ⟨_, registered⟩
        · obtain ⟨tag, registered⟩ := ih later
          exact ⟨tag, update_none_eq_some registered⟩

/-- A drain that finds no own completion leaves the own waker where it was. -/
theorem drain_wakers_own (notFound : (drain userData cq wakers).own = none) :
    (drain userData cq wakers).wakers userData = wakers userData := by
  induction cq generalizing wakers with
  | nil => rfl
  | cons cqe rest ih =>
      by_cases own : cqe.userData = userData
      · rw [drain_cons_own own] at notFound
        cases notFound
      · rw [drain_cons_foreign own] at notFound ⊢
        rw [ih notFound, Function.update_noteq (Ne.symm own)]

/-- A drain that finds no own completion, over completions with distinct tags, wakes
the waker registered for each of them, in order, and removes exactly their entries. -/
theorem drain_forward (notFound : (drain userData cq wakers).own = none)
    (distinct : (cq.map Cqe.userData).Nodup) :
    (drain userData cq wakers).woken = cq.filterMap (fun cqe => wakers cqe.userData) ∧
      ∀ tag, (drain userData cq wakers).wakers tag =
        if tag ∈ cq.map Cqe.userData then none else wakers tag := by
  induction cq generalizing wakers with
  | nil => exact ⟨rfl, fun tag => by simp [drain]⟩
  | cons cqe rest ih =>
      have own : cqe.userData ≠ userData := by
        intro same
        rw [drain_cons_own same] at notFound
        cases notFound
      rw [drain_cons_foreign own] at notFound ⊢
      rw [List.map_cons, List.nodup_cons] at distinct
      obtain ⟨woken, removed⟩ := ih notFound distinct.2
      refine ⟨?_, fun tag => ?_⟩
      · have others :
            rest.filterMap (fun c => Function.update wakers cqe.userData none c.userData) =
              rest.filterMap (fun c => wakers c.userData) :=
          List.filterMap_congr fun c mem =>
            Function.update_noteq (fun same => distinct.1 (by
              rw [← same]
              exact List.mem_map_of_mem _ mem)) _ _
        simp only [woken, others, List.filterMap_cons]
        cases wakers cqe.userData <;> rfl
      · simp only [removed, List.map_cons, List.mem_cons]
        by_cases first : tag = cqe.userData
        · subst first
          simp
        · simp [first, Function.update_noteq first]

end DrainLemmas

section PollLemmas

variable {Op : Type} {task : Nat} {env : PollEnv} {inner : AsyncIoUringInner Op}
  {userData : BitVec 64} {readError : Option Int}

@[simp]
theorem awaitCompletion_future :
    (awaitCompletion task readError userData inner).future = .submitted userData := by
  dsimp only [awaitCompletion]
  split <;> (try split) <;> rfl

@[simp]
theorem awaitCompletion_retired :
    (awaitCompletion task readError userData inner).retired =
      (drain userData inner.ring.cq inner.wakers).retired := by
  dsimp only [awaitCompletion]
  split <;> (try split) <;> rfl

@[simp]
theorem awaitCompletion_ring :
    (awaitCompletion task readError userData inner).inner.ring =
      { inner.ring with cq := (drain userData inner.ring.cq inner.wakers).cq } := by
  dsimp only [awaitCompletion]
  split <;> (try split) <;> rfl

@[simp]
theorem awaitCompletion_nextUserData :
    (awaitCompletion task readError userData inner).inner.nextUserData = inner.nextUserData := by
  dsimp only [awaitCompletion]
  split <;> (try split) <;> rfl

/-- The completions a drain retires leave the live entries of the ring. -/
theorem awaitCompletion_live :
    (awaitCompletion task readError userData inner).retired.map Cqe.sqe ++
        (awaitCompletion task readError userData inner).inner.ring.live = inner.ring.live := by
  have split : (drain userData inner.ring.cq inner.wakers).retired ++
      (drain userData inner.ring.cq inner.wakers).cq = inner.ring.cq := drain_retired_append_cq
  rw [awaitCompletion_retired, awaitCompletion_ring]
  conv => rhs; rw [Ring.live, ← split]
  simp [Ring.live]

/-- The own result is returned exactly when the drain found it. -/
theorem awaitCompletion_ready_ok {res : Int}
    (ready : (awaitCompletion task readError userData inner).output = .ready (.ok res)) :
    ∃ others cqe, (awaitCompletion task readError userData inner).retired = others ++ [cqe] ∧
      cqe.userData = userData ∧ cqe.result = res ∧
      ∀ other ∈ others, other.userData ≠ userData := by
  rw [awaitCompletion_retired]
  apply drain_own_eq_some
  dsimp only [awaitCompletion] at ready
  split at ready
  · cases ready
    assumption
  · cases ready
  · split at ready <;> cases ready

/-- Once the operation is submitted, an error comes from `poll_read_ready`, and the
own waker stays as it was. -/
theorem awaitCompletion_ready_error {e : Error}
    (failed : (awaitCompletion task readError userData inner).output = .ready (.error e)) :
    ∃ errno, readError = some errno ∧ e = .io errno ∧
      (awaitCompletion task readError userData inner).inner.wakers userData =
        inner.wakers userData := by
  dsimp only [awaitCompletion] at failed ⊢
  split at failed
  · cases failed
  · rename_i errno notFound
    cases failed
    exact ⟨errno, rfl, rfl, drain_wakers_own notFound⟩
  · split at failed <;> cases failed

/-- A poll that returns `Pending` found no own completion in the drain, and registers
the task's waker under its tag after it. -/
theorem awaitCompletion_pending
    (pending : (awaitCompletion task readError userData inner).output = .pending) :
    (drain userData inner.ring.cq inner.wakers).own = none ∧
      (awaitCompletion task readError userData inner).woken =
        (drain userData inner.ring.cq inner.wakers).woken ∧
      (awaitCompletion task readError userData inner).inner.wakers =
        Function.update (drain userData inner.ring.cq inner.wakers).wakers userData
          (some task) := by
  dsimp only [awaitCompletion] at pending ⊢
  split at pending
  · cases pending
  · cases pending
  · split <;> exact ⟨by assumption, rfl, rfl⟩

/-- A poll returns `Ready(Ok(res))` only after retiring, last, a completion that
carries its own tag and `res`; every completion it retired before carries another
tag. -/
theorem poll_ready_ok {future : SubmitFuture Op} {res : Int}
    (ready : (poll task env inner future).output = .ready (.ok res)) :
    ∃ userData others cqe, (poll task env inner future).future = .submitted userData ∧
      (poll task env inner future).retired = others ++ [cqe] ∧
      cqe.userData = userData ∧ cqe.result = res ∧
      ∀ other ∈ others, other.userData ≠ userData := by
  cases future with
  | submitted userData =>
      obtain ⟨others, cqe, found⟩ := awaitCompletion_ready_ok ready
      exact ⟨userData, others, cqe, awaitCompletion_future, found⟩
  | unsubmitted op =>
      simp only [poll] at ready ⊢
      split at ready
      · cases ready
      · split at ready
        · cases ready
        · obtain ⟨others, cqe, found⟩ := awaitCompletion_ready_ok ready
          exact ⟨_, others, cqe, awaitCompletion_future, found⟩

/-- A poll that returns `Pending` drained the completion queue it found, finding no own
completion, with the wakers as they were but for its own tag; afterwards its waker is
registered under that tag. -/
theorem poll_pending {future : SubmitFuture Op}
    (pending : (poll task env inner future).output = .pending) :
    ∃ userData own, (poll task env inner future).future = .submitted userData ∧
      let drained := drain userData inner.ring.cq (Function.update inner.wakers userData own)
      drained.own = none ∧ (poll task env inner future).woken = drained.woken ∧
        (poll task env inner future).retired = drained.retired ∧
        (poll task env inner future).inner.ring.cq = drained.cq ∧
        (poll task env inner future).inner.wakers =
          Function.update drained.wakers userData (some task) := by
  cases future with
  | submitted userData =>
      refine ⟨userData, inner.wakers userData, awaitCompletion_future, ?_⟩
      rw [Function.update_eq_self]
      obtain ⟨notFound, woken, wakers⟩ := awaitCompletion_pending pending
      exact ⟨notFound, woken, awaitCompletion_retired, congrArg Ring.cq awaitCompletion_ring,
        wakers⟩
  | unsubmitted op =>
      simp only [poll] at pending ⊢
      split at pending
      · cases pending
      · rename_i ring got
        obtain ⟨-, rfl⟩ := Ring.getSqe_eq_some_iff.1 got
        split at pending
        · cases pending
        · rename_i ring' consumed submit
          have sameCq := congrArg (fun r => r.1.cq) submit
          simp only [Ring.submit_cq] at sameCq
          replace sameCq := sameCq.symm
          obtain ⟨notFound, woken, wakers⟩ := awaitCompletion_pending pending
          refine ⟨inner.nextUserData, some task, awaitCompletion_future, ?_⟩
          simp only [sameCq] at notFound woken wakers
          exact ⟨notFound, woken, by rw [awaitCompletion_retired, sameCq],
            (congrArg Ring.cq awaitCompletion_ring).trans (by rw [sameCq]), wakers⟩

/-- The tag a poll leaves in the future: the one it had, or the next tag when the
poll is the first. -/
theorem poll_future {future : SubmitFuture Op} :
    (poll task env inner future).future =
      .submitted (match future with
        | .submitted userData => userData
        | .unsubmitted _ => inner.nextUserData) := by
  cases future with
  | submitted userData => exact awaitCompletion_future
  | unsubmitted op =>
      simp only [poll]
      split
      · rfl
      · split
        · rfl
        · exact awaitCompletion_future

/-- Only a first poll advances `next_user_data`, by one. -/
theorem poll_nextUserData {future : SubmitFuture Op} :
    (poll task env inner future).inner.nextUserData =
      match future with
        | .submitted _ => inner.nextUserData
        | .unsubmitted _ => inner.nextUserData + 1 := by
  cases future with
  | submitted userData => exact awaitCompletion_nextUserData
  | unsubmitted op =>
      simp only [poll]
      split
      · rfl
      · split
        · rfl
        · exact awaitCompletion_nextUserData

/-- A poll removes the completions it retires from the live entries, and a first poll
may add its own entry, stamped with the next tag. -/
theorem poll_live {future : SubmitFuture Op} :
    ∃ pushed : List (Sqe Op), pushed.Sublist
        (match future with
          | .submitted _ => []
          | .unsubmitted op => [⟨op, inner.nextUserData, false⟩]) ∧
      (poll task env inner future).retired.map Cqe.sqe ++
        (poll task env inner future).inner.ring.live = inner.ring.live ++ pushed := by
  cases future with
  | submitted userData =>
      exact ⟨[], List.Sublist.refl _, by rw [List.append_nil]; exact awaitCompletion_live⟩
  | unsubmitted op =>
      simp only [poll]
      split
      · exact ⟨[], List.nil_sublist _, by simp⟩
      · rename_i ring got
        have queued := Ring.getSqe_live got
        split
        · rename_i submitted _ _ submit
          refine ⟨_, List.Sublist.refl _, ?_⟩
          have := Ring.submit_live env.enter ring
          rw [submit] at this
          simp [this, queued]
        · rename_i submitted _ _ submit
          refine ⟨_, List.Sublist.refl _, ?_⟩
          have := Ring.submit_live env.enter ring
          rw [submit] at this
          rw [awaitCompletion_live]
          simp [this, queued]

/-- An entry a poll retires or leaves live was live before, or is the entry the poll
queued, stamped with `next_user_data`. -/
theorem poll_mem_live {future : SubmitFuture Op} {sqe : Sqe Op}
    (mem : sqe ∈ (poll task env inner future).retired.map Cqe.sqe ++
      (poll task env inner future).inner.ring.live) :
    sqe ∈ inner.ring.live ∨ sqe.userData = inner.nextUserData := by
  obtain ⟨pushed, pushedSub, liveEq⟩ := @poll_live _ task env inner future
  rw [liveEq, List.mem_append] at mem
  refine mem.imp_right fun pushedIn => ?_
  have queued := pushedSub.subset pushedIn
  cases future <;> simp_all

end PollLemmas

end Tokio

end LiburingRs
