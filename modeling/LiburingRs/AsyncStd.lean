import LiburingRs.Refinement

/-!
# The async-std multiplexer

`AsyncIoUring::submit_op` of `async_io/async_std_impl.rs` runs one blocking closure
under the ring's mutex.  It stamps every operation with the same `user_data`, `1`,
submits it, and returns the result of whatever completion `wait_cqe` finds at the head
of the completion queue.  The kernel completes operations while a call waits and
between calls.

A call that returns early leaves its operation behind: a failed `wait_cqe` leaves it
in flight, and a failed `io_uring_enter` leaves it published for the next submit.  The
next call then takes that operation's completion for its own.  When no enter and no
wait fails, each call finds its own completion, since it is the only live entry.
-/

namespace LiburingRs

namespace AsyncStd

/-- What one `submit_op` call returned (ghost): its operation, its result, and the
completion its `Cqe` retired. -/
structure Returned (Op : Type) where
  op : Op
  output : Except Error Int
  completion : Option (Cqe Op)

/-- The ring behind the mutex, the operation of the call that holds the mutex in
`wait_cqe`, and the calls that returned. -/
structure AsyncIoUring (Op : Type) where
  ring : Ring Op
  waiting : Option Op
  returned : List (Returned Op)

/-- A call submits `op`, its `io_uring_enter` having outcome `enter`; the waiting call's
`wait_cqe` returns, or fails with `failure = some errno` when it has to block; or the
kernel completes an operation in flight. -/
inductive Event (Op : Type) where
  | submitOp (op : Op) (enter : Except Int Nat)
  | waitCqe (failure : Option Int)
  | complete (index : Nat) (res : Int)

/-- Whether an event is free of failures of `io_uring_enter` and `wait_cqe`. -/
def Event.clean {Op : Type} : Event Op → Bool
  | .submitOp _ (.error _) => false
  | .waitCqe (some _) => false
  | _ => true

namespace AsyncIoUring

variable {Op : Type}

/-- The `user_data` of every submission. -/
def userData : BitVec 64 := 1

/-- The entry a call prepares for `op`. -/
def sqeOf (op : Op) : Sqe Op := ⟨op, userData, false⟩

/-- `AsyncIoUring::new`. -/
def new (entries : Nat) : AsyncIoUring Op := ⟨Ring.empty entries, none, []⟩

/-- One event.  A call that fails in `get_sqe_or_err` or `submit` returns at once; a
call whose submit succeeds holds the mutex until `wait_cqe` returns; a wait on an
empty queue blocks unless it fails. -/
def next (s : AsyncIoUring Op) : Event Op → Option (AsyncIoUring Op)
  | .submitOp op enter =>
      if s.waiting.isSome then none
      else match s.ring.getSqe (sqeOf op) with
        | none =>
            some { s with returned := s.returned ++ [⟨op, .error .submissionQueueFull, none⟩] }
        | some ring =>
            match ring.submit enter with
            | (ring, .error e) =>
                some { s with ring, returned := s.returned ++ [⟨op, .error e, none⟩] }
            | (ring, .ok _) => some { s with ring, waiting := some op }
  | .waitCqe failure =>
      match s.waiting with
      | none => none
      | some op =>
          match s.ring.popCqe with
          | some (cqe, ring) =>
              some ⟨ring, none, s.returned ++ [⟨op, .ok cqe.result, some cqe⟩]⟩
          | none =>
              failure.map fun errno =>
                { s with
                  waiting := none
                  returned := s.returned ++ [⟨op, .error (.io errno), none⟩] }
  | .complete index res => (s.ring.complete index res).map fun ring => { s with ring }

/-- The states reachable from a fresh ring of eight entries. -/
abbrev Reachable : AsyncIoUring Op → Prop := LiburingRs.Reachable next (new 8)

/-- A first call's wait fails with `EINTR` before its NOP completes (with `5`).  A second
call then submits, its NOP completes with `0`, and its wait returns `Ok(5)`: the result
of the first call's operation, while the completion of its own stays in the queue.
Each call's operation is its number. -/
theorem wait_returns_earlier_result :
    ∃ s : AsyncIoUring Nat, Reachable s ∧
      s.returned.getLast? = some ⟨2, .ok 5, some ⟨sqeOf 1, 5⟩⟩ ∧
      s.ring.cq = [⟨sqeOf 2, 0⟩] :=
  ⟨_, Reachable.run Reachable.init (rfl : run next (new 8 : AsyncIoUring Nat)
    [.submitOp 1 (.ok 1), .waitCqe (some 4), .complete 0 5, .submitOp 2 (.ok 1), .complete 0 0,
      .waitCqe none] = _), rfl, rfl⟩

/-- The ring of every state the session reaches is one the view reaches: a call makes
the view's `get_sqe` and `submit`, and a wait that returns its `peek_cqe`. -/
theorem Reachable.ring {s : AsyncIoUring Op} (reach : Reachable s) : Ring.Reachable 8 s.ring := by
  induction reach with
  | init => exact .init
  | @step s s' e _ stepped ih =>
      cases e with
      | submitOp op enter =>
          simp only [next] at stepped
          split at stepped
          · cases stepped
          · split at stepped
            · cases stepped
              exact ih
            · rename_i ring got
              have submitted := (ih.step (e := Ring.Event.getSqe (sqeOf op)) got).step
                (e := Ring.Event.submit enter) rfl
              split at stepped <;>
                · rename_i _ _ _ submit
                  cases stepped
                  rwa [submit] at submitted
      | waitCqe failure =>
          simp only [next] at stepped
          split at stepped
          · cases stepped
          · split at stepped
            · rename_i cqe ring popped
              cases stepped
              exact ih.step (e := Ring.Event.popCqe) (by simp [Ring.next, popped])
            · obtain ⟨_, -, rfl⟩ := Option.map_eq_some'.1 stepped
              exact ih
      | complete index res =>
          obtain ⟨ring, done, rfl⟩ := Option.map_eq_some'.1 stepped
          exact ih.step (e := Ring.Event.complete index res) done

/-- Every state the session reaches is backed by index states liburing reaches, which
represent its ring. -/
theorem ring_represented_of_reachable {s : AsyncIoUring Op} (reach : Reachable s) :
    ∃ ix : Ring.Indices Op, ix.Represents s.ring :=
  Ring.Reachable.represented (k := 3) (by decide) reach.ring

/-- The events of runs in which no enter and no wait fails. -/
def cleanNext (s : AsyncIoUring Op) (e : Event Op) : Option (AsyncIoUring Op) :=
  if e.clean then s.next e else none

/-- The invariant of failure-free runs: the only live entry is that of the waiting
call, and every call that returned `Ok(res)` retired the completion of its own
operation, with result `res`. -/
structure CleanInv (s : AsyncIoUring Op) : Prop where
  live_eq : s.ring.live = s.waiting.toList.map sqeOf
  returned_own : ∀ call ∈ s.returned, ∀ res, call.output = .ok res →
    ∃ cqe, call.completion = some cqe ∧ cqe.sqe.op = call.op ∧ cqe.result = res

theorem cleanInv_new (entries : Nat) : (new entries : AsyncIoUring Op).CleanInv :=
  ⟨rfl, by simp [new]⟩

variable {s s' : AsyncIoUring Op}

theorem CleanInv.step_submitOp {op : Op} {consumed : Nat} (inv : s.CleanInv)
    (stepped : s.next (.submitOp op (.ok consumed)) = some s') : s'.CleanInv := by
  simp only [next] at stepped
  split at stepped
  · cases stepped
  · rename_i free
    have empty : s.ring.live = [] := by
      rw [inv.live_eq, Option.not_isSome_iff_eq_none.1 free]
      rfl
    split at stepped
    · cases stepped
      refine ⟨inv.live_eq, ?_⟩
      simp only [List.mem_append, List.mem_singleton]
      rintro call (earlier | rfl) res ok
      · exact inv.returned_own call earlier res ok
      · cases ok
    · rename_i ring got
      have queued := Ring.getSqe_live got
      split at stepped
      · rename_i ring' e submit
        have := Ring.submit_ok consumed ring
        rw [submit] at this
        cases this
      · rename_i ring' n submit
        cases stepped
        have := Ring.submit_live (.ok consumed) ring
        rw [submit] at this
        exact ⟨by simp [this, queued, empty], inv.returned_own⟩

theorem CleanInv.step_waitCqe (inv : s.CleanInv) (stepped : s.next (.waitCqe none) = some s') :
    s'.CleanInv := by
  simp only [next] at stepped
  split at stepped
  · cases stepped
  · rename_i op waiting
    split at stepped
    · rename_i cqe ring popped
      cases stepped
      have live := (Ring.popCqe_live popped).symm.trans inv.live_eq
      simp only [waiting, Option.toList_some, List.map_cons, List.map_nil, List.cons.injEq] at live
      refine ⟨by simp [live.2], ?_⟩
      simp only [List.mem_append, List.mem_singleton]
      rintro call (earlier | rfl) res ok
      · exact inv.returned_own call earlier res ok
      · cases ok
        exact ⟨cqe, rfl, by rw [live.1]; rfl, rfl⟩
    · cases stepped

theorem CleanInv.step_complete {index : Nat} {res : Int} (inv : s.CleanInv)
    (stepped : s.next (.complete index res) = some s') : s'.CleanInv := by
  obtain ⟨ring, done, rfl⟩ := Option.map_eq_some'.1 stepped
  have moved := Ring.complete_live done
  refine ⟨?_, inv.returned_own⟩
  rw [inv.live_eq] at moved
  cases waiting : s.waiting with
  | none => simpa [waiting] using moved
  | some op => simpa [waiting, List.perm_singleton] using moved

theorem CleanInv.step {e : Event Op} (inv : s.CleanInv) (stepped : s.cleanNext e = some s') :
    s'.CleanInv := by
  unfold cleanNext at stepped
  split at stepped
  · rename_i clean
    cases e with
    | submitOp op enter =>
        cases enter with
        | ok consumed => exact inv.step_submitOp stepped
        | error errno => cases clean
    | waitCqe failure =>
        cases failure with
        | none => exact inv.step_waitCqe stepped
        | some errno => cases clean
    | complete index res => exact inv.step_complete stepped
  · cases stepped

/-- When no `io_uring_enter` and no `wait_cqe` fails, every call that returns `Ok(res)`
retired the completion of its own operation, and `res` is that completion's result. -/
theorem clean_returns_own {entries : Nat}
    (reach : LiburingRs.Reachable cleanNext (new entries : AsyncIoUring Op) s) :
    ∀ call ∈ s.returned, ∀ res, call.output = .ok res →
      ∃ cqe, call.completion = some cqe ∧ cqe.sqe.op = call.op ∧ cqe.result = res := by
  suffices s.CleanInv from this.returned_own
  induction reach with
  | init => exact cleanInv_new entries
  | step _ stepped ih => exact ih.step stepped

/-- One failure-free call, whose NOP completes with `3`. -/
theorem clean_returns_own_nop :
    ∃ s : AsyncIoUring Unit, LiburingRs.Reachable cleanNext (new 8) s ∧
      s.returned.length = 1 ∧
      ∀ call ∈ s.returned, ∀ res, call.output = .ok res →
        ∃ cqe, call.completion = some cqe ∧ cqe.sqe.op = call.op ∧ cqe.result = res := by
  have reach := Reachable.run Reachable.init (rfl : run cleanNext (new 8 : AsyncIoUring Unit)
    [.submitOp () (.ok 1), .complete 0 3, .waitCqe none] = _)
  exact ⟨_, reach, rfl, clean_returns_own reach⟩

end AsyncIoUring

end AsyncStd

end LiburingRs
