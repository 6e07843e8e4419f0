import Mathlib

/-!
# Errors and ring entries

The error type of `error.rs` with its conversion of negative return codes, and
the two records the ring exchanges with the kernel: a submission entry stamped
with its `user_data` tag, and the completion the kernel posts for it, which
carries the tag back with a signed result.  Last, the states a deterministic step
function reaches, and the replay of a schedule of events through it, which every
model of a stateful component here shares.

An `io::Error` is kept as its raw OS error number.  The kernel copies the
submission's `user_data` into the completion; a completion here keeps the whole
entry it completes, so that statements can name the operation a completion
belongs to.  The code itself only reads the tag and the result.
-/

namespace LiburingRs

/-- `error::Error`. -/
inductive Error where
  | io (errno : Int)
  | setup (errno : Int)
  | submissionQueueFull
  | completionQueueEmpty
  | invalidOperation (msg : String)
  | notSupported (msg : String)
  deriving DecidableEq, Repr

/-- `error::from_ret_code`: the negative return code `ret` is the OS error `-ret`. -/
def fromRetCode (ret : Int) : Int := -ret

/-- `error::check_ret`. -/
def checkRet (ret : Int) : Except Int Int :=
  if ret < 0 then .error (fromRetCode ret) else .ok ret

/-- A prepared submission queue entry: the operation a `PrepareOp` wrote into the
slot, the `user_data` set by `SqeExt::set_user_data`, and whether
`IOSQE_IO_LINK` was set by `SqeExt::set_flags`. -/
structure Sqe (Op : Type) where
  op : Op
  userData : BitVec 64
  link : Bool
  deriving DecidableEq, Repr

/-- A posted completion queue entry: the entry it completes and the result
`res` (negative: an OS error number, negated). -/
structure Cqe (Op : Type) where
  sqe : Sqe Op
  res : Int
  deriving DecidableEq, Repr

namespace Cqe

variable {Op : Type}

/-- `Cqe::user_data`: the kernel echoes the submission's tag. -/
def userData (cqe : Cqe Op) : BitVec 64 := cqe.sqe.userData

/-- `Cqe::result`. -/
def result (cqe : Cqe Op) : Int := cqe.res

/-- `Cqe::into_result`. -/
def intoResult (cqe : Cqe Op) : Except Int Int :=
  if cqe.result < 0 then .error (fromRetCode cqe.result) else .ok cqe.result

@[simp]
theorem userData_mk (sqe : Sqe Op) (res : Int) : (Cqe.mk sqe res).userData = sqe.userData :=
  rfl

@[simp]
theorem result_mk (sqe : Sqe Op) (res : Int) : (Cqe.mk sqe res).result = res :=
  rfl

end Cqe

section Replay

variable {σ ε : Type} (next : σ → ε → Option σ) (start : σ)

/-- The states `next` reaches from `start`, one event at a time. -/
inductive Reachable : σ → Prop
  | init : Reachable start
  | step {s s' : σ} {e : ε} : Reachable s → next s e = some s' → Reachable s'

/-- Replay a schedule of events; `none` when one of them cannot happen. -/
def run : σ → List ε → Option σ
  | s, [] => some s
  | s, e :: rest => (next s e).bind fun s' => run s' rest

variable {next start}

/-- A replayed schedule reaches its final state. -/
theorem Reachable.run {s s' : σ} {events : List ε} (reach : Reachable next start s)
    (replay : run next s events = some s') : Reachable next start s' := by
  induction events generalizing s with
  | nil => cases replay; exact reach
  | cons e rest ih =>
      simp only [LiburingRs.run] at replay
      cases stepped : next s e with
      | none => simp [stepped] at replay
      | some mid =>
          rw [stepped, Option.some_bind] at replay
          exact ih (reach.step stepped) replay

end Replay

end LiburingRs
