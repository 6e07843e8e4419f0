import LiburingRs.Examples.Cat

/-!
# `read_file`

`main` writes `Hello from io_uring!` to a temporary file, queues one read of up to the
`1024` bytes of its buffer at offset `0`, tagged `0x42`, submits it with
`submit_and_wait(1)`, and takes one completion with `peek_cqe`.  It prints the bytes
read, and the content when there is some: the buffer up to `bytes_read`, a slice that
would panic past the buffer's end.

The kernel's part is that of `cat`: the enter consumes the read or not, or fails, and
the read fails or transfers at most what was asked, what the file holds and a cap the
kernel chooses.  Whatever it does, the completion `peek_cqe` finds is the read's own,
the slice stays within the buffer, and what is printed is the start of the file.
-/

namespace LiburingRs

namespace Examples

namespace ReadFile

/-- The file's contents, `b"Hello from io_uring!"`. -/
def contents : List UInt8 :=
  [72, 101, 108, 108, 111, 32, 102, 114, 111, 109, 32, 105, 111, 95, 117, 114, 105, 110,
    103, 33]

/-- The length of the buffer, `vec![0u8; 1024]`. -/
def bufferLen : Nat := 1024

/-- The kernel's side: the outcome of the `io_uring_enter` inside `submit_and_wait`, and
that of the read, an OS error or a cap on the bytes it transfers. -/
structure Kernel where
  enter : Except Int Nat
  read : Except Nat Nat

/-- What `main` printed after the read: `bytes_read`, and the content when it is
positive. -/
structure Printed where
  bytesRead : Int
  content : Option (List UInt8)
  deriving DecidableEq, Repr

/-- How `main` ends: `Ok` with what it printed (`none` when `peek_cqe` found nothing),
an error, or a panic of the slice `buffer[..bytes_read]`. -/
inductive Exit where
  | ok (printed : Option Printed)
  | error (e : Error)
  | panic
  deriving DecidableEq, Repr

/-- The read `main` queues, tagged `0x42`. -/
def readSqe : Sqe FileOp := ⟨.read 0 bufferLen, 0x42, false⟩

/-- `main` from `IoUring::new(8)` on; `none` while `submit_and_wait` waits.  The kernel
fills the zeroed buffer with what the read transfers from the start of the file. -/
def main (kernel : Kernel) : Option Exit :=
  let posted := fun sqe : Sqe FileOp => Cat.result contents kernel.read sqe.op
  match (Ring.empty 8 : Ring FileOp).getSqe readSqe with
  | none => some (.error .submissionQueueFull)
  | some ring =>
      match ring.submitAndWait kernel.enter (Cat.completeAll posted) 1 with
      | none => none
      | some (_, .error e) => some (.error e)
      | some (ring, .ok _) =>
          match ring.popCqe with
          | none => some (.ok none)
          | some (cqe, _) =>
              let bytesRead := cqe.result
              if 0 < bytesRead then
                let filled := contents.take (posted readSqe).toNat
                let buffer := filled ++ List.replicate (bufferLen - filled.length) 0
                if bytesRead.toNat ≤ buffer.length then
                  some (.ok (some ⟨bytesRead, some (buffer.take bytesRead.toNat)⟩))
                else some .panic
              else some (.ok (some ⟨bytesRead, none⟩))

end ReadFile

end Examples

end LiburingRs
