import LiburingRs.Examples.Kernel

/-!
# `link-cp`

`copy_file_linked` queues, for each block, a read with `IOSQE_IO_LINK` and a write of
the whole block from the same buffer, tagged `2 i` and `2 i + 1` for the `i`-th block.
It submits, and for every completion posted counts it against the block and against
`inflight`.  An error other than `-ECANCELED` ends the copy; `-ECANCELED` is only
logged.  The loop runs while blocks are left to queue or operations are in flight.

A read that transfers less than its block severs the link, and the kernel cancels the
write.  The copy counts the cancelled write like any other and returns `Ok` with the
block never written.  Truncating the buffer after a short read does not change the
write, which was prepared with the whole block.  A short write is not checked either.
-/

namespace LiburingRs

namespace Examples

namespace LinkCp

/-- `QUEUE_DEPTH`. -/
def queueDepth : Nat := 64

/-- `BLOCK_SIZE`. -/
def blockSize : Nat := 32 * 1024

/-- `IoData` with the length of its buffer for the buffer. -/
structure IoData where
  offset : Nat
  bufferLen : Nat
  completedOps : Nat
  deriving DecidableEq, Repr

/-- The locals of `copy_file_linked`, the ring and the destination, and two ghost
counters: the `io_uring_enter` calls and the looks at the completion queue so far. -/
structure Locals where
  device : Device
  offset : Nat
  operations : List IoData
  inflight : Nat
  submits : Nat
  rounds : Nat
  deriving DecidableEq, Repr

/-- The loop that queues read-write pairs, with `room` turns; each pair takes two
places in flight, so `QUEUE_DEPTH - inflight` turns outlast the loop's own condition.
A read whose write finds no free entry stays queued with its link. -/
def queuePairsFor (fileSize : Nat) : Nat → Locals → Locals
  | 0, st => st
  | room + 1, st =>
      if st.offset < fileSize ∧ st.inflight < queueDepth then
        let size := min (fileSize - st.offset) blockSize
        let opIndex := st.operations.length
        let read : Sqe FileOp := ⟨.read st.offset size, BitVec.ofNat 64 (opIndex * 2), true⟩
        let write : Sqe FileOp :=
          ⟨.write st.offset size, BitVec.ofNat 64 (opIndex * 2 + 1), false⟩
        match st.device.ring.getSqe read with
        | none => st
        | some ring =>
            match ring.getSqe write with
            | none => { st with device := { st.device with ring } }
            | some ring =>
                queuePairsFor fileSize room { st with
                  device := { st.device with ring }
                  operations := st.operations ++ [⟨st.offset, size, 0⟩]
                  offset := st.offset + size
                  inflight := st.inflight + 2 }
      else st

/-- The loop that queues read-write pairs. -/
def queuePairs (fileSize : Nat) (st : Locals) : Locals :=
  queuePairsFor fileSize (queueDepth - st.inflight) st

/-- `ring.submit()?`. -/
def submit (kernel : Kernel) (st : Locals) : Except Error Locals :=
  match st.device.ring.submit (kernel.enter st.submits) with
  | (_, .error e) => .error e
  | (ring, .ok _) => .ok { st with device := { st.device with ring }, submits := st.submits + 1 }

/-- The handling of one completion: an error other than `-ECANCELED` ends the copy;
otherwise the block counts it, a read of `r > 0` bytes truncates the block's buffer to
`r`, and one operation less is in flight. -/
def handleCompletion (st : Locals) (completion : Int × BitVec 64) : Except Error Locals :=
  let opIndex := completion.2.toNat / 2
  let isRead := completion.2.toNat % 2 = 0
  if completion.1 < 0 ∧ completion.1 ≠ -ecanceled then .error (.io (-completion.1))
  else
    let operations :=
      match st.operations[opIndex]? with
      | none => st.operations
      | some op =>
          st.operations.set opIndex { op with
            completedOps := op.completedOps + 1
            bufferLen :=
              if isRead ∧ 0 < completion.1 then min op.bufferLen completion.1.toNat
              else op.bufferLen }
    .ok { st with operations, inflight := st.inflight - 1 }

/-- One iteration of the main loop: queue pairs, submit, and handle what the kernel
posted. -/
def iteration (kernel : Kernel) (fileSize : Nat) (st : Locals) : Except Error Locals := do
  let st := queuePairs fileSize st
  let st ← if 0 < st.inflight then submit kernel st else pure st
  let device := st.device.postAll (kernel.completions st.rounds)
  let (completions, ring) := peekAll device.ring
  completions.foldlM handleCompletion
    { st with device := { device with ring }, rounds := st.rounds + 1 }

/-- The main loop with `fuel` iterations; `none` when the fuel runs out. -/
def copyLoop (kernel : Kernel) (fileSize : Nat) : Nat → Locals → Option (Except Error Locals)
  | 0, _ => none
  | fuel + 1, st =>
      if st.offset < fileSize ∨ 0 < st.inflight then
        match iteration kernel fileSize st with
        | .error e => some (.error e)
        | .ok st => copyLoop kernel fileSize fuel st
      else some (.ok st)

/-- The locals at the start, on a fresh `IoUring::new(QUEUE_DEPTH)`. -/
def start : Locals := ⟨⟨Ring.empty queueDepth, []⟩, 0, [], 0, 0, 0⟩

/-- `copy_file_linked` of a source of `fileSize` bytes, with `fuel` iterations; on `Ok`
the final locals. -/
def copyFileLinked (kernel : Kernel) (fileSize fuel : Nat) : Option (Except Error Locals) :=
  copyLoop kernel fileSize fuel start

/-- Two bytes to copy, in one linked pair.  If the read returns one byte, the kernel
cancels the write and `copy_file_linked` returns `Ok` with nothing written.  If the
read returns both bytes and the write only the first, it returns `Ok` with the second
byte never written. -/
theorem short_transfers_return_ok :
    (∃ kernel final, copyFileLinked kernel 2 4 = some (.ok final) ∧
      final.device.written = []) ∧
      ∃ kernel final, copyFileLinked kernel 2 4 = some (.ok final) ∧
        final.device.written = [(0, 1)] :=
  ⟨⟨⟨fun _ => .ok 64, fun round => if round = 0 then [(0, 1)] else [], fun _ => none⟩, _,
      rfl, rfl⟩,
    ⟨fun _ => .ok 64, fun round => if round = 0 then [(0, 2), (0, 1)] else [],
      fun _ => none⟩, _, rfl, rfl⟩

end LinkCp

end Examples

end LiburingRs
