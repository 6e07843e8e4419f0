import LiburingRs.Examples.Kernel

/-!
# `io_uring-cp`

`copy_file` queues reads of up to `BLOCK_SIZE` bytes while fewer than `QUEUE_DEPTH`
operations are in flight, submits, and handles every completion posted.  A read
completion queues a write of the bytes read at the same offset; a write completion
subtracts the write's length from `bytes_to_write`.  The loop runs while there are
bytes to read or to write.

The length subtracted is the result of the read, not of the write.  A short read thus
leaves `bytes_to_write` above zero with every read queued and nothing in flight, and
the loop spins there forever.  A short write is counted in full, so the copy returns
`Ok` with bytes missing from the destination.

The buffers are left out: a write sends the prefix of its buffer the read filled, so
the destination ranges written say all there is to say about the data.
-/

namespace LiburingRs

namespace Examples

namespace IoUringCp

/-- `QUEUE_DEPTH`. -/
def queueDepth : Nat := 64

/-- `BLOCK_SIZE`. -/
def blockSize : Nat := 32 * 1024

/-- `IoData` without its buffer. -/
structure IoData where
  offset : Nat
  len : Nat
  isRead : Bool
  deriving DecidableEq, Repr

/-- The locals of `copy_file`, the ring and the destination, and two ghost counters:
the `io_uring_enter` calls and the looks at the completion queue so far. -/
structure Locals where
  device : Device
  offset : Nat
  pendingOperations : List IoData
  readsInFlight : Nat
  writesInFlight : Nat
  bytesToRead : Nat
  bytesToWrite : Nat
  submits : Nat
  rounds : Nat
  deriving DecidableEq, Repr

/-- The tag of the operations at `offset`. -/
def tagOf (offset : Nat) : BitVec 64 := BitVec.ofNat 64 offset

/-- The loop that queues reads, while `room` more operations fit in flight. -/
def queueReadsFor : Nat → Locals → Locals
  | 0, st => st
  | room + 1, st =>
      if 0 < st.bytesToRead then
        let size := min st.bytesToRead blockSize
        match st.device.ring.getSqe ⟨.read st.offset size, tagOf st.offset, false⟩ with
        | none => st
        | some ring =>
            queueReadsFor room { st with
              device := { st.device with ring }
              pendingOperations := st.pendingOperations ++ [⟨st.offset, size, true⟩]
              offset := st.offset + size
              bytesToRead := st.bytesToRead - size
              readsInFlight := st.readsInFlight + 1 }
      else st

/-- The loop that queues reads while there are bytes to read and fewer than
`QUEUE_DEPTH` operations in flight: each read queued takes one of the places left. -/
def queueReads (st : Locals) : Locals :=
  queueReadsFor (queueDepth - (st.readsInFlight + st.writesInFlight)) st

/-- `ring.submit()?`. -/
def submit (kernel : Kernel) (st : Locals) : Except Error Locals :=
  match st.device.ring.submit (kernel.enter st.submits) with
  | (_, .error e) => .error e
  | (ring, .ok _) => .ok { st with device := { st.device with ring }, submits := st.submits + 1 }

/-- `VecDeque::position` followed by `VecDeque::remove`. -/
def removeFirst {α : Type} (p : α → Bool) : List α → Option (α × List α)
  | [] => none
  | a :: rest =>
      if p a then some (a, rest) else (removeFirst p rest).map fun found => (found.1, a :: found.2)

/-- The handling of one completion: an error ends the copy; a read queues the write of
the bytes it read (even when no entry is free for it) and submits; a write is counted
with the length of the read. -/
def handleCompletion (kernel : Kernel) (st : Locals) (completion : Int × BitVec 64) :
    Except Error Locals :=
  if completion.1 < 0 then .error (.io (-completion.1))
  else
    match removeFirst (fun op => tagOf op.offset == completion.2) st.pendingOperations with
    | none => .ok st
    | some (op, rest) =>
        if op.isRead then
          let len := completion.1.toNat
          let ring :=
            (st.device.ring.getSqe ⟨.write op.offset len, tagOf op.offset, false⟩).getD
              st.device.ring
          submit kernel { st with
            device := { st.device with ring }
            pendingOperations := rest ++ [{ op with isRead := false, len }]
            readsInFlight := st.readsInFlight - 1
            writesInFlight := st.writesInFlight + 1 }
        else
          .ok { st with
            pendingOperations := rest
            writesInFlight := st.writesInFlight - 1
            bytesToWrite := st.bytesToWrite - op.len }

/-- One iteration of the main loop: queue reads, submit, and handle what the kernel
posted. -/
def iteration (kernel : Kernel) (st : Locals) : Except Error Locals := do
  let st := queueReads st
  let st ← if 0 < st.readsInFlight + st.writesInFlight then submit kernel st else pure st
  let device := st.device.postAll (kernel.completions st.rounds)
  let (completions, ring) := peekAll device.ring
  completions.foldlM (handleCompletion kernel)
    { st with device := { device with ring }, rounds := st.rounds + 1 }

/-- The loop that waits for the remaining writes, with `fuel` waits. -/
def waitRemaining (kernel : Kernel) : Nat → Locals → Option (Except Error Locals)
  | 0, _ => none
  | fuel + 1, st =>
      if st.writesInFlight = 0 then some (.ok st)
      else
        let device := st.device.postAll (kernel.completions st.rounds)
        let st := { st with device, rounds := st.rounds + 1 }
        match device.ring.popCqe with
        | some (cqe, ring) =>
            if cqe.result < 0 then some (.error (.io (-cqe.result)))
            else waitRemaining kernel fuel
              { st with device := { device with ring }, writesInFlight := st.writesInFlight - 1 }
        | none =>
            match kernel.waitError st.rounds with
            | some errno => some (.error (.io errno))
            | none => waitRemaining kernel fuel st

/-- The main loop and then the wait for the remaining writes, with `fuel` iterations;
`none` when the fuel runs out. -/
def copyLoop (kernel : Kernel) : Nat → Locals → Option (Except Error Locals)
  | 0, _ => none
  | fuel + 1, st =>
      if 0 < st.bytesToRead ∨ 0 < st.bytesToWrite then
        match iteration kernel st with
        | .error e => some (.error e)
        | .ok st => copyLoop kernel fuel st
      else waitRemaining kernel fuel st

/-- The locals at the start, on a fresh `IoUring::new(QUEUE_DEPTH)`. -/
def start (fileSize : Nat) : Locals :=
  ⟨⟨Ring.empty queueDepth, []⟩, 0, [], 0, 0, fileSize, fileSize, 0, 0⟩

/-- `copy_file` of a source of `fileSize` bytes, with `fuel` iterations; on `Ok` the
final locals. -/
def copyFile (kernel : Kernel) (fileSize fuel : Nat) : Option (Except Error Locals) :=
  copyLoop kernel fuel (start fileSize)

theorem copyLoop_succ_of_iteration {kernel : Kernel} {st st' : Locals} {fuel : Nat}
    (looping : 0 < st.bytesToRead ∨ 0 < st.bytesToWrite)
    (iterated : iteration kernel st = .ok st') :
    copyLoop kernel (fuel + 1) st = copyLoop kernel fuel st' := by
  simp [copyLoop, looping, iterated]

/-- Every read queued, nothing in flight or posted, and bytes still to write. -/
structure Spinning (st : Locals) : Prop where
  read_all : st.bytesToRead = 0
  unwritten : 0 < st.bytesToWrite
  idle : st.readsInFlight + st.writesInFlight = 0
  inflight_nil : st.device.ring.inflight = []
  cq_nil : st.device.ring.cq = []

theorem queueReads_of_read_all {st : Locals} (readAll : st.bytesToRead = 0) :
    queueReads st = st := by
  unfold queueReads
  cases queueDepth - (st.readsInFlight + st.writesInFlight) <;> simp [queueReadsFor, readAll]

theorem Spinning.round {st : Locals} (spin : Spinning st) :
    Spinning { st with rounds := st.rounds + 1 } :=
  ⟨spin.read_all, spin.unwritten, spin.idle, spin.inflight_nil, spin.cq_nil⟩

/-- In a spinning state an iteration changes nothing, whatever the kernel does. -/
theorem Spinning.iteration_eq {st : Locals} (spin : Spinning st) (kernel : Kernel) :
    iteration kernel st = .ok { st with rounds := st.rounds + 1 } := by
  have same : { st.device.ring with cq := [] } = st.device.ring := by rw [← spin.cq_nil]
  simp [IoUringCp.iteration, queueReads_of_read_all spin.read_all, spin.idle,
    Device.postAll_of_inflight_nil spin.inflight_nil, peekAll, spin.cq_nil, same]
  rfl

/-- From a spinning state the main loop never ends. -/
theorem Spinning.copyLoop_eq_none {st : Locals} (spin : Spinning st) (kernel : Kernel) :
    ∀ fuel, copyLoop kernel fuel st = none
  | 0 => rfl
  | fuel + 1 => by
      rw [copyLoop_succ_of_iteration (.inr spin.unwritten) (spin.iteration_eq kernel)]
      exact Spinning.copyLoop_eq_none spin.round kernel fuel

/-- Two bytes to copy.  If the read returns one byte, the write of that byte leaves
`bytes_to_write` at one with nothing in flight, and `copy_file` never returns.  If the
read returns both bytes and the write only the first, `copy_file` returns `Ok` with the
second byte never written. -/
theorem short_transfers_break_copy :
    (∃ kernel, ∀ fuel, copyFile kernel 2 fuel = none) ∧
      ∃ kernel final, copyFile kernel 2 8 = some (.ok final) ∧
        final.device.written = [(0, 1)] := by
  refine ⟨⟨⟨fun _ => .ok 64, fun round => if round < 2 then [(0, 1)] else [],
    fun _ => none⟩, fun fuel => ?_⟩,
    ⟨fun _ => .ok 64, fun round => [(0, if round = 0 then 2 else 1)], fun _ => none⟩, _, rfl, rfl⟩
  match fuel with
  | 0 => rfl
  | 1 => rfl
  | fuel + 2 =>
      exact (copyLoop_succ_of_iteration (.inl (by decide)) (by exact rfl)).trans
        ((copyLoop_succ_of_iteration (.inr (by decide)) (by exact rfl)).trans
          (Spinning.copyLoop_eq_none ⟨by rfl, by decide, by rfl, by rfl, by rfl⟩ _ fuel))

end IoUringCp

end Examples

end LiburingRs
