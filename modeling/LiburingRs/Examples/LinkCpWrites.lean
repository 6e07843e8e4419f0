import LiburingRs.Examples.LinkCpAccount
import LiburingRs.Examples.IoUringCpWrites

/-!
# `link-cp` writes no byte twice

Whatever the kernel does, the ranges of the destination that `copy_file_linked` writes
are pairwise disjoint and lie within the source.  Each pair queued covers the block just
past everything queued before it, and a write is queued only with its block: a read left
queued without its write, when the second `get_sqe` finds no entry, adds no range, and
the block is queued again from the same offset.  What the kernel writes is a prefix of
the write's block, or nothing when it cancels the write behind a short read.

Handling a completion touches only the count and the buffer lengths, so the ranges
written and those of the writes still in the ring stay pairwise disjoint and before
`offset`.
-/

namespace LiburingRs

namespace Examples

namespace LinkCp

open IoUringCp (Apart separated_of_written wrote_shorter perm_eraseIdx)

/-- The ranges of the writes among some entries. -/
def writeRanges (sqes : List (Sqe FileOp)) : List (Nat × Nat) :=
  (sqes.filter fun sqe => !sqe.op.isRead).map fun sqe => sqe.op.range

/-- The ranges still to write: those of the writes the kernel has not completed. -/
def toWrite (ring : Ring FileOp) : List (Nat × Nat) :=
  writeRanges (ring.inflight ++ ring.published ++ ring.prepared)

/-- The destination written and still to write: pairwise disjoint ranges, all before
`offset`. -/
structure Separated (device : Device) (offset : Nat) : Prop where
  apart : (device.written ++ toWrite device.ring).Pairwise Apart
  below : ∀ r ∈ device.written ++ toWrite device.ring, r.1 + r.2 ≤ offset

section Separated

variable {device : Device} {offset : Nat}

theorem Separated.of_perm {device' : Device} (sep : Separated device offset)
    (perm : (device'.written ++ toWrite device'.ring).Perm
      (device.written ++ toWrite device.ring)) :
    Separated device' offset :=
  ⟨perm.symm.pairwise sep.apart Apart.symm, fun r mem => sep.below r (perm.mem_iff.1 mem)⟩

/-- `submit` moves entries within the ring and writes nothing. -/
theorem Separated.submitted (sep : Separated device offset) (enter : Except Int Nat) :
    Separated { device with ring := (device.ring.submit enter).1 } offset := by
  refine sep.of_perm (.of_eq ?_)
  cases enter <;> simp [toWrite, Ring.submit, List.take_append_drop]

/-- A read prepared adds no range to write. -/
theorem Separated.readPrepared (sep : Separated device offset) (size : Nat) (tag : BitVec 64)
    (link : Bool) :
    Separated { device with ring := { device.ring with
        prepared := device.ring.prepared ++ [⟨.read offset size, tag, link⟩] } } offset :=
  sep.of_perm (.of_eq (by simp [toWrite, writeRanges, FileOp.isRead]))

/-- A write prepared at `offset` covers a range past everything written or to write. -/
theorem Separated.writePrepared (sep : Separated device offset) (size : Nat) (tag : BitVec 64)
    (link : Bool) :
    Separated { device with ring := { device.ring with
        prepared := device.ring.prepared ++ [⟨.write offset size, tag, link⟩] } }
      (offset + size) := by
  have shape : device.written ++ toWrite { device.ring with
      prepared := device.ring.prepared ++ [⟨.write offset size, tag, link⟩] } =
      (device.written ++ toWrite device.ring) ++ [(offset, size)] := by
    simp [toWrite, writeRanges, FileOp.isRead, FileOp.range]
  refine ⟨?_, fun x mem => ?_⟩
  · rw [shape, List.pairwise_append]
    refine ⟨sep.apart, List.pairwise_singleton _ _, fun x mem y new => ?_⟩
    rw [List.mem_singleton.1 new]
    exact .inl (sep.below x mem)
  · rw [shape] at mem
    rcases List.mem_append.1 mem with old | new
    · have := sep.below x old
      omega
    · rw [List.mem_singleton.1 new]

theorem Separated.mono {offset' : Nat} (sep : Separated device offset) (le : offset ≤ offset') :
    Separated device offset' :=
  ⟨sep.apart, fun r mem => (sep.below r mem).trans le⟩

/-- A completion takes the range of its entry, if a write, out of those to write. -/
theorem toWrite_complete {ring : Ring FileOp} {index : Nat} {sqe : Sqe FileOp}
    (found : ring.inflight[index]? = some sqe) :
    (toWrite ring).Perm (writeRanges [sqe] ++
      toWrite { ring with inflight := ring.inflight.eraseIdx index }) := by
  have moved := ((((perm_eraseIdx found).append_right ring.published).append_right
    ring.prepared).filter fun sqe : Sqe FileOp => !sqe.op.isRead).map fun sqe => sqe.op.range
  unfold toWrite writeRanges
  refine moved.trans ?_
  simp only [List.cons_append, List.filter_cons, List.filter_nil]
  split <;> simp

/-- The kernel's completion of the `index`-th entry in flight: a write's range gives way
to what it wrote, a prefix of it when its result is no longer than it asked. -/
theorem Separated.complete {index : Nat} {res : Int} {sqe : Sqe FileOp} {ring' : Ring FileOp}
    (sep : Separated device offset) (found : device.ring.inflight[index]? = some sqe)
    (done : device.ring.complete index res = some ring') (fits : res ≤ sqe.op.len) :
    Separated ⟨ring', device.written ++ Device.wrote sqe res⟩ offset := by
  obtain ⟨sqe', found', rfl⟩ := Ring.complete_eq_some done
  obtain rfl : sqe = sqe' := Option.some.inj (found.symm.trans found')
  have moved : (device.written ++ toWrite device.ring).Perm (writeRanges [sqe] ++
      (device.written ++ toWrite { device.ring with
        inflight := device.ring.inflight.eraseIdx index, cq := device.ring.cq ++ [⟨sqe, res⟩] })) :=
    ((toWrite_complete found).append_left _).trans (List.perm_append_comm_assoc _ _ _)
  cases op : sqe.op with
  | read o l =>
      have wrote : Device.wrote sqe res = [] := by simp [Device.wrote, op]
      have none : writeRanges [sqe] = [] := by simp [writeRanges, op, FileOp.isRead]
      rw [none, List.nil_append] at moved
      exact sep.of_perm (by simpa [wrote] using moved.symm)
  | write o l =>
      have one : writeRanges [sqe] = [sqe.op.range] := by
        simp [writeRanges, op, FileOp.isRead]
      rw [one, List.singleton_append] at moved
      obtain ⟨apart, below⟩ := separated_of_written sep.apart sep.below moved
        (wrote_shorter fits).1 (wrote_shorter fits).2
      exact ⟨apart, below⟩

/-- The kernel's postings write within the ranges still to write. -/
theorem Separated.postAll (device : Device) (choices : List (Nat × Int))
    (sep : Separated device offset) : Separated (device.postAll choices) offset :=
  Device.postAll_of_completed (P := fun device => Separated device offset)
    (fun _ _ _ _ _ sep found done fits => sep.complete found done fits) device choices sep

/-- The completions peeked leave the ring; none of them is still to write. -/
theorem Separated.peek (sep : Separated device offset) :
    Separated { device with ring := { device.ring with cq := [] } } offset :=
  sep.of_perm (.of_eq rfl)

/-- What is written is part of what `Separated` keeps apart and below its bound. -/
theorem Separated.written (sep : Separated device offset) :
    device.written.Pairwise Apart ∧ ∀ r ∈ device.written, r.1 + r.2 ≤ offset :=
  ⟨sep.apart.sublist (List.sublist_append_left _ _),
    fun r mem => sep.below r (List.mem_append_left _ mem)⟩

end Separated

section Copy

variable {fileSize : Nat} {kernel : Kernel} {st st' : Locals}

/-- The loop that queues pairs moves `offset` past each write it queues, and never past
the end of the file. -/
theorem Separated.pairsQueuedFor (fileSize : Nat) :
    ∀ turns (st : Locals), Separated st.device st.offset → st.offset ≤ fileSize →
      Separated (queuePairsFor fileSize turns st).device (queuePairsFor fileSize turns st).offset ∧
        (queuePairsFor fileSize turns st).offset ≤ fileSize
  | 0, _, sep, within => ⟨sep, within⟩
  | turns + 1, st, sep, within => by
      simp only [queuePairsFor]
      split
      · rename_i more
        split
        · exact ⟨sep, within⟩
        · rename_i ring got
          obtain ⟨-, rfl⟩ := Ring.getSqe_eq_some_iff.1 got
          have read := sep.readPrepared (min (fileSize - st.offset) blockSize)
            (BitVec.ofNat 64 (st.operations.length * 2)) true
          split
          · exact ⟨read, within⟩
          · rename_i ring' got'
            obtain ⟨-, rfl⟩ := Ring.getSqe_eq_some_iff.1 got'
            exact Separated.pairsQueuedFor fileSize turns _ (read.writePrepared _ _ _)
              (by dsimp only; omega)
      · exact ⟨sep, within⟩

theorem handleCompletion_offset {completion : Int × BitVec 64}
    (handled : handleCompletion st completion = .ok st') : st'.offset = st.offset := by
  unfold handleCompletion at handled
  dsimp only at handled
  split at handled
  · cases handled
  · cases handled
    rfl

/-- Handling the completions peeked touches neither the device nor `offset`. -/
theorem completionsHandled_keeps :
    ∀ {completions : List (Int × BitVec 64)} {st : Locals},
      completions.foldlM handleCompletion st = .ok st' →
        st'.device = st.device ∧ st'.offset = st.offset
  | [], _, handled => by
      obtain rfl := Except.ok.inj handled
      exact ⟨rfl, rfl⟩
  | _ :: _, _, handled => by
      rw [List.foldlM_cons] at handled
      obtain ⟨mid, one, more⟩ := bind_eq_ok handled
      obtain ⟨device, offset⟩ := completionsHandled_keeps more
      exact ⟨device.trans (handleCompletion_eq_ok one).1,
        offset.trans (handleCompletion_offset one)⟩

/-- Every iteration of the main loop keeps the destination separated. -/
theorem Separated.iterate (sep : Separated st.device st.offset) (within : st.offset ≤ fileSize)
    (iterated : iteration kernel fileSize st = .ok st') :
    Separated st'.device st'.offset ∧ st'.offset ≤ fileSize := by
  have queued : Separated (queuePairs fileSize st).device (queuePairs fileSize st).offset ∧
      (queuePairs fileSize st).offset ≤ fileSize :=
    Separated.pairsQueuedFor fileSize _ st sep within
  unfold iteration at iterated
  dsimp only at iterated
  split at iterated
  all_goals
    obtain ⟨st₁, submitted, handled⟩ := bind_eq_ok iterated
    obtain ⟨device, offset⟩ := completionsHandled_keeps handled
    rw [device, offset]
  · obtain ⟨consumed, -, rfl⟩ := submit_eq_ok submitted
    exact ⟨(Separated.postAll _ _ (queued.1.submitted _)).peek, queued.2⟩
  · cases submitted
    exact ⟨(Separated.postAll _ _ queued.1).peek, queued.2⟩

theorem Reachable.separated (reach : Reachable kernel fileSize st) :
    Separated st.device st.offset ∧ st.offset ≤ fileSize := by
  induction reach with
  | init => exact ⟨⟨.nil, fun _ mem => absurd mem (List.not_mem_nil _)⟩, Nat.zero_le _⟩
  | @step st st' _ _ stepped ih =>
      cases iterated : iteration kernel fileSize st with
      | error e => simp [iterated, Except.toOption] at stepped
      | ok next =>
          simp only [iterated, Except.toOption, Option.some.injEq] at stepped
          exact stepped ▸ ih.1.iterate ih.2 iterated

theorem copyLoop_separated :
    ∀ fuel (st : Locals), Reachable kernel fileSize st →
      copyLoop kernel fileSize fuel st = some (.ok st') → Separated st'.device fileSize
  | 0, _, _, looped => by cases looped
  | fuel + 1, st, reach, looped => by
      unfold copyLoop at looped
      split at looped
      · split at looped
        · cases looped
        · rename_i next iterated
          exact copyLoop_separated fuel next
            (reach.step (e := ()) (by simp [iterated, Except.toOption])) looped
      · cases looped
        exact reach.separated.1.mono reach.separated.2

end Copy

/-- Whatever the kernel does (how many entries each `io_uring_enter` consumes, which
operations it completes in what order, short reads and the writes cancelled behind them,
short writes), `copy_file_linked` writes no byte of the destination twice and none past
the source's end: at the start of every iteration, and when it returns `Ok`, the ranges
written are pairwise disjoint and within the file. -/
theorem linked_writes_apart {kernel : Kernel} {fileSize : Nat} :
    (∀ st, Reachable kernel fileSize st →
      st.device.written.Pairwise Apart ∧ ∀ r ∈ st.device.written, r.1 + r.2 ≤ fileSize) ∧
    ∀ fuel final, copyFileLinked kernel fileSize fuel = some (.ok final) →
      final.device.written.Pairwise Apart ∧ ∀ r ∈ final.device.written, r.1 + r.2 ≤ fileSize :=
  ⟨fun _ reach => (reach.separated.1.mono reach.separated.2).written,
    fun fuel _ copied => (copyLoop_separated fuel _ .init copied).written⟩

end LinkCp

end Examples

end LiburingRs
