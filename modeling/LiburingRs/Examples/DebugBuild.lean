import LiburingRs.Examples.IoUringCpOk
import LiburingRs.Examples.LinkCpAccount

/-!
# The file copies in a debug build

The models subtract on `Nat`, where `0 - 1 = 0`.  The programs subtract on `u64` and
`usize`: a debug build panics when a subtraction would go below zero, and a release build
wraps around.  So the models say what the programs do only as long as no subtraction goes
below zero.

Here the completion handlers subtract as a debug build does, and the write `io_uring-cp`
queues after a read slices the read's buffer to the bytes read, a slice that panics in
either build past the buffer's end; `none` stands for the panic.  The loops that queue
operations subtract `min(left, BLOCK_SIZE)` from what is left, and the wait for the
remaining writes subtracts only while `writes_in_flight > 0`, so neither goes below zero.

For `io_uring-cp`, whatever the kernel does, a run of a debug build ends as the model's
does: each completion finds its pending operation, which `reads_in_flight` or
`writes_in_flight` counts, a read returns no more than its buffer holds, and
`bytes_to_write` stays at or above the lengths of the pending operations.  For `link-cp`,
the same holds when every enter consumes all it is handed: `inflight` then counts the live
entries, and each completion peeked is one of them.  Otherwise a read left queued without
its write goes uncounted; when every live entry then completes in one round, the last
completion finds `inflight` at zero, and a debug build panics where the model returns
`Ok`.
-/

namespace LiburingRs

namespace Examples

/-- `a - b` on a `u64` or a `usize` in a debug build: `none` for the panic when `b > a`. -/
def subChecked (a b : Nat) : Option Nat :=
  if b ≤ a then some (a - b) else none

theorem subChecked_of_le {a b : Nat} (le : b ≤ a) : subChecked a b = some (a - b) :=
  if_pos le

/-- How a run of a debug build ends: as a run of the model does, or in a panic. -/
inductive Outcome (α : Type) where
  | returned (result : α)
  | panicked
  deriving DecidableEq, Repr

namespace IoUringCp

/-- `handleCompletion` as a debug build runs it: `reads_in_flight -= 1`,
`writes_in_flight -= 1` and `bytes_to_write -= op.len` panic below zero. -/
def handleCompletionDebug (kernel : Kernel) (st : Locals) (completion : Int × BitVec 64) :
    Option (Except Error Locals) :=
  if completion.1 < 0 then some (.error (.io (-completion.1)))
  else
    match removeFirst (fun op => tagOf op.offset == completion.2) st.pendingOperations with
    | none => some (.ok st)
    | some (op, rest) =>
        if op.isRead then
          (subChecked st.readsInFlight 1).bind fun readsInFlight =>
            let len := completion.1.toNat
            -- `&op.buffer[..op.len]`, on a buffer as long as the read
            let sliced :=
              match st.device.ring.getSqe ⟨.write op.offset len, tagOf op.offset, false⟩ with
              | none => some st.device.ring
              | some ring => if len ≤ op.len then some ring else none
            sliced.map fun ring =>
              submit kernel { st with
                device := { st.device with ring }
                pendingOperations := rest ++ [{ op with isRead := false, len }]
                readsInFlight
                writesInFlight := st.writesInFlight + 1 }
        else
          (subChecked st.writesInFlight 1).bind fun writesInFlight =>
            (subChecked st.bytesToWrite op.len).map fun bytesToWrite =>
              .ok { st with pendingOperations := rest, writesInFlight, bytesToWrite }

/-- The `for` loop over the completions peeked, as a debug build runs it. -/
def handleAllDebug (kernel : Kernel) :
    List (Int × BitVec 64) → Locals → Option (Except Error Locals)
  | [], st => some (.ok st)
  | completion :: rest, st =>
      match handleCompletionDebug kernel st completion with
      | some (.ok st) => handleAllDebug kernel rest st
      | other => other

/-- One iteration of the main loop as a debug build runs it. -/
def iterationDebug (kernel : Kernel) (st : Locals) : Option (Except Error Locals) :=
  let st := queueReads st
  match (if 0 < st.readsInFlight + st.writesInFlight then submit kernel st else pure st) with
  | .error e => some (.error e)
  | .ok st =>
      let device := st.device.postAll (kernel.completions st.rounds)
      let (completions, ring) := peekAll device.ring
      handleAllDebug kernel completions
        { st with device := { device with ring }, rounds := st.rounds + 1 }

/-- The main loop and then the wait for the remaining writes as a debug build runs them,
with `fuel` iterations; `none` when the fuel runs out. -/
def copyLoopDebug (kernel : Kernel) : Nat → Locals → Option (Outcome (Except Error Locals))
  | 0, _ => none
  | fuel + 1, st =>
      if 0 < st.bytesToRead ∨ 0 < st.bytesToWrite then
        match iterationDebug kernel st with
        | none => some .panicked
        | some (.error e) => some (.returned (.error e))
        | some (.ok st) => copyLoopDebug kernel fuel st
      else (waitRemaining kernel fuel st).map .returned

/-- `copy_file` as a debug build runs it. -/
def copyFileDebug (kernel : Kernel) (fileSize fuel : Nat) :
    Option (Outcome (Except Error Locals)) :=
  copyLoopDebug kernel fuel (start fileSize)

section Agrees

variable {fileSize : Nat} {kernel : Kernel} {st : Locals} {done : List (Nat × Nat)}

/-- A completion peeked finds its pending operation, which the count it subtracts from
includes; a read returned no more than its buffer holds, and for a write
`bytes_to_write` is at least its length: the debug build handles it as the model does. -/
theorem handleCompletionDebug_eq {cqe : Cqe FileOp} {rest : List (Cqe FileOp)}
    (tracked : Tracked fileSize st (cqe.sqe :: rest.map Cqe.sqe))
    (sep : Separated st.device (cqe :: rest) st.offset)
    (tiled : Tiled fileSize st (cqe :: rest) done) :
    handleCompletionDebug kernel st (cqe.result, cqe.userData) =
      some (handleCompletion kernel st (cqe.result, cqe.userData)) := by
  obtain ⟨op, mem, same⟩ :=
    List.mem_map.1 (tracked.live.subset (List.mem_append_right _ (List.mem_cons_self _ _)))
  have counted : 0 < st.pendingOperations.countP fun other => other.isRead = op.isRead :=
    List.countP_pos_iff.2 ⟨op, mem, by simp⟩
  have fits : cqe.result.toNat ≤ op.len := by
    have posted := sep.posted cqe (List.mem_append_right _ (List.mem_cons_self _ _))
    rw [← same, IoData.sqe_len] at posted
    exact Int.toNat_le.2 posted
  rw [Cqe.userData, ← same]
  unfold handleCompletionDebug handleCompletion
  dsimp only [IoData.sqe]
  split_ifs with negative
  · rfl
  rw [removeFirst_tag mem tracked.tags]
  dsimp only
  cases isRead : op.isRead
  · have writes : 1 ≤ st.writesInFlight := by
      rw [tracked.writes]
      simpa [isRead] using counted
    have bytes : op.len ≤ st.bytesToWrite := by
      have := List.le_sum_of_mem (List.mem_map_of_mem IoData.len mem)
      have := tiled.fits
      omega
    simp [subChecked_of_le writes, subChecked_of_le bytes]
  · have reads : 1 ≤ st.readsInFlight := by
      rw [tracked.reads]
      simpa [isRead] using counted
    rw [subChecked_of_le reads, Option.some_bind]
    cases st.device.ring.getSqe ⟨.write op.offset cqe.result.toNat, tagOf op.offset, false⟩
    · rfl
    · simp only [if_pos fits]
      rfl

theorem handleAllDebug_eq {cqes : List (Cqe FileOp)}
    (tracked : Tracked fileSize st (cqes.map Cqe.sqe)) (sep : Separated st.device cqes st.offset)
    (tiled : Tiled fileSize st cqes done) :
    handleAllDebug kernel (cqes.map fun cqe => (cqe.result, cqe.userData)) st =
      some ((cqes.map fun cqe => (cqe.result, cqe.userData)).foldlM
        (handleCompletion kernel) st) := by
  induction cqes generalizing st done with
  | nil => rfl
  | cons cqe rest ih =>
      rw [List.map_cons, List.foldlM_cons, handleAllDebug,
        handleCompletionDebug_eq tracked sep tiled]
      cases handled : handleCompletion kernel st (cqe.result, cqe.userData) with
      | error e => rfl
      | ok st' =>
          exact ih (tracked.completionHandled handled) (sep.completionHandled tracked handled)
            (tiled.completionHandled tracked sep handled)

/-- From every state the main loop reaches, an iteration of a debug build runs as the
model's. -/
theorem iterationDebug_eq (small : fileSize ≤ 2 ^ 64) (reach : Reachable kernel fileSize st) :
    iterationDebug kernel st = some (iteration kernel st) := by
  have queued := ((reach.tracked small).readsQueued small).1
  have sepQueued : Separated (queueReads st).device [] (queueReads st).offset :=
    Separated.readsQueuedFor _ st (reach.separated small)
  obtain ⟨done, tiled⟩ := reach.tiled small
  have tiledQueued : Tiled fileSize (queueReads st) [] done := Tiled.readsQueuedFor _ st tiled
  unfold iterationDebug iteration
  dsimp only
  split_ifs
  · cases submitted : submit kernel (queueReads st) with
    | error e => rfl
    | ok st₁ =>
        exact handleAllDebug_eq ((queued.submitted submitted).peek _ _)
          (Separated.postAll _ _ (sepQueued.submitOk submitted)).peek
          ((tiledQueued.submitted submitted).peek _ _)
  · exact handleAllDebug_eq (queued.peek _ _) (Separated.postAll _ _ sepQueued).peek
      (tiledQueued.peek _ _)

theorem copyLoopDebug_eq (small : fileSize ≤ 2 ^ 64) :
    ∀ fuel (st : Locals), Reachable kernel fileSize st →
      copyLoopDebug kernel fuel st = (copyLoop kernel fuel st).map .returned
  | 0, _, _ => rfl
  | fuel + 1, st, reach => by
      unfold copyLoopDebug copyLoop
      split_ifs
      · rw [iterationDebug_eq small reach]
        cases iterated : iteration kernel st with
        | error e => rfl
        | ok st' =>
            exact copyLoopDebug_eq small fuel st'
              (reach.step (e := ()) (by simp [iterated, Except.toOption]))
      · rfl

end Agrees

/-- On a source of at most `2^64` bytes, whatever the kernel does, no subtraction of
`copy_file` goes below zero and no slice passes its buffer's end: a debug build's run
ends as the model's does, without panicking. -/
theorem copyFileDebug_agrees {kernel : Kernel} {fileSize : Nat} (small : fileSize ≤ 2 ^ 64)
    (fuel : Nat) :
    copyFileDebug kernel fileSize fuel = (copyFile kernel fileSize fuel).map .returned :=
  copyLoopDebug_eq small fuel _ .init

theorem copyFileDebug_agrees_short_write :
    2 ≤ 2 ^ 64 ∧
      copyFileDebug ⟨fun _ => .ok 64, fun round => [(0, if round = 0 then 2 else 1)],
          fun _ => none⟩ 2 8 =
        (copyFile ⟨fun _ => .ok 64, fun round => [(0, if round = 0 then 2 else 1)],
          fun _ => none⟩ 2 8).map .returned :=
  ⟨by decide, copyFileDebug_agrees (by decide) 8⟩

end IoUringCp

namespace LinkCp

/-- `handleCompletion` as a debug build runs it: `inflight -= 1` panics below zero. -/
def handleCompletionDebug (st : Locals) (completion : Int × BitVec 64) :
    Option (Except Error Locals) :=
  let opIndex := completion.2.toNat / 2
  let isRead := completion.2.toNat % 2 = 0
  if completion.1 < 0 ∧ completion.1 ≠ -ecanceled then some (.error (.io (-completion.1)))
  else
    let operations :=
      match st.operations[opIndex]? with
      | none => st.operations
      | some op =>
          st.operations.set opIndex { op with
            completedOps := op.completedOps + 1
            bufferLen :=
              if isRead ∧ 0 < completion.1 then min op.bufferLen completion.1.toNat
              else op.bufferLen }
    (subChecked st.inflight 1).map fun inflight => .ok { st with operations, inflight }

/-- The loop over the completions peeked, as a debug build runs it. -/
def handleAllDebug : List (Int × BitVec 64) → Locals → Option (Except Error Locals)
  | [], st => some (.ok st)
  | completion :: rest, st =>
      match handleCompletionDebug st completion with
      | some (.ok st) => handleAllDebug rest st
      | other => other

/-- One iteration of the main loop as a debug build runs it. -/
def iterationDebug (kernel : Kernel) (fileSize : Nat) (st : Locals) :
    Option (Except Error Locals) :=
  let st := queuePairs fileSize st
  match (if 0 < st.inflight then submit kernel st else pure st) with
  | .error e => some (.error e)
  | .ok st =>
      let device := st.device.postAll (kernel.completions st.rounds)
      let (completions, ring) := peekAll device.ring
      handleAllDebug completions { st with device := { device with ring }, rounds := st.rounds + 1 }

/-- The main loop as a debug build runs it, with `fuel` iterations; `none` when the fuel
runs out. -/
def copyLoopDebug (kernel : Kernel) (fileSize : Nat) :
    Nat → Locals → Option (Outcome (Except Error Locals))
  | 0, _ => none
  | fuel + 1, st =>
      if st.offset < fileSize ∨ 0 < st.inflight then
        match iterationDebug kernel fileSize st with
        | none => some .panicked
        | some (.error e) => some (.returned (.error e))
        | some (.ok st) => copyLoopDebug kernel fileSize fuel st
      else some (.returned (.ok st))

/-- `copy_file_linked` as a debug build runs it. -/
def copyFileLinkedDebug (kernel : Kernel) (fileSize fuel : Nat) :
    Option (Outcome (Except Error Locals)) :=
  copyLoopDebug kernel fileSize fuel start

section Agrees

variable {kernel : Kernel} {fileSize : Nat} {st : Locals}

/-- While `inflight` counts the live entries and the completions peeked, the debug build
handles a completion peeked as the model does. -/
theorem handleAllDebug_eq {peeked : Nat} :
    ∀ {completions : List (Int × BitVec 64)} {st : Locals}, Tracked st peeked →
      completions.length = peeked →
      handleAllDebug completions st = some (completions.foldlM handleCompletion st)
  | [], _, _, _ => rfl
  | completion :: rest, st, tracked, counted => by
      subst counted
      have positive : 1 ≤ st.inflight := by
        rw [tracked.inflight, List.length_cons]
        omega
      have one : handleCompletionDebug st completion = some (handleCompletion st completion) := by
        unfold handleCompletionDebug handleCompletion
        dsimp only
        rw [subChecked_of_le positive]
        by_cases failed : completion.1 < 0 ∧ completion.1 ≠ -ecanceled
        · rw [if_pos failed, if_pos failed]
        · rw [if_neg failed, if_neg failed]
          rfl
      rw [List.foldlM_cons, handleAllDebug, one]
      cases handled : handleCompletion st completion with
      | error e => rfl
      | ok st' => exact handleAllDebug_eq (tracked.completionHandled handled) rfl

/-- When every enter consumes all it is handed, from every state the main loop reaches,
an iteration of a debug build runs as the model's. -/
theorem iterationDebug_eq (all : ConsumesAll kernel) (reach : Reachable kernel fileSize st) :
    iterationDebug kernel fileSize st = some (iteration kernel fileSize st) := by
  have queued := ((reach.tracked all).queueing.pairsQueued fileSize).1
  unfold iterationDebug iteration
  dsimp only
  split_ifs with busy
  · cases submitted : submit kernel (queuePairs fileSize st) with
    | error e => rfl
    | ok st₁ =>
        exact handleAllDebug_eq ((queued.submitted all submitted).peek _ _) (List.length_map _ _)
  · exact handleAllDebug_eq ((queued.idle (by omega)).peek _ _) (List.length_map _ _)

theorem copyLoopDebug_eq (all : ConsumesAll kernel) :
    ∀ fuel (st : Locals), Reachable kernel fileSize st →
      copyLoopDebug kernel fileSize fuel st = (copyLoop kernel fileSize fuel st).map .returned
  | 0, _, _ => rfl
  | fuel + 1, st, reach => by
      unfold copyLoopDebug copyLoop
      split_ifs
      · rw [iterationDebug_eq all reach]
        cases iterated : iteration kernel fileSize st with
        | error e => rfl
        | ok st' =>
            exact copyLoopDebug_eq all fuel st'
              (reach.step (e := ()) (by simp [iterated, Except.toOption]))
      · rfl

end Agrees

/-- When every successful `io_uring_enter` consumes all the entries handed to it, no
subtraction of `copy_file_linked` goes below zero: a debug build's run ends as the
model's does, without panicking. -/
theorem copyFileLinkedDebug_agrees {kernel : Kernel} (all : ConsumesAll kernel)
    (fileSize fuel : Nat) :
    copyFileLinkedDebug kernel fileSize fuel =
      (copyFileLinked kernel fileSize fuel).map .returned :=
  copyLoopDebug_eq all fuel _ .init

theorem copyFileLinkedDebug_agrees_two_bytes :
    ConsumesAll ⟨fun _ => .ok 64, fun _ => [(0, 2), (0, 2)], fun _ => none⟩ ∧
      copyFileLinkedDebug ⟨fun _ => .ok 64, fun _ => [(0, 2), (0, 2)], fun _ => none⟩ 2 4 =
        (copyFileLinked ⟨fun _ => .ok 64, fun _ => [(0, 2), (0, 2)], fun _ => none⟩ 2 4).map
          .returned :=
  have all : ConsumesAll ⟨fun _ => .ok 64, fun _ => [(0, 2), (0, 2)], fun _ => none⟩ :=
    fun _ _ entered => by
      cases entered
      exact le_refl _
  ⟨all, copyFileLinkedDebug_agrees all 2 4⟩

end LinkCp

end Examples

end LiburingRs
