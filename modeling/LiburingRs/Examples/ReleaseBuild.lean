import LiburingRs.Examples.LinkCpAccount

/-!
# `link-cp` in a release build

A release build does not check `inflight -= 1`: below zero it wraps around to
`usize::MAX`.  The other arithmetic of `copy_file_linked` stays in range:
`file_size - offset` is taken only while `offset < file_size`, and `inflight += 2` only
while `inflight < QUEUE_DEPTH`.  The handler of a completion is the one place where a
release build can part from the model.

When every enter consumes all it is handed, each completion finds `inflight` positive,
and a release build runs as the model.  Otherwise the count can fall one short: the last
completion of a round then wraps `inflight` around, and once every block is queued and
nothing is live in the ring, the loop `while offset < file_size || inflight > 0` submits
nothing and peeks nothing, for ever, where the model returns `Ok`.
-/

namespace LiburingRs

namespace Examples

namespace LinkCp

/-- `a.wrapping_sub(b)` on a `usize`: `a - b` modulo `2^64`. -/
def wrappingSub (a b : Nat) : Nat :=
  if b ≤ a then a - b else 2 ^ 64 + a - b

theorem wrappingSub_of_le {a b : Nat} (le : b ≤ a) : wrappingSub a b = a - b :=
  if_pos le

/-- `handleCompletion` as a release build runs it: `inflight -= 1` wraps around below
zero. -/
def handleCompletionRelease (st : Locals) (completion : Int × BitVec 64) :
    Except Error Locals :=
  let opIndex := completion.2.toNat / 2
  let isRead := completion.2.toNat % 2 = 0
  if completion.1 < 0 ∧ completion.1 ≠ -ecanceled then .error (.io (-completion.1))
  else
    let operations :=
      match st.operations[opIndex]? with
      | none => st.operations
      | some op =>
          st.operations.set opIndex { op with
            completedOps := op.completedOps + 1
            bufferLen :=
              if isRead ∧ 0 < completion.1 then min op.bufferLen completion.1.toNat
              else op.bufferLen }
    .ok { st with operations, inflight := wrappingSub st.inflight 1 }

/-- One iteration of the main loop as a release build runs it. -/
def iterationRelease (kernel : Kernel) (fileSize : Nat) (st : Locals) :
    Except Error Locals := do
  let st := queuePairs fileSize st
  let st ← if 0 < st.inflight then submit kernel st else pure st
  let device := st.device.postAll (kernel.completions st.rounds)
  let (completions, ring) := peekAll device.ring
  completions.foldlM handleCompletionRelease
    { st with device := { device with ring }, rounds := st.rounds + 1 }

/-- The main loop as a release build runs it, with `fuel` iterations; `none` when the
fuel runs out. -/
def copyLoopRelease (kernel : Kernel) (fileSize : Nat) :
    Nat → Locals → Option (Except Error Locals)
  | 0, _ => none
  | fuel + 1, st =>
      if st.offset < fileSize ∨ 0 < st.inflight then
        match iterationRelease kernel fileSize st with
        | .error e => some (.error e)
        | .ok st => copyLoopRelease kernel fileSize fuel st
      else some (.ok st)

/-- `copy_file_linked` as a release build runs it. -/
def copyFileLinkedRelease (kernel : Kernel) (fileSize fuel : Nat) :
    Option (Except Error Locals) :=
  copyLoopRelease kernel fileSize fuel start

theorem copyLoopRelease_succ_of_iteration {kernel : Kernel} {fileSize fuel : Nat}
    {st st' : Locals} (looping : st.offset < fileSize ∨ 0 < st.inflight)
    (iterated : iterationRelease kernel fileSize st = .ok st') :
    copyLoopRelease kernel fileSize (fuel + 1) st = copyLoopRelease kernel fileSize fuel st' := by
  simp [copyLoopRelease, looping, iterated]

/-- A loop that goes on from where an iteration leads goes on from before it. -/
theorem copyLoopRelease_eq_none_of_iteration {kernel : Kernel} {fileSize : Nat}
    {st st' : Locals} (looping : st.offset < fileSize ∨ 0 < st.inflight)
    (iterated : iterationRelease kernel fileSize st = .ok st')
    (spins : ∀ fuel, copyLoopRelease kernel fileSize fuel st' = none) :
    ∀ fuel, copyLoopRelease kernel fileSize fuel st = none
  | 0 => rfl
  | fuel + 1 => (copyLoopRelease_succ_of_iteration looping iterated).trans (spins fuel)

section Agrees

variable {kernel : Kernel} {fileSize : Nat} {st : Locals}

/-- While `inflight` counts the live entries and the completions peeked, the release
build handles a completion peeked as the model does. -/
theorem handleAllRelease_eq {peeked : Nat} :
    ∀ {completions : List (Int × BitVec 64)} {st : Locals}, Tracked st peeked →
      completions.length = peeked →
      completions.foldlM handleCompletionRelease st = completions.foldlM handleCompletion st
  | [], _, _, _ => rfl
  | completion :: rest, st, tracked, counted => by
      subst counted
      have positive : 1 ≤ st.inflight := by
        rw [tracked.inflight, List.length_cons]
        omega
      have one : handleCompletionRelease st completion = handleCompletion st completion := by
        unfold handleCompletionRelease
        rw [wrappingSub_of_le positive]
        rfl
      rw [List.foldlM_cons, List.foldlM_cons, one]
      cases handled : handleCompletion st completion with
      | error e => rfl
      | ok st' => exact handleAllRelease_eq (tracked.completionHandled handled) rfl

/-- When every enter consumes all it is handed, from every state the main loop reaches,
an iteration of a release build runs as the model's. -/
theorem iterationRelease_eq (all : ConsumesAll kernel) (reach : Reachable kernel fileSize st) :
    iterationRelease kernel fileSize st = iteration kernel fileSize st := by
  have queued := ((reach.tracked all).queueing.pairsQueued fileSize).1
  unfold iterationRelease iteration
  dsimp only
  split_ifs with busy
  · cases submitted : submit kernel (queuePairs fileSize st) with
    | error e => rfl
    | ok st₁ =>
        exact handleAllRelease_eq ((queued.submitted all submitted).peek _ _) (List.length_map _ _)
  · exact handleAllRelease_eq ((queued.idle (by omega)).peek _ _) (List.length_map _ _)

theorem copyLoopRelease_eq (all : ConsumesAll kernel) :
    ∀ fuel (st : Locals), Reachable kernel fileSize st →
      copyLoopRelease kernel fileSize fuel st = copyLoop kernel fileSize fuel st
  | 0, _, _ => rfl
  | fuel + 1, st, reach => by
      unfold copyLoopRelease copyLoop
      split_ifs
      · rw [iterationRelease_eq all reach]
        cases iterated : iteration kernel fileSize st with
        | error e => rfl
        | ok st' =>
            exact copyLoopRelease_eq all fuel st'
              (reach.step (e := ()) (by simp [iterated, Except.toOption]))
      · rfl

end Agrees

/-- When every successful `io_uring_enter` consumes all the entries handed to it,
`inflight -= 1` never wraps around: a release build of `copy_file_linked` runs as the
model does. -/
theorem copyFileLinkedRelease_agrees {kernel : Kernel} (all : ConsumesAll kernel)
    (fileSize fuel : Nat) :
    copyFileLinkedRelease kernel fileSize fuel = copyFileLinked kernel fileSize fuel :=
  copyLoopRelease_eq all fuel _ .init

theorem copyFileLinkedRelease_agrees_two_bytes :
    ConsumesAll ⟨fun _ => .ok 64, fun _ => [(0, 2), (0, 2)], fun _ => none⟩ ∧
      copyFileLinkedRelease ⟨fun _ => .ok 64, fun _ => [(0, 2), (0, 2)], fun _ => none⟩ 2 4 =
        copyFileLinked ⟨fun _ => .ok 64, fun _ => [(0, 2), (0, 2)], fun _ => none⟩ 2 4 :=
  have all : ConsumesAll ⟨fun _ => .ok 64, fun _ => [(0, 2), (0, 2)], fun _ => none⟩ :=
    fun _ _ entered => by
      cases entered
      exact le_refl _
  ⟨all, copyFileLinkedRelease_agrees all 2 4⟩

section Stranded

variable {kernel : Kernel} {fileSize : Nat}

theorem queuePairs_of_read_all {st : Locals} (readAll : fileSize ≤ st.offset) :
    queuePairs fileSize st = st := by
  unfold queuePairs
  cases queueDepth - st.inflight <;> simp [queuePairsFor, Nat.not_lt.2 readAll]

/-- Every block queued, operations counted in flight, and nothing live in the ring. -/
structure Stranded (fileSize : Nat) (st : Locals) : Prop where
  read_all : fileSize ≤ st.offset
  counted : 0 < st.inflight
  empty : st.device.ring = Ring.empty queueDepth

/-- In a stranded state an iteration submits nothing and finds nothing to complete. -/
theorem Stranded.iteration_eq {st : Locals} {consumed : Nat} (stranded : Stranded fileSize st)
    (entered : kernel.enter st.submits = .ok consumed) :
    iterationRelease kernel fileSize st =
      .ok { st with submits := st.submits + 1, rounds := st.rounds + 1 } := by
  obtain ⟨⟨ring, written⟩, offset, operations, inflight, submits, rounds⟩ := st
  obtain ⟨readAll, counted, rfl⟩ := stranded
  have submitted :
      submit kernel ⟨⟨Ring.empty queueDepth, written⟩, offset, operations, inflight, submits, rounds⟩ =
        .ok ⟨⟨Ring.empty queueDepth, written⟩, offset, operations, inflight, submits + 1, rounds⟩ := by
    simp only at entered
    simp [submit, entered, Ring.submit, Ring.empty]
  have quiet := @Device.postAll_of_inflight_nil ⟨Ring.empty queueDepth, written⟩ rfl
  simp only [iterationRelease, queuePairs_of_read_all readAll, if_pos counted, submitted]
  dsimp only [bind, Except.bind]
  rw [quiet]
  rfl

/-- When every enter succeeds, from a stranded state the main loop of a release build
never ends. -/
theorem Stranded.copyLoop_eq_none (entered : ∀ n, ∃ consumed, kernel.enter n = .ok consumed)
    {st : Locals} (stranded : Stranded fileSize st) :
    ∀ fuel, copyLoopRelease kernel fileSize fuel st = none
  | 0 => rfl
  | fuel + 1 => by
      obtain ⟨consumed, enteredNow⟩ := entered st.submits
      rw [copyLoopRelease_succ_of_iteration (.inr stranded.counted)
        (stranded.iteration_eq enteredNow)]
      have next : Stranded fileSize { st with submits := st.submits + 1, rounds := st.rounds + 1 } :=
        ⟨stranded.read_all, stranded.counted, stranded.empty⟩
      exact Stranded.copyLoop_eq_none entered next fuel

end Stranded

set_option maxRecDepth 4000 in
/-- The kernel under which a debug build panics.  In the third round the last completion
wraps `inflight` around to `usize::MAX`, with every block queued and the ring empty: a
release build of `copy_file_linked` never returns, while the model returns `Ok`. -/
theorem partial_enter_spins :
    ∃ kernel, (∀ fuel, copyFileLinkedRelease kernel (33 * blockSize) fuel = none) ∧
      ∃ final, copyFileLinked kernel (33 * blockSize) 4 = some (.ok final) := by
  refine ⟨⟨fun n => .ok (if n = 0 then 1 else 64),
    fun round => if round = 0 then [(0, 32768)]
      else if round = 1 then List.replicate 63 (0, 32768)
      else if round = 2 then List.replicate 3 (0, 32768) else [],
    fun _ => none⟩, ?_, _, rfl⟩
  exact copyLoopRelease_eq_none_of_iteration (.inl (by decide)) (by exact rfl)
    (copyLoopRelease_eq_none_of_iteration (.inl (by exact Nat.le_of_ble_eq_true rfl))
      (by exact rfl)
      (copyLoopRelease_eq_none_of_iteration (.inl (by exact Nat.le_of_ble_eq_true rfl))
        (by exact rfl)
        (Stranded.copyLoop_eq_none (fun _ => ⟨_, rfl⟩)
          ⟨by exact Nat.le_of_ble_eq_true rfl, by exact Nat.le_of_ble_eq_true rfl, by exact rfl⟩)))

end LinkCp

end Examples

end LiburingRs
