import LiburingRs.Examples.LinkCp

/-!
# `link-cp` keeps count of its operations when the kernel takes them all

`copy_file_linked` counts in `inflight` the operations it queued and has not yet seen
complete, and its main loop runs while blocks are left or `inflight > 0`.  When every
successful `io_uring_enter` consumes all the entries handed to it, that count is exact:
at the start of every iteration `inflight` is the number of entries live in the ring,
and nothing waits in the submission queue.  Each read-write pair then finds two free
entries, so neither `break` of the loop that queues pairs is taken, and
`copy_file_linked` returns `Ok` only once no operation is left in the ring: no buffer
is freed while the kernel may still use it.

The hypothesis cannot be dropped.  An enter that consumes only part of the entries
leaves the rest in the submission queue; a later turn of the loop then gets an entry
for its read and none for its write, and leaves the read queued, with its link,
outside the count.  The completion of that read is counted like any other, `inflight`
falls one short, and the copy returns `Ok` with the last block's write in flight.
-/

namespace LiburingRs

namespace Examples

namespace LinkCp

/-- A kernel whose every successful `io_uring_enter` consumes all the entries handed
to it: at least `QUEUE_DEPTH`, the size of the submission queue. -/
def ConsumesAll (kernel : Kernel) : Prop :=
  ∀ n consumed, kernel.enter n = .ok consumed → queueDepth ≤ consumed

/-- While pairs are queued: `inflight` counts the live entries, nothing is published,
and the entries prepared come in pairs and fit in the submission queue. -/
structure Queueing (st : Locals) : Prop where
  entries : st.device.ring.entries = queueDepth
  inflight : st.inflight = st.device.ring.live.length
  published : st.device.ring.published = []
  pairs : Even st.device.ring.prepared.length
  fits : st.device.ring.prepared.length ≤ queueDepth

/-- Around the submit: `inflight` counts the live entries and the `peeked` completions
not yet handled, and the submission queue is empty. -/
structure Tracked (st : Locals) (peeked : Nat) : Prop where
  entries : st.device.ring.entries = queueDepth
  inflight : st.inflight = st.device.ring.live.length + peeked
  published : st.device.ring.published = []
  prepared : st.device.ring.prepared = []

/-- `ring.submit()?` returns only after an enter that succeeded, and then only the
ring and the count of enters have moved. -/
theorem submit_eq_ok {kernel : Kernel} {st st' : Locals}
    (submitted : submit kernel st = .ok st') :
    ∃ consumed, kernel.enter st.submits = .ok consumed ∧
      st' = { st with
        device := { st.device with ring := (st.device.ring.submit (.ok consumed)).1 }
        submits := st.submits + 1 } := by
  unfold submit at submitted
  cases entered : kernel.enter st.submits with
  | error errno => simp [entered, Ring.submit] at submitted
  | ok consumed =>
      simp only [entered, Ring.submit] at submitted
      cases submitted
      exact ⟨consumed, rfl, rfl⟩

/-- A completion handled without error leaves the ring alone and counts one operation
less. -/
theorem handleCompletion_eq_ok {st st' : Locals} {completion : Int × BitVec 64}
    (handled : handleCompletion st completion = .ok st') :
    st'.device = st.device ∧ st'.inflight = st.inflight - 1 := by
  unfold handleCompletion at handled
  dsimp only at handled
  split at handled
  · cases handled
  · cases handled
    exact ⟨rfl, rfl⟩

section Tracked

variable {fileSize : Nat} {kernel : Kernel} {st st' : Locals}

theorem tracked_start : Tracked start 0 :=
  ⟨rfl, rfl, rfl, rfl⟩

theorem Tracked.queueing (tracked : Tracked st 0) : Queueing st :=
  ⟨tracked.entries, tracked.inflight, tracked.published, by simp [tracked.prepared],
    by simp [tracked.prepared]⟩

/-- One turn of the loop that queues pairs: with a block left and fewer than
`QUEUE_DEPTH` operations counted, both `get_sqe` calls succeed and the pair is
counted. -/
theorem Queueing.queuePair (queueing : Queueing st) (more : st.offset < fileSize)
    (room : st.inflight < queueDepth) (turns : Nat) :
    ∃ st', queuePairsFor fileSize (turns + 1) st = queuePairsFor fileSize turns st' ∧
      Queueing st' ∧ st'.inflight = st.inflight + 2 := by
  obtain ⟨half, halves⟩ := queueing.pairs
  have counted := queueing.inflight
  have published := queueing.published
  have depth : queueDepth = 64 := rfl
  simp only [Ring.live, published, List.length_append, List.length_map, List.length_nil]
    at counted
  have readFits : st.device.ring.published.length + st.device.ring.prepared.length <
      st.device.ring.entries := by
    rw [queueing.entries, published]
    simp only [List.length_nil]
    omega
  have writeFits : st.device.ring.published.length + (st.device.ring.prepared.length + 1) <
      st.device.ring.entries := by
    rw [queueing.entries, published]
    simp only [List.length_nil]
    omega
  refine ⟨{ st with
      device := { st.device with ring := { st.device.ring with
        prepared := st.device.ring.prepared ++
          [⟨.read st.offset (min (fileSize - st.offset) blockSize),
            BitVec.ofNat 64 (st.operations.length * 2), true⟩] ++
          [⟨.write st.offset (min (fileSize - st.offset) blockSize),
            BitVec.ofNat 64 (st.operations.length * 2 + 1), false⟩] } }
      operations := st.operations ++ [⟨st.offset, min (fileSize - st.offset) blockSize, 0⟩]
      offset := st.offset + min (fileSize - st.offset) blockSize
      inflight := st.inflight + 2 }, ?_,
    ⟨queueing.entries, ?_, published, ⟨half + 1, ?_⟩, ?_⟩, rfl⟩
  · simp only [queuePairsFor, if_pos (And.intro more room), Ring.getSqe, if_pos readFits,
      List.length_append, List.length_singleton, if_pos writeFits]
  · simp only [Ring.live, published, List.length_append, List.length_map,
      List.length_singleton, List.length_nil]
    omega
  · simp only [List.length_append, List.length_singleton]
    omega
  · simp only [List.length_append, List.length_singleton]
    omega

/-- The loop that queues pairs, given turns enough to fill `QUEUE_DEPTH`, keeps the
count and leaves only with every block queued or `QUEUE_DEPTH` operations counted. -/
theorem Queueing.pairsQueuedFor (fileSize : Nat) :
    ∀ turns (st : Locals), Queueing st → queueDepth ≤ st.inflight + 2 * turns →
      Queueing (queuePairsFor fileSize turns st) ∧
        (fileSize ≤ (queuePairsFor fileSize turns st).offset ∨
          queueDepth ≤ (queuePairsFor fileSize turns st).inflight)
  | 0, _, queueing, bound => ⟨queueing, .inr (by simp only [queuePairsFor]; omega)⟩
  | turns + 1, st, queueing, bound => by
      by_cases go : st.offset < fileSize ∧ st.inflight < queueDepth
      · obtain ⟨st', unrolled, queueing', counted⟩ := queueing.queuePair go.1 go.2 turns
        rw [unrolled]
        exact Queueing.pairsQueuedFor fileSize turns st' queueing' (by omega)
      · have stop : queuePairsFor fileSize (turns + 1) st = st := by
          simp only [queuePairsFor, if_neg go]
        rw [stop]
        exact ⟨queueing, by omega⟩

theorem Queueing.pairsQueued (fileSize : Nat) (queueing : Queueing st) :
    Queueing (queuePairs fileSize st) ∧
      (fileSize ≤ (queuePairs fileSize st).offset ∨
        queueDepth ≤ (queuePairs fileSize st).inflight) := by
  unfold queuePairs
  exact queueing.pairsQueuedFor fileSize (queueDepth - st.inflight) st (by omega)

/-- With nothing counted, nothing is queued either. -/
theorem Queueing.idle (queueing : Queueing st) (idle : st.inflight = 0) : Tracked st 0 := by
  have counted := queueing.inflight
  simp only [Ring.live, List.length_append, List.length_map] at counted
  exact ⟨queueing.entries, queueing.inflight, queueing.published,
    List.eq_nil_of_length_eq_zero (by omega)⟩

/-- An enter that consumes every entry empties the submission queue and keeps the
count. -/
theorem Queueing.submitted (all : ConsumesAll kernel) (queueing : Queueing st)
    (submitted : submit kernel st = .ok st') : Tracked st' 0 := by
  obtain ⟨consumed, entered, rfl⟩ := submit_eq_ok submitted
  have emptied := @Ring.submit_consumes_all _ consumed st.device.ring (by
    have := all _ _ entered
    have := queueing.fits
    rw [queueing.published, List.length_nil]
    omega)
  exact ⟨by simpa using queueing.entries, by simpa using queueing.inflight, emptied.1,
    emptied.2⟩

/-- The kernel's postings keep the count, and the completions peeked leave the ring to
be counted as peeked. -/
theorem Tracked.peek (tracked : Tracked st 0) (choices : List (Nat × Int)) (rounds : Nat) :
    Tracked { st with
        device := { st.device.postAll choices with
          ring := { (st.device.postAll choices).ring with cq := [] } }
        rounds }
      (st.device.postAll choices).ring.cq.length := by
  have keeps := Device.keeps_postAll st.device choices
  have moved := ((peekAll_live _).trans keeps.live).length_eq
  have counted := tracked.inflight
  simp only [peekAll, List.length_append, List.length_map] at moved
  exact ⟨keeps.entries.trans tracked.entries, by dsimp only; omega,
    keeps.published.trans tracked.published, keeps.prepared.trans tracked.prepared⟩

/-- Every completion handled without error is one operation less counted. -/
theorem Tracked.completionHandled {peeked : Nat} {completion : Int × BitVec 64}
    (tracked : Tracked st (peeked + 1))
    (handled : LinkCp.handleCompletion st completion = .ok st') : Tracked st' peeked := by
  obtain ⟨device, counted⟩ := handleCompletion_eq_ok handled
  have before := tracked.inflight
  rw [← device] at before
  exact ⟨device ▸ tracked.entries, by omega, device ▸ tracked.published,
    device ▸ tracked.prepared⟩

theorem Tracked.completionsHandled {peeked : Nat} :
    ∀ {completions : List (Int × BitVec 64)} {st : Locals}, Tracked st peeked →
      completions.length = peeked →
      completions.foldlM LinkCp.handleCompletion st = .ok st' → Tracked st' 0
  | [], _, tracked, counted, handled => by
      subst counted
      exact (Except.ok.inj handled) ▸ tracked
  | completion :: rest, _, tracked, counted, handled => by
      rw [List.foldlM_cons] at handled
      obtain ⟨mid, one, more⟩ := bind_eq_ok handled
      subst counted
      exact Tracked.completionsHandled (tracked.completionHandled one) rfl more

/-- Every iteration of the main loop keeps the count. -/
theorem Tracked.iterate (all : ConsumesAll kernel) (tracked : Tracked st 0)
    (iterated : LinkCp.iteration kernel fileSize st = .ok st') : Tracked st' 0 := by
  have queued := (tracked.queueing.pairsQueued fileSize).1
  unfold LinkCp.iteration at iterated
  dsimp only at iterated
  split at iterated
  all_goals
    obtain ⟨st₁, submitted, handled⟩ := bind_eq_ok iterated
  · exact ((queued.submitted all submitted).peek (kernel.completions st₁.rounds)
      (st₁.rounds + 1)).completionsHandled (List.length_map _ _) handled
  · rename_i idle
    have queued₁ : Queueing st₁ := Except.ok.inj submitted ▸ queued
    have nothing : st₁.inflight = 0 := by
      rw [← Except.ok.inj submitted]
      omega
    exact ((queued₁.idle nothing).peek (kernel.completions st₁.rounds)
      (st₁.rounds + 1)).completionsHandled (List.length_map _ _) handled

/-- The main loop returns `Ok` only with nothing counted, and the count exact. -/
theorem Tracked.copyLoop (all : ConsumesAll kernel) :
    ∀ fuel (st final : Locals), Tracked st 0 →
      LinkCp.copyLoop kernel fileSize fuel st = some (.ok final) →
      Tracked final 0 ∧ final.inflight = 0
  | 0, _, _, _, copied => by cases copied
  | fuel + 1, st, final, tracked, copied => by
      unfold LinkCp.copyLoop at copied
      split_ifs at copied with looping
      · cases iterated : LinkCp.iteration kernel fileSize st with
        | error e =>
            rw [iterated] at copied
            cases copied
        | ok next =>
            rw [iterated] at copied
            exact Tracked.copyLoop all fuel next final (tracked.iterate all iterated) copied
      · cases copied
        exact ⟨tracked, by omega⟩

end Tracked

/-- The locals at the start of each iteration of the main loop of `copy_file_linked`,
in a run with `kernel` on a source of `fileSize` bytes. -/
abbrev Reachable (kernel : Kernel) (fileSize : Nat) : Locals → Prop :=
  LiburingRs.Reachable (fun st (_ : Unit) => (iteration kernel fileSize st).toOption) start

theorem Reachable.tracked {kernel : Kernel} {fileSize : Nat} {st : Locals}
    (all : ConsumesAll kernel) (reach : Reachable kernel fileSize st) : Tracked st 0 := by
  induction reach with
  | init => exact tracked_start
  | @step st st' _ _ stepped ih =>
      cases iterated : iteration kernel fileSize st with
      | error e => simp [iterated, Except.toOption] at stepped
      | ok next =>
          simp only [iterated, Except.toOption, Option.some.injEq] at stepped
          exact stepped ▸ ih.iterate all iterated

/-- When every successful `io_uring_enter` consumes all the entries handed to it, at
the start of every iteration of the main loop of `copy_file_linked` `inflight` is the
number of entries live in the ring and the submission queue is empty; the loop that
queues pairs keeps that count, leaving only with every block queued or `QUEUE_DEPTH`
operations counted; and `copy_file_linked` returns `Ok` only with no operation left in
the ring. -/
theorem inflight_exact {kernel : Kernel} {fileSize : Nat} (all : ConsumesAll kernel) :
    (∀ st, Reachable kernel fileSize st →
      st.inflight = st.device.ring.live.length ∧ st.device.ring.published = [] ∧
        st.device.ring.prepared = [] ∧
        (queuePairs fileSize st).inflight = (queuePairs fileSize st).device.ring.live.length ∧
        (fileSize ≤ (queuePairs fileSize st).offset ∨
          queueDepth ≤ (queuePairs fileSize st).inflight)) ∧
      ∀ fuel final, copyFileLinked kernel fileSize fuel = some (.ok final) →
        final.device.ring.live = [] := by
  refine ⟨fun st reach => ?_, fun fuel final copied => ?_⟩
  · have tracked := reach.tracked all
    have queued := tracked.queueing.pairsQueued fileSize
    exact ⟨tracked.inflight, tracked.published, tracked.prepared, queued.1.inflight, queued.2⟩
  · obtain ⟨tracked, idle⟩ := Tracked.copyLoop all fuel start final tracked_start copied
    have counted := tracked.inflight
    exact List.eq_nil_of_length_eq_zero (by omega)

/-- Two bytes to copy with a kernel whose every enter consumes all it is handed. -/
theorem inflight_exact_two_bytes :
    ConsumesAll ⟨fun _ => .ok 64, fun _ => [(0, 2), (0, 2)], fun _ => none⟩ ∧
      (∀ st, Reachable ⟨fun _ => .ok 64, fun _ => [(0, 2), (0, 2)], fun _ => none⟩ 2 st →
        st.inflight = st.device.ring.live.length ∧ st.device.ring.published = [] ∧
          st.device.ring.prepared = [] ∧
          (queuePairs 2 st).inflight = (queuePairs 2 st).device.ring.live.length ∧
          (2 ≤ (queuePairs 2 st).offset ∨ queueDepth ≤ (queuePairs 2 st).inflight)) ∧
        ∀ fuel final, copyFileLinked ⟨fun _ => .ok 64, fun _ => [(0, 2), (0, 2)],
          fun _ => none⟩ 2 fuel = some (.ok final) → final.device.ring.live = [] :=
  have all : ConsumesAll ⟨fun _ => .ok 64, fun _ => [(0, 2), (0, 2)], fun _ => none⟩ :=
    fun _ _ entered => by
      cases entered
      exact le_refl _
  ⟨all, inflight_exact all⟩

set_option maxRecDepth 4000 in
/-- Thirty-three blocks.  The first enter consumes one of the sixty-four entries queued,
the read of block 0, which completes.  The next iteration has one operation less
counted and gets an entry for the read of block 32 but none for its write, and the
read stays queued, linked, outside the count.  Its completion is counted against block
32, so once block 32 is queued again `inflight` reaches zero with the write of block 32
still in flight, and `copy_file_linked` returns `Ok`. -/
theorem partial_enter_returns_in_flight :
    ∃ kernel final, copyFileLinked kernel (33 * blockSize) 4 = some (.ok final) ∧
      final.device.ring.live = [⟨.write (32 * blockSize) blockSize, 65, false⟩] :=
  ⟨⟨fun n => if n = 0 then .ok 1 else .ok 64,
    fun round => if round = 0 then [(0, 32768)]
      else if round = 1 then List.replicate 63 (0, 32768)
      else if round = 2 then [(0, 32768), (0, 32768)] else [],
    fun _ => none⟩, _, rfl, rfl⟩

end LinkCp

end Examples

end LiburingRs
