import LiburingRs.Examples.IoUringCp

/-!
# `io_uring-cp` keeps an exact account of its operations

`copy_file` keeps its own account of what it queued: `pending_operations`, counted by
`reads_in_flight` and `writes_in_flight`.  Whatever the kernel does (an `io_uring_enter`
that fails or consumes only some of the entries, completions in any order, short
transfers), that account stays exact.  At the start of every iteration of the main loop
the pending operations' entries are the entries live in the ring, the two counters count
the pending reads and writes, and together they stay within `QUEUE_DEPTH`.

The ring has `QUEUE_DEPTH` entries, so `get_sqe` never fails in `copy_file`: the loop
that queues reads leaves only with nothing left to read or with `QUEUE_DEPTH`
operations pending, never at its `break`, and the write queued for a read completion
always gets its entry, because the read it replaces has left the submission queue.

While the completions peeked are handled, their entries are outside the ring; the
invariant carries them alongside.  Tags are offsets, which a source of at most `2^64`
bytes keeps distinct.
-/

namespace LiburingRs

namespace Examples

namespace IoUringCp

/-- The entry an operation was queued with: its request, tagged with its offset. -/
def IoData.sqe (op : IoData) : Sqe FileOp :=
  ⟨if op.isRead then .read op.offset op.len else .write op.offset op.len, tagOf op.offset,
    false⟩

theorem tagOf_inj {a b : Nat} (small : a < 2 ^ 64) (small' : b < 2 ^ 64)
    (same : tagOf a = tagOf b) : a = b := by
  have toNat := congrArg BitVec.toNat same
  rwa [tagOf, tagOf, BitVec.toNat_ofNat, BitVec.toNat_ofNat, Nat.mod_eq_of_lt small,
    Nat.mod_eq_of_lt small'] at toNat

/-- `position` followed by `remove` takes out the one operation carrying a tag. -/
theorem removeFirst_tag {op : IoData} :
    ∀ {ops : List IoData}, op ∈ ops → (ops.map fun op => tagOf op.offset).Nodup →
      removeFirst (fun other => tagOf other.offset == tagOf op.offset) ops =
        some (op, ops.erase op)
  | [], mem, _ => absurd mem (List.not_mem_nil _)
  | first :: rest, mem, tags => by
      by_cases here : first = op
      · subst here
        simp [removeFirst]
      · have later : op ∈ rest := (List.mem_cons.1 mem).resolve_left (Ne.symm here)
        have other : tagOf first.offset ≠ tagOf op.offset := fun same =>
          (List.nodup_cons.1 tags).1 (List.mem_map.2 ⟨op, later, same.symm⟩)
        have tail : (first :: rest).erase op = first :: rest.erase op :=
          List.erase_cons_tail (by simpa using here)
        simp [removeFirst, other, removeFirst_tag later (List.nodup_cons.1 tags).2, tail]

theorem countP_erase_add (p : IoData → Bool) {ops : List IoData} {op : IoData}
    (mem : op ∈ ops) : (ops.erase op).countP p + (if p op then 1 else 0) = ops.countP p := by
  rw [(List.perm_cons_erase mem).countP_eq p, List.countP_cons]

/-- `ring.submit()?` returns only after an enter that succeeded, and then only the
ring and the count of enters have moved. -/
theorem submit_eq_ok {kernel : Kernel} {st st' : Locals}
    (submitted : submit kernel st = .ok st') :
    ∃ consumed, kernel.enter st.submits = .ok consumed ∧
      st' = { st with
        device := { st.device with ring := (st.device.ring.submit (.ok consumed)).1 }
        submits := st.submits + 1 } := by
  unfold submit at submitted
  cases entered : kernel.enter st.submits with
  | error errno => simp [entered, Ring.submit] at submitted
  | ok consumed =>
      simp only [entered, Ring.submit] at submitted
      cases submitted
      exact ⟨consumed, rfl, rfl⟩

/-- The account of `copy_file` agrees with the ring.  The entries live in the ring,
with those of the completions peeked and not yet handled, are the pending operations'
entries; the counters count the pending reads and writes and stay within
`QUEUE_DEPTH`; the pending operations lie below `offset` at distinct tags; and
`offset` and `bytes_to_read` add up to the file size. -/
structure Tracked (fileSize : Nat) (st : Locals) (peeked : List (Sqe FileOp)) : Prop where
  entries : st.device.ring.entries = queueDepth
  live : (st.device.ring.live ++ peeked).Perm (st.pendingOperations.map IoData.sqe)
  reads : st.readsInFlight = st.pendingOperations.countP fun op => op.isRead
  writes : st.writesInFlight = st.pendingOperations.countP fun op => !op.isRead
  depth : st.readsInFlight + st.writesInFlight ≤ queueDepth
  below : ∀ op ∈ st.pendingOperations, op.offset < st.offset
  tags : (st.pendingOperations.map fun op => tagOf op.offset).Nodup
  toRead : st.offset + st.bytesToRead = fileSize

section Tracked

variable {fileSize : Nat} {kernel : Kernel} {st st' : Locals} {peeked : List (Sqe FileOp)}

theorem tracked_start (fileSize : Nat) : Tracked fileSize (start fileSize) [] :=
  ⟨rfl, .refl _, rfl, rfl, Nat.zero_le _, fun _ mem => absurd mem (List.not_mem_nil _),
    List.nodup_nil, Nat.zero_add _⟩

/-- The entries waiting in the submission queue, and the completions peeked, are
pending operations. -/
theorem Tracked.waiting (tracked : Tracked fileSize st peeked) :
    st.device.ring.published.length + st.device.ring.prepared.length + peeked.length ≤
      st.readsInFlight + st.writesInFlight := by
  have total := tracked.live.length_eq
  have split := List.length_eq_countP_add_countP (fun op : IoData => op.isRead)
    st.pendingOperations
  simp only [Ring.live, List.length_append, List.length_map] at total
  simp only [Bool.not_eq_true, Bool.decide_eq_false] at split
  rw [tracked.reads, tracked.writes]
  omega

/-- One turn of the loop that queues reads: with bytes left to read and fewer than
`QUEUE_DEPTH` operations pending, `get_sqe` succeeds and the read joins the account. -/
theorem Tracked.queueRead (small : fileSize ≤ 2 ^ 64) (tracked : Tracked fileSize st [])
    (left : 0 < st.bytesToRead) (room : st.readsInFlight + st.writesInFlight < queueDepth)
    (turns : Nat) :
    ∃ st', queueReadsFor (turns + 1) st = queueReadsFor turns st' ∧ Tracked fileSize st' [] ∧
      st'.readsInFlight + st'.writesInFlight = st.readsInFlight + st.writesInFlight + 1 := by
  have waiting := tracked.waiting
  have fits : st.device.ring.published.length + st.device.ring.prepared.length <
      st.device.ring.entries := by
    rw [tracked.entries]
    simp only [List.length_nil, Nat.add_zero] at waiting
    omega
  have positive : 0 < min st.bytesToRead blockSize := lt_min left (by decide)
  have sizeLe : min st.bytesToRead blockSize ≤ st.bytesToRead := min_le_left _ _
  have inFile : st.offset < 2 ^ 64 := by have := tracked.toRead; omega
  refine ⟨{ st with
      device := { st.device with ring := { st.device.ring with
        prepared := st.device.ring.prepared ++
          [IoData.sqe ⟨st.offset, min st.bytesToRead blockSize, true⟩] } }
      pendingOperations :=
        st.pendingOperations ++ [⟨st.offset, min st.bytesToRead blockSize, true⟩]
      offset := st.offset + min st.bytesToRead blockSize
      bytesToRead := st.bytesToRead - min st.bytesToRead blockSize
      readsInFlight := st.readsInFlight + 1 }, ?_,
    ⟨tracked.entries, ?_, ?_, ?_, ?_, ?_, ?_, ?_⟩, by dsimp only; omega⟩
  · simp only [queueReadsFor, if_pos left, Ring.getSqe, if_pos fits]
    rfl
  · simpa only [Ring.live, List.append_nil, List.map_append, List.map_cons, List.map_nil,
      List.append_assoc] using tracked.live.append_right _
  · simp [List.countP_append, tracked.reads]
  · simp [List.countP_append, tracked.writes]
  · have := tracked.depth
    dsimp only
    omega
  · simp only [List.mem_append, List.mem_singleton]
    rintro op (pending | rfl)
    · have := tracked.below op pending
      omega
    · exact Nat.lt_add_of_pos_right positive
  · rw [List.map_append]
    refine tracked.tags.append (List.nodup_singleton _) fun tag pendingTag newTag => ?_
    obtain ⟨op, pending, rfl⟩ := List.mem_map.1 pendingTag
    have same := List.mem_singleton.1 newTag
    have lower := tracked.below op pending
    exact absurd (tagOf_inj (by omega) inFile same) (Nat.ne_of_lt lower)
  · have := tracked.toRead
    dsimp only
    omega

/-- The loop that queues reads, given `turns` that fit within `QUEUE_DEPTH`, keeps the
account and leaves only with nothing left to read or with all its turns taken. -/
theorem Tracked.readsQueuedFor (small : fileSize ≤ 2 ^ 64) :
    ∀ turns (st : Locals), Tracked fileSize st [] →
      st.readsInFlight + st.writesInFlight + turns ≤ queueDepth →
      Tracked fileSize (queueReadsFor turns st) [] ∧
        ((queueReadsFor turns st).bytesToRead = 0 ∨
          (queueReadsFor turns st).readsInFlight + (queueReadsFor turns st).writesInFlight =
            st.readsInFlight + st.writesInFlight + turns)
  | 0, _, tracked, _ => ⟨tracked, .inr rfl⟩
  | turns + 1, st, tracked, bound => by
      by_cases left : 0 < st.bytesToRead
      · obtain ⟨st', unrolled, tracked', counted⟩ :=
          tracked.queueRead small left (by omega) turns
        rw [unrolled]
        have rest := Tracked.readsQueuedFor small turns st' tracked' (by omega)
        exact ⟨rest.1, rest.2.imp id fun total => by omega⟩
      · have stop : queueReadsFor (turns + 1) st = st := by simp [queueReadsFor, left]
        rw [stop]
        exact ⟨tracked, .inl (by omega)⟩

/-- The loop that queues reads keeps the account, and leaves only with nothing left to
read or with `QUEUE_DEPTH` operations pending: its `break` on a full queue is never
taken. -/
theorem Tracked.readsQueued (small : fileSize ≤ 2 ^ 64) (tracked : Tracked fileSize st []) :
    Tracked fileSize (queueReads st) [] ∧
      (0 < (queueReads st).bytesToRead →
        (queueReads st).readsInFlight + (queueReads st).writesInFlight = queueDepth) := by
  have depth := tracked.depth
  obtain ⟨tracked', stop⟩ := tracked.readsQueuedFor small _ st (Nat.add_sub_of_le depth).le
  unfold queueReads
  exact ⟨tracked', fun left => by omega⟩

theorem Tracked.submitted (tracked : Tracked fileSize st peeked)
    (submitted : submit kernel st = .ok st') : Tracked fileSize st' peeked := by
  obtain ⟨consumed, -, rfl⟩ := submit_eq_ok submitted
  exact ⟨by simpa using tracked.entries, by simpa using tracked.live, tracked.reads,
    tracked.writes, tracked.depth, tracked.below, tracked.tags, tracked.toRead⟩

/-- The kernel's postings keep the account, and the completions peeked leave the ring
with their entries carried alongside. -/
theorem Tracked.peek (tracked : Tracked fileSize st []) (choices : List (Nat × Int))
    (rounds : Nat) :
    Tracked fileSize { st with
        device := { st.device.postAll choices with
          ring := { (st.device.postAll choices).ring with cq := [] } }
        rounds }
      ((st.device.postAll choices).ring.cq.map Cqe.sqe) := by
  have keeps := Device.keeps_postAll st.device choices
  refine ⟨keeps.entries.trans tracked.entries, ?_, tracked.reads, tracked.writes,
    tracked.depth, tracked.below, tracked.tags, tracked.toRead⟩
  exact (peekAll_live _).trans (keeps.live.trans (by simpa using tracked.live))

/-- Handling the completion of a pending operation whose tag no other pending operation
carries: the result is not negative; a write then leaves the account, and a read is
replaced by its write of the bytes read, queued when the ring has room, and submitted. -/
theorem handleCompletion_pending {op : IoData} {res : Int} (mem : op ∈ st.pendingOperations)
    (tags : (st.pendingOperations.map fun op => tagOf op.offset).Nodup)
    (handled : handleCompletion kernel st (res, op.sqe.userData) = .ok st') :
    0 ≤ res ∧
      (op.isRead = false ∧ st' = { st with
          pendingOperations := st.pendingOperations.erase op
          writesInFlight := st.writesInFlight - 1
          bytesToWrite := st.bytesToWrite - op.len } ∨
        op.isRead = true ∧ submit kernel { st with
          device := { st.device with ring := (st.device.ring.getSqe
            ⟨.write op.offset res.toNat, tagOf op.offset, false⟩).getD st.device.ring }
          pendingOperations := st.pendingOperations.erase op ++
            [{ op with isRead := false, len := res.toNat }]
          readsInFlight := st.readsInFlight - 1
          writesInFlight := st.writesInFlight + 1 } = .ok st') := by
  unfold IoUringCp.handleCompletion at handled
  dsimp only [IoData.sqe] at handled
  by_cases negative : res < 0
  · rw [if_pos negative] at handled
    cases handled
  rw [if_neg negative, removeFirst_tag mem tags] at handled
  dsimp only at handled
  refine ⟨by omega, ?_⟩
  cases isRead : op.isRead
  · rw [if_neg (by simp [isRead])] at handled
    cases handled
    exact .inl ⟨rfl, rfl⟩
  · rw [if_pos isRead] at handled
    exact .inr ⟨rfl, handled⟩

/-- Handling one completion keeps the account.  The completion finds its own pending
operation; a read is replaced by its write, which gets an entry, and a write leaves
the account. -/
theorem Tracked.completionHandled {sqe : Sqe FileOp} {res : Int}
    (tracked : Tracked fileSize st (sqe :: peeked))
    (handled : handleCompletion kernel st (res, sqe.userData) = .ok st') :
    Tracked fileSize st' peeked := by
  obtain ⟨op, mem, rfl⟩ :=
    List.mem_map.1 (tracked.live.subset (List.mem_append_right _ (List.mem_cons_self _ _)))
  have split := List.perm_cons_erase mem
  have matched : (st.device.ring.live ++ peeked).Perm
      ((st.pendingOperations.erase op).map IoData.sqe) :=
    (List.perm_middle.symm.trans (tracked.live.trans (split.map IoData.sqe))).cons_inv
  have reads := countP_erase_add (fun op : IoData => op.isRead) mem
  have writes := countP_erase_add (fun op : IoData => !op.isRead) mem
  have waiting := tracked.waiting
  have depth := tracked.depth
  obtain ⟨-, ⟨isRead, rfl⟩ | ⟨isRead, handled⟩⟩ :=
    handleCompletion_pending mem tracked.tags handled
  · simp only [isRead] at reads writes
    refine ⟨tracked.entries, matched, ?_, ?_, ?_, fun other pending =>
      tracked.below other (List.mem_of_mem_erase pending),
      tracked.tags.sublist ((List.erase_sublist op _).map _), tracked.toRead⟩
    · dsimp only
      rw [tracked.reads]
      simpa using reads.symm
    · dsimp only
      rw [tracked.writes]
      simp at writes
      omega
    · dsimp only
      omega
  · have fits : st.device.ring.published.length + st.device.ring.prepared.length <
        st.device.ring.entries := by
      rw [tracked.entries]
      simp only [List.length_cons] at waiting
      omega
    obtain ⟨ring, got⟩ : ∃ ring, st.device.ring.getSqe
        ⟨.write op.offset res.toNat, tagOf op.offset, false⟩ = some ring := ⟨_, if_pos fits⟩
    rw [got, Option.getD_some] at handled
    simp only [isRead] at reads writes
    have readsLe : 1 ≤ st.readsInFlight := by
      rw [tracked.reads, ← reads]
      simp
    refine Tracked.submitted ?_ handled
    refine ⟨(Ring.getSqe_eq_some_iff.1 got).2 ▸ tracked.entries, ?_, ?_, ?_, ?_, ?_, ?_,
      tracked.toRead⟩
    · rw [Ring.getSqe_live got, List.map_append, List.append_assoc, List.singleton_append]
      exact List.perm_middle.trans ((matched.cons _).trans (List.perm_append_singleton _ _).symm)
    · dsimp only
      rw [tracked.reads, List.countP_append, ← reads]
      simp
    · dsimp only
      rw [tracked.writes, List.countP_append, ← writes]
      simp
    · dsimp only
      omega
    · simp only [List.mem_append, List.mem_singleton]
      rintro other (pending | rfl)
      · exact tracked.below other (List.mem_of_mem_erase pending)
      · exact tracked.below op mem
    · rw [List.map_append]
      exact (List.perm_append_comm.trans (split.map fun op => tagOf op.offset).symm).nodup_iff.2
        tracked.tags

/-- Handling all the completions peeked keeps the account. -/
theorem Tracked.completionsHandled {cqes : List (Cqe FileOp)}
    (tracked : Tracked fileSize st (cqes.map Cqe.sqe))
    (handled : (cqes.map fun cqe => (cqe.result, cqe.userData)).foldlM
      (IoUringCp.handleCompletion kernel) st = .ok st') :
    Tracked fileSize st' [] := by
  induction cqes generalizing st with
  | nil => exact (Except.ok.inj handled) ▸ tracked
  | cons cqe rest ih =>
      rw [List.map_cons, List.foldlM_cons] at handled
      obtain ⟨mid, one, more⟩ := bind_eq_ok handled
      exact ih (tracked.completionHandled one) more

/-- Every iteration of the main loop keeps the account. -/
theorem Tracked.iterate (small : fileSize ≤ 2 ^ 64) (tracked : Tracked fileSize st [])
    (iterated : IoUringCp.iteration kernel st = .ok st') : Tracked fileSize st' [] := by
  have queued := (tracked.readsQueued small).1
  unfold IoUringCp.iteration at iterated
  dsimp only at iterated
  split at iterated
  all_goals
    obtain ⟨st₁, submitted, handled⟩ := bind_eq_ok iterated
  · exact ((queued.submitted submitted).peek (kernel.completions st₁.rounds)
      (st₁.rounds + 1)).completionsHandled handled
  · cases submitted
    exact (queued.peek _ _).completionsHandled handled

end Tracked

/-- The locals at the start of each iteration of the main loop of `copy_file`, in a run
with `kernel` on a source of `fileSize` bytes. -/
abbrev Reachable (kernel : Kernel) (fileSize : Nat) : Locals → Prop :=
  LiburingRs.Reachable (fun st (_ : Unit) => (iteration kernel st).toOption) (start fileSize)

theorem Reachable.tracked {kernel : Kernel} {fileSize : Nat} {st : Locals}
    (small : fileSize ≤ 2 ^ 64) (reach : Reachable kernel fileSize st) :
    Tracked fileSize st [] := by
  induction reach with
  | init => exact tracked_start fileSize
  | @step st st' _ _ stepped ih =>
      cases iterated : iteration kernel st with
      | error e => simp [iterated, Except.toOption] at stepped
      | ok next =>
          simp only [iterated, Except.toOption, Option.some.injEq] at stepped
          exact stepped ▸ ih.iterate small iterated

/-- On a source of at most `2^64` bytes, whatever the kernel does, at the start of every
iteration of the main loop of `copy_file`: the entries live in the ring are exactly the
entries of the pending operations; `reads_in_flight` and `writes_in_flight` count the
pending reads and writes, at most `QUEUE_DEPTH` together; and the loop that queues
reads leaves only with nothing left to read or with `QUEUE_DEPTH` operations pending. -/
theorem account_exact {kernel : Kernel} {fileSize : Nat} {st : Locals}
    (small : fileSize ≤ 2 ^ 64) (reach : Reachable kernel fileSize st) :
    st.device.ring.live.Perm (st.pendingOperations.map IoData.sqe) ∧
      st.readsInFlight = st.pendingOperations.countP (fun op => op.isRead) ∧
      st.writesInFlight = st.pendingOperations.countP (fun op => !op.isRead) ∧
      st.readsInFlight + st.writesInFlight ≤ queueDepth ∧
      (0 < (queueReads st).bytesToRead →
        (queueReads st).readsInFlight + (queueReads st).writesInFlight = queueDepth) := by
  have tracked := reach.tracked small
  exact ⟨by simpa using tracked.live, tracked.reads, tracked.writes, tracked.depth,
    (tracked.readsQueued small).2⟩

/-- Two bytes to copy: the kernel consumes one entry per enter, completes the read with
both bytes, and the write queued for it is in flight after the first iteration. -/
theorem account_exact_two_bytes :
    ∃ st, Reachable ⟨fun _ => .ok 1, fun round => if round = 0 then [(0, 2)] else [],
        fun _ => none⟩ 2 st ∧ st.pendingOperations ≠ [] ∧
      st.device.ring.live.Perm (st.pendingOperations.map IoData.sqe) ∧
      st.readsInFlight = st.pendingOperations.countP (fun op => op.isRead) ∧
      st.writesInFlight = st.pendingOperations.countP (fun op => !op.isRead) ∧
      st.readsInFlight + st.writesInFlight ≤ queueDepth ∧
      (0 < (queueReads st).bytesToRead →
        (queueReads st).readsInFlight + (queueReads st).writesInFlight = queueDepth) := by
  have reach := LiburingRs.Reachable.run
    (LiburingRs.Reachable.init : Reachable ⟨fun _ => .ok 1,
      fun round => if round = 0 then [(0, 2)] else [], fun _ => none⟩ 2 (start 2))
    (rfl : run _ (start 2) [()] = _)
  exact ⟨_, reach, by decide, account_exact (by decide) reach⟩

end IoUringCp

end Examples

end LiburingRs
