import LiburingRs.Examples.IoUringCpWrites

/-!
# What `io_uring-cp` leaves behind when it returns `Ok`

When `copy_file` returns `Ok`, the ranges of the destination it wrote are, in order,
leading parts of ranges that tile the source: pairwise disjoint, within it, and covering
each of its bytes.  The tiles are the ranges the writes handled asked for, each as long as
its read's result: `bytes_to_write` is counted down by these lengths and the loop leaves
only when they add up to the file size.  So a byte of the source that the copy leaves out
of the destination lies in the tail of a short write, and nowhere else.

The account carries the tiles of the writes handled as ghost state, `done`.  What the
kernel wrote leads, in order, those tiles and then the tiles of the writes completed and
not yet handled, the completions peeked first and those still on the ring after them.

When the main loop leaves, no read is pending and the ring holds the pending writes, each
of no byte; the wait for the remaining writes retires one live entry for each write it
counts off.  So `copy_file` returns `Ok` with nothing live in the ring, and drops no buffer
the kernel may still use.
-/

namespace LiburingRs

namespace Examples

namespace IoUringCp

theorem FileOp.range_snd (op : FileOp) : op.range.2 = op.len := by
  cases op <;> rfl

theorem getSqe_getD_cq (ring : Ring FileOp) (sqe : Sqe FileOp) :
    ((ring.getSqe sqe).getD ring).cq = ring.cq := by
  unfold Ring.getSqe
  split <;> rfl

/-- `w` is the start of `t`: what a write of `w.2` bytes puts of a request for `t`. -/
def Leading (w t : Nat × Nat) : Prop := w.1 = t.1 ∧ w.2 ≤ t.2

/-- The range a completed write asked for, when it did not fail. -/
def tile (cqe : Cqe FileOp) : List (Nat × Nat) :=
  match cqe.sqe.op with
  | .write offset len => if 0 ≤ cqe.res then [(offset, len)] else []
  | .read _ _ => []

theorem mem_tile {cqe : Cqe FileOp} {t : Nat × Nat} (mem : t ∈ tile cqe) :
    t = cqe.sqe.op.range := by
  unfold tile at mem
  split at mem
  · rename_i offset len op
    split_ifs at mem
    · rw [List.mem_singleton.1 mem, op]
      rfl
    · cases mem
  · cases mem

/-- What the kernel writes for a completion no longer than its request leads the range
the request asked for. -/
theorem wrote_leading {sqe : Sqe FileOp} {res : Int} (fits : res ≤ sqe.op.len) :
    List.Forall₂ Leading (Device.wrote sqe res) (tile ⟨sqe, res⟩) := by
  unfold Device.wrote tile
  split
  · rename_i offset len op
    simp only [op, FileOp.len] at fits ⊢
    split_ifs
    · exact .cons ⟨rfl, by omega⟩ .nil
    · exact .nil
  · rename_i op
    simp only [op]
    exact .nil

/-- What is written leads, in order, the tiles `done` of the writes handled and then the
tiles of the writes completed since: those `peeked`, then those still on the ring. -/
def Leads (device : Device) (peeked : List (Cqe FileOp)) (done : List (Nat × Nat)) : Prop :=
  List.Forall₂ Leading device.written (done ++ (peeked ++ device.ring.cq).flatMap tile)

section Leads

variable {device : Device} {peeked : List (Cqe FileOp)} {done : List (Nat × Nat)}

/-- The kernel's completion of the `index`-th entry in flight appends what it wrote, and
the tile of its request after all others. -/
theorem Leads.complete {index : Nat} {res : Int} {sqe : Sqe FileOp} {ring' : Ring FileOp}
    (leads : Leads device peeked done) (found : device.ring.inflight[index]? = some sqe)
    (completed : device.ring.complete index res = some ring') (fits : res ≤ sqe.op.len) :
    Leads ⟨ring', device.written ++ Device.wrote sqe res⟩ peeked done := by
  obtain ⟨sqe', found', rfl⟩ := Ring.complete_eq_some completed
  obtain rfl : sqe = sqe' := Option.some.inj (found.symm.trans found')
  have appended := List.rel_append leads (wrote_leading fits)
  simpa only [Leads, List.append_assoc, List.flatMap_append, List.flatMap_cons,
    List.flatMap_nil, List.append_nil] using appended

/-- The kernel's postings append what they write, and the tiles of their requests. -/
theorem Leads.postAll (device : Device) (choices : List (Nat × Int))
    (leads : Leads device peeked done) : Leads (device.postAll choices) peeked done :=
  Device.postAll_of_completed (P := fun device => Leads device peeked done)
    (fun _ _ _ _ _ leads found completed fits => leads.complete found completed fits) device
    choices leads

/-- Peeking moves the completions on the ring behind those peeked before. -/
theorem Leads.peek (leads : Leads device peeked done) :
    Leads ⟨{ device.ring with cq := [] }, device.written⟩ (peeked ++ device.ring.cq) done := by
  simpa only [Leads, List.append_nil] using leads

/-- Handling the first completion peeked moves its tile to those handled. -/
theorem Leads.handled {cqe : Cqe FileOp} (leads : Leads device (cqe :: peeked) done) :
    Leads device peeked (done ++ tile cqe) := by
  simpa only [Leads, List.cons_append, List.flatMap_cons, List.append_assoc] using leads

/-- Only the completion queue and what is written matter. -/
theorem Leads.of_cq {device' : Device} (leads : Leads device peeked done)
    (written : device'.written = device.written) (cq : device'.ring.cq = device.ring.cq) :
    Leads device' peeked done := by
  unfold Leads
  rw [written, cq]
  exact leads

end Leads

/-- The bytes some ranges cover. -/
def covered (tiles : List (Nat × Nat)) : Finset Nat :=
  tiles.foldr (fun t bytes => Finset.Ico t.1 (t.1 + t.2) ∪ bytes) ∅

theorem covered_cons (t : Nat × Nat) (rest : List (Nat × Nat)) :
    covered (t :: rest) = Finset.Ico t.1 (t.1 + t.2) ∪ covered rest :=
  rfl

theorem mem_covered {b : Nat} {tiles : List (Nat × Nat)} :
    b ∈ covered tiles ↔ ∃ t ∈ tiles, t.1 ≤ b ∧ b < t.1 + t.2 := by
  induction tiles with
  | nil => simp [covered]
  | cons t rest ih =>
      simp only [covered_cons, Finset.mem_union, Finset.mem_Ico, List.mem_cons,
        exists_eq_or_imp, ih]

theorem card_covered {tiles : List (Nat × Nat)} (apart : tiles.Pairwise Apart) :
    (covered tiles).card = (tiles.map Prod.snd).sum := by
  induction tiles with
  | nil => rfl
  | cons t rest ih =>
      obtain ⟨first, rest_apart⟩ := List.pairwise_cons.1 apart
      have disjoint : Disjoint (Finset.Ico t.1 (t.1 + t.2)) (covered rest) := by
        refine Finset.disjoint_left.2 fun b inT inRest => ?_
        obtain ⟨u, mem, start, stop⟩ := mem_covered.1 inRest
        have := first u mem
        rw [Finset.mem_Ico] at inT
        unfold Apart at this
        omega
      rw [covered_cons, Finset.card_union_of_disjoint disjoint, ih rest_apart, Nat.card_Ico,
        List.map_cons, List.sum_cons, Nat.add_sub_cancel_left]

/-- Pairwise disjoint ranges within the first `n` bytes whose lengths add up to `n` cover
each of them. -/
theorem covers_of_sum {tiles : List (Nat × Nat)} {n : Nat} (apart : tiles.Pairwise Apart)
    (below : ∀ t ∈ tiles, t.1 + t.2 ≤ n) (sum : (tiles.map Prod.snd).sum = n) :
    ∀ b < n, ∃ t ∈ tiles, t.1 ≤ b ∧ b < t.1 + t.2 := by
  have within : covered tiles ⊆ Finset.range n := fun b mem => by
    obtain ⟨t, mem, start, stop⟩ := mem_covered.1 mem
    have := below t mem
    exact Finset.mem_range.2 (by omega)
  have all := Finset.eq_of_subset_of_card_le within
    (by rw [Finset.card_range, card_covered apart, sum])
  intro b lt
  exact mem_covered.1 (all ▸ Finset.mem_range.2 lt)

/-- The account of `copy_file` on the destination, with `done` the tiles of the writes
handled and `peeked` the completions taken off the ring and not yet handled: what is
written leads the tiles; the tiles and the ranges of the pending operations are pairwise
disjoint and before `offset`; `bytes_to_write` is what the tiles leave of the file; and the
pending operations and the bytes left to read fit in it, every pending read asking for
some byte. -/
structure Tiled (fileSize : Nat) (st : Locals) (peeked : List (Cqe FileOp))
    (done : List (Nat × Nat)) : Prop where
  leads : Leads st.device peeked done
  apart : (done ++ st.pendingOperations.map IoData.range).Pairwise Apart
  below : ∀ r ∈ done ++ st.pendingOperations.map IoData.range, r.1 + r.2 ≤ st.offset
  counted : (done.map Prod.snd).sum + st.bytesToWrite = fileSize
  fits : (st.pendingOperations.map IoData.len).sum + st.bytesToRead ≤ st.bytesToWrite
  reads : ∀ op ∈ st.pendingOperations, op.isRead = true → 0 < op.len

section Tiled

variable {fileSize : Nat} {kernel : Kernel} {st st' : Locals} {peeked : List (Cqe FileOp)}
  {done : List (Nat × Nat)}

theorem tiled_start (fileSize : Nat) : Tiled fileSize (start fileSize) [] [] :=
  ⟨List.Forall₂.nil, .nil, fun _ mem => absurd mem (List.not_mem_nil _), Nat.zero_add _,
    (Nat.zero_add _).le, fun _ mem => absurd mem (List.not_mem_nil _)⟩

/-- A read queued at `offset` covers a range past the tiles and every pending operation,
and takes its length off the bytes left to read. -/
theorem Tiled.queueRead (tiled : Tiled fileSize st [] done) {size : Nat} (positive : 0 < size)
    (le : size ≤ st.bytesToRead) (ring : Ring FileOp) (cq : ring.cq = st.device.ring.cq)
    (readsInFlight : Nat) :
    Tiled fileSize { st with
        device := { st.device with ring }
        pendingOperations := st.pendingOperations ++ [⟨st.offset, size, true⟩]
        offset := st.offset + size
        bytesToRead := st.bytesToRead - size
        readsInFlight } [] done := by
  have shape : done ++ (st.pendingOperations ++ [IoData.mk st.offset size true]).map IoData.range =
      (done ++ st.pendingOperations.map IoData.range) ++ [(st.offset, size)] := by
    simp [IoData.range]
  refine ⟨tiled.leads.of_cq rfl cq, ?_, ?_, tiled.counted, ?_, fun op mem read => ?_⟩
  · rw [shape, List.pairwise_append]
    refine ⟨tiled.apart, List.pairwise_singleton _ _, fun x mem y new => ?_⟩
    rw [List.mem_singleton.1 new]
    exact .inl (tiled.below x mem)
  · rw [shape]
    intro x mem
    rcases List.mem_append.1 mem with old | new
    · have := tiled.below x old
      dsimp only
      omega
    · rw [List.mem_singleton.1 new]
  · have := tiled.fits
    simp only [List.map_append, List.sum_append, List.map_cons, List.map_nil, List.sum_cons,
      List.sum_nil]
    omega
  · rcases List.mem_append.1 mem with old | new
    · exact tiled.reads op old read
    · rw [List.mem_singleton.1 new]
      exact positive

theorem Tiled.readsQueuedFor :
    ∀ turns (st : Locals), Tiled fileSize st [] done →
      Tiled fileSize (queueReadsFor turns st) [] done
  | 0, _, tiled => tiled
  | turns + 1, st, tiled => by
      simp only [queueReadsFor]
      split
      · rename_i left
        split
        · exact tiled
        · rename_i ring got
          obtain ⟨-, rfl⟩ := Ring.getSqe_eq_some_iff.1 got
          exact Tiled.readsQueuedFor turns _
            (tiled.queueRead (lt_min left (by decide)) (min_le_left _ _) _ (by rfl) _)
      · exact tiled

theorem Tiled.submitted (tiled : Tiled fileSize st peeked done)
    (submitted : submit kernel st = .ok st') : Tiled fileSize st' peeked done := by
  obtain ⟨consumed, -, rfl⟩ := submit_eq_ok submitted
  exact ⟨tiled.leads.of_cq rfl (Ring.submit_cq _ _), tiled.apart, tiled.below, tiled.counted,
    tiled.fits, tiled.reads⟩

/-- The kernel's postings, and the peek after them, touch only the device. -/
theorem Tiled.peek (tiled : Tiled fileSize st [] done) (choices : List (Nat × Int))
    (rounds : Nat) :
    Tiled fileSize { st with
        device := { st.device.postAll choices with
          ring := { (st.device.postAll choices).ring with cq := [] } }
        rounds }
      (st.device.postAll choices).ring.cq done :=
  ⟨(Leads.postAll _ choices tiled.leads).peek, tiled.apart, tiled.below, tiled.counted,
    tiled.fits, tiled.reads⟩

/-- Handling one completion peeked: a write's moves its request's range to the tiles and is
counted off `bytes_to_write`; a read's gives way to its write, whose range leads the
read's. -/
theorem Tiled.completionHandled {cqe : Cqe FileOp} {rest : List (Cqe FileOp)}
    (tracked : Tracked fileSize st (cqe.sqe :: rest.map Cqe.sqe))
    (sep : Separated st.device (cqe :: rest) st.offset)
    (tiled : Tiled fileSize st (cqe :: rest) done)
    (handled : handleCompletion kernel st (cqe.result, cqe.userData) = .ok st') :
    Tiled fileSize st' rest (done ++ tile cqe) := by
  obtain ⟨op, mem, same⟩ :=
    List.mem_map.1 (tracked.live.subset (List.mem_append_right _ (List.mem_cons_self _ _)))
  have fits := sep.posted cqe (List.mem_append_right _ (List.mem_cons_self _ _))
  have ranges := (List.perm_cons_erase mem).map IoData.range
  have lens := ((List.perm_cons_erase mem).map IoData.len).sum_eq
  have before := tiled.fits
  simp only [List.map_cons, List.sum_cons] at lens
  rw [Cqe.userData, ← same] at handled
  obtain ⟨positive, ⟨isRead, rfl⟩ | ⟨isRead, handled⟩⟩ :=
    handleCompletion_pending mem tracked.tags handled
  · have write : tile cqe = [op.range] := by
      simp only [Cqe.result] at positive
      simp [tile, ← same, IoData.sqe, isRead, IoData.range, positive]
    have moved : ((done ++ tile cqe) ++ (st.pendingOperations.erase op).map IoData.range).Perm
        (done ++ st.pendingOperations.map IoData.range) := by
      rw [write, List.append_assoc, List.singleton_append]
      exact (ranges.append_left done).symm
    refine ⟨tiled.leads.handled, moved.symm.pairwise tiled.apart Apart.symm,
      fun x mem => tiled.below x (moved.mem_iff.1 mem), ?_, ?_,
      fun other pending => tiled.reads other (List.mem_of_mem_erase pending)⟩
    · have := tiled.counted
      simp only [write, List.map_append, List.sum_append, List.map_cons, List.map_nil,
        List.sum_cons, List.sum_nil, IoData.range]
      omega
    · dsimp only
      omega
  · have read : tile cqe = [] := by
      simp [tile, ← same, IoData.sqe, isRead]
    have leads := tiled.leads.handled
    rw [read, List.append_nil] at leads ⊢
    refine Tiled.submitted ?_ handled
    have shorter : cqe.result.toNat ≤ op.len := by
      rw [← IoData.sqe_len, same]
      exact Int.toNat_le.2 fits
    have old : (done ++ st.pendingOperations.map IoData.range).Perm
        (op.range :: (done ++ (st.pendingOperations.erase op).map IoData.range)) :=
      (ranges.append_left done).trans List.perm_middle
    have new : (done ++ (st.pendingOperations.erase op ++
          [{ op with isRead := false, len := cqe.result.toNat }]).map IoData.range).Perm
        ((op.offset, cqe.result.toNat) ::
          (done ++ (st.pendingOperations.erase op).map IoData.range)) := by
      rw [List.map_append, ← List.append_assoc]
      exact List.perm_append_singleton _ _
    obtain ⟨apart, below⟩ := separated_of_shorter (old.pairwise tiled.apart Apart.symm)
      (fun x mem => tiled.below x (old.mem_iff.2 mem)) [(op.offset, cqe.result.toNat)]
      (by simpa [IoData.range] using shorter) (by simp)
    refine ⟨leads.of_cq rfl (getSqe_getD_cq _ _), new.symm.pairwise apart Apart.symm,
      fun x mem => below x (new.mem_iff.1 mem), tiled.counted, ?_, fun other pending => ?_⟩
    · simp only [List.map_append, List.sum_append, List.map_cons, List.map_nil, List.sum_cons,
        List.sum_nil]
      omega
    · rcases List.mem_append.1 pending with old | new
      · exact tiled.reads other (List.mem_of_mem_erase old)
      · rw [List.mem_singleton.1 new]
        intro isRead
        cases isRead

/-- Handling all the completions peeked keeps the account, with their tiles handled. -/
theorem Tiled.completionsHandled {cqes : List (Cqe FileOp)}
    (tracked : Tracked fileSize st (cqes.map Cqe.sqe)) (sep : Separated st.device cqes st.offset)
    (tiled : Tiled fileSize st cqes done)
    (handled : (cqes.map fun cqe => (cqe.result, cqe.userData)).foldlM
      (handleCompletion kernel) st = .ok st') :
    ∃ done', Tiled fileSize st' [] done' := by
  induction cqes generalizing st done with
  | nil => exact ⟨done, (Except.ok.inj handled) ▸ tiled⟩
  | cons cqe rest ih =>
      rw [List.map_cons, List.foldlM_cons] at handled
      obtain ⟨mid, one, more⟩ := bind_eq_ok handled
      exact ih (tracked.completionHandled one) (sep.completionHandled tracked one)
        (tiled.completionHandled tracked sep one) more

/-- Every iteration of the main loop keeps the account. -/
theorem Tiled.iterate (small : fileSize ≤ 2 ^ 64) (tracked : Tracked fileSize st [])
    (sep : Separated st.device [] st.offset) (tiled : Tiled fileSize st [] done)
    (iterated : iteration kernel st = .ok st') : ∃ done', Tiled fileSize st' [] done' := by
  have queued := (tracked.readsQueued small).1
  have sepQueued : Separated (queueReads st).device [] (queueReads st).offset :=
    Separated.readsQueuedFor _ st sep
  have tiledQueued : Tiled fileSize (queueReads st) [] done := Tiled.readsQueuedFor _ st tiled
  unfold iteration at iterated
  dsimp only at iterated
  split at iterated
  all_goals
    obtain ⟨st₁, submitted, handled⟩ := bind_eq_ok iterated
  · exact Tiled.completionsHandled ((queued.submitted submitted).peek _ _)
      (Separated.postAll _ _ (sepQueued.submitOk submitted)).peek
      ((tiledQueued.submitted submitted).peek _ _) handled
  · cases submitted
    exact Tiled.completionsHandled (queued.peek _ _) (Separated.postAll _ _ sepQueued).peek
      (tiledQueued.peek _ _) handled

theorem Reachable.tiled (small : fileSize ≤ 2 ^ 64) (reach : Reachable kernel fileSize st) :
    ∃ done, Tiled fileSize st [] done := by
  induction reach with
  | init => exact ⟨[], tiled_start fileSize⟩
  | @step st st' _ reachSt stepped ih =>
      obtain ⟨done, tiled⟩ := ih
      cases iterated : iteration kernel st with
      | error e => simp [iterated, Except.toOption] at stepped
      | ok next =>
          simp only [iterated, Except.toOption, Option.some.injEq] at stepped
          exact stepped ▸ tiled.iterate small (Reachable.tracked small reachSt)
            (Reachable.separated small reachSt) iterated

end Tiled

/-- The account once the main loop has left: the tiles are pairwise disjoint, within the
file, and add up to it; what is written leads them and the tiles of the writes completed
since; and every entry still live asks for no byte, within the file and apart from the
tiles. -/
structure Finishing (fileSize : Nat) (device : Device) (done : List (Nat × Nat)) : Prop where
  leads : Leads device [] done
  apart : done.Pairwise Apart
  below : ∀ r ∈ done, r.1 + r.2 ≤ fileSize
  counted : (done.map Prod.snd).sum = fileSize
  idle : ∀ sqe ∈ device.ring.live, sqe.op.range.2 = 0 ∧ sqe.op.range.1 ≤ fileSize ∧
    ∀ r ∈ done, Apart sqe.op.range r

section Finishing

variable {fileSize : Nat} {kernel : Kernel} {st st' : Locals} {device : Device}
  {done : List (Nat × Nat)}

/-- The main loop leaves with every byte read and counted written: the pending operations
then ask for no byte, and the tiles add up to the file. -/
theorem Tiled.finishing (tracked : Tracked fileSize st []) (tiled : Tiled fileSize st [] done)
    (readAll : st.bytesToRead = 0) (writtenAll : st.bytesToWrite = 0) :
    Finishing fileSize st.device done := by
  have offset := tracked.toRead
  have fits := tiled.fits
  refine ⟨tiled.leads, tiled.apart.sublist (List.sublist_append_left _ _), fun r mem => ?_,
    by have := tiled.counted; omega, fun sqe live => ?_⟩
  · have := tiled.below r (List.mem_append_left _ mem)
    omega
  · obtain ⟨op, pending, rfl⟩ :=
      List.mem_map.1 (tracked.live.subset (List.mem_append_left _ live))
    have inRanges := List.mem_map_of_mem IoData.range pending
    have zero := List.le_sum_of_mem (List.mem_map_of_mem IoData.len pending)
    have := tiled.below _ (List.mem_append_right _ inRanges)
    rw [IoData.sqe_range]
    refine ⟨by simp only [IoData.range]; omega, by simp only [IoData.range] at this ⊢; omega,
      fun r mem => ?_⟩
    exact ((List.pairwise_append.1 tiled.apart).2.2 r mem _ inRanges).symm

/-- The kernel's postings complete entries that ask for no byte, and write none. -/
theorem Finishing.postAll (device : Device) (choices : List (Nat × Int))
    (fin : Finishing fileSize device done) : Finishing fileSize (device.postAll choices) done :=
  Device.postAll_of_completed (P := fun device => Finishing fileSize device done)
    (fun _ _ _ _ _ fin found completed fits =>
    ⟨fin.leads.complete found completed fits, fin.apart, fin.below, fin.counted,
      fun sqe live => fin.idle sqe ((Ring.complete_live completed).subset live)⟩) device choices fin

/-- Two ranges of no byte share none. -/
theorem apart_of_empty {a b : Nat × Nat} (emptyA : a.2 = 0) (emptyB : b.2 = 0) : Apart a b := by
  unfold Apart
  omega

/-- `wait_cqe` retiring the head completion moves its tile, of no byte, to the tiles. -/
theorem Finishing.popCqe {cqe : Cqe FileOp} {ring : Ring FileOp}
    (fin : Finishing fileSize device done) (popped : device.ring.popCqe = some (cqe, ring)) :
    Finishing fileSize { device with ring } (done ++ tile cqe) := by
  have live := Ring.popCqe_live popped
  obtain ⟨rest, headCqe, rfl⟩ := Ring.popCqe_eq_some popped
  obtain ⟨empty, start, apart⟩ := fin.idle cqe.sqe (live ▸ List.mem_cons_self _ _)
  have fresh : ∀ t ∈ tile cqe, t = cqe.sqe.op.range := fun t mem => mem_tile mem
  refine ⟨?_, ?_, ?_, ?_, fun sqe mem => ?_⟩
  · have leads := fin.leads
    simpa only [Leads, headCqe, List.nil_append, List.flatMap_cons, List.append_assoc] using leads
  · refine List.pairwise_append.2 ⟨fin.apart, List.pairwise_of_forall_mem_list fun a ma b mb => ?_,
      fun r mem t mt => (fresh t mt ▸ apart r mem).symm⟩
    exact apart_of_empty (fresh a ma ▸ empty) (fresh b mb ▸ empty)
  · intro r mem
    rcases List.mem_append.1 mem with old | new
    · exact fin.below r old
    · rw [fresh r new, empty]
      exact start
  · have zero : ((tile cqe).map Prod.snd).sum = 0 := List.sum_eq_zero fun x mem => by
      obtain ⟨t, mt, rfl⟩ := List.mem_map.1 mem
      rw [fresh t mt, empty]
    rw [List.map_append, List.sum_append, fin.counted, zero, Nat.add_zero]
  · obtain ⟨empty', start', apart'⟩ := fin.idle sqe (live ▸ List.mem_cons_of_mem _ mem)
    refine ⟨empty', start', fun r mem' => ?_⟩
    rcases List.mem_append.1 mem' with old | new
    · exact apart' r old
    · exact apart_of_empty empty' (fresh r new ▸ empty)

/-- The wait for the remaining writes keeps the account. -/
theorem Finishing.remainingWaited :
    ∀ fuel (st : Locals) (done : List (Nat × Nat)), Finishing fileSize st.device done →
      waitRemaining kernel fuel st = some (.ok st') → ∃ done', Finishing fileSize st'.device done'
  | 0, _, _, _, waited => by cases waited
  | fuel + 1, st, done, fin, waited => by
      unfold waitRemaining at waited
      split at waited
      · cases waited
        exact ⟨done, fin⟩
      · dsimp only at waited
        have posted := Finishing.postAll _ (kernel.completions st.rounds) fin
        split at waited
        · rename_i cqe ring popped
          split at waited
          · cases waited
          · exact Finishing.remainingWaited fuel _ _ (posted.popCqe popped) waited
        · split at waited
          · cases waited
          · exact Finishing.remainingWaited fuel _ _ posted waited

/-- What is written leads tiles that are pairwise disjoint, within the file and add up to
it: those handled, and those of no byte of the completions still on the ring. -/
theorem Finishing.tiles (fin : Finishing fileSize device done) :
    ∃ tiles : List (Nat × Nat), tiles.Pairwise Apart ∧ (∀ t ∈ tiles, t.1 + t.2 ≤ fileSize) ∧
      (tiles.map Prod.snd).sum = fileSize ∧ List.Forall₂ Leading device.written tiles := by
  have posted : ∀ t ∈ device.ring.cq.flatMap tile, t.2 = 0 ∧ t.1 ≤ fileSize ∧
      ∀ r ∈ done, Apart t r := by
    intro t mem
    obtain ⟨cqe, mc, mt⟩ := List.mem_flatMap.1 mem
    rw [mem_tile mt]
    exact fin.idle cqe.sqe (List.mem_append_left _ (List.mem_append_left _
      (List.mem_append_left _ (List.mem_map_of_mem _ mc))))
  refine ⟨done ++ device.ring.cq.flatMap tile, ?_, fun t mem => ?_, ?_, fin.leads⟩
  · refine List.pairwise_append.2 ⟨fin.apart, List.pairwise_of_forall_mem_list fun a ma b mb =>
      apart_of_empty (posted a ma).1 (posted b mb).1,
      fun r mem t mt => ((posted t mt).2.2 r mem).symm⟩
  · rcases List.mem_append.1 mem with old | new
    · exact fin.below t old
    · have := posted t new
      omega
  · have zero : ((device.ring.cq.flatMap tile).map Prod.snd).sum = 0 :=
      List.sum_eq_zero fun x mem => by
        obtain ⟨t, mt, rfl⟩ := List.mem_map.1 mem
        exact (posted t mt).1
    rw [List.map_append, List.sum_append, fin.counted, zero, Nat.add_zero]

end Finishing

/-- On a source of at most `2^64` bytes, whatever the kernel does, when `copy_file` returns
`Ok` the ranges of the destination it wrote are, in order, leading parts of ranges that tile
the source: pairwise disjoint, within it, and covering each of its bytes.  A byte of the
source missing from the destination lies in the tail of a short write. -/
theorem ok_writes_lead_tiles {kernel : Kernel} {fileSize fuel : Nat} {final : Locals}
    (small : fileSize ≤ 2 ^ 64) (copied : copyFile kernel fileSize fuel = some (.ok final)) :
    ∃ tiles : List (Nat × Nat), tiles.Pairwise Apart ∧ (∀ t ∈ tiles, t.1 + t.2 ≤ fileSize) ∧
      (∀ b < fileSize, ∃ t ∈ tiles, t.1 ≤ b ∧ b < t.1 + t.2) ∧
      List.Forall₂ Leading final.device.written tiles := by
  obtain ⟨st, fuel', reach, readAll, writtenAll, waited⟩ := copyLoop_eq_ok fuel _ .init copied
  obtain ⟨done, tiled⟩ := reach.tiled small
  obtain ⟨done', fin⟩ := Finishing.remainingWaited fuel' st done
    (tiled.finishing (reach.tracked small) readAll writtenAll) waited
  obtain ⟨tiles, apart, below, sum, leads⟩ := fin.tiles
  exact ⟨tiles, apart, below, covers_of_sum apart below sum, leads⟩

/-- Two bytes, read whole and written one byte short: `copy_file` returns `Ok` with the
first byte written, a leading part of the one tile, the whole file. -/
theorem ok_writes_lead_tiles_short_write :
    ∃ final, copyFile ⟨fun _ => .ok 64, fun round => [(0, if round = 0 then 2 else 1)],
        fun _ => none⟩ 2 8 = some (.ok final) ∧ final.device.written = [(0, 1)] ∧
      ∃ tiles : List (Nat × Nat), tiles.Pairwise Apart ∧ (∀ t ∈ tiles, t.1 + t.2 ≤ 2) ∧
        (∀ b < 2, ∃ t ∈ tiles, t.1 ≤ b ∧ b < t.1 + t.2) ∧
        List.Forall₂ Leading final.device.written tiles := by
  have copied : copyFile ⟨fun _ => .ok 64, fun round => [(0, if round = 0 then 2 else 1)],
      fun _ => none⟩ 2 8 = _ := rfl
  exact ⟨_, copied, rfl, ok_writes_lead_tiles (by decide) copied⟩

section Idle

variable {fileSize : Nat} {kernel : Kernel} {st st' : Locals} {done : List (Nat × Nat)}

/-- The main loop leaves with every byte read and counted written: no read is pending
then, and the ring holds the pending writes and nothing else. -/
theorem Tiled.live_length (tracked : Tracked fileSize st []) (tiled : Tiled fileSize st [] done)
    (readAll : st.bytesToRead = 0) (writtenAll : st.bytesToWrite = 0) :
    st.device.ring.live.length = st.writesInFlight := by
  have write : ∀ op ∈ st.pendingOperations, (!op.isRead) = true := fun op mem => by
    have zero := List.le_sum_of_mem (List.mem_map_of_mem IoData.len mem)
    have := tiled.fits
    cases isRead : op.isRead
    · rfl
    · have := tiled.reads op mem isRead
      omega
  have live := tracked.live.length_eq
  simp only [List.append_nil, List.length_map] at live
  rw [live, tracked.writes, List.countP_eq_length.2 write]

/-- The wait for the remaining writes retires one live entry for each write it counts
off, so it leaves with none live. -/
theorem remainingWaited_idle :
    ∀ fuel (st : Locals), st.device.ring.live.length = st.writesInFlight →
      waitRemaining kernel fuel st = some (.ok st') → st'.device.ring.live = []
  | 0, _, _, waited => by cases waited
  | fuel + 1, st, counted, waited => by
      unfold waitRemaining at waited
      split at waited
      · rename_i idle
        cases waited
        exact List.eq_nil_of_length_eq_zero (counted.trans idle)
      · rename_i busy
        dsimp only at waited
        have kept :=
          (Device.keeps_postAll st.device (kernel.completions st.rounds)).live.length_eq
        split at waited
        · rename_i cqe ring popped
          split at waited
          · cases waited
          · refine remainingWaited_idle fuel _ ?_ waited
            rw [Ring.popCqe_live popped, List.length_cons] at kept
            dsimp only
            omega
        · split at waited
          · cases waited
          · refine remainingWaited_idle fuel _ ?_ waited
            exact kept.trans counted

end Idle

/-- On a source of at most `2^64` bytes, whatever the kernel does, `copy_file` returns `Ok`
only once every operation it queued has completed and its completion has been taken: no
entry is live in the ring, so no buffer of `pending_operations` is dropped while the
kernel may still use it. -/
theorem ok_ring_idle {kernel : Kernel} {fileSize fuel : Nat} {final : Locals}
    (small : fileSize ≤ 2 ^ 64) (copied : copyFile kernel fileSize fuel = some (.ok final)) :
    final.device.ring.live = [] := by
  obtain ⟨st, fuel', reach, readAll, writtenAll, waited⟩ := copyLoop_eq_ok fuel _ .init copied
  obtain ⟨done, tiled⟩ := reach.tiled small
  exact remainingWaited_idle fuel' st (tiled.live_length (reach.tracked small) readAll writtenAll)
    waited

/-- Two bytes, read whole and written one byte short: when `copy_file` returns `Ok` the
ring holds nothing. -/
theorem ok_ring_idle_short_write :
    ∃ final, copyFile ⟨fun _ => .ok 64, fun round => [(0, if round = 0 then 2 else 1)],
        fun _ => none⟩ 2 8 = some (.ok final) ∧ final.device.ring.live = [] := by
  have copied : copyFile ⟨fun _ => .ok 64, fun round => [(0, if round = 0 then 2 else 1)],
      fun _ => none⟩ 2 8 = _ := rfl
  exact ⟨_, copied, ok_ring_idle (by decide) copied⟩

end IoUringCp

end Examples

end LiburingRs
