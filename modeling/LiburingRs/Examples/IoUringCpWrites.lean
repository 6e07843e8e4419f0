import LiburingRs.Examples.IoUringCpAccount

/-!
# `io_uring-cp` writes no byte twice

Whatever the kernel does, the ranges of the destination that `copy_file` writes are
pairwise disjoint and lie within the source.  Each read covers the range just past
everything queued before it; the write queued for its completion covers what it read,
a prefix of that range; and what the kernel writes is a prefix of the write.  So the
ranges written, with those that the entries in the ring and the reads completed may
still write, stay pairwise disjoint and before `offset`.

The argument goes through the account of `copy_file`: a completion is matched with its
own operation only while tags are distinct, on a source of at most `2^64` bytes.
-/

namespace LiburingRs

namespace Examples

/-- Whether an operation is a read. -/
def FileOp.isRead : FileOp → Bool
  | .read _ _ => true
  | .write _ _ => false

/-- The byte range an operation covers, as `(offset, length)`. -/
def FileOp.range : FileOp → Nat × Nat
  | .read offset len | .write offset len => (offset, len)

namespace IoUringCp

/-- The range an operation covers, as `(offset, len)`. -/
def IoData.range (op : IoData) : Nat × Nat := (op.offset, op.len)

theorem IoData.sqe_range (op : IoData) : op.sqe.op.range = op.range := by
  unfold IoData.sqe
  cases op.isRead <;> rfl

theorem IoData.sqe_len (op : IoData) : op.sqe.op.len = op.len := by
  unfold IoData.sqe
  cases op.isRead <;> rfl

theorem IoData.sqe_isRead (op : IoData) : op.sqe.op.isRead = op.isRead := by
  unfold IoData.sqe
  cases op.isRead <;> rfl

/-- Two byte ranges share no byte. -/
def Apart (a b : Nat × Nat) : Prop := a.1 + a.2 ≤ b.1 ∨ b.1 + b.2 ≤ a.1

theorem Apart.symm {a b : Nat × Nat} (apart : Apart a b) : Apart b a :=
  Or.symm apart

/-- A range that starts where `r` does and is no longer keeps apart from what `r` is. -/
theorem Apart.shorter {r n x : Nat × Nat} (apart : Apart r x) (start : n.1 = r.1)
    (shorter : n.2 ≤ r.2) : Apart n x := by
  unfold Apart at *
  omega

/-- The ranges of some entries. -/
def ranges (sqes : List (Sqe FileOp)) : List (Nat × Nat) :=
  sqes.map fun sqe => sqe.op.range

/-- The reads among some entries. -/
def reads (sqes : List (Sqe FileOp)) : List (Sqe FileOp) :=
  sqes.filter fun sqe => sqe.op.isRead

/-- The ranges a device may still write: those of the entries not yet completed, and
those of the reads completed, posted or peeked, whose writes are still to come. -/
def toWrite (ring : Ring FileOp) (peeked : List (Cqe FileOp)) : List (Nat × Nat) :=
  ranges (ring.inflight ++ ring.published ++ ring.prepared) ++
    ranges (reads ((ring.cq ++ peeked).map Cqe.sqe))

/-- The destination written and still to write, with the completions `peeked`: pairwise
disjoint ranges, all before `offset`, and every completion posted no longer than the
request it completes. -/
structure Separated (device : Device) (peeked : List (Cqe FileOp)) (offset : Nat) : Prop where
  apart : (device.written ++ toWrite device.ring peeked).Pairwise Apart
  below : ∀ r ∈ device.written ++ toWrite device.ring peeked, r.1 + r.2 ≤ offset
  posted : ∀ cqe ∈ device.ring.cq ++ peeked, cqe.res ≤ cqe.sqe.op.len

section Separated

variable {device : Device} {peeked : List (Cqe FileOp)} {offset : Nat}

/-- Ranges that are pairwise apart and before `offset` stay so when one of them gives way
to at most one prefix of it. -/
theorem separated_of_shorter {r : Nat × Nat} {rest : List (Nat × Nat)}
    (apart : (r :: rest).Pairwise Apart) (below : ∀ x ∈ r :: rest, x.1 + x.2 ≤ offset)
    (fresh : List (Nat × Nat)) (prefixes : ∀ n ∈ fresh, n.1 = r.1 ∧ n.2 ≤ r.2)
    (single : fresh.length ≤ 1) :
    (fresh ++ rest).Pairwise Apart ∧ ∀ x ∈ fresh ++ rest, x.1 + x.2 ≤ offset := by
  have rest_apart := (List.pairwise_cons.1 apart)
  match fresh, single with
  | [], _ => exact ⟨rest_apart.2, fun x mem => below x (List.mem_cons_of_mem _ mem)⟩
  | [n], _ =>
      obtain ⟨start, shorter⟩ := prefixes n (List.mem_singleton_self n)
      refine ⟨List.pairwise_cons.2 ⟨fun x mem => (rest_apart.1 x mem).shorter start shorter,
        rest_apart.2⟩, fun x mem => ?_⟩
      rcases List.mem_cons.1 mem with rfl | later
      · have := below r (List.mem_cons_self r rest)
        omega
      · exact below x (List.mem_cons_of_mem _ later)

/-- One of pairwise disjoint ranges before `offset`, `r`, given way to at most one
prefix of it after the ranges `written`, leaves them so. -/
theorem separated_of_written {r : Nat × Nat} {old written rest fresh : List (Nat × Nat)}
    (apart : old.Pairwise Apart) (below : ∀ x ∈ old, x.1 + x.2 ≤ offset)
    (moved : old.Perm (r :: (written ++ rest)))
    (prefixes : ∀ n ∈ fresh, n.1 = r.1 ∧ n.2 ≤ r.2) (single : fresh.length ≤ 1) :
    (written ++ fresh ++ rest).Pairwise Apart ∧
      ∀ x ∈ written ++ fresh ++ rest, x.1 + x.2 ≤ offset := by
  obtain ⟨apart', below'⟩ := separated_of_shorter (moved.pairwise apart Apart.symm)
    (fun x mem => below x (moved.mem_iff.2 mem)) fresh prefixes single
  have shape : (written ++ fresh ++ rest).Perm (fresh ++ (written ++ rest)) := by
    rw [List.append_assoc]
    exact List.perm_append_comm_assoc _ _ _
  exact ⟨shape.symm.pairwise apart' Apart.symm, fun x mem => below' x (shape.mem_iff.1 mem)⟩

/-- What a completion no longer than its request writes: at most one range, a prefix of
the request's. -/
theorem wrote_shorter {sqe : Sqe FileOp} {res : Int} (fits : res ≤ sqe.op.len) :
    (∀ n ∈ Device.wrote sqe res, n.1 = sqe.op.range.1 ∧ n.2 ≤ sqe.op.range.2) ∧
      (Device.wrote sqe res).length ≤ 1 := by
  unfold Device.wrote
  split
  · rename_i offset len op
    simp only [op, FileOp.len, FileOp.range] at fits ⊢
    split_ifs
    · exact ⟨fun n mem => by rw [List.mem_singleton.1 mem]; exact ⟨rfl, by omega⟩, le_refl _⟩
    · simp
  · simp

theorem toWrite_submit (enter : Except Int Nat) (ring : Ring FileOp)
    (peeked : List (Cqe FileOp)) : toWrite (ring.submit enter).1 peeked = toWrite ring peeked := by
  cases enter <;> simp [toWrite, ranges, Ring.submit, List.take_append_drop]

/-- `submit` moves entries within the ring and writes nothing. -/
theorem Separated.submitted (sep : Separated device peeked offset) (enter : Except Int Nat) :
    Separated { device with ring := (device.ring.submit enter).1 } peeked offset :=
  ⟨by simpa only [toWrite_submit] using sep.apart,
    by simpa only [toWrite_submit] using sep.below,
    by simpa only [Ring.submit_cq] using sep.posted⟩

/-- A read queued at `offset` covers a range past everything queued before it. -/
theorem Separated.queueRead (sep : Separated device [] offset) (size : Nat) (tag : BitVec 64) :
    Separated { device with ring := { device.ring with
        prepared := device.ring.prepared ++ [⟨.read offset size, tag, false⟩] } } []
      (offset + size) := by
  have shape : device.written ++ toWrite { device.ring with
      prepared := device.ring.prepared ++ [⟨.read offset size, tag, false⟩] } [] =
      (device.written ++ ranges (device.ring.inflight ++ device.ring.published ++
        device.ring.prepared)) ++
        (offset, size) :: ranges (reads (device.ring.cq.map Cqe.sqe)) := by
    simp [toWrite, ranges, FileOp.range]
  have before : device.written ++ toWrite device.ring [] =
      (device.written ++ ranges (device.ring.inflight ++ device.ring.published ++
        device.ring.prepared)) ++ ranges (reads (device.ring.cq.map Cqe.sqe)) := by
    simp [toWrite]
  refine ⟨?_, ?_, sep.posted⟩
  · rw [shape, List.pairwise_middle (fun apart => Apart.symm apart), List.pairwise_cons]
    refine ⟨fun x mem => .inr ?_, before ▸ sep.apart⟩
    exact sep.below x (before ▸ mem)
  · rw [shape]
    intro x mem
    rcases List.mem_append.1 mem with early | late
    · have := sep.below x (before ▸ List.mem_append_left _ early)
      omega
    · rcases List.mem_cons.1 late with rfl | later
      · exact le_refl _
      · have := sep.below x (before ▸ List.mem_append_right _ later)
        omega

theorem perm_eraseIdx {l : List (Sqe FileOp)} {index : Nat} {sqe : Sqe FileOp}
    (found : l[index]? = some sqe) : l.Perm (sqe :: l.eraseIdx index) := by
  obtain ⟨inBounds, rfl⟩ := List.getElem?_eq_some_iff.1 found
  exact (List.perm_cons_erase (List.getElem_mem inBounds)).trans
    ((List.erase_getElem inBounds).cons _)

/-- A completion moves the range of its entry from those in flight to those posted,
where it stays only if the entry is a read. -/
theorem toWrite_complete {ring : Ring FileOp} {index : Nat} {sqe : Sqe FileOp}
    (found : ring.inflight[index]? = some sqe) (res : Int) (peeked : List (Cqe FileOp)) :
    (toWrite ring peeked ++ ranges (reads [sqe])).Perm (sqe.op.range :: toWrite
      { ring with inflight := ring.inflight.eraseIdx index, cq := ring.cq ++ [⟨sqe, res⟩] }
      peeked) := by
  have moved := ((perm_eraseIdx found).map fun sqe : Sqe FileOp => sqe.op.range).count_eq
  refine List.perm_iff_count.2 fun a => ?_
  have := moved a
  simp only [toWrite, ranges, reads, List.map_append, List.filter_append, List.map_cons,
    List.count_append, List.count_cons, List.map_nil, List.filter_cons, List.filter_nil,
    List.append_assoc, List.singleton_append] at this ⊢
  split <;> simp only [List.map_cons, List.map_nil, List.count_cons, List.count_nil] at * <;>
    omega

/-- The kernel's completion of the `index`-th entry in flight: a read stays among the
ranges to write, and a write leaves them, giving way to what it wrote, a prefix of its
range when its result is no longer than it asked. -/
theorem Separated.complete {index : Nat} {res : Int} {sqe : Sqe FileOp} {ring' : Ring FileOp}
    (sep : Separated device peeked offset) (found : device.ring.inflight[index]? = some sqe)
    (done : device.ring.complete index res = some ring') (fits : res ≤ sqe.op.len) :
    Separated ⟨ring', device.written ++ Device.wrote sqe res⟩ peeked offset := by
  obtain ⟨sqe', found', rfl⟩ := Ring.complete_eq_some done
  obtain rfl : sqe = sqe' := Option.some.inj (found.symm.trans found')
  have moved := toWrite_complete found res peeked
  have posted : ∀ cqe ∈ (device.ring.cq ++ [⟨sqe, res⟩]) ++ peeked,
      cqe.res ≤ cqe.sqe.op.len := by
    intro cqe mem
    simp only [List.mem_append, List.mem_singleton] at mem
    rcases mem with (old | rfl) | old
    · exact sep.posted cqe (List.mem_append_left _ old)
    · exact fits
    · exact sep.posted cqe (List.mem_append_right _ old)
  cases op : sqe.op with
  | read o l =>
      have one : ranges (reads [sqe]) = [sqe.op.range] := by
        simp [reads, ranges, op, FileOp.isRead]
      have wrote : Device.wrote sqe res = [] := by simp [Device.wrote, op]
      rw [one] at moved
      have kept := ((List.perm_append_singleton _ _).symm.trans moved).cons_inv.append_left
        device.written
      rw [wrote, List.append_nil]
      exact ⟨kept.pairwise sep.apart Apart.symm, fun x mem => sep.below x (kept.mem_iff.2 mem),
        posted⟩
  | write o l =>
      have none : ranges (reads [sqe]) = [] := by simp [reads, ranges, op, FileOp.isRead]
      rw [none, List.append_nil] at moved
      obtain ⟨apart, below⟩ := separated_of_written sep.apart sep.below
        ((moved.append_left _).trans List.perm_middle) (wrote_shorter fits).1 (wrote_shorter fits).2
      exact ⟨apart, below, posted⟩

/-- The kernel's postings write within the ranges still to write. -/
theorem Separated.postAll (device : Device) (choices : List (Nat × Int))
    (sep : Separated device peeked offset) : Separated (device.postAll choices) peeked offset :=
  Device.postAll_of_completed (P := fun device => Separated device peeked offset)
    (fun _ _ _ _ _ sep found done fits => sep.complete found done fits) device choices sep

/-- The completions peeked leave the ring and are carried alongside. -/
theorem Separated.peek (sep : Separated device [] offset) :
    Separated ⟨{ device.ring with cq := [] }, device.written⟩ device.ring.cq offset := by
  have same : toWrite { device.ring with cq := [] } device.ring.cq = toWrite device.ring [] := by
    simp [toWrite]
  exact ⟨same ▸ sep.apart, same ▸ sep.below, by simpa using sep.posted⟩

/-- `peek_cqe` retiring the head completion leaves ranges to write out, and adds none. -/
theorem Separated.popCqe {cqe : Cqe FileOp} {ring : Ring FileOp}
    (sep : Separated device [] offset) (popped : device.ring.popCqe = some (cqe, ring)) :
    Separated { device with ring } [] offset := by
  obtain ⟨rest, headCqe, rfl⟩ := Ring.popCqe_eq_some popped
  have fewer : (device.written ++ toWrite { device.ring with cq := rest } []).Sublist
      (device.written ++ toWrite device.ring []) := by
    refine List.Sublist.append_left (List.Sublist.append_left ?_ _) _
    simp only [headCqe, List.append_nil, List.map_cons, ranges, reads]
    exact ((List.sublist_cons_self _ _).filter _).map _
  refine ⟨sep.apart.sublist fewer, fun x mem => sep.below x (fewer.subset mem),
    fun c mem => sep.posted c ?_⟩
  simp only [List.append_nil] at mem ⊢
  rw [headCqe]
  exact List.mem_cons_of_mem _ mem

theorem toWrite_prepare (ring : Ring FileOp) (sqe : Sqe FileOp) (peeked : List (Cqe FileOp)) :
    (toWrite { ring with prepared := ring.prepared ++ [sqe] } peeked).Perm
      (sqe.op.range :: toWrite ring peeked) := by
  refine List.perm_iff_count.2 fun a => ?_
  simp only [toWrite, ranges, List.map_append, List.count_append, List.map_cons,
    List.count_cons, List.map_nil, List.count_nil]
  omega

theorem toWrite_peeked (ring : Ring FileOp) (cqe : Cqe FileOp) (rest : List (Cqe FileOp)) :
    (toWrite ring (cqe :: rest)).Perm (ranges (reads [cqe.sqe]) ++ toWrite ring rest) := by
  refine List.perm_iff_count.2 fun a => ?_
  simp only [toWrite, ranges, reads, List.map_append, List.map_cons, List.filter_append,
    List.filter_cons, List.filter_nil, List.count_append]
  split <;> simp only [List.map_cons, List.map_nil, List.count_cons, List.count_nil] <;> omega

/-- Handling a read's completion: its range gives way to at most one prefix of it, the
write queued for it, and the ring's completion queue is left alone. -/
theorem Separated.readHandled {cqe : Cqe FileOp} {rest : List (Cqe FileOp)} {device' : Device}
    (sep : Separated device (cqe :: rest) offset)
    (read : cqe.sqe.op.isRead = true) (written : device'.written = device.written)
    (cq : device'.ring.cq = device.ring.cq) (fresh : List (Nat × Nat))
    (replaced : (toWrite device'.ring rest).Perm (fresh ++ toWrite device.ring rest))
    (prefixes : ∀ n ∈ fresh, n.1 = cqe.sqe.op.range.1 ∧ n.2 ≤ cqe.sqe.op.range.2)
    (single : fresh.length ≤ 1) :
    Separated device' rest offset := by
  have old : (device.written ++ toWrite device.ring (cqe :: rest)).Perm
      (cqe.sqe.op.range :: (device.written ++ toWrite device.ring rest)) := by
    have := toWrite_peeked device.ring cqe rest
    simp only [reads, ranges, List.filter_cons, read, if_true, List.filter_nil, List.map_cons,
      List.map_nil, List.singleton_append] at this
    exact (this.append_left _).trans List.perm_middle
  have new : (device'.written ++ toWrite device'.ring rest).Perm
      (fresh ++ (device.written ++ toWrite device.ring rest)) := by
    rw [written]
    exact (replaced.append_left _).trans (by
      rw [← List.append_assoc, ← List.append_assoc]
      exact List.perm_append_comm.append_right _)
  obtain ⟨apart, below⟩ := separated_of_shorter (old.pairwise sep.apart Apart.symm)
    (fun x mem => sep.below x (old.mem_iff.2 mem)) fresh prefixes single
  refine ⟨new.symm.pairwise apart Apart.symm, fun x mem => below x (new.mem_iff.1 mem),
    fun c mem => sep.posted c ?_⟩
  rw [cq] at mem
  rcases List.mem_append.1 mem with early | late
  · exact List.mem_append_left _ early
  · exact List.mem_append_right _ (List.mem_cons_of_mem _ late)

end Separated

section Copy

variable {fileSize : Nat} {kernel : Kernel} {st st' : Locals}

/-- `ring.submit()?` returning `Ok` moves entries within the ring and writes nothing. -/
theorem Separated.submitOk {peeked : List (Cqe FileOp)}
    (sep : Separated st.device peeked st.offset) (submitted : submit kernel st = .ok st') :
    Separated st'.device peeked st'.offset := by
  obtain ⟨consumed, -, rfl⟩ := submit_eq_ok submitted
  exact sep.submitted _

/-- Handling one completion peeked keeps the destination separated: a write's leaves
nothing to write, and a read's gives way to the write of what it read. -/
theorem Separated.completionHandled {cqe : Cqe FileOp} {rest : List (Cqe FileOp)}
    (tracked : Tracked fileSize st (cqe.sqe :: rest.map Cqe.sqe))
    (sep : Separated st.device (cqe :: rest) st.offset)
    (handled : handleCompletion kernel st (cqe.result, cqe.userData) = .ok st') :
    Separated st'.device rest st'.offset := by
  obtain ⟨op, mem, same⟩ :=
    List.mem_map.1 (tracked.live.subset (List.mem_append_right _ (List.mem_cons_self _ _)))
  have fits := sep.posted cqe (List.mem_append_right _ (List.mem_cons_self _ _))
  rw [Cqe.userData, ← same] at handled
  obtain ⟨positive, ⟨isRead, rfl⟩ | ⟨isRead, handled⟩⟩ :=
    handleCompletion_pending mem tracked.tags handled
  · have write : cqe.sqe.op.isRead = false := same ▸ (IoData.sqe_isRead op).trans isRead
    have peeled := toWrite_peeked st.device.ring cqe rest
    simp only [reads, ranges, List.filter_cons, write, Bool.false_eq_true, if_false,
      List.filter_nil, List.map_nil, List.nil_append] at peeled
    exact ⟨(peeled.append_left _).pairwise sep.apart Apart.symm,
      fun x mem => sep.below x ((peeled.append_left _).mem_iff.2 mem),
      fun c mem => sep.posted c (by
        rcases List.mem_append.1 mem with early | late
        · exact List.mem_append_left _ early
        · exact List.mem_append_right _ (List.mem_cons_of_mem _ late))⟩
  · refine Separated.submitOk ?_ handled
    have read : cqe.sqe.op.isRead = true := same ▸ (IoData.sqe_isRead op).trans isRead
    have range : cqe.sqe.op.range = op.range := same ▸ IoData.sqe_range op
    simp only [Cqe.result, ← same, IoData.sqe_len] at fits positive
    dsimp only
    cases got : st.device.ring.getSqe
        ⟨.write op.offset cqe.result.toNat, tagOf op.offset, false⟩ with
    | none =>
        exact sep.readHandled read rfl rfl [] (by simp) (by simp) (by simp)
    | some ring =>
        obtain ⟨-, rfl⟩ := Ring.getSqe_eq_some_iff.1 got
        exact sep.readHandled read rfl rfl [(op.offset, cqe.result.toNat)]
          (toWrite_prepare _ _ rest)
          (by
            simp only [List.mem_singleton, range, Cqe.result, IoData.range]
            rintro n rfl
            exact ⟨rfl, by omega⟩)
          (by simp)

/-- Handling all the completions peeked keeps the destination separated. -/
theorem Separated.completionsHandled {cqes : List (Cqe FileOp)}
    (tracked : Tracked fileSize st (cqes.map Cqe.sqe)) (sep : Separated st.device cqes st.offset)
    (handled : (cqes.map fun cqe => (cqe.result, cqe.userData)).foldlM
      (handleCompletion kernel) st = .ok st') :
    Separated st'.device [] st'.offset := by
  induction cqes generalizing st with
  | nil => exact (Except.ok.inj handled) ▸ sep
  | cons cqe rest ih =>
      rw [List.map_cons, List.foldlM_cons] at handled
      obtain ⟨mid, one, more⟩ := bind_eq_ok handled
      exact ih (tracked.completionHandled one) (sep.completionHandled tracked one) more

/-- The loop that queues reads moves `offset` past each read it queues. -/
theorem Separated.readsQueuedFor :
    ∀ turns (st : Locals), Separated st.device [] st.offset →
      Separated (queueReadsFor turns st).device [] (queueReadsFor turns st).offset
  | 0, _, sep => sep
  | turns + 1, st, sep => by
      simp only [queueReadsFor]
      split
      · split
        · exact sep
        · rename_i ring got
          obtain ⟨-, rfl⟩ := Ring.getSqe_eq_some_iff.1 got
          exact Separated.readsQueuedFor turns _ (sep.queueRead _ _)
      · exact sep

/-- Every iteration of the main loop keeps the destination separated. -/
theorem Separated.iterate (small : fileSize ≤ 2 ^ 64) (tracked : Tracked fileSize st [])
    (sep : Separated st.device [] st.offset) (iterated : iteration kernel st = .ok st') :
    Separated st'.device [] st'.offset := by
  have queued := (tracked.readsQueued small).1
  have sepQueued : Separated (queueReads st).device [] (queueReads st).offset :=
    Separated.readsQueuedFor _ st sep
  unfold iteration at iterated
  dsimp only at iterated
  split at iterated
  all_goals
    obtain ⟨st₁, submitted, handled⟩ := bind_eq_ok iterated
  · exact Separated.completionsHandled ((queued.submitted submitted).peek _ _)
      (Separated.postAll _ _ (sepQueued.submitOk submitted)).peek handled
  · cases submitted
    exact Separated.completionsHandled (queued.peek _ _) (Separated.postAll _ _ sepQueued).peek
      handled

theorem separated_start (fileSize : Nat) :
    Separated (start fileSize).device [] (start fileSize).offset :=
  ⟨.nil, fun _ mem => absurd mem (List.not_mem_nil _), fun _ mem => absurd mem (List.not_mem_nil _)⟩

theorem Reachable.separated (small : fileSize ≤ 2 ^ 64) (reach : Reachable kernel fileSize st) :
    Separated st.device [] st.offset := by
  induction reach with
  | init => exact separated_start fileSize
  | @step st st' _ reachSt stepped ih =>
      cases iterated : iteration kernel st with
      | error e => simp [iterated, Except.toOption] at stepped
      | ok next =>
          simp only [iterated, Except.toOption, Option.some.injEq] at stepped
          exact stepped ▸ ih.iterate small (Reachable.tracked small reachSt) iterated

/-- The wait for the remaining writes keeps the destination separated: the kernel's
postings write within their ranges, and popping a completion adds no range. -/
theorem Separated.remainingWaited {offset : Nat} :
    ∀ fuel (st : Locals), Separated st.device [] offset →
      waitRemaining kernel fuel st = some (.ok st') → Separated st'.device [] offset
  | 0, _, _, waited => by cases waited
  | fuel + 1, st, sep, waited => by
      unfold waitRemaining at waited
      split at waited
      · cases waited
        exact sep
      · dsimp only at waited
        have posted := Separated.postAll _ (kernel.completions st.rounds) sep
        split at waited
        · rename_i cqe ring popped
          split at waited
          · cases waited
          · exact Separated.remainingWaited fuel _ (posted.popCqe popped) waited
        · split at waited
          · cases waited
          · exact Separated.remainingWaited fuel _ posted waited

/-- What is written is part of what `Separated` keeps apart and below its bound. -/
theorem Separated.written {device : Device} {offset : Nat} (sep : Separated device [] offset) :
    device.written.Pairwise Apart ∧ ∀ r ∈ device.written, r.1 + r.2 ≤ offset :=
  ⟨sep.apart.sublist (List.sublist_append_left _ _),
    fun r mem => sep.below r (List.mem_append_left _ mem)⟩

theorem Separated.mono {device : Device} {offset offset' : Nat}
    (sep : Separated device [] offset) (le : offset ≤ offset') : Separated device [] offset' :=
  ⟨sep.apart, fun r mem => (sep.below r mem).trans le, sep.posted⟩

theorem Reachable.separated_file (small : fileSize ≤ 2 ^ 64)
    (reach : Reachable kernel fileSize st) : Separated st.device [] fileSize :=
  (reach.separated small).mono (by have := (reach.tracked small).toRead; omega)

/-- `copy_file` returns `Ok` only through a state its main loop reaches with every byte
read and counted written, and then the wait for the remaining writes. -/
theorem copyLoop_eq_ok :
    ∀ fuel (st : Locals), Reachable kernel fileSize st →
      copyLoop kernel fuel st = some (.ok st') →
      ∃ done fuel', Reachable kernel fileSize done ∧ done.bytesToRead = 0 ∧
        done.bytesToWrite = 0 ∧ waitRemaining kernel fuel' done = some (.ok st')
  | 0, _, _, looped => by cases looped
  | fuel + 1, st, reach, looped => by
      unfold copyLoop at looped
      split at looped
      · split at looped
        · cases looped
        · rename_i next iterated
          exact copyLoop_eq_ok fuel next
            (reach.step (e := ()) (by simp [iterated, Except.toOption])) looped
      · rename_i stop
        exact ⟨st, fuel, reach, by omega, by omega, looped⟩

end Copy

/-- On a source of at most `2^64` bytes, whatever the kernel does, `copy_file` writes no
byte of the destination twice and none past the source's end: at the start of every
iteration, and when it returns `Ok`, the ranges written are pairwise disjoint and
within the file. -/
theorem writes_apart {kernel : Kernel} {fileSize : Nat} (small : fileSize ≤ 2 ^ 64) :
    (∀ st, Reachable kernel fileSize st →
      st.device.written.Pairwise Apart ∧ ∀ r ∈ st.device.written, r.1 + r.2 ≤ fileSize) ∧
    ∀ fuel final, copyFile kernel fileSize fuel = some (.ok final) →
      final.device.written.Pairwise Apart ∧ ∀ r ∈ final.device.written, r.1 + r.2 ≤ fileSize :=
  ⟨fun _ reach => (reach.separated_file small).written, fun fuel _ copied => by
    obtain ⟨done, fuel', reach, -, -, waited⟩ := copyLoop_eq_ok fuel _ .init copied
    exact ((reach.separated_file small).remainingWaited fuel' done waited).written⟩

/-- Two bytes, read whole and written one byte short: `copy_file` returns `Ok` with the
first byte written once and nothing past the source. -/
theorem writes_apart_short_write :
    ∃ final, copyFile ⟨fun _ => .ok 64, fun round => [(0, if round = 0 then 2 else 1)],
        fun _ => none⟩ 2 8 = some (.ok final) ∧ final.device.written = [(0, 1)] ∧
      final.device.written.Pairwise Apart ∧ ∀ r ∈ final.device.written, r.1 + r.2 ≤ 2 := by
  have copied : copyFile ⟨fun _ => .ok 64, fun round => [(0, if round = 0 then 2 else 1)],
      fun _ => none⟩ 2 8 = _ := rfl
  exact ⟨_, copied, rfl, (writes_apart (by decide)).2 8 _ copied⟩

end IoUringCp

end Examples

end LiburingRs
