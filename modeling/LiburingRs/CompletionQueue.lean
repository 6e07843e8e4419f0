import LiburingRs.Ring

/-!
# The completion queue and its `Cqe` handles

`CompletionQueue` reads liburing's completion ring through three calls.
`io_uring_peek_cqe` returns the record at the head when the head is behind the tail.
`io_uring_wait_cqe_timeout` does the same, and blocks on an empty ring until the
kernel posts or the wait fails.  `io_uring_peek_batch_cqe` fills up to `count`
pointers with the records from the head on, and does not move the head.  The first
two calls wrap the record in a `Cqe`, whose drop calls `io_uring_cqe_seen`: that
moves the head by one.  A `Cqe` borrows the queue mutably, so no other call is made
on the queue while one is live.

The records are indexed by their position in the sequence the kernel posted, so the
tail is the number of records posted.  As ghost state the model keeps the records
handed out in a `Cqe`, those handed out by `peek_batch`, and those retired.

Records handed out in a `Cqe` are handed out once each, in posting order, and each is
retired exactly once, by the drop of its `Cqe`.  `peek_batch` retires nothing, so the
records it hands out are handed out again by the next `peek_cqe`.
-/

namespace LiburingRs

/-- The completion ring as `CompletionQueue` sees it: the records posted (the tail is
their number), the head, the record of the live `Cqe` if there is one, and the ghost
histories. -/
structure CompletionQueue (Rec : Type) where
  posted : List Rec
  head : Nat
  handle : Option Nat
  byHandle : List Nat
  byBatch : List Nat
  retired : List Nat
  deriving DecidableEq, Repr

/-- The kernel posts a record, or the caller calls `wait_cqe` (which fails with
`failure = some errno` when it has to wait), `peek_cqe` or `peek_batch` with a slice of
`count` pointers, or drops the live `Cqe`. -/
inductive CqEvent (Rec : Type) where
  | post (record : Rec)
  | waitCqe (failure : Option Int)
  | peekCqe
  | peekBatch (count : Nat)
  | dropCqe

namespace CompletionQueue

variable {Rec : Type}

/-- A fresh completion ring. -/
def empty : CompletionQueue Rec := ⟨[], 0, none, [], [], []⟩

/-- The tail index. -/
def tail (cq : CompletionQueue Rec) : Nat := cq.posted.length

/-- The record at the head, wrapped in a `Cqe`. -/
def handOut (cq : CompletionQueue Rec) : CompletionQueue Rec :=
  { cq with handle := some cq.head, byHandle := cq.byHandle ++ [cq.head] }

/-- One event; `none` when it cannot happen: a call while a `Cqe` is live, a drop with
none live, or a wait that blocks. -/
def next (cq : CompletionQueue Rec) : CqEvent Rec → Option (CompletionQueue Rec)
  | .post record => some { cq with posted := cq.posted ++ [record] }
  | .waitCqe failure =>
      if cq.handle.isSome then none
      else if cq.head < cq.tail then some cq.handOut
      else failure.map fun _ => cq
  | .peekCqe =>
      if cq.handle.isSome then none
      else some (if cq.head < cq.tail then cq.handOut else cq)
  | .peekBatch count =>
      if cq.handle.isSome then none
      else
        some { cq with
          byBatch := cq.byBatch ++ List.range' cq.head (min count (cq.tail - cq.head)) }
  | .dropCqe =>
      cq.handle.map fun _ =>
        { cq with head := cq.head + 1, handle := none, retired := cq.retired ++ [cq.head] }

/-- The invariant of the handles: the head is within the posted records, the live
`Cqe` holds the head record, the records retired are those below the head, in order,
and the records handed out in a `Cqe` are those plus the live one. -/
structure Inv (cq : CompletionQueue Rec) : Prop where
  head_le : cq.head ≤ cq.tail
  handle_head : ∀ index ∈ cq.handle, index = cq.head ∧ cq.head < cq.tail
  retired_eq : cq.retired = List.range cq.head
  byHandle_eq : cq.byHandle = List.range cq.head ++ cq.handle.toList

theorem inv_empty : (empty : CompletionQueue Rec).Inv :=
  ⟨le_rfl, by simp [empty], rfl, rfl⟩

variable {cq cq' : CompletionQueue Rec}

theorem Inv.handOut (inv : cq.Inv) (free : cq.handle = none) (behind : cq.head < cq.tail) :
    cq.handOut.Inv :=
  ⟨inv.head_le, fun _ mem => ⟨(Option.some.inj mem).symm, behind⟩, inv.retired_eq,
    by simp [CompletionQueue.handOut, inv.byHandle_eq, free]⟩

theorem Inv.step {e : CqEvent Rec} (inv : cq.Inv) (stepped : cq.next e = some cq') : cq'.Inv := by
  cases e with
  | post record =>
      cases stepped
      have grown :
          cq.tail ≤ ({ cq with posted := cq.posted ++ [record] } : CompletionQueue Rec).tail := by
        simp [tail]
      refine ⟨inv.head_le.trans grown, fun index mem => ?_, inv.retired_eq, inv.byHandle_eq⟩
      obtain ⟨rfl, behind⟩ := inv.handle_head index mem
      exact ⟨rfl, behind.trans_le grown⟩
  | waitCqe failure =>
      simp only [next] at stepped
      split at stepped
      · cases stepped
      · rename_i live
        split at stepped
        · cases stepped
          exact inv.handOut (by simpa using live) ‹_›
        · obtain ⟨_, -, rfl⟩ := Option.map_eq_some'.1 stepped
          exact inv
  | peekCqe =>
      simp only [next] at stepped
      split at stepped
      · cases stepped
      · rename_i live
        cases stepped
        split
        · exact inv.handOut (by simpa using live) ‹_›
        · exact inv
  | peekBatch count =>
      simp only [next] at stepped
      split at stepped
      · cases stepped
      · cases stepped
        exact ⟨inv.head_le, inv.handle_head, inv.retired_eq, inv.byHandle_eq⟩
  | dropCqe =>
      obtain ⟨index, live, rfl⟩ := Option.map_eq_some'.1 stepped
      obtain ⟨rfl, behind⟩ := inv.handle_head index live
      refine ⟨behind, by simp, by simp [inv.retired_eq, List.range_succ], ?_⟩
      simp [inv.byHandle_eq, live, List.range_succ]

/-- The states reachable from a fresh completion ring. -/
abbrev Reachable : CompletionQueue Rec → Prop := LiburingRs.Reachable next empty

theorem Reachable.inv (reach : Reachable cq) : cq.Inv := by
  induction reach with
  | init => exact inv_empty
  | step _ stepped ih => exact ih.step stepped

/-- The completion queue of the ring view `ring` is what `cq` still holds. -/
structure Abstracts {Op : Type} (cq : CompletionQueue (Cqe Op)) (ring : Ring Op) : Prop where
  free : cq.handle = none
  pending : cq.posted.drop cq.head = ring.cq

section Refinement

variable {Op : Type} {cq : CompletionQueue (Cqe Op)} {ring ring' : Ring Op} {cqe : Cqe Op}

theorem Abstracts.behind (abs : Abstracts cq ring) (nonempty : ring.cq ≠ []) :
    cq.head < cq.tail := by
  by_contra atTail
  exact nonempty (abs.pending ▸ List.drop_eq_nil_of_le (by simpa [tail] using atTail))

/-- On an empty view `peek_cqe` hands out nothing. -/
theorem Abstracts.popCqe_none (abs : Abstracts cq ring) (empty : ring.popCqe = none) :
    cq.next .peekCqe = some cq := by
  have atTail : cq.tail ≤ cq.head := by
    unfold Ring.popCqe at empty
    split at empty
    · rename_i noCqe
      simpa [tail, ← List.drop_eq_nil_iff, abs.pending] using noCqe
    · cases empty
  simp [next, abs.free, Nat.not_lt.2 atTail]

/-- The kernel's completion posts the completed entry on both levels. -/
theorem Abstracts.complete (inv : cq.Inv) (abs : Abstracts cq ring) {index : Nat} {res : Int}
    (done : ring.complete index res = some ring') :
    ∃ record cq', cq.next (.post record) = some cq' ∧ Abstracts cq' ring' := by
  obtain ⟨sqe, -, rfl⟩ := Ring.complete_eq_some done
  refine ⟨⟨sqe, res⟩, _, rfl, abs.free, ?_⟩
  rw [List.drop_append_of_le_length inv.head_le, abs.pending]

/-- Where the view holds a completion, `peek_cqe` wraps the head record in a `Cqe`. -/
theorem Abstracts.peekCqe (abs : Abstracts cq ring) (nonempty : ring.cq ≠ []) :
    cq.next .peekCqe = some cq.handOut := by
  simp [next, abs.free, abs.behind nonempty]

/-- The record `peek_cqe` wraps is the completion the view pops, and the drop of its
`Cqe` leaves the two corresponding. -/
theorem Abstracts.dropCqe (abs : Abstracts cq ring) (popped : ring.popCqe = some (cqe, ring')) :
    cq.posted[cq.head]? = some cqe ∧
      ∃ cq', cq.handOut.next .dropCqe = some cq' ∧ Abstracts cq' ring' := by
  obtain ⟨rest, headCqe, rfl⟩ := Ring.popCqe_eq_some popped
  refine ⟨?_, _, rfl, rfl, ?_⟩
  · rw [← List.head?_drop, abs.pending, headCqe, List.head?_cons]
  · show cq.posted.drop (cq.head + 1) = rest
    rw [← List.drop_drop, abs.pending, headCqe, List.drop_one, List.tail_cons]

/-- Where the view pops a completion, `peek_cqe` followed by the drop of its `Cqe`
hands out and retires that completion, and the two still correspond. -/
theorem Abstracts.popCqe_some (abs : Abstracts cq ring) (popped : ring.popCqe = some (cqe, ring')) :
    ∃ cq', ((cq.next .peekCqe).bind fun cq => cq.next .dropCqe) = some cq' ∧
      cq.posted[cq.head]? = some cqe ∧ Abstracts cq' ring' := by
  obtain ⟨rest, headCqe, -⟩ := Ring.popCqe_eq_some popped
  obtain ⟨record, cq', dropped, abs'⟩ := abs.dropCqe popped
  refine ⟨cq', ?_, record, abs'⟩
  rw [abs.peekCqe (by simp [headCqe]), Option.some_bind, dropped]

/-- Two records posted, the first retired: the view holds the second. -/
theorem popCqe_some_second :
    ∃ cq',
      (((⟨[⟨⟨(), 1, false⟩, 0⟩, ⟨⟨(), 2, false⟩, 5⟩], 1, none, [0], [], [0]⟩ :
          CompletionQueue (Cqe Unit)).next .peekCqe).bind fun cq => cq.next .dropCqe) = some cq' ∧
      (⟨[⟨⟨(), 1, false⟩, 0⟩, ⟨⟨(), 2, false⟩, 5⟩], 1, none, [0], [], [0]⟩ :
          CompletionQueue (Cqe Unit)).posted[1]? = some ⟨⟨(), 2, false⟩, 5⟩ ∧
      Abstracts cq' ⟨4, [], [], [], []⟩ :=
  Abstracts.popCqe_some ⟨rfl, by rfl⟩
    (rfl : (⟨4, [], [], [], [⟨⟨(), 2, false⟩, 5⟩]⟩ : Ring Unit).popCqe = _)

end Refinement

end CompletionQueue

end LiburingRs
