import LiburingRs.CompletionQueue

/-!
# The ring view refines liburing's indices

The wrappers and the examples are modelled over `Ring`, the FIFO view of the ring.
Here every run of the view is matched by a run of liburing's own index arithmetic:
the submission indices of `SqIndices` (`io_uring_get_sqe`, and the flush and the
kernel's consumption inside `io_uring_submit`) and the completion queue of
`CompletionQueue` (the kernel's postings, `peek_cqe` and the drop of its `Cqe`).

Each event of the view is simulated by the index steps the code performs for it, so
every state the view reaches is represented by index states that liburing reaches.
What the view says then holds of the indices the code reads: `space_left` is the room
left in the view, `io_uring_get_sqe` fails exactly when the view's `get_sqe` does, and
the records between the completion head and the tail are the view's completions.
-/

namespace LiburingRs

namespace Ring

variable {Op : Type}

/-- A call on the ring as the wrappers and the examples make it, or the kernel
completing the `index`-th entry in flight. -/
inductive Event (Op : Type) where
  | getSqe (sqe : Sqe Op)
  | submit (enter : Except Int Nat)
  | complete (index : Nat) (res : Int)
  | popCqe

/-- One event of the view; `none` where the call changes nothing: `get_sqe` on a full
queue, a completion of nothing in flight, `peek_cqe` on an empty queue. -/
def next (ring : Ring Op) : Event Op → Option (Ring Op)
  | .getSqe sqe => ring.getSqe sqe
  | .submit enter => some (ring.submit enter).1
  | .complete index res => ring.complete index res
  | .popCqe => ring.popCqe.map Prod.snd

/-- The view states reachable from a ring set up with `entries` entries. -/
abbrev Reachable (entries : Nat) : Ring Op → Prop := LiburingRs.Reachable next (empty entries)

variable {ring : Ring Op}

/-- Retiring the first `n` completions, one `peek_cqe` at a time, keeps the view
reachable. -/
theorem Reachable.drop_cq {entries : Nat} (reach : Reachable entries ring) :
    ∀ n, Reachable entries { ring with cq := ring.cq.drop n }
  | 0 => reach
  | n + 1 => by
      have before := reach.drop_cq n
      rw [← List.tail_drop]
      cases after : ring.cq.drop n with
      | nil => rwa [after] at before
      | cons cqe rest =>
          rw [after] at before
          exact before.step (e := .popCqe) rfl

/-- Retiring a prefix of the completion queue keeps the view reachable. -/
theorem Reachable.retire {entries : Nat} {retired rest : List (Cqe Op)}
    (reach : Reachable entries ring) (split : retired ++ rest = ring.cq) :
    Reachable entries { ring with cq := rest } := by
  have dropped := reach.drop_cq retired.length
  rwa [← split, List.drop_left] at dropped

/-- liburing's indices: those of the submission ring, and the completion queue with
its `Cqe` handles. -/
structure Indices (Op : Type) where
  sq : SqIndices
  cq : CompletionQueue (Cqe Op)

/-- The indices are reachable by liburing's own steps and represent the view on both
sides. -/
structure Indices.Represents (ix : Indices Op) (ring : Ring Op) : Prop where
  sq_reach : SqIndices.Reachable ix.sq
  cq_reach : CompletionQueue.Reachable ix.cq
  sq_abstracts : Abstracts ix.sq ring
  cq_abstracts : CompletionQueue.Abstracts ix.cq ring

variable {ix : Indices Op} {ring' : Ring Op}

theorem represents_empty {k : Nat} (small : 2 ^ k ≤ maxEntries) :
    (⟨SqIndices.init k, CompletionQueue.empty⟩ : Indices Op).Represents (empty (2 ^ k)) := by
  refine ⟨.init small, .init, ⟨SqIndices.valid_init small, by simp [SqIndices.init, empty],
    by simp [SqIndices.init, empty], ?_⟩, ⟨rfl, rfl⟩⟩
  simp only [maxEntries] at small
  rw [SqIndices.init, BitVec.toNat_ofNat, Nat.mod_eq_of_lt (by omega)]
  rfl

/-- A step that leaves the submission side of the view alone keeps the submission
indices representing it. -/
theorem Abstracts.of_submission_eq {sq : SqIndices} (abs : Abstracts sq ring)
    (published : ring'.published = ring.published) (prepared : ring'.prepared = ring.prepared)
    (entries : ring'.entries = ring.entries) : Abstracts sq ring' :=
  ⟨abs.valid, published ▸ abs.published, prepared ▸ abs.prepared, entries ▸ abs.entries⟩

/-- Every event of the view is simulated by the index steps the code takes for it:
`get_sqe`; the flush and the kernel's consumption; the kernel's posting; `peek_cqe`
and the drop of its `Cqe`. -/
theorem Indices.Represents.step {e : Event Op} (rep : ix.Represents ring)
    (stepped : ring.next e = some ring') : ∃ ix' : Indices Op, ix'.Represents ring' := by
  have sqAbs := rep.sq_abstracts
  have cqAbs := rep.cq_abstracts
  cases e with
  | getSqe sqe =>
      obtain ⟨fits, rfl⟩ := getSqe_eq_some_iff.1 stepped
      obtain ⟨taken, got, abs'⟩ := sqAbs.getSqe_of_fits sqe fits
      exact ⟨⟨taken.2, ix.cq⟩, rep.sq_reach.step (.getSqe got), rep.cq_reach, abs',
        ⟨cqAbs.free, cqAbs.pending⟩⟩
  | submit enter =>
      cases stepped
      have cqAbs' : CompletionQueue.Abstracts ix.cq (ring.submit enter).1 := by
        cases enter <;> exact ⟨cqAbs.free, cqAbs.pending⟩
      cases enter with
      | error errno =>
          exact ⟨⟨(ix.sq.flush).2, ix.cq⟩, rep.sq_reach.step (.flush _), rep.cq_reach,
            sqAbs.flush, cqAbs'⟩
      | ok consumed =>
          have flushed := rep.sq_reach.step (.flush _)
          exact ⟨⟨_, ix.cq⟩, flushed.step (.consume _ (min_le_right _ _)), rep.cq_reach,
            sqAbs.flush.consume consumed, cqAbs'⟩
  | complete index res =>
      obtain ⟨record, cq', posted, abs'⟩ := cqAbs.complete rep.cq_reach.inv stepped
      obtain ⟨sqe, -, rfl⟩ := complete_eq_some stepped
      exact ⟨⟨ix.sq, cq'⟩, rep.sq_reach, rep.cq_reach.step posted,
        sqAbs.of_submission_eq rfl rfl rfl, abs'⟩
  | popCqe =>
      obtain ⟨⟨cqe, popped⟩, found, rfl⟩ := Option.map_eq_some'.1 stepped
      obtain ⟨rest, headCqe, rfl⟩ := popCqe_eq_some found
      obtain ⟨-, cq', dropped, abs'⟩ := cqAbs.dropCqe found
      have peeked := rep.cq_reach.step (cqAbs.peekCqe (by simp [headCqe]))
      exact ⟨⟨ix.sq, cq'⟩, rep.sq_reach, peeked.step dropped,
        sqAbs.of_submission_eq rfl rfl rfl, abs'⟩

theorem Reachable.represented {k : Nat} (small : 2 ^ k ≤ maxEntries)
    (reach : Reachable (2 ^ k) ring) : ∃ ix : Indices Op, ix.Represents ring := by
  induction reach with
  | init => exact ⟨_, represents_empty small⟩
  | step _ stepped ih =>
      obtain ⟨ix, rep⟩ := ih
      exact rep.step stepped

/-- In every state the view reaches from a ring of `2 ^ k` entries, liburing's indices,
reached by its own steps, agree with the view: `space_left` computes the view's free
room without underflow, `io_uring_get_sqe` fails exactly when the view's `get_sqe`
does, and the records from the completion head to the tail are the view's
completions, with no `Cqe` live. -/
theorem indices_agree_of_reachable {k : Nat} (small : 2 ^ k ≤ maxEntries)
    (reach : Reachable (2 ^ k) ring) :
    ∃ ix : Indices Op, SqIndices.Reachable ix.sq ∧ CompletionQueue.Reachable ix.cq ∧
      (∃ space, ix.sq.spaceLeft = some space ∧
        space.toNat = ring.entries - (ring.published.length + ring.prepared.length)) ∧
      (∀ sqe, ix.sq.getSqe = none ↔ ring.getSqe sqe = none) ∧
      ix.cq.posted.drop ix.cq.head = ring.cq ∧ ix.cq.handle = none := by
  obtain ⟨ix, rep⟩ := reach.represented small
  have abs := rep.sq_abstracts
  refine ⟨ix, rep.sq_reach, rep.cq_reach, ⟨_, SqIndices.spaceLeft_eq abs.valid, ?_⟩,
    abs.getSqe_eq_none_iff, rep.cq_abstracts.pending, rep.cq_abstracts.free⟩
  rw [SqIndices.spaceLeft_toNat abs.valid, abs.entries, abs.pending]

/-- A NOP taken, submitted and completed on a ring of eight entries, with a second
entry prepared. -/
theorem indices_agree_nop :
    ∃ ring : Ring Unit, Reachable (2 ^ 3) ring ∧ ring.cq ≠ [] ∧ ring.prepared ≠ [] ∧
      ∃ ix : Indices Unit, SqIndices.Reachable ix.sq ∧ CompletionQueue.Reachable ix.cq ∧
        (∃ space, ix.sq.spaceLeft = some space ∧
          space.toNat = ring.entries - (ring.published.length + ring.prepared.length)) ∧
        (∀ sqe, ix.sq.getSqe = none ↔ ring.getSqe sqe = none) ∧
        ix.cq.posted.drop ix.cq.head = ring.cq ∧ ix.cq.handle = none := by
  have reach := LiburingRs.Reachable.run (Reachable.init : Reachable (2 ^ 3) (empty 8))
    (rfl : run next (empty 8 : Ring Unit) [.getSqe ⟨(), 1, false⟩, .submit (.ok 1),
      .complete 0 0, .getSqe ⟨(), 2, false⟩] = _)
  exact ⟨_, reach, by decide, by decide, indices_agree_of_reachable (by decide) reach⟩

end Ring

end LiburingRs
