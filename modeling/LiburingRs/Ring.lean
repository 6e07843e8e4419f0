import LiburingRs.SubmissionQueue

/-!
# The ring as its users see it

The asynchronous wrappers and the examples use the ring through five calls:
`get_sqe` (followed by filling the slot), `IoUring::submit`, `submit_and_wait`,
`peek_cqe` with the returned `Cqe` dropped, and `wait_cqe`.  Here the ring is a FIFO view of the
entries between the indices: entries prepared but not yet published, entries
published but not yet consumed by the kernel, entries the kernel consumed and
has not completed, and completions posted but not yet retired.

The kernel completes consumed entries in any order.  The submission side of this
view is refined by the index model: a valid index state whose differences are the
lengths of the two submission lists makes `get_sqe`, the flush in `submit` and the
kernel's consumption agree step by step.
-/

namespace LiburingRs

/-- The ring: submission ring size, prepared and published entries, entries in
flight in the kernel, and the completion queue from head to tail. -/
structure Ring (Op : Type) where
  entries : Nat
  prepared : List (Sqe Op)
  published : List (Sqe Op)
  inflight : List (Sqe Op)
  cq : List (Cqe Op)
  deriving DecidableEq, Repr

namespace Ring

variable {Op : Type}

/-- A freshly set up ring with `entries` submission entries. -/
def empty (entries : Nat) : Ring Op := ⟨entries, [], [], [], []⟩

/-- `SubmissionQueue::get_sqe` followed by the `PrepareOp::prepare`, `set_user_data`
and `set_flags` calls that fill the slot it returns; `none` when the queue is full. -/
def getSqe (sqe : Sqe Op) (ring : Ring Op) : Option (Ring Op) :=
  if ring.published.length + ring.prepared.length < ring.entries then
    some { ring with prepared := ring.prepared ++ [sqe] }
  else none

/-- `IoUring::submit` (liburing's `io_uring_submit`): publish the prepared entries,
then `io_uring_enter`, in which the kernel consumes the first `consumed` published
entries (`enter = .ok consumed`) or fails with an OS error (`enter = .error errno`).
A failed enter leaves the published entries for a later submit. -/
def submit (enter : Except Int Nat) (ring : Ring Op) : Ring Op × Except Error Nat :=
  let published := ring.published ++ ring.prepared
  match enter with
  | .error errno => ({ ring with prepared := [], published }, .error (.io errno))
  | .ok consumed =>
      ({ ring with prepared := [], published := published.drop consumed,
                   inflight := ring.inflight ++ published.take consumed },
       .ok (published.take consumed).length)

/-- The kernel completes the `index`-th entry in flight with result `res` and posts
its completion at the tail of the completion queue. -/
def complete (index : Nat) (res : Int) (ring : Ring Op) : Option (Ring Op) :=
  match ring.inflight[index]? with
  | none => none
  | some sqe => some { ring with inflight := ring.inflight.eraseIdx index,
                                 cq := ring.cq ++ [⟨sqe, res⟩] }

/-- `CompletionQueue::peek_cqe` with the returned `Cqe` dropped at once: the head
completion, retired by `io_uring_cqe_seen`. -/
def popCqe (ring : Ring Op) : Option (Cqe Op × Ring Op) :=
  match ring.cq with
  | [] => none
  | cqe :: rest => some (cqe, { ring with cq := rest })

/-- `CompletionQueue::wait_cqe` with the returned `Cqe` dropped at the end of its
scope: the head completion, retired.  On an empty queue the call blocks in the kernel,
and fails when `failure = some errno`; otherwise it is still waiting (`none`). -/
def waitCqe (failure : Option Int) (ring : Ring Op) :
    Option (Except Error (Cqe Op × Ring Op)) :=
  match ring.popCqe with
  | some popped => some (.ok popped)
  | none => failure.map fun errno => .error (.io errno)

/-- `IoUring::submit_and_wait(wait_nr)` and `SubmissionQueue::submit_and_wait`
(liburing's `io_uring_submit_and_wait`): `submit`, after which `io_uring_enter` waits
until the completion queue holds `wait_nr` completions, the kernel completing entries
in flight meanwhile (`kernel`).  When what the kernel completes falls short, the call
is still waiting (`none`). -/
def submitAndWait (enter : Except Int Nat) (kernel : Ring Op → Ring Op) (waitNr : Nat)
    (ring : Ring Op) : Option (Ring Op × Except Error Nat) :=
  match ring.submit enter with
  | (ring, .error e) => some (ring, .error e)
  | (ring, .ok n) =>
      let ring := kernel ring
      if waitNr ≤ ring.cq.length then some (ring, .ok n) else none

/-- Every entry of the ring that has not been retired, in submission-side order. -/
def live (ring : Ring Op) : List (Sqe Op) :=
  ring.cq.map Cqe.sqe ++ ring.inflight ++ ring.published ++ ring.prepared

@[simp]
theorem empty_live (entries : Nat) : (empty entries : Ring Op).live = [] :=
  rfl

theorem getSqe_eq_some_iff {sqe : Sqe Op} {ring ring' : Ring Op} :
    ring.getSqe sqe = some ring' ↔
      ring.published.length + ring.prepared.length < ring.entries ∧
        ring' = { ring with prepared := ring.prepared ++ [sqe] } := by
  unfold getSqe
  split <;> simp_all [eq_comm]

theorem getSqe_live {sqe : Sqe Op} {ring ring' : Ring Op} (got : ring.getSqe sqe = some ring') :
    ring'.live = ring.live ++ [sqe] := by
  obtain ⟨-, rfl⟩ := getSqe_eq_some_iff.1 got
  simp [live]

@[simp]
theorem submit_live (enter : Except Int Nat) (ring : Ring Op) :
    (ring.submit enter).1.live = ring.live := by
  cases enter <;> simp [submit, live]

@[simp]
theorem submit_cq (enter : Except Int Nat) (ring : Ring Op) :
    (ring.submit enter).1.cq = ring.cq := by
  cases enter <;> rfl

@[simp]
theorem submit_entries (enter : Except Int Nat) (ring : Ring Op) :
    (ring.submit enter).1.entries = ring.entries := by
  cases enter <;> rfl

/-- An enter in which the kernel consumes at least every entry handed to it leaves
nothing prepared or published. -/
theorem submit_consumes_all {consumed : Nat} {ring : Ring Op}
    (all : ring.published.length + ring.prepared.length ≤ consumed) :
    (ring.submit (.ok consumed)).1.published = [] ∧ (ring.submit (.ok consumed)).1.prepared = [] :=
  ⟨List.drop_eq_nil_of_le (by simpa using all), rfl⟩

/-- The kernel's completion moves an entry from the in-flight list to the completion
queue and leaves the rest of the ring as it was. -/
theorem complete_eq_some {index : Nat} {res : Int} {ring ring' : Ring Op}
    (done : ring.complete index res = some ring') :
    ∃ sqe, ring.inflight[index]? = some sqe ∧
      ring' = { ring with inflight := ring.inflight.eraseIdx index,
                          cq := ring.cq ++ [⟨sqe, res⟩] } := by
  unfold complete at done
  split at done
  · cases done
  · rename_i sqe found
    cases done
    exact ⟨sqe, found, rfl⟩

/-- A completion only moves an entry within the live entries. -/
theorem complete_live {index : Nat} {res : Int} {ring ring' : Ring Op}
    (done : ring.complete index res = some ring') : ring'.live.Perm ring.live := by
  obtain ⟨sqe, found, rfl⟩ := complete_eq_some done
  obtain ⟨inBounds, rfl⟩ := List.getElem?_eq_some_iff.1 found
  have split : ring.inflight =
      ring.inflight.take index ++ ring.inflight[index] :: ring.inflight.drop (index + 1) := by
    rw [List.getElem_cons_drop, List.take_append_drop]
  simp only [live, List.map_append, List.map_cons, List.map_nil, List.append_assoc,
    List.singleton_append]
  refine List.Perm.append_left _ ?_
  rw [List.eraseIdx_eq_take_drop_succ]
  conv => rhs; rw [split]
  simp only [List.append_assoc, List.cons_append]
  exact List.perm_middle.symm

/-- Popping takes the head of the completion queue and changes nothing else. -/
theorem popCqe_eq_some {cqe : Cqe Op} {ring ring' : Ring Op}
    (popped : ring.popCqe = some (cqe, ring')) :
    ∃ rest, ring.cq = cqe :: rest ∧ ring' = { ring with cq := rest } := by
  unfold popCqe at popped
  split at popped
  · cases popped
  · rename_i first rest headCqe
    cases popped
    exact ⟨rest, headCqe, rfl⟩

/-- Popping moves the head completion out of the live entries. -/
theorem popCqe_live {cqe : Cqe Op} {ring ring' : Ring Op}
    (popped : ring.popCqe = some (cqe, ring')) :
    ring.live = cqe.sqe :: ring'.live := by
  obtain ⟨rest, headCqe, rfl⟩ := popCqe_eq_some popped
  simp [live, headCqe]

/-- A ring with nothing live is as `IoUring::new` set it up. -/
theorem eq_empty_of_live_nil {ring : Ring Op} (idle : ring.live = []) :
    ring = empty ring.entries := by
  obtain ⟨entries, prepared, published, inflight, cq⟩ := ring
  simp only [live, List.append_eq_nil, List.map_eq_nil_iff] at idle
  obtain ⟨⟨⟨rfl, rfl⟩, rfl⟩, rfl⟩ := idle
  rfl

/-- What the kernel's completions keep of the ring: its size, its prepared and published
entries, and its live entries up to order. -/
structure Keeps (ring ring' : Ring Op) : Prop where
  entries : ring'.entries = ring.entries
  published : ring'.published = ring.published
  prepared : ring'.prepared = ring.prepared
  live : ring'.live.Perm ring.live

theorem Keeps.refl (ring : Ring Op) : Keeps ring ring :=
  ⟨rfl, rfl, rfl, .refl _⟩

theorem Keeps.trans {ring ring' ring'' : Ring Op} (first : Keeps ring ring')
    (second : Keeps ring' ring'') : Keeps ring ring'' :=
  ⟨second.entries.trans first.entries, second.published.trans first.published,
    second.prepared.trans first.prepared, second.live.trans first.live⟩

/-- A completion the kernel makes, or cannot make, keeps the ring. -/
theorem keeps_complete (ring : Ring Op) (index : Nat) (res : Int) :
    Keeps ring ((ring.complete index res).getD ring) := by
  cases done : ring.complete index res with
  | none => exact .refl ring
  | some ring' =>
      have moved := complete_live done
      obtain ⟨sqe, -, rfl⟩ := complete_eq_some done
      exact ⟨rfl, rfl, rfl, moved⟩

/-- A successful `io_uring_enter` makes `submit` return `Ok`. -/
theorem submit_ok (consumed : Nat) (ring : Ring Op) :
    (ring.submit (.ok consumed)).2 =
      .ok (((ring.published ++ ring.prepared).take consumed).length) :=
  rfl

/-- The index state `sq` represents the submission side of `ring`: the published and
the prepared entries are counted by the cyclic differences of the indices. -/
structure Abstracts (sq : SqIndices) (ring : Ring Op) : Prop where
  valid : sq.Valid
  published : (sq.ktail - sq.khead).toNat = ring.published.length
  prepared : (sq.sqeTail - sq.ktail).toNat = ring.prepared.length
  entries : sq.ringEntries.toNat = ring.entries

variable {sq : SqIndices} {ring : Ring Op}

theorem Abstracts.pending (abs : Abstracts sq ring) :
    (sq.sqeTail - sq.khead).toNat = ring.published.length + ring.prepared.length := by
  rw [← abs.published, ← abs.prepared]
  exact abs.valid.pending_eq

theorem Abstracts.getSqe_eq_none_iff (abs : Abstracts sq ring) (sqe : Sqe Op) :
    sq.getSqe = none ↔ ring.getSqe sqe = none := by
  rw [SqIndices.getSqe_eq_none_iff abs.valid, abs.pending, abs.entries]
  unfold Ring.getSqe
  split <;> simp_all

/-- Where the view has room, `get_sqe` on the indices hands out an entry, after which
the indices represent the view with the new entry prepared. -/
theorem Abstracts.getSqe_of_fits (abs : Abstracts sq ring) (sqe : Sqe Op)
    (fits : ring.published.length + ring.prepared.length < ring.entries) :
    ∃ taken, sq.getSqe = some taken ∧
      Abstracts taken.2 { ring with prepared := ring.prepared ++ [sqe] } := by
  have fitsIndices : (sq.sqeTail - sq.khead).toNat < sq.ringEntries.toNat := by
    rw [abs.pending, abs.entries]
    exact fits
  have got := SqIndices.getSqe_eq_some abs.valid fitsIndices
  have grows := SqIndices.pending_succ abs.valid fitsIndices
  have publishedLe := abs.valid.published_le
  refine ⟨_, got, SqIndices.valid_getSqe abs.valid got, abs.published, ?_, abs.entries⟩
  simp only [List.length_append, List.length_singleton, ← abs.prepared] at grows ⊢
  bv_omega

/-- `get_sqe` on the indices succeeds exactly when it succeeds on the view, and the
two results still correspond. -/
theorem Abstracts.getSqe (abs : Abstracts sq ring) (sqe : Sqe Op) :
    (sq.getSqe = none ↔ ring.getSqe sqe = none) ∧
      ∀ taken, sq.getSqe = some taken →
        ∃ ring', ring.getSqe sqe = some ring' ∧ Abstracts taken.2 ring' := by
  refine ⟨abs.getSqe_eq_none_iff sqe, fun taken got => ?_⟩
  have fits : ring.published.length + ring.prepared.length < ring.entries := by
    by_contra full
    have failed := (abs.getSqe_eq_none_iff sqe).2 (if_neg full)
    rw [got] at failed
    cases failed
  obtain ⟨taken', got', abs'⟩ := abs.getSqe_of_fits sqe fits
  cases got.symm.trans got'
  exact ⟨_, if_pos fits, abs'⟩

/-- Indices that have wrapped, with one entry published and one prepared on a ring of
four. -/
theorem getSqe_abstracts_wrapped :
    ((⟨0xFFFFFFFE, 0xFFFFFFFF, 0, 4, 3⟩ : SqIndices).getSqe = none ↔
        (⟨4, [⟨(), 2, false⟩], [⟨(), 1, false⟩], [], []⟩ : Ring Unit).getSqe ⟨(), 3, false⟩ =
          none) ∧
      ∀ taken, (⟨0xFFFFFFFE, 0xFFFFFFFF, 0, 4, 3⟩ : SqIndices).getSqe = some taken →
        ∃ ring',
          (⟨4, [⟨(), 2, false⟩], [⟨(), 1, false⟩], [], []⟩ : Ring Unit).getSqe ⟨(), 3, false⟩ =
            some ring' ∧ Abstracts taken.2 ring' :=
  Abstracts.getSqe ⟨⟨by decide, by decide, by decide⟩, by decide, by decide, by decide⟩ _

/-- The flush publishes the prepared entries. -/
theorem Abstracts.flush (abs : Abstracts sq ring) :
    Abstracts (sq.flush).2
      { ring with prepared := [], published := ring.published ++ ring.prepared } := by
  refine ⟨SqIndices.valid_flush abs.valid, ?_, by simp [SqIndices.flush], abs.entries⟩
  rw [List.length_append, ← abs.pending]
  rfl

/-- The kernel consumes the first `n` published entries, all of them when fewer are
published. -/
theorem Abstracts.consume (abs : Abstracts sq ring) (n : Nat) :
    Abstracts (sq.consume (min n (sq.ktail - sq.khead).toNat))
      { ring with published := ring.published.drop n,
                  inflight := ring.inflight ++ ring.published.take n } := by
  have published := SqIndices.published_consume (min_le_right n (sq.ktail - sq.khead).toNat)
  refine ⟨SqIndices.valid_consume abs.valid (min_le_right _ _), ?_, abs.prepared, abs.entries⟩
  rw [published, abs.published, List.length_drop]
  omega

/-- `io_uring_submit` on the indices (flush, then the kernel consumes) corresponds to
`submit` on the view, for every outcome of `io_uring_enter`. -/
theorem Abstracts.submit (abs : Abstracts sq ring) (enter : Except Int Nat) :
    Abstracts
      (match enter with
        | .error _ => (sq.flush).2
        | .ok consumed =>
            SqIndices.consume (min consumed (sq.sqeTail - sq.khead).toNat) (sq.flush).2)
      (ring.submit enter).1 := by
  cases enter with
  | error errno => exact abs.flush
  | ok consumed => exact abs.flush.consume consumed

/-- The wrapped indices, with an enter in which the kernel consumes one of the two
pending entries. -/
theorem submit_abstracts_wrapped :
    Abstracts
      (SqIndices.consume (min 1 ((0 : BitVec 32) - 0xFFFFFFFE).toNat)
        (SqIndices.flush ⟨0xFFFFFFFE, 0xFFFFFFFF, 0, 4, 3⟩).2)
      ((⟨4, [⟨(), 2, false⟩], [⟨(), 1, false⟩], [], []⟩ : Ring Unit).submit (.ok 1)).1 :=
  @Abstracts.submit Unit ⟨0xFFFFFFFE, 0xFFFFFFFF, 0, 4, 3⟩
    ⟨4, [⟨(), 2, false⟩], [⟨(), 1, false⟩], [], []⟩
    ⟨⟨by decide, by decide, by decide⟩, by decide, by decide, by decide⟩ (.ok 1)

end Ring

end LiburingRs
