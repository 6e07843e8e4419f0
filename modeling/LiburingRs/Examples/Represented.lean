import LiburingRs.Refinement
import LiburingRs.Examples.IoUringCpAccount
import LiburingRs.Examples.LinkCpAccount
import LiburingRs.Examples.Cat

/-!
# The examples' rings are represented by liburing's indices

The examples are modelled over the FIFO view of the ring, and every call they make on
it is an event of the view: `get_sqe`, `submit`, the kernel's completions, and
`peek_cqe` or `wait_cqe` with the `Cqe` dropped.  So every ring state their runs reach
is one the view reaches, whatever the kernel does, and by the refinement of the view
liburing's own submission indices and completion queue, reached by liburing's steps,
represent it.
-/

namespace LiburingRs

namespace Ring

variable {Op : Type} {entries : Nat} {ring : Ring Op}

theorem Reachable.getSqe_getD (reach : Reachable entries ring) (sqe : Sqe Op) :
    Reachable entries ((ring.getSqe sqe).getD ring) := by
  cases got : ring.getSqe sqe with
  | none => exact reach
  | some ring' => exact reach.step (e := Event.getSqe sqe) got

theorem Reachable.submitted (reach : Reachable entries ring) (enter : Except Int Nat) :
    Reachable entries (ring.submit enter).1 :=
  reach.step (e := Event.submit enter) rfl

theorem Reachable.complete_getD (reach : Reachable entries ring) (index : Nat) (res : Int) :
    Reachable entries ((ring.complete index res).getD ring) := by
  cases done : ring.complete index res with
  | none => exact reach
  | some ring' => exact reach.step (e := Event.complete index res) done

/-- Peeking every completion, each `Cqe` dropped, keeps the view reachable. -/
theorem Reachable.peeked (reach : Reachable entries ring) :
    Reachable entries { ring with cq := [] } := by
  have dropped := reach.drop_cq ring.cq.length
  rwa [List.drop_length] at dropped

end Ring

namespace Examples

theorem Device.reachable_postAll {entries : Nat} (device : Device) (choices : List (Nat × Int))
    (reach : Ring.Reachable entries device.ring) :
    Ring.Reachable entries (device.postAll choices).ring :=
  Device.postAll_of_complete (fun _ index res reach => reach.complete_getD index res) device
    choices reach

namespace IoUringCp

variable {kernel : Kernel} {st st' : Locals}

theorem ring_queueReadsFor :
    ∀ turns (st : Locals), Ring.Reachable queueDepth st.device.ring →
      Ring.Reachable queueDepth (queueReadsFor turns st).device.ring
  | 0, _, reach => reach
  | turns + 1, st, reach => by
      simp only [queueReadsFor]
      split
      · split
        · exact reach
        · rename_i ring got
          exact ring_queueReadsFor turns _ (reach.step (e := Ring.Event.getSqe _) got)
      · exact reach

theorem ring_submit (reach : Ring.Reachable queueDepth st.device.ring)
    (submitted : submit kernel st = .ok st') : Ring.Reachable queueDepth st'.device.ring := by
  obtain ⟨consumed, -, rfl⟩ := submit_eq_ok submitted
  exact reach.submitted _

theorem ring_handleCompletion {completion : Int × BitVec 64}
    (reach : Ring.Reachable queueDepth st.device.ring)
    (handled : handleCompletion kernel st completion = .ok st') :
    Ring.Reachable queueDepth st'.device.ring := by
  unfold handleCompletion at handled
  split at handled
  · cases handled
  · split at handled
    · cases handled
      exact reach
    · split at handled
      · exact ring_submit (reach.getSqe_getD _) handled
      · cases handled
        exact reach

theorem ring_completionsHandled :
    ∀ {completions : List (Int × BitVec 64)} {st : Locals},
      Ring.Reachable queueDepth st.device.ring →
      completions.foldlM (handleCompletion kernel) st = .ok st' →
      Ring.Reachable queueDepth st'.device.ring
  | [], _, reach, handled => (Except.ok.inj handled) ▸ reach
  | _ :: _, _, reach, handled => by
      rw [List.foldlM_cons] at handled
      obtain ⟨mid, one, more⟩ := bind_eq_ok handled
      exact ring_completionsHandled (ring_handleCompletion reach one) more

theorem ring_iteration (reach : Ring.Reachable queueDepth st.device.ring)
    (iterated : iteration kernel st = .ok st') : Ring.Reachable queueDepth st'.device.ring := by
  have queued : Ring.Reachable queueDepth (queueReads st).device.ring :=
    ring_queueReadsFor _ st reach
  unfold iteration at iterated
  dsimp only at iterated
  split at iterated
  all_goals
    obtain ⟨st₁, submitted, handled⟩ := bind_eq_ok iterated
  · exact ring_completionsHandled
      ((Device.reachable_postAll _ _ (ring_submit queued submitted)).peeked) handled
  · cases submitted
    exact ring_completionsHandled ((Device.reachable_postAll _ _ queued).peeked) handled

theorem Reachable.ring {fileSize : Nat} (reach : Reachable kernel fileSize st) :
    Ring.Reachable queueDepth st.device.ring := by
  induction reach with
  | init => exact .init
  | @step st st' _ _ stepped ih =>
      cases iterated : iteration kernel st with
      | error e => simp [iterated, Except.toOption] at stepped
      | ok next =>
          simp only [iterated, Except.toOption, Option.some.injEq] at stepped
          exact stepped ▸ ring_iteration ih iterated

end IoUringCp

namespace LinkCp

variable {kernel : Kernel} {fileSize : Nat} {st st' : Locals}

theorem ring_queuePairsFor :
    ∀ turns (st : Locals), Ring.Reachable queueDepth st.device.ring →
      Ring.Reachable queueDepth (queuePairsFor fileSize turns st).device.ring
  | 0, _, reach => reach
  | turns + 1, st, reach => by
      simp only [queuePairsFor]
      split
      · split
        · exact reach
        · rename_i ring got
          have first := reach.step (e := Ring.Event.getSqe _) got
          split
          · exact first
          · rename_i ring' got'
            exact ring_queuePairsFor turns _ (first.step (e := Ring.Event.getSqe _) got')
      · exact reach

theorem ring_submit (reach : Ring.Reachable queueDepth st.device.ring)
    (submitted : submit kernel st = .ok st') : Ring.Reachable queueDepth st'.device.ring := by
  obtain ⟨consumed, -, rfl⟩ := submit_eq_ok submitted
  exact reach.submitted _

theorem ring_completionsHandled :
    ∀ {completions : List (Int × BitVec 64)} {st : Locals},
      Ring.Reachable queueDepth st.device.ring →
      completions.foldlM handleCompletion st = .ok st' →
      Ring.Reachable queueDepth st'.device.ring
  | [], _, reach, handled => (Except.ok.inj handled) ▸ reach
  | _ :: _, _, reach, handled => by
      rw [List.foldlM_cons] at handled
      obtain ⟨mid, one, more⟩ := bind_eq_ok handled
      exact ring_completionsHandled ((handleCompletion_eq_ok one).1 ▸ reach) more

theorem ring_iteration (reach : Ring.Reachable queueDepth st.device.ring)
    (iterated : iteration kernel fileSize st = .ok st') :
    Ring.Reachable queueDepth st'.device.ring := by
  have queued : Ring.Reachable queueDepth (queuePairs fileSize st).device.ring :=
    ring_queuePairsFor _ st reach
  unfold iteration at iterated
  dsimp only at iterated
  split at iterated
  all_goals
    obtain ⟨st₁, submitted, handled⟩ := bind_eq_ok iterated
  · exact ring_completionsHandled
      ((Device.reachable_postAll _ _ (ring_submit queued submitted)).peeked) handled
  · cases submitted
    exact ring_completionsHandled ((Device.reachable_postAll _ _ queued).peeked) handled

theorem Reachable.ring (reach : Reachable kernel fileSize st) :
    Ring.Reachable queueDepth st.device.ring := by
  induction reach with
  | init => exact .init
  | @step st st' _ _ stepped ih =>
      cases iterated : iteration kernel fileSize st with
      | error e => simp [iterated, Except.toOption] at stepped
      | ok next =>
          simp only [iterated, Except.toOption, Option.some.injEq] at stepped
          exact stepped ▸ ring_iteration ih iterated

end LinkCp

/-- In every run of `io_uring-cp`, `link-cp` and `cat`, whatever the kernel does, the
ring at the start of each iteration is represented by liburing's submission indices
and completion queue, each reached by liburing's own steps. -/
theorem example_rings_represented :
    (∀ kernel fileSize st, IoUringCp.Reachable kernel fileSize st →
      ∃ ix : Ring.Indices FileOp, ix.Represents st.device.ring) ∧
    (∀ kernel fileSize st, LinkCp.Reachable kernel fileSize st →
      ∃ ix : Ring.Indices FileOp, ix.Represents st.device.ring) ∧
    ∀ kernel file st, Cat.Reachable kernel file st →
      ∃ ix : Ring.Indices FileOp, ix.Represents st.ring :=
  ⟨fun _ _ _ reach => reach.ring.represented (k := 6) (by decide),
    fun _ _ _ reach => reach.ring.represented (k := 6) (by decide),
    fun _ _ _ reach =>
      reach.printed.fresh ▸ ⟨_, Ring.represents_empty (k := 3) (by decide)⟩⟩

end Examples

end LiburingRs
