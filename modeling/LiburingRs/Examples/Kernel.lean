import LiburingRs.Ring

/-!
# The kernel under the file-copy examples

`io_uring-cp` and `link-cp` queue reads of the source and writes to the destination.
The kernel's part in a run of either is given as an oracle: the outcome of each
`io_uring_enter`, the completions it posts before each look at the completion queue,
and whether each blocking `wait_cqe` fails.  A completion the kernel cannot post
(no such operation in flight, a result longer than the request, or a write whose
linked read has not completed) is ignored, so every oracle describes a possible kernel.

A read queued with `IOSQE_IO_LINK` severs the link when it does not transfer its
whole length; the kernel then completes the linked write with `-ECANCELED` without
running it.  A write of `n ≥ 0` bytes writes the first `n` bytes of its buffer; the
destination ranges written are kept as ghost state.
-/

namespace LiburingRs

namespace Examples

/-- A read of the source or a write to the destination, of `len` bytes at `offset`. -/
inductive FileOp where
  | read (offset len : Nat)
  | write (offset len : Nat)
  deriving DecidableEq, Repr

/-- The length an operation asks for. -/
def FileOp.len : FileOp → Nat
  | .read _ len | .write _ len => len

/-- `ECANCELED`. -/
def ecanceled : Int := 125

/-- The kernel's side of a run: the outcome of the `n`-th `io_uring_enter`, the
completions posted before the `n`-th look at the completion queue (an index in flight
and a result each), and whether the `n`-th blocking wait fails. -/
structure Kernel where
  enter : Nat → Except Int Nat
  completions : Nat → List (Nat × Int)
  waitError : Nat → Option Int

/-- The ring and the destination ranges written, as `(offset, count)`. -/
structure Device where
  ring : Ring FileOp
  written : List (Nat × Nat)
  deriving DecidableEq, Repr

namespace Device

/-- Whether the operation at `index` waits for a linked read still in flight. -/
def linkedBehind (ring : Ring FileOp) (index : Nat) : Bool :=
  match index with
  | 0 => false
  | before + 1 => (ring.inflight[before]?.map Sqe.link).getD false

/-- The ranges a completed operation wrote. -/
def wrote (sqe : Sqe FileOp) (res : Int) : List (Nat × Nat) :=
  match sqe.op with
  | .write offset _ => if 0 ≤ res then [(offset, res.toNat)] else []
  | .read _ _ => []

/-- The kernel completes the `index`-th operation in flight with `res`, when it can.
A linked read that does not transfer its whole length cancels the write after it. -/
def post (device : Device) (choice : Nat × Int) : Device :=
  match device.ring.inflight[choice.1]? with
  | none => device
  | some sqe =>
      if (sqe.op.len : Int) < choice.2 ∨ linkedBehind device.ring choice.1 then device
      else
        match device.ring.complete choice.1 choice.2 with
        | none => device
        | some ring =>
            let written := device.written ++ wrote sqe choice.2
            if sqe.link ∧ choice.2 ≠ sqe.op.len then
              ⟨(ring.complete choice.1 (-ecanceled)).getD ring, written⟩
            else ⟨ring, written⟩

/-- The kernel posts its completions in order. -/
def postAll (device : Device) (choices : List (Nat × Int)) : Device :=
  choices.foldl post device

/-- Nothing is posted while nothing is in flight. -/
theorem postAll_of_inflight_nil {device : Device} (idle : device.ring.inflight = []) :
    ∀ choices, device.postAll choices = device
  | [] => rfl
  | choice :: rest => by
      have still : post device choice = device := by simp [post, idle]
      rw [postAll, List.foldl_cons, still]
      exact postAll_of_inflight_nil idle rest

/-- Every property of the ring that each completion the kernel makes, or cannot make,
keeps is kept by its postings. -/
theorem post_of_complete {P : Ring FileOp → Prop}
    (complete : ∀ ring index res, P ring → P ((ring.complete index res).getD ring))
    (device : Device) (choice : Nat × Int) (holds : P device.ring) :
    P (device.post choice).ring := by
  unfold post
  split
  · exact holds
  · split
    · exact holds
    · split
      · exact holds
      · rename_i ring done
        have first := complete device.ring choice.1 choice.2 holds
        rw [done, Option.getD_some] at first
        split
        · exact complete ring choice.1 (-ecanceled) first
        · exact first

theorem postAll_of_complete {P : Ring FileOp → Prop}
    (complete : ∀ ring index res, P ring → P ((ring.complete index res).getD ring)) :
    ∀ (device : Device) choices, P device.ring → P (device.postAll choices).ring
  | _, [], holds => holds
  | device, choice :: rest, holds =>
      postAll_of_complete complete (device.post choice) rest
        (post_of_complete complete device choice holds)

/-- What a completion of `-ECANCELED`, or of any other error, writes: nothing. -/
theorem wrote_of_neg {sqe : Sqe FileOp} {res : Int} (negative : res < 0) :
    wrote sqe res = [] := by
  unfold wrote
  split
  · rw [if_neg (by omega)]
  · rfl

/-- A property of the device that every completion the kernel can make keeps: that of an
entry in flight, with a result no longer than its request, and what it wrote appended. -/
def CompletionsKeep (P : Device → Prop) : Prop :=
  ∀ (device : Device) (index : Nat) (res : Int) (sqe : Sqe FileOp) (ring : Ring FileOp),
    P device → device.ring.inflight[index]? = some sqe →
      device.ring.complete index res = some ring → res ≤ sqe.op.len →
      P ⟨ring, device.written ++ wrote sqe res⟩

/-- A property every completion keeps is kept by each posting of the kernel, the
cancellation of the entry linked behind a short read included. -/
theorem post_of_completed {P : Device → Prop} (completed : CompletionsKeep P)
    (device : Device) (choice : Nat × Int) (holds : P device) : P (device.post choice) := by
  unfold post
  split
  · exact holds
  · rename_i sqe found
    split
    · exact holds
    · rename_i short
      split
      · exact holds
      · rename_i ring done
        have first := completed _ _ _ _ _ holds found done (not_lt.1 (not_or.1 short).1)
        split
        · cases cancelled : ring.complete choice.1 (-ecanceled) with
          | none => simpa [cancelled] using first
          | some ring' =>
              obtain ⟨sqe', found', -⟩ := Ring.complete_eq_some cancelled
              have second := completed _ _ _ _ _ first found' cancelled
                (by simp only [ecanceled]; omega)
              rw [@wrote_of_neg sqe' (-ecanceled) (by decide), List.append_nil] at second
              simpa [cancelled] using second
        · exact first

theorem postAll_of_completed {P : Device → Prop} (completed : CompletionsKeep P) :
    ∀ (device : Device) choices, P device → P (device.postAll choices)
  | _, [], holds => holds
  | device, choice :: rest, holds =>
      postAll_of_completed completed (device.post choice) rest
        (post_of_completed completed device choice holds)

theorem keeps_postAll (device : Device) (choices : List (Nat × Int)) :
    Ring.Keeps device.ring (device.postAll choices).ring :=
  postAll_of_complete (P := Ring.Keeps device.ring)
    (fun ring index res kept => kept.trans (Ring.keeps_complete ring index res)) device choices
    (.refl _)

end Device

/-- A `do` block in `Except` that returns `Ok` ran its first step to `Ok`. -/
theorem bind_eq_ok {α β : Type} {x : Except Error α} {f : α → Except Error β} {b : β}
    (h : (x >>= f) = .ok b) : ∃ a, x = .ok a ∧ f a = .ok b := by
  cases x with
  | error e => cases h
  | ok a => exact ⟨a, rfl, h⟩

/-- `while let Some(cqe) = cq.peek_cqe()`: the result and tag of every posted
completion, in order, each retired when its `Cqe` is dropped. -/
def peekAll (ring : Ring FileOp) : List (Int × BitVec 64) × Ring FileOp :=
  (ring.cq.map fun cqe => (cqe.result, cqe.userData), { ring with cq := [] })

/-- The completions peeked leave the ring; with them, its live entries are as before. -/
theorem peekAll_live (ring : Ring FileOp) :
    ((peekAll ring).2.live ++ ring.cq.map Cqe.sqe).Perm ring.live := by
  simpa only [peekAll, Ring.live, List.map_nil, List.nil_append, List.append_assoc] using
    @List.perm_append_comm _ (ring.inflight ++ ring.published ++ ring.prepared)
      (ring.cq.map Cqe.sqe)

end Examples

end LiburingRs
