import LiburingRs.Basic

/-!
# Submission queue indices

`SubmissionQueue::space_left`, `SubmissionQueue::is_full` and liburing's
`io_uring_get_sqe` work on unsigned 32-bit indices shared with the kernel: the
kernel's head `khead`, the tail published to the kernel `ktail`, and the tail of
prepared entries `sqe_tail`.  All index arithmetic wraps modulo `2 ^ 32`.

Every reachable index state keeps `sqe_tail - khead ≤ ring_entries`, however
often the indices have wrapped.  Hence `space_left` never underflows, exactly
`space_left` calls of `get_sqe` succeed before the first `None`, and `is_full`
holds exactly when `get_sqe` fails.
-/

namespace LiburingRs

/-- `IORING_MAX_ENTRIES`: the kernel refuses or clamps larger rings. -/
def maxEntries : Nat := 32768

/-- The fields of liburing's `struct io_uring_sq` that the submission functions
read: `*khead`, `*ktail`, `sqe_tail`, `ring_entries` and `ring_mask`. -/
structure SqIndices where
  khead : BitVec 32
  ktail : BitVec 32
  sqeTail : BitVec 32
  ringEntries : BitVec 32
  ringMask : BitVec 32
  deriving DecidableEq, Repr

namespace SqIndices

/-- liburing's `io_uring_get_sqe`: the slot `sqe_tail & ring_mask`, handed out only
when `sqe_tail + 1 - khead ≤ ring_entries`. -/
def getSqe (sq : SqIndices) : Option (BitVec 32 × SqIndices) :=
  if sq.sqeTail + 1 - sq.khead ≤ sq.ringEntries then
    some (sq.sqeTail &&& sq.ringMask, { sq with sqeTail := sq.sqeTail + 1 })
  else none

/-- liburing's `__io_uring_flush_sq`, the first half of `io_uring_submit`: publish the
prepared entries and return how many the kernel may consume. -/
def flush (sq : SqIndices) : BitVec 32 × SqIndices :=
  (sq.sqeTail - sq.khead, { sq with ktail := sq.sqeTail })

/-- The kernel consumes `n` published entries inside `io_uring_enter`. -/
def consume (n : Nat) (sq : SqIndices) : SqIndices :=
  { sq with khead := sq.khead + BitVec.ofNat 32 n }

/-- `SubmissionQueue::submit` (liburing's `io_uring_submit`): the flush, then
`io_uring_enter`, which fails with `errno` (`enter = .error errno`) or in which the
kernel consumes up to the flushed entries and returns how many it consumed. -/
def submit (enter : Except Int Nat) (sq : SqIndices) : Except Error Nat × SqIndices :=
  let (toSubmit, flushed) := flush sq
  match enter with
  | .error errno => (.error (.io errno), flushed)
  | .ok consumed =>
      let n := min consumed toSubmit.toNat
      (.ok n, consume n flushed)

/-- Rust's `-` on `u32`; `none` is the overflow panic of a debug build. -/
def u32Sub (a b : BitVec 32) : Option (BitVec 32) :=
  if b ≤ a then some (a - b) else none

/-- `SubmissionQueue::space_left`: `ring_entries - sqe_tail.wrapping_sub(khead)`. -/
def spaceLeft (sq : SqIndices) : Option (BitVec 32) :=
  u32Sub sq.ringEntries (sq.sqeTail - sq.khead)

/-- `SubmissionQueue::is_full`. -/
def isFull (sq : SqIndices) : Option Bool :=
  (spaceLeft sq).map (· == 0)

/-- `n` consecutive calls of `get_sqe`, each returning an entry. -/
def getSqeN : Nat → SqIndices → Option SqIndices
  | 0, sq => some sq
  | n + 1, sq => (getSqe sq).bind fun taken => getSqeN n taken.2

/-- The state `io_uring_setup` leaves for a ring of `2 ^ k` entries. -/
def init (k : Nat) : SqIndices :=
  ⟨0, 0, 0, BitVec.ofNat 32 (2 ^ k), BitVec.ofNat 32 (2 ^ k) - 1⟩

/-- One step of the submission ring: the application takes an entry, publishes the
prepared entries, or the kernel consumes some of the published ones. -/
inductive Step : SqIndices → SqIndices → Prop
  | getSqe {sq : SqIndices} {taken : BitVec 32 × SqIndices} :
      getSqe sq = some taken → Step sq taken.2
  | flush (sq : SqIndices) : Step sq (flush sq).2
  | consume {sq : SqIndices} (n : Nat) :
      n ≤ (sq.ktail - sq.khead).toNat → Step sq (consume n sq)

/-- Index states reachable from a ring the kernel set up. -/
inductive Reachable : SqIndices → Prop
  | init {k : Nat} : 2 ^ k ≤ maxEntries → Reachable (init k)
  | step {sq sq' : SqIndices} : Reachable sq → Step sq sq' → Reachable sq'

/-- The index invariant: `khead ≤ ktail ≤ sqe_tail` read cyclically, at most
`ring_entries` entries between `khead` and `sqe_tail`, and the kernel's bound on
the ring size. -/
structure Valid (sq : SqIndices) : Prop where
  published_le : (sq.ktail - sq.khead).toNat ≤ (sq.sqeTail - sq.khead).toNat
  pending_le : (sq.sqeTail - sq.khead).toNat ≤ sq.ringEntries.toNat
  entries_le : sq.ringEntries.toNat ≤ maxEntries

variable {sq sq' : SqIndices}

/-- The pending entries are the published ones followed by the prepared ones. -/
theorem Valid.pending_eq (valid : sq.Valid) :
    (sq.sqeTail - sq.khead).toNat =
      (sq.ktail - sq.khead).toNat + (sq.sqeTail - sq.ktail).toNat := by
  have publishedLe := valid.published_le
  bv_omega

theorem getSqe_cond_iff (valid : sq.Valid) :
    sq.sqeTail + 1 - sq.khead ≤ sq.ringEntries ↔
      (sq.sqeTail - sq.khead).toNat < sq.ringEntries.toNat := by
  have pendingLe := valid.pending_le
  have entriesLe := valid.entries_le
  simp only [maxEntries] at entriesLe
  bv_omega

theorem getSqe_eq_none_iff (valid : sq.Valid) :
    getSqe sq = none ↔ sq.ringEntries.toNat ≤ (sq.sqeTail - sq.khead).toNat := by
  rw [getSqe]
  split
  · rename_i fits
    simp only [reduceCtorEq, false_iff, not_le]
    exact (getSqe_cond_iff valid).1 fits
  · rename_i full
    simp only [true_iff]
    exact Nat.not_lt.1 (mt (getSqe_cond_iff valid).2 full)

theorem getSqe_eq_some (valid : sq.Valid)
    (fits : (sq.sqeTail - sq.khead).toNat < sq.ringEntries.toNat) :
    getSqe sq = some (sq.sqeTail &&& sq.ringMask, { sq with sqeTail := sq.sqeTail + 1 }) :=
  if_pos ((getSqe_cond_iff valid).2 fits)

/-- Taking an entry adds exactly one to `sqe_tail - khead`. -/
theorem pending_succ (valid : sq.Valid)
    (fits : (sq.sqeTail - sq.khead).toNat < sq.ringEntries.toNat) :
    (sq.sqeTail + 1 - sq.khead).toNat = (sq.sqeTail - sq.khead).toNat + 1 := by
  have entriesLe := valid.entries_le
  simp only [maxEntries] at entriesLe
  bv_omega

theorem valid_getSqe {taken : BitVec 32 × SqIndices} (valid : sq.Valid)
    (got : getSqe sq = some taken) : taken.2.Valid := by
  have fits : (sq.sqeTail - sq.khead).toNat < sq.ringEntries.toNat := by
    by_contra full
    rw [(getSqe_eq_none_iff valid).2 (Nat.not_lt.1 full)] at got
    cases got
  rw [getSqe_eq_some valid fits] at got
  cases got
  have grows := pending_succ valid fits
  exact ⟨by have := valid.published_le; simp only at grows ⊢; omega,
    by simp only at grows ⊢; omega, valid.entries_le⟩

theorem valid_flush (valid : sq.Valid) : (flush sq).2.Valid :=
  ⟨le_refl _, valid.pending_le, valid.entries_le⟩

/-- Subtracting a number no larger than a 32-bit value does not wrap. -/
theorem toNat_sub_ofNat {x : BitVec 32} {n : Nat} (le : n ≤ x.toNat) :
    (x - BitVec.ofNat 32 n).toNat = x.toNat - n := by
  have small : n % 2 ^ 32 = n := Nat.mod_eq_of_lt (le.trans_lt x.isLt)
  rw [BitVec.toNat_sub_of_le (BitVec.le_def.2 (by rwa [BitVec.toNat_ofNat, small])),
    BitVec.toNat_ofNat, small]

/-- The kernel's consumption of `n` published entries leaves `n` fewer published. -/
theorem published_consume {n : Nat} (published : n ≤ (sq.ktail - sq.khead).toNat) :
    ((consume n sq).ktail - (consume n sq).khead).toNat = (sq.ktail - sq.khead).toNat - n := by
  show (sq.ktail - (sq.khead + BitVec.ofNat 32 n)).toNat = _
  rw [sub_add_eq_sub_sub, toNat_sub_ofNat published]

/-- The kernel's consumption of `n` published entries frees `n` of the pending ones. -/
theorem pending_consume {n : Nat} (valid : sq.Valid)
    (published : n ≤ (sq.ktail - sq.khead).toNat) :
    ((consume n sq).sqeTail - (consume n sq).khead).toNat = (sq.sqeTail - sq.khead).toNat - n := by
  show (sq.sqeTail - (sq.khead + BitVec.ofNat 32 n)).toNat = _
  rw [sub_add_eq_sub_sub, toNat_sub_ofNat (published.trans valid.published_le)]

theorem valid_consume {n : Nat} (valid : sq.Valid)
    (published : n ≤ (sq.ktail - sq.khead).toNat) : (consume n sq).Valid := by
  have publishedLe := valid.published_le
  have pendingLe := valid.pending_le
  refine ⟨?_, ?_, valid.entries_le⟩
  · rw [published_consume published, pending_consume valid published]
    omega
  · show _ ≤ sq.ringEntries.toNat
    rw [pending_consume valid published]
    omega

theorem valid_init {k : Nat} (small : 2 ^ k ≤ maxEntries) : (init k).Valid := by
  refine ⟨by simp [init], by simp [init], ?_⟩
  simp only [maxEntries] at small ⊢
  rw [init, BitVec.toNat_ofNat, Nat.mod_eq_of_lt (by omega)]
  exact small

theorem Step.valid (step : Step sq sq') (valid : sq.Valid) : sq'.Valid := by
  cases step with
  | getSqe got => exact valid_getSqe valid got
  | flush => exact valid_flush valid
  | consume n published => exact valid_consume valid published

theorem Reachable.valid (reach : Reachable sq) : sq.Valid := by
  induction reach with
  | init small => exact valid_init small
  | step _ step ih => exact step.valid ih

/-- `n` calls of `get_sqe` succeed while they fit; they only advance `sqe_tail`. -/
theorem getSqeN_eq_some {n : Nat} (valid : sq.Valid)
    (fits : (sq.sqeTail - sq.khead).toNat + n ≤ sq.ringEntries.toNat) :
    getSqeN n sq = some { sq with sqeTail := sq.sqeTail + BitVec.ofNat 32 n } := by
  induction n generalizing sq with
  | zero => simp [getSqeN]
  | succ n ih =>
      have free : (sq.sqeTail - sq.khead).toNat < sq.ringEntries.toNat := by omega
      have got := getSqe_eq_some valid free
      have grows := pending_succ valid free
      have rest := ih (valid_getSqe valid got) (by simp only [grows]; omega)
      rw [getSqeN, got, Option.some_bind, rest, Option.some.injEq, SqIndices.mk.injEq]
      refine ⟨rfl, rfl, ?_, rfl, rfl⟩
      rw [add_assoc, BitVec.ofNat_add, add_comm (BitVec.ofNat 32 n)]
      rfl

theorem Reachable.getSqeN {n : Nat} (reach : Reachable sq)
    (run : getSqeN n sq = some sq') : Reachable sq' := by
  induction n generalizing sq with
  | zero => cases run; exact reach
  | succ n ih =>
      simp only [getSqeN] at run
      cases got : getSqe sq with
      | none => simp [got] at run
      | some taken =>
          rw [got, Option.some_bind] at run
          exact ih (reach.step (.getSqe got)) run

/-- Taking an entry, publishing it and letting the kernel consume it moves all three
indices on by one. -/
theorem Reachable.rotate {index entries mask : BitVec 32} (positive : 0 < entries.toNat)
    (reach : Reachable ⟨index, index, index, entries, mask⟩) :
    Reachable ⟨index + 1, index + 1, index + 1, entries, mask⟩ := by
  have taken : getSqe ⟨index, index, index, entries, mask⟩ =
      some (index &&& mask, ⟨index, index, index + 1, entries, mask⟩) := by
    rw [getSqe, if_pos]
    simp only [BitVec.le_def]
    bv_omega
  have published := (reach.step (.getSqe taken)).step (.flush _)
  have consumed := published.step (.consume 1 (by simp only [flush]; bv_omega))
  simpa only [consume, flush, BitVec.ofNat_eq_ofNat] using consumed

/-- Every valid index state over a ring `io_uring_setup` can create is reachable, in
particular states whose indices have wrapped past `2 ^ 32`. -/
theorem reachable_of_valid {k : Nat} (small : 2 ^ k ≤ maxEntries) (valid : sq.Valid)
    (entries : sq.ringEntries = BitVec.ofNat 32 (2 ^ k))
    (mask : sq.ringMask = BitVec.ofNat 32 (2 ^ k) - 1) : Reachable sq := by
  have entriesNat : sq.ringEntries.toNat = 2 ^ k := by
    simp only [maxEntries] at small
    rw [entries, BitVec.toNat_ofNat, Nat.mod_eq_of_lt (by omega)]
  have positive : 0 < sq.ringEntries.toNat := entriesNat ▸ Nat.two_pow_pos k
  have rotated : ∀ m : Nat,
      Reachable ⟨BitVec.ofNat 32 m, BitVec.ofNat 32 m, BitVec.ofNat 32 m, sq.ringEntries,
        sq.ringMask⟩ := by
    intro m
    induction m with
    | zero => simpa only [entries, mask] using Reachable.init small
    | succ m ih => simpa only [BitVec.ofNat_add] using ih.rotate positive
  have headRotated := rotated sq.khead.toNat
  rw [BitVec.ofNat_toNat, BitVec.setWidth_eq] at headRotated
  have publishedLe := valid.published_le
  have pendingLe := valid.pending_le
  have entriesLe := valid.entries_le
  have takePublished :=
    @getSqeN_eq_some ⟨sq.khead, sq.khead, sq.khead, sq.ringEntries, sq.ringMask⟩
      (sq.ktail - sq.khead).toNat ⟨by simp, by simp, entriesLe⟩
      (by simp only [BitVec.sub_self]; simpa using publishedLe.trans pendingLe)
  have publishedTail : sq.khead + BitVec.ofNat 32 (sq.ktail - sq.khead).toNat = sq.ktail := by
    rw [BitVec.ofNat_toNat, BitVec.setWidth_eq, add_sub_cancel]
  rw [publishedTail] at takePublished
  have flushed := (headRotated.getSqeN takePublished).step (.flush _)
  have takePrepared :=
    @getSqeN_eq_some ⟨sq.khead, sq.ktail, sq.ktail, sq.ringEntries, sq.ringMask⟩
      (sq.sqeTail - sq.ktail).toNat ⟨le_refl _, publishedLe.trans pendingLe, entriesLe⟩
      (by simp only; rw [← valid.pending_eq]; exact pendingLe)
  have preparedTail : sq.ktail + BitVec.ofNat 32 (sq.sqeTail - sq.ktail).toNat = sq.sqeTail := by
    rw [BitVec.ofNat_toNat, BitVec.setWidth_eq, add_sub_cancel]
  rw [preparedTail] at takePrepared
  simpa only [flush] using flushed.getSqeN takePrepared

/-- From a valid state, exactly the free entries can be taken before `get_sqe` fails. -/
theorem getSqeN_fill (valid : sq.Valid) :
    ∃ full, getSqeN (sq.ringEntries.toNat - (sq.sqeTail - sq.khead).toNat) sq = some full ∧
      getSqe full = none := by
  have pendingLe := valid.pending_le
  have entriesLe := valid.entries_le
  simp only [maxEntries] at entriesLe
  refine ⟨_, getSqeN_eq_some valid (by omega), ?_⟩
  rw [getSqe, if_neg]
  bv_omega

/-- Without an underflow, `space_left` is `ring_entries` minus the pending entries. -/
theorem spaceLeft_eq (valid : sq.Valid) :
    spaceLeft sq = some (sq.ringEntries - (sq.sqeTail - sq.khead)) :=
  if_pos (BitVec.le_def.2 valid.pending_le)

theorem spaceLeft_toNat (valid : sq.Valid) :
    (sq.ringEntries - (sq.sqeTail - sq.khead)).toNat =
      sq.ringEntries.toNat - (sq.sqeTail - sq.khead).toNat := by
  have pendingLe := valid.pending_le
  bv_omega

/-- In every reachable state `space_left` computes `ring_entries - (sqe_tail - khead)`
without underflow, exactly `space_left` consecutive calls of `get_sqe` return an entry
before the next one returns `None`, and `is_full` holds exactly when `get_sqe` fails. -/
theorem spaceLeft_getSqe_of_reachable (reach : Reachable sq) :
    ∃ space, spaceLeft sq = some space ∧
      space.toNat = sq.ringEntries.toNat - (sq.sqeTail - sq.khead).toNat ∧
      (∃ full, getSqeN space.toNat sq = some full ∧ getSqe full = none) ∧
      (isFull sq = some true ↔ getSqe sq = none) := by
  have valid := reach.valid
  have spaceNat := spaceLeft_toNat valid
  refine ⟨_, spaceLeft_eq valid, spaceNat, ?_, ?_⟩
  · rw [spaceNat]
    exact getSqeN_fill valid
  · rw [isFull, spaceLeft_eq valid, getSqe_eq_none_iff valid]
    simp only [Option.map_some', Option.some.injEq, beq_iff_eq, BitVec.toNat_eq, spaceNat]
    constructor <;> intro <;> bv_omega

theorem spaceLeft_getSqe_wrapped :
    Reachable ⟨0xFFFFFFFE, 0xFFFFFFFF, 1, 4, 3⟩ ∧
      ∃ space, spaceLeft ⟨0xFFFFFFFE, 0xFFFFFFFF, 1, 4, 3⟩ = some space ∧
        space.toNat = 4 - (1 - 0xFFFFFFFE : BitVec 32).toNat ∧
        (∃ full, getSqeN space.toNat ⟨0xFFFFFFFE, 0xFFFFFFFF, 1, 4, 3⟩ = some full ∧
          getSqe full = none) ∧
        (isFull ⟨0xFFFFFFFE, 0xFFFFFFFF, 1, 4, 3⟩ = some true ↔
          getSqe ⟨0xFFFFFFFE, 0xFFFFFFFF, 1, 4, 3⟩ = none) :=
  have reach : Reachable ⟨0xFFFFFFFE, 0xFFFFFFFF, 1, 4, 3⟩ :=
    reachable_of_valid (k := 2) (by decide) ⟨by decide, by decide, by decide⟩ rfl rfl
  ⟨reach, spaceLeft_getSqe_of_reachable reach⟩

end SqIndices

end LiburingRs
