import LiburingRs.Tokio.System

/-!
# Tags and the delivery of completions

Every first poll stamps its operation with `next_user_data` and advances it, so the
tags handed out are `1, 2, 3, …` in the order of first polls, and fewer than `2 ^ 64`
of them are pairwise distinct.  Every entry still live in the ring carries the tag
and the operation of the task that queued it.  Hence a future that returns
`Ready(Ok(r))` has retired the completion of its own operation, and that completion
is gone from the ring afterwards.

The drain does not keep a foreign completion for its owner: it wakes the owner and
drops the result.  A schedule of two NOPs shows a completion of a live future retired
by another future's poll, after which the owner never becomes ready with a result.
-/

namespace LiburingRs

namespace Tokio

section SetFilterMap

variable {α β : Type} (f : α → Option β)

/-- Replacing an element by one `f` maps to the same value keeps a `filterMap`. -/
theorem filterMap_set_of_eq : ∀ {l : List α} {index : Nat} {old new : α},
    l[index]? = some old → f old = f new → (l.set index new).filterMap f = l.filterMap f
  | [], _, _, _, found, _ => by cases found
  | a :: l, 0, old, new, found, same => by
      obtain rfl : a = old := by simpa using found
      simp only [List.set_cons_zero, List.filterMap_cons, same]
  | a :: l, index + 1, old, new, found, same => by
      simp only [List.set_cons_succ, List.filterMap_cons,
        filterMap_set_of_eq (l := l) (by simpa using found) same]

/-- Replacing an element `f` drops by one it keeps adds that one to a `filterMap`,
up to order. -/
theorem filterMap_set_perm : ∀ {l : List α} {index : Nat} {old new : α},
    l[index]? = some old → f old = none →
      ((l.set index new).filterMap f).Perm (l.filterMap f ++ (f new).toList)
  | [], _, _, _, found, _ => by cases found
  | a :: l, 0, old, new, found, dropped => by
      obtain rfl : a = old := by simpa using found
      cases kept : f new
      · simp [List.filterMap_cons, dropped, kept]
      · simpa [List.filterMap_cons, dropped, kept] using (List.perm_append_singleton _ _).symm
  | a :: l, index + 1, old, new, found, dropped => by
      have rest := @filterMap_set_perm l _ _ new (by simpa using found) dropped
      cases kept : f a <;>
        simp only [List.set_cons_succ, List.filterMap_cons, kept, List.cons_append]
      · exact rest
      · exact rest.cons _

end SetFilterMap

namespace System

variable {Op : Type}

/-- The tag and operation of a task whose operation was taken. -/
def ownerKey (task : Task Op) : Option (BitVec 64 × Op) := task.tag.map (·, task.op)

/-- The tag and operation of every task whose operation was taken, in task order. -/
def owners (s : System Op) : List (BitVec 64 × Op) := s.tasks.filterMap ownerKey

/-- The tag and the operation of an entry. -/
def key (sqe : Sqe Op) : BitVec 64 × Op := (sqe.userData, sqe.op)

/-- The invariant of the tags: `next_user_data` is one past the number of tags handed
out, the tags are `1, …, n` in some order, the live entries of the ring carry tags and
operations of distinct tasks, and a task not yet polled still holds its operation. -/
structure Inv (s : System Op) : Prop where
  next_eq : s.inner.nextUserData = BitVec.ofNat 64 (s.owners.length + 1)
  tags_perm : (s.owners.map Prod.fst).Perm
    ((List.range s.owners.length).map fun k => BitVec.ofNat 64 (k + 1))
  live_subperm : (s.inner.ring.live.map key).Subperm s.owners
  unsubmitted_op : ∀ task ∈ s.tasks, ∀ op, task.future = .unsubmitted op → task.op = op

theorem inv_init (entries : Nat) : (init entries : System Op).Inv :=
  ⟨rfl, by simp [owners, init], by simp [owners, init, AsyncIoUringInner.new], by simp [init]⟩

variable {s s' : System Op}

theorem mem_set_of_mem {l : List (Task Op)} {index : Nat} {new task : Task Op}
    (member : task ∈ l.set index new) : task ∈ l ∨ task = new := by
  rcases List.mem_or_eq_of_mem_set member with old | fresh
  · exact .inl old
  · exact .inr fresh

theorem owners_spawn {op : Op} (stepped : s.next (.spawn op) = some s') :
    s'.owners = s.owners := by
  rw [next_spawn stepped]
  simp [owners, ownerKey, Task.spawn, Task.tag]

theorem owners_drop {id : Nat} (stepped : s.next (.drop id) = some s') :
    s'.owners = s.owners := by
  obtain ⟨task, found, rfl⟩ := next_drop stepped
  exact filterMap_set_of_eq _ found rfl

theorem Inv.step_spawn {op : Op} (inv : s.Inv) (stepped : s.next (.spawn op) = some s') :
    s'.Inv := by
  have same := owners_spawn stepped
  have post := next_spawn stepped
  subst post
  refine ⟨?_, ?_, ?_, ?_⟩
  · rw [same]; exact inv.next_eq
  · rw [same]; exact inv.tags_perm
  · rw [same]; exact inv.live_subperm
  · simp only [List.mem_append, List.mem_singleton]
    rintro task (old | rfl) op' unsubmitted
    · exact inv.unsubmitted_op task old op' unsubmitted
    · simpa [Task.spawn] using unsubmitted

theorem Inv.step_complete {index : Nat} {res : Int} (inv : s.Inv)
    (stepped : s.next (.complete index res) = some s') : s'.Inv := by
  obtain ⟨ring, done, rfl⟩ := next_complete stepped
  exact ⟨inv.next_eq, inv.tags_perm,
    ((Ring.complete_live done).map key).subperm.trans inv.live_subperm, inv.unsubmitted_op⟩

theorem Inv.step_drop {id : Nat} (inv : s.Inv) (stepped : s.next (.drop id) = some s') :
    s'.Inv := by
  have same := owners_drop stepped
  obtain ⟨task, found, rfl⟩ := next_drop stepped
  refine ⟨?_, ?_, ?_, ?_⟩
  · rw [same]; exact inv.next_eq
  · rw [same]; exact inv.tags_perm
  · rw [same]; exact inv.live_subperm
  · intro member memberIn op' unsubmitted
    rcases mem_set_of_mem memberIn with old | rfl
    · exact inv.unsubmitted_op member old op' unsubmitted
    · exact inv.unsubmitted_op task (List.getElem?_mem found) op' unsubmitted

/-- The tag and operation a task contributes to `owners`. -/
theorem polledTask_owner {task : Task Op} {polled : Polled Op} {userData : BitVec 64}
    (submitted : polled.future = .submitted userData) :
    ownerKey (polledTask task polled) = some (userData, task.op) := by
  simp [ownerKey, polledTask, Task.tag, submitted]

/-- A poll keeps the invariant, and every completion it retires, like every entry it
leaves live, carries the tag and operation of a distinct task. -/
theorem Inv.step_poll_keys {id : Nat} {env : PollEnv} {task : Task Op} (inv : s.Inv)
    (stepped : s.next (.poll id env) = some s') (found : s.tasks[id]? = some task) :
    List.Subperm (((poll id env s.inner task.future).retired.map Cqe.sqe ++
        s'.inner.ring.live).map key) s'.owners ∧
      s'.inner.nextUserData = BitVec.ofNat 64 (s'.owners.length + 1) ∧
      (s'.owners.map Prod.fst).Perm
        ((List.range s'.owners.length).map fun k => BitVec.ofNat 64 (k + 1)) ∧
      s.owners.Subperm s'.owners := by
  obtain ⟨task', found', -, -, rfl⟩ := next_poll stepped
  have same : task = task' := Option.some.inj (found.symm.trans found')
  subst same
  simp only [owners]
  obtain ⟨pushed, pushedSub, liveEq⟩ := @poll_live _ id env s.inner task.future
  have future := @poll_future _ id env s.inner task.future
  have owner := @polledTask_owner _ task _ _ future
  have nextTag := @poll_nextUserData _ id env s.inner task.future
  generalize poll id env s.inner task.future = polled at future owner nextTag liveEq ⊢
  rw [liveEq]
  cases futureDef : task.future with
  | submitted userData =>
      simp only [futureDef] at owner nextTag pushedSub
      have same := @filterMap_set_of_eq _ _ ownerKey _ _ _ (polledTask task polled) found
        (((by simp [ownerKey, Task.tag, futureDef]) : ownerKey task = _).trans owner.symm)
      rw [List.sublist_nil.1 pushedSub, List.append_nil, same]
      exact ⟨inv.live_subperm, nextTag.trans inv.next_eq, inv.tags_perm, .refl _⟩
  | unsubmitted op =>
      simp only [futureDef] at owner nextTag pushedSub
      have opEq := inv.unsubmitted_op task (List.getElem?_mem found) op futureDef
      have grown := @filterMap_set_perm _ _ ownerKey _ _ _ (polledTask task polled) found
        (by simp [ownerKey, Task.tag, futureDef])
      rw [owner, Option.toList_some] at grown
      have lengthEq := grown.length_eq
      rw [List.length_append, List.length_singleton] at lengthEq
      refine ⟨?_, ?_, ?_, (List.sublist_append_left _ _).subperm.trans grown.symm.subperm⟩
      · refine List.Subperm.trans ?_ grown.symm.subperm
        rw [List.map_append]
        refine ((List.subperm_append_right _).2 inv.live_subperm).trans
          ((List.subperm_append_left _).2 ((pushedSub.map key).subperm.trans ?_))
        simp [key, opEq]
      · rw [nextTag, inv.next_eq, lengthEq, BitVec.ofNat_add (_ + 1) 1]
        rfl
      · rw [lengthEq, List.range_succ, List.map_append]
        refine (grown.map Prod.fst).trans ?_
        rw [List.map_append]
        simp only [List.map_cons, List.map_nil, inv.next_eq]
        exact inv.tags_perm.append_right _

theorem Inv.step_poll {id : Nat} {env : PollEnv} (inv : s.Inv)
    (stepped : s.next (.poll id env) = some s') : s'.Inv := by
  obtain ⟨task, found, -, -, post⟩ := next_poll stepped
  obtain ⟨keys, nextEq, tagsPerm, -⟩ := inv.step_poll_keys stepped found
  refine ⟨nextEq, tagsPerm, ((List.sublist_append_right _ _).map key).subperm.trans keys, ?_⟩
  subst post
  intro member memberIn op unsubmitted
  rcases mem_set_of_mem memberIn with old | rfl
  · exact inv.unsubmitted_op member old op unsubmitted
  · simp [polledTask, poll_future] at unsubmitted

theorem Inv.step {e : Event Op} (inv : s.Inv) (stepped : s.next e = some s') : s'.Inv := by
  cases e with
  | spawn op => exact inv.step_spawn stepped
  | poll id env => exact inv.step_poll stepped
  | complete index res => exact inv.step_complete stepped
  | drop id => exact inv.step_drop stepped

theorem Reachable.inv {entries : Nat} (reach : Reachable entries s) : s.Inv := by
  induction reach with
  | init => exact inv_init entries
  | step _ stepped ih => exact ih.step stepped

/-- Two of the first `2 ^ 64 - 1` tags are equal only when they are the same tag. -/
theorem ofNat_succ_inj {j k : Nat} (hj : j + 1 < 2 ^ 64) (hk : k + 1 < 2 ^ 64)
    (same : BitVec.ofNat 64 (j + 1) = BitVec.ofNat 64 (k + 1)) : j = k := by
  have := congrArg BitVec.toNat same
  simp only [BitVec.toNat_ofNat, Nat.mod_eq_of_lt hj, Nat.mod_eq_of_lt hk] at this
  omega

/-- Fewer than `2 ^ 64` tags handed out are pairwise distinct. -/
theorem Inv.tags_nodup (inv : s.Inv) (few : s.owners.length < 2 ^ 64) :
    (s.owners.map Prod.fst).Nodup := by
  refine inv.tags_perm.nodup_iff.2 ((List.nodup_range _).map_on ?_)
  intro j hj k hk same
  simp only [List.mem_range] at hj hk
  exact ofNat_succ_inj (by omega) (by omega) same

/-- The next tag is not among those handed out while one more tag still fits. -/
theorem Inv.nextUserData_fresh {tag : BitVec 64} {op : Op} (inv : s.Inv)
    (few : s.owners.length + 1 < 2 ^ 64) (owned : (tag, op) ∈ s.owners) :
    s.inner.nextUserData ≠ tag := by
  have handed := inv.tags_perm.subset (List.mem_map_of_mem Prod.fst owned)
  simp only [List.mem_map, List.mem_range] at handed
  obtain ⟨k, below, rfl⟩ := handed
  rw [inv.next_eq]
  intro same
  have := ofNat_succ_inj few (by omega) same
  omega

theorem owner_mem {id : Nat} {task : Task Op} {tag : BitVec 64}
    (found : s.tasks[id]? = some task) (tagged : task.tag = some tag) :
    (tag, task.op) ∈ s.owners :=
  List.mem_filterMap.2 ⟨task, List.getElem?_mem found, by simp [ownerKey, tagged]⟩

/-- Entries whose keys belong to distinct owners carry distinct tags. -/
theorem nodup_userData_of_subperm {sqes : List (Sqe Op)} {keys : List (BitVec 64 × Op)}
    (sub : (sqes.map key).Subperm keys) (tags : (keys.map Prod.fst).Nodup) :
    (sqes.map Sqe.userData).Nodup := by
  obtain ⟨l, perm, sublist⟩ := sub
  have := (perm.map Prod.fst).nodup_iff.1 ((sublist.map Prod.fst).nodup tags)
  simpa only [List.map_map] using this

/-- While fewer than `2 ^ 64 - 1` tags have been handed out, the entries live in the
ring (prepared, published, in flight or posted) carry pairwise distinct tags; each
carries the tag and operation of a task, and none the tag the next first poll hands
out. -/
theorem live_tags_unique {entries : Nat} (reach : Reachable entries s)
    (few : s.owners.length + 1 < 2 ^ 64) :
    (s.inner.ring.live.map Sqe.userData).Nodup ∧
      ∀ sqe ∈ s.inner.ring.live,
        (∃ (id : Nat) (task : Task Op), s.tasks[id]? = some task ∧
          task.tag = some sqe.userData ∧ task.op = sqe.op) ∧
          sqe.userData ≠ s.inner.nextUserData := by
  have inv := reach.inv
  refine ⟨nodup_userData_of_subperm inv.live_subperm (inv.tags_nodup (by omega)),
    fun sqe live => ?_⟩
  have owned : key sqe ∈ s.owners := inv.live_subperm.subset (List.mem_map_of_mem key live)
  refine ⟨?_, (inv.nextUserData_fresh few owned).symm⟩
  obtain ⟨task, mem, keyEq⟩ := List.mem_filterMap.1 owned
  obtain ⟨id, found⟩ := List.mem_iff_getElem?.1 mem
  obtain ⟨tag, tagged, same⟩ := Option.map_eq_some'.1 keyEq
  obtain ⟨rfl, opEq⟩ := Prod.mk.inj same
  exact ⟨id, task, found, tagged, opEq⟩

/-- Three NOPs: two in flight, the third taken but not yet polled. -/
theorem live_tags_unique_three_nops :
    ∃ s : System Unit, Reachable 8 s ∧ s.inner.ring.live.length = 2 ∧
      s.owners.length + 1 < 2 ^ 64 ∧
      (s.inner.ring.live.map Sqe.userData).Nodup ∧
      ∀ sqe ∈ s.inner.ring.live,
        (∃ (id : Nat) (task : Task Unit), s.tasks[id]? = some task ∧
          task.tag = some sqe.userData ∧ task.op = sqe.op) ∧
          sqe.userData ≠ s.inner.nextUserData := by
  have reach := Reachable.run Reachable.init (rfl : run next (init 8 : System Unit)
    [.spawn (), .spawn (), .spawn (), .poll 0 ⟨.ok 1, none⟩, .poll 1 ⟨.ok 1, none⟩] = _)
  exact ⟨_, reach, rfl, by decide, live_tags_unique reach (by decide)⟩

/-- The drain-and-forward discipline.  A poll that returns `Pending` has retired every
completion in the queue, each carrying another tag than its own; it woke exactly the
wakers registered for their tags, in the order of the completions, and removed those
entries; and it left its own waker registered under its own tag and every other entry
as it was. -/
theorem poll_pending_forwards {entries id : Nat} {env : PollEnv} {future : SubmitFuture Op}
    (reach : Reachable entries s) (few : s.owners.length < 2 ^ 64)
    (pending : (poll id env s.inner future).output = .pending) :
    ∃ userData, (poll id env s.inner future).future = .submitted userData ∧
      (poll id env s.inner future).retired = s.inner.ring.cq ∧
      (poll id env s.inner future).inner.ring.cq = [] ∧
      (∀ cqe ∈ s.inner.ring.cq, cqe.userData ≠ userData) ∧
      (poll id env s.inner future).woken =
        s.inner.ring.cq.filterMap (fun cqe => s.inner.wakers cqe.userData) ∧
      ∀ tag, (poll id env s.inner future).inner.wakers tag =
        if tag = userData then some id
        else if tag ∈ s.inner.ring.cq.map Cqe.userData then none else s.inner.wakers tag := by
  have inv := reach.inv
  have distinct : (s.inner.ring.cq.map Cqe.userData).Nodup := by
    have live := nodup_userData_of_subperm inv.live_subperm (inv.tags_nodup few)
    simp only [Ring.live, List.map_append, List.map_map] at live
    exact live.of_append_left.of_append_left.of_append_left
  obtain ⟨userData, own, future', notFound, woken, retired, ring, wakers⟩ := poll_pending pending
  obtain ⟨allRetired, foreign⟩ := drain_own_eq_none notFound
  obtain ⟨forwardWoken, forwardWakers⟩ := drain_forward notFound distinct
  have rest := @drain_retired_append_cq _ userData s.inner.ring.cq
    (Function.update s.inner.wakers userData own)
  rw [allRetired, List.append_right_eq_self] at rest
  refine ⟨userData, future', retired.trans allRetired, ring.trans rest, foreign, ?_, fun tag => ?_⟩
  · rw [woken, forwardWoken]
    exact List.filterMap_congr fun cqe mem => Function.update_noteq (foreign cqe mem) _ _
  · rw [wakers]
    by_cases same : tag = userData
    · subst same
      simp
    · rw [Function.update_noteq same, forwardWakers, Function.update_noteq same, if_neg same]

/-- Two NOPs polled to `Pending`, the first completed: a poll of the second forwards
the first one's completion to it. -/
theorem poll_pending_forwards_foreign :
    ∃ s : System Unit, Reachable 8 s ∧ s.inner.ring.cq ≠ [] ∧
      s.owners.length < 2 ^ 64 ∧ (poll 1 ⟨.ok 1, none⟩ s.inner (.submitted 2)).output = .pending ∧
      ∃ userData, (poll 1 ⟨.ok 1, none⟩ s.inner (.submitted 2)).future = .submitted userData ∧
        (poll 1 ⟨.ok 1, none⟩ s.inner (.submitted 2)).retired = s.inner.ring.cq ∧
        (poll 1 ⟨.ok 1, none⟩ s.inner (.submitted 2)).inner.ring.cq = [] ∧
        (∀ cqe ∈ s.inner.ring.cq, cqe.userData ≠ userData) ∧
        (poll 1 ⟨.ok 1, none⟩ s.inner (.submitted 2)).woken =
          s.inner.ring.cq.filterMap (fun cqe => s.inner.wakers cqe.userData) ∧
        ∀ tag, (poll 1 ⟨.ok 1, none⟩ s.inner (.submitted 2)).inner.wakers tag =
          if tag = userData then some 1
          else if tag ∈ s.inner.ring.cq.map Cqe.userData then none else s.inner.wakers tag := by
  have reach := Reachable.run Reachable.init (rfl : run next (init 8 : System Unit)
    [.spawn (), .spawn (), .poll 0 ⟨.ok 1, none⟩, .poll 1 ⟨.ok 1, none⟩, .complete 0 0] = _)
  exact ⟨_, reach, by decide, by decide, by rfl, poll_pending_forwards reach (by decide) (by rfl)⟩

/-- The completions an event retires from the completion queue: only a poll drains. -/
def retired (s : System Op) : Event Op → List (Cqe Op)
  | .poll id env =>
      match s.tasks[id]? with
      | some task => (poll id env s.inner task.future).retired
      | none => []
  | _ => []

/-- No entry left in the ring carries the tag of a completion a poll retired. -/
theorem retired_not_live {entries id : Nat} {env : PollEnv} {cqe : Cqe Op}
    (reach : Reachable entries s) (stepped : s.next (.poll id env) = some s')
    (few : s'.owners.length < 2 ^ 64) (cqeIn : cqe ∈ s.retired (.poll id env)) :
    ∀ sqe ∈ s'.inner.ring.live, sqe.userData ≠ cqe.userData := by
  obtain ⟨task, found, -⟩ := next_poll stepped
  simp only [retired, found] at cqeIn
  have inv := reach.inv
  obtain ⟨keys, -, -, -⟩ := inv.step_poll_keys stepped found
  have distinct := List.nodup_append.1 (List.map_append Sqe.userData _ _ ▸
    nodup_userData_of_subperm keys ((inv.step stepped).tags_nodup few))
  intro sqe sqeIn same
  refine distinct.2.2 ?_ (List.mem_map_of_mem _ sqeIn)
  rw [same]
  exact List.mem_map_of_mem _ (List.mem_map_of_mem _ cqeIn)

/-- A future that returns `Ready(Ok(res))` retired the completion of its own operation:
it carries the future's tag, its operation and `res`, and no entry with that tag is left
in the ring. -/
theorem poll_ready_ok_own {entries id : Nat} {env : PollEnv} {task : Task Op} {res : Int}
    (reach : Reachable entries s) (stepped : s.next (.poll id env) = some s')
    (few : s'.owners.length < 2 ^ 64) (found : s.tasks[id]? = some task)
    (ready : (poll id env s.inner task.future).output = .ready (.ok res)) :
    ∃ cqe ∈ s.retired (.poll id env),
      (poll id env s.inner task.future).future = .submitted cqe.userData ∧
      cqe.result = res ∧ cqe.sqe.op = task.op ∧
      ∀ sqe ∈ s'.inner.ring.live, sqe.userData ≠ cqe.userData := by
  have inv := reach.inv
  obtain ⟨keys, -, -, -⟩ := inv.step_poll_keys stepped found
  obtain ⟨userData, others, cqe, future, retiredEq, tagged, result, -⟩ := poll_ready_ok ready
  have cqeIn : cqe ∈ s.retired (.poll id env) := by simp [retired, found, retiredEq]
  have ownIn : (userData, task.op) ∈ s'.owners := by
    obtain ⟨_, found', -, -, rfl⟩ := next_poll stepped
    cases found.symm.trans found'
    show (userData, (polledTask task (poll id env s.inner task.future)).op) ∈ _
    exact owner_mem (List.getElem?_set_self (List.getElem?_eq_some_iff.1 found).1)
      (by simp [polledTask, future])
  have keyIn : key cqe.sqe ∈ s'.owners := by
    refine keys.subset (List.mem_map_of_mem key (List.mem_append_left _ (List.mem_map_of_mem _ ?_)))
    simpa [retired, found] using cqeIn
  refine ⟨cqe, cqeIn, tagged ▸ future, result, ?_, retired_not_live reach stepped few cqeIn⟩
  exact congrArg Prod.snd
    (List.inj_on_of_nodup_map ((inv.step stepped).tags_nodup few) keyIn ownIn tagged)

/-- One NOP, polled once, completed with `7`, and polled again. -/
theorem poll_ready_ok_own_nop :
    ∃ s : System Unit, Reachable 8 s ∧ ∃ s', s.next (.poll 0 ⟨.ok 1, none⟩) = some s' ∧
      ∃ task, s.tasks[0]? = some task ∧
        ∃ cqe ∈ s.retired (.poll 0 ⟨.ok 1, none⟩),
          (poll 0 ⟨.ok 1, none⟩ s.inner task.future).future = .submitted cqe.userData ∧
          cqe.result = 7 ∧ cqe.sqe.op = task.op ∧
          ∀ sqe ∈ s'.inner.ring.live, sqe.userData ≠ cqe.userData := by
  have reach := Reachable.run Reachable.init (rfl : run next (init 8 : System Unit)
    [.spawn (), .poll 0 ⟨.ok 1, none⟩, .complete 0 7] = _)
  refine ⟨_, reach, _, rfl, _, rfl, ?_⟩
  exact poll_ready_ok_own reach (by exact rfl) (by decide) (by exact rfl) (by exact rfl)

/-- Tags once handed out stay handed out. -/
theorem Inv.step_owners_subperm {e : Event Op} (inv : s.Inv) (stepped : s.next e = some s') :
    s.owners.Subperm s'.owners := by
  cases e with
  | spawn op => rw [owners_spawn stepped]
  | poll id env =>
      obtain ⟨task, found, -⟩ := next_poll stepped
      exact (inv.step_poll_keys stepped found).2.2.2
  | complete index res =>
      obtain ⟨ring, -, rfl⟩ := next_complete stepped
      exact .refl _
  | drop id => rw [owners_drop stepped]

/-- One event of the executor. -/
def Stepped (s s' : System Op) : Prop := ∃ e, s.next e = some s'

theorem Reachable.follows {entries : Nat} (reach : Reachable entries s)
    (later : Relation.ReflTransGen Stepped s s') : Reachable entries s' := by
  induction later with
  | refl => exact reach
  | tail _ stepped ih =>
      obtain ⟨e, stepped⟩ := stepped
      exact ih.step stepped

section Lost

variable {id : Nat} {tag : BitVec 64}

/-- Task `id` took tag `tag` and has no result, and no entry of the ring carries the
tag any more: the completion of its operation is gone. -/
structure Lost (id : Nat) (tag : BitVec 64) (s : System Op) : Prop where
  pending : ∃ task, s.tasks[id]? = some task ∧ task.tag = some tag ∧
    ∀ res, task.output ≠ some (.ok res)
  absent : ∀ sqe ∈ s.inner.ring.live, sqe.userData ≠ tag

theorem Lost.step_poll {id' : Nat} {env : PollEnv} (inv : s.Inv) (lost : s.Lost id tag)
    (few : s.owners.length + 1 < 2 ^ 64) (stepped : s.next (.poll id' env) = some s') :
    s'.Lost id tag := by
  obtain ⟨⟨task, found, tagged, notOk⟩, absent⟩ := lost
  have fresh := inv.nextUserData_fresh few (owner_mem found tagged)
  obtain ⟨task', found', -, -, rfl⟩ := next_poll stepped
  have gone : ∀ sqe ∈ (poll id' env s.inner task'.future).retired.map Cqe.sqe ++
      (poll id' env s.inner task'.future).inner.ring.live, sqe.userData ≠ tag :=
    fun sqe mem => (poll_mem_live mem).elim (absent sqe) fun stamped => stamped ▸ fresh
  refine ⟨?_, fun sqe mem => gone sqe (List.mem_append_right _ mem)⟩
  by_cases same : id' = id
  · subst same
    cases found.symm.trans found'
    refine ⟨_, List.getElem?_set_self (List.getElem?_eq_some_iff.1 found).1, ?_, ?_⟩
    · simp [polledTask, poll_future, Task.tag_eq_some.1 tagged]
    · intro res ok
      simp only [polledTask, Poll.value_eq_some] at ok
      obtain ⟨userData, others, cqe, future, retiredEq, cqeTag, -⟩ := poll_ready_ok ok
      rw [poll_future, Task.tag_eq_some.1 tagged, SubmitFuture.submitted.injEq] at future
      exact gone cqe.sqe (List.mem_append_left _ (List.mem_map_of_mem _ (by simp [retiredEq])))
        (cqeTag.trans future.symm)
  · exact ⟨task, (List.getElem?_set_ne same).trans found, tagged, notOk⟩

/-- Once a task's completion is gone, it stays gone and the task gets no result, whatever
happens next, while one more tag still fits. -/
theorem Lost.step {e : Event Op} (inv : s.Inv) (lost : s.Lost id tag)
    (few : s.owners.length + 1 < 2 ^ 64) (stepped : s.next e = some s') : s'.Lost id tag := by
  cases e with
  | spawn op =>
      obtain ⟨⟨task, found, pending⟩, absent⟩ := lost
      rw [next_spawn stepped]
      exact ⟨⟨task,
        (List.getElem?_append_left (List.getElem?_eq_some_iff.1 found).1).trans found, pending⟩,
        absent⟩
  | poll id' env => exact lost.step_poll inv few stepped
  | complete index res =>
      obtain ⟨ring, done, rfl⟩ := next_complete stepped
      exact ⟨lost.pending,
        fun sqe mem => lost.absent sqe ((Ring.complete_live done).subset mem)⟩
  | drop id' =>
      obtain ⟨⟨task, found, tagged, notOk⟩, absent⟩ := lost
      obtain ⟨task', found', rfl⟩ := next_drop stepped
      refine ⟨?_, absent⟩
      by_cases same : id' = id
      · subst same
        cases found.symm.trans found'
        exact ⟨_, List.getElem?_set_self (List.getElem?_eq_some_iff.1 found).1, tagged, notOk⟩
      · exact ⟨task, (List.getElem?_set_ne same).trans found, tagged, notOk⟩

/-- A lost completion stays lost along every run with fewer than `2 ^ 64 - 1` tags. -/
theorem Lost.follows {entries : Nat} (reach : Reachable entries s) (lost : s.Lost id tag)
    (later : Relation.ReflTransGen Stepped s s') (few : s'.owners.length + 1 < 2 ^ 64) :
    s'.Lost id tag := by
  induction later with
  | refl => exact lost
  | tail earlier stepped ih =>
      obtain ⟨e, stepped⟩ := stepped
      have inv := (reach.follows earlier).inv
      have grows := (inv.step_owners_subperm stepped).length_le
      exact (ih (by omega)).step inv (by omega) stepped

/-- A poll that retires the completion of another task still without a result loses
that completion: no entry carries the other task's tag any more. -/
theorem Lost.of_retired {entries id' : Nat} {env : PollEnv} {task : Task Op} {cqe : Cqe Op}
    (reach : Reachable entries s) (stepped : s.next (.poll id' env) = some s')
    (few : s'.owners.length < 2 ^ 64) (cqeIn : cqe ∈ s.retired (.poll id' env))
    (other : id' ≠ id) (found : s.tasks[id]? = some task) (tagged : task.tag = some cqe.userData)
    (notOk : ∀ res, task.output ≠ some (.ok res)) : s'.Lost id cqe.userData := by
  refine ⟨?_, retired_not_live reach stepped few cqeIn⟩
  obtain ⟨_, _, -, -, rfl⟩ := next_poll stepped
  exact ⟨task, (List.getElem?_set_ne other).trans found, tagged, notOk⟩

/-- Tags handed out along a run only grow in number. -/
theorem owners_length_le_of_follows {entries : Nat} (reach : Reachable entries s)
    (later : Relation.ReflTransGen Stepped s s') : s.owners.length ≤ s'.owners.length := by
  induction later with
  | refl => exact le_rfl
  | tail earlier stepped ih =>
      obtain ⟨e, stepped⟩ := stepped
      exact ih.trans ((reach.follows earlier).inv.step_owners_subperm stepped).length_le

/-- The completion of a task without a result, retired by another task's poll, is lost:
in no run from there, with fewer than `2 ^ 64 - 1` tags, does the task return a
result. -/
theorem never_ok_of_retired {entries : Nat} {s'' : System Op} {task task'' : Task Op}
    {cqe : Cqe Op} (id' : Nat) (env : PollEnv) (reach : Reachable entries s)
    (stepped : s.next (.poll id' env) = some s') (cqeIn : cqe ∈ s.retired (.poll id' env))
    (other : id' ≠ id) (found : s.tasks[id]? = some task) (tagged : task.tag = some cqe.userData)
    (notOk : ∀ res, task.output ≠ some (.ok res)) (later : Relation.ReflTransGen Stepped s' s'')
    (few : s''.owners.length + 1 < 2 ^ 64) (found'' : s''.tasks[id]? = some task'') :
    ∀ res, task''.output ≠ some (.ok res) := by
  have grows := owners_length_le_of_follows (reach.step stepped) later
  have lost := Lost.of_retired reach stepped (by omega) cqeIn other found tagged notOk
  obtain ⟨task', found', -, notOk'⟩ := (lost.follows (reach.step stepped) later few).pending
  cases found'.symm.trans found''
  exact notOk'

end Lost

/-- Two NOPs on a ring of eight entries, each polled once, and the kernel completes the
first.  The second task's poll retires that completion while the first task still waits
for it, and from then on no run gives the first task its result. -/
theorem foreign_completion_lost :
    ∃ s : System Unit, Reachable 8 s ∧ ∃ s', s.next (.poll 1 ⟨.ok 1, none⟩) = some s' ∧
      ∃ cqe ∈ s.retired (.poll 1 ⟨.ok 1, none⟩), ∃ task, s.tasks[0]? = some task ∧
        task.live = true ∧ task.tag = some cqe.userData ∧
        ∀ s'', Relation.ReflTransGen Stepped s' s'' → s''.owners.length + 1 < 2 ^ 64 →
          ∀ task'', s''.tasks[0]? = some task'' →
            ∀ res, task''.output ≠ some (.ok res) := by
  have reach := Reachable.run Reachable.init (rfl : run next (init 8 : System Unit) [.spawn (),
    .spawn (), .poll 0 ⟨.ok 1, none⟩, .poll 1 ⟨.ok 1, none⟩, .complete 0 0] = _)
  refine ⟨_, reach, _, rfl, ⟨⟨(), 1, false⟩, 0⟩, by decide, _, rfl, by decide, rfl, ?_⟩
  intro s'' later few task'' found
  exact never_ok_of_retired 1 ⟨.ok 1, none⟩ reach rfl
    (by decide : (⟨⟨(), 1, false⟩, 0⟩ : Cqe Unit) ∈ _) (by decide : 1 ≠ 0) rfl rfl
    (fun _ h => nomatch h) later few found

end System

end Tokio

end LiburingRs
