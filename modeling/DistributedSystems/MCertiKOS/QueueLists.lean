import DistributedSystems.MCertiKOS.Queues

/-!
# All thread queues at once

The pool of queues refines a table of lists: after `tqueue_init` all lists are empty, and an operation
on the indices is the same operation on the list of its queue.  No thread is in two lists.
-/

namespace MCertiKOS

open Function

/-! ## 1. `tqueue_init` and the operations -/

inductive QueueOp
  | enqueue (chid : Chid) (pid : Pid)
  | dequeue (chid : Chid)
  | remove (chid : Chid) (pid : Pid)
  deriving DecidableEq

namespace Sched

def tcbInitAtId (s : Sched) (pid : Pid) : Sched :=
  (((s.tcbSetState pid .dead).tcbSetPrev pid none).tcbSetNext pid none).tcbSetChan pid 0

def tqueueInitAtId (s : Sched) (chid : Chid) : Sched :=
  (s.tqueueSetHead chid none).tqueueSetTail chid none

/-- `tcb_init` and the loop of `tqueue_init`. -/
def tqueueInit (s : Sched) : Sched :=
  (List.finRange (numIds + numCpus)).foldl tqueueInitAtId
    ((List.finRange numIds).foldl tcbInitAtId s)

def queueOp (s : Sched) : QueueOp → Sched × Option Pid
  | .enqueue chid pid => (s.tqueueEnqueue chid pid, none)
  | .dequeue chid => s.tqueueDequeue chid
  | .remove chid pid => (s.tqueueRemove chid pid, none)

def queueOps (s : Sched) : List QueueOp → Sched × List (Option Pid)
  | [] => (s, [])
  | op :: ops =>
    let r := (s.queueOp op).1.queueOps ops
    (r.1, (s.queueOp op).2 :: r.2)

end Sched

/-! ## 2. Lists -/

abbrev QueueLists := Chid → List Pid

namespace QueueLists

def empty : QueueLists := fun _ => []

/-- A thread is enqueued only when it is in no queue, and removed only from the queue it is in. -/
def Legal (q : QueueLists) : QueueOp → Prop
  | .enqueue _ pid => ∀ chid, pid ∉ q chid
  | .dequeue _ => True
  | .remove chid pid => pid ∈ q chid

def queueOp (q : QueueLists) : QueueOp → QueueLists × Option Pid
  | .enqueue chid pid => (Function.update q chid (q chid ++ [pid]), none)
  | .dequeue chid => (Function.update q chid (q chid).tail, (q chid).head?)
  | .remove chid pid => (Function.update q chid ((q chid).erase pid), none)

def queueOps (q : QueueLists) : List QueueOp → QueueLists × List (Option Pid)
  | [] => (q, [])
  | op :: ops =>
    let r := queueOps (q.queueOp op).1 ops
    (r.1, (q.queueOp op).2 :: r.2)

def LegalOps (q : QueueLists) : List QueueOp → Prop
  | [] => True
  | op :: ops => q.Legal op ∧ LegalOps (q.queueOp op).1 ops

instance (q : QueueLists) : (op : QueueOp) → Decidable (q.Legal op)
  | .enqueue _ pid => inferInstanceAs (Decidable (∀ chid, pid ∉ q chid))
  | .dequeue _ => inferInstanceAs (Decidable True)
  | .remove chid pid => inferInstanceAs (Decidable (pid ∈ q chid))

instance decidableLegalOps : (q : QueueLists) → (ops : List QueueOp) → Decidable (q.LegalOps ops)
  | _, [] => inferInstanceAs (Decidable True)
  | q, op :: ops =>
    have : Decidable (LegalOps (q.queueOp op).1 ops) := decidableLegalOps _ ops
    inferInstanceAs (Decidable (q.Legal op ∧ LegalOps (q.queueOp op).1 ops))

end QueueLists

/-! ## 3. Refinement -/

namespace Sched

/-- The indices hold these lists, no two of which share a thread. -/
structure Represents (s : Sched) (q : QueueLists) : Prop where
  queue : ∀ chid, s.Queue chid (q chid)
  disjoint : ∀ chid chid', chid ≠ chid' → ∀ pid ∈ q chid, pid ∉ q chid'

theorem represents_tqueueInit (s : Sched) : s.tqueueInit.Represents QueueLists.empty := by
  -- a loop over all queues resets the ends of each
  have hends : ∀ (chids : List Chid) (s : Sched) (chid : Chid), chid ∈ chids →
      (chids.foldl tqueueInitAtId s).tqueue.head chid = none ∧
        (chids.foldl tqueueInitAtId s).tqueue.tail chid = none := by
    intro chids
    induction chids using List.reverseRecOn with
    | nil => exact fun s chid h => absurd h List.not_mem_nil
    | append_singleton chids last ih =>
      intro s chid h
      rw [List.foldl_append]
      by_cases heq : chid = last
      · subst heq
        exact ⟨update_self .., update_self ..⟩
      · have hmem : chid ∈ chids := by simpa [heq] using h
        obtain ⟨hhead, htail⟩ := ih s chid hmem
        exact ⟨(update_of_ne heq ..).trans hhead, (update_of_ne heq ..).trans htail⟩
  constructor
  · intro chid
    obtain ⟨hhead, htail⟩ := hends (List.finRange (numIds + numCpus))
      ((List.finRange numIds).foldl tcbInitAtId s) chid (List.mem_finRange chid)
    exact ⟨LinkedLists.Linked.nil, hhead, htail⟩
  · exact fun _ _ _ pid hpid => absurd hpid List.not_mem_nil

variable {s : Sched} {q : QueueLists}

variable {chid : Chid}

/-- What the step lemmas below have in common: one list changes, to threads that were in it or in no
list. -/
theorem Represents.update (h : s.Represents q) {s' : Sched} {l : List Pid}
    (hqueue : s'.Queue chid l) (hother : ∀ d, d ≠ chid → s'.Queue d (q d))
    (hmem : ∀ pid ∈ l, pid ∈ q chid ∨ ∀ d, pid ∉ q d) :
    s'.Represents (Function.update q chid l) := by
  have hout : ∀ d, d ≠ chid → ∀ pid ∈ l, pid ∉ q d := by
    intro d hd pid hpid
    rcases hmem pid hpid with hold | hnew
    · exact h.disjoint chid d (Ne.symm hd) pid hold
    · exact hnew d
  constructor
  · intro d
    by_cases hd : d = chid
    · subst hd
      rw [update_self]
      exact hqueue
    · rw [update_of_ne hd]
      exact hother d hd
  · intro d e hde pid hpid
    by_cases hd : d = chid
    · subst hd
      rw [update_self] at hpid
      rw [update_of_ne (Ne.symm hde)]
      exact hout e (Ne.symm hde) pid hpid
    · rw [update_of_ne hd] at hpid
      by_cases he : e = chid
      · subst he
        rw [update_self]
        exact fun hl => hout d hd pid hl hpid
      · rw [update_of_ne he]
        exact h.disjoint d e hde pid hpid

theorem Represents.enqueue (h : s.Represents q) {pid : Pid} (hlegal : q.Legal (.enqueue chid pid)) :
    (s.tqueueEnqueue chid pid).Represents (Function.update q chid (q chid ++ [pid])) := by
  apply h.update ((h.queue chid).enqueue (hlegal chid))
  · intro d hd
    exact (h.queue chid).enqueue_other (h.queue d) hd (h.disjoint d chid hd) (hlegal d)
  · intro x hx
    rcases List.mem_append.mp hx with hold | hnew
    · exact Or.inl hold
    · obtain rfl := List.mem_singleton.mp hnew
      exact Or.inr hlegal

theorem Represents.dequeue (h : s.Represents q) (chid : Chid) :
    (s.tqueueDequeue chid).1.Represents (Function.update q chid (q chid).tail) ∧
      (s.tqueueDequeue chid).2 = (q chid).head? := by
  have hother : ∀ d, d ≠ chid → (s.tqueueDequeue chid).1.Queue d (q d) := fun d hd =>
    (h.queue chid).dequeue_other (h.queue d) hd (h.disjoint d chid hd)
  have hqueue := h.queue chid
  cases hl : q chid with
  | nil =>
    rw [hl] at hqueue
    refine ⟨h.update ?_ hother fun pid hpid => absurd hpid List.not_mem_nil, ?_⟩
    · rw [hqueue.dequeue_nil]
      exact hqueue
    · rw [hqueue.dequeue_nil]
      rfl
  | cons pid rest =>
    rw [hl] at hqueue
    obtain ⟨hout, hrest⟩ := hqueue.dequeue
    refine ⟨h.update hrest hother fun x hx => Or.inl ?_, hout⟩
    rw [hl]
    exact List.mem_cons_of_mem _ hx

theorem Represents.remove (h : s.Represents q) {pid : Pid} (hlegal : q.Legal (.remove chid pid)) :
    (s.tqueueRemove chid pid).Represents (Function.update q chid ((q chid).erase pid)) := by
  obtain ⟨xs, ys, hxs, hl, herase⟩ := List.exists_erase_eq hlegal
  have hqueue := h.queue chid
  rw [hl] at hqueue
  apply h.update
  · rw [herase]
    exact hqueue.remove
  · intro d hd
    apply hqueue.remove_other (h.queue d) hd
    rw [← hl]
    exact h.disjoint d chid hd
  · exact fun x hx => Or.inl (List.mem_of_mem_erase hx)

theorem Represents.queueOp (h : s.Represents q) {op : QueueOp} (hlegal : q.Legal op) :
    (s.queueOp op).1.Represents (q.queueOp op).1 ∧ (s.queueOp op).2 = (q.queueOp op).2 := by
  cases op with
  | enqueue chid pid => exact ⟨h.enqueue hlegal, rfl⟩
  | dequeue chid => exact h.dequeue chid
  | remove chid pid => exact ⟨h.remove hlegal, rfl⟩

theorem Represents.queueOps {ops : List QueueOp} (h : s.Represents q) (hlegal : q.LegalOps ops) :
    (s.queueOps ops).1.Represents (q.queueOps ops).1 ∧ (s.queueOps ops).2 = (q.queueOps ops).2 := by
  induction ops generalizing s q with
  | nil => exact ⟨h, rfl⟩
  | cons op ops ih =>
    obtain ⟨hop, hout⟩ := h.queueOp hlegal.1
    obtain ⟨hops, houts⟩ := ih hop hlegal.2
    exact ⟨hops, by
      show _ :: _ = _ :: _
      rw [hout, houts]⟩

/-- **Thread queues are FIFO lists.**  After `tqueue_init`, whatever legal operations are run: the
indices hold the lists that the same operations give, pairwise without a common thread, and every
`tqueue_dequeue` has returned the head of its list. -/
theorem thread_queues_are_lists (s : Sched) (ops : List QueueOp)
    (hlegal : QueueLists.empty.LegalOps ops) :
    (s.tqueueInit.queueOps ops).1.Represents (QueueLists.empty.queueOps ops).1 ∧
      (s.tqueueInit.queueOps ops).2 = (QueueLists.empty.queueOps ops).2 :=
  (represents_tqueueInit s).queueOps hlegal

def firstQueue : Chid := ⟨0, by decide⟩

def thread (i : Nat) (h : i < numIds := by decide) : Pid := ⟨i, h⟩

def middleRemoved : List QueueOp :=
  [.enqueue firstQueue (thread 2), .enqueue firstQueue (thread 3), .enqueue firstQueue (thread 4),
    .remove firstQueue (thread 3), .dequeue firstQueue]

theorem thread_queues_are_lists_middleRemoved :
    ((threadInit []).tqueueInit.queueOps middleRemoved).1.Queue firstQueue [thread 4] ∧
      ((threadInit []).tqueueInit.queueOps middleRemoved).2 =
        [none, none, none, none, some (thread 2)] := by
  obtain ⟨hlists, houts⟩ :=
    thread_queues_are_lists (threadInit []) middleRemoved (by decide +kernel)
  have hlist : (QueueLists.empty.queueOps middleRemoved).1 firstQueue = [thread 4] := by
    decide +kernel
  refine ⟨?_, houts.trans (by decide +kernel)⟩
  rw [← hlist]
  exact hlists.queue firstQueue

end Sched

end MCertiKOS
