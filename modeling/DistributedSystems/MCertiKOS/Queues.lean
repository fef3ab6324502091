import DistributedSystems.Library.LinkedLists
import DistributedSystems.MCertiKOS.Threads

/-!
# Thread queues are lists

All queues keep their links in the thread control blocks.  `Queue` says which list a queue holds; the
operations append, take the first and take out any element of that list, and leave every other queue
alone.
-/

namespace MCertiKOS

open Function

namespace Sched

open LinkedLists

/-- The queue `chid` holds the threads of `l`, in this order. -/
structure Queue (s : Sched) (chid : Chid) (l : List Pid) : Prop where
  linked : Linked s.tcb.prev s.tcb.next l
  head : s.tqueue.head chid = l.head?
  tail : s.tqueue.tail chid = l.getLast?

/-- Threads without their links: what the queue operations leave alone. -/
structure View where
  state : Pid → TState
  channel : Pid → BitVec 32
  curid : Pid
  switched : Pid
  kctx : Pid → Option Kctx
  pmm : Pmm

def view (s : Sched) : View := ⟨s.tcb.state, s.tcb.channel, s.curid, s.switched, s.kctx, s.pmm⟩

theorem Queue.congr {s s' : Sched} {chid : Chid} {l : List Pid} (h : s.Queue chid l)
    (hprev : ∀ a ∈ l, s'.tcb.prev a = s.tcb.prev a) (hnext : ∀ a ∈ l, s'.tcb.next a = s.tcb.next a)
    (hhead : s'.tqueue.head chid = s.tqueue.head chid)
    (htail : s'.tqueue.tail chid = s.tqueue.tail chid) : s'.Queue chid l :=
  ⟨h.linked.congr fun a ha => ⟨hprev a ha, hnext a ha⟩, hhead.trans h.head, htail.trans h.tail⟩

variable {s : Sched} {c c' : Chid} {p : Pid} {l l' : List Pid}

/-! ## 1. `tqueue_enqueue` -/

theorem enqueue_view (s : Sched) (c : Chid) (p : Pid) : (s.tqueueEnqueue c p).view = s.view := by
  unfold tqueueEnqueue
  split
  · rfl
  · rfl

theorem Queue.enqueue (h : s.Queue c l) (hp : p ∉ l) : (s.tqueueEnqueue c p).Queue c (l ++ [p]) := by
  have ht := h.tail
  unfold tqueueEnqueue
  cases hl : l.getLast? with
  | none =>
    obtain rfl := List.getLast?_eq_none_iff.mp hl
    rw [ht, hl]
    refine ⟨h.linked.snoc hp ?_ ?_ ?_ ?_ ?_, ?_, ?_⟩
    · exact update_self ..
    · exact update_self ..
    · exact fun a ha => absurd ha (by simp)
    · exact fun a ha => absurd ha List.not_mem_nil
    · exact fun a ha => absurd ha List.not_mem_nil
    · exact update_self ..
    · exact update_self ..
  | some t =>
    rw [ht, hl]
    have htl : t ∈ l := List.mem_of_getLast? hl
    have hne : ∀ a ∈ l, a ≠ p := fun a ha he => hp (he ▸ ha)
    refine ⟨h.linked.snoc hp ?_ ?_ (fun a ha => ?_) (fun a ha => ?_) (fun a ha hlast => ?_), ?_, ?_⟩
    · exact (update_self ..).trans hl.symm
    · exact update_self ..
    · obtain rfl : t = a := Option.some.inj (hl.symm.trans ha)
      show update (update s.tcb.next t (some p)) p none t = _
      rw [update_of_ne (hne t htl), update_self]
    · exact update_of_ne (hne a ha) ..
    · have hat : a ≠ t := fun he => hlast (he ▸ hl)
      show update (update s.tcb.next t (some p)) p none a = _
      rw [update_of_ne (hne a ha), update_of_ne hat]
    · show s.tqueue.head c = _
      rw [h.head, List.head?_append]
      cases l with
      | nil => exact absurd htl List.not_mem_nil
      | cons a l => rfl
    · exact (update_self ..).trans (by simp)

theorem Queue.enqueue_other (h : s.Queue c l) (h' : s.Queue c' l') (hc : c' ≠ c)
    (hdis : ∀ a ∈ l', a ∉ l) (hp : p ∉ l') : (s.tqueueEnqueue c p).Queue c' l' := by
  have hne : ∀ a ∈ l', a ≠ p := fun a ha he => hp (he ▸ ha)
  have ht := h.tail
  unfold tqueueEnqueue
  cases hl : l.getLast? with
  | none =>
    rw [ht, hl]
    exact h'.congr (fun a ha => update_of_ne (hne a ha) ..)
      (fun a ha => update_of_ne (hne a ha) ..) (update_of_ne hc ..)
      (update_of_ne hc ..)
  | some t =>
    rw [ht, hl]
    refine h'.congr (fun a ha => update_of_ne (hne a ha) ..) (fun a ha => ?_) rfl
      (update_of_ne hc ..)
    have hat : a ≠ t := fun he => hdis a ha (he ▸ List.mem_of_getLast? hl)
    show update (update s.tcb.next t (some p)) p none a = _
    rw [update_of_ne (hne a ha), update_of_ne hat]

/-! ## 2. `tqueue_dequeue` -/

theorem dequeue_view (s : Sched) (c : Chid) : (s.tqueueDequeue c).1.view = s.view := by
  unfold tqueueDequeue
  split
  · rfl
  · split
    · rfl
    · rfl

theorem Queue.dequeue_nil (h : s.Queue c []) : s.tqueueDequeue c = (s, none) := by
  unfold tqueueDequeue
  rw [h.head]
  rfl

theorem Queue.dequeue (h : s.Queue c (p :: l)) :
    (s.tqueueDequeue c).2 = some p ∧ (s.tqueueDequeue c).1.Queue c l := by
  have hnd := List.nodup_cons.mp h.linked.nodup
  have hne : ∀ a ∈ l, a ≠ p := fun a ha he => hnd.1 (he ▸ ha)
  have hnext := h.linked.next_head rfl
  have hhead : s.tqueue.head c = some p := h.head
  unfold tqueueDequeue
  rw [hhead]
  dsimp only
  rw [hnext]
  refine ⟨rfl, ?_⟩
  have hrest : Linked s.tcb.prev s.tcb.next ([] ++ p :: l) := h.linked
  cases l with
  | nil =>
    refine ⟨Linked.nil, ?_, ?_⟩
    · exact update_self ..
    · exact update_self ..
  | cons b l =>
    refine ⟨?_, update_self .., ?_⟩
    · refine hrest.remove (fun a ha => absurd ha (by simp)) (fun a ha => ?_) (fun a ha _ => ?_)
        (fun a ha hb => ?_)
      · obtain rfl : b = a := Option.some.inj ha
        show update (update s.tcb.prev b none) p none b = _
        rw [update_of_ne (hne b List.mem_cons_self), update_self]
        rfl
      · exact update_of_ne (hne a ha) ..
      · have hab : a ≠ b := fun he => hb (he ▸ rfl)
        show update (update s.tcb.prev b none) p none a = _
        rw [update_of_ne (hne a ha), update_of_ne hab]
    · show s.tqueue.tail c = _
      rw [h.tail, List.getLast?_cons_cons]

theorem Queue.dequeue_other (h : s.Queue c l) (h' : s.Queue c' l') (hc : c' ≠ c)
    (hdis : ∀ a ∈ l', a ∉ l) : (s.tqueueDequeue c).1.Queue c' l' := by
  cases l with
  | nil =>
    rw [h.dequeue_nil]
    exact h'
  | cons p l =>
    have hne : ∀ a ∈ l', a ≠ p := fun a ha he => hdis a ha (he ▸ List.mem_cons_self)
    have hhead : s.tqueue.head c = some p := h.head
    unfold tqueueDequeue
    rw [hhead]
    dsimp only
    rw [h.linked.next_head rfl]
    cases l with
    | nil =>
      exact h'.congr (fun a ha => update_of_ne (hne a ha) ..)
        (fun a ha => update_of_ne (hne a ha) ..) (update_of_ne hc ..)
        (update_of_ne hc ..)
    | cons b l =>
      refine h'.congr (fun a ha => ?_) (fun a ha => update_of_ne (hne a ha) ..)
        (update_of_ne hc ..) rfl
      have hab : a ≠ b := fun he => hdis a ha (he ▸ List.mem_cons_of_mem _ List.mem_cons_self)
      show update (update s.tcb.prev b none) p none a = _
      rw [update_of_ne (hne a ha), update_of_ne hab]

/-! ## 3. `tqueue_remove` -/

theorem remove_view (s : Sched) (c : Chid) (p : Pid) : (s.tqueueRemove c p).view = s.view := by
  unfold tqueueRemove
  split
  · rfl
  · rfl
  · rfl
  · split
    · rfl
    · rfl

variable {xs ys : List Pid}

/-- What the four cases have in common: the neighbours of `p` are linked to each other. -/
theorem Queue.remove_links (h : s.Queue c (xs ++ p :: ys)) {x : Pid} (hx : x ≠ p) :
    (s.tqueueRemove c p).tcb.next x = (if xs.getLast? = some x then ys.head? else s.tcb.next x) ∧
      (s.tqueueRemove c p).tcb.prev x =
        (if ys.head? = some x then xs.getLast? else s.tcb.prev x) := by
  obtain ⟨hprev, hnext⟩ := h.linked.links xs p ys rfl
  have hnd := h.linked.nodup
  unfold tqueueRemove
  rw [hprev, hnext]
  cases hl : xs.getLast? with
  | none =>
    cases hr : ys.head? with
    | none => simp [tqueueSetHead, tqueueSetTail, tcbSetNext, tcbSetPrev, hx]
    | some b =>
      rcases eq_or_ne x b with rfl | hxb
      · simp [tqueueSetHead, tcbSetNext, tcbSetPrev, hx]
      · simp [tqueueSetHead, tcbSetNext, tcbSetPrev, hx, hxb, hxb.symm]
  | some a =>
    cases hr : ys.head? with
    | none =>
      rcases eq_or_ne x a with rfl | hxa
      · simp [tqueueSetTail, tcbSetNext, tcbSetPrev, hx]
      · simp [tqueueSetTail, tcbSetNext, tcbSetPrev, hx, hxa, hxa.symm]
    | some b =>
      -- the neighbours are different threads, so the inner test always passes
      have hab : a ≠ b := by
        have hdis := (List.nodup_append.mp hnd).2.2 a (List.mem_of_getLast? hl) b
        exact hdis (List.mem_cons_of_mem _ (List.mem_of_mem_head? hr))
      rcases eq_or_ne x a with rfl | hxa
      · simp [tcbSetNext, tcbSetPrev, hx, hab, hab.symm]
      · rcases eq_or_ne x b with rfl | hxb
        · simp [tcbSetNext, tcbSetPrev, hx, hxa, hab]
        · simp [tcbSetNext, tcbSetPrev, hx, hab, hxa, hxb, hxa.symm, hxb.symm]

theorem Queue.remove_ends (h : s.Queue c (xs ++ p :: ys)) (d : Chid) :
    (s.tqueueRemove c p).tqueue.head d = (if d = c then (xs ++ ys).head? else s.tqueue.head d) ∧
      (s.tqueueRemove c p).tqueue.tail d =
        (if d = c then (xs ++ ys).getLast? else s.tqueue.tail d) := by
  obtain ⟨hprev, hnext⟩ := h.linked.links xs p ys rfl
  have hhead := h.head
  have htail := h.tail
  unfold tqueueRemove
  rw [hprev, hnext]
  rcases xs.eq_nil_or_concat with rfl | ⟨xs, a, rfl⟩
  · cases ys with
    | nil =>
      rcases eq_or_ne d c with rfl | hd
      · simp [tqueueSetHead, tqueueSetTail, tcbSetNext, tcbSetPrev]
      · simp [tqueueSetHead, tqueueSetTail, tcbSetNext, tcbSetPrev, hd]
    | cons b ys =>
      rcases eq_or_ne d c with rfl | hd
      · rw [List.nil_append, List.getLast?_cons_cons] at htail
        simp [tqueueSetHead, tcbSetNext, tcbSetPrev, htail]
      · simp [tqueueSetHead, tcbSetNext, tcbSetPrev, hd]
  · cases ys with
    | nil =>
      rcases eq_or_ne d c with rfl | hd
      · simp [tqueueSetTail, tcbSetNext, tcbSetPrev, hhead]
      · simp [tqueueSetTail, tcbSetNext, tcbSetPrev, hd]
    | cons b ys =>
      rcases eq_or_ne d c with rfl | hd
      · rw [List.getLast?_append_of_ne_nil _ (List.cons_ne_nil _ _), List.getLast?_cons_cons] at htail
        rw [if_pos rfl, if_pos rfl, List.getLast?_append_of_ne_nil _ (List.cons_ne_nil _ _), ← htail]
        by_cases hab : a = b
        · simp [tcbSetNext, tcbSetPrev, hhead, hab]
        · simp [tcbSetNext, tcbSetPrev, hhead, hab]
      · by_cases hab : a = b
        · simp [tcbSetNext, tcbSetPrev, hd, hab]
        · simp [tcbSetNext, tcbSetPrev, hd, hab]

theorem Queue.remove (h : s.Queue c (xs ++ p :: ys)) : (s.tqueueRemove c p).Queue c (xs ++ ys) := by
  have hne : ∀ a ∈ xs ++ ys, a ≠ p := by
    rintro a ha rfl
    exact (List.nodup_middle.mp h.linked.nodup |> List.nodup_cons.mp).1 ha
  refine ⟨h.linked.remove (fun a ha => ?_) (fun b hb => ?_) (fun a ha hl => ?_) (fun b hb hr => ?_),
    ?_, ?_⟩
  · have hmem : a ∈ xs ++ ys := List.mem_append_left _ (List.mem_of_getLast? ha)
    rw [(h.remove_links (hne a hmem)).1, if_pos ha]
  · have hmem : b ∈ xs ++ ys := List.mem_append_right _ (List.mem_of_mem_head? hb)
    rw [(h.remove_links (hne b hmem)).2, if_pos hb]
  · rw [(h.remove_links (hne a ha)).1, if_neg hl]
  · rw [(h.remove_links (hne b hb)).2, if_neg hr]
  · rw [(h.remove_ends c).1, if_pos rfl]
  · rw [(h.remove_ends c).2, if_pos rfl]

theorem Queue.remove_other (h : s.Queue c (xs ++ p :: ys)) (h' : s.Queue c' l') (hc : c' ≠ c)
    (hdis : ∀ a ∈ l', a ∉ xs ++ p :: ys) : (s.tqueueRemove c p).Queue c' l' := by
  have hne : ∀ a ∈ l', a ≠ p ∧ a ∉ xs ∧ a ∉ ys := by
    intro a ha
    have hout := hdis a ha
    rw [List.mem_append, List.mem_cons] at hout
    exact ⟨fun he => hout (Or.inr (Or.inl he)), fun hx => hout (Or.inl hx),
      fun hy => hout (Or.inr (Or.inr hy))⟩
  refine h'.congr (fun a ha => ?_) (fun a ha => ?_) ?_ ?_
  · rw [(h.remove_links (hne a ha).1).2, if_neg]
    exact fun hr => (hne a ha).2.2 (List.mem_of_mem_head? hr)
  · rw [(h.remove_links (hne a ha).1).1, if_neg]
    exact fun hl => (hne a ha).2.1 (List.mem_of_getLast? hl)
  · rw [(h.remove_ends c').1, if_neg hc]
  · rw [(h.remove_ends c').2, if_neg hc]

end Sched

end MCertiKOS
