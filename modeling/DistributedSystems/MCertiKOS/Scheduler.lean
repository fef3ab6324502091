import DistributedSystems.MCertiKOS.Queues
import DistributedSystems.MCertiKOS.Quotas

/-!
# The scheduler

`thread_spawn`, `thread_yield` and `thread_wakeup` keep the current thread, the thread states and the
ready queue in step.  `thread_sleep` does not: it leaves for another thread without making it the
current one.
-/

namespace MCertiKOS

open Function

/-! ## 1. Which containers are in use -/

namespace Pmm

variable {s s' : Pmm} {id : Pid}

theorem kctxNew_used {quota : BitVec 32} {r : Option Pid} (h : s.kctxNew id quota = some (s', r)) :
    (r = none ∧ s'.container = s.container) ∨
    ∃ child, r = some child ∧ s.containerCanConsume id quota = true ∧
      child.val = id.val * maxChildren + 1 + (s.container id).nchildren ∧
      (s'.container child).used = true ∧
      ∀ p, p ≠ child → (s'.container p).used = (s.container p).used := by
  rcases kctxNew_cases h with ⟨_, rfl, rfl⟩ | ⟨hcan, child, hc, rfl, rfl⟩ | ⟨_, _, rfl, rfl⟩
  · exact Or.inl ⟨rfl, rfl⟩
  · have hne := ne_child hc
    refine Or.inr ⟨child, rfl, hcan, hc, ?_, fun p hp => ?_⟩
    · rw [withChild_field (·.used) s id _ quota (fun _ _ _ => rfl) hne, update_self]
    · rw [withChild_field (·.used) s id _ quota (fun _ _ _ => rfl) hne, update_of_ne hp]
  · exact Or.inl ⟨rfl, rfl⟩

theorem containerAlloc_used {page : Nat} (h : s.containerAlloc id = some (s', page)) (p : Pid) :
    (s'.container p).used = (s.container p).used := by
  cases hl : s.locked id with
  | true =>
    unfold containerAlloc spinlockAcquire at h
    rw [hl] at h
    contradiction
  | false =>
    cases hq : BitVec.sle ((s.container id).usage + 1) (s.container id).quota with
    | false =>
      rw [containerAlloc_refused hl hq] at h
      obtain ⟨rfl, _⟩ := Prod.mk.inj (Option.some.inj h)
      rfl
    | true =>
      obtain ⟨r, hr⟩ : ∃ r, s.mem.palloc = some r := by
        rcases s.mem.palloc_spec with ⟨_, _, hp⟩ | ⟨_, hp⟩
        · exact ⟨_, hp⟩
        · exact ⟨_, hp⟩
      rw [containerAlloc_eq hl hq hr] at h
      obtain ⟨rfl, _⟩ := Prod.mk.inj (Option.some.inj h)
      exact withUsage_field (·.used) s id _ (fun _ => rfl) p

theorem containerFree_used {page : Nat} (h : s.containerFree id page = some s') (p : Pid) :
    (s'.container p).used = (s.container p).used := by
  cases hl : s.locked id with
  | true =>
    unfold containerFree spinlockAcquire at h
    rw [hl] at h
    contradiction
  | false =>
    cases ha : s.mem.atIsAllocated page with
    | false =>
      rw [containerFree_unallocated hl ha] at h
      cases h
      rfl
    | true =>
      cases hu : BitVec.slt 0 (s.container id).usage with
      | false =>
        rw [containerFree_uncharged hl ha hu] at h
        cases h
        rfl
      | true =>
        rw [containerFree_eq hl ha hu] at h
        cases h
        exact withUsage_field (·.used) s id _ (fun _ => rfl) p

end Pmm

namespace Sched

/-! ## 2. Threads -/

structure View.Ok (v : View) (l : List Pid) : Prop where
  ready : ∀ p, p ∈ l ↔ v.state p = .ready
  current : v.switched = v.curid
  running : v.state v.curid = .run
  only_running : ∀ p, v.state p = .run → p = v.curid ∨ p = rootPid
  awake : ∀ p, v.state p ≠ .sleep
  resumable : ∀ p ∈ l, v.kctx p = some .entry ∨ v.kctx p = some .yielded
  unused : ∀ p, (v.pmm.container p).used = false → v.state p = .dead

namespace View.Ok

variable {v : View} {l : List Pid} (h : v.Ok l)

include h

theorem curid_notMem : v.curid ∉ l := by
  intro hmem
  have hready := (h.ready v.curid).mp hmem
  rw [h.running] at hready
  exact TState.noConfusion hready

theorem withPmm {pmm : Pmm} (hused : ∀ p, (pmm.container p).used = (v.pmm.container p).used) :
    ({ v with pmm := pmm } : View).Ok l :=
  { h with unused := fun p hp => h.unused p ((hused p).symm.trans hp) }

theorem start {pid : Pid} (hdead : v.state pid = .dead) {pmm : Pmm}
    (hused : (pmm.container pid).used = true)
    (hsame : ∀ p, p ≠ pid → (pmm.container p).used = (v.pmm.container p).used) :
    ({ v with
      state := update v.state pid .ready
      kctx := update v.kctx pid (some .entry)
      pmm := pmm } : View).Ok (l ++ [pid]) := by
  have hcur : v.curid ≠ pid := by
    intro he
    have hrun := h.running
    rw [he, hdead] at hrun
    exact TState.noConfusion hrun
  refine ⟨fun p => ?_, h.current, ?_, fun p hp => ?_, fun p => ?_, fun p hp => ?_, fun p hp => ?_⟩
  all_goals dsimp only at *
  · rw [List.mem_append, List.mem_singleton]
    rcases eq_or_ne p pid with rfl | hne
    · rw [update_self]
      exact ⟨fun _ => rfl, fun _ => Or.inr rfl⟩
    · rw [update_of_ne hne, ← h.ready p]
      exact ⟨fun hp => hp.resolve_right hne, Or.inl⟩
  · rw [update_of_ne hcur]
    exact h.running
  · rcases eq_or_ne p pid with rfl | hne
    · rw [update_self] at hp
      exact TState.noConfusion hp
    · rw [update_of_ne hne] at hp
      exact h.only_running p hp
  · rcases eq_or_ne p pid with rfl | hne
    · rw [update_self]
      exact TState.noConfusion
    · rw [update_of_ne hne]
      exact h.awake p
  · rcases eq_or_ne p pid with rfl | hne
    · rw [update_self]
      exact Or.inl rfl
    · rw [update_of_ne hne]
      rw [List.mem_append, List.mem_singleton] at hp
      exact h.resumable p (hp.resolve_right hne)
  · have hne : p ≠ pid := by
      rintro rfl
      rw [hused] at hp
      exact Bool.noConfusion hp
    rw [update_of_ne hne]
    exact h.unused p ((hsame p hne).symm.trans hp)

theorem yield {a : Pid} {rest : List Pid} (hl : l ++ [v.curid] = a :: rest) (hnd : (a :: rest).Nodup)
    {kctx : Pid → Option Kctx} (hold : ∀ p, p ≠ v.curid → kctx p = v.kctx p)
    (hnew : a ≠ v.curid → kctx v.curid = some .yielded) :
    ({ v with
      state := update (update v.state v.curid .ready) a .run
      curid := a
      switched := a
      kctx := kctx } : View).Ok rest := by
  have hrest : ∀ p, p ∈ rest ↔ p ≠ a ∧ (p ∈ l ∨ p = v.curid) := by
    intro p
    have hmem : p ∈ l ++ [v.curid] ↔ p ∈ a :: rest := by rw [hl]
    rw [List.mem_append, List.mem_singleton, List.mem_cons] at hmem
    have ha := (List.nodup_cons.mp hnd).1
    constructor
    · intro hp
      exact ⟨fun he => ha (he ▸ hp), hmem.mpr (Or.inr hp)⟩
    · exact fun hp => (hmem.mp hp.2).resolve_left hp.1
  -- the states of the other threads do not change
  have hstate : ∀ p, p ≠ a → p ≠ v.curid →
      update (update v.state v.curid .ready) a .run p = v.state p := by
    intro p hpa hpc
    rw [update_of_ne hpa, update_of_ne hpc]
  have hcur : ∀ p, p ≠ a → p = v.curid →
      update (update v.state v.curid .ready) a .run p = .ready := by
    intro p hpa hpc
    rw [update_of_ne hpa, hpc, update_self]
  refine ⟨fun p => ?_, rfl, ?_, fun p hp => ?_, fun p => ?_, fun p hp => ?_, fun p hp => ?_⟩
  all_goals dsimp only at *
  · rw [hrest]
    by_cases hpa : p = a
    · rw [hpa, update_self]
      exact ⟨fun hp => absurd rfl hp.1, TState.noConfusion⟩
    · by_cases hpc : p = v.curid
      · exact ⟨fun _ => hcur p hpa hpc, fun _ => ⟨hpa, Or.inr hpc⟩⟩
      · rw [hstate p hpa hpc, ← h.ready p]
        exact ⟨fun hp => hp.2.resolve_right hpc, fun hp => ⟨hpa, Or.inl hp⟩⟩
  · exact update_self ..
  · by_cases hpa : p = a
    · exact Or.inl hpa
    · by_cases hpc : p = v.curid
      · rw [hcur p hpa hpc] at hp
        exact TState.noConfusion hp
      · rw [hstate p hpa hpc] at hp
        exact Or.inr ((h.only_running p hp).resolve_left hpc)
  · by_cases hpa : p = a
    · rw [hpa, update_self]
      exact TState.noConfusion
    · by_cases hpc : p = v.curid
      · rw [hcur p hpa hpc]
        exact TState.noConfusion
      · rw [hstate p hpa hpc]
        exact h.awake p
  · obtain ⟨hpa, hp⟩ := (hrest p).mp hp
    by_cases hpc : p = v.curid
    · rw [hpc] at hpa ⊢
      exact Or.inr (hnew (Ne.symm hpa))
    · rw [hold p hpc]
      exact h.resumable p (hp.resolve_right hpc)
  · have hdead := h.unused p hp
    have hpc : p ≠ v.curid := by
      intro he
      rw [he, h.running] at hdead
      exact TState.noConfusion hdead
    have hpa : p ≠ a := by
      intro he
      have hmem : a ∈ l ++ [v.curid] := by rw [hl]; exact List.mem_cons_self
      rw [← he, List.mem_append, List.mem_singleton] at hmem
      have hready := (h.ready p).mp (hmem.resolve_right hpc)
      rw [hdead] at hready
      exact TState.noConfusion hready
    rw [hstate p hpa hpc]
    exact hdead

theorem leave {pid : Pid} (hl : l = [pid]) (hroot : v.curid = rootPid) (kctx : Pid → Option Kctx) :
    ({ v with
      state := update v.state pid .run
      curid := pid
      switched := pid
      kctx := kctx } : View).Ok [] := by
  have hstate : ∀ p, p ≠ pid → update v.state pid .run p = v.state p :=
    fun p hp => update_of_ne hp ..
  have hpid : v.state pid = .ready := (h.ready pid).mp (by rw [hl]; exact List.mem_singleton_self _)
  refine ⟨fun p => ?_, rfl, ?_, fun p hp => ?_, fun p => ?_, fun p hp => ?_, fun p hp => ?_⟩
  all_goals dsimp only at *
  · by_cases hp : p = pid
    · rw [hp, update_self]
      exact ⟨fun hm => absurd hm List.not_mem_nil, TState.noConfusion⟩
    · rw [hstate p hp, ← h.ready p, hl, List.mem_singleton]
      exact ⟨fun hm => absurd hm List.not_mem_nil, fun he => absurd he hp⟩
  · exact update_self ..
  · by_cases he : p = pid
    · exact Or.inl he
    · rw [hstate p he] at hp
      rcases h.only_running p hp with hc | hc
      · exact Or.inr (hc.trans hroot)
      · exact Or.inr hc
  · by_cases hp : p = pid
    · rw [hp, update_self]
      exact TState.noConfusion
    · rw [hstate p hp]
      exact h.awake p
  · exact absurd hp List.not_mem_nil
  · have hdead := h.unused p hp
    have hne : p ≠ pid := by
      intro he
      rw [he, hpid] at hdead
      exact TState.noConfusion hdead
    rw [hstate p hne]
    exact hdead

end View.Ok

/-! ## 3. Queues -/

structure ReadyOnly (s : Sched) (l : List Pid) : Prop where
  queue : s.Queue readyQueue l
  others : ∀ c, c ≠ readyQueue → s.Queue c []

namespace ReadyOnly

variable {s s' : Sched} {l : List Pid} {p : Pid}

theorem of_links (h : s.ReadyOnly l) (hprev : s'.tcb.prev = s.tcb.prev)
    (hnext : s'.tcb.next = s.tcb.next) (hends : s'.tqueue = s.tqueue) : s'.ReadyOnly l := by
  have hsame : ∀ {c : Chid} {m : List Pid}, s.Queue c m → s'.Queue c m := fun hq =>
    hq.congr (fun a _ => congrFun hprev a) (fun a _ => congrFun hnext a) (by rw [hends])
      (by rw [hends])
  exact ⟨hsame h.queue, fun c hc => hsame (h.others c hc)⟩

theorem enqueue (h : s.ReadyOnly l) (hp : p ∉ l) :
    (s.tqueueEnqueue readyQueue p).ReadyOnly (l ++ [p]) :=
  ⟨h.queue.enqueue hp, fun c hc => h.queue.enqueue_other (h.others c hc) hc
    (fun _ ha => absurd ha List.not_mem_nil) List.not_mem_nil⟩

theorem dequeue (h : s.ReadyOnly (p :: l)) : ∃ s₁, s.tqueueDequeue readyQueue = (s₁, some p) ∧
    s₁.ReadyOnly l ∧ s₁.view = s.view := by
  obtain ⟨hret, hq⟩ := h.queue.dequeue
  refine ⟨(s.tqueueDequeue readyQueue).1, Prod.ext rfl hret, ⟨hq, fun c hc => ?_⟩, dequeue_view s _⟩
  exact h.queue.dequeue_other (h.others c hc) hc fun _ ha => absurd ha List.not_mem_nil

theorem remove (h : s.ReadyOnly [p]) : (s.tqueueRemove readyQueue p).ReadyOnly [] := by
  have hq : s.Queue readyQueue ([] ++ p :: []) := h.queue
  exact ⟨hq.remove, fun c hc => hq.remove_other (h.others c hc) hc
    fun _ ha => absurd ha List.not_mem_nil⟩

end ReadyOnly

/-! ## 4. Steps -/

structure Inv (s : Sched) (l : List Pid) : Prop where
  queues : s.ReadyOnly l
  threads : s.view.Ok l

/-- The spawn passes the quota check and takes a container that is in use. -/
def spawnClash (s : Sched) (id : Pid) (quota : BitVec 32) : Bool :=
  s.pmm.containerCanConsume id quota &&
    if h : id.val * maxChildren + 1 + (s.pmm.container id).nchildren < numIds then
      (s.pmm.container ⟨id.val * maxChildren + 1 + (s.pmm.container id).nchildren, h⟩).used
    else false

variable {s : Sched}

theorem spawnClash_child {id child : Pid} {quota : BitVec 32} (hc : s.spawnClash id quota = false)
    (hcan : s.pmm.containerCanConsume id quota = true)
    (hchild : child.val = id.val * maxChildren + 1 + (s.pmm.container id).nchildren) :
    (s.pmm.container child).used = false := by
  have hlt : id.val * maxChildren + 1 + (s.pmm.container id).nchildren < numIds :=
    hchild ▸ child.isLt
  unfold spawnClash at hc
  rw [hcan, Bool.true_and, dif_pos hlt] at hc
  have he : child = ⟨id.val * maxChildren + 1 + (s.pmm.container id).nchildren, hlt⟩ := Fin.ext hchild
  rw [he]
  exact hc

theorem kctxSwitch_eq {fromPid toPid : Pid} (hne : toPid ≠ fromPid)
    (hk : s.kctx toPid = some .entry ∨ s.kctx toPid = some .yielded) (here : Kctx) :
    s.kctxSwitch fromPid toPid here =
      some { s with kctx := update s.kctx fromPid (some here), switched := toPid } := by
  have hto : update s.kctx fromPid (some here) toPid = s.kctx toPid :=
    update_of_ne hne ..
  unfold kctxSwitch
  dsimp only
  rw [hto]
  rcases hk with hk | hk
  · rw [hk]
  · rw [hk]

namespace Inv

variable {s : Sched} {l : List Pid} (h : s.Inv l)

include h

theorem withPmm {pmm : Pmm} (hused : ∀ p, (pmm.container p).used = (s.pmm.container p).used) :
    ({ s with pmm := pmm } : Sched).Inv l :=
  ⟨h.queues.of_links rfl rfl rfl, h.threads.withPmm hused⟩

theorem spawn {id : Pid} {quota : BitVec 32} (hc : s.spawnClash id quota = false) {s' : Sched}
    {r : Option Pid} (hs : s.threadSpawn id quota = some (s', r)) :
    s'.curid = s.curid ∧ s'.Inv (l ++ r.toList) := by
  obtain ⟨⟨pmm, pid⟩, hnew, hs⟩ := Option.bind_eq_some_iff.mp hs
  rcases Pmm.kctxNew_used hnew with ⟨rfl, hcont⟩ | ⟨child, rfl, hcan, hchild, hused, hsame⟩
  · obtain ⟨rfl, rfl⟩ := Prod.mk.inj (Option.some.inj hs)
    refine ⟨rfl, ?_⟩
    rw [Option.toList_none, List.append_nil]
    exact h.withPmm fun p => by rw [hcont]
  · obtain ⟨rfl, rfl⟩ := Prod.mk.inj (Option.some.inj hs)
    have hdead := h.threads.unused child (spawnClash_child hc hcan hchild)
    have hout : child ∉ l := by
      intro hmem
      have hready := (h.threads.ready child).mp hmem
      rw [hdead] at hready
      exact TState.noConfusion hready
    refine ⟨congrArg View.curid (enqueue_view _ _ _), ?_, ?_⟩
    · refine ReadyOnly.enqueue ?_ hout
      exact h.queues.of_links rfl rfl rfl
    · rw [enqueue_view]
      exact h.threads.start hdead hused hsame

theorem yield : ∃ s' l', s.threadYield = some s' ∧ s'.Inv l' := by
  have hq₁ : (s.tcbSetState s.curid .ready).ReadyOnly l := h.queues.of_links rfl rfl rfl
  have hq₂ := hq₁.enqueue h.threads.curid_notMem
  obtain ⟨a, rest, hl⟩ : ∃ a rest, l ++ [s.curid] = a :: rest := by
    cases l with
    | nil => exact ⟨_, _, rfl⟩
    | cons a l => exact ⟨_, _, rfl⟩
  rw [show s.view.curid = s.curid from rfl, hl] at hq₂
  obtain ⟨s₃, hdeq, hq₃, hv₃⟩ := hq₂.dequeue
  rw [enqueue_view] at hv₃
  have hyield : s.threadYield =
      if s.curid ≠ a then
        ((s₃.tcbSetState a .run).setCurid a).kctxSwitch s.curid a .yielded
      else some ((s₃.tcbSetState a .run).setCurid a) := by
    unfold threadYield
    dsimp only
    rw [hdeq]
    rfl
  have hnd : (a :: rest).Nodup := hq₂.queue.linked.nodup
  by_cases ha : a = s.curid
  · -- the only thread that could run goes on
    rw [if_neg (not_not.mpr ha.symm)] at hyield
    refine ⟨_, rest, hyield, hq₃.of_links rfl rfl rfl, ?_⟩
    have hview : ((s₃.tcbSetState a .run).setCurid a).view =
        { s.view with
          state := update (update s.tcb.state s.curid .ready) a .run
          curid := a
          switched := a } := by
      have hsw : a = s.switched := ha.trans h.threads.current.symm
      show ({ s₃.view with state := update s₃.view.state a .run, curid := a } : View) = _
      rw [hv₃, hsw]
      rfl
    rw [hview]
    exact h.threads.yield hl hnd (fun _ _ => rfl) fun hne => absurd ha hne
  · have hmem : a ∈ l := by
      have hin : a ∈ l ++ [s.curid] := by rw [hl]; exact List.mem_cons_self
      rw [List.mem_append, List.mem_singleton] at hin
      exact hin.resolve_right ha
    have hk : ((s₃.tcbSetState a .run).setCurid a).kctx a = some .entry ∨
        ((s₃.tcbSetState a .run).setCurid a).kctx a = some .yielded := by
      show s₃.view.kctx a = _ ∨ s₃.view.kctx a = _
      rw [hv₃]
      exact h.threads.resumable a hmem
    rw [if_pos (Ne.symm ha), kctxSwitch_eq ha hk] at hyield
    refine ⟨_, rest, hyield, hq₃.of_links rfl rfl rfl, ?_⟩
    have hview : ({ (s₃.tcbSetState a .run).setCurid a with
          kctx := update s₃.kctx s.curid (some .yielded), switched := a } : Sched).view =
        { s.view with
          state := update (update s.tcb.state s.curid .ready) a .run
          curid := a
          switched := a
          kctx := update s.kctx s.curid (some .yielded) } := by
      show ({ s₃.view with
        state := update s₃.view.state a .run
        curid := a
        switched := a
        kctx := update s₃.view.kctx s.curid (some .yielded) } : View) = _
      rw [hv₃]
      rfl
    refine hview ▸ h.threads.yield hl hnd (fun p hp => update_of_ne hp ..) fun _ => ?_
    exact update_self ..

theorem wakeup (chan : BitVec 32) : s.threadWakeup chan = s := by
  refine Loops.foldl_keeps (I := fun x => x = s) ?_ (List.finRange numIds) s rfl
  rintro x i rfl
  unfold wakeOne
  rw [if_neg]
  exact fun hc => h.threads.awake i hc.1

end Inv

/-! ## 5. Boot -/

theorem threadInit_inv (mmap : List MemRange) : (threadInit mmap).Inv [] := by
  have hstate : ∀ p, p ≠ rootPid → (threadInit mmap).view.state p = .dead := by
    intro p hp
    show update (fun _ => TState.dead) rootPid .run p = _
    rw [update_of_ne hp]
  have hroot : (threadInit mmap).view.state rootPid = .run := by
    show update (fun _ => TState.dead) rootPid .run rootPid = _
    rw [update_self]
  refine ⟨⟨⟨LinkedLists.Linked.nil, rfl, rfl⟩, fun c _ => ⟨LinkedLists.Linked.nil, rfl, rfl⟩⟩,
    ⟨fun p => ?_, rfl, hroot, fun p hp => ?_, fun p => ?_, fun p hp => ?_, fun p hp => ?_⟩⟩
  · by_cases he : p = rootPid
    · rw [he, hroot]
      exact ⟨fun hm => absurd hm List.not_mem_nil, TState.noConfusion⟩
    · rw [hstate p he]
      exact ⟨fun hm => absurd hm List.not_mem_nil, TState.noConfusion⟩
  · by_contra hne
    rw [hstate p fun he => hne (Or.inr he)] at hp
    exact TState.noConfusion hp
  · by_cases he : p = rootPid
    · rw [he, hroot]
      exact TState.noConfusion
    · rw [hstate p he]
      exact TState.noConfusion
  · exact absurd hp List.not_mem_nil
  · -- the root's container is in use
    refine hstate p fun he => ?_
    change ((containerInit mmap).container p).used = false at hp
    rw [he, containerInit_root] at hp
    exact Bool.noConfusion hp

theorem threadInit_noClash (mmap : List MemRange) (quota : BitVec 32) :
    (threadInit mmap).spawnClash rootPid quota = false := by
  unfold spawnClash
  rw [Bool.and_eq_false_iff]
  right
  split
  · show ((containerInit mmap).container _).used = false
    rw [containerInit_other]
    · rfl
    · intro he
      have hv := congrArg Fin.val he
      change 0 * 3 + 1 + _ = 0 at hv
      omega
  · rfl

theorem kernMain_inv {mmap : List MemRange} (hs : (threadInit mmap).kernMain = some s) :
    s.Inv [] := by
  unfold kernMain at hs
  obtain ⟨⟨s₁, r⟩, hspawn, hs⟩ := Option.bind_eq_some_iff.mp hs
  obtain ⟨pid, hr, hs⟩ := Option.bind_eq_some_iff.mp hs
  obtain ⟨hcur, h₁⟩ := (threadInit_inv mmap).spawn (threadInit_noClash mmap 10000) hspawn
  rw [hr] at h₁
  have hq := h₁.queues.remove
  have hv := remove_view s₁ readyQueue pid
  -- the boot thread is not the new one
  have hne : pid ≠ rootPid := by
    intro he
    have hout := h₁.threads.curid_notMem
    rw [show s₁.view.curid = s₁.curid from rfl, hcur] at hout
    exact hout (he ▸ List.mem_cons_self)
  have hk : (((s₁.tqueueRemove readyQueue pid).tcbSetState pid .run).setCurid pid).kctx pid =
        some .entry ∨
      (((s₁.tqueueRemove readyQueue pid).tcbSetState pid .run).setCurid pid).kctx pid =
        some .yielded := by
    show (s₁.tqueueRemove readyQueue pid).view.kctx pid = _ ∨
      (s₁.tqueueRemove readyQueue pid).view.kctx pid = _
    rw [hv]
    exact h₁.threads.resumable pid List.mem_cons_self
  rw [kctxSwitch_eq hne hk] at hs
  obtain rfl := Option.some.inj hs
  refine ⟨hq.of_links rfl rfl rfl, ?_⟩
  show ({ (s₁.tqueueRemove readyQueue pid).view with
    state := update (s₁.tqueueRemove readyQueue pid).view.state pid .run
    curid := pid
    switched := pid
    kctx := _ } : View).Ok []
  rw [hv]
  exact h₁.threads.leave rfl hcur _

/-! ## 6. The scheduler invariant -/

/-- The running thread is the current one and is in state `run`, the boot thread aside it is the only
one, the ready queue holds the ready threads, and sleepers are in no queue. -/
structure SchedulerInvariant (s : Sched) : Prop where
  current : s.switched = s.curid ∧ s.tcb.state s.curid = .run
  only_running : ∀ p, s.tcb.state p = .run → p = s.curid ∨ p = rootPid
  ready : ∃ l, s.Queue readyQueue l ∧ ∀ p, p ∈ l ↔ s.tcb.state p = .ready
  sleeping : ∀ c, ∃ l, s.Queue c l ∧ ∀ p ∈ l, s.tcb.state p ≠ .sleep

/-- No thread sleeps, and no spawn takes the container of a thread that exists. -/
def Schedulable (s : Sched) : Action → Prop
  | .spawn id quota => s.spawnClash id quota = false
  | .sleep _ => False
  | _ => True

theorem Inv.scheduler {l : List Pid} (h : s.Inv l) : s.SchedulerInvariant where
  current := ⟨h.threads.current, h.threads.running⟩
  only_running := h.threads.only_running
  ready := ⟨l, h.queues.queue, h.threads.ready⟩
  sleeping c := by
    by_cases hc : c = readyQueue
    · rw [hc]
      exact ⟨l, h.queues.queue, fun p _ => h.threads.awake p⟩
    · exact ⟨[], h.queues.others c hc, fun p _ => h.threads.awake p⟩

theorem Inv.step {s' : Sched} {l : List Pid} {a : Action} (h : s.Inv l) (hc : s.Schedulable a)
    (hs : s.perform a = some s') : ∃ l', s'.Inv l' := by
  cases a with
  | spawn id quota =>
    obtain ⟨r, hr, rfl⟩ := Option.map_eq_some_iff.mp hs
    exact ⟨_, (h.spawn hc hr).2⟩
  | yield =>
    obtain ⟨s₁, l₁, hs₁, h₁⟩ := h.yield
    obtain rfl := Option.some.inj (hs₁.symm.trans hs)
    exact ⟨l₁, h₁⟩
  | sleep chan => exact absurd hc id
  | wakeup chan =>
    obtain rfl := Option.some.inj hs
    exact ⟨l, (h.wakeup chan).symm ▸ h⟩
  | containerAlloc id =>
    obtain ⟨r, hr, rfl⟩ := Option.map_eq_some_iff.mp hs
    exact ⟨l, h.withPmm (Pmm.containerAlloc_used hr)⟩
  | containerFree id page =>
    obtain ⟨pmm, hr, rfl⟩ := Option.map_eq_some_iff.mp hs
    exact ⟨l, h.withPmm (Pmm.containerFree_used hr)⟩

/-- **The scheduler invariant** holds in every state of a run whose steps are all schedulable. -/
theorem scheduler_invariant {mmap : List MemRange} {past : List (Sched × Action)} {s : Sched}
    (hr : Run mmap past s) (hc : ∀ x ∈ past, x.1.Schedulable x.2) : s.SchedulerInvariant := by
  have hinv : ∃ l, s.Inv l := by
    apply Transition.Run.invariant_of (I := fun s => ∃ l, Inv s l) _ _ hr hc
    · intro x hx
      exact ⟨[], kernMain_inv hx⟩
    · rintro x a x' ⟨l, hx⟩ ha hs
      exact hx.step ha hs
  obtain ⟨l, h⟩ := hinv
  exact h.scheduler

def sampleMemory : List MemRange := Pmm.windowPages 16384

def booted : Sched :=
  { threadInit sampleMemory with
    pmm :=
      { mem := pmemInit sampleMemory
        container := update (fun _ => SContainer.zero) rootPid ⟨16384, 0, rootPid, 0, true⟩
        locked := fun _ => false } }

theorem threadInit_sampleMemory : threadInit sampleMemory = booted := by
  unfold threadInit booted containerInit
  rw [show realQuota (pmemInit sampleMemory) = 16384 from Pmm.realQuota_windowPages (by decide)]
  rfl

def idle : Sched := booted.kernMain.get (by decide)

theorem idle_run : Run sampleMemory [] idle := by
  refine Transition.Run.start ?_
  rw [threadInit_sampleMemory]
  exact (Option.some_get _).symm

def idlePid : Pid := ⟨1, Nat.succ_lt_succ (Nat.succ_pos _)⟩

def forked : Sched := (idle.perform (.spawn idlePid 1000)).get (by decide)

theorem forked_run : Run sampleMemory [(idle, .spawn idlePid 1000)] forked :=
  Transition.Run.next idle_run (Option.some_get _).symm

theorem scheduler_invariant_yielded :
    ∃ past s, Run sampleMemory past s ∧ past.length = 2 ∧ s.curid.val = 4 ∧
      s.SchedulerInvariant := by
  have hrun : Run sampleMemory _ ((forked.perform .yield).get (by decide)) :=
    Transition.Run.next forked_run (Option.some_get _).symm
  refine ⟨_, _, hrun, rfl, by decide, scheduler_invariant hrun fun x hx => ?_⟩
  rcases List.mem_cons.mp hx with rfl | hx
  · trivial
  · rw [List.mem_singleton.mp hx]
    show idle.spawnClash idlePid 1000 = false
    decide

/-- Thread 1 goes to sleep and thread 4 is switched to, but 1 stays the current thread, and 4 is still
marked ready and no longer in the queue. -/
theorem sleep_keeps_curid :
    ∃ past s, Run sampleMemory past s ∧ s.switched.val = 4 ∧ s.curid.val = 1 ∧
      s.tcb.state s.switched = .ready ∧ s.tqueue.head readyQueue = none ∧ ¬ s.SchedulerInvariant := by
  have hrun : Run sampleMemory _ ((forked.perform (.sleep 0x1000)).get (by decide)) :=
    Transition.Run.next forked_run (Option.some_get _).symm
  refine ⟨_, _, hrun, by decide, by decide, by decide, by decide, fun h => ?_⟩
  exact absurd h.current.1 (by decide)

end Sched

end MCertiKOS
