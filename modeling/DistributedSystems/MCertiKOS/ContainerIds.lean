import DistributedSystems.MCertiKOS.Quotas

/-!
# Indices of new containers (`kern/pmm/MContainer`, `kern/thread/PKCtxNew`)

The children of container `id` have the indices `id * MAX_CHILDREN + 1 + k`.  `kctx_new` checks the
quota alone: the number of children and the end of the table are checked by `sys_spawn`, not here.
-/

namespace MCertiKOS

namespace Pmm

/-! ## 1. Calls of `kctx_new` -/

structure KctxCall where
  id : Pid
  quota : BitVec 32

def KctxRun (mmap : List MemRange) : List (Pmm × KctxCall) → Pmm → Prop :=
  Transition.Run (fun s => s = containerInit mmap) fun s c s' =>
    (s.container c.id).used = true ∧ ∃ r, s.kctxNew c.id c.quota = some (s', r)

/-- What a call that returns `r` should do: an index it returns was not in use, a failure changes no
container, and the parent can still allocate. -/
structure KctxFresh (s : Pmm) (id : Pid) (s' : Pmm) (r : Option Pid) : Prop where
  fresh : ∀ child, r = some child → (s.container child).used = false
  unchanged : r = none → s'.container = s.container
  unlocked : s'.locked id = false
  alloc : (s'.containerAlloc id).isSome = true

/-- If the quota allows the child, the parent has an index of its own for it. -/
def HasIndex (s : Pmm) (c : KctxCall) : Prop :=
  s.containerCanConsume c.id c.quota = true →
    (s.container c.id).nchildren < maxChildren ∧
      c.id.val * maxChildren + 1 + (s.container c.id).nchildren < numIds

instance (s : Pmm) (c : KctxCall) : Decidable (s.HasIndex c) := by
  unfold HasIndex
  infer_instance

/-! ## 2. One call -/

theorem numbered_init (mmap : List MemRange) : (containerInit mmap).Numbered := (Inv.init mmap).numbered

theorem Numbered.kctxNew {s : Pmm} (h : s.Numbered) (hl : ∀ i, s.locked i = false) {c : KctxCall}
    (hu : (s.container c.id).used = true) (hc : s.HasIndex c) :
    ∃ s' r, s.kctxNew c.id c.quota = some (s', r) ∧ s'.Numbered ∧ (∀ i, s'.locked i = false) ∧
      s.KctxFresh c.id s' r := by
  cases hcan : s.containerCanConsume c.id c.quota with
  | false =>
    refine ⟨s, none, ?_, h, hl, ?_⟩
    · unfold Pmm.kctxNew
      rw [hcan, if_neg (by decide)]
    · exact ⟨fun _ hr => absurd hr (by simp), fun _ => rfl, hl c.id,
        containerAlloc_isSome_iff.mpr (hl c.id)⟩
  | true =>
    obtain ⟨hn, hlt⟩ := hc hcan
    refine ⟨_, _, kctxNew_eq (hl c.id) hcan hlt, h.withChild hu hn rfl c.quota, hl, ?_⟩
    refine ⟨fun child hr => ?_, fun hr => absurd hr (by simp), hl c.id,
      containerAlloc_isSome_iff.mpr (hl c.id)⟩
    obtain rfl := Option.some.inj hr
    exact h.child_fresh hn rfl

/-! ## 3. Every run -/

/-- **Container indices are fresh** in every sequence of calls that all have an index for the child
they may make.  No call blocks. -/
theorem container_ids_fresh {mmap : List MemRange} {past : List (Pmm × KctxCall)} {s : Pmm}
    (hr : KctxRun mmap past s) (hpast : ∀ x ∈ past, x.1.HasIndex x.2) {c : KctxCall}
    (hu : (s.container c.id).used = true) (hc : s.HasIndex c) :
    ∃ s' r, s.kctxNew c.id c.quota = some (s', r) ∧ s.KctxFresh c.id s' r := by
  have hinv : s.Numbered ∧ ∀ i, s.locked i = false := by
    apply Transition.Run.invariant_of (I := fun s => s.Numbered ∧ ∀ i, s.locked i = false) _ _ hr
      hpast
    · rintro _ rfl
      exact ⟨numbered_init mmap, fun _ => rfl⟩
    · rintro x a x' ⟨hx, hl⟩ ha ⟨hused, r, hs⟩
      obtain ⟨y, r', hs', hy, hly, _⟩ := hx.kctxNew hl hused ha
      obtain ⟨rfl, _⟩ := Prod.mk.inj (Option.some.inj (hs.symm.trans hs'))
      exact ⟨hy, hly⟩
  obtain ⟨s', r, hs, _, _, hfresh⟩ := hinv.1.kctxNew hinv.2 hu hc
  exact ⟨s', r, hs, hfresh⟩

/-! ## 4. Two calls without an index -/

def family (l : List (Pid × Pid)) : Pmm := l.foldl (fun s x => s.withChild x.1 x.2 0) twoPagesBoot

theorem kctxRun_start : KctxRun twoPages [] (family []) :=
  Transition.Run.start containerInit_twoPages.symm

theorem kctxRun_next {past : List (Pmm × KctxCall)} {l : List (Pid × Pid)} (id child : Pid)
    (hr : KctxRun twoPages past (family l)) (hu : ((family l).container id).used = true)
    (hl : (family l).locked id = false) (hcan : (family l).containerCanConsume id 0 = true)
    (hc : child.val = id.val * maxChildren + 1 + ((family l).container id).nchildren) :
    KctxRun twoPages ((family l, ⟨id, 0⟩) :: past) (family (l ++ [(id, child)])) := by
  have hlt : id.val * maxChildren + 1 + ((family l).container id).nchildren < numIds :=
    hc ▸ child.isLt
  have he : (⟨_, hlt⟩ : Pid) = child := Fin.ext hc.symm
  refine Transition.Run.next hr ⟨hu, some child, ?_⟩
  rw [kctxNew_eq hl hcan hlt, he]
  unfold family
  rw [List.foldl_append]
  rfl

/-- A container that has its first child gets a second one. -/
theorem container_ids_fresh_second :
    ∃ past s s', KctxRun twoPages past s ∧ past.length = 1 ∧
      s.kctxNew rootPid 0 = some (s', some ⟨2, by decide⟩) ∧
      (s.container ⟨2, by decide⟩).used = false ∧ s'.locked rootPid = false := by
  have hrun := kctxRun_next rootPid ⟨1, by decide⟩ kctxRun_start rfl rfl (by decide) rfl
  obtain ⟨s', r, hs, hfresh⟩ := container_ids_fresh hrun (by decide) (c := ⟨rootPid, 0⟩) rfl
    (by decide)
  have hr : r = some ⟨2, by decide⟩ := by
    have hcan : (family [(rootPid, ⟨1, by decide⟩)]).containerCanConsume rootPid 0 = true := by
      decide
    have hstep := kctxNew_eq rfl hcan (by decide)
    exact (Prod.mk.inj (Option.some.inj (hs.symm.trans hstep))).2
  rw [hr] at hs
  exact ⟨_, _, s', hrun, rfl, hs, hfresh.fresh _ hr, hfresh.unlocked⟩

/-- The root's fourth child takes index 4, and so does the first child of container 1.  Container 40
has no index for a child: `kctx_new` fails with its lock taken, and `container_alloc` spins. -/
theorem container_ids_reused :
    (∃ past s s', KctxRun twoPages past s ∧
      s.kctxNew ⟨1, by decide⟩ 0 = some (s', some ⟨4, by decide⟩) ∧
      (s.container ⟨4, by decide⟩).used = true) ∧
    ∃ past s s', KctxRun twoPages past s ∧ (s.container ⟨40, by decide⟩).used = true ∧
      s.kctxNew ⟨40, by decide⟩ 0 = some (s', none) ∧
      s'.containerAlloc ⟨40, by decide⟩ = none := by
  constructor
  · have h₁ := kctxRun_next rootPid ⟨1, by decide⟩ kctxRun_start rfl rfl (by decide) rfl
    have h₂ := kctxRun_next rootPid ⟨2, by decide⟩ h₁ rfl rfl (by decide) rfl
    have h₃ := kctxRun_next rootPid ⟨3, by decide⟩ h₂ rfl rfl (by decide) rfl
    have h₄ := kctxRun_next rootPid ⟨4, by decide⟩ h₃ rfl rfl (by decide) rfl
    exact ⟨_, _, _, h₄, kctxNew_eq rfl (by decide) (by decide), by decide⟩
  · have h₁ := kctxRun_next rootPid ⟨1, by decide⟩ kctxRun_start rfl rfl (by decide) rfl
    have h₂ := kctxRun_next ⟨1, by decide⟩ ⟨4, by decide⟩ h₁ rfl rfl (by decide) rfl
    have h₃ := kctxRun_next ⟨4, by decide⟩ ⟨13, by decide⟩ h₂ rfl rfl (by decide) rfl
    have h₄ := kctxRun_next ⟨13, by decide⟩ ⟨40, by decide⟩ h₃ rfl rfl (by decide) rfl
    refine ⟨_, _, _, h₄, rfl, kctxNew_full rfl (by decide) (by decide), ?_⟩
    apply Option.not_isSome_iff_eq_none.mp
    rw [containerAlloc_isSome_iff]
    exact Bool.noConfusion

end Pmm

end MCertiKOS
