import DistributedSystems.MCertiKOS.Fs.Cache
import DistributedSystems.MCertiKOS.Fs.Log

/-!
# Installing a logged transaction

`Recoverable` says what a disk with a header for the sectors `logged` stands for: the contents it
will have once the log is installed.  Installing and erasing keep it with every single write, whether
they run at commit or at recovery.
-/

namespace MCertiKOS.Fs

open Crash Function

/-! ## 1. The layout -/

/-- A file system with a log of `nlog` sectors at its end and room for the boot and super blocks. -/
structure Layout where
  size : Nat
  nlog : Nat
  nlog_pos : 0 < nlog
  fits : nlog + 2 ≤ size
  small : size ≤ 2 ^ 28

namespace Layout

def start (l : Layout) : Nat := l.size - l.nlog

def InLog (l : Layout) (k : Lba) : Prop := l.start ≤ k.val ∧ k.val < l.size

instance (l : Layout) (k : Lba) : Decidable (l.InLog k) := inferInstanceAs (Decidable (_ ∧ _))

def Describes (l : Layout) (b : Block) : Prop :=
  (b.word 0).toNat = l.size ∧ (b.word 3).toNat = l.nlog

instance (l : Layout) (b : Block) : Decidable (l.Describes b) := inferInstanceAs (Decidable (_ ∧ _))

def logLba (l : Layout) (j : Nat) : Lba := ⟨(l.start + j) % 2 ^ 28, Nat.mod_lt _ (by decide)⟩

variable {j : Nat}

theorem logLba_val (l : Layout) (hj : j < l.nlog) : (l.logLba j).val = l.start + j := by
  have h1 := l.fits
  have h2 := l.small
  show (l.start + j) % 2 ^ 28 = _
  unfold start at *
  omega

theorem logLba_inLog (l : Layout) (hj : j < l.nlog) : l.InLog (l.logLba j) := by
  have h1 := l.fits
  unfold InLog
  rw [l.logLba_val hj]
  unfold start at *
  omega

theorem logLba_inj (l : Layout) {i : Nat} (hi : i < l.nlog) (hj : j < l.nlog)
    (h : l.logLba i = l.logLba j) : i = j := by
  have hv := congrArg Fin.val h
  rw [l.logLba_val hi, l.logLba_val hj] at hv
  omega

theorem logLba_word (l : Layout) (hj : j + 1 < l.nlog) :
    sectorWord (l.logLba 0) + BitVec.ofNat 32 j + 1 = sectorWord (l.logLba (j + 1)) := by
  have h1 := l.fits
  have h2 := l.small
  have h0 := l.logLba_val l.nlog_pos
  have h3 := l.logLba_val hj
  apply BitVec.eq_of_toNat_eq
  rw [sectorWord_toNat, BitVec.toNat_add, BitVec.toNat_add, sectorWord_toNat, BitVec.toNat_ofNat,
    h0, h3]
  show ((l.start + 0 + j % 2 ^ 32) % 2 ^ 32 + 1) % 2 ^ 32 = _
  omega

def superLba : Lba := ⟨1, by decide⟩

theorem super_outside (l : Layout) : ¬ l.InLog superLba := by
  have h1 := l.fits
  intro h
  have h2 := h.1
  change l.size - l.nlog ≤ 1 at h2
  omega

theorem start_word (l : Layout) {b : Block} (h : l.Describes b) :
    b.word 0 - b.word 3 = sectorWord (l.logLba 0) := by
  have h1 := l.fits
  have h2 := l.small
  apply BitVec.eq_of_toNat_eq
  rw [sectorWord_toNat, l.logLba_val l.nlog_pos, BitVec.toNat_sub, h.1, h.2]
  unfold start
  omega

end Layout

/-! ## 2. What a disk stands for -/

/-- The disk has the contents `c` outside the log, except that the sectors `logged` may still be in
the log only. -/
structure Recoverable (l : Layout) (d : Disk) (c : Lba → Block) (logged : List Lba) : Prop where
  super : l.Describes (d (rootPlace Layout.superLba))
  target : l.Describes (c Layout.superLba)
  length_le : logged.length ≤ logSize
  length_lt : logged.length < l.nlog
  outside : ∀ k ∈ logged, ¬ l.InLog k
  count : (d (rootPlace (l.logLba 0))).word 0 = BitVec.ofInt 32 logged.length
  sectors : ∀ j (h : j < logged.length),
    (d (rootPlace (l.logLba 0))).word (j + 1) = sectorWord logged[j]
  copies : ∀ j (h : j < logged.length), d (rootPlace (l.logLba (j + 1))) = c logged[j]
  home : ∀ k, ¬ l.InLog k → k ∉ logged → d (rootPlace k) = c k

section

variable {l : Layout} {d : Disk} {c : Lba → Block} {logged : List Lba}

variable {k : Lba}

theorem Recoverable.install (h : Recoverable l d c logged) (hk : ¬ l.InLog k) :
    Recoverable l (update d (rootPlace k) (c k)) c logged := by
  have hne : ∀ k', k' ≠ k → update d (rootPlace k) (c k) (rootPlace k') =
      d (rootPlace k') := fun k' hk' => update_of_ne (fun he => hk' (rootPlace_inj he)) _ _
  have hlog : ∀ j < l.nlog, l.logLba j ≠ k := by
    rintro j hj rfl
    exact hk (l.logLba_inLog hj)
  have hlen := h.length_lt
  refine ⟨?_, h.target, h.length_le, h.length_lt, h.outside, ?_, fun j hj => ?_, fun j hj => ?_,
    fun k' hk' hmem => ?_⟩
  · rcases eq_or_ne Layout.superLba k with rfl | hsuper
    · rw [update_self]
      exact h.target
    · rw [hne _ hsuper]
      exact h.super
  · rw [hne _ (hlog 0 l.nlog_pos)]
    exact h.count
  · rw [hne _ (hlog 0 l.nlog_pos)]
    exact h.sectors j hj
  · rw [hne _ (hlog (j + 1) (by omega))]
    exact h.copies j hj
  · rcases eq_or_ne k' k with rfl | hkk
    · rw [update_self]
    · rw [hne _ hkk]
      exact h.home k' hk' hmem

theorem Recoverable.head (h : Recoverable l d c logged) {c' : Lba → Block} {logged' : List Lba}
    {x : Block} (htarget : l.Describes (c' Layout.superLba)) (hle : logged'.length ≤ logSize)
    (hlt : logged'.length < l.nlog) (hout : ∀ k ∈ logged', ¬ l.InLog k)
    (hcount : x.word 0 = BitVec.ofInt 32 logged'.length)
    (hsec : ∀ j (h : j < logged'.length), x.word (j + 1) = sectorWord logged'[j])
    (hcopies : ∀ j (h : j < logged'.length), d (rootPlace (l.logLba (j + 1))) = c' logged'[j])
    (hhome : ∀ k, ¬ l.InLog k → k ∉ logged' → d (rootPlace k) = c' k) :
    Recoverable l (update d (rootPlace (l.logLba 0)) x) c' logged' := by
  have hne : ∀ k, k ≠ l.logLba 0 → update d (rootPlace (l.logLba 0)) x (rootPlace k) =
      d (rootPlace k) := fun k hk => update_of_ne (fun he => hk (rootPlace_inj he)) _ _
  have houtside : ∀ k, ¬ l.InLog k → k ≠ l.logLba 0 := by
    rintro k hk rfl
    exact hk (l.logLba_inLog l.nlog_pos)
  refine ⟨?_, htarget, hle, hlt, hout, ?_, fun j hj => ?_, fun j hj => ?_, fun k hk hmem => ?_⟩
  · rw [hne _ (houtside _ l.super_outside)]
    exact h.super
  · rw [update_self]
    exact hcount
  · rw [update_self]
    exact hsec j hj
  · have hj0 : l.logLba (j + 1) ≠ l.logLba 0 := by
      intro he
      have := l.logLba_inj (by omega) l.nlog_pos he
      omega
    rw [hne _ hj0]
    exact hcopies j hj
  · rw [hne _ (houtside k hk)]
    exact hhome k hk hmem

theorem Recoverable.append (h : Recoverable l d c []) {j : Nat} (hj : j + 1 < l.nlog) (x : Block) :
    Recoverable l (update d (rootPlace (l.logLba (j + 1))) x) c [] := by
  have hne : ∀ k, k ≠ l.logLba (j + 1) →
      update d (rootPlace (l.logLba (j + 1))) x (rootPlace k) = d (rootPlace k) :=
    fun k hk => update_of_ne (fun he => hk (rootPlace_inj he)) _ _
  have houtside : ∀ k, ¬ l.InLog k → k ≠ l.logLba (j + 1) := by
    rintro k hk rfl
    exact hk (l.logLba_inLog hj)
  refine ⟨?_, h.target, h.length_le, h.length_lt, h.outside, ?_, fun i hi => ?_, fun i hi => ?_,
    fun k hk hmem => ?_⟩
  · rw [hne _ (houtside _ l.super_outside)]
    exact h.super
  · have h0 : l.logLba 0 ≠ l.logLba (j + 1) := by
      intro he
      have := l.logLba_inj l.nlog_pos hj he
      omega
    rw [hne _ h0]
    exact h.count
  · exact absurd hi (Nat.not_lt_zero i)
  · exact absurd hi (Nat.not_lt_zero i)
  · rw [hne _ (houtside k hk)]
    exact h.home k hk hmem

/-! ## 3. Commits -/

def isCommit (l : Layout) (w : DiskWrite) : Bool :=
  decide (w.place = rootPlace (l.logLba 0)) && decide (0 < (w.data.word 0).toInt)

def commits (l : Layout) (ws : List DiskWrite) : Nat := ws.countP (isCommit l)

theorem commits_snoc (l : Layout) (ws : List DiskWrite) (w : DiskWrite) :
    commits l (ws ++ [w]) = commits l ws + if isCommit l w then 1 else 0 := by
  unfold commits
  rw [List.countP_append, List.countP_singleton]

/-- After `m` commits the disk stands for `T m`. -/
def Crashable (l : Layout) (T : Nat → Lba → Block) (ws : List DiskWrite) (d : Disk) : Prop :=
  ∃ logged, Recoverable l d (T (commits l ws)) logged

theorem isCommit_elsewhere (hk : k ≠ l.logLba 0) (x : Block) :
    isCommit l ⟨rootPlace k, x⟩ = false := by
  unfold isCommit
  rw [decide_eq_false (fun he => hk (rootPlace_inj he)), Bool.false_and]

theorem commits_elsewhere (hk : k ≠ l.logLba 0) (x : Block) (ws : List DiskWrite) :
    commits l (ws ++ [⟨rootPlace k, x⟩]) = commits l ws := by
  rw [commits_snoc, isCommit_elsewhere hk]
  rfl

/-! ## 4. The log in memory -/

structure Ready (l : Layout) (log : Log) (logged : List Lba) : Prop where
  start : log.start = sectorWord (l.logLba 0)
  size : log.size = l.nlog
  dev : log.dev = rootDev
  count : log.lh.n = logged.length
  sector : ∀ j (h : j < logged.length), log.lh.sector j = sectorWord logged[j]

theorem Ready.store_count {log : Log} (h : Ready l log logged) (hle : logged.length ≤ logSize)
    (b : Block) : (log.lh.store b).word 0 = BitVec.ofInt 32 logged.length := by
  rw [LogHeader.store_count _ _ (by rw [h.count]; exact_mod_cast hle), h.count]

theorem Ready.store_sector {log : Log} (h : Ready l log logged) (hle : logged.length ≤ logSize)
    (b : Block) (j : Nat) (hj : j < logged.length) :
    (log.lh.store b).word (j + 1) = sectorWord logged[j] := by
  rw [LogHeader.store_sector _ _ (by rw [h.count]; exact_mod_cast hle) (by rw [h.count]; exact hj)]
  exact h.sector j hj

variable {E : List DiskWrite → Disk → Prop} {X : Prop} {past : List DiskWrite} {s : Machine}
  {v : Lba → Block} {out : Set Lba}

@[simp] theorem wp_getLog {Q : Log → List DiskWrite → Disk → Machine → Prop} :
    wp E X getLog Q past d s ↔ Q s.log past d s := by
  unfold getLog
  rw [wp_bind, wp_get, wp_pure]

@[simp] theorem wp_setLog {f : Log → Log} {Q : Unit → List DiskWrite → Disk → Machine → Prop} :
    wp E X (setLog f) Q past d s ↔ Q () past d { s with log := f s.log } := by
  unfold setLog
  rw [wp_modify]

theorem Viewed.setLog {held : List (Fin nbuf)} (h : Viewed X d s v out held) (log : Log) :
    Viewed X d { s with log := log } v out held :=
  ⟨h.cached, h.holding, h.disk1⟩

theorem wp_writeHead (hready : Ready l s.log logged) (h : Viewed X d s v out [])
    (hout : l.logLba 0 ∉ out) {Q : Unit → List DiskWrite → Disk → Machine → Prop} {x : Block}
    (hx : s.log.lh.store (v (l.logLba 0)) = x)
    (hE : E (past ++ [⟨rootPlace (l.logLba 0), x⟩]) (update d (rootPlace (l.logLba 0)) x))
    (hQ : ∀ s', s'.log = s.log → Viewed X (update d (rootPlace (l.logLba 0)) x) s'
        (update v (l.logLba 0) x) out [] →
      Q () (past ++ [⟨rootPlace (l.logLba 0), x⟩]) (update d (rootPlace (l.logLba 0)) x) s') :
    wp E X writeHead Q past d s := by
  unfold writeHead
  rw [wp_bind, wp_getLog, wp_bind, hready.dev, hready.start]
  refine h.read (fun j hj => absurd hj List.not_mem_nil) (by decide) fun i _ s1 _ _ hs1 h1 => ?_
  refine h1.overwrite List.mem_cons_self hs1.here hx hE fun s2 hs2 h2 => ?_
  rw [Set.sdiff_singleton_eq_self hout] at h2
  refine h2.releaseLast hs2.here (fun hk => absurd hk hout) (Or.inr rfl) fun s3 hs3 h3 => ?_
  exact hQ s3 (hs3.log.trans (hs2.log.trans hs1.log)) h3

/-! ## 5. Installing -/

/-- `t` sectors are installed; what is newer in the cache than on the disk is yet to be. -/
structure Installing (X : Prop) (l : Layout) (c : Lba → Block) (logged : List Lba) (log : Log)
    (t : Nat) (d : Disk) (s : Machine) : Prop where
  disk : Recoverable l d c logged
  log_eq : s.log = log
  ready : Ready l log logged
  view : ∃ v out, Viewed X d s v out [] ∧ ∀ k ∈ out, k ∈ logged.drop t
  done : ∀ k, ¬ l.InLog k → k ∉ logged.drop t → d (rootPlace k) = c k

variable {T : Nat → Lba → Block} {log : Log}

theorem Installing.notInLog {t : Nat} (h : Installing X l c logged log t d s)
    (hk : k ∈ logged.drop t) : ¬ l.InLog k :=
  h.disk.outside k (List.mem_of_mem_drop hk)


theorem wp_installOne {t : Nat} (ht : t < logged.length) (h : Installing X l c logged log t d s)
    (hT : T (commits l past) = c) :
    wp (Crashable l T) X (installOne t)
      (fun _ past' d' s' => Installing X l c logged log (t + 1) d' s' ∧ commits l past' = commits l past)
      past d s := by
  have hlen := h.disk.length_lt
  have hlog := l.logLba_inLog (j := t + 1) (by omega)
  have hcons : logged.drop t = logged[t] :: logged.drop (t + 1) := List.drop_eq_getElem_cons ht
  have hk : ¬ l.InLog logged[t] := h.disk.outside _ (List.getElem_mem ht)
  have hhead : logged[t] ≠ l.logLba 0 := by
    intro he
    rw [he] at hk
    exact hk (l.logLba_inLog l.nlog_pos)
  obtain ⟨v, out, hv, hout⟩ := h.view
  have hlogout : l.logLba (t + 1) ∉ out := fun hmem => h.notInLog (hout _ hmem) hlog
  -- the log block read back is what the sector is to become
  have hcopy : v (l.logLba (t + 1)) = c logged[t] := by
    rw [hv.cached.synced _ hlogout]
    exact h.disk.copies t ht
  unfold installOne
  rw [wp_bind, wp_getLog, wp_bind, h.log_eq, h.ready.dev, h.ready.start,
    l.logLba_word (by omega), h.ready.sector t ht]
  refine hv.read (fun j hj => absurd hj List.not_mem_nil) (by decide)
    fun i1 dirty1 s1 _ hd1 hs1 h1 => ?_
  rw [wp_bind]
  refine h1.read (fun j hj hat => ?_) (show 1 < nbuf by decide) fun i2 dirty2 s2 hi2 _ hs2 h2 => ?_
  · rw [List.mem_singleton.mp hj, hs1.here] at hat
    exact hk (Buf.at_inj (sectorBuf_at _ _ _ _) hat ▸ hlog)
  have hne : i1 ≠ i2 := fun he => hi2 (List.mem_singleton.mpr he.symm)
  have hl2 := (hs2.others i1 hne).trans hs1.here
  rw [wp_bind, wp_getBuf, hl2, sectorBuf_data]
  refine h2.overwrite List.mem_cons_self hs2.here hcopy ?_ fun s3 hs3 h3 => ?_
  · refine ⟨logged, ?_⟩
    rw [commits_elsewhere hhead, hT]
    exact h.disk.install hk
  -- both buffers agree with the disk and may go
  rw [wp_bind]
  refine h3.releaseOne ((hs3.others i1 hne).trans hl2) (fun hmem => absurd hmem.1 hlogout) hd1 hne
    (by simp [or_comm]) fun s4 hs4 h4 => ?_
  refine h4.releaseLast ((hs4.others i2 hne.symm).trans hs3.here) (fun hmem => absurd rfl hmem.2)
    (Or.inr rfl) fun s5 hs5 h5 => ?_
  have hlog5 : s5.log = log :=
    (hs5.log.trans (hs4.log.trans (hs3.log.trans (hs2.log.trans hs1.log)))).trans h.log_eq
  refine ⟨⟨h.disk.install hk, hlog5, h.ready, ⟨_, _, h5, fun k' hk' => ?_⟩,
    fun k' hk' hmem => ?_⟩, ?_⟩
  · have hin := hout k' hk'.1
    rw [hcons] at hin
    exact (List.mem_cons.mp hin).resolve_left hk'.2
  · rcases eq_or_ne k' logged[t] with rfl | hkk
    · exact update_self _ _ _
    · rw [update_of_ne (fun he => hkk (rootPlace_inj he))]
      refine h.done k' hk' fun hin => ?_
      rw [hcons] at hin
      exact (List.mem_cons.mp hin).elim hkk hmem
  · exact commits_elsewhere hhead _ _

theorem wp_installTrans (h : Installing X l c logged log 0 d s) (hT : T (commits l past) = c) :
    wp (Crashable l T) X installTrans
      (fun _ past' d' s' => Installing X l c logged log logged.length d' s' ∧
        commits l past' = commits l past) past d s := by
  unfold installTrans
  rw [wp_bind, wp_getLog, h.log_eq, h.ready.count]
  refine wp_forUp (I := fun t past' d' s' => Installing X l c logged log t d' s' ∧
      commits l past' = commits l past) (fun t ht past' d' s' hI => ?_) _ 0 past d s (Nat.zero_add _)
    ⟨h, rfl⟩
  refine wp_mono (wp_installOne ht hI.1 (by rw [hI.2, hT])) ?_
  exact fun _ _ _ _ hI' => ⟨hI'.1, hI'.2.trans hI.2⟩

/-! ## 6. Erasing the log, and recovery -/

/-- No transaction is under way: the disk is what it stands for, and so is what reads return. -/
structure Settled (X : Prop) (l : Layout) (c : Lba → Block) (d : Disk) (s : Machine) : Prop where
  disk : Recoverable l d c []
  ready : Ready l s.log []
  view : ∃ v, Viewed X d s v ∅ []

theorem Ready.clear (h : Ready l log logged) :
    Ready l { log with lh := { log.lh with n := 0 } } [] :=
  ⟨h.start, h.size, h.dev, rfl, fun j hj => absurd hj (Nat.not_lt_zero j)⟩

theorem wp_erase (h : Installing X l c logged log logged.length d s) (hT : T (commits l past) = c) :
    wp (Crashable l T) X (clearCount >>= fun _ => writeHead)
      (fun _ past' d' s' => Settled X l c d' s' ∧ commits l past' = commits l past ∧
        s'.log.busy = log.busy) past d s := by
  obtain ⟨v, out, hv, hout⟩ := h.view
  have hnone : out = ∅ := by
    apply Set.eq_empty_of_forall_notMem
    intro k hk
    have := hout k hk
    rw [List.drop_length] at this
    exact absurd this List.not_mem_nil
  subst hnone
  have hready : Ready l { s.log with lh := { s.log.lh with n := 0 } } [] := by
    rw [h.log_eq]
    exact h.ready.clear
  have hhome : ∀ k, ¬ l.InLog k → k ∉ ([] : List Lba) → d (rootPlace k) = c k := by
    intro k hk _
    apply h.done k hk
    rw [List.drop_length]
    exact List.not_mem_nil
  have hcount : ∀ b : Block,
      (LogHeader.store { s.log.lh with n := 0 } b).word 0 = BitVec.ofInt 32 ([] : List Lba).length :=
    hready.store_count (Nat.zero_le _)
  have hrec : ∀ b : Block, Recoverable l (update d (rootPlace (l.logLba 0))
      (LogHeader.store { s.log.lh with n := 0 } b)) c [] := fun b =>
    h.disk.head h.disk.target (Nat.zero_le _) l.nlog_pos (fun k hk => absurd hk List.not_mem_nil)
      (hcount b) (fun j hj => absurd hj (Nat.not_lt_zero j))
      (fun j hj => absurd hj (Nat.not_lt_zero j)) hhome
  have hsame : ∀ b : Block, commits l (past ++ [⟨rootPlace (l.logLba 0),
      LogHeader.store { s.log.lh with n := 0 } b⟩]) = commits l past := by
    intro b
    have hno : isCommit l ⟨rootPlace (l.logLba 0), LogHeader.store { s.log.lh with n := 0 } b⟩ =
        false := by
      unfold isCommit
      rw [hcount b]
      exact Bool.and_false _
    rw [commits_snoc, hno]
    rfl
  unfold clearCount
  rw [wp_bind, wp_setLog]
  refine wp_writeHead hready (hv.setLog _) (Set.notMem_empty _) rfl ?_ fun s' hs' hv' => ?_
  · refine ⟨[], ?_⟩
    rw [hsame, hT]
    exact hrec _
  · refine ⟨⟨hrec _, ?_, _, hv'⟩, ?_, ?_⟩
    · rw [hs']
      exact hready
    · exact hsame _
    · rw [hs', ← h.log_eq]

theorem count_toInt {n : Nat} (hn : n ≤ logSize) : (BitVec.ofInt 32 (n : Int)).toInt = n := by
  unfold logSize at hn
  rw [BitVec.toInt_ofInt]
  exact Int.bmod_eq_of_le (by omega) (by omega)

theorem wp_recoverFromLog (hd : Recoverable l d c logged)
    (hstart : s.log.start = sectorWord (l.logLba 0)) (hsize : s.log.size = l.nlog)
    (hdev : s.log.dev = rootDev) (hv : Viewed X d s v ∅ []) (hT : T (commits l past) = c) :
    wp (Crashable l T) X recoverFromLog
      (fun _ past' d' s' => Settled X l c d' s' ∧ commits l past' = commits l past ∧
        s'.log.busy = s.log.busy) past d s := by
  have hhead : v (l.logLba 0) = d (rootPlace (l.logLba 0)) :=
    hv.cached.synced _ (Set.notMem_empty _)
  have hn : ((v (l.logLba 0)).word 0).toInt = logged.length := by
    rw [hhead, hd.count]
    exact count_toInt hd.length_le
  have hready : Ready l { s.log with lh := s.log.lh.load (v (l.logLba 0)) } logged := by
    refine ⟨hstart, hsize, hdev, hn, fun j hj => ?_⟩
    show (if j < ((v (l.logLba 0)).word 0).toInt.toNat then _ else _) = _
    rw [hn, if_pos (by simpa using hj), hhead]
    exact hd.sectors j hj
  unfold recoverFromLog
  rw [wp_bind]
  unfold readHead
  rw [wp_bind, wp_getLog, wp_bind, hdev, hstart]
  refine hv.read (fun j hj => absurd hj List.not_mem_nil) (by decide)
    fun i dirty s1 _ hdirty hs1 h1 => ?_
  have hle : ¬ ((v (l.logLba 0)).word 0).toInt > logSize := by
    have := hd.length_le
    rw [hn]
    omega
  rw [wp_bind, wp_getBuf, hs1.here, sectorBuf_data, if_neg hle, wp_bind, wp_setLog, hs1.log]
  have h1' := h1.setLog { s.log with lh := s.log.lh.load (v (l.logLba 0)) }
  refine h1'.releaseLast hs1.here (fun hmem => absurd hmem (Set.notMem_empty _)) hdirty
    fun s2 hs2 h2 => ?_
  rw [wp_bind]
  refine wp_mono (wp_installTrans (T := T) ⟨hd, hs2.log, hready, ⟨v, ∅, h2, ?_⟩, ?_⟩ hT) ?_
  · intro k hk
    exact absurd hk (Set.notMem_empty k)
  · intro k hk hmem
    exact hd.home k hk hmem
  · rintro _ past' d' s' ⟨hI, hc⟩
    refine wp_mono (wp_erase hI (by rw [hc, hT])) ?_
    exact fun _ _ _ _ hq => ⟨hq.1, hq.2.1.trans hc, hq.2.2⟩

theorem wp_logInit (hd : Recoverable l d c logged) (hT : T (commits l past) = c) :
    wp (Crashable l T) X logInit
      (fun _ past' d' s' => Settled X l c d' s' ∧ commits l past' = commits l past ∧
        s'.log.busy = false) past d bootMachine := by
  have hv : Viewed X d bootMachine (fun k => d (rootPlace k)) ∅ [] :=
    ⟨cached_init d, ⟨fun j hj => absurd hj List.not_mem_nil, fun _ _ => rfl, Or.inr fun _ _ => rfl⟩,
      rfl⟩
  unfold logInit
  rw [wp_bind]
  unfold readSuperblock
  rw [wp_bind, show (1 : BitVec 32) = sectorWord Layout.superLba from rfl]
  refine hv.read (fun j hj => absurd hj List.not_mem_nil) (by decide)
    fun i dirty s1 _ hdirty hs1 h1 => ?_
  rw [wp_bind, wp_getBuf, hs1.here, sectorBuf_data, wp_bind]
  refine h1.releaseLast hs1.here (fun hmem => absurd hmem (Set.notMem_empty _)) hdirty
    fun s2 hs2 h2 => ?_
  rw [wp_pure, wp_bind, wp_setLog, hs2.log, hs1.log]
  have hsize : ((d (rootPlace Layout.superLba)).word 3).toInt = l.nlog := by
    have hw := hd.super.2
    have hfits := l.fits
    have hsmall := l.small
    rw [BitVec.toInt_eq_toNat_of_lt (by omega), hw]
  exact wp_recoverFromLog hd (l.start_word hd.super) hsize rfl (h2.setLog _) hT

end

end MCertiKOS.Fs
