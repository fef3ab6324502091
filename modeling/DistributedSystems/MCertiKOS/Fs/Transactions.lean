import DistributedSystems.MCertiKOS.Fs.Recovery

/-!
# Transactions are atomic with respect to crashes

Until the header of a transaction is written, the disk stands for the contents before it; with that
write, for the contents after it.  Every other write of the file system leaves what the disk stands
for as it is.
-/

namespace MCertiKOS.Fs

open Crash Function

/-! ## 1. What transactions mean -/

def Update.apply (c : Lba → Block) (u : Update) : Lba → Block :=
  update c u.sector (u.change (c u.sector))

def applyTrans (c : Lba → Block) (us : List Update) : Lba → Block := us.foldl Update.apply c

def contents (c : Lba → Block) (ts : List (List Update)) : Lba → Block := ts.foldl applyTrans c

def home (d : Disk) : Lba → Block := fun k => d (rootPlace k)

section

variable {l : Layout} {d : Disk} {c cur : Lba → Block} {logged : List Lba} {past : List DiskWrite}
  {s : Machine} {T : Nat → Lba → Block} {i : Fin nbuf}

/-! ## 2. Inside a transaction -/

/-- The transaction has brought the contents from `c` to `cur` and holds the buffers `held`.  Only
the sectors `stale` are newer in the cache than in the log. -/
structure InTrans (l : Layout) (c cur : Lba → Block) (logged : List Lba) (stale : Set Lba)
    (held : List (Fin nbuf)) (d : Disk) (s : Machine) : Prop where
  disk : Recoverable l d c []
  ready : Ready l s.log logged
  busy : s.log.busy = true
  length_le : logged.length ≤ logSize
  length_lt : logged.length < l.nlog
  nodup : logged.Nodup
  outside : ∀ k ∈ logged, ¬ l.InLog k
  copies : ∀ j (h : j < logged.length), logged[j] ∉ stale →
    d (rootPlace (l.logLba (j + 1))) = cur logged[j]
  view : ∃ v, Viewed True d s v (stale ∪ {k | k ∈ logged}) held ∧ ∀ k, ¬ l.InLog k → v k = cur k

theorem Ready.slot_eq {log : Log} (h : Ready l log logged) (a : Lba) :
    log.lh.slot (sectorWord a) = logged.idxOf a := by
  have hn : log.lh.n.toNat = logged.length := by
    rw [h.count]
    exact Int.toNat_natCast _
  have heq : ∀ j (hj : j < logged.length),
      (log.lh.sector j == sectorWord a) = decide (logged[j] = a) := by
    intro j hj
    rw [h.sector j hj]
    by_cases he : logged[j] = a
    · rw [he, decide_eq_true rfl]
      exact beq_self_eq_true _
    · rw [decide_eq_false he]
      exact beq_eq_false_iff_ne.mpr fun hw => he (sectorWord_inj hw)
  unfold LogHeader.slot
  rw [hn]
  by_cases ha : a ∈ logged
  · have hlt := List.idxOf_lt_length_of_mem ha
    have hfind : (List.range logged.length).find? (fun j => log.lh.sector j == sectorWord a) =
        some (logged.idxOf a) := by
      rw [List.find?_range_eq_some]
      refine ⟨?_, List.mem_range.mpr hlt, fun j hj => ?_⟩
      · rw [heq _ hlt, decide_eq_true_iff]
        exact List.getElem_idxOf hlt
      · rw [heq j (by omega), decide_eq_false]
        · rfl
        · have hno : (logged[j] == a) = false := List.not_of_lt_findIdx hj
          exact beq_eq_false_iff_ne.mp hno
    rw [hfind]
    rfl
  · have hnone : (List.range logged.length).find? (fun j => log.lh.sector j == sectorWord a) =
        none := by
      rw [List.find?_eq_none]
      intro j hj
      have hlt := List.mem_range.mp hj
      rw [heq j hlt, decide_eq_true_iff]
      exact fun he => ha (he ▸ List.getElem_mem hlt)
    rw [hnone, List.idxOf_eq_length ha]
    rfl

def addLogged (logged : List Lba) (a : Lba) : List Lba :=
  if a ∈ logged then logged else logged ++ [a]

theorem mem_addLogged {a k : Lba} : k ∈ addLogged logged a ↔ k = a ∨ k ∈ logged := by
  unfold addLogged
  split
  · rename_i ha
    exact ⟨Or.inr, fun h => h.elim (fun he => he ▸ ha) id⟩
  · rw [List.mem_append, List.mem_singleton]
    exact or_comm

variable {a : Lba}

theorem addLogged_nodup (h : logged.Nodup) : (addLogged logged a).Nodup := by
  unfold addLogged
  split
  · exact h
  · rename_i ha
    rw [List.nodup_append]
    refine ⟨h, by simp, fun x hx y hy => ?_⟩
    rw [List.mem_singleton.mp hy]
    rintro rfl
    exact ha hx

theorem addLogged_length (a : Lba) :
    (addLogged logged a).length =
      logged.length + if logged.idxOf a = logged.length then 1 else 0 := by
  unfold addLogged
  split
  · rename_i ha
    have := List.idxOf_lt_length_of_mem ha
    rw [if_neg (by omega), Nat.add_zero]
  · rename_i ha
    rw [if_pos (List.idxOf_eq_length ha), List.length_append, List.length_singleton]

theorem addLogged_getElem {j : Nat} (hj : j < (addLogged logged a).length) :
    (j = logged.idxOf a ∧ (addLogged logged a)[j] = a) ∨
      ∃ h : j < logged.length, (addLogged logged a)[j] = logged[j] ∧ j ≠ logged.idxOf a := by
  by_cases ha : a ∈ logged
  · have hlt := List.idxOf_lt_length_of_mem ha
    have heq : addLogged logged a = logged := if_pos ha
    have hj' : j < logged.length := by rwa [heq] at hj
    have hget : (addLogged logged a)[j] = logged[j] := by simp only [heq]
    by_cases hja : j = logged.idxOf a
    · refine Or.inl ⟨hja, ?_⟩
      rw [hget]
      subst hja
      exact List.getElem_idxOf hlt
    · exact Or.inr ⟨hj', hget, hja⟩
  · have heq : addLogged logged a = logged ++ [a] := if_neg ha
    have hlen : j < logged.length + 1 := by
      rw [heq, List.length_append] at hj
      exact hj
    have hidx := List.idxOf_eq_length ha
    have hlen' : j < (logged ++ [a]).length := by
      rwa [List.length_append]
    have hget : (addLogged logged a)[j] = (logged ++ [a])[j] := by simp only [heq]
    by_cases hja : j = logged.length
    · refine Or.inl ⟨by omega, ?_⟩
      rw [hget]
      subst hja
      exact List.getElem_concat_length rfl _
    · refine Or.inr ⟨by omega, ?_, by omega⟩
      rw [hget, List.getElem_append_left (by omega)]

theorem Ready.add {log : Log} (h : Ready l log logged) (a : Lba) :
    Ready l
      { log with
        lh :=
          { n := log.lh.n + if logged.idxOf a = logged.length then 1 else 0
            sector := update log.lh.sector (logged.idxOf a) (sectorWord a) } }
      (addLogged logged a) where
  start := h.start
  size := h.size
  dev := h.dev
  count := by
    rw [h.count, addLogged_length]
    split <;> simp
  sector := by
    intro j hj
    show update log.lh.sector (logged.idxOf a) (sectorWord a) j = _
    rcases addLogged_getElem hj with ⟨hja, hget⟩ | ⟨hlt, hget, hja⟩
    · rw [hget, hja, update_self]
    · rw [hget, update_of_ne hja]
      exact h.sector j hlt

theorem wp_logWrite {dirty : Bool} (ha : ¬ l.InLog a) (h : InTrans l c cur logged {a} [i] d s)
    (hb : s.bcache.buf i = sectorBuf a true dirty (cur a)) (hT : T (commits l past) = c) :
    wp (Crashable l T) True (logWrite i)
      (fun _ past' d' s' => InTrans l c cur (addLogged logged a) ∅ [i] d' s' ∧
        s'.bcache.buf i = sectorBuf a true true (cur a) ∧ commits l past' = commits l past)
      past d s := by
  obtain ⟨v, hv, hcur⟩ := h.view
  unfold logWrite
  rw [wp_bind, wp_getLog, wp_bind, wp_getBuf, hb]
  by_cases hbig : s.log.lh.n ≥ logSize ∨ s.log.lh.n ≥ s.log.size - 1
  · rw [if_pos hbig, wp_halt]
    trivial
  rw [if_neg hbig, if_neg (by rw [h.busy]; decide)]
  rw [h.ready.count, h.ready.size, not_or] at hbig
  -- the slot is inside the log
  have hslot : s.log.lh.slot (sectorBuf a true dirty (cur a)).sector = logged.idxOf a :=
    h.ready.slot_eq a
  have hidx : logged.idxOf a ≤ logged.length := List.idxOf_le_length
  have hroom : logged.idxOf a + 1 < l.nlog := by omega
  have hlog := l.logLba_inLog hroom
  have hhead : l.logLba (logged.idxOf a + 1) ≠ l.logLba 0 := by
    intro he
    have := l.logLba_inj hroom l.nlog_pos he
    omega
  have hnotlogged : l.logLba (logged.idxOf a + 1) ∉ addLogged logged a := by
    rw [mem_addLogged]
    rintro (he | hmem)
    · exact ha (he ▸ hlog)
    · exact h.outside _ hmem hlog
  have haddr : s.log.start + BitVec.ofNat 32 (logged.idxOf a) + 1 =
      sectorWord (l.logLba (logged.idxOf a + 1)) := by
    rw [h.ready.start, l.logLba_word hroom]
  rw [wp_bind, wp_setLog, wp_bind, hslot, haddr]
  have hv' := hv.setLog { s.log with
    lh := { s.log.lh with
      sector := update s.log.lh.sector (logged.idxOf a) (sectorWord a) } }
  refine hv'.read (fun j hj hat => ?_) (show 1 < nbuf by decide)
    fun i2 dirty2 s1 hi2 _ hs1 h1 => ?_
  · rw [List.mem_singleton.mp hj] at hat
    rw [hb] at hat
    exact ha (Buf.at_inj (sectorBuf_at _ _ _ _) hat ▸ hlog)
  have hne : i2 ≠ i := fun he => hi2 (List.mem_singleton.mpr he)
  have hdisk : Recoverable l (update d (rootPlace (l.logLba (logged.idxOf a + 1))) (cur a)) c [] :=
    h.disk.append hroom _
  refine h1.overwrite List.mem_cons_self hs1.here (y := cur a) rfl ?_ fun s2 hs2 h2 => ?_
  · refine ⟨[], ?_⟩
    rw [commits_elsewhere hhead, hT]
    exact hdisk
  have hset : ({a} ∪ {k | k ∈ logged}) \ {l.logLba (logged.idxOf a + 1)} =
      ∅ ∪ {k | k ∈ addLogged logged a} := by
    ext k
    simp only [Set.mem_sdiff, Set.mem_union, Set.mem_singleton_iff, Set.mem_ofPred_eq,
      Set.mem_empty_iff_false, false_or, mem_addLogged]
    constructor
    · exact fun hk => hk.1
    · intro hk
      refine ⟨hk, ?_⟩
      rintro rfl
      exact hnotlogged (mem_addLogged.mpr hk)
  rw [hset] at h2
  rw [wp_bind]
  refine h2.releaseOne hs2.here
    (fun hmem => absurd (hmem.resolve_left (Set.notMem_empty _)) hnotlogged) (Or.inr rfl) hne
    (by simp) fun s3 hs3 h3 => ?_
  have hbuf : s3.bcache.buf i = sectorBuf a true dirty (cur a) :=
    (hs3.others i hne.symm).trans ((hs2.others i hne.symm).trans ((hs1.others i hne.symm).trans hb))
  have hlog3 := hs3.log.trans (hs2.log.trans hs1.log)
  -- the count goes up when the sector was not logged before
  have hlast : ∀ s4 : Machine, s4.bcache = s3.bcache → s4.haveDisk1 = s3.haveDisk1 →
      s4.log = { s.log with
        lh :=
          { n := s.log.lh.n + if logged.idxOf a = logged.length then 1 else 0
            sector := update s.log.lh.sector (logged.idxOf a) (sectorWord a) } } →
      wp (Crashable l T) True (do let b ← getBuf i; setBuf i { b with dirty := true })
        (fun _ past' d' s' => InTrans l c cur (addLogged logged a) ∅ [i] d' s' ∧
          s'.bcache.buf i = sectorBuf a true true (cur a) ∧ commits l past' = commits l past)
        (past ++ [⟨rootPlace (l.logLba (logged.idxOf a + 1)), cur a⟩])
        (update d (rootPlace (l.logLba (logged.idxOf a + 1))) (cur a)) s4 := by
    intro s4 hcache hdisk1 hlog4
    have h4 : Viewed True (update d (rootPlace (l.logLba (logged.idxOf a + 1))) (cur a)) s4
        (update v (l.logLba (logged.idxOf a + 1)) (cur a))
        (∅ ∪ {k | k ∈ addLogged logged a}) [i] :=
      ⟨hcache ▸ h3.cached, hcache ▸ h3.holding, hdisk1.trans h3.disk1⟩
    have hbuf4 : s4.bcache.buf i = sectorBuf a true dirty (cur a) := by rw [hcache, hbuf]
    rw [wp_bind, wp_getBuf, wp_setBuf, hbuf4]
    have h5 := h4.mark List.mem_cons_self hbuf4
    refine ⟨⟨hdisk, ?_, ?_, ?_, ?_, addLogged_nodup h.nodup, ?_, ?_, _, h5, ?_⟩, ?_, ?_⟩
    · show Ready l s4.log _
      rw [hlog4]
      exact h.ready.add a
    · show s4.log.busy = true
      rw [hlog4]
      exact h.busy
    · rw [addLogged_length]
      split <;> omega
    · rw [addLogged_length]
      split <;> omega
    · intro k hk
      rcases mem_addLogged.mp hk with rfl | hk
      · exact ha
      · exact h.outside k hk
    · intro j hj _
      rcases addLogged_getElem hj with ⟨hja, hget⟩ | ⟨hlt, hget, hja⟩
      · rw [hget, hja, update_self]
      · have hjl : l.logLba (j + 1) ≠ l.logLba (logged.idxOf a + 1) := by
          intro he
          have := l.logLba_inj (by omega) hroom he
          omega
        have hja' : logged[j] ∉ ({a} : Set Lba) := by
          rintro (hjeq : logged[j] = a)
          exact hja (by rw [← hjeq]; exact (h.nodup.idxOf_getElem j hlt).symm)
        rw [hget, update_of_ne (fun he => hjl (rootPlace_inj he))]
        exact h.copies j hlt hja'
    · intro k hk
      have hkl : k ≠ l.logLba (logged.idxOf a + 1) := by
        rintro rfl
        exact hk hlog
      rw [update_of_ne hkl]
      exact hcur k hk
    · exact Bcache.set_same _ _ _
    · exact commits_elsewhere hhead _ _
  rw [h.ready.count]
  by_cases hfull : logged.idxOf a = logged.length
  · rw [if_pos (by exact_mod_cast hfull), wp_bind, wp_setLog]
    refine hlast _ rfl rfl ?_
    rw [hlog3, if_pos hfull]
  · rw [if_neg (by exact_mod_cast hfull)]
    refine hlast _ rfl rfl ?_
    rw [hlog3, if_neg hfull, Int.add_zero]

theorem wp_update {u : Update} (hu : ¬ l.InLog u.sector) (h : InTrans l c cur logged ∅ [] d s)
    (hT : T (commits l past) = c) :
    wp (Crashable l T) True u.run
      (fun _ past' d' s' => InTrans l c (u.apply cur) (addLogged logged u.sector) ∅ [] d' s' ∧
        commits l past' = commits l past) past d s := by
  obtain ⟨v, hv, hcur⟩ := h.view
  have hnew : update cur u.sector (u.change (v u.sector)) = u.apply cur := by
    rw [hcur _ hu]
    rfl
  unfold Update.run
  rw [wp_bind]
  refine hv.read (fun j hj => absurd hj List.not_mem_nil) (by decide)
    fun i dirty s1 _ _ hs1 h1 => ?_
  have h2 := h1.store List.mem_cons_self hs1.here (u.change (v u.sector))
  rw [wp_bind, wp_modifyData, hs1.here, wp_bind]
  have hmid : InTrans l c (u.apply cur) logged {u.sector} [i] d
      (s1.withCache (s1.bcache.set i (sectorBuf u.sector true dirty (u.change (v u.sector))))) := by
    refine ⟨h.disk, ?_, ?_, h.length_le, h.length_lt, h.nodup, h.outside, fun j hj hne => ?_,
      update v u.sector (u.change (v u.sector)), ?_, fun k hk => ?_⟩
    · show Ready l s1.log logged
      rw [hs1.log]
      exact h.ready
    · show s1.log.busy = true
      rw [hs1.log]
      exact h.busy
    · rw [h.copies j hj (Set.notMem_empty _), ← hnew, update_of_ne hne]
    · have hset : insert u.sector (∅ ∪ {k | k ∈ logged}) = {u.sector} ∪ {k | k ∈ logged} := by
        rw [Set.empty_union, Set.insert_eq]
      rwa [hset] at h2
    · rw [← hnew]
      rcases eq_or_ne k u.sector with rfl | hne
      · rw [update_self, update_self]
      · rw [update_of_ne hne, update_of_ne hne]
        exact hcur k hk
  have hbuf : (s1.withCache (s1.bcache.set i
      (sectorBuf u.sector true dirty (u.change (v u.sector))))).bcache.buf i =
        sectorBuf u.sector true dirty (u.apply cur u.sector) := by
    rw [Machine.withCache_bcache, Bcache.set_same, ← hnew, update_self]
  refine wp_mono (wp_logWrite hu hmid hbuf hT) ?_
  rintro _ past' d' s' ⟨h3, hb3, hc3⟩
  obtain ⟨v', hv', hcur'⟩ := h3.view
  refine hv'.releaseLast hb3 (fun _ => rfl) (Or.inl trivial) fun s4 hs4 h4 => ?_
  refine ⟨⟨h3.disk, ?_, ?_, h3.length_le, h3.length_lt, h3.nodup, h3.outside, h3.copies, v', h4,
    hcur'⟩, hc3⟩
  · rw [hs4.log]
    exact h3.ready
  · rw [hs4.log]
    exact h3.busy

theorem wp_updates {us : List Update} :
    ∀ {cur : Lba → Block} {logged : List Lba} {past : List DiskWrite} {d : Disk} {s : Machine},
      (∀ u ∈ us, ¬ l.InLog u.sector) → InTrans l c cur logged ∅ [] d s → T (commits l past) = c →
      wp (Crashable l T) True (us.forM Update.run)
        (fun _ past' d' s' => (∃ logged', InTrans l c (applyTrans cur us) logged' ∅ [] d' s' ∧
          (logged' = [] ↔ logged = [] ∧ us = [])) ∧ commits l past' = commits l past) past d s := by
  induction us with
  | nil =>
    intro cur logged past d s _ h _
    exact (wp_pure ()).mpr ⟨⟨logged, h, by simp⟩, rfl⟩
  | cons u us ih =>
    intro cur logged past d s hus h hT
    show wp (Crashable l T) True (u.run >>= fun _ => us.forM Update.run) _ past d s
    rw [wp_bind]
    refine wp_mono (wp_update (hus u List.mem_cons_self) h hT) ?_
    rintro _ past' d' s' ⟨h', hc⟩
    have hrest := ih (fun u' hu' => hus u' (List.mem_cons_of_mem _ hu')) h' (by rw [hc, hT])
    refine wp_mono hrest ?_
    rintro _ past'' d'' s'' ⟨⟨logged', h'', hnil⟩, hc'⟩
    refine ⟨⟨logged', h'', ?_⟩, hc'.trans hc⟩
    have hne : addLogged logged u.sector ≠ [] := by
      intro he
      have := mem_addLogged.mpr (Or.inl rfl : u.sector = u.sector ∨ u.sector ∈ logged)
      rw [he] at this
      exact absurd this List.not_mem_nil
    rw [hnil]
    simp [hne]

/-! ## 3. Commit -/

theorem wp_commitTrans (h : InTrans l c cur logged ∅ [] d s)
    (hnext : logged ≠ [] → T (commits l past + 1) = cur)
    (hdesc : logged ≠ [] → l.Describes (cur Layout.superLba)) :
    wp (Crashable l T) True commitTrans
      (fun _ past' d' s' => Settled True l cur d' s' ∧ s'.log.busy = false ∧
        commits l past' = commits l past + if logged = [] then 0 else 1) past d s := by
  obtain ⟨v, hv, hcur⟩ := h.view
  rw [Set.empty_union] at hv
  have hhome : ∀ k, ¬ l.InLog k → k ∉ logged → d (rootPlace k) = cur k := by
    intro k hk hmem
    rw [← hcur k hk, hv.cached.synced k hmem]
  unfold commitTrans
  rw [wp_bind, wp_getLog, h.ready.count]
  by_cases hnil : logged = []
  · -- nothing was logged
    subst hnil
    rw [if_neg (by simp), wp_setLog]
    have hsuper : l.Describes (cur Layout.superLba) := by
      rw [← hhome _ l.super_outside List.not_mem_nil]
      exact h.disk.super
    have hd : Recoverable l d cur [] :=
      ⟨h.disk.super, hsuper, h.disk.length_le, h.disk.length_lt, h.disk.outside, h.disk.count,
        h.disk.sectors, fun j hj => absurd hj (Nat.not_lt_zero j), hhome⟩
    have hempty : {k | k ∈ ([] : List Lba)} = (∅ : Set Lba) := by
      ext k
      simp
    rw [hempty] at hv
    refine ⟨⟨hd, ?_, v, hv.setLog _⟩, rfl, ?_⟩
    · exact ⟨h.ready.start, h.ready.size, h.ready.dev, h.ready.count, h.ready.sector⟩
    · rw [if_pos rfl, Nat.add_zero]
  · have hpos : 0 < logged.length := List.length_pos_iff.mpr hnil
    have hheadout : l.logLba 0 ∉ {k | k ∈ logged} :=
      fun hmem => h.outside _ hmem (l.logLba_inLog l.nlog_pos)
    rw [if_pos (by exact_mod_cast hpos), wp_bind]
    have hcount := h.ready.store_count h.length_le (v (l.logLba 0))
    -- the header write is the commit
    have hcommit : isCommit l ⟨rootPlace (l.logLba 0), s.log.lh.store (v (l.logLba 0))⟩ = true := by
      unfold isCommit
      rw [hcount, count_toInt h.length_le, decide_eq_true rfl,
        decide_eq_true (show (0 : Int) < logged.length by exact_mod_cast hpos)]
      rfl
    have hcommits : commits l (past ++ [⟨rootPlace (l.logLba 0),
        s.log.lh.store (v (l.logLba 0))⟩]) = commits l past + 1 := by
      rw [commits_snoc, hcommit]
      rfl
    have hd : Recoverable l (update d (rootPlace (l.logLba 0))
        (s.log.lh.store (v (l.logLba 0)))) cur logged :=
      h.disk.head (hdesc hnil) h.length_le h.length_lt h.outside hcount
        (h.ready.store_sector h.length_le _) (fun j hj => h.copies j hj (Set.notMem_empty _)) hhome
    refine wp_writeHead h.ready hv hheadout rfl ?_ fun s1 hs1 h1 => ?_
    · refine ⟨logged, ?_⟩
      rw [hcommits, hnext hnil]
      exact hd
    have hinst : Installing True l cur logged s.log 0 (update d (rootPlace (l.logLba 0))
        (s.log.lh.store (v (l.logLba 0)))) s1 := by
      refine ⟨hd, hs1, h.ready, ⟨_, _, h1, fun k hk => hk⟩, fun k hk hmem => ?_⟩
      exact hd.home k hk hmem
    rw [wp_bind]
    refine wp_mono (wp_installTrans (T := T) hinst (by rw [hcommits, hnext hnil])) ?_
    rintro _ past2 d2 s2 ⟨hI, hc2⟩
    have herase := wp_erase (T := T) hI (by rw [hc2, hcommits, hnext hnil])
    rw [wp_bind] at herase ⊢
    refine wp_mono herase fun _ past3 d3 s3 hw => ?_
    rw [wp_bind]
    refine wp_mono hw ?_
    rintro _ past4 d4 s4 ⟨hset, hc4, _⟩
    rw [wp_setLog]
    obtain ⟨v4, hv4⟩ := hset.view
    have hready := hset.ready
    refine ⟨⟨hset.disk, ?_, v4, hv4.setLog _⟩, rfl, ?_⟩
    · exact ⟨hready.start, hready.size, hready.dev, hready.count, hready.sector⟩
    · rw [hc4, hc2, hcommits, if_neg hnil]

theorem wp_transaction {us : List Update} (hus : ∀ u ∈ us, ¬ l.InLog u.sector)
    (h : Settled True l c d s) (hbusy : s.log.busy = false) (hT : T (commits l past) = c)
    (hnext : us ≠ [] → T (commits l past + 1) = applyTrans c us)
    (hdesc : us ≠ [] → l.Describes (applyTrans c us Layout.superLba)) :
    wp (Crashable l T) True (transaction us)
      (fun _ past' d' s' => Settled True l (applyTrans c us) d' s' ∧ s'.log.busy = false ∧
        commits l past' = commits l past + if us = [] then 0 else 1) past d s := by
  obtain ⟨v, hv⟩ := h.view
  have hstart : InTrans l c c [] ∅ [] d { s with log := { s.log with busy := true } } := by
    have hempty : ∅ ∪ {k | k ∈ ([] : List Lba)} = (∅ : Set Lba) := by
      ext k
      simp
    refine ⟨h.disk, ⟨h.ready.start, h.ready.size, h.ready.dev, h.ready.count, h.ready.sector⟩, rfl,
      Nat.zero_le _, l.nlog_pos, List.nodup_nil, fun k hk => absurd hk List.not_mem_nil,
      fun j hj => absurd hj (Nat.not_lt_zero j), v, ?_, fun k hk => ?_⟩
    · rw [hempty]
      exact hv.setLog _
    · rw [hv.cached.synced k (Set.notMem_empty k)]
      exact h.disk.home k hk List.not_mem_nil
  unfold transaction beginTrans
  rw [wp_bind, wp_bind, wp_getLog, if_neg (by rw [hbusy]; decide), wp_setLog, wp_bind]
  refine wp_mono (wp_updates hus hstart hT) ?_
  rintro _ past' d' s' ⟨⟨logged, h', hnil⟩, hc⟩
  have hiff : logged = [] ↔ us = [] := hnil.trans (and_iff_right rfl)
  refine wp_mono (wp_commitTrans h' (fun hne => by rw [hc]; exact hnext fun hus => hne (hiff.mpr hus))
    (fun hne => hdesc fun hus => hne (hiff.mpr hus))) ?_
  rintro _ past'' d'' s'' ⟨hs, hb, hc'⟩
  refine ⟨hs, hb, ?_⟩
  rw [hc', hc]
  simp only [hiff]

/-! ## 4. Sessions -/

def effective (ts : List (List Update)) : List (List Update) := ts.filter fun us => !us.isEmpty

theorem wp_transactions {ts : List (List Update)} :
    ∀ {c : Lba → Block} {past : List DiskWrite} {d : Disk} {s : Machine},
      (∀ us ∈ ts, ∀ u ∈ us, ¬ l.InLog u.sector) → Settled True l c d s → s.log.busy = false →
      (∀ m, T (commits l past + m) = contents c ((effective ts).take m)) →
      (∀ m, l.Describes (T m Layout.superLba)) →
      wp (Crashable l T) True (ts.forM transaction) (fun _ _ _ _ => True) past d s := by
  induction ts with
  | nil =>
    intro c past d s _ _ _ _ _
    exact (wp_pure ()).mpr trivial
  | cons us ts ih =>
    intro c past d s hout h hbusy hT hdesc
    show wp (Crashable l T) True (transaction us >>= fun _ => ts.forM transaction) _ past d s
    have heff : effective (us :: ts) = if us = [] then effective ts else us :: effective ts := by
      cases us with
      | nil => rfl
      | cons u us => rfl
    have hnext : us ≠ [] → T (commits l past + 1) = applyTrans c us := by
      intro hne
      rw [hT 1, heff, if_neg hne]
      rfl
    rw [wp_bind]
    refine wp_mono (wp_transaction (hout us List.mem_cons_self) h hbusy (hT 0) hnext
      fun hne => hnext hne ▸ hdesc _) ?_
    rintro _ past' d' s' ⟨h', hbusy', hc⟩
    refine ih (fun us' hus' => hout us' (List.mem_cons_of_mem _ hus')) h' hbusy' (fun m => ?_) hdesc
    rw [hc]
    by_cases hne : us = []
    · subst hne
      rw [if_pos rfl, Nat.add_zero, hT m, heff, if_pos rfl]
      rfl
    · rw [if_neg hne, Nat.add_assoc, hT (1 + m), heff, if_neg hne, Nat.add_comm 1 m]
      rfl

theorem contents_effective (ts : List (List Update)) :
    ∀ (c : Lba → Block) (m : Nat),
      ∃ j, contents c ((effective ts).take m) = contents c (ts.take j) := by
  induction ts with
  | nil =>
    intro c m
    exact ⟨0, by rw [List.take_zero]; cases m <;> rfl⟩
  | cons us ts ih =>
    intro c m
    cases us with
    | nil =>
      obtain ⟨j, hj⟩ := ih c m
      exact ⟨j + 1, hj⟩
    | cons u us =>
      cases m with
      | zero => exact ⟨0, rfl⟩
      | succ m =>
        obtain ⟨j, hj⟩ := ih (applyTrans c (u :: us)) m
        exact ⟨j + 1, hj⟩

theorem logInit_recoverable (h : ∃ logged, Recoverable l d c logged) (k : Nat) :
    ∃ logged, Recoverable l (after d ((logInit d bootMachine).1.take k)) c logged := by
  obtain ⟨logged, hd⟩ := h
  have hwp : wp (Crashable l fun _ => c) True logInit _ [] d bootMachine := wp_logInit hd rfl
  exact hwp.1.take ⟨logged, hd⟩ k

theorem logInit_installs (h : ∃ logged, Recoverable l d c logged) :
    (∃ s, (logInit d bootMachine).2 = some ((), s)) ∧
      ∀ a, ¬ l.InLog a → after d (logInit d bootMachine).1 (rootPlace a) = c a := by
  obtain ⟨logged, hd⟩ := h
  have hwp : wp (Crashable l fun _ => c) False logInit _ [] d bootMachine := wp_logInit hd rfl
  unfold wp at hwp
  cases hr : (logInit d bootMachine).2 with
  | none =>
    rw [hr] at hwp
    exact hwp.2.elim
  | some r =>
    rw [hr] at hwp
    refine ⟨⟨r.2, rfl⟩, fun a ha => ?_⟩
    exact hwp.2.1.disk.home a ha List.not_mem_nil

/-- Boots that crash again, each after so many writes of its recovery. -/
def crashedRecoveries (d : Disk) (ks : List Nat) : Disk :=
  ks.foldl (fun d k => after d ((logInit d bootMachine).1.take k)) d

theorem crashedRecoveries_recoverable (ks : List Nat) :
    ∀ {d : Disk}, (∃ logged, Recoverable l d c logged) →
      ∃ logged, Recoverable l (crashedRecoveries d ks) c logged := by
  induction ks with
  | nil => exact fun h => h
  | cons k ks ih => exact fun h => ih (logInit_recoverable h k)

theorem session_crashable {ts : List (List Update)}
    (hempty : (d (rootPlace (l.logLba 0))).word 0 = 0)
    (hout : ∀ us ∈ ts, ∀ u ∈ us, ¬ l.InLog u.sector)
    (hkeep : ∀ m, l.Describes (contents (home d) (ts.take m) Layout.superLba)) (k : Nat) :
    ∃ logged, Recoverable l (after d ((session ts d bootMachine).1.take k))
      (contents (home d)
        ((effective ts).take (commits l ((session ts d bootMachine).1.take k)))) logged := by
  have hd : Recoverable l d (home d) [] := by
    refine ⟨hkeep 0, hkeep 0, Nat.zero_le _, l.nlog_pos, fun k hk => absurd hk List.not_mem_nil,
      hempty, fun j hj => absurd hj (Nat.not_lt_zero j), fun j hj => absurd hj (Nat.not_lt_zero j),
      fun _ _ _ => rfl⟩
  have hwp : wp (Crashable l fun m => contents (home d) ((effective ts).take m)) True (session ts)
      (fun _ _ _ _ => True) [] d bootMachine := by
    unfold session
    rw [wp_bind]
    refine wp_mono (wp_logInit hd rfl) ?_
    rintro _ past d' s' ⟨h, hc, hbusy⟩
    refine wp_transactions hout h hbusy (fun m => ?_) fun m => ?_
    · rw [hc]
      show contents (home d) ((effective ts).take (0 + m)) = _
      rw [Nat.zero_add]
    · obtain ⟨j, hj⟩ := contents_effective ts (home d) m
      rw [hj]
      exact hkeep j
  exact hwp.1.take ⟨[], hd⟩ k

end

/-- **Crash atomicity.**  Start with an empty log, run transactions that keep the size of the file
system and of its log, crash after any number of writes, and crash again in recovery as often as one
likes.  Recovery that gets through leaves every sector outside the log as the transactions whose
header was written made it. -/
theorem crash_atomicity (l : Layout) (d : Disk) (ts : List (List Update))
    (hempty : (d (rootPlace (l.logLba 0))).word 0 = 0)
    (hout : ∀ us ∈ ts, ∀ u ∈ us, ¬ l.InLog u.sector)
    (hkeep : ∀ m, l.Describes (contents (home d) (ts.take m) Layout.superLba)) (k : Nat)
    (ks : List Nat) :
    let ws := (session ts d bootMachine).1.take k
    let crashed := crashedRecoveries (after d ws) ks
    (∃ s, (logInit crashed bootMachine).2 = some ((), s)) ∧
      ∀ a, ¬ l.InLog a → after crashed (logInit crashed bootMachine).1 (rootPlace a) =
        contents (home d) ((effective ts).take (commits l ws)) a :=
  logInit_installs (crashedRecoveries_recoverable ks (session_crashable hempty hout hkeep k))

def smallLayout : Layout := ⟨20, 5, by decide, by decide, by decide⟩

def zeroBlock : Block := fun _ => 0

def smallDisk : Disk :=
  update (fun _ => zeroBlock) (rootPlace Layout.superLba) ((zeroBlock.setWord 0 20).setWord 3 5)

def setFirst (k : Lba) (x : UInt8) : Update := ⟨k, fun b => update b ⟨0, by decide⟩ x⟩

/-- Two transactions; the crash falls between the header write of the first and its installation. -/
theorem crash_atomicity_committed :
    commits smallLayout ((session [[setFirst 3 7], [setFirst 4 8]] smallDisk bootMachine).1.take 3) =
        1 ∧
      after (crashedRecoveries (after smallDisk
          ((session [[setFirst 3 7], [setFirst 4 8]] smallDisk bootMachine).1.take 3)) [0, 1])
        (logInit (crashedRecoveries (after smallDisk
          ((session [[setFirst 3 7], [setFirst 4 8]] smallDisk bootMachine).1.take 3)) [0, 1])
          bootMachine).1 (rootPlace 3) =
        contents (home smallDisk) [[setFirst 3 7]] 3 := by
  have hone : commits smallLayout
      ((session [[setFirst 3 7], [setFirst 4 8]] smallDisk bootMachine).1.take 3) = 1 := by
    decide +kernel
  refine ⟨hone, ?_⟩
  have h := (crash_atomicity smallLayout smallDisk [[setFirst 3 7], [setFirst 4 8]]
    (by decide +kernel) (by decide) ?_ 3 [0, 1]).2 3 (by decide)
  · rw [hone] at h
    exact h
  · intro m
    match m with
    | 0 => decide +kernel
    | 1 => decide +kernel
    | m + 2 =>
      rw [List.take_of_length_le (show 2 ≤ m + 2 by omega)]
      decide +kernel

/-- The first transaction enlarges the file system in its super block, so that after the next crash
the log is looked for elsewhere; the second, whose header was written, is lost. -/
def resize : Update := ⟨Layout.superLba, fun b => b.setWord 0 30⟩

theorem crash_loses_transaction :
    smallLayout.Describes (home smallDisk Layout.superLba) ∧
      (smallDisk (rootPlace (smallLayout.logLba 0))).word 0 = 0 ∧
      ¬ smallLayout.InLog resize.sector ∧ ¬ smallLayout.InLog (setFirst 3 7).sector ∧
      ¬ smallLayout.InLog 3 ∧
      ∃ k, commits smallLayout
          ((session [[resize], [setFirst 3 7]] smallDisk bootMachine).1.take k) = 2 ∧
        after (after smallDisk
            ((session [[resize], [setFirst 3 7]] smallDisk bootMachine).1.take k))
          (logInit (after smallDisk
            ((session [[resize], [setFirst 3 7]] smallDisk bootMachine).1.take k)) bootMachine).1
          (rootPlace 3) ≠ contents (home smallDisk) [[resize], [setFirst 3 7]] 3 := by
  refine ⟨by decide +kernel, by decide +kernel, by decide, by decide, by decide, 7,
    by decide +kernel, fun he => ?_⟩
  exact absurd (congrFun he ⟨0, by decide⟩) (by decide +kernel)

end MCertiKOS.Fs
