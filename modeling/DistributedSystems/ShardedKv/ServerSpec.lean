import DistributedSystems.ShardedKv.Server

/-!
# What the server's operations do

Lookups after storing an answer and after a sweep, the locked data after each change, and copying,
updating and starting a server on a network where every node has a client.
-/

namespace ShardedKv

open Function

/-! ## 1. Lookups -/

theorem lookup_foldl_insert {β : Type} (g : ValueWithTtl → β) (key : String)
    (l : List (Sigma fun _ : String => ValueWithTtl)) (hl : l.NodupKeys)
    (d : AList fun _ : String => β) :
    (l.foldl (fun d e => d.insert e.1 (g e.2)) d).lookup key =
      ((l.dlookup key).map g).or (d.lookup key) := by
  induction l generalizing d with
  | nil => rfl
  | cons e l ih =>
    obtain ⟨hfresh, hl⟩ := List.nodupKeys_cons.mp hl
    rw [List.foldl_cons, ih hl]
    by_cases hkey : key = e.1
    · have hnone : l.dlookup key = none := by
        rw [List.dlookup_eq_none, hkey]
        exact hfresh
      subst hkey
      rw [hnone, List.dlookup_cons_eq, AList.lookup_insert]
      rfl
    · rw [List.dlookup_cons_ne _ _ hkey, AList.lookup_insert_ne hkey]

namespace KvServer

/-- What an entry becomes when it is sent at time `sent` and stored at time `now`. -/
def transferred (now sent : Int) (v : ValueWithTtl) : ValueWithTtl :=
  ⟨v.value, now + milliseconds (toMilliseconds (timeSub v.timeExpire sent))⟩

theorem lookup_storeValues_contents (now sent : Int) (data d : Shard) (key : String) :
    (storeValues now d (contents sent data)).lookup key =
      ((data.lookup key).map (transferred now sent)).or (d.lookup key) := by
  unfold storeValues contents
  rw [List.foldl_map]
  exact lookup_foldl_insert (transferred now sent) key data.entries data.nodupKeys d

theorem mem_storeValues {now : Int} {values : List GetShardValue} {d : Shard} {key : String}
    (h : key ∈ storeValues now d values) : key ∈ d ∨ ∃ v ∈ values, v.key = key := by
  induction values generalizing d with
  | nil => exact Or.inl h
  | cons v values ih =>
    cases ih h with
    | inl hd =>
      cases (AList.mem_insert _).mp hd with
      | inl hv => exact Or.inr ⟨v, List.mem_cons_self, hv.symm⟩
      | inr hd => exact Or.inl hd
    | inr hex =>
      obtain ⟨u, hu, hk⟩ := hex
      exact Or.inr ⟨u, List.mem_cons_of_mem v hu, hk⟩

theorem lookup_foldl_erase (now : Int) (key : String)
    (l : List (Sigma fun _ : String => ValueWithTtl)) (d : Shard) :
    (l.foldl (fun d e => if e.2.timeExpire < now then d.erase e.1 else d) d).lookup key =
      if key ∈ (l.filter fun e => e.2.timeExpire < now).map Sigma.fst then none
      else d.lookup key := by
  induction l generalizing d with
  | nil => simp
  | cons e l ih =>
    rw [List.foldl_cons, ih]
    by_cases hexp : e.2.timeExpire < now
    · rw [if_pos hexp, List.filter_cons_of_pos (by simpa using hexp), List.map_cons]
      by_cases hkey : key = e.1
      · subst hkey
        rw [AList.lookup_erase, ite_self, if_pos List.mem_cons_self]
      · rw [AList.lookup_erase_ne hkey]
        simp only [List.mem_cons, hkey, false_or]
    · rw [if_neg hexp, List.filter_cons_of_neg (by simpa using hexp)]

theorem lookup_sweepData (now : Int) (data : Shard) (key : String) :
    (sweepData now data).lookup key = (data.lookup key).filter fun v => !(v.timeExpire < now) := by
  unfold sweepData
  rw [lookup_foldl_erase]
  have hmem : key ∈ (data.entries.filter fun e => e.2.timeExpire < now).map Sigma.fst ↔
      ∃ v, data.lookup key = some v ∧ v.timeExpire < now := by
    constructor
    · intro h
      obtain ⟨e, he, hkey⟩ := List.mem_map.mp h
      obtain ⟨he, hexp⟩ := List.mem_filter.mp he
      exact ⟨e.2, hkey ▸ AList.mem_lookup_iff.mpr he, of_decide_eq_true hexp⟩
    · intro ⟨v, hl, hexp⟩
      apply List.mem_map.mpr
      exact ⟨⟨key, v⟩, List.mem_filter.mpr ⟨AList.mem_lookup_iff.mp hl, decide_eq_true hexp⟩, rfl⟩
  simp only [hmem]
  cases data.lookup key with
  | none => simp
  | some v => by_cases hexp : v.timeExpire < now <;> simp [Option.filter, hexp]

/-! ## 2. Locked data -/

section Locked

variable (server : KvServer) {s t : Int} (d : Shard)

theorem lockedData_setData_self {e : Shard} (h : server.lockedData s = some e) :
    (server.setData s d).lockedData s = some d := by
  unfold lockedData at h
  split at h
  · simp [lockedData, setData, *]
  · simp at h

theorem shardLocks_of_lockedData {server : KvServer} {e : Shard}
    (h : server.lockedData s = some e) : server.shardLocks s = true := by
  unfold lockedData at h
  split at h
  · assumption
  · contradiction

theorem lockedData_setData_ne (hne : s ≠ t) :
    (server.setData t d).lockedData s = server.lockedData s := by
  simp [lockedData, setData, hne]

theorem lockedData_setLock_ne (hne : s ≠ t) (b : Bool) :
    (server.setLock t b).lockedData s = server.lockedData s := by
  simp [lockedData, setLock, hne]

theorem lockedData_fresh : ((server.setData s d).setLock s true).lockedData s = some d := by
  simp [lockedData, setLock, setData]

theorem lockedData_fresh_ne (hne : s ≠ t) (b : Bool) :
    ((server.setData t d).setLock t b).lockedData s = server.lockedData s := by
  rw [lockedData_setLock_ne _ hne, lockedData_setData_ne _ _ hne]

theorem lockedData_sweep (now : Int) :
    (server.sweep now).lockedData s = (server.lockedData s).map (sweepData now) := by
  unfold lockedData sweep
  dsimp only
  split <;> simp [*]

end Locked

def Ready (server : KvServer) : Prop :=
  ∀ s ∈ server.hostedShards, ∃ data, server.lockedData s = some data

theorem Ready.getShardContents {server : KvServer} (h : server.Ready) (now shard : Int) :
    ∃ r, server.getShardContents now shard = some r := by
  unfold KvServer.getShardContents
  split
  · exact ⟨_, rfl⟩
  have hall : ∀ l : List Int, (∀ s ∈ l, s ∈ server.hostedShards) →
      ∃ vs, l.mapM (fun sid => (server.lockedData sid).map (contents now)) = some vs := by
    intro l
    induction l with
    | nil => exact fun _ => ⟨[], rfl⟩
    | cons s l ih =>
      intro hl
      obtain ⟨data, hd⟩ := h s (hl s List.mem_cons_self)
      obtain ⟨vs, hvs⟩ := ih fun t ht => hl t (List.mem_cons_of_mem s ht)
      exact ⟨contents now data :: vs, by simp [List.mapM_cons, hd, hvs]⟩
  obtain ⟨vs, hvs⟩ := hall (server.hostedShards.filter (toInt32 · = shard))
    fun s hs => (List.mem_filter.mp hs).1
  exact ⟨.ok vs.flatten, by rw [hvs]; rfl⟩

/-! ## 3. Copying -/

section Copy

variable {σ : Type} {w : σ} {st : ShardMapState} {now : Int}

def Copied (answer : String → Except KvError (List GetShardValue)) (nodes : List String)
    (nodeName : String) (now : Int) (d : Shard) : Prop :=
  (∃ n ∈ nodes, ∃ values, answer n = .ok values ∧ d = storeValues now ∅ values) ∨
    (d = ∅ ∧ (nodes = [] ∨ nodes = [nodeName] ∨ ∀ n ∈ nodes, ∀ v, answer n ≠ .ok v))

variable {peers : KvServer → Int → Network σ (List GetShardValue)} {server : KvServer} {s : Int}
  {hosted : List Int} {name : String}

theorem copyShardData_steady (now : Int) {peers : Int → Network σ (List GetShardValue)}
    {answer : String → Except KvError (List GetShardValue)}
    (h : Steady (peers (toInt32 s)) w answer (st.nodesForShard s))
    (hdata : server.lockedData s = some ∅) :
    ∃ d inds err, copyShardData peers st now server s w =
        some (({ server with nodeInds := inds }.setData s d, err), w) ∧
      Copied answer (st.nodesForShard s) server.nodeName now d := by
  have hsame : ∀ inds, { server with nodeInds := inds }.setData s ∅ =
      { server with nodeInds := inds } := by
    intro inds
    have hd : server.shardData s = some ∅ := by
      unfold lockedData at hdata
      split at hdata
      · exact hdata
      · simp at hdata
    simp [setData, ← hd]
  unfold copyShardData
  dsimp only
  by_cases htriv : st.nodesForShard s = [] ∨ st.nodesForShard s = [server.nodeName]
  · rw [if_pos htriv]
    refine ⟨∅, server.nodeInds, some (.noNodes s), by rw [hsame], Or.inr ⟨rfl, ?_⟩⟩
    exact htriv.imp_right Or.inl
  rw [if_neg htriv]
  have hpos : 0 < (st.nodesForShard s).length := by
    apply List.length_pos_iff.mpr
    exact fun hnil => htriv (Or.inl hnil)
  have hlt : server.nodeInds s % (st.nodesForShard s).length < (st.nodesForShard s).length :=
    Nat.mod_lt _ hpos
  rw [List.getElem?_eq_getElem hlt]
  obtain ⟨r, hr, hout⟩ := failover_steady h (List.getElem_mem hlt)
  obtain ⟨inds, hinds⟩ : ∃ inds, inds = update server.nodeInds s
      (server.nodeInds s % (st.nodesForShard s).length + 1) := ⟨_, rfl⟩
  simp only [Option.bind_eq_bind, Option.bind_some, hr, ← hinds]
  cases r with
  | error e => exact ⟨∅, inds, some e, by rw [hsame], Or.inr ⟨rfl, Or.inr (Or.inr hout)⟩⟩
  | ok values =>
    obtain ⟨n, hn, hv⟩ := hout
    have hdata' : ({ server with nodeInds := inds } : KvServer).lockedData s = some ∅ := hdata
    refine ⟨storeValues now ∅ values, inds, none, ?_, Or.inl ⟨n, hn, values, hv, rfl⟩⟩
    simp only [hdata', Option.bind_some]

theorem addShard_steady (now : Int) {answer : String → Except KvError (List GetShardValue)}
    (h : Steady (peers ((server.setData s ∅).setLock s true) (toInt32 s)) w answer
      (st.nodesForShard s)) :
    ∃ server' d, addShard peers st now server s w = some (server', w) ∧
      server'.nodeName = server.nodeName ∧ server'.hostedShards = server.hostedShards ∧
      server'.lockedData s = some d ∧
      Copied answer (st.nodesForShard s) server.nodeName now d ∧
      ∀ t ≠ s, server'.lockedData t = server.lockedData t := by
  have hfresh := lockedData_fresh server ∅ (s := s)
  obtain ⟨d, inds, err, hcopy, hd⟩ := copyShardData_steady now h hfresh
  unfold addShard
  simp only [hcopy, Option.bind_eq_bind, Option.bind_some]
  refine ⟨_, d, rfl, rfl, rfl, lockedData_setData_self _ d hfresh, hd, ?_⟩
  intro t ht
  rw [lockedData_setData_ne _ _ ht]
  exact lockedData_fresh_ne server ∅ ht true

/-! ## 4. Updates and start -/

theorem addShards_steady {P : Int → Shard → Prop} (newShards : List Int)
    (hpeers : ∀ server : KvServer, server.nodeName = name → server.hostedShards = hosted →
      server.Ready → ∀ s ∈ newShards, s ∉ hosted → ∃ answer,
        Steady (peers server (toInt32 s)) w answer (st.nodesForShard s) ∧
        ∀ d, Copied answer (st.nodesForShard s) name now d → P s d) (hnodup : newShards.Nodup)
    (server : KvServer) (hname : server.nodeName = name) (hhosted : server.hostedShards = hosted)
    (hready : server.Ready) :
    ∃ server', addShards peers st now hosted newShards server w = some (server', w) ∧
      server'.nodeName = name ∧ server'.hostedShards = hosted ∧
      (∀ s ∈ newShards, s ∉ hosted → ∃ d, server'.lockedData s = some d ∧ P s d) ∧
      ∀ t, t ∈ hosted ∨ t ∉ newShards → server'.lockedData t = server.lockedData t := by
  induction newShards generalizing server with
  | nil => exact ⟨server, rfl, hname, hhosted, by simp, fun _ _ => rfl⟩
  | cons s rest ih =>
    obtain ⟨hfresh, hnodup⟩ := List.nodup_cons.mp hnodup
    have ih := ih fun server hn hh hr t ht => hpeers server hn hh hr t (List.mem_cons_of_mem s ht)
    rw [addShards]
    by_cases hs : s ∈ hosted
    · rw [if_pos (contains_iff.mpr hs)]
      obtain ⟨server', heq, hn, hh, hnew, hold⟩ := ih hnodup server hname hhosted hready
      refine ⟨server', heq, hn, hh, ?_, ?_⟩
      · intro t ht htn
        cases List.mem_cons.mp ht with
        | inl heq => exact absurd (heq ▸ hs) htn
        | inr ht => exact hnew t ht htn
      · intro t ht
        apply hold
        exact ht.imp_right fun h hmem => h (List.mem_cons_of_mem s hmem)
    · rw [if_neg (by simpa [contains_iff] using hs)]
      -- hosted shards are other shards, so the server stays ready while it copies
      have hne : ∀ t ∈ hosted, t ≠ s := fun t ht heq => hs (heq ▸ ht)
      have hready' : ((server.setData s ∅).setLock s true).Ready := by
        intro t ht
        have ht' : t ∈ hosted := hhosted ▸ ht
        rw [lockedData_fresh_ne server ∅ (hne t ht') true]
        exact hready t ht
      obtain ⟨answer, hsteady, hP⟩ :=
        hpeers ((server.setData s ∅).setLock s true) hname hhosted hready' s List.mem_cons_self hs
      obtain ⟨server₁, d, hadd, hn₁, hh₁, hd, hcopied, hother⟩ :=
        addShard_steady now hsteady
      have hready₁ : server₁.Ready := by
        intro t ht
        have ht' : t ∈ hosted := by rwa [hh₁, hhosted] at ht
        rw [hother t (hne t ht')]
        exact hready t (hhosted ▸ ht')
      obtain ⟨server', heq, hn, hh, hnew, hold⟩ :=
        ih hnodup server₁ (hn₁.trans hname) (hh₁.trans hhosted) hready₁
      refine ⟨server', by simp [hadd, heq], hn, hh, ?_, ?_⟩
      · intro t ht htn
        cases List.mem_cons.mp ht with
        | inl heq =>
          subst heq
          exact ⟨d, (hold t (Or.inr hfresh)).trans hd, hP d (hname ▸ hcopied)⟩
        | inr ht => exact hnew t ht htn
      · intro t ht
        have hts : t ≠ s := by
          cases ht with
          | inl ht => exact hne t ht
          | inr ht => exact fun heq => ht (heq ▸ List.mem_cons_self)
        rw [← hother t hts]
        apply hold
        exact ht.imp_right fun h hmem => h (List.mem_cons_of_mem s hmem)

theorem dropShards_spec (l : List Int) (hnodup : l.Nodup) (server : KvServer)
    (hlock : ∀ k ∈ l, server.shardLocks k = true) :
    ∃ server', dropShards l server = some server' ∧ server'.nodeName = server.nodeName ∧
      ∀ t, t ∉ l → server'.lockedData t = server.lockedData t := by
  induction l generalizing server with
  | nil => exact ⟨server, rfl, rfl, fun _ _ => rfl⟩
  | cons k rest ih =>
    obtain ⟨hfresh, hnodup⟩ := List.nodup_cons.mp hnodup
    have hlock' : ∀ j ∈ rest, ((server.setData k ∅).setLock k false).shardLocks j = true := by
      intro j hj
      have hne : j ≠ k := fun heq => hfresh (heq ▸ hj)
      show update server.shardLocks k false j = true
      rw [update_of_ne hne]
      exact hlock j (List.mem_cons_of_mem k hj)
    obtain ⟨server', heq, hn, hkeep⟩ := ih hnodup _ hlock'
    rw [dropShards, if_pos (hlock k List.mem_cons_self)]
    refine ⟨server', heq, hn, ?_⟩
    intro t ht
    have htk : t ≠ k := fun heq => ht (heq ▸ List.mem_cons_self)
    rw [hkeep t fun hmem => ht (List.mem_cons_of_mem k hmem)]
    exact lockedData_fresh_ne server ∅ htk false

variable {newShards : List Int}

theorem not_mem_dropped (hs : s ∈ newShards) :
    s ∉ hosted.dedup.filter fun k => !contains k newShards := by
  intro hmem
  have hout := (List.mem_filter.mp hmem).2
  rw [contains_iff.mpr hs] at hout
  exact absurd hout (by decide)

theorem handleShardMapUpdate_steady {P : Int → Shard → Prop}
    (hpeers : ∀ server₁ : KvServer, server₁.nodeName = server.nodeName →
      server₁.hostedShards = server.hostedShards → server₁.Ready →
      ∀ s ∈ newShards, s ∉ server.hostedShards → ∃ answer,
        Steady (peers server₁ (toInt32 s)) w answer (st.nodesForShard s) ∧
        ∀ d, Copied answer (st.nodesForShard s) server.nodeName now d → P s d)
    (hnodup : newShards.Nodup) (hready : server.Ready) :
    ∃ server', handleShardMapUpdate peers st now newShards server w = some (server', w) ∧
      server'.nodeName = server.nodeName ∧ server'.hostedShards = newShards ∧
      (∀ s ∈ newShards, s ∉ server.hostedShards → ∃ d, server'.lockedData s = some d ∧ P s d) ∧
      ∀ s ∈ newShards, s ∈ server.hostedShards → server'.lockedData s = server.lockedData s := by
  obtain ⟨server₁, hadd, hn₁, hh₁, hnew, hold⟩ :=
    addShards_steady newShards hpeers hnodup server rfl rfl hready
  have hlock : ∀ k ∈ server.hostedShards.dedup.filter fun k => !contains k newShards,
      server₁.shardLocks k = true := by
    intro k hk
    have hk := List.mem_dedup.mp (List.mem_filter.mp hk).1
    obtain ⟨d, hd⟩ := hready k hk
    rw [← hold k (Or.inl hk)] at hd
    exact shardLocks_of_lockedData hd
  obtain ⟨server₂, hdrop, hn₂, hkeep⟩ :=
    dropShards_spec _ ((List.nodup_dedup _).filter _) server₁ hlock
  have hstay : ∀ s ∈ newShards, ({ server₂ with hostedShards := newShards } : KvServer).lockedData s =
      server₁.lockedData s := by
    intro s hs
    apply hkeep
    exact fun hmem => not_mem_dropped hs hmem
  unfold handleShardMapUpdate
  refine ⟨{ server₂ with hostedShards := newShards }, by simp [hadd, hdrop], hn₂.trans hn₁, rfl,
    ?_, ?_⟩
  · intro s hs hsn
    rw [hstay s hs]
    exact hnew s hs hsn
  · intro s hs hsh
    rw [hstay s hs]
    exact hold s (Or.inl hsh)

theorem mem_allShards : s ∈ allShards st ↔ 1 ≤ s ∧ s ≤ st.numShards := by
  unfold allShards
  rw [List.mem_map]
  constructor
  · intro ⟨i, hi, heq⟩
    have := List.mem_range.mp hi
    omega
  · intro hs
    exact ⟨(s - 1).toNat, List.mem_range.mpr (by omega), by omega⟩

theorem initShards_steady {P : Int → Shard → Prop} (l : List Int)
    (hpeers : ∀ server : KvServer, server.nodeName = name → ∀ s ∈ l, ∃ answer,
      Steady (peers server (toInt32 s)) w answer (st.nodesForShard s) ∧
      ∀ d, Copied answer (st.nodesForShard s) name now d → P s d) (server : KvServer)
    (hname : server.nodeName = name) :
    ∃ server', initShards peers st now l server w = some (server', w) ∧
      server'.nodeName = name ∧ server'.hostedShards = server.hostedShards ∧
      ∀ s, (s ∈ l ∨ ∃ d, server.lockedData s = some d ∧ P s d) →
        ∃ d, server'.lockedData s = some d ∧ P s d := by
  induction l generalizing server with
  | nil =>
    refine ⟨server, rfl, hname, rfl, ?_⟩
    intro s hs
    simpa using hs
  | cons i rest ih =>
    have ih := ih fun server hn t ht => hpeers server hn t (List.mem_cons_of_mem i ht)
    obtain ⟨answer, hsteady, hP⟩ :=
      hpeers ((server.setData i ∅).setLock i true) hname i List.mem_cons_self
    obtain ⟨server₁, d, hadd, hn₁, hh₁, hd, hcopied, hother⟩ := addShard_steady now hsteady
    obtain ⟨server', heq, hn, hh, hall⟩ :=
      ih { server₁ with nodeInds := update server₁.nodeInds i 0 } (hn₁.trans hname)
    refine ⟨server', by simp [initShards, hadd, heq], hn, hh.trans hh₁, ?_⟩
    intro s hs
    apply hall
    by_cases hsi : s = i
    · subst hsi
      exact Or.inr ⟨d, hd, hP d (hname ▸ hcopied)⟩
    · cases hs with
      | inl hs => exact Or.inl ((List.mem_cons.mp hs).resolve_left hsi)
      | inr hex =>
        obtain ⟨e, he, hPe⟩ := hex
        exact Or.inr ⟨e, (hother s hsi).trans he, hPe⟩

theorem makeKvServer_steady {P : Int → Shard → Prop}
    (hpeers : ∀ server : KvServer, server.nodeName = name → ∀ s ∈ allShards st, ∃ answer,
      Steady (peers server (toInt32 s)) w answer (st.nodesForShard s) ∧
      ∀ d, Copied answer (st.nodesForShard s) name now d → P s d) (hnodup : newShards.Nodup)
    (hrange : ∀ s ∈ hosted, s ∈ allShards st) (hrange' : ∀ s ∈ newShards, s ∈ allShards st) :
    ∃ server', makeKvServer peers st now name hosted newShards w = some (server', w) ∧
      server'.nodeName = name ∧ server'.hostedShards = newShards ∧
      ∀ s ∈ newShards, ∃ d, server'.lockedData s = some d ∧ P s d := by
  obtain ⟨server₁, hinit, hn₁, hh₁, hall⟩ := initShards_steady (allShards st) hpeers
    { nodeName := name, shardData := fun _ => none, shardLocks := fun _ => false,
      hostedShards := hosted, nodeInds := fun _ => 0 } rfl
  have hdata : ∀ s ∈ server₁.hostedShards, ∃ d, server₁.lockedData s = some d ∧ P s d := by
    intro s hs
    rw [hh₁] at hs
    exact hall s (Or.inl (hrange s hs))
  have hready : server₁.Ready := by
    intro s hs
    obtain ⟨d, hd, _⟩ := hdata s hs
    exact ⟨d, hd⟩
  obtain ⟨server', hupd, hn, hh, hnew, hold⟩ :=
    handleShardMapUpdate_steady (P := P)
      (fun server hn _ _ s hs _ => hn₁ ▸ hpeers server (hn.trans hn₁) s (hrange' s hs)) hnodup hready
  refine ⟨server', by simp [makeKvServer, hinit, hupd], hn.trans hn₁, hh, ?_⟩
  intro s hs
  by_cases hsh : s ∈ server₁.hostedShards
  · rw [hold s hs hsh]
    exact hdata s hsh
  · exact hnew s hs hsh

/-! ## 5. Peers that answer anything -/

def Covers (server : KvServer) (s : Int) : Prop := ∃ data, server.lockedData s = some data

structure Grows (server server' : KvServer) : Prop where
  hosted : server'.hostedShards = server.hostedShards
  covers : ∀ s, server.Covers s → server'.Covers s

theorem Grows.trans {server' server'' : KvServer} (h : Grows server server')
    (h' : Grows server' server'') : Grows server server'' :=
  ⟨h'.hosted.trans h.hosted, fun s hs => h'.covers s (h.covers s hs)⟩

theorem Grows.ready {server' : KvServer} (h : Grows server server') (hr : server.Ready) :
    server'.Ready := by
  intro s hs
  rw [h.hosted] at hs
  exact h.covers s (hr s hs)

theorem grows_setData (hs : server.Covers s) (d : Shard) : Grows server (server.setData s d) := by
  refine ⟨rfl, fun t ht => ?_⟩
  by_cases hts : t = s
  · obtain ⟨e, he⟩ := hs
    rw [hts]
    exact ⟨d, lockedData_setData_self server d he⟩
  · unfold Covers
    rw [lockedData_setData_ne server d hts]
    exact ht

theorem grows_fresh (server : KvServer) (s : Int) :
    Grows server ((server.setData s ∅).setLock s true) := by
  refine ⟨rfl, fun t ht => ?_⟩
  by_cases hts : t = s
  · rw [hts]
    exact ⟨∅, lockedData_fresh server ∅⟩
  · unfold Covers
    rw [lockedData_fresh_ne server ∅ hts]
    exact ht

variable {I : σ → Prop} (st now)

theorem copyShardData_sound {peers : Int → Network σ (List GetShardValue)}
    (hpeers : (peers (toInt32 s)).Sound I) (hs : server.Covers s) (hw : I w) :
    ∃ server' err w', copyShardData peers st now server s w = some ((server', err), w') ∧
      Grows server server' ∧ I w' := by
  unfold copyShardData
  dsimp only
  split
  · exact ⟨server, _, w, rfl, ⟨rfl, fun _ h => h⟩, hw⟩
  · next htriv =>
    have hpos : 0 < (st.nodesForShard s).length :=
      List.length_pos_iff.mpr fun hnil => htriv (Or.inl hnil)
    have hlt : server.nodeInds s % (st.nodesForShard s).length < (st.nodesForShard s).length :=
      Nat.mod_lt _ hpos
    rw [List.getElem?_eq_getElem hlt]
    obtain ⟨response, w₁, hresponse, hw₁⟩ := failover_sound hpeers (st.nodesForShard s)
      (st.nodesForShard s)[server.nodeInds s % (st.nodesForShard s).length] hw
    simp only [Option.bind_eq_bind, Option.bind_some, hresponse]
    cases response with
    | error err => exact ⟨_, _, w₁, rfl, ⟨rfl, fun _ h => h⟩, hw₁⟩
    | ok values =>
      obtain ⟨data, hdata⟩ := hs
      -- the counter of the round robin has no part in the locked data
      have hcopied : ∀ inds, ({ server with nodeInds := inds } : KvServer).lockedData s =
          some data := fun _ => hdata
      simp only [hcopied, Option.bind_some]
      refine ⟨_, _, w₁, rfl, ?_, hw₁⟩
      exact ⟨rfl, (grows_setData ⟨data, hcopied _⟩ _).covers⟩

theorem addShard_sound (hpeers : (peers ((server.setData s ∅).setLock s true) (toInt32 s)).Sound I)
    (hw : I w) :
    ∃ server' w', addShard peers st now server s w = some (server', w') ∧
      Grows server server' ∧ server'.Covers s ∧ I w' := by
  have hfresh : ((server.setData s ∅).setLock s true).Covers s := ⟨∅, lockedData_fresh server ∅⟩
  obtain ⟨server', err, w', hcopy, hgrows, hw'⟩ := copyShardData_sound st now hpeers hfresh hw
  unfold addShard
  simp only [hcopy, Option.bind_eq_bind, Option.bind_some]
  exact ⟨server', w', rfl, (grows_fresh server s).trans hgrows, hgrows.covers s hfresh, hw'⟩

theorem addShards_sound
    (hpeers : ∀ server : KvServer, server.Ready → ∀ shard, (peers server shard).Sound I)
    (newShards : List Int) :
    ∀ (server : KvServer) (w : σ), server.Ready → server.hostedShards = hosted → I w →
      ∃ server' w', addShards peers st now hosted newShards server w = some (server', w') ∧
        Grows server server' ∧ (∀ s ∈ newShards, s ∉ hosted → server'.Covers s) ∧ I w' := by
  induction newShards with
  | nil =>
    intro server w _ _ hw
    exact ⟨server, w, rfl, ⟨rfl, fun _ h => h⟩, fun _ hs => absurd hs List.not_mem_nil, hw⟩
  | cons s rest ih =>
    intro server w hready hhosted hw
    unfold addShards
    by_cases hs : s ∈ hosted
    · rw [if_pos (contains_iff.mpr hs)]
      obtain ⟨server', w', hrest, hgrows, hcovers, hw'⟩ := ih server w hready hhosted hw
      refine ⟨server', w', hrest, hgrows, fun t ht hth => ?_, hw'⟩
      cases List.mem_cons.mp ht with
      | inl heq => exact absurd (heq ▸ hs) hth
      | inr ht => exact hcovers t ht hth
    · rw [if_neg (by simpa [contains_iff] using hs)]
      obtain ⟨server₁, w₁, hadd, hgrows₁, hs₁, hw₁⟩ := addShard_sound st now
        (hpeers _ ((grows_fresh server s).ready hready) _) hw
      obtain ⟨server', w', hrest, hgrows, hcovers, hw'⟩ :=
        ih server₁ w₁ (hgrows₁.ready hready) (hgrows₁.hosted.trans hhosted) hw₁
      refine ⟨server', w', by simp [hadd, hrest], hgrows₁.trans hgrows, fun t ht hth => ?_, hw'⟩
      cases List.mem_cons.mp ht with
      | inl heq => exact hgrows.covers t (heq ▸ hs₁)
      | inr ht => exact hcovers t ht hth

theorem handleShardMapUpdate_sound
    (hpeers : ∀ server : KvServer, server.Ready → ∀ shard, (peers server shard).Sound I)
    (hready : server.Ready) (newShards : List Int) (hw : I w) :
    ∃ server' w', handleShardMapUpdate peers st now newShards server w = some (server', w') ∧
      server'.Ready ∧ I w' := by
  obtain ⟨server₁, w₁, hadd, hgrows, hnew, hw₁⟩ :=
    addShards_sound st now hpeers newShards server w hready rfl hw
  have hlock : ∀ k ∈ server.hostedShards.dedup.filter fun k => !contains k newShards,
      server₁.shardLocks k = true := by
    intro k hk
    obtain ⟨d, hd⟩ := hgrows.covers k (hready k (List.mem_dedup.mp (List.mem_filter.mp hk).1))
    exact shardLocks_of_lockedData hd
  obtain ⟨server₂, hdrop, _, hkeep⟩ :=
    dropShards_spec _ ((List.nodup_dedup _).filter _) server₁ hlock
  unfold handleShardMapUpdate
  refine ⟨{ server₂ with hostedShards := newShards }, w₁, by simp [hadd, hdrop], ?_, hw₁⟩
  intro s hs
  show server₂.Covers s
  unfold Covers
  rw [hkeep s (fun hmem => not_mem_dropped hs hmem)]
  by_cases hsh : s ∈ server.hostedShards
  · exact hgrows.covers s (hready s hsh)
  · exact hnew s hs hsh

theorem initShards_sound (hpeers : ∀ server shard, (peers server shard).Sound I) (l : List Int) :
    ∀ (server : KvServer) (w : σ), I w →
      ∃ server' w', initShards peers st now l server w = some (server', w') ∧
        Grows server server' ∧ (∀ s ∈ l, server'.Covers s) ∧ I w' := by
  induction l with
  | nil =>
    intro server w hw
    exact ⟨server, w, rfl, ⟨rfl, fun _ h => h⟩, fun _ hs => absurd hs List.not_mem_nil, hw⟩
  | cons i rest ih =>
    intro server w hw
    obtain ⟨server₁, w₁, hadd, hgrows₁, hi, hw₁⟩ := addShard_sound st now (s := i) (hpeers _ _) hw
    obtain ⟨server', w', hrest, hgrows, hcovers, hw'⟩ :=
      ih { server₁ with nodeInds := update server₁.nodeInds i 0 } w₁ hw₁
    have hgrows : Grows server₁ server' := ⟨hgrows.hosted, hgrows.covers⟩
    refine ⟨server', w', by simp [initShards, hadd, hrest], hgrows₁.trans hgrows, ?_, hw'⟩
    intro s hs
    cases List.mem_cons.mp hs with
    | inl heq => exact hgrows.covers s (heq ▸ hi)
    | inr hs => exact hcovers s hs

theorem makeKvServer_sound (hpeers : ∀ server shard, (peers server shard).Sound I) (name : String)
    (hrange : ∀ s ∈ hosted, 1 ≤ s ∧ s ≤ st.numShards) (newShards : List Int) (hw : I w) :
    ∃ server' w', makeKvServer peers st now name hosted newShards w = some (server', w') ∧
      server'.Ready ∧ I w' := by
  obtain ⟨server₁, w₁, hinit, hgrows, hcovers, hw₁⟩ := initShards_sound st now hpeers (allShards st)
    { nodeName := name, shardData := fun _ => none, shardLocks := fun _ => false,
      hostedShards := hosted, nodeInds := fun _ => 0 } w hw
  have hready : server₁.Ready := by
    intro s hs
    rw [hgrows.hosted] at hs
    exact hcovers s (mem_allShards.mpr (hrange s hs))
  obtain ⟨server', w', hupdate, hready', hw'⟩ :=
    handleShardMapUpdate_sound st now (fun server _ shard => hpeers server shard) hready newShards hw₁
  exact ⟨server', w', by simp [makeKvServer, hinit, hupdate], hready', hw'⟩

end Copy

/-! ## 6. Requests to a server that is ready -/

section Requests

variable {server : KvServer} {st : ShardMapState}

theorem route_total (server : KvServer) (hn : st.numShards ≠ 0) (method key : String) :
    ∃ r, server.route st method key = some r ∧ ∀ s, r = .ok s → s ∈ server.hostedShards := by
  unfold route
  split
  · exact ⟨_, rfl, fun s h => by contradiction⟩
  · unfold getShardForKey
    rw [if_neg hn]
    dsimp only [Option.bind_eq_bind, Option.bind_some]
    split
    · exact ⟨_, rfl, fun s h => by contradiction⟩
    · next hhosted =>
      refine ⟨_, rfl, fun s h => ?_⟩
      rw [← Except.ok.inj h]
      exact contains_iff.mp (by simpa using hhosted)

theorem Ready.get (h : server.Ready) (hn : st.numShards ≠ 0) (now : Int) (key : String) :
    ∃ r, server.get st now key = some r := by
  obtain ⟨r, hroute, hhosted⟩ := route_total server hn "Get" key
  unfold KvServer.get
  simp only [hroute, Option.bind_eq_bind, Option.bind_some]
  cases r with
  | error err => exact ⟨_, rfl⟩
  | ok s =>
    obtain ⟨data, hdata⟩ := h s (hhosted s rfl)
    simp only [hdata, Option.bind_some]
    split
    · exact ⟨_, rfl⟩
    · split <;> exact ⟨_, rfl⟩

theorem Ready.set (h : server.Ready) (hn : st.numShards ≠ 0) (now : Int) (key value : String)
    (ttlMs : Int) :
    ∃ r server', server.set st now key value ttlMs = some (r, server') ∧ server'.Ready := by
  obtain ⟨r, hroute, hhosted⟩ := route_total server hn "Set" key
  unfold KvServer.set
  simp only [hroute, Option.bind_eq_bind, Option.bind_some]
  cases r with
  | error err => exact ⟨_, _, rfl, h⟩
  | ok s =>
    obtain ⟨data, hdata⟩ := h s (hhosted s rfl)
    simp only [hdata, Option.bind_some]
    exact ⟨_, _, rfl, (grows_setData ⟨data, hdata⟩ _).ready h⟩

theorem Ready.delete (h : server.Ready) (hn : st.numShards ≠ 0) (key : String) :
    ∃ r server', server.delete st key = some (r, server') ∧ server'.Ready := by
  obtain ⟨r, hroute, hhosted⟩ := route_total server hn "Delete" key
  unfold KvServer.delete
  simp only [hroute, Option.bind_eq_bind, Option.bind_some]
  cases r with
  | error err => exact ⟨_, _, rfl, h⟩
  | ok s =>
    obtain ⟨data, hdata⟩ := h s (hhosted s rfl)
    simp only [hdata, Option.bind_some]
    exact ⟨_, _, rfl, (grows_setData ⟨data, hdata⟩ _).ready h⟩

theorem Ready.sweep (h : server.Ready) (now : Int) : (server.sweep now).Ready := by
  intro s hs
  obtain ⟨data, hdata⟩ := h s hs
  rw [lockedData_sweep, hdata]
  exact ⟨_, rfl⟩

end Requests

end KvServer

end ShardedKv
