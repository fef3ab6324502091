import DistributedSystems.Library.Runs
import DistributedSystems.ShardedKv.ServerSpec

/-!
# Which shards a server stores

One server, with peers that answer anything as long as the keys belong to the requested shard.  After
every operation the server stores entries only of the shards it hosts, and each under the shard of its
key, provided that no peer had entries of other shards for it when it was made.
-/

namespace ShardedKv.KvServer

open Transition Function

/-! ## 1. Runs of one server -/

/-- The requests that `GetShardContents` answers, as a server's network sees them. -/
abbrev Peers (σ : Type) := KvServer → Int → Network σ (List GetShardValue)

/-- The peers only answer with keys of the requested shard. -/
def OwnKeys {σ : Type} (numShards : Int) (peers : Peers σ) : Prop :=
  ∀ server shard node w values w', (peers server shard).rpc node w = some (.ok values, w') →
    ∀ v ∈ values, getShardForKey v.key numShards = some shard

def ValidMap (numShards : Int) (st : ShardMapState) : Prop :=
  st.isValid = true ∧ st.numShards = numShards

structure Making (σ : Type) where
  peers : Peers σ
  st : ShardMapState
  now : Int
  nodeName : String
  hostedShards : List Int
  newShards : List Int
  w : σ

section Making

variable {σ : Type} (mk : Making σ)

def Making.Admissible (numShards : Int) : Prop :=
  ValidMap numShards mk.st ∧ OwnKeys numShards mk.peers ∧
    mk.hostedShards.Perm (mk.st.shardsForNode mk.nodeName) ∧
    mk.newShards.Perm (mk.st.shardsForNode mk.nodeName)

def Making.make : Option (KvServer × σ) :=
  makeKvServer mk.peers mk.st mk.now mk.nodeName mk.hostedShards mk.newShards mk.w

def Making.Makes (server : KvServer) : Prop := ∃ w', mk.make = some (server, w')

/-- No peer has entries of a shard that the new server does not host. -/
def Making.Quiet : Prop :=
  ∀ s ∈ allShards mk.st, s ∉ mk.hostedShards → ∀ server node w values w',
    (mk.peers server (toInt32 s)).rpc node w = some (.ok values, w') → values = []

end Making

inductive Op where
  | update (st : ShardMapState) (now : Int) (newShards : List Int)
  | set (st : ShardMapState) (now : Int) (key value : String) (ttlMs : Int)
  | delete (st : ShardMapState) (key : String)
  | get (st : ShardMapState) (now : Int) (key : String)
  | getShardContents (now shard : Int)
  | sweep (now : Int)

def OpStep (numShards : Int) (server : KvServer) : Op → KvServer → Prop
  | .update st now newShards, server' =>
    ValidMap numShards st ∧ newShards.Perm (st.shardsForNode server.nodeName) ∧
      ∃ (σ : Type) (peers : Peers σ) (w w' : σ), OwnKeys numShards peers ∧
        server.handleShardMapUpdate peers st now newShards w = some (server', w')
  | .set st now key value ttlMs, server' =>
    ValidMap numShards st ∧ ∃ r, server.set st now key value ttlMs = some (r, server')
  | .delete st key, server' => ValidMap numShards st ∧ ∃ r, server.delete st key = some (r, server')
  | .get st now key, server' =>
    ValidMap numShards st ∧ (∃ r, server.get st now key = some r) ∧ server' = server
  | .getShardContents now shard, server' =>
    (∃ r, server.getShardContents now shard = some r) ∧ server' = server
  | .sweep now, server' => server' = server.sweep now

/-- Entries only of hosted shards, each under the shard of its key. -/
def Owned (numShards : Int) (server : KvServer) : Prop :=
  ∀ s d, server.shardData s = some d →
    (s ∉ server.hostedShards → ∀ key, key ∉ d) ∧
    ∀ key ∈ d, getShardForKey key numShards = some s

/-! ## 2. What copying can leave behind -/

section Copy

variable {σ : Type} {peers : Peers σ} {st : ShardMapState} {now : Int} {w w' : σ}
  {server server' : KvServer} {s : Int}

def Answered (peers : Peers σ) (now s : Int) (d : Shard) : Prop :=
  d = ∅ ∨ ∃ server₁ node w₁ w₂ values,
    (peers server₁ (toInt32 s)).rpc node w₁ = some (.ok values, w₂) ∧ d = storeValues now ∅ values

theorem addShard_some (h : addShard peers st now server s w = some (server', w')) :
    server'.hostedShards = server.hostedShards ∧
      (∀ t ≠ s, server'.shardData t = server.shardData t ∧
        server'.shardLocks t = server.shardLocks t) ∧
      ∃ d, server'.shardData s = some d ∧ Answered peers now s d := by
  unfold addShard at h
  obtain ⟨⟨⟨server₁, err⟩, w₁⟩, hcopy, h⟩ := Option.bind_eq_some_iff.mp h
  cases h
  unfold copyShardData at hcopy
  dsimp only at hcopy
  have hfresh : ((server.setData s ∅).setLock s true).shardData s = some ∅ := by
    simp [setData, setLock]
  have hother : ∀ t ≠ s, ((server.setData s ∅).setLock s true).shardData t = server.shardData t ∧
      ((server.setData s ∅).setLock s true).shardLocks t = server.shardLocks t := by
    intro t ht
    simp [setData, setLock, ht]
  split at hcopy
  · cases hcopy
    exact ⟨rfl, hother, ∅, hfresh, Or.inl rfl⟩
  obtain ⟨first, _, hcopy⟩ := Option.bind_eq_some_iff.mp hcopy
  obtain ⟨⟨response, w₂⟩, hfail, hcopy⟩ := Option.bind_eq_some_iff.mp hcopy
  cases response with
  | error e =>
    cases hcopy
    exact ⟨rfl, hother, ∅, hfresh, Or.inl rfl⟩
  | ok values =>
    obtain ⟨data, hdata, hcopy⟩ := Option.bind_eq_some_iff.mp hcopy
    have hempty : data = ∅ := by
      have hlocked := lockedData_fresh server ∅ (s := s)
      exact Option.some.inj (hdata.symm.trans hlocked)
    cases hcopy
    obtain ⟨node, w₃, hrpc⟩ := failover_ok hfail
    refine ⟨rfl, ?_, storeValues now ∅ values, ?_, Or.inr ⟨_, node, w₃, _, values, hrpc, rfl⟩⟩
    · intro t ht
      rw [← (hother t ht).1, ← (hother t ht).2]
      simp [setData, ht]
    · simp [setData, hempty]

/-- Outside the shards of `l` the data are unchanged; a shard of `l` may hold an answer. -/
def Stored (peers : Peers σ) (now : Int) (l : List Int) (server server' : KvServer) : Prop :=
  server'.hostedShards = server.hostedShards ∧
    ∀ t, server'.shardData t = server.shardData t ∨
      t ∈ l ∧ ∃ d, server'.shardData t = some d ∧ Answered peers now t d

theorem Stored.cons {server₁ : KvServer} {rest : List Int} {w₁ : σ}
    (hadd : addShard peers st now server s w = some (server₁, w₁))
    (h : Stored peers now rest server₁ server') : Stored peers now (s :: rest) server server' := by
  obtain ⟨hh₁, hother, d, hd, hans⟩ := addShard_some hadd
  obtain ⟨hh, hdata⟩ := h
  refine ⟨hh.trans hh₁, ?_⟩
  intro t
  cases hdata t with
  | inr hex => exact Or.inr ⟨List.mem_cons_of_mem s hex.1, hex.2⟩
  | inl hsame =>
    by_cases hts : t = s
    · subst hts
      exact Or.inr ⟨List.mem_cons_self, d, hsame.trans hd, hans⟩
    · exact Or.inl (hsame.trans (hother t hts).1)

theorem addShards_some {hosted newShards : List Int}
    (h : addShards peers st now hosted newShards server w = some (server', w')) :
    Stored peers now newShards server server' := by
  induction newShards generalizing server w with
  | nil =>
    cases h
    exact ⟨rfl, fun t => Or.inl rfl⟩
  | cons s rest ih =>
    rw [addShards] at h
    split at h
    · obtain ⟨hh, hdata⟩ := ih h
      exact ⟨hh, fun t => (hdata t).imp_right (.imp_left (List.mem_cons_of_mem s))⟩
    · obtain ⟨⟨server₁, w₁⟩, hadd, h⟩ := Option.bind_eq_some_iff.mp h
      exact (ih h).cons hadd

theorem initShards_some {l : List Int}
    (h : initShards peers st now l server w = some (server', w')) :
    Stored peers now l server server' := by
  induction l generalizing server w with
  | nil =>
    cases h
    exact ⟨rfl, fun t => Or.inl rfl⟩
  | cons s rest ih =>
    rw [initShards] at h
    obtain ⟨⟨server₁, w₁⟩, hadd, h⟩ := Option.bind_eq_some_iff.mp h
    have hrest : Stored peers now rest
        { server₁ with nodeInds := Function.update server₁.nodeInds s 0 } server' := ih h
    exact Stored.cons hadd hrest

theorem dropShards_some {l : List Int} (h : dropShards l server = some server') (t : Int) :
    t ∈ l ∧ server'.shardData t = some ∅ ∨ t ∉ l ∧ server'.shardData t = server.shardData t := by
  induction l generalizing server with
  | nil =>
    cases h
    exact Or.inr ⟨List.not_mem_nil, rfl⟩
  | cons k rest ih =>
    rw [dropShards] at h
    split at h
    · cases ih h with
      | inl hin => exact Or.inl ⟨List.mem_cons_of_mem k hin.1, hin.2⟩
      | inr hout =>
        by_cases htk : t = k
        · subst htk
          exact Or.inl ⟨List.mem_cons_self, by simp [hout.2, setData, setLock]⟩
        · refine Or.inr ⟨?_, by simp [hout.2, setData, setLock, htk]⟩
          intro hmem
          exact hout.1 ((List.mem_cons.mp hmem).resolve_left htk)
    · cases h

theorem addShards_lockedData {hosted newShards : List Int}
    (h : addShards peers st now hosted newShards server w = some (server', w'))
    (hs : s ∈ hosted) : server'.lockedData s = server.lockedData s := by
  induction newShards generalizing server w with
  | nil =>
    cases h
    rfl
  | cons k rest ih =>
    rw [addShards] at h
    split at h
    · exact ih h
    · rename_i hk
      obtain ⟨⟨server₁, w₁⟩, hadd, h⟩ := Option.bind_eq_some_iff.mp h
      have hne : s ≠ k := by
        rintro rfl
        exact hk (contains_iff.mpr hs)
      obtain ⟨hdata, hlock⟩ := (addShard_some hadd).2.1 s hne
      rw [ih h, lockedData, lockedData, hdata, hlock]

theorem dropShards_lockedData {l : List Int} (h : dropShards l server = some server') (hs : s ∉ l) :
    server'.lockedData s = server.lockedData s := by
  induction l generalizing server with
  | nil =>
    cases h
    rfl
  | cons k rest ih =>
    rw [dropShards] at h
    split at h
    · rw [ih h fun hmem => hs (List.mem_cons_of_mem k hmem)]
      exact lockedData_fresh_ne server ∅ (List.ne_of_not_mem_cons hs) false
    · cases h

theorem update_lockedData {newShards : List Int}
    (h : server.handleShardMapUpdate peers st now newShards w = some (server', w'))
    (hs : s ∈ server.hostedShards) (hs' : s ∈ newShards) :
    s ∈ server'.hostedShards ∧ server'.lockedData s = server.lockedData s := by
  unfold handleShardMapUpdate at h
  obtain ⟨⟨server₁, w₁⟩, hadd, h⟩ := Option.bind_eq_some_iff.mp h
  obtain ⟨server₂, hdrop, h⟩ := Option.bind_eq_some_iff.mp h
  cases h
  have hstays : s ∉ server.hostedShards.dedup.filter fun k => !contains k newShards := by
    simp [contains_iff.mpr hs']
  exact ⟨hs', (dropShards_lockedData hdrop hstays).trans (addShards_lockedData hadd hs)⟩

/-! ## 3. The operations keep ownership -/

variable {numShards : Int}

theorem getShardForKey_bounds {key : String} (h : getShardForKey key numShards = some s) :
    1 ≤ s := by
  unfold getShardForKey at h
  split at h
  · cases h
  · cases h
    have := Int.tmod_nonneg numShards (Int.natCast_nonneg (fnv32 key.toUTF8).toNat)
    omega

/-- What is stored for a shard has keys of that shard: a number that does not fit the request is
truncated to one that no key has. -/
theorem Answered.owned (hmax : numShards ≤ 2 ^ 32) (hpeers : OwnKeys numShards peers)
    (hlo : 1 ≤ s) (hhi : s ≤ numShards) {d : Shard} (h : Answered peers now s d) {key : String}
    (hkey : key ∈ d) : getShardForKey key numShards = some s := by
  rcases h with hd | ⟨server₁, node, w₁, w₂, values, hrpc, hd⟩
  · rw [hd] at hkey
    exact absurd hkey (AList.notMem_empty key)
  · rw [hd] at hkey
    cases mem_storeValues hkey with
    | inl hmem => exact absurd hmem (AList.notMem_empty key)
    | inr hex =>
      obtain ⟨v, hv, hvk⟩ := hex
      have hshard := hpeers _ _ _ _ _ _ hrpc v hv
      have hpos := getShardForKey_bounds hshard
      have hfits : toInt32 s = s := by
        unfold toInt32 at *
        rw [Int.bmod_def] at *
        split at hpos <;> split <;> omega
      rw [← hvk, hshard, hfits]

theorem Owned.update (hmax : numShards ≤ 2 ^ 32) (hpeers : OwnKeys numShards peers)
    (hst : ValidMap numShards st) {newShards : List Int} {name : String}
    (hperm : newShards.Perm (st.shardsForNode name)) (h : Owned numShards server)
    (hupd : server.handleShardMapUpdate peers st now newShards w = some (server', w')) :
    Owned numShards server' := by
  unfold handleShardMapUpdate at hupd
  obtain ⟨⟨server₁, w₁⟩, hadd, hupd⟩ := Option.bind_eq_some_iff.mp hupd
  obtain ⟨server₂, hdrop, hupd⟩ := Option.bind_eq_some_iff.mp hupd
  cases hupd
  intro s d hd
  have hd : server₂.shardData s = some d := hd
  cases dropShards_some hdrop s with
  | inl hdropped =>
    -- the shard was dropped
    obtain rfl : d = ∅ := Option.some.inj (hd.symm.trans hdropped.2)
    exact ⟨fun _ key => AList.notMem_empty key, fun key hkey => absurd hkey (AList.notMem_empty key)⟩
  | inr hkept =>
    rw [hkept.2] at hd
    cases (addShards_some hadd).2 s with
    | inl hsame =>
      obtain ⟨hempty, hkeys⟩ := h s d (hsame ▸ hd)
      refine ⟨?_, hkeys⟩
      intro hs
      apply hempty
      intro hhosted
      apply hkept.1
      apply List.mem_filter.mpr
      refine ⟨List.mem_dedup.mpr hhosted, ?_⟩
      rw [Bool.not_eq_true', ← Bool.not_eq_true, contains_iff]
      exact hs
    | inr hadded =>
      obtain ⟨hs, d', hd', hans⟩ := hadded
      obtain rfl : d = d' := Option.some.inj (hd.symm.trans hd')
      have hnode := mem_shardsForNode.mp (hperm.mem_iff.mp hs)
      obtain ⟨hlo, hhi⟩ := (isValid_nodesForShard hst.1 hnode).1
      rw [hst.2] at hhi
      exact ⟨fun hout => absurd hs hout, fun key hkey => hans.owned hmax hpeers hlo hhi hkey⟩

theorem Making.owned {mk : Making σ} (hmax : numShards ≤ 2 ^ 32) (ha : mk.Admissible numShards)
    (hquiet : mk.Quiet) (hmake : mk.Makes server) : Owned numShards server := by
  obtain ⟨hst, hpeers, _, hperm⟩ := ha
  obtain ⟨w', hmake⟩ := hmake
  unfold Making.make makeKvServer at hmake
  obtain ⟨⟨server₁, w₁⟩, hinit, hmake⟩ := Option.bind_eq_some_iff.mp hmake
  refine Owned.update hmax hpeers hst hperm ?_ hmake
  obtain ⟨hhosted, hdata⟩ := initShards_some hinit
  intro s d hd
  cases hdata s with
  | inl hsame =>
    rw [hsame] at hd
    cases hd
  | inr hadded =>
    obtain ⟨hs, d', hd', hans⟩ := hadded
    obtain rfl : d = d' := Option.some.inj (hd.symm.trans hd')
    have hrange := mem_allShards.mp hs
    rw [hst.2] at hrange
    refine ⟨?_, fun key hkey => hans.owned hmax hpeers hrange.1 hrange.2 hkey⟩
    -- a shard that is not hosted was answered with nothing
    intro hout key hkey
    rw [hhosted] at hout
    have hempty : d = ∅ := by
      rcases hans with hd | ⟨server₁, node, w₁, w₂, values, hrpc, hd⟩
      · exact hd
      · rw [hd, hquiet s hs hout _ _ _ _ _ hrpc]
        rfl
    rw [hempty] at hkey
    exact AList.notMem_empty key hkey

end Copy

section Handlers

variable {numShards : Int} {server server' : KvServer} {st : ShardMapState}

variable {s : Int}

theorem Owned.setData (h : Owned numShards server) (hs : s ∈ server.hostedShards) {old new : Shard}
    (hold : server.shardData s = some old)
    (hnew : ∀ key ∈ new, key ∈ old ∨ getShardForKey key numShards = some s) :
    Owned numShards (server.setData s new) := by
  intro t d hd
  have hd : Function.update server.shardData s (some new) t = some d := hd
  by_cases hts : t = s
  · subst hts
    rw [update_self] at hd
    obtain rfl : new = d := Option.some.inj hd
    refine ⟨fun hout => absurd hs hout, ?_⟩
    intro key hkey
    cases hnew key hkey with
    | inl hmem => exact (h t old hold).2 key hmem
    | inr hshard => exact hshard
  · rw [update_of_ne hts] at hd
    exact h t d hd

variable {key : String}

theorem route_ok {method : String} (h : server.route st method key = some (.ok s)) :
    getShardForKey key st.numShards = some s ∧ s ∈ server.hostedShards := by
  unfold route at h
  split at h
  · simp at h
  obtain ⟨s', hs', h⟩ := Option.bind_eq_some_iff.mp h
  split at h
  · simp at h
  · rename_i hc
    cases h
    simp only [Bool.not_eq_true', Bool.not_eq_false] at hc
    exact ⟨hs', contains_iff.mp hc⟩

theorem lockedData_some {data : Shard} (h : server.lockedData s = some data) :
    server.shardData s = some data := by
  unfold lockedData at h
  split at h
  · exact h
  · simp at h

theorem set_cases {now ttlMs : Int} {value : String} {r : Except KvError Unit}
    (h : server.set st now key value ttlMs = some (r, server')) :
    (∃ e, r = .error e) ∧ server' = server ∨
      ∃ s data, getShardForKey key st.numShards = some s ∧ s ∈ server.hostedShards ∧
        server.lockedData s = some data ∧
        server' = server.setData s (data.insert key ⟨value, now + milliseconds ttlMs⟩) := by
  unfold KvServer.set at h
  obtain ⟨routed, hroute, h⟩ := Option.bind_eq_some_iff.mp h
  cases routed with
  | error e =>
    cases h
    exact Or.inl ⟨⟨e, rfl⟩, rfl⟩
  | ok s =>
    obtain ⟨data, hdata, h⟩ := Option.bind_eq_some_iff.mp h
    cases h
    obtain ⟨hshard, hs⟩ := route_ok hroute
    exact Or.inr ⟨s, data, hshard, hs, hdata, rfl⟩

theorem delete_cases {r : Except KvError Unit} (h : server.delete st key = some (r, server')) :
    server' = server ∨ ∃ s data, s ∈ server.hostedShards ∧ server.lockedData s = some data ∧
      server' = server.setData s (data.erase key) := by
  unfold KvServer.delete at h
  obtain ⟨routed, hroute, h⟩ := Option.bind_eq_some_iff.mp h
  cases routed with
  | error e =>
    cases h
    exact Or.inl rfl
  | ok s =>
    obtain ⟨data, hdata, h⟩ := Option.bind_eq_some_iff.mp h
    cases h
    exact Or.inr ⟨s, data, (route_ok hroute).2, hdata, rfl⟩

theorem Owned.set (hst : ValidMap numShards st) (h : Owned numShards server) {now ttlMs : Int}
    {value : String} {r : Except KvError Unit}
    (hset : server.set st now key value ttlMs = some (r, server')) : Owned numShards server' := by
  rcases set_cases hset with ⟨_, rfl⟩ | ⟨s, data, hshard, hs, hdata, rfl⟩
  · exact h
  · refine h.setData hs (lockedData_some hdata) ?_
    intro k hk
    cases (AList.mem_insert _).mp hk with
    | inl heq => exact Or.inr (heq ▸ hst.2 ▸ hshard)
    | inr hmem => exact Or.inl hmem

theorem Owned.delete (h : Owned numShards server) {r : Except KvError Unit}
    (hdel : server.delete st key = some (r, server')) : Owned numShards server' := by
  rcases delete_cases hdel with rfl | ⟨s, data, hs, hdata, rfl⟩
  · exact h
  · exact h.setData hs (lockedData_some hdata) fun k hk => Or.inl (AList.mem_erase.mp hk).2

theorem Owned.sweep (h : Owned numShards server) (now : Int) :
    Owned numShards (server.sweep now) := by
  intro s d hd
  have hd : (if server.shardLocks s then (server.shardData s).map (sweepData now)
      else server.shardData s) = some d := hd
  split at hd
  · obtain ⟨old, hold, hsweep⟩ := Option.map_eq_some_iff.mp hd
    have hsub : ∀ key ∈ d, key ∈ old := by
      intro key hkey
      obtain ⟨v, hv⟩ := Option.isSome_iff_exists.mp (AList.lookup_isSome.mpr hkey)
      rw [← hsweep, lookup_sweepData] at hv
      exact AList.lookup_isSome.mp (by rw [(Option.filter_eq_some_iff.mp hv).1]; rfl)
    obtain ⟨hempty, hkeys⟩ := h s old hold
    exact ⟨fun hout key hkey => hempty hout key (hsub key hkey),
      fun key hkey => hkeys key (hsub key hkey)⟩
  · exact h s d hd

theorem Owned.step (hmax : numShards ≤ 2 ^ 32) (h : Owned numShards server) {op : Op}
    (hstep : OpStep numShards server op server') : Owned numShards server' := by
  cases op with
  | update st now newShards =>
    obtain ⟨hst, hperm, σ, peers, w, w', hpeers, hupd⟩ := hstep
    exact h.update hmax hpeers hst hperm hupd
  | set st now key value ttlMs =>
    obtain ⟨hst, r, hset⟩ := hstep
    exact h.set hst hset
  | delete st key =>
    obtain ⟨_, r, hdel⟩ := hstep
    exact h.delete hdel
  | get st now key =>
    rw [hstep.2.2]
    exact h
  | getShardContents now shard =>
    rw [hstep.2]
    exact h
  | sweep now =>
    rw [show server' = server.sweep now from hstep]
    exact h.sweep now

end Handlers

/-! ## 4. Whole runs -/

/-- A server that was made while no peer had entries of other shards for it. -/
def QuietlyMade (numShards : Int) (server : KvServer) : Prop :=
  ∃ (σ : Type) (making : Making σ), making.Admissible numShards ∧ making.Quiet ∧ making.Makes server

/-- Shard ownership, for servers that are made while no peer has entries of other shards. -/
theorem shard_ownership {numShards : Int} (hmax : numShards ≤ 2 ^ 32)
    {past : List (KvServer × Op)} {server : KvServer}
    (hr : Run (QuietlyMade numShards) (OpStep numShards) past server) :
    Owned numShards server := by
  apply Run.invariant (I := Owned numShards) _ _ hr
  · intro server ⟨σ, making, ha, hquiet, hmake⟩
    exact making.owned hmax ha hquiet hmake
  · intro server op server' h hstep
    exact h.step hmax hstep

/-- Peers that have entries of the shard `s` only. -/
def peersWith (s : Int) (values : List GetShardValue) : Peers Unit := fun _ shard =>
  { getClient := fun _ w => some (none, w)
    rpc := fun _ w => some (.ok (if shard = s then values else []), w) }

theorem ownKeys_peersWith {numShards s : Int} {values : List GetShardValue}
    (h : ∀ v ∈ values, getShardForKey v.key numShards = some s) :
    OwnKeys numShards (peersWith s values) := by
  intro server shard node w vs w' hrpc v hv
  have hvs : vs = if shard = s then values else [] := by
    cases hrpc
    rfl
  rw [hvs] at hv
  split at hv
  case isTrue hs => rw [hs, h v hv]
  case isFalse => exact absurd hv List.not_mem_nil

def joining (st : ShardMapState) (nodeName : String) (values : List GetShardValue) :
    Making Unit where
  peers := peersWith 1 values
  st := st
  now := 0
  nodeName := nodeName
  hostedShards := st.shardsForNode nodeName
  newShards := st.shardsForNode nodeName
  w := ()

def twoShards (second : List String) : ShardMapState where
  nodes := ["a", "c"]
  shardsToNodes := [⟨1, ["a"]⟩, ⟨2, second⟩].toAList
  numShards := 2

/-- The server of node `a`, made while another node hosts shard 2. -/
def serverA : KvServer :=
  ((joining (twoShards ["c"]) "a" []).make.get (by decide)).1

/-- Shard 2 is moved to it, with an entry. -/
def updatedA : KvServer :=
  ((serverA.handleShardMapUpdate (peersWith 2 [⟨"j", "u", 1000⟩]) (twoShards ["c", "a"]) 0 [1, 2]
    ()).get (by decide)).1

theorem shard_ownership_written : ∃ past server, Run (QuietlyMade 2) (OpStep 2) past server ∧
    past.length = 2 ∧ (server.shardData 1).map AList.keys = some ["k"] ∧
    (server.shardData 2).map AList.keys = some ["j"] ∧ Owned 2 server := by
  have hmade : QuietlyMade 2 serverA := by
    refine ⟨Unit, joining (twoShards ["c"]) "a" [], ⟨⟨by decide, rfl⟩,
      ownKeys_peersWith fun v hv => absurd hv List.not_mem_nil, List.Perm.refl _, List.Perm.refl _⟩,
      fun s _ _ server node w values w' hrpc => ?_, (), (Option.some_get (by decide)).symm⟩
    cases hrpc
    exact ite_self _
  have hupdate : OpStep 2 serverA (.update (twoShards ["c", "a"]) 0 [1, 2]) updatedA :=
    ⟨⟨by decide, rfl⟩, by decide, Unit, peersWith 2 [⟨"j", "u", 1000⟩], (), (),
      ownKeys_peersWith (by decide +kernel), (Option.some_get (by decide)).symm⟩
  have hset : OpStep 2 updatedA (.set (twoShards ["c", "a"]) 0 "k" "v" 1000)
      ((updatedA.set (twoShards ["c", "a"]) 0 "k" "v" 1000).get (by decide +kernel)).2 :=
    ⟨⟨by decide, rfl⟩, _, (Option.some_get (by decide +kernel)).symm⟩
  have hr := Run.next (Run.next (Run.start hmade) hupdate) hset
  exact ⟨_, _, hr, rfl, by decide +kernel, by decide +kernel, shard_ownership (by decide) hr⟩

def oneShard : ShardMapState where
  nodes := ["a"]
  shardsToNodes := AList.singleton 1 ["a"]
  numShards := 1

/-- The server of node `b`, made while a peer holds an entry of the shard that `b` does not host. -/
def serverB : KvServer :=
  ((joining oneShard "b" [⟨"k", "v", 1000⟩]).make.get (by decide)).1

/-- It copies the entry and keeps it. -/
theorem foreign_entry_kept : (joining oneShard "b" [⟨"k", "v", 1000⟩]).Admissible 1 ∧
    (joining oneShard "b" [⟨"k", "v", 1000⟩]).Makes serverB ∧ serverB.hostedShards = [] ∧
    (serverB.shardData 1).map AList.keys = some ["k"] ∧ ¬ Owned 1 serverB := by
  have hkeys : (serverB.shardData 1).map AList.keys = some ["k"] := by decide
  refine ⟨⟨⟨show oneShard.isValid = true by decide, rfl⟩, ownKeys_peersWith (by decide +kernel),
    List.Perm.refl _, List.Perm.refl _⟩, ⟨(), (Option.some_get (by decide)).symm⟩, by decide, hkeys,
    ?_⟩
  intro howned
  obtain ⟨d, hd, hk⟩ := Option.map_eq_some_iff.mp hkeys
  apply (howned 1 d hd).1 (by decide) "k"
  rw [AList.mem_keys, hk]
  decide

end ShardedKv.KvServer
