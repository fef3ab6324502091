import DistributedSystems.Library.Runs
import DistributedSystems.ShardedKv.Client
import DistributedSystems.ShardedKv.ServerSpec

/-!
# The cluster refines a map with expiry

The abstract state gives each key the entry of its last write.  On every server that hosts the shard
of a key, the stored entry agrees with it as far as both are still alive.
-/

namespace ShardedKv

open Function

/-! ## 1. Live entries -/

def live (now : Int) (e : Option ValueWithTtl) : Option ValueWithTtl :=
  e.filter fun v => now ≤ v.timeExpire

def answerOf : Option ValueWithTtl → String × Bool
  | none => ("", false)
  | some v => (v.value, true)

/-- Expiry at a whole millisecond, within the reach of a duration. -/
def Whole (now : Int) (v : ValueWithTtl) : Prop :=
  1000000 ∣ v.timeExpire ∧ v.timeExpire - now ≤ 2 ^ 63 - 1

variable {now : Int}

theorem live_some {v : ValueWithTtl} (h : now ≤ v.timeExpire) : live now (some v) = some v := by
  simp [live, Option.filter, h]

theorem live_expired {v : ValueWithTtl} (h : v.timeExpire < now) : live now (some v) = none := by
  simp [live, Option.filter, h]

theorem live_live {later : Int} (h : now ≤ later) (e : Option ValueWithTtl) :
    live later (live now e) = live later e := by
  cases e with
  | none => rfl
  | some v =>
    by_cases hv : now ≤ v.timeExpire
    · rw [live_some hv]
    · rw [live_expired (by omega), live_expired (by omega)]
      rfl

theorem milliseconds_eq {ms : Int} (hlo : -2 ^ 63 ≤ ms * 1000000) (hhi : ms * 1000000 < 2 ^ 63) :
    milliseconds ms = ms * 1000000 := by
  unfold milliseconds
  apply Int.bmod_eq_of_le_mul_two <;> omega

theorem toMilliseconds_nonneg {d : Int} (h : 0 ≤ d) : toMilliseconds d = d / 1000000 := by
  unfold toMilliseconds
  exact Int.tdiv_eq_ediv_of_nonneg h

theorem toMilliseconds_neg {d : Int} (h : d < 0) : toMilliseconds d = -(-d / 1000000) := by
  unfold toMilliseconds
  rw [← Int.tdiv_eq_ediv_of_nonneg (by omega : 0 ≤ -d), Int.neg_tdiv, Int.neg_neg]

section Transfer

variable {now : Int} {v : ValueWithTtl}

theorem transferred_live (hnow : 1000000 ∣ now) (hv : Whole now v) (h : now ≤ v.timeExpire) :
    KvServer.transferred now now v = v := by
  obtain ⟨hdvd, hmax⟩ := hv
  have hsub : timeSub v.timeExpire now = v.timeExpire - now := by
    unfold timeSub
    omega
  unfold KvServer.transferred
  rw [hsub, toMilliseconds_nonneg (by omega), milliseconds_eq (by omega) (by omega)]
  have hexp : now + (v.timeExpire - now) / 1000000 * 1000000 = v.timeExpire := by omega
  rw [hexp]

theorem transferred_expired (hnow : 1000000 ∣ now) (hv : Whole now v) (h : v.timeExpire < now) :
    1000000 ∣ (KvServer.transferred now now v).timeExpire ∧
      (KvServer.transferred now now v).timeExpire < now := by
  obtain ⟨hdvd, hmax⟩ := hv
  have hsub : timeSub v.timeExpire now = max (-2 ^ 63) (v.timeExpire - now) := by
    unfold timeSub
    omega
  show 1000000 ∣ now + milliseconds (toMilliseconds (timeSub v.timeExpire now)) ∧
    now + milliseconds (toMilliseconds (timeSub v.timeExpire now)) < now
  rw [hsub, toMilliseconds_neg (by omega), milliseconds_eq (by omega) (by omega)]
  omega

end Transfer

/-! ## 2. Servers that agree with the abstract map -/

structure Holds (now numShards : Int) (m : String → Option ValueWithTtl) (s : Int) (data : Shard) :
    Prop where
  agree : ∀ key, getShardForKey key numShards = some s →
    live now (data.lookup key) = live now (m key)
  whole : ∀ key v, data.lookup key = some v → Whole now v

/-- Every hosted shard has its lock, and data that agree with the map. -/
structure Serves (now numShards : Int) (m : String → Option ValueWithTtl) (server : KvServer) :
    Prop where
  nodup : server.hostedShards.Nodup
  range : ∀ s ∈ server.hostedShards, 1 ≤ s ∧ s ≤ numShards
  data : ∀ s ∈ server.hostedShards, ∃ data, server.lockedData s = some data ∧
    Holds now numShards m s data

section Agree

variable {now numShards : Int} {m : String → Option ValueWithTtl} {s : Int} {data : Shard}

theorem Holds.empty (now numShards s : Int) : Holds now numShards (fun _ => none) s ∅ where
  agree key _ := by rw [AList.lookup_empty]
  whole key v hv := by simp [AList.lookup_empty] at hv

theorem Holds.later {now' : Int} (h : Holds now numShards m s data) (hle : now ≤ now') :
    Holds now' numShards m s data where
  agree key hkey := by
    rw [← live_live hle, h.agree key hkey, live_live hle]
  whole key v hv := by
    have := h.whole key v hv
    unfold Whole at *
    omega

theorem Holds.congr {m' : String → Option ValueWithTtl} (h : Holds now numShards m s data)
    (hm : ∀ key, getShardForKey key numShards = some s → m' key = m key) :
    Holds now numShards m' s data where
  agree key hkey := by rw [hm key hkey, h.agree key hkey]
  whole := h.whole

theorem Holds.insert (h : Holds now numShards m s data) (key : String) {v : ValueWithTtl}
    (hv : Whole now v) :
    Holds now numShards (update m key (some v)) s (data.insert key v) where
  agree k hk := by
    by_cases hkey : k = key
    · subst hkey
      rw [AList.lookup_insert, update_self]
    · rw [AList.lookup_insert_ne hkey, update_of_ne hkey, h.agree k hk]
  whole k u hu := by
    by_cases hkey : k = key
    · subst hkey
      rw [AList.lookup_insert] at hu
      exact Option.some.inj hu ▸ hv
    · rw [AList.lookup_insert_ne hkey] at hu
      exact h.whole k u hu

theorem Holds.erase (h : Holds now numShards m s data) (key : String) :
    Holds now numShards (update m key none) s (data.erase key) where
  agree k hk := by
    by_cases hkey : k = key
    · subst hkey
      rw [AList.lookup_erase, update_self]
    · rw [AList.lookup_erase_ne hkey, update_of_ne hkey, h.agree k hk]
  whole k u hu := by
    by_cases hkey : k = key
    · subst hkey
      rw [AList.lookup_erase] at hu
      exact absurd hu (by simp)
    · rw [AList.lookup_erase_ne hkey] at hu
      exact h.whole k u hu

theorem Holds.sweep (h : Holds now numShards m s data) :
    Holds now numShards m s (KvServer.sweepData now data) where
  agree key hkey := by
    rw [← h.agree key hkey, KvServer.lookup_sweepData]
    cases data.lookup key with
    | none => rfl
    | some v =>
      by_cases hexp : v.timeExpire < now <;> simp [live, Option.filter, hexp]
  whole key v hv := by
    rw [KvServer.lookup_sweepData] at hv
    exact h.whole key v (Option.filter_eq_some_iff.mp hv).1

theorem Holds.copy (hnow : 1000000 ∣ now) (h : Holds now numShards m s data) :
    Holds now numShards m s (KvServer.storeValues now ∅ (KvServer.contents now data)) := by
  have hlookup : ∀ key, (KvServer.storeValues now ∅ (KvServer.contents now data)).lookup key =
      (data.lookup key).map (KvServer.transferred now now) := by
    intro key
    rw [KvServer.lookup_storeValues_contents, AList.lookup_empty, Option.or_none]
  constructor
  · intro key hkey
    rw [hlookup, ← h.agree key hkey]
    cases hl : data.lookup key with
    | none => rfl
    | some v =>
      have hv := h.whole key v hl
      by_cases hexp : now ≤ v.timeExpire
      · rw [Option.map_some, transferred_live hnow hv hexp]
      · have hexp : v.timeExpire < now := by omega
        rw [Option.map_some, live_expired hexp, live_expired (transferred_expired hnow hv hexp).2]
  · intro key u hu
    rw [hlookup] at hu
    obtain ⟨v, hl, heq⟩ := Option.map_eq_some_iff.mp hu
    have hv := h.whole key v hl
    subst heq
    by_cases hexp : now ≤ v.timeExpire
    · rwa [transferred_live hnow hv hexp]
    · obtain ⟨hdvd, hlt⟩ := transferred_expired hnow hv (by omega)
      exact ⟨hdvd, by omega⟩

variable {server : KvServer}

theorem Serves.ready (h : Serves now numShards m server) : server.Ready := by
  intro s hs
  obtain ⟨data, hdata, _⟩ := h.data s hs
  exact ⟨data, hdata⟩

theorem Serves.later {now' : Int} (h : Serves now numShards m server) (hle : now ≤ now') :
    Serves now' numShards m server where
  nodup := h.nodup
  range := h.range
  data s hs := by
    obtain ⟨data, hdata, hholds⟩ := h.data s hs
    exact ⟨data, hdata, hholds.later hle⟩

theorem Serves.sweep (h : Serves now numShards m server) :
    Serves now numShards m (server.sweep now) where
  nodup := h.nodup
  range := h.range
  data s hs := by
    obtain ⟨data, hdata, hholds⟩ := h.data s hs
    exact ⟨_, by rw [KvServer.lockedData_sweep, hdata]; rfl, hholds.sweep⟩

theorem Serves.elsewhere (h : Serves now numShards m server) {key : String}
    (hshard : getShardForKey key numShards = some s) (hs : s ∉ server.hostedShards)
    (e : Option ValueWithTtl) : Serves now numShards (update m key e) server where
  nodup := h.nodup
  range := h.range
  data t ht := by
    obtain ⟨data, hdata, hholds⟩ := h.data t ht
    refine ⟨data, hdata, hholds.congr ?_⟩
    intro k hk
    apply update_of_ne
    intro heq
    rw [heq, hshard] at hk
    exact hs (Option.some.inj hk ▸ ht)

theorem Serves.write (h : Serves now numShards m server) {key : String}
    (hshard : getShardForKey key numShards = some s) {e : Option ValueWithTtl} {old new : Shard}
    (hold : server.lockedData s = some old)
    (hnew : Holds now numShards (update m key e) s new) :
    Serves now numShards (update m key e) (server.setData s new) where
  nodup := h.nodup
  range := h.range
  data t ht := by
    by_cases hts : t = s
    · subst hts
      exact ⟨new, KvServer.lockedData_setData_self _ _ hold, hnew⟩
    · obtain ⟨data, hdata, hholds⟩ := h.data t ht
      refine ⟨data, (KvServer.lockedData_setData_ne _ _ hts).trans hdata, hholds.congr ?_⟩
      intro k hk
      apply update_of_ne
      intro heq
      rw [heq, hshard] at hk
      exact hts (Option.some.inj hk).symm

/-! ## 3. Handlers -/

variable {st : ShardMapState} {key : String}

theorem route_hosted (hkey : key ≠ "") (hshard : getShardForKey key st.numShards = some s)
    (hs : s ∈ server.hostedShards) (method : String) :
    server.route st method key = some (.ok s) := by
  unfold KvServer.route
  rw [if_neg hkey, hshard]
  simp [contains_iff.mpr hs]

theorem get_answerOf (hkey : key ≠ "") (hshard : getShardForKey key st.numShards = some s)
    (hs : s ∈ server.hostedShards) {data : Shard} (hdata : server.lockedData s = some data) :
    server.get st now key = some (.ok (answerOf (live now (data.lookup key)))) := by
  unfold KvServer.get
  rw [route_hosted hkey hshard hs]
  simp only [Option.bind_eq_bind, Option.bind_some, hdata]
  cases data.lookup key with
  | none => rfl
  | some v =>
    by_cases hexp : v.timeExpire < now
    · rw [live_expired hexp]
      simp [hexp, answerOf]
    · rw [live_some (by omega)]
      simp [hexp, answerOf]

theorem Serves.get (h : Serves now st.numShards m server) (hkey : key ≠ "")
    (hshard : getShardForKey key st.numShards = some s) (hs : s ∈ server.hostedShards) :
    server.get st now key = some (.ok (answerOf (live now (m key)))) := by
  obtain ⟨data, hdata, hholds⟩ := h.data s hs
  rw [get_answerOf hkey hshard hs hdata, hholds.agree key hshard]

theorem Serves.set (h : Serves now st.numShards m server) (hkey : key ≠ "")
    (hshard : getShardForKey key st.numShards = some s) (hs : s ∈ server.hostedShards)
    {value : String} {ttlMs : Int} (hv : Whole now ⟨value, now + milliseconds ttlMs⟩) :
    ∃ server', server.set st now key value ttlMs = some (.ok (), server') ∧
      server'.nodeName = server.nodeName ∧ server'.hostedShards = server.hostedShards ∧
      Serves now st.numShards (update m key (some ⟨value, now + milliseconds ttlMs⟩)) server' := by
  obtain ⟨data, hdata, hholds⟩ := h.data s hs
  unfold KvServer.set
  rw [route_hosted hkey hshard hs]
  simp only [Option.bind_eq_bind, Option.bind_some, hdata]
  exact ⟨_, rfl, rfl, rfl, h.write hshard hdata (hholds.insert key hv)⟩

theorem Serves.delete (h : Serves now st.numShards m server) (hkey : key ≠ "")
    (hshard : getShardForKey key st.numShards = some s) (hs : s ∈ server.hostedShards) :
    ∃ server', server.delete st key = some (.ok (), server') ∧
      server'.nodeName = server.nodeName ∧ server'.hostedShards = server.hostedShards ∧
      Serves now st.numShards (update m key none) server' := by
  obtain ⟨data, hdata, hholds⟩ := h.data s hs
  unfold KvServer.delete
  rw [route_hosted hkey hshard hs]
  simp only [Option.bind_eq_bind, Option.bind_some, hdata]
  exact ⟨_, rfl, rfl, rfl, h.write hshard hdata (hholds.erase key)⟩

theorem toInt32_eq {i : Int} (hlo : 1 ≤ i) (hhi : i ≤ 2 ^ 31 - 1) : toInt32 i = i := by
  unfold toInt32
  apply Int.bmod_eq_of_le_mul_two <;> omega

theorem Serves.getShardContents (h : Serves now numShards m server)
    (hmax : numShards ≤ 2 ^ 31 - 1) (hs : s ∈ server.hostedShards) :
    ∃ data, server.getShardContents now (toInt32 s) = some (.ok (KvServer.contents now data)) ∧
      Holds now numShards m s data := by
  obtain ⟨data, hdata, hholds⟩ := h.data s hs
  obtain ⟨hlo, hhi⟩ := h.range s hs
  refine ⟨data, ?_, hholds⟩
  have hfilter : server.hostedShards.filter (toInt32 · = s) = [s] := by
    have hcongr : server.hostedShards.filter (toInt32 · = s) = server.hostedShards.filter (· = s) := by
      apply List.filter_congr
      intro t ht
      have hrange := h.range t ht
      rw [toInt32_eq hrange.1 (by omega)]
    rw [hcongr, List.filter_eq, List.count_eq_one_of_mem h.nodup hs]
    rfl
  unfold KvServer.getShardContents
  rw [toInt32_eq hlo (by omega), contains_iff.mpr hs, hfilter]
  simp [hdata]

theorem getShardContents_notHosted (hs : s ∉ server.hostedShards) :
    server.getShardContents now s =
      some (.error (.notHosted s server.nodeName server.hostedShards)) := by
  have hc : contains s server.hostedShards = false := by
    rw [← Bool.not_eq_true, contains_iff]
    exact hs
  simp [KvServer.getShardContents, hc]

end Agree

end ShardedKv
