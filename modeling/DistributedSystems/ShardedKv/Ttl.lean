import DistributedSystems.ShardedKv.Refinement
import DistributedSystems.ShardedKv.ShardOwnership

/-!
# Time to live

An entry expires at the time of its `Set` plus a 64-bit duration, which wraps for a large `TtlMs`.
A transfer sends the remaining time in milliseconds, truncated towards zero.
-/

namespace ShardedKv.KvServer

open Transition

/-! ## 1. From a `Set` to a `Get` -/

/-- The operation neither sets nor deletes the key, leaves its shard on the server, and is not a
sweep after the time of the `Get`. -/
def Op.Quiet (key : String) (shard later : Int) : Op → Prop
  | .update _ _ newShards => shard ∈ newShards
  | .set _ _ k _ _ => k ≠ key
  | .delete _ k => k ≠ key
  | .sweep now => now ≤ later
  | .get _ _ _ => True
  | .getShardContents _ _ => True

/-- The server has the shard, and at `later` the entry of the key counts as `e`. -/
def Kept (key : String) (shard later : Int) (e : ValueWithTtl) (server : KvServer) : Prop :=
  shard ∈ server.hostedShards ∧ ∃ data, server.lockedData shard = some data ∧
    live later (data.lookup key) = live later (some e)

variable {key : String} {shard later : Int} {e : ValueWithTtl} {server server' : KvServer}

theorem Kept.setData (h : Kept key shard later e server) {s : Int} {old new : Shard}
    (hold : server.lockedData s = some old) (hnew : new.lookup key = old.lookup key) :
    Kept key shard later e (server.setData s new) := by
  obtain ⟨hs, data, hdata, hlive⟩ := h
  by_cases hss : shard = s
  · subst hss
    obtain rfl : data = old := Option.some.inj (hdata.symm.trans hold)
    refine ⟨hs, new, lockedData_setData_self server new hold, ?_⟩
    rw [hnew, hlive]
  · exact ⟨hs, data, (lockedData_setData_ne server new hss).trans hdata, hlive⟩

theorem Kept.sweep (h : Kept key shard later e server) {now : Int} (hnow : now ≤ later) :
    Kept key shard later e (server.sweep now) := by
  obtain ⟨hs, data, hdata, hlive⟩ := h
  refine ⟨hs, sweepData now data, by rw [lockedData_sweep, hdata]; rfl, ?_⟩
  have hswept : (sweepData now data).lookup key = live now (data.lookup key) := by
    simp only [lookup_sweepData, live, ← decide_not, Int.not_lt]
  rw [hswept, live_live hnow, hlive]

theorem Kept.step (h : Kept key shard later e server) {numShards : Int} {op : Op}
    (hquiet : op.Quiet key shard later) (hstep : OpStep numShards server op server') :
    Kept key shard later e server' := by
  cases op with
  | update st now newShards =>
    obtain ⟨_, _, σ, peers, w, w', _, hupd⟩ := hstep
    obtain ⟨hs, data, hdata, hlive⟩ := h
    obtain ⟨hs', hsame⟩ := update_lockedData hupd hs hquiet
    exact ⟨hs', data, hsame.trans hdata, hlive⟩
  | set st now k value ttlMs =>
    obtain ⟨_, r, hset⟩ := hstep
    rcases set_cases hset with ⟨_, rfl⟩ | ⟨s, old, _, _, hold, rfl⟩
    · exact h
    · exact h.setData hold (AList.lookup_insert_ne (Ne.symm hquiet))
  | delete st k =>
    obtain ⟨_, r, hdel⟩ := hstep
    rcases delete_cases hdel with rfl | ⟨s, old, _, hold, rfl⟩
    · exact h
    · exact h.setData hold (AList.lookup_erase_ne (Ne.symm hquiet))
  | get st now k =>
    rw [hstep.2.2]
    exact h
  | getShardContents now s =>
    rw [hstep.2]
    exact h
  | sweep now =>
    rw [show server' = server.sweep now from hstep]
    exact h.sweep hquiet

theorem Kept.get (h : Kept key shard later e server) {st : ShardMapState} (hkey : key ≠ "")
    (hshard : getShardForKey key st.numShards = some shard) :
    server.get st later key = some (.ok (answerOf (live later (some e)))) := by
  obtain ⟨hs, data, hdata, hlive⟩ := h
  rw [get_answerOf hkey hshard hs hdata, hlive]

/-! ## 2. Transfers -/

/-- The receiver keeps an entry no longer than the transfer took, except one that had already
expired when it was sent, by a time that is not a whole number of milliseconds or that no duration
holds. -/
theorem transferred_le_iff (now sent : Int) (v : ValueWithTtl) :
    (transferred now sent v).timeExpire - v.timeExpire ≤ now - sent ↔
      sent ≤ v.timeExpire ∨ 1000000 ∣ v.timeExpire - sent ∧ -2 ^ 63 ≤ v.timeExpire - sent := by
  show now + milliseconds (toMilliseconds (timeSub v.timeExpire sent)) - v.timeExpire ≤
    now - sent ↔ _
  by_cases hlive : sent ≤ v.timeExpire
  · have hsub : timeSub v.timeExpire sent = min (2 ^ 63 - 1) (v.timeExpire - sent) := by
      unfold timeSub
      omega
    rw [hsub, toMilliseconds_nonneg (by omega), milliseconds_eq (by omega) (by omega)]
    omega
  · have hsub : timeSub v.timeExpire sent = max (-2 ^ 63) (v.timeExpire - sent) := by
      unfold timeSub
      omega
    rw [hsub, toMilliseconds_neg (by omega), milliseconds_eq (by omega) (by omega)]
    omega

/-! ## 3. The time to live -/

/-- What a `Get` at `now` is to find of a value that expires at `expiry`. -/
def found (value : String) (expiry now : Int) : String × Bool :=
  if now ≤ expiry then (value, true) else ("", false)

theorem answerOf_live_entry (now : Int) (v : ValueWithTtl) :
    answerOf (live now (some v)) = found v.value v.timeExpire now := by
  unfold found
  by_cases hv : now ≤ v.timeExpire
  · rw [live_some hv, if_pos hv]
    rfl
  · rw [live_expired (by omega), if_neg hv]
    rfl

/-- **Times to live.**  After a `Set` at `t`, every `Get` after operations that leave the key alone
finds the value up to `t` plus `TtlMs` milliseconds and not later, exactly when this number of
nanoseconds fits a duration.  An entry that was transferred expires later by no more than the
transfer took, exactly when it had not expired, or by a whole number of milliseconds that fits a
duration. -/
theorem ttl_exact_iff {st : ShardMapState} {server server₁ : KvServer} {t ttlMs shard : Int}
    {key value : String} (hshard : getShardForKey key st.numShards = some shard) (hkey : key ≠ "")
    (hset : server.set st t key value ttlMs = some (.ok (), server₁)) (httl : 0 ≤ ttlMs) :
    ((∀ past server₂ later st₂, Run (· = server₁) (OpStep st.numShards) past server₂ →
        (∀ x ∈ past, x.2.Quiet key shard later) → st₂.numShards = st.numShards →
        server₂.get st₂ later key = some (.ok (found value (t + ttlMs * 1000000) later))) ↔
      ttlMs * 1000000 < 2 ^ 63) ∧
    ∀ (data : Shard) (k : String) (v : ValueWithTtl) (sent now : Int), data.lookup k = some v →
      sent ≤ now → ∃ v', (storeValues now ∅ (contents sent data)).lookup k = some v' ∧
        v'.value = v.value ∧
        (v'.timeExpire - v.timeExpire ≤ now - sent ↔ sent ≤ v.timeExpire ∨
          1000000 ∣ v.timeExpire - sent ∧ -2 ^ 63 ≤ v.timeExpire - sent) := by
  have hstart : ∀ later, Kept key shard later ⟨value, t + milliseconds ttlMs⟩ server₁ := by
    intro later
    rcases set_cases hset with ⟨⟨e, he⟩, _⟩ | ⟨s, data, hs, hhosted, hdata, rfl⟩
    · cases he
    · obtain rfl : shard = s := Option.some.inj (hshard.symm.trans hs)
      refine ⟨hhosted, _, lockedData_setData_self server _ hdata, ?_⟩
      rw [AList.lookup_insert]
  constructor
  · constructor
    · intro hall
      -- at the last moment of a wrapped duration the value is gone
      have hget := hall [] server₁ (t + ttlMs * 1000000) st (Run.start rfl)
        (fun x hx => absurd hx List.not_mem_nil) rfl
      rw [(hstart _).get hkey hshard, answerOf_live_entry] at hget
      have hle : t + ttlMs * 1000000 ≤ t + milliseconds ttlMs := by
        by_contra hlt
        simp [found, hlt] at hget
      have hmax : milliseconds ttlMs < 2 ^ 63 := by
        unfold milliseconds
        exact Int.bmod_lt (by decide)
      omega
    · intro hfits past server₂ later st₂ hr hquiet hst₂
      have hkept : Kept key shard later ⟨value, t + milliseconds ttlMs⟩ server₂ := by
        apply Run.invariant_of (C := fun _ op => op.Quiet key shard later) _ _ hr hquiet
        · intro s hs
          rw [hs]
          exact hstart later
        · exact fun s op s' h hq hstep => h.step hq hstep
      rw [hkept.get hkey (hst₂ ▸ hshard), answerOf_live_entry, milliseconds_eq (by omega) hfits]
  · intro data k v sent now hv _
    refine ⟨transferred now sent v, ?_, rfl, transferred_le_iff now sent v⟩
    rw [lookup_storeValues_contents, hv, AList.lookup_empty, Option.or_none]
    rfl

def lone : KvServer where
  nodeName := "a"
  shardData := fun _ => some ∅
  shardLocks := fun _ => true
  hostedShards := [1]
  nodeInds := fun _ => 0

def loneSet (ttlMs : Int) : KvServer :=
  lone.setData 1 ((∅ : Shard).insert "k" ⟨"v", 0 + milliseconds ttlMs⟩)

theorem ttl_exact_iff_lone :
    lone.set oneShard 0 "k" "v" 5 = some (.ok (), loneSet 5) ∧
      ((∀ past server₂ later st₂, Run (· = loneSet 5) (OpStep oneShard.numShards) past server₂ →
          (∀ x ∈ past, x.2.Quiet "k" 1 later) → st₂.numShards = oneShard.numShards →
          server₂.get st₂ later "k" = some (.ok (found "v" (0 + 5 * 1000000) later))) ↔
        (5 : Int) * 1000000 < 2 ^ 63) := by
  have hset : lone.set oneShard 0 "k" "v" 5 = some (.ok (), loneSet 5) := by
    have hroute : lone.route oneShard "Set" "k" = some (.ok 1) := by decide +kernel
    rw [KvServer.set, hroute]
    rfl
  exact ⟨hset, (ttl_exact_iff (by decide +kernel) (by decide) hset (by decide)).1⟩

/-- A `TtlMs` of 292 years has run out at once, and an entry that expired a nanosecond ago is found
on the server it is copied to. -/
theorem long_ttl_expired :
    (lone.set oneShard 0 "k" "v" 9223372036855).bind
        (fun r => (r.2.get oneShard 0 "k").map fun a => (r.1, a)) =
        some (.ok (), .ok ("", false)) ∧
      (let copied := lone.setData 1
        (storeValues 1 ∅ (contents 1 ((∅ : Shard).insert "k" ⟨"v", 0⟩)));
      copied.get oneShard 1 "k" = some (.ok ("v", true))) := by
  decide +kernel

end ShardedKv.KvServer
