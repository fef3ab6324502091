import Mathlib.Algebra.Group.Int.Defs
import Mathlib.Data.List.AList
import Mathlib.Data.String.Basic

/-!
# Shard maps (`kv/shardmap.go`, `lab4_submit/util.go`)

The state of a shard map, what servers and clients read from it, and the shard of a key.  Go's `int`
has 64 bits; shard numbers and `NumShards` are integers here.
-/

namespace ShardedKv

/-! ## 1. The state -/

/-- `ShardMapState`.  Of `Nodes` only the names matter here. -/
structure ShardMapState where
  nodes : List String
  shardsToNodes : AList fun _ : Int => List String
  numShards : Int

namespace ShardMapState

/-- The checks of `IsValid` on the nodes of one shard: they exist, and none is listed twice. -/
def validNodes (st : ShardMapState) (nodes : List String) : Bool :=
  nodes.all (fun n => st.nodes.contains n) && decide nodes.Nodup

def isValid (st : ShardMapState) : Bool :=
  !decide (st.numShards < st.shardsToNodes.entries.length) &&
    st.shardsToNodes.entries.all fun e =>
      decide (1 ≤ e.1 ∧ e.1 ≤ st.numShards) && st.validNodes e.2

/-- `ShardsForNode`, in one of the orders in which Go may iterate over the map. -/
def shardsForNode (st : ShardMapState) (nodeName : String) : List Int :=
  st.shardsToNodes.entries.flatMap fun e => (e.2.filter (· = nodeName)).map fun _ => e.1

def nodesForShard (st : ShardMapState) (shard : Int) : List String :=
  (st.shardsToNodes.lookup shard).getD []

end ShardMapState

/-! ## 2. `util.go` -/

/-- `hash/fnv`, `New32`. -/
def fnv32 (bytes : ByteArray) : BitVec 32 :=
  bytes.data.toList.foldl (fun hash c => (hash * 16777619) ^^^ BitVec.ofNat 32 c.toNat) 2166136261

/-- Nothing when the division panics. -/
def getShardForKey (key : String) (numShards : Int) : Option Int :=
  if numShards = 0 then none
  else some (((fnv32 key.toUTF8).toNat : Int).tmod numShards + 1)

def contains (shardnum : Int) (shardlst : List Int) : Bool := shardlst.any (· = shardnum)

def removeNode (slice : List String) (node : String) : List String := slice.erase node

/-! ## 3. What a valid state says -/

variable {s : Int}

theorem contains_iff {l : List Int} : contains s l = true ↔ s ∈ l := by
  simp [contains]

theorem mem_shardsForNode {st : ShardMapState} {name : String} :
    s ∈ st.shardsForNode name ↔ name ∈ st.nodesForShard s := by
  unfold ShardMapState.shardsForNode ShardMapState.nodesForShard
  rw [List.mem_flatMap]
  constructor
  · rintro ⟨⟨k, nodes⟩, he, hs⟩
    obtain ⟨n, hn, rfl⟩ := List.mem_map.mp hs
    obtain ⟨hmem, hname⟩ := List.mem_filter.mp hn
    have hl : st.shardsToNodes.lookup k = some nodes := AList.mem_lookup_iff.mpr he
    rw [show n = name from of_decide_eq_true hname] at hmem
    rw [hl]
    exact hmem
  · intro h
    cases hl : st.shardsToNodes.lookup s with
    | none =>
      rw [hl] at h
      exact absurd h List.not_mem_nil
    | some nodes =>
      rw [hl] at h
      refine ⟨⟨s, nodes⟩, AList.mem_lookup_iff.mp hl, List.mem_map.mpr ⟨name, ?_, rfl⟩⟩
      exact List.mem_filter.mpr ⟨h, decide_eq_true rfl⟩

theorem isValid_nodesForShard {st : ShardMapState} (hv : st.isValid = true) {name : String}
    (hs : name ∈ st.nodesForShard s) :
    (1 ≤ s ∧ s ≤ st.numShards) ∧ (∀ n ∈ st.nodesForShard s, n ∈ st.nodes) ∧
      (st.nodesForShard s).Nodup := by
  unfold ShardMapState.nodesForShard at *
  cases hl : st.shardsToNodes.lookup s with
  | none =>
    rw [hl] at hs
    exact absurd hs List.not_mem_nil
  | some nodes =>
    have he := AList.mem_lookup_iff.mp hl
    unfold ShardMapState.isValid ShardMapState.validNodes at hv
    have hall := List.all_eq_true.mp (Bool.and_eq_true _ _ ▸ hv).2 _ he
    simp only [Bool.and_eq_true, decide_eq_true_eq, List.all_eq_true, List.contains_iff_mem] at hall
    exact ⟨hall.1, hall.2.1, hall.2.2⟩

theorem getShardForKey_range {numShards : Int} (h : 1 ≤ numShards) (key : String) :
    ∃ s, getShardForKey key numShards = some s ∧ 1 ≤ s ∧ s ≤ numShards := by
  unfold getShardForKey
  rw [if_neg (by omega)]
  refine ⟨_, rfl, ?_, ?_⟩
  · have := Int.tmod_nonneg numShards (Int.natCast_nonneg (fnv32 key.toUTF8).toNat)
    omega
  · have := Int.tmod_lt_of_pos ((fnv32 key.toUTF8).toNat : Int) (by omega : 0 < numShards)
    omega

end ShardedKv
