import Mathlib.Data.List.Dedup
import DistributedSystems.ShardedKv.Network

/-!
# The key-value server (`lab4_submit/server.go`)

Times are nanoseconds, Go durations are 64-bit and wrap.  A missing entry of `shardLocks` or
`shardData` is a nil pointer: where the code would dereference one, a function returns nothing.
-/

namespace ShardedKv

open Function

/-! ## 1. Time -/

/-- `time.Duration(ms) * time.Millisecond`. -/
def milliseconds (ms : Int) : Int := Int.bmod (ms * 1000000) (2 ^ 64)

/-- `Time.Sub`, which saturates. -/
def timeSub (t u : Int) : Int := max (-2 ^ 63) (min (2 ^ 63 - 1) (t - u))

def toMilliseconds (d : Int) : Int := d.tdiv 1000000

def toInt32 (i : Int) : Int := Int.bmod i (2 ^ 32)

/-! ## 2. State -/

structure ValueWithTtl where
  value : String
  timeExpire : Int
deriving DecidableEq

abbrev Shard := AList fun _ : String => ValueWithTtl

structure GetShardValue where
  key : String
  value : String
  ttlMsRemaining : Int
deriving DecidableEq

structure KvServer where
  nodeName : String
  shardData : Int → Option Shard
  shardLocks : Int → Bool
  hostedShards : List Int
  nodeInds : Int → Nat

namespace KvServer

def setData (server : KvServer) (shard : Int) (data : Shard) : KvServer :=
  { server with shardData := update server.shardData shard (some data) }

def setLock (server : KvServer) (shard : Int) (present : Bool) : KvServer :=
  { server with shardLocks := update server.shardLocks shard present }

def lockedData (server : KvServer) (shard : Int) : Option Shard :=
  if server.shardLocks shard then server.shardData shard else none

/-! ## 3. RPC handlers -/

/-- The checks that `Get`, `Set` and `Delete` share, up to the shard of the key. -/
def route (server : KvServer) (st : ShardMapState) (method key : String) :
    Option (Except KvError Int) :=
  if key = "" then some (.error (.emptyKey method))
  else do
    let shardInd ← getShardForKey key st.numShards
    if !contains shardInd server.hostedShards then
      some (.error (.notHosted shardInd server.nodeName server.hostedShards))
    else some (.ok shardInd)

def get (server : KvServer) (st : ShardMapState) (now : Int) (key : String) :
    Option (Except KvError (String × Bool)) := do
  match ← server.route st "Get" key with
  | .error e => some (.error e)
  | .ok shardInd => do
    let data ← server.lockedData shardInd
    match data.lookup key with
    | none => some (.ok ("", false))
    | some v => if v.timeExpire < now then some (.ok ("", false)) else some (.ok (v.value, true))

def set (server : KvServer) (st : ShardMapState) (now : Int) (key value : String) (ttlMs : Int) :
    Option (Except KvError Unit × KvServer) := do
  match ← server.route st "Set" key with
  | .error e => some (.error e, server)
  | .ok shardInd => do
    let data ← server.lockedData shardInd
    some (.ok (), server.setData shardInd (data.insert key ⟨value, now + milliseconds ttlMs⟩))

def delete (server : KvServer) (st : ShardMapState) (key : String) :
    Option (Except KvError Unit × KvServer) := do
  match ← server.route st "Delete" key with
  | .error e => some (.error e, server)
  | .ok shardInd => do
    let data ← server.lockedData shardInd
    some (.ok (), server.setData shardInd (data.erase key))

def contents (now : Int) (data : Shard) : List GetShardValue :=
  data.entries.map fun e => ⟨e.1, e.2.value, toMilliseconds (timeSub e.2.timeExpire now)⟩

def getShardContents (server : KvServer) (now : Int) (shard : Int) :
    Option (Except KvError (List GetShardValue)) :=
  if !contains shard server.hostedShards then
    some (.error (.notHosted shard server.nodeName server.hostedShards))
  else do
    let values ← (server.hostedShards.filter (toInt32 · = shard)).mapM fun sid =>
      (server.lockedData sid).map (contents now)
    some (.ok values.flatten)

/-! ## 4. Copying, shard-map updates, expiry -/

def storeValues (now : Int) (data : Shard) (values : List GetShardValue) : Shard :=
  values.foldl (fun data v => data.insert v.key ⟨v.value, now + milliseconds v.ttlMsRemaining⟩) data

section Copy

variable {σ : Type}

/-- `peers` is the network for `GetShardContents`, by requested shard. -/
def copyShardData (peers : Int → Network σ (List GetShardValue)) (st : ShardMapState) (now : Int)
    (server : KvServer) (shardId : Int) (w : σ) : Option ((KvServer × Option KvError) × σ) :=
  let nodes := st.nodesForShard shardId
  if nodes = [] ∨ nodes = [server.nodeName] then some ((server, some (.noNodes shardId)), w)
  else do
    let ind := server.nodeInds shardId % nodes.length
    let server := { server with nodeInds := update server.nodeInds shardId (ind + 1) }
    let first ← nodes[ind]?
    let (response, w) ← failover (peers (toInt32 shardId)) nodes first w
    match response with
    | .error e => some ((server, some e), w)
    | .ok values => do
      let data ← server.lockedData shardId
      some ((server.setData shardId (storeValues now data values), none), w)

def addShard (peers : KvServer → Int → Network σ (List GetShardValue)) (st : ShardMapState)
    (now : Int) (server : KvServer) (s : Int) (w : σ) : Option (KvServer × σ) := do
  let server := (server.setData s ∅).setLock s true
  let ((server, _), w) ← copyShardData (peers server) st now server s w
  some (server, w)

def addShards (peers : KvServer → Int → Network σ (List GetShardValue)) (st : ShardMapState)
    (now : Int) (hosted : List Int) : List Int → KvServer → σ → Option (KvServer × σ)
  | [], server, w => some (server, w)
  | s :: rest, server, w =>
    if contains s hosted then addShards peers st now hosted rest server w
    else do
      let (server, w) ← addShard peers st now server s w
      addShards peers st now hosted rest server w

def dropShards : List Int → KvServer → Option KvServer
  | [], server => some server
  | k :: rest, server =>
    if server.shardLocks k then dropShards rest ((server.setData k ∅).setLock k false) else none

/-- `newShards` is what `ShardsForNode` returns.  The keys of `included` are visited in one of the
possible orders; which one makes no difference. -/
def handleShardMapUpdate (peers : KvServer → Int → Network σ (List GetShardValue))
    (st : ShardMapState) (now : Int) (newShards : List Int) (server : KvServer) (w : σ) :
    Option (KvServer × σ) := do
  let hosted := server.hostedShards
  let (server, w) ← addShards peers st now hosted newShards server w
  let server ← dropShards (hosted.dedup.filter fun k => !contains k newShards) server
  some ({ server with hostedShards := newShards }, w)

/-- The loop of the constructor over the shards `1..NumShards`. -/
def initShards (peers : KvServer → Int → Network σ (List GetShardValue)) (st : ShardMapState)
    (now : Int) : List Int → KvServer → σ → Option (KvServer × σ)
  | [], server, w => some (server, w)
  | i :: rest, server, w => do
    let (server, w) ← addShard peers st now server i w
    initShards peers st now rest
      { server with nodeInds := update server.nodeInds i 0 } w

def allShards (st : ShardMapState) : List Int :=
  (List.range st.numShards.toNat).map fun i : Nat => (i : Int) + 1

/-- `hostedShards` and `newShards` are the two results of `ShardsForNode`. -/
def makeKvServer (peers : KvServer → Int → Network σ (List GetShardValue)) (st : ShardMapState)
    (now : Int) (nodeName : String) (hostedShards newShards : List Int) (w : σ) :
    Option (KvServer × σ) := do
  let server : KvServer :=
    { nodeName, shardData := fun _ => none, shardLocks := fun _ => false, hostedShards,
      nodeInds := fun _ => 0 }
  let (server, w) ← initShards peers st now (allShards st) server w
  handleShardMapUpdate peers st now newShards server w

end Copy

def sweepData (now : Int) (data : Shard) : Shard :=
  data.entries.foldl (fun d e => if e.2.timeExpire < now then d.erase e.1 else d) data

def sweep (server : KvServer) (now : Int) : KvServer :=
  { server with
    shardData := fun ind =>
      if server.shardLocks ind then (server.shardData ind).map (sweepData now)
      else server.shardData ind }

end KvServer

end ShardedKv
