import DistributedSystems.ShardedKv.Server

/-!
# The client (`lab4_submit/client.go`) and a cluster of servers

The client's calls over any network, and a cluster in which every client is available and every call
is delivered.
-/

namespace ShardedKv

/-! ## 1. The client -/

structure Kv where
  nodeInds : Int → Nat

def makeKv : Kv := ⟨fun _ => 0⟩

namespace Kv

section Calls

variable {σ : Type}

/-- Nothing when the key has no shard (`NumShards` is zero) or a handler panics. -/
def get (N : Network σ (String × Bool)) (st : ShardMapState) (kv : Kv) (key : String) (w : σ) :
    Option ((Except KvError (String × Bool) × Kv) × σ) := do
  let shardId ← getShardForKey key st.numShards
  let nodes := st.nodesForShard shardId
  if nodes = [] then some ((.error (.noNodes shardId), kv), w)
  else do
    let ind := kv.nodeInds shardId % nodes.length
    let kv : Kv := ⟨Function.update kv.nodeInds shardId (ind + 1)⟩
    let first ← nodes[ind]?
    let (response, w) ← failover N nodes first w
    some ((response, kv), w)

/-- What `Set` and `Delete` share.  `order` is the order in which the goroutines run. -/
def write (N : Network σ Unit) (st : ShardMapState) (key : String) (order : List String) (w : σ) :
    Option (Option KvError × σ) := do
  let shardId ← getShardForKey key st.numShards
  if st.nodesForShard shardId = [] then some (some (.noNodes shardId), w)
  else fanOut N order none w

end Calls

end Kv

/-! ## 2. A cluster -/

structure Cluster where
  now : Int
  shardMap : ShardMapState
  members : List String
  server : String → KvServer
  kv : Kv

namespace Cluster

def setServer (c : Cluster) (node : String) (server : KvServer) : Cluster :=
  { c with server := Function.update c.server node server }

def calls {α : Type} (handler : Cluster → KvServer → Option (Except KvError α × KvServer)) :
    Network Cluster α where
  getClient _ c := some (none, c)
  rpc node c := do
    let (r, server) ← handler c (c.server node)
    some (r, c.setServer node server)

def getCalls (key : String) : Network Cluster (String × Bool) :=
  calls fun c server => (server.get c.shardMap c.now key).map (·, server)

/-- `Kv.Set` sends the TTL in milliseconds. -/
def setCalls (key value : String) (ttl : Int) : Network Cluster Unit :=
  calls fun c server => server.set c.shardMap c.now key value (toMilliseconds ttl)

def deleteCalls (key : String) : Network Cluster Unit :=
  calls fun c server => server.delete c.shardMap key

/-- What the server `self`, now in state `server`, sees of the others while it copies. -/
def peers (c : Cluster) (self : String) (server : KvServer) (shard : Int) :
    Network Unit (List GetShardValue) where
  getClient _ w := some (none, w)
  rpc node w := do
    let r ← (Function.update c.server self server node).getShardContents c.now shard
    some (r, w)

/-- The network of a server that is being made: the others may not be there yet. -/
def startPeers (c : Cluster) (shard : Int) : Network Unit (List GetShardValue) where
  getClient _ w := some (none, w)
  rpc node w :=
    if node ∈ c.members then do
      let r ← (c.server node).getShardContents c.now shard
      some (r, w)
    else some (.error (.other "unavailable"), w)

/-- One server is made; its two readings of `ShardsForNode` may come in different orders. -/
def start (c : Cluster) (node : String) (hosted newShards : List Int) : Option Cluster := do
  let (server, _) ← KvServer.makeKvServer (fun _ => c.startPeers) c.shardMap c.now node hosted
    newShards ()
  some { c.setServer node server with members := node :: c.members }

def startAll : List (String × List Int × List Int) → Cluster → Option Cluster
  | [], c => some c
  | (node, hosted, newShards) :: rest, c => do
    let c ← c.start node hosted newShards
    startAll rest c

def empty (now : Int) (st : ShardMapState) : Cluster where
  now := now
  shardMap := st
  members := []
  server node :=
    { nodeName := node, shardData := fun _ => none, shardLocks := fun _ => false,
      hostedShards := [], nodeInds := fun _ => 0 }
  kv := makeKv

def updateServer (c : Cluster) (node : String) (newShards : List Int) : Option Cluster := do
  let (server, _) ← (c.server node).handleShardMapUpdate (c.peers node) c.shardMap c.now newShards ()
  some (c.setServer node server)

def updateServers : List (String × List Int) → Cluster → Option Cluster
  | [], c => some c
  | (node, newShards) :: rest, c => do
    let c ← c.updateServer node newShards
    updateServers rest c

/-! ## 3. Steps -/

inductive Action where
  | tick (ms : Nat)
  | set (key value : String) (ttl : Int) (order : List String)
  | delete (key : String) (order : List String)
  | get (key : String)
  | sweep (node : String)
  /-- A new shard map, handled by the servers in this order, each with its `ShardsForNode`. -/
  | update (st : ShardMapState) (order : List (String × List Int))

inductive Reply where
  | none
  | wrote (err : Option KvError)
  | got (response : Except KvError (String × Bool))

def perform (c : Cluster) : Action → Option (Reply × Cluster)
  | .tick ms => some (.none, { c with now := c.now + ms * 1000000 })
  | .set key value ttl order => do
    let (err, c) ← Kv.write (setCalls key value ttl) c.shardMap key order c
    some (.wrote err, c)
  | .delete key order => do
    let (err, c) ← Kv.write (deleteCalls key) c.shardMap key order c
    some (.wrote err, c)
  | .get key => do
    let ((response, kv), c) ← Kv.get (getCalls key) c.shardMap c.kv key c
    some (.got response, { c with kv })
  | .sweep node => some (.none, c.setServer node ((c.server node).sweep c.now))
  | .update st order => do
    let c ← updateServers order { c with shardMap := st }
    some (.none, c)

end Cluster

end ShardedKv
