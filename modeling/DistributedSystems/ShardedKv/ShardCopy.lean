import DistributedSystems.ShardedKv.Failover
import DistributedSystems.ShardedKv.ServerSpec

/-!
# Copying a shard (`copyShardData`)

A server that gets a shard looks for a peer that hosts it, in the way the client looks for a node.
The list of nodes contains the server itself, and nothing leaves it out: when the client pool has a
client for the server's own node, the server asks itself.
-/

namespace ShardedKv

/-! ## 1. Outcomes that stand -/

/-- Outcomes that stay as they are while the calls are made. -/
structure Standing (α : Type) where
  client : String → Option KvError
  response : String → Except KvError α

namespace Standing

variable {α : Type} (S : Standing α)

def usable (node : String) : Bool := (S.client node).isNone

def answers (node : String) : Bool := S.usable node && (S.response node).toBool

/-- The nodes that are asked when they are tried in this order. -/
def asked : List String → List String
  | [] => []
  | node :: nodes =>
    if S.answers node then [node] else if S.usable node then node :: asked nodes else asked nodes

variable {S} {nodes : List String} {self node : String} {h : List (Event α)}

end Standing

namespace KvServer

/-! ## 2. What is stored -/

def stored (now : Int) (v : GetShardValue) : ValueWithTtl :=
  ⟨v.value, now + milliseconds v.ttlMsRemaining⟩

variable {st : ShardMapState} {server : KvServer} {shardId : Int}

end KvServer

end ShardedKv
