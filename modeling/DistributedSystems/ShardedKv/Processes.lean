import DistributedSystems.Library.Runs
import DistributedSystems.ShardedKv.ServerSpec
import DistributedSystems.ShardedKv.Client

/-!
# Processes that read shard maps from files (`kv/file_shardmap.go`)

Every server and every client is a process with a shard map of its own, which it reads from a file.
`applyFromFile` installs whatever the file parses to.  A process that has its locks at the start keeps
them, whatever the later maps say; what can crash it is a first map that gives its server a shard
without a lock, and a map of no shards.
-/

namespace ShardedKv

open Transition KvServer Function

/-! ## 1. Processes and what happens to calls -/

/-- A server's process, with the state that its `FileShardMap` has installed. -/
structure Process where
  shardMap : ShardMapState
  server : KvServer

structure ClientProcess where
  shardMap : ShardMapState
  kv : Kv

structure Deployment where
  now : Int
  process : String → Option Process
  client : Nat → Option ClientProcess

/-- What happens to a call: it is answered, or not sent, or its answer is lost. -/
inductive Delivery where
  | answered
  | unsent (err : KvError)
  | unanswered (err : KvError)

/-- What goes wrong with the calls of one operation, by their number. -/
structure Faults where
  getClient : Nat → Option KvError
  delivery : Nat → Delivery

namespace Deployment

def setProcess (d : Deployment) (node : String) (p : Option Process) : Deployment :=
  { d with process := update d.process node p }

def setClient (d : Deployment) (i : Nat) (c : ClientProcess) : Deployment :=
  { d with client := update d.client i (some c) }

/-- The network of a client: a handler runs in the process of its node. -/
def calls {α : Type} (faults : Faults)
    (handler : Deployment → Process → Option (Except KvError α × KvServer)) :
    Network (Deployment × Nat) α where
  getClient _ w := some (faults.getClient w.2, (w.1, w.2 + 1))
  rpc node w :=
    match w.1.process node with
    | none => some (.error (.other "unavailable"), (w.1, w.2 + 1))
    | some p =>
      match faults.delivery w.2 with
      | .unsent err => some (.error err, (w.1, w.2 + 1))
      | .answered => do
        let (r, server) ← handler w.1 p
        some (r, (w.1.setProcess node (some { p with server }), w.2 + 1))
      | .unanswered err => do
        let (_, server) ← handler w.1 p
        some (.error err, (w.1.setProcess node (some { p with server }), w.2 + 1))

def getCalls (faults : Faults) (key : String) : Network (Deployment × Nat) (String × Bool) :=
  calls faults fun d p => (p.server.get p.shardMap d.now key).map (·, p.server)

def setCalls (faults : Faults) (key value : String) (ttl : Int) : Network (Deployment × Nat) Unit :=
  calls faults fun d p => p.server.set p.shardMap d.now key value (toMilliseconds ttl)

def deleteCalls (faults : Faults) (key : String) : Network (Deployment × Nat) Unit :=
  calls faults fun _ p => p.server.delete p.shardMap key

/-- What a server sees of the others while it copies; `GetShardContents` changes nothing. -/
def peers (d : Deployment) (faults : Faults) (shard : Int) : Network Nat (List GetShardValue) where
  getClient _ n := some (faults.getClient n, n + 1)
  rpc node n :=
    match d.process node with
    | none => some (.error (.other "unavailable"), n + 1)
    | some p =>
      match faults.delivery n with
      | .unsent err => some (.error err, n + 1)
      | .answered => do
        let r ← p.server.getShardContents d.now shard
        some (r, n + 1)
      | .unanswered err => do
        let _ ← p.server.getShardContents d.now shard
        some (.error err, n + 1)

/-! ## 2. Steps -/

inductive Event where
  | tick (ms : Nat)
  | start (node : String) (st : ShardMapState) (hostedShards newShards : List Int) (faults : Faults)
  | install (node : String) (st : ShardMapState)
  | handleShardMapUpdate (node : String) (newShards : List Int) (faults : Faults)
  | get (node key : String)
  | set (node key value : String) (ttlMs : Int)
  | delete (node key : String)
  | getShardContents (node : String) (shard : Int)
  | sweep (node : String)
  | startClient (i : Nat) (st : ShardMapState)
  | installClient (i : Nat) (st : ShardMapState)
  | clientGet (i : Nat) (key : String) (faults : Faults)
  | clientSet (i : Nat) (key value : String) (ttl : Int) (order : List String) (faults : Faults)
  | clientDelete (i : Nat) (key : String) (order : List String) (faults : Faults)

/-- The process of a node handles a request, if it is there. -/
def atNode (d : Deployment) (node : String) (handler : Process → Option KvServer) :
    Option Deployment :=
  match d.process node with
  | none => some d
  | some p => do
    let server ← handler p
    some (d.setProcess node (some { p with server }))

def atClient (d : Deployment) (i : Nat) (operation : ClientProcess → Option Deployment) :
    Option Deployment :=
  match d.client i with
  | none => some d
  | some c => operation c

def perform (d : Deployment) : Event → Option Deployment
  | .tick ms => some { d with now := d.now + ms * 1000000 }
  | .start node st hostedShards newShards faults => do
    -- nobody is served before the constructor has returned
    let others := d.setProcess node none
    let (server, _) ← makeKvServer (fun _ => others.peers faults) st d.now node hostedShards
      newShards 0
    some (d.setProcess node (some ⟨st, server⟩))
  | .install node st =>
    match d.process node with
    | none => some d
    | some p => some (d.setProcess node (some { p with shardMap := st }))
  | .handleShardMapUpdate node newShards faults => d.atNode node fun p => do
    -- the server answers its own requests too, in the state it is in
    let seen (server : KvServer) := d.setProcess node (some { p with server })
    let (server, _) ← p.server.handleShardMapUpdate (fun server => (seen server).peers faults)
      p.shardMap d.now newShards 0
    some server
  | .get node key => d.atNode node fun p => do
    let _ ← p.server.get p.shardMap d.now key
    some p.server
  | .set node key value ttlMs => d.atNode node fun p => do
    let (_, server) ← p.server.set p.shardMap d.now key value ttlMs
    some server
  | .delete node key => d.atNode node fun p => do
    let (_, server) ← p.server.delete p.shardMap key
    some server
  | .getShardContents node shard => d.atNode node fun p => do
    let _ ← p.server.getShardContents d.now shard
    some p.server
  | .sweep node => d.atNode node fun p => some (p.server.sweep d.now)
  | .startClient i st => some (d.setClient i ⟨st, makeKv⟩)
  | .installClient i st => d.atClient i fun c => some (d.setClient i { c with shardMap := st })
  | .clientGet i key faults => d.atClient i fun c => do
    let ((_, kv), (d, _)) ← c.kv.get (getCalls faults key) c.shardMap key (d, 0)
    some (d.setClient i { c with kv })
  | .clientSet i key value ttl order faults => d.atClient i fun c => do
    let (_, (d, _)) ← Kv.write (setCalls faults key value ttl) c.shardMap key order (d, 0)
    some d
  | .clientDelete i key order faults => d.atClient i fun c => do
    let (_, (d, _)) ← Kv.write (deleteCalls faults key) c.shardMap key order (d, 0)
    some d

/-- `ShardsForNode` iterates over a map, and the goroutines of a client run in any order. -/
def Possible (d : Deployment) : Event → Prop
  | .start node st hostedShards newShards _ =>
    hostedShards.Perm (st.shardsForNode node) ∧ newShards.Perm (st.shardsForNode node)
  | .handleShardMapUpdate node newShards _ =>
    ∀ p, d.process node = some p → newShards.Perm (p.shardMap.shardsForNode node)
  | .clientSet i key _ _ order _ | .clientDelete i key order _ =>
    ∀ c s, d.client i = some c → getShardForKey key c.shardMap.numShards = some s →
      order.Perm (c.shardMap.nodesForShard s)
  | _ => True

def Empty (d : Deployment) : Prop := (∀ node, d.process node = none) ∧ ∀ i, d.client i = none

def Step (d : Deployment) (a : Event) (d' : Deployment) : Prop :=
  d.Possible a ∧ d.perform a = some d'

/-! ## 3. What keeps the processes alive -/

/-- Every server is ready, and every installed shard map has a number of shards to divide by. -/
structure Alive (d : Deployment) : Prop where
  process : ∀ node p, d.process node = some p → p.server.Ready ∧ p.shardMap.numShards ≠ 0
  client : ∀ i c, d.client i = some c → c.shardMap.numShards ≠ 0

/-- What the file must say: some shards, and at the start those of the server among them. -/
def Sane : Event → Prop
  | .start node st _ _ _ =>
    st.numShards ≠ 0 ∧ ∀ s ∈ st.shardsForNode node, 1 ≤ s ∧ s ≤ st.numShards
  | .install _ st | .startClient _ st | .installClient _ st => st.numShards ≠ 0
  | _ => True

variable {d : Deployment}

theorem Alive.setProcess (h : d.Alive) (node : String) {p : Process}
    (hp : p.server.Ready ∧ p.shardMap.numShards ≠ 0) : (d.setProcess node (some p)).Alive := by
  refine ⟨fun n q hq => ?_, h.client⟩
  change update d.process node (some p) n = some q at hq
  rw [update_apply] at hq
  split at hq
  · rw [← Option.some.inj hq]
    exact hp
  · exact h.process n q hq

theorem Alive.stop (h : d.Alive) (node : String) : (d.setProcess node none).Alive := by
  refine ⟨fun n q hq => ?_, h.client⟩
  change update d.process node none n = some q at hq
  rw [update_apply] at hq
  split at hq
  · contradiction
  · exact h.process n q hq

theorem Alive.setClient (h : d.Alive) (i : Nat) {c : ClientProcess} (hc : c.shardMap.numShards ≠ 0) :
    (d.setClient i c).Alive := by
  refine ⟨h.process, fun j b hb => ?_⟩
  change update d.client i (some c) j = some b at hb
  rw [update_apply] at hb
  split at hb
  · rw [← Option.some.inj hb]
    exact hc
  · exact h.client j b hb

theorem calls_sound {α : Type} (faults : Faults)
    {handler : Deployment → Process → Option (Except KvError α × KvServer)}
    (hhandler : ∀ d p, p.server.Ready → p.shardMap.numShards ≠ 0 →
      ∃ r server, handler d p = some (r, server) ∧ server.Ready) :
    (calls faults handler).Sound fun w => w.1.Alive := by
  refine ⟨fun node w hw => ⟨_, _, rfl, hw⟩, fun node w hw => ?_⟩
  unfold calls
  dsimp only
  split
  · exact ⟨_, _, rfl, hw⟩
  · next p hp =>
    obtain ⟨hready, hshards⟩ := hw.process node p hp
    obtain ⟨r, server, hserved, hready'⟩ := hhandler w.1 p hready hshards
    simp only [hserved, Option.bind_eq_bind, Option.bind_some]
    split
    · exact ⟨_, _, rfl, hw⟩
    · exact ⟨_, _, rfl, hw.setProcess node ⟨hready', hshards⟩⟩
    · exact ⟨_, _, rfl, hw.setProcess node ⟨hready', hshards⟩⟩

theorem peers_sound (h : d.Alive) (faults : Faults) (shard : Int) :
    (d.peers faults shard).Sound fun _ => True := by
  refine ⟨fun node n _ => ⟨_, _, rfl, trivial⟩, fun node n _ => ?_⟩
  unfold peers
  dsimp only
  split
  · exact ⟨_, _, rfl, trivial⟩
  · next p hp =>
    obtain ⟨r, hr⟩ := (h.process node p hp).1.getShardContents d.now shard
    simp only [hr, Option.bind_eq_bind, Option.bind_some]
    split <;> exact ⟨_, _, rfl, trivial⟩

theorem Alive.atNode (h : d.Alive) (node : String) {handler : Process → Option KvServer}
    (hhandler : ∀ p, d.process node = some p → p.server.Ready → p.shardMap.numShards ≠ 0 →
      ∃ server, handler p = some server ∧ server.Ready) :
    ∃ d', d.atNode node handler = some d' ∧ d'.Alive := by
  unfold Deployment.atNode
  cases hp : d.process node with
  | none => exact ⟨d, rfl, h⟩
  | some p =>
    obtain ⟨hready, hshards⟩ := h.process node p hp
    obtain ⟨server, hserved, hready'⟩ := hhandler p hp hready hshards
    exact ⟨d.setProcess node (some { p with server }), by simp [hserved],
      h.setProcess node ⟨hready', hshards⟩⟩

theorem Alive.atClient (h : d.Alive) (i : Nat) {operation : ClientProcess → Option Deployment}
    (hoperation : ∀ c, c.shardMap.numShards ≠ 0 → ∃ d', operation c = some d' ∧ d'.Alive) :
    ∃ d', d.atClient i operation = some d' ∧ d'.Alive := by
  unfold Deployment.atClient
  cases hc : d.client i with
  | none => exact ⟨d, rfl, h⟩
  | some c => exact hoperation c (h.client i c hc)

theorem Alive.write (h : d.Alive) {N : Network (Deployment × Nat) Unit}
    (hN : N.Sound fun w => w.1.Alive) {st : ShardMapState} (hst : st.numShards ≠ 0) (key : String)
    (order : List String) :
    ∃ r d' n, Kv.write N st key order (d, 0) = some (r, (d', n)) ∧ d'.Alive := by
  unfold Kv.write getShardForKey
  rw [if_neg hst]
  dsimp only [Option.bind_eq_bind, Option.bind_some]
  split
  · exact ⟨_, d, 0, rfl, h⟩
  · obtain ⟨r, ⟨d', n⟩, hwrite, h'⟩ := fanOut_sound hN order none (d, 0) h
    exact ⟨r, d', n, hwrite, h'⟩

theorem Alive.get (h : d.Alive) {N : Network (Deployment × Nat) (String × Bool)}
    (hN : N.Sound fun w => w.1.Alive) {st : ShardMapState} (hst : st.numShards ≠ 0) (kv : Kv)
    (key : String) :
    ∃ r kv' d' n, kv.get N st key (d, 0) = some ((r, kv'), (d', n)) ∧ d'.Alive := by
  unfold Kv.get getShardForKey
  rw [if_neg hst]
  dsimp only [Option.bind_eq_bind, Option.bind_some]
  generalize ((fnv32 key.toUTF8).toNat : Int).tmod st.numShards + 1 = s
  split
  · exact ⟨_, kv, d, 0, rfl, h⟩
  · next hnodes =>
    have hlt : kv.nodeInds s % (st.nodesForShard s).length < (st.nodesForShard s).length :=
      Nat.mod_lt _ (List.length_pos_iff.mpr hnodes)
    rw [List.getElem?_eq_getElem hlt]
    obtain ⟨r, ⟨d', n⟩, hfound, h'⟩ := failover_sound (w := (d, 0)) hN (st.nodesForShard s)
      (st.nodesForShard s)[kv.nodeInds s % (st.nodesForShard s).length] h
    simp only [Option.bind_some, hfound]
    exact ⟨r, _, d', n, rfl, h'⟩

theorem Alive.perform (h : d.Alive) {a : Event} (hpossible : d.Possible a) (hsane : Sane a) :
    ∃ d', d.perform a = some d' ∧ d'.Alive := by
  cases a with
  | tick ms => exact ⟨_, rfl, ⟨h.process, h.client⟩⟩
  | start node st hostedShards newShards faults =>
    obtain ⟨server, n, hmade, hready, _⟩ := makeKvServer_sound st d.now
      (fun _ shard => peers_sound (h.stop node) faults shard) node
      (fun s hs => hsane.2 s (hpossible.1.mem_iff.mp hs)) newShards (w := 0) trivial
    refine ⟨d.setProcess node (some ⟨st, server⟩), ?_, h.setProcess node ⟨hready, hsane.1⟩⟩
    unfold Deployment.perform
    simp [hmade]
  | install node st =>
    unfold Deployment.perform
    dsimp only
    cases hp : d.process node with
    | none => exact ⟨d, rfl, h⟩
    | some p => exact ⟨_, rfl, h.setProcess node ⟨(h.process node p hp).1, hsane⟩⟩
  | handleShardMapUpdate node newShards faults =>
    apply h.atNode
    intro p _ hready hshards
    obtain ⟨server, n, hupdate, hready', _⟩ := handleShardMapUpdate_sound p.shardMap d.now
      (fun server hs shard => peers_sound (h.setProcess node (p := { p with server }) ⟨hs, hshards⟩)
        faults shard) hready newShards (w := 0) trivial
    exact ⟨server, by simp [hupdate], hready'⟩
  | get node key =>
    apply h.atNode
    intro p _ hready hshards
    obtain ⟨r, hr⟩ := hready.get hshards d.now key
    exact ⟨p.server, by simp [hr], hready⟩
  | set node key value ttlMs =>
    apply h.atNode
    intro p _ hready hshards
    obtain ⟨r, server, hr, hready'⟩ := hready.set hshards d.now key value ttlMs
    exact ⟨server, by simp [hr], hready'⟩
  | delete node key =>
    apply h.atNode
    intro p _ hready hshards
    obtain ⟨r, server, hr, hready'⟩ := hready.delete hshards key
    exact ⟨server, by simp [hr], hready'⟩
  | getShardContents node shard =>
    apply h.atNode
    intro p _ hready _
    obtain ⟨r, hr⟩ := hready.getShardContents d.now shard
    exact ⟨p.server, by simp [hr], hready⟩
  | sweep node =>
    apply h.atNode
    intro p _ hready _
    exact ⟨_, rfl, hready.sweep d.now⟩
  | startClient i st => exact ⟨_, rfl, h.setClient i hsane⟩
  | installClient i st => exact h.atClient i fun c _ => ⟨_, rfl, h.setClient i hsane⟩
  | clientGet i key faults =>
    apply h.atClient
    intro c hc
    have hcalls : (getCalls faults key).Sound fun w => w.1.Alive := by
      apply calls_sound
      intro d p hready hshards
      obtain ⟨r, hr⟩ := hready.get hshards d.now key
      exact ⟨r, p.server, by simp [hr], hready⟩
    obtain ⟨r, kv, d', n, hget, h'⟩ := h.get hcalls hc c.kv key
    exact ⟨_, by simp [hget], h'.setClient i (c := { c with kv }) hc⟩
  | clientSet i key value ttl order faults =>
    apply h.atClient
    intro c hc
    have hcalls : (setCalls faults key value ttl).Sound fun w => w.1.Alive := by
      apply calls_sound
      exact fun d p hready hshards => hready.set hshards d.now key value _
    obtain ⟨r, d', n, hwrite, h'⟩ := h.write hcalls hc key order
    exact ⟨d', by simp [hwrite], h'⟩
  | clientDelete i key order faults =>
    apply h.atClient
    intro c hc
    have hcalls : (deleteCalls faults key).Sound fun w => w.1.Alive := by
      apply calls_sound
      exact fun d p hready hshards => hready.delete hshards key
    obtain ⟨r, d', n, hwrite, h'⟩ := h.write hcalls hc key order
    exact ⟨d', by simp [hwrite], h'⟩

/-! ## 4. Runs -/

abbrev Reaches : List (Deployment × Event) → Deployment → Prop := Run Empty Step

theorem alive_run {past : List (Deployment × Event)} (hrun : Reaches past d)
    (hpast : ∀ x ∈ past, Sane x.2) : d.Alive := by
  apply hrun.invariant_of (I := Alive) (C := fun _ a => Sane a) _ _ hpast
  · intro d hd
    refine ⟨fun node p hp => ?_, fun i c hc => ?_⟩
    · rw [hd.1 node] at hp
      contradiction
    · rw [hd.2 i] at hc
      contradiction
  · intro d a d' h hsane hstep
    obtain ⟨d₁, hd₁, h₁⟩ := h.perform hstep.1 hsane
    rw [hstep.2] at hd₁
    rwa [Option.some.inj hd₁]

/-- If every file that was read had shards, and the first one of every server gave it only shards of
`1..NumShards`, the next operation does not crash. -/
theorem no_shard_map_crash {past : List (Deployment × Event)} {d : Deployment}
    (hrun : Reaches past d) (hpast : ∀ x ∈ past, Sane x.2) {a : Event}
    (hpossible : d.Possible a) (hsane : Sane a) : ∃ d', d.perform a = some d' := by
  obtain ⟨d', hd', _⟩ := (alive_run hrun hpast).perform hpossible hsane
  exact ⟨d', hd'⟩

def noFaults : Faults := ⟨fun _ => none, fun _ => .answered⟩

def nobody : Deployment := ⟨0, fun _ => none, fun _ => none⟩

theorem nobody_empty : nobody.Empty := ⟨fun _ => rfl, fun _ => rfl⟩

def oneShard : ShardMapState := ⟨["n1"], AList.singleton 1 ["n1"], 1⟩

/-- A server with one shard answers. -/
theorem no_shard_map_crash_one :
    ∃ d, nobody.perform (.start "n1" oneShard [1] [1] noFaults) = some d ∧
      ∃ d', d.perform (.set "n1" "key" "value" 1000) = some d' := by
  have hpossible : nobody.Possible (.start "n1" oneShard [1] [1] noFaults) :=
    ⟨by decide, by decide⟩
  have hsane : Sane (.start "n1" oneShard [1] [1] noFaults) := ⟨by decide, by decide⟩
  obtain ⟨d, hd⟩ := no_shard_map_crash (.start nobody_empty) (fun _ hx => absurd hx List.not_mem_nil)
    hpossible hsane
  refine ⟨d, hd, no_shard_map_crash (.next (.start nobody_empty) ⟨hpossible, hd⟩) ?_ trivial trivial⟩
  intro x hx
  rw [List.mem_singleton.mp hx]
  exact hsane

def Crashes (a : Event) : Prop := ∃ past d, Reaches past d ∧ d.Possible a ∧ d.perform a = none

def secondOfOne : ShardMapState := ⟨["n1"], AList.singleton 2 ["n1"], 1⟩

def startedUnlocked : Deployment :=
  (nobody.perform (.start "n1" secondOfOne [2] [2] noFaults)).get (by decide +kernel)

def noShards : ShardMapState := ⟨[], ∅, 0⟩

theorem possible_handleShardMapUpdate {node : String} {newShards : List Int}
    (h : (d.process node).map (fun p => p.shardMap.shardsForNode node) = some newShards)
    (faults : Faults) : d.Possible (.handleShardMapUpdate node newShards faults) := by
  intro p hp
  rw [hp, Option.map_some] at h
  rw [Option.some.inj h]

/-- A shard without a lock is asked for its contents and is taken away, and a valid map of no shards
is divided by. -/
theorem shard_map_crashes :
    Crashes (.getShardContents "n1" 2) ∧ Crashes (.handleShardMapUpdate "n1" [1] noFaults) ∧
      noShards.isValid = true ∧ Crashes (.clientGet 0 "key" noFaults) := by
  have hstart : Step nobody (.start "n1" secondOfOne [2] [2] noFaults) startedUnlocked :=
    ⟨⟨by decide, by decide⟩, (Option.some_get _).symm⟩
  have hstarted := Run.next (.start nobody_empty) hstart
  have hclient : Step nobody (.startClient 0 noShards) (nobody.setClient 0 ⟨noShards, makeKv⟩) :=
    ⟨trivial, rfl⟩
  refine ⟨⟨_, _, hstarted, trivial, ?_⟩, ?_, by decide,
    ⟨_, _, .next (.start nobody_empty) hclient, trivial, rfl⟩⟩
  · exact Option.isNone_iff_eq_none.mp (by decide +kernel)
  · -- the next map has its only shard in range
    have hinstall : Step startedUnlocked (.install "n1" oneShard)
        ((startedUnlocked.perform (.install "n1" oneShard)).get (by decide +kernel)) :=
      ⟨trivial, (Option.some_get _).symm⟩
    refine ⟨_, _, .next hstarted hinstall, possible_handleShardMapUpdate (by decide +kernel) _, ?_⟩
    exact Option.isNone_iff_eq_none.mp (by decide +kernel)

end Deployment

end ShardedKv
