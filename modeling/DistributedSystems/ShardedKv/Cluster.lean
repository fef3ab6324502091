import DistributedSystems.ShardedKv.Refinement

/-!
# Runs of a cluster

The steps that a run may take, the history of writes, and the refinement along every run.
-/

namespace ShardedKv.Cluster

open Transition Function

/-! ## 1. Runs -/

/-- A valid shard map that gives every shard a node, all of them servers of the cluster. -/
structure Installed (members : List String) (st : ShardMapState) : Prop where
  valid : st.isValid = true
  nonempty : ∀ s, 1 ≤ s → s ≤ st.numShards → st.nodesForShard s ≠ []
  members : ∀ s, ∀ n ∈ st.nodesForShard s, n ∈ members

/-- `order` is an order of the nodes that `Set` and `Delete` write to. -/
def Targets (c : Cluster) (key : String) (order : List String) : Prop :=
  ∃ s, getShardForKey key c.shardMap.numShards = some s ∧ order.Perm (c.shardMap.nodesForShard s)

def Admissible (c : Cluster) : Action → Prop
  | .tick _ => True
  | .set key _ ttl order =>
    key ≠ "" ∧ (1000000 ∣ ttl ∧ -2 ^ 63 ≤ ttl ∧ ttl ≤ 2 ^ 63 - 1) ∧ c.Targets key order
  | .delete key order => key ≠ "" ∧ c.Targets key order
  | .get key => key ≠ ""
  | .sweep node => node ∈ c.members
  | .update st order =>
    Installed c.members st ∧ st.numShards = c.shardMap.numShards ∧
      -- every shard keeps one of its nodes
      (∀ s, 1 ≤ s → s ≤ st.numShards → ∃ n ∈ c.shardMap.nodesForShard s, n ∈ st.nodesForShard s) ∧
      (order.map Prod.fst).Perm c.members ∧ ∀ x ∈ order, x.2.Perm (st.shardsForNode x.1)

def Starts (numShards : Int) (c : Cluster) : Prop :=
  ∃ now st order, 1000000 ∣ now ∧ 1 ≤ numShards ∧ st.numShards = numShards ∧
    Installed (order.map Prod.fst) st ∧ (order.map Prod.fst).Nodup ∧
    (∀ x ∈ order, x.2.1.Perm (st.shardsForNode x.1) ∧ x.2.2.Perm (st.shardsForNode x.1)) ∧
    startAll order (empty now st) = some c

def Step (c : Cluster) (a : Action) (c' : Cluster) : Prop :=
  c.Admissible a ∧ ∃ reply, c.perform a = some (reply, c')

/-- The entry that each key has after a step, and when its TTL has passed. -/
def written (c : Cluster) (m : String → Option ValueWithTtl) :
    Action → String → Option ValueWithTtl
  | .set key value ttl _ => Function.update m key (some ⟨value, c.now + ttl⟩)
  | .delete key _ => Function.update m key none
  | _ => m

def lastWrite : List (Cluster × Action) → String → Option ValueWithTtl
  | [] => fun _ => none
  | (c, a) :: past => written c (lastWrite past) a

/-! ## 2. The invariant -/

structure Inv (numShards : Int) (m : String → Option ValueWithTtl) (c : Cluster) : Prop where
  whole : 1000000 ∣ c.now
  shards : c.shardMap.numShards = numShards
  pos : 1 ≤ numShards
  installed : Installed c.members c.shardMap
  nodup : c.members.Nodup
  name : ∀ n ∈ c.members, (c.server n).nodeName = n
  serves : ∀ n ∈ c.members, Serves c.now numShards m (c.server n)
  hosts : ∀ n ∈ c.members, ∀ s, s ∈ (c.server n).hostedShards ↔ n ∈ c.shardMap.nodesForShard s

section Steps

variable {numShards : Int} {m : String → Option ValueWithTtl} {c : Cluster}

variable {st : ShardMapState} {node : String} {key : String} {nodes : List String} {s : Int}
  {d : Shard}

theorem Installed.mono {members members' : List String} (h : Installed members st)
    (hsub : ∀ n ∈ members, n ∈ members') : Installed members' st where
  valid := h.valid
  nonempty := h.nonempty
  members s n hn := hsub n (h.members s n hn)

theorem Inv.shard (h : Inv numShards m c) (key : String) :
    ∃ s, getShardForKey key c.shardMap.numShards = some s ∧ c.shardMap.nodesForShard s ≠ [] ∧
      ∀ n ∈ c.shardMap.nodesForShard s, n ∈ c.members ∧ s ∈ (c.server n).hostedShards := by
  obtain ⟨s, hs, hlo, hhi⟩ := getShardForKey_range (h.shards ▸ h.pos) key
  refine ⟨s, hs, h.installed.nonempty s hlo hhi, ?_⟩
  intro n hn
  have hmem := h.installed.members s n hn
  exact ⟨hmem, (h.hosts n hmem s).mpr hn⟩

/-! ### Reads -/

theorem setServer_self (c : Cluster) (node : String) : c.setServer node (c.server node) = c := by
  unfold setServer
  rw [update_eq_self]

theorem Inv.get (h : Inv numShards m c) (hkey : key ≠ "") :
    ∃ kv, c.perform (.get key) =
      some (.got (.ok (answerOf (live c.now (m key)))), { c with kv }) := by
  obtain ⟨s, hs, hne, hnodes⟩ := h.shard key
  have hsteady : Steady (getCalls key) c (fun _ => .ok (answerOf (live c.now (m key))))
      (c.shardMap.nodesForShard s) := by
    constructor
    · exact fun _ _ => rfl
    · intro n hn
      obtain ⟨hmem, hhosted⟩ := hnodes n hn
      have hget := (h.shards ▸ h.serves n hmem).get hkey hs hhosted
      simp [getCalls, calls, hget, setServer_self]
  have hlt := Nat.mod_lt (c.kv.nodeInds s) (List.length_pos_iff.mpr hne)
  obtain ⟨r, hr, hout⟩ := failover_steady hsteady (List.getElem_mem hlt)
  cases r with
  | error e =>
    -- every node answers
    obtain ⟨n, hn⟩ := List.exists_mem_of_ne_nil _ hne
    exact absurd rfl (hout n hn _)
  | ok v =>
    obtain ⟨n, _, hv⟩ := hout
    cases hv
    refine ⟨⟨Function.update c.kv.nodeInds s
      (c.kv.nodeInds s % (c.shardMap.nodesForShard s).length + 1)⟩, ?_⟩
    unfold perform Kv.get
    simp [hs, hne, List.getElem?_eq_getElem hlt, hr]

/-! ### Writes -/

theorem fanOut_calls (handler : Cluster → KvServer → Option (Except KvError Unit × KvServer))
    (next : String → KvServer) (order : List String) (hnodup : order.Nodup) (c : Cluster)
    (h : ∀ n ∈ order, ∀ c' : Cluster, c'.now = c.now → c'.shardMap = c.shardMap →
      handler c' (c.server n) = some (.ok (), next n)) :
    fanOut (calls handler) order none c =
      some (none, { c with server := fun n => if n ∈ order then next n else c.server n }) := by
  induction order generalizing c with
  | nil => simp [fanOut]
  | cons node rest ih =>
    obtain ⟨hfresh, hnodup⟩ := List.nodup_cons.mp hnodup
    have hrest := ih hnodup (c.setServer node (next node)) (by
      intro n hn c' hnow hmap
      have hne : n ≠ node := fun heq => hfresh (heq ▸ hn)
      have hsame : (c.setServer node (next node)).server n = c.server n := by
        simp [setServer, hne]
      rw [hsame]
      exact h n (List.mem_cons_of_mem node hn) c' hnow hmap)
    have hhead := h node List.mem_cons_self c rfl rfl
    have hserver : ∀ n, (if n ∈ rest then next n else (c.setServer node (next node)).server n) =
        if n ∈ node :: rest then next n else c.server n := by
      intro n
      by_cases hn : n = node
      · subst hn
        simp [setServer]
      · simp [setServer, hn]
    simp only [hserver] at hrest
    have hstep : fanOut (calls handler) (node :: rest) none c =
        fanOut (calls handler) rest none (c.setServer node (next node)) := by
      rw [fanOut]
      simp [calls, hhead]
    rw [hstep]
    exact hrest

theorem Inv.write {handler : Cluster → KvServer → Option (Except KvError Unit × KvServer)}
    (h : Inv numShards m c) {order : List String} (htargets : c.Targets key order)
    {e : Option ValueWithTtl}
    (hhandler : ∀ n ∈ c.members, ∀ s, getShardForKey key numShards = some s →
      s ∈ (c.server n).hostedShards → ∃ server',
        (∀ c' : Cluster, c'.now = c.now → c'.shardMap = c.shardMap →
          handler c' (c.server n) = some (.ok (), server')) ∧
        server'.nodeName = (c.server n).nodeName ∧
        server'.hostedShards = (c.server n).hostedShards ∧
        Serves c.now numShards (Function.update m key e) server') :
    ∃ server, Kv.write (calls handler) c.shardMap key order c = some (none, { c with server }) ∧
      Inv numShards (Function.update m key e) { c with server } := by
  obtain ⟨s, hs, hne, hnodes⟩ := h.shard key
  obtain ⟨s', hs', hperm⟩ := htargets
  obtain rfl : s = s' := Option.some.inj (hs.symm.trans hs')
  have hshard : getShardForKey key numShards = some s := h.shards ▸ hs
  have horder : ∀ n ∈ order, n ∈ c.shardMap.nodesForShard s := fun n hn => hperm.mem_iff.mp hn
  have hex : ∀ n, ∃ server', n ∈ order →
      (∀ c' : Cluster, c'.now = c.now → c'.shardMap = c.shardMap →
        handler c' (c.server n) = some (.ok (), server')) ∧
      server'.nodeName = (c.server n).nodeName ∧
      server'.hostedShards = (c.server n).hostedShards ∧
      Serves c.now numShards (Function.update m key e) server' := by
    intro n
    by_cases hn : n ∈ order
    · obtain ⟨hmem, hhosted⟩ := hnodes n (horder n hn)
      obtain ⟨server', hserver'⟩ := hhandler n hmem s hshard hhosted
      exact ⟨server', fun _ => hserver'⟩
    · exact ⟨c.server n, fun hn' => absurd hn' hn⟩
  choose next hnext using hex
  have hvalid := isValid_nodesForShard h.installed.valid
    (List.exists_mem_of_ne_nil _ hne).choose_spec
  have hfan := fanOut_calls handler next order (hperm.nodup_iff.mpr hvalid.2.2) c
    fun n hn => (hnext n hn).1
  refine ⟨fun n => if n ∈ order then next n else c.server n, by simp [Kv.write, hs, hne, hfan], ?_⟩
  -- a server outside `order` does not host the shard
  have hout : ∀ n ∈ c.members, n ∉ order → s ∉ (c.server n).hostedShards := by
    intro n hmem hn hhosted
    exact hn (hperm.mem_iff.mpr ((h.hosts n hmem s).mp hhosted))
  refine ⟨h.whole, h.shards, h.pos, h.installed, h.nodup, ?_, ?_, ?_⟩
  · intro n hmem
    show (if n ∈ order then next n else c.server n).nodeName = n
    by_cases hn : n ∈ order
    · rw [if_pos hn, (hnext n hn).2.1, h.name n hmem]
    · rw [if_neg hn, h.name n hmem]
  · intro n hmem
    show Serves c.now numShards _ (if n ∈ order then next n else c.server n)
    by_cases hn : n ∈ order
    · rw [if_pos hn]
      exact (hnext n hn).2.2.2
    · rw [if_neg hn]
      exact (h.serves n hmem).elsewhere hshard (hout n hmem hn) e
  · intro n hmem t
    show t ∈ (if n ∈ order then next n else c.server n).hostedShards ↔ _
    rw [← h.hosts n hmem t]
    by_cases hn : n ∈ order
    · rw [if_pos hn, (hnext n hn).2.2.1]
    · rw [if_neg hn]

/-! ### Shard-map updates -/

/-- Between two shard maps: each server hosts what one of them says. -/
structure Moving (numShards : Int) (m : String → Option ValueWithTtl) (old new : ShardMapState)
    (c : Cluster) : Prop where
  whole : 1000000 ∣ c.now
  name : ∀ n ∈ c.members, (c.server n).nodeName = n
  serves : ∀ n ∈ c.members, Serves c.now numShards m (c.server n)
  hosts : ∀ n ∈ c.members,
    (∀ s, s ∈ (c.server n).hostedShards ↔ n ∈ old.nodesForShard s) ∨
      ∀ s, s ∈ (c.server n).hostedShards ↔ n ∈ new.nodesForShard s

variable {old new : ShardMapState}

theorem shardsForNode_nodup (hv : st.isValid = true) (name : String) :
    (st.shardsForNode name).Nodup := by
  unfold ShardMapState.isValid ShardMapState.validNodes at hv
  have hall := List.all_eq_true.mp (Bool.and_eq_true _ _ ▸ hv).2
  unfold ShardMapState.shardsForNode
  rw [List.nodup_flatMap]
  constructor
  · intro e he
    have hentry := hall e he
    simp only [Bool.and_eq_true, decide_eq_true_eq] at hentry
    have hone : e.2.count name ≤ 1 := List.nodup_iff_count_le_one.mp hentry.2.2 name
    rw [List.filter_eq, List.map_replicate]
    exact List.nodup_replicate.mpr hone
  · -- different entries have different shards
    have hkeys : st.shardsToNodes.entries.Pairwise fun e f => e.1 ≠ f.1 :=
      List.pairwise_map.mp st.shardsToNodes.nodupKeys
    apply hkeys.imp
    intro e f hne s hs hs'
    obtain ⟨_, _, heq⟩ := List.mem_map.mp hs
    obtain ⟨_, _, heq'⟩ := List.mem_map.mp hs'
    exact hne (heq.trans heq'.symm)

def answers (c : Cluster) (node : String) (server : KvServer) (s : Int) (n : String) :
    Except KvError (List GetShardValue) :=
  ((Function.update c.server node server n).getShardContents c.now (toInt32 s)).getD
    (.error .noAvailableNodes)

theorem peers_steady {server : KvServer} (hready : server.Ready)
    (hothers : ∀ n ∈ c.members, (c.server n).Ready) (hnodes : ∀ n ∈ nodes, n ∈ c.members) (s : Int) :
    Steady (c.peers node server (toInt32 s)) () (c.answers node server s) nodes where
  client _ _ := rfl
  reply n hn := by
    have hn' : (Function.update c.server node server n).Ready := by
      by_cases heq : n = node
      · rw [heq, update_self]
        exact hready
      · rw [update_of_ne heq]
        exact hothers n (hnodes n hn)
    obtain ⟨r, hr⟩ := hn'.getShardContents c.now (toInt32 s)
    simp [peers, answers, hr]

/-- A shard that is new to a server is still hosted by a node that keeps it, whether that node has
handled the update or not.  Any node that answers has data that agree with the map. -/
theorem Moving.copied (hmax : numShards ≤ 2 ^ 31 - 1) (h : Moving numShards m old new c)
    (hnew : Installed c.members new) {server : KvServer}
    (hhosted : server.hostedShards = (c.server node).hostedShards) (hlo : 1 ≤ s)
    (hhi : s ≤ numShards) (hs : s ∉ (c.server node).hostedShards)
    (hkeep : ∃ n ∈ old.nodesForShard s, n ∈ new.nodesForShard s)
    (hd : KvServer.Copied (c.answers node server s) (new.nodesForShard s) node c.now d) :
    Holds c.now numShards m s d := by
  have hself : c.answers node server s node =
      .error (.notHosted s server.nodeName server.hostedShards) := by
    unfold answers
    rw [update_self, toInt32_eq hlo (by omega), getShardContents_notHosted (by rwa [hhosted])]
    rfl
  have hother : ∀ n ≠ node, c.answers node server s n =
      ((c.server n).getShardContents c.now (toInt32 s)).getD (.error .noAvailableNodes) := by
    intro n hne
    unfold answers
    rw [update_of_ne hne]
  cases hd with
  | inl hcopy =>
    obtain ⟨n, hn, values, hv, hd⟩ := hcopy
    have hne : n ≠ node := by
      intro heq
      rw [heq, hself] at hv
      exact absurd hv (by simp)
    rw [hother n hne] at hv
    have hserves := h.serves n (hnew.members s n hn)
    by_cases hsn : s ∈ (c.server n).hostedShards
    · obtain ⟨data, hdata, hholds⟩ := hserves.getShardContents hmax hsn
      rw [hdata] at hv
      cases hv
      rw [hd]
      exact hholds.copy h.whole
    · rw [toInt32_eq hlo (by omega), getShardContents_notHosted hsn] at hv
      exact absurd hv (by simp)
  | inr hnone =>
    -- the node that keeps the shard is another one and answers
    exfalso
    obtain ⟨n, hold, hn⟩ := hkeep
    have hmem := hnew.members s n hn
    have hsn : s ∈ (c.server n).hostedShards := by
      cases h.hosts n hmem with
      | inl hh => exact (hh s).mpr hold
      | inr hh => exact (hh s).mpr hn
    have hne : n ≠ node := fun heq => hs (heq ▸ hsn)
    obtain ⟨data, hdata, _⟩ := (h.serves n hmem).getShardContents hmax hsn
    have hanswer : c.answers node server s n = .ok (KvServer.contents c.now data) := by
      rw [hother n hne, hdata]
      rfl
    rcases hnone.2 with hnil | hone | hfail
    · rw [hnil] at hn
      exact absurd hn List.not_mem_nil
    · rw [hone] at hn
      exact hne (List.mem_singleton.mp hn)
    · exact hfail n hn _ hanswer

variable {newShards : List Int}

theorem updateServer_ready (hothers : ∀ n ∈ c.members, (c.server n).Ready)
    (hnodes : ∀ s, ∀ n ∈ c.shardMap.nodesForShard s, n ∈ c.members) (hnode : node ∈ c.members)
    (hnodup : newShards.Nodup) :
    ∃ server, c.updateServer node newShards = some (c.setServer node server) ∧
      server.nodeName = (c.server node).nodeName ∧ server.hostedShards = newShards ∧
      server.Ready ∧
      (∀ s ∈ newShards, s ∉ (c.server node).hostedShards →
        ∃ d, server.lockedData s = some d ∧ ∃ server₁ : KvServer,
          server₁.hostedShards = (c.server node).hostedShards ∧
          KvServer.Copied (c.answers node server₁ s) (c.shardMap.nodesForShard s)
            (c.server node).nodeName c.now d) ∧
      ∀ s ∈ newShards, s ∈ (c.server node).hostedShards →
        server.lockedData s = (c.server node).lockedData s := by
  have hpeers : ∀ server₁ : KvServer, server₁.nodeName = (c.server node).nodeName →
      server₁.hostedShards = (c.server node).hostedShards → server₁.Ready →
      ∀ s ∈ newShards, s ∉ (c.server node).hostedShards → ∃ answer,
        Steady (c.peers node server₁ (toInt32 s)) () answer (c.shardMap.nodesForShard s) ∧
        ∀ d, KvServer.Copied answer (c.shardMap.nodesForShard s) (c.server node).nodeName c.now d →
          ∃ server₁ : KvServer, server₁.hostedShards = (c.server node).hostedShards ∧
            KvServer.Copied (c.answers node server₁ s) (c.shardMap.nodesForShard s)
              (c.server node).nodeName c.now d := by
    intro server₁ _ hhosted hready s _ _
    exact ⟨c.answers node server₁ s, peers_steady hready hothers (hnodes s) s,
      fun d hd => ⟨server₁, hhosted, hd⟩⟩
  obtain ⟨server, hupd, hname, hhosted, hadded, hkept⟩ :=
    KvServer.handleShardMapUpdate_steady hpeers hnodup (hothers node hnode)
  refine ⟨server, by simp [Cluster.updateServer, hupd], hname, hhosted, ?_, hadded, hkept⟩
  intro s hs
  rw [hhosted] at hs
  by_cases hsn : s ∈ (c.server node).hostedShards
  · rw [hkept s hs hsn]
    exact hothers node hnode s hsn
  · obtain ⟨d, hd, _⟩ := hadded s hs hsn
    exact ⟨d, hd⟩

theorem setServer_same (c : Cluster) (node : String) (server : KvServer) :
    (c.setServer node server).server node = server := by
  simp [setServer]

theorem setServer_other {n : String} (hne : n ≠ node) (server : KvServer) :
    (c.setServer node server).server n = c.server n := by
  simp [setServer, hne]

theorem Moving.updateServer (hmax : numShards ≤ 2 ^ 31 - 1) (h : Moving numShards m old new c)
    (hnew : Installed c.members new) (hmap : c.shardMap = new) (hshards : new.numShards = numShards)
    (hkeep : ∀ s, 1 ≤ s → s ≤ numShards → ∃ n ∈ old.nodesForShard s, n ∈ new.nodesForShard s)
    (hnode : node ∈ c.members) (hperm : newShards.Perm (new.shardsForNode node)) :
    ∃ server, c.updateServer node newShards = some (c.setServer node server) ∧
      server.hostedShards = newShards ∧ Moving numShards m old new (c.setServer node server) := by
  have hnodup : newShards.Nodup := hperm.nodup_iff.mpr (shardsForNode_nodup hnew.valid node)
  have hmem : ∀ s, s ∈ newShards ↔ node ∈ new.nodesForShard s := by
    intro s
    rw [hperm.mem_iff, mem_shardsForNode]
  have hrange : ∀ s ∈ newShards, 1 ≤ s ∧ s ≤ numShards := by
    intro s hs
    have := (isValid_nodesForShard hnew.valid ((hmem s).mp hs)).1
    omega
  obtain ⟨server, hupd, hname, hhosted, _, hadded, hkept⟩ := updateServer_ready
    (fun n hn => (h.serves n hn).ready) (hmap ▸ hnew.members) hnode hnodup
  have hserves : Serves c.now numShards m server := by
    refine ⟨hhosted ▸ hnodup, hhosted ▸ hrange, ?_⟩
    intro s hs
    rw [hhosted] at hs
    by_cases hsn : s ∈ (c.server node).hostedShards
    · rw [hkept s hs hsn]
      exact (h.serves node hnode).data s hsn
    · obtain ⟨d, hd, server₁, hh₁, hcopied⟩ := hadded s hs hsn
      rw [hmap, h.name node hnode] at hcopied
      obtain ⟨hlo, hhi⟩ := hrange s hs
      exact ⟨d, hd, h.copied hmax hnew hh₁ hlo hhi hsn (hkeep s hlo hhi) hcopied⟩
  refine ⟨server, hupd, hhosted, h.whole, ?_, ?_, ?_⟩
  all_goals
    intro n hn
    have hn : n ∈ c.members := hn
    by_cases heq : n = node
  · rw [heq, setServer_same, hname, h.name node hnode]
  · rw [setServer_other heq, h.name n hn]
  · rwa [heq, setServer_same]
  · rw [setServer_other heq]
    exact h.serves n hn
  · rw [heq, setServer_same, hhosted]
    exact Or.inr hmem
  · rw [setServer_other heq]
    exact h.hosts n hn

theorem Moving.updateServers (hmax : numShards ≤ 2 ^ 31 - 1) (hshards : new.numShards = numShards)
    (hkeep : ∀ s, 1 ≤ s → s ≤ numShards → ∃ n ∈ old.nodesForShard s, n ∈ new.nodesForShard s)
    (order : List (String × List Int)) (hnodup : (order.map Prod.fst).Nodup)
    (hperm : ∀ x ∈ order, x.2.Perm (new.shardsForNode x.1)) (c : Cluster)
    (hnew : Installed c.members new) (hmap : c.shardMap = new)
    (hmem : ∀ x ∈ order, x.1 ∈ c.members) (h : Moving numShards m old new c) :
    ∃ server, Cluster.updateServers order c = some { c with server } ∧
      Moving numShards m old new { c with server } ∧
      (∀ x ∈ order, (server x.1).hostedShards = x.2) ∧
      ∀ n, n ∉ order.map Prod.fst → server n = c.server n := by
  induction order generalizing c with
  | nil => exact ⟨c.server, rfl, h, by simp, fun _ _ => rfl⟩
  | cons x rest ih =>
    obtain ⟨node, newShards⟩ := x
    obtain ⟨hfresh, hnodup⟩ := List.nodup_cons.mp hnodup
    obtain ⟨server₁, hupd, hhosted, hmoving⟩ := h.updateServer hmax hnew hmap hshards hkeep
      (hmem _ List.mem_cons_self) (hperm _ List.mem_cons_self)
    obtain ⟨server, hall, hmoving', hdone, hother⟩ := ih hnodup
      (fun y hy => hperm y (List.mem_cons_of_mem _ hy)) (c.setServer node server₁) hnew hmap
      (fun y hy => hmem y (List.mem_cons_of_mem _ hy)) hmoving
    have hsame : server node = server₁ := by
      rw [hother node hfresh, setServer_same]
    refine ⟨server, ?_, hmoving', ?_, ?_⟩
    · rw [Cluster.updateServers, hupd]
      exact hall
    · intro y hy
      cases List.mem_cons.mp hy with
      | inl heq => rw [heq, hsame, hhosted]
      | inr hy => exact hdone y hy
    · intro n hn
      have hne : n ≠ node := fun heq => hn (heq ▸ List.mem_cons_self)
      rw [hother n fun hmem => hn (List.mem_cons_of_mem _ hmem), setServer_other hne]

theorem Inv.update (hmax : numShards ≤ 2 ^ 31 - 1) (h : Inv numShards m c)
    {order : List (String × List Int)} (ha : c.Admissible (.update st order)) :
    ∃ server, c.perform (.update st order) = some (.none, { c with shardMap := st, server }) ∧
      Inv numShards m { c with shardMap := st, server } := by
  obtain ⟨hnew, hshards, hkeep, hnames, hperm⟩ := ha
  have hshards : st.numShards = numShards := hshards.trans h.shards
  have hmoving : Moving numShards m c.shardMap st { c with shardMap := st } :=
    ⟨h.whole, h.name, h.serves, fun n hn => Or.inl (h.hosts n hn)⟩
  have hmem : ∀ x ∈ order, x.1 ∈ c.members :=
    fun x hx => hnames.mem_iff.mp (List.mem_map_of_mem hx)
  obtain ⟨server, hall, hmoving', hdone, _⟩ := Moving.updateServers hmax hshards
    (hshards ▸ hkeep) order (hnames.nodup_iff.mpr h.nodup) hperm { c with shardMap := st } hnew rfl
    hmem hmoving
  refine ⟨server, by simp [perform, hall], ?_⟩
  refine ⟨h.whole, hshards, h.pos, hnew, h.nodup, hmoving'.name, hmoving'.serves, ?_⟩
  intro n hn s
  obtain ⟨x, hx, hxn⟩ := List.mem_map.mp (hnames.mem_iff.mpr hn)
  subst hxn
  rw [hdone x hx, (hperm x hx).mem_iff, mem_shardsForNode]

/-! ### The start -/

structure Starting (numShards : Int) (st : ShardMapState) (c : Cluster) : Prop where
  whole : 1000000 ∣ c.now
  shardMap : c.shardMap = st
  nodup : c.members.Nodup
  name : ∀ n ∈ c.members, (c.server n).nodeName = n
  serves : ∀ n ∈ c.members, Serves c.now numShards (fun _ => none) (c.server n)
  hosts : ∀ n ∈ c.members, ∀ s, s ∈ (c.server n).hostedShards ↔ n ∈ st.nodesForShard s

def startAnswers (c : Cluster) (s : Int) (n : String) : Except KvError (List GetShardValue) :=
  if n ∈ c.members then
    ((c.server n).getShardContents c.now (toInt32 s)).getD (.error .noAvailableNodes)
  else .error (.other "unavailable")

theorem startPeers_steady (hothers : ∀ n ∈ c.members, (c.server n).Ready) (s : Int)
    (nodes : List String) : Steady (c.startPeers (toInt32 s)) () (c.startAnswers s) nodes where
  client _ _ := rfl
  reply n _ := by
    by_cases hn : n ∈ c.members
    · obtain ⟨r, hr⟩ := (hothers n hn).getShardContents c.now (toInt32 s)
      simp [startPeers, startAnswers, hn, hr]
    · simp [startPeers, startAnswers, hn]

theorem start_ready (hothers : ∀ n ∈ c.members, (c.server n).Ready) (node : String)
    (hosted newShards : List Int) (hnodup : newShards.Nodup)
    (hrange : ∀ s ∈ hosted, s ∈ KvServer.allShards c.shardMap)
    (hrange' : ∀ s ∈ newShards, s ∈ KvServer.allShards c.shardMap) :
    ∃ server, c.start node hosted newShards =
        some { c.setServer node server with members := node :: c.members } ∧
      server.nodeName = node ∧ server.hostedShards = newShards ∧
      ∀ s ∈ newShards, ∃ d, server.lockedData s = some d ∧
        KvServer.Copied (c.startAnswers s) (c.shardMap.nodesForShard s) node c.now d := by
  have hpeers : ∀ server : KvServer, server.nodeName = node →
      ∀ s ∈ KvServer.allShards c.shardMap, ∃ answer,
        Steady (c.startPeers (toInt32 s)) () answer (c.shardMap.nodesForShard s) ∧
        ∀ d, KvServer.Copied answer (c.shardMap.nodesForShard s) node c.now d →
          KvServer.Copied (c.startAnswers s) (c.shardMap.nodesForShard s) node c.now d :=
    fun _ _ s _ => ⟨c.startAnswers s, startPeers_steady hothers s _, fun _ hd => hd⟩
  obtain ⟨server, hmake, hname, hhosted, hdata⟩ :=
    KvServer.makeKvServer_steady hpeers hnodup hrange hrange'
  exact ⟨server, by simp [Cluster.start, hmake], hname, hhosted, hdata⟩

theorem Starting.copied (hmax : numShards ≤ 2 ^ 31 - 1) (h : Starting numShards st c) (hlo : 1 ≤ s)
    (hhi : s ≤ numShards) (hd : KvServer.Copied (c.startAnswers s) nodes node c.now d) :
    Holds c.now numShards (fun _ => none) s d := by
  cases hd with
  | inr hnone =>
    rw [hnone.1]
    exact Holds.empty _ _ _
  | inl hcopy =>
    obtain ⟨n, _, values, hv, hd⟩ := hcopy
    unfold startAnswers at hv
    by_cases hn : n ∈ c.members
    · rw [if_pos hn] at hv
      by_cases hsn : s ∈ (c.server n).hostedShards
      · obtain ⟨data, hdata, hholds⟩ := (h.serves n hn).getShardContents hmax hsn
        rw [hdata] at hv
        cases hv
        rw [hd]
        exact hholds.copy h.whole
      · rw [toInt32_eq hlo (by omega), getShardContents_notHosted hsn] at hv
        exact absurd hv (by simp)
    · rw [if_neg hn] at hv
      exact absurd hv (by simp)

theorem Starting.start (hmax : numShards ≤ 2 ^ 31 - 1) (hshards : st.numShards = numShards)
    (hv : st.isValid = true) (h : Starting numShards st c) (hnode : node ∉ c.members)
    {hosted : List Int} (hperm : hosted.Perm (st.shardsForNode node))
    (hperm' : newShards.Perm (st.shardsForNode node)) :
    ∃ c', c.start node hosted newShards = some c' ∧ c'.members = node :: c.members ∧
      Starting numShards st c' := by
  have hmem : ∀ s, s ∈ newShards ↔ node ∈ st.nodesForShard s := by
    intro s
    rw [hperm'.mem_iff, mem_shardsForNode]
  have hnodup : newShards.Nodup := hperm'.nodup_iff.mpr (shardsForNode_nodup hv node)
  have hrange' : ∀ s ∈ newShards, s ∈ KvServer.allShards c.shardMap := by
    intro s hs
    rw [KvServer.mem_allShards, h.shardMap]
    exact (isValid_nodesForShard hv ((hmem s).mp hs)).1
  have hrange : ∀ s ∈ hosted, s ∈ KvServer.allShards c.shardMap :=
    fun s hs => hrange' s (hperm'.mem_iff.mpr (hperm.mem_iff.mp hs))
  obtain ⟨server, hstart, hname, hhosted, hdata⟩ :=
    start_ready (fun n hn => (h.serves n hn).ready) node hosted newShards hnodup hrange hrange'
  have hserves : Serves c.now numShards (fun _ => none) server := by
    have hbound : ∀ s ∈ newShards, 1 ≤ s ∧ s ≤ numShards := by
      intro s hs
      have := hrange' s hs
      rwa [KvServer.mem_allShards, h.shardMap, hshards] at this
    refine ⟨hhosted ▸ hnodup, hhosted ▸ hbound, ?_⟩
    intro s hs
    rw [hhosted] at hs
    obtain ⟨d, hd, hcopied⟩ := hdata s hs
    exact ⟨d, hd, h.copied hmax (hbound s hs).1 (hbound s hs).2 hcopied⟩
  have hself := setServer_same c node server
  have hother : ∀ n ∈ c.members, (c.setServer node server).server n = c.server n := by
    intro n hn
    have hne : n ≠ node := fun heq => hnode (heq ▸ hn)
    exact setServer_other hne server
  refine ⟨{ c.setServer node server with members := node :: c.members },
    hstart, rfl, h.whole, h.shardMap, ?_, ?_, ?_, ?_⟩
  · exact List.nodup_cons.mpr ⟨hnode, h.nodup⟩
  · intro n hn
    cases List.mem_cons.mp hn with
    | inl heq => rw [heq, hself, hname]
    | inr hn => rw [hother n hn, h.name n hn]
  · intro n hn
    cases List.mem_cons.mp hn with
    | inl heq => rwa [heq, hself]
    | inr hn =>
      rw [hother n hn]
      exact h.serves n hn
  · intro n hn
    cases List.mem_cons.mp hn with
    | inl heq =>
      rw [heq, hself, hhosted]
      exact hmem
    | inr hn =>
      rw [hother n hn]
      exact h.hosts n hn

theorem Starting.startAll (hmax : numShards ≤ 2 ^ 31 - 1) (hshards : st.numShards = numShards)
    (hv : st.isValid = true) (order : List (String × List Int × List Int))
    (hnodup : (order.map Prod.fst).Nodup) (hperm : ∀ x ∈ order,
      x.2.1.Perm (st.shardsForNode x.1) ∧ x.2.2.Perm (st.shardsForNode x.1)) (c : Cluster)
    (hdisj : ∀ x ∈ order, x.1 ∉ c.members) (h : Starting numShards st c) :
    ∃ c', Cluster.startAll order c = some c' ∧ Starting numShards st c' ∧
      ∀ n, n ∈ c'.members ↔ n ∈ order.map Prod.fst ∨ n ∈ c.members := by
  induction order generalizing c with
  | nil => exact ⟨c, rfl, h, by simp⟩
  | cons x rest ih =>
    obtain ⟨node, hosted, newShards⟩ := x
    obtain ⟨hfresh, hnodup⟩ := List.nodup_cons.mp hnodup
    obtain ⟨hp, hp'⟩ := hperm _ List.mem_cons_self
    obtain ⟨c₁, hstart, hmembers, hc₁⟩ := h.start hmax hshards hv (hdisj _ List.mem_cons_self) hp hp'
    have hdisj₁ : ∀ y ∈ rest, y.1 ∉ c₁.members := by
      intro y hy hmem
      rw [hmembers] at hmem
      cases List.mem_cons.mp hmem with
      | inl heq => exact hfresh (heq ▸ List.mem_map_of_mem hy)
      | inr hmem => exact hdisj y (List.mem_cons_of_mem _ hy) hmem
    obtain ⟨c', hall, hc', hmem'⟩ :=
      ih hnodup (fun y hy => hperm y (List.mem_cons_of_mem _ hy)) c₁ hdisj₁ hc₁
    refine ⟨c', by simp [Cluster.startAll, hstart, hall], hc', ?_⟩
    intro n
    rw [hmem' n, hmembers, List.map_cons, List.mem_cons, List.mem_cons]
    tauto

theorem Starts.inv (hmax : numShards ≤ 2 ^ 31 - 1) (h : Starts numShards c) :
    Inv numShards (fun _ => none) c := by
  obtain ⟨now, st, order, hnow, hpos, hshards, hinst, hnodup, hperm, hall⟩ := h
  have hempty : Starting numShards st (empty now st) :=
    ⟨hnow, rfl, List.nodup_nil, by simp [empty], by simp [empty], by simp [empty]⟩
  obtain ⟨c', hall', hc', hmem⟩ := Starting.startAll hmax hshards hinst.valid order hnodup hperm
    (empty now st) (by simp [empty]) hempty
  obtain rfl : c = c' := Option.some.inj (hall.symm.trans hall')
  refine ⟨hc'.whole, hc'.shardMap ▸ hshards, hpos, ?_, hc'.nodup, hc'.name, hc'.serves, ?_⟩
  · rw [hc'.shardMap]
    exact hinst.mono fun n hn => (hmem n).mpr (Or.inl hn)
  · rw [hc'.shardMap]
    exact hc'.hosts

/-! ## 3. The refinement -/

theorem milliseconds_toMilliseconds {ttl : Int} (hdvd : 1000000 ∣ ttl) (hlo : -2 ^ 63 ≤ ttl)
    (hhi : ttl ≤ 2 ^ 63 - 1) : milliseconds (toMilliseconds ttl) = ttl := by
  have hms : toMilliseconds ttl * 1000000 = ttl := by
    unfold toMilliseconds
    exact Int.tdiv_mul_cancel hdvd
  rw [milliseconds_eq (by omega) (by omega), hms]

theorem Inv.set (h : Inv numShards m c) {value : String} {ttl : Int} {order : List String}
    (ha : c.Admissible (.set key value ttl order)) :
    ∃ server, c.perform (.set key value ttl order) = some (.wrote none, { c with server }) ∧
      Inv numShards (written c m (.set key value ttl order)) { c with server } := by
  obtain ⟨hkey, ⟨hdvd, hlo, hhi⟩, htargets⟩ := ha
  have hms := milliseconds_toMilliseconds hdvd hlo hhi
  have hwhole : Whole c.now ⟨value, c.now + milliseconds (toMilliseconds ttl)⟩ := by
    have := h.whole
    rw [hms]
    constructor <;> dsimp only <;> omega
  obtain ⟨server, hwrite, hinv⟩ : ∃ server,
      Kv.write (setCalls key value ttl) c.shardMap key order c = some (none, { c with server }) ∧
      Inv numShards (written c m (.set key value ttl order)) { c with server } := by
    apply h.write htargets
    intro n hn s hs hhosted
    obtain ⟨server', hset, hname, hh, hserves⟩ :=
      (h.shards ▸ h.serves n hn).set hkey (h.shards ▸ hs) hhosted hwhole
    refine ⟨server', ?_, hname, hh, ?_⟩
    · intro c' hnow hmap
      rw [hnow, hmap]
      exact hset
    · rw [hms, h.shards] at hserves
      exact hserves
  exact ⟨server, by simp [Cluster.perform, hwrite], hinv⟩

theorem Inv.sweep (h : Inv numShards m c) (node : String) :
    Inv numShards m (c.setServer node ((c.server node).sweep c.now)) := by
  -- names and hosted shards stay; the swept server serves as before
  have hserver : ∀ n, (c.setServer node ((c.server node).sweep c.now)).server n =
      if n = node then (c.server n).sweep c.now else c.server n := by
    intro n
    by_cases heq : n = node
    · subst heq
      simp [setServer]
    · simp [setServer, heq]
  refine ⟨h.whole, h.shards, h.pos, h.installed, h.nodup, ?_, ?_, ?_⟩
  · intro n hn
    rw [hserver, ← h.name n hn]
    split <;> simp [KvServer.sweep, h.name n hn]
  · intro n hn
    rw [hserver]
    split
    · exact (h.serves n hn).sweep
    · exact h.serves n hn
  · intro n hn s
    have hhosts := h.hosts n hn s
    rw [hserver]
    split <;> exact hhosts

theorem Inv.perform (hmax : numShards ≤ 2 ^ 31 - 1) (h : Inv numShards m c) {a : Action}
    (ha : c.Admissible a) :
    ∃ reply c', c.perform a = some (reply, c') ∧ Inv numShards (written c m a) c' := by
  cases a with
  | tick ms =>
    have hle : c.now ≤ c.now + ms * 1000000 := by omega
    have hwhole : 1000000 ∣ c.now + ms * 1000000 := by
      have := h.whole
      omega
    exact ⟨_, _, rfl, hwhole, h.shards, h.pos, h.installed, h.nodup, h.name,
      fun n hn => (h.serves n hn).later hle, h.hosts⟩
  | set key value ttl order =>
    obtain ⟨server, hset, hinv⟩ := h.set ha
    exact ⟨_, _, hset, hinv⟩
  | delete key order =>
    obtain ⟨hkey, htargets⟩ := ha
    obtain ⟨server, hwrite, hinv⟩ : ∃ server,
        Kv.write (deleteCalls key) c.shardMap key order c = some (none, { c with server }) ∧
        Inv numShards (written c m (.delete key order)) { c with server } := by
      apply h.write htargets
      intro n hn s hs hhosted
      obtain ⟨server', hdel, hname, hh, hserves⟩ :=
        (h.shards ▸ h.serves n hn).delete hkey (h.shards ▸ hs) hhosted
      refine ⟨server', ?_, hname, hh, h.shards ▸ hserves⟩
      intro c' _ hmap
      rw [hmap]
      exact hdel
    exact ⟨.wrote none, _, by simp [Cluster.perform, hwrite], hinv⟩
  | get key =>
    obtain ⟨kv, hget⟩ := h.get ha
    exact ⟨_, _, hget, h.whole, h.shards, h.pos, h.installed, h.nodup, h.name, h.serves, h.hosts⟩
  | sweep node => exact ⟨_, _, rfl, h.sweep node⟩
  | update st order =>
    obtain ⟨server, hupd, hinv⟩ := h.update hmax ha
    exact ⟨_, _, hupd, hinv⟩

theorem Inv.run (hmax : numShards ≤ 2 ^ 31 - 1) {past : List (Cluster × Action)}
    (hr : Run (Starts numShards) Step past c) : Inv numShards (lastWrite past) c := by
  induction hr with
  | start h => exact h.inv hmax
  | next _ hstep ih =>
    obtain ⟨ha, reply, hperform⟩ := hstep
    obtain ⟨reply', c', hperform', hinv⟩ := ih.perform hmax ha
    obtain ⟨_, rfl⟩ := Prod.mk.inj (Option.some.inj (hperform.symm.trans hperform'))
    exact hinv

/-- What a `Get` returns by the history of the run: the last write of the key, if it was a `Set`
whose TTL has not passed. -/
def expected (past : List (Cluster × Action)) (now : Int) (key : String) : String × Bool :=
  match lastWrite past key with
  | none => ("", false)
  | some v => if now ≤ v.timeExpire then (v.value, true) else ("", false)

theorem answerOf_live (past : List (Cluster × Action)) (now : Int) (key : String) :
    answerOf (live now (lastWrite past key)) = expected past now key := by
  unfold expected
  cases lastWrite past key with
  | none => rfl
  | some v =>
    by_cases hv : now ≤ v.timeExpire
    · rw [live_some hv]
      simp [answerOf, hv]
    · rw [live_expired (by omega)]
      simp [answerOf, hv]

/-! ### Clusters with one list of nodes for all shards -/

def uniformMap (numShards : Int) (nodes : List String) : ShardMapState where
  nodes := nodes
  shardsToNodes :=
    ⟨(List.range numShards.toNat).map fun i : Nat => ⟨(i : Int) + 1, nodes⟩, by
      unfold List.NodupKeys List.keys
      rw [List.map_map]
      apply List.Nodup.map _ List.nodup_range
      intro i j hij
      have hij : (i : Int) + 1 = j + 1 := hij
      omega⟩
  numShards := numShards

theorem uniformMap_nodes (hlo : 1 ≤ s) (hhi : s ≤ numShards) :
    (uniformMap numShards nodes).nodesForShard s = nodes := by
  have hentry : ⟨s, nodes⟩ ∈ (uniformMap numShards nodes).shardsToNodes.entries := by
    refine List.mem_map.mpr ⟨(s - 1).toNat, List.mem_range.mpr (by omega), ?_⟩
    rw [show (((s - 1).toNat : Nat) : Int) + 1 = s by omega]
  unfold ShardMapState.nodesForShard
  rw [show (uniformMap numShards nodes).shardsToNodes.lookup s = some nodes from
    AList.mem_lookup_iff.mpr hentry]
  rfl

theorem mem_uniformMap {n : String} (h : n ∈ (uniformMap numShards nodes).nodesForShard s) :
    n ∈ nodes ∧ 1 ≤ s ∧ s ≤ numShards := by
  by_cases hs : 1 ≤ s ∧ s ≤ numShards
  · rw [uniformMap_nodes hs.1 hs.2] at h
    exact ⟨h, hs⟩
  · unfold ShardMapState.nodesForShard at h
    cases hl : (uniformMap numShards nodes).shardsToNodes.lookup s with
    | none => simp [hl] at h
    | some l =>
      obtain ⟨i, hi, heq⟩ := List.mem_map.mp (AList.mem_lookup_iff.mp hl)
      have hi := List.mem_range.mp hi
      have heq : (i : Int) + 1 = s := congrArg Sigma.fst heq
      omega

theorem uniformMap_installed (hpos : 1 ≤ numShards) {members : List String} (hne : nodes ≠ [])
    (hnodup : nodes.Nodup) (hsub : ∀ n ∈ nodes, n ∈ members) :
    Installed members (uniformMap numShards nodes) where
  valid := by
    unfold ShardMapState.isValid ShardMapState.validNodes uniformMap
    simp only [List.length_map, List.length_range, List.all_map, Bool.and_eq_true,
      List.all_eq_true, Function.comp_apply, Bool.not_eq_true', decide_eq_false_iff_not,
      decide_eq_true_eq, List.contains_iff_mem, List.mem_range]
    refine ⟨by omega, ?_⟩
    intro i hi
    exact ⟨by omega, fun n hn => hn, hnodup⟩
  nonempty s hlo hhi := by
    have hhi : s ≤ numShards := hhi
    rw [uniformMap_nodes hlo hhi]
    exact hne
  members s n hn := hsub n (mem_uniformMap hn).1

/-- The cluster refines a map with expiry: no step fails, and every `Get` returns what the history
of writes says. -/
theorem cache_refines_map {numShards : Int} (hmax : numShards ≤ 2 ^ 31 - 1)
    {past : List (Cluster × Action)} {c : Cluster} (hr : Run (Starts numShards) Step past c) :
    (∀ a, c.Admissible a → ∃ reply c', c.perform a = some (reply, c')) ∧
      ∀ key, key ≠ "" → ∃ c',
        c.perform (.get key) = some (.got (.ok (expected past c.now key)), c') := by
  have hinv := Inv.run hmax hr
  constructor
  · intro a ha
    obtain ⟨reply, c', hperform, _⟩ := hinv.perform hmax ha
    exact ⟨reply, c', hperform⟩
  · intro key hkey
    obtain ⟨kv, hget⟩ := hinv.get hkey
    rw [answerOf_live] at hget
    exact ⟨_, hget⟩

theorem exists_starts (hpos : 1 ≤ numShards) : ∃ c, Starts numShards c ∧ c.now = 0 ∧
    c.shardMap = uniformMap numShards ["a"] ∧ c.members = ["a", "b"] ∧ c.kv = makeKv ∧
    (c.server "a").Ready ∧ (c.server "b").hostedShards = [] ∧
    ∀ s, 1 ≤ s → s ≤ numShards → s ∈ (c.server "a").hostedShards := by
  have hinst : Installed ["b", "a"] (uniformMap numShards ["a"]) :=
    uniformMap_installed hpos (by decide) (by decide) (by decide)
  have hb : (uniformMap numShards ["a"]).shardsForNode "b" = [] := by
    apply List.eq_nil_iff_forall_not_mem.mpr
    intro s hs
    have := (mem_uniformMap (mem_shardsForNode.mp hs)).1
    exact absurd this (by decide)
  have hrange : ∀ s ∈ (uniformMap numShards ["a"]).shardsForNode "a",
      s ∈ KvServer.allShards (uniformMap numShards ["a"]) := by
    intro s hs
    exact KvServer.mem_allShards.mpr (mem_uniformMap (mem_shardsForNode.mp hs)).2
  -- the server without shards is made first
  obtain ⟨c₀, hc₀⟩ : ∃ c₀, c₀ = empty 0 (uniformMap numShards ["a"]) := ⟨_, rfl⟩
  have hmem₀ : c₀.members = [] := by rw [hc₀]; rfl
  have hmap₀ : c₀.shardMap = uniformMap numShards ["a"] := by rw [hc₀]; rfl
  obtain ⟨serverB, hstartB, _, hhostedB, _⟩ :=
    start_ready (c := c₀) (by simp [hmem₀]) "b" [] [] List.nodup_nil (by simp) (by simp)
  obtain ⟨c₁, hc₁⟩ : ∃ c₁, c₁ = { c₀.setServer "b" serverB with members := "b" :: c₀.members } :=
    ⟨_, rfl⟩
  have hserver₁ : c₁.server "b" = serverB := by
    rw [hc₁]
    exact setServer_same c₀ "b" serverB
  have hready₁ : ∀ n ∈ c₁.members, (c₁.server n).Ready := by
    intro n hn
    rw [hc₁, hmem₀] at hn
    rw [List.mem_singleton.mp hn, hserver₁]
    intro s hs
    rw [hhostedB] at hs
    exact absurd hs List.not_mem_nil
  have hmap₁ : c₁.shardMap = uniformMap numShards ["a"] := by rw [hc₁]; exact hmap₀
  obtain ⟨serverA, hstartA, _, hhostedA, hdataA⟩ := start_ready hready₁ "a"
    ((uniformMap numShards ["a"]).shardsForNode "a") ((uniformMap numShards ["a"]).shardsForNode "a")
    (shardsForNode_nodup hinst.valid "a") (hmap₁ ▸ hrange) (hmap₁ ▸ hrange)
  refine ⟨{ c₁.setServer "a" serverA with members := "a" :: c₁.members }, ?_, ?_, hmap₁, ?_, ?_, ?_,
    ?_, ?_⟩
  · refine ⟨0, uniformMap numShards ["a"],
      [("b", [], []), ("a", (uniformMap numShards ["a"]).shardsForNode "a",
        (uniformMap numShards ["a"]).shardsForNode "a")], by decide, hpos, rfl, hinst,
      (by decide : ["b", "a"].Nodup), ?_, ?_⟩
    · intro x hx
      cases List.mem_cons.mp hx with
      | inl heq =>
        rw [heq, hb]
        exact ⟨List.Perm.refl _, List.Perm.refl _⟩
      | inr hx =>
        rw [List.mem_singleton.mp hx]
        exact ⟨List.Perm.refl _, List.Perm.refl _⟩
    · rw [startAll, ← hc₀, hstartB, ← hc₁]
      simp [startAll, hstartA]
  · rw [hc₁, hc₀]
    rfl
  · rw [hc₁, hc₀]
    rfl
  · rw [hc₁, hc₀]
    rfl
  · rw [setServer_same]
    intro s hs
    rw [hhostedA] at hs
    obtain ⟨d, hd, _⟩ := hdataA s hs
    exact ⟨d, hd⟩
  · rw [setServer_other (by decide), hserver₁, hhostedB]
  · intro s hlo hhi
    rw [setServer_same, hhostedA, mem_shardsForNode, uniformMap_nodes hlo hhi]
    decide

def joined (numShards : Int) : Action :=
  .update (uniformMap numShards ["b", "a"])
    [("a", (uniformMap numShards ["b", "a"]).shardsForNode "a"),
      ("b", (uniformMap numShards ["b", "a"]).shardsForNode "b")]

theorem joined_admissible (hpos : 1 ≤ numShards) (hmap : c.shardMap = uniformMap numShards ["a"])
    (hmembers : c.members = ["a", "b"]) : c.Admissible (joined numShards) := by
  refine ⟨?_, by rw [hmap]; rfl, ?_, by rw [hmembers]; exact List.Perm.refl _, ?_⟩
  · rw [hmembers]
    exact uniformMap_installed hpos (by decide) (by decide) (by decide)
  · intro s hlo hhi
    have hhi : s ≤ numShards := hhi
    rw [hmap, uniformMap_nodes hlo hhi, uniformMap_nodes hlo hhi]
    exact ⟨"a", by decide, by decide⟩
  · intro x hx
    cases List.mem_cons.mp hx with
    | inl heq =>
      rw [heq]
    | inr hx =>
      rw [List.mem_singleton.mp hx]

theorem set_admissible (hpos : 1 ≤ numShards) (hmap : c.shardMap = uniformMap numShards ["a"])
    (hkey : key ≠ "") (value : String) :
    c.Admissible (.set key value 1000000000 ["a"]) := by
  refine ⟨hkey, by decide, ?_⟩
  obtain ⟨s, hs, hlo, hhi⟩ := getShardForKey_range hpos key
  refine ⟨s, by rw [hmap]; exact hs, ?_⟩
  rw [hmap, uniformMap_nodes hlo hhi]

theorem expected_joined (c₀ c₁ : Cluster) (key : String) (order : List String)
    (hnow : c₁.now = c₀.now) :
    expected [(c₁, joined numShards), (c₀, .set key "v" 1000000000 order)] c₁.now key =
      ("v", true) := by
  have hlast : lastWrite [(c₁, joined numShards), (c₀, .set key "v" 1000000000 order)] key =
      some ⟨"v", c₀.now + 1000000000⟩ := by
    exact update_self key (some (⟨"v", c₀.now + 1000000000⟩ : ValueWithTtl)) fun _ => none
  rw [expected, hlast]
  exact if_pos (by dsimp only; omega)

/-- One shard, written while one node hosts it and read after a second node has joined. -/
theorem cache_refines_map_moved : ∃ past c c', Run (Starts 1) Step past c ∧ past.length = 2 ∧
    c.perform (.get "k") = some (.got (.ok ("v", true)), c') := by
  have hpos : (1 : Int) ≤ 1 := by decide
  have hmax : (1 : Int) ≤ 2 ^ 31 - 1 := by decide
  obtain ⟨c₀, hstart, _, hmap, hmembers, _⟩ := exists_starts hpos
  have hinv₀ := hstart.inv hmax
  have hset := set_admissible (c := c₀) hpos hmap (by decide : "k" ≠ "") "v"
  obtain ⟨server₁, hperform₁, hinv₁⟩ := hinv₀.set hset
  obtain ⟨c₁, hc₁⟩ : ∃ c₁, c₁ = { c₀ with server := server₁ } := ⟨_, rfl⟩
  rw [← hc₁] at hperform₁ hinv₁
  have hjoin : c₁.Admissible (joined 1) :=
    joined_admissible hpos (by rw [hc₁]; exact hmap) (by rw [hc₁]; exact hmembers)
  obtain ⟨server₂, hperform₂, _⟩ := hinv₁.update hmax hjoin
  have hstep₁ : Step c₀ (.set "k" "v" 1000000000 ["a"]) c₁ := ⟨hset, _, hperform₁⟩
  have hstep₂ : Step c₁ (joined 1) _ := ⟨hjoin, _, hperform₂⟩
  have hr := Run.next (Run.next (Run.start hstart) hstep₁) hstep₂
  obtain ⟨c', hget⟩ := (cache_refines_map hmax hr).2 "k" (by decide)
  refine ⟨_, _, c', hr, rfl, ?_⟩
  rw [← expected_joined c₀ c₁ "k" ["a"] (by rw [hc₁])]
  exact hget

theorem set_first (hkey : key ≠ "") (hpos : 1 ≤ numShards)
    (hshard : getShardForKey key numShards = some numShards)
    (hmap : c.shardMap = uniformMap numShards ["a"]) (hready : (c.server "a").Ready)
    (hhosted : numShards ∈ (c.server "a").hostedShards) :
    ∃ server, c.perform (.set key "v" 1000000000 ["a"]) = some (.wrote none, { c with server }) ∧
      (server "a").Ready ∧ server "b" = c.server "b" := by
  obtain ⟨data, hdata⟩ := hready numShards hhosted
  have hshard' : getShardForKey key c.shardMap.numShards = some numShards := by
    rw [hmap]
    exact hshard
  obtain ⟨serverA, hserverA⟩ : ∃ serverA, serverA = (c.server "a").setData numShards
      (data.insert key ⟨"v", c.now + milliseconds (toMilliseconds 1000000000)⟩) := ⟨_, rfl⟩
  have hreadyA : serverA.Ready := by
    intro s hs
    rw [hserverA] at hs ⊢
    by_cases hsN : s = numShards
    · rw [hsN]
      exact ⟨_, KvServer.lockedData_setData_self _ _ hdata⟩
    · rw [KvServer.lockedData_setData_ne _ _ hsN]
      exact hready s hs
  have hfan := fanOut_calls
    (fun c server => server.set c.shardMap c.now key "v" (toMilliseconds 1000000000))
    (fun _ => serverA) ["a"] (by decide) c (by
      intro n hn c' hnow' hmap'
      rw [List.mem_singleton.mp hn, KvServer.set, hmap', route_hosted hkey hshard' hhosted, hserverA,
        hnow']
      simp [hdata])
  have hne : c.shardMap.nodesForShard numShards ≠ [] := by
    rw [hmap, uniformMap_nodes hpos (le_refl _)]
    decide
  exact ⟨fun n => if n ∈ ["a"] then serverA else c.server n,
    by simp [perform, Kv.write, hshard', hne, setCalls, hfan], hreadyA, rfl⟩

theorem copied_truncated (hpos : 1 ≤ numShards) (hneg : toInt32 numShards ≤ 0)
    (hmap : c.shardMap = uniformMap numShards ["b", "a"])
    (hA : ∀ s ∈ (c.server "a").hostedShards, 1 ≤ s) {server₁ : KvServer}
    (hhosted : server₁.hostedShards = []) {name : String}
    (hd : KvServer.Copied (c.answers "b" server₁ numShards) (c.shardMap.nodesForShard numShards)
      name c.now d) : d = ∅ := by
  cases hd with
  | inr hnone => exact hnone.1
  | inl hcopy =>
    exfalso
    obtain ⟨n, hn, values, hv, _⟩ := hcopy
    rw [hmap, uniformMap_nodes hpos (le_refl _)] at hn
    have hout : toInt32 numShards ∉ (Function.update c.server "b" server₁ n).hostedShards := by
      intro hmem
      by_cases heq : n = "b"
      · rw [heq, update_self, hhosted] at hmem
        exact absurd hmem List.not_mem_nil
      · have hna : n = "a" := List.mem_singleton.mp ((List.mem_cons.mp hn).resolve_left heq)
        rw [update_of_ne heq, hna] at hmem
        have := hA _ hmem
        omega
    rw [answers, getShardContents_notHosted hout] at hv
    exact absurd hv (by simp)

theorem join_second (hpos : 1 ≤ numShards) (hneg : toInt32 numShards ≤ 0)
    (hmembers : c.members = ["a", "b"]) (hready : (c.server "a").Ready)
    (hhosted : (c.server "b").hostedShards = []) :
    ∃ server, c.perform (joined numShards) =
        some (.none, { c with shardMap := uniformMap numShards ["b", "a"], server }) ∧
      numShards ∈ (server "b").hostedShards ∧ (server "b").lockedData numShards = some ∅ := by
  obtain ⟨c₂, hc₂⟩ : ∃ c₂ : Cluster, c₂ = { c with shardMap := uniformMap numShards ["b", "a"] } :=
    ⟨_, rfl⟩
  have hserver₂ : c₂.server = c.server := by rw [hc₂]
  have hmap₂ : c₂.shardMap = uniformMap numShards ["b", "a"] := by rw [hc₂]
  have hmembers₂ : c₂.members = ["a", "b"] := by
    rw [hc₂]
    exact hmembers
  have hready₂ : ∀ n ∈ c₂.members, (c₂.server n).Ready := by
    intro n hn
    rw [hmembers₂] at hn
    rw [hserver₂]
    cases List.mem_cons.mp hn with
    | inl heq => rwa [heq]
    | inr hn =>
      rw [List.mem_singleton.mp hn]
      intro s hs
      rw [hhosted] at hs
      exact absurd hs List.not_mem_nil
  have hinst : Installed c₂.members (uniformMap numShards ["b", "a"]) := by
    rw [hmembers₂]
    exact uniformMap_installed hpos (by decide) (by decide) (by decide)
  obtain ⟨serverA, hupdA, _, hhostedA, hreadyA, _⟩ := updateServer_ready hready₂
    (hmap₂ ▸ hinst.members) (hmembers₂ ▸ (by decide : "a" ∈ ["a", "b"]))
    (shardsForNode_nodup hinst.valid "a")
  obtain ⟨c₃, hc₃⟩ : ∃ c₃, c₃ = c₂.setServer "a" serverA := ⟨_, rfl⟩
  have hA₃ : c₃.server "a" = serverA := by rw [hc₃, setServer_same]
  have hB₃ : (c₃.server "b").hostedShards = [] := by
    rw [hc₃, setServer_other (by decide), hserver₂, hhosted]
  have hready₃ : ∀ n ∈ c₃.members, (c₃.server n).Ready := by
    intro n hn
    have hn : n ∈ c₂.members := by rwa [hc₃] at hn
    by_cases heq : n = "a"
    · rwa [heq, hA₃]
    · rw [hc₃, setServer_other heq]
      exact hready₂ n hn
  have hmap₃ : c₃.shardMap = uniformMap numShards ["b", "a"] := by
    rw [hc₃]
    exact hmap₂
  have hmembers₃ : c₃.members = c₂.members := by rw [hc₃]; rfl
  obtain ⟨serverB, hupdB, _, hhostedB, _, hadded, _⟩ := updateServer_ready hready₃
    (hmap₃ ▸ hmembers₃ ▸ hinst.members)
    (hmembers₃ ▸ hmembers₂ ▸ (by decide : "b" ∈ ["a", "b"])) (shardsForNode_nodup hinst.valid "b")
  have hNb : numShards ∈ (uniformMap numShards ["b", "a"]).shardsForNode "b" := by
    rw [mem_shardsForNode, uniformMap_nodes hpos (le_refl _)]
    decide
  have hA : ∀ s ∈ (c₃.server "a").hostedShards, 1 ≤ s := by
    intro s hs
    rw [hA₃, hhostedA] at hs
    exact (mem_uniformMap (mem_shardsForNode.mp hs)).2.1
  obtain ⟨d, hd, server₁, hhosted₁, hcopied⟩ :=
    hadded numShards hNb (hB₃ ▸ List.not_mem_nil)
  rw [copied_truncated hpos hneg hmap₃ hA (hhosted₁.trans hB₃) hcopied] at hd
  refine ⟨(c₃.setServer "b" serverB).server, ?_, ?_, ?_⟩
  · rw [← hc₃] at hupdA
    unfold joined perform
    simp only [updateServers, ← hc₂, hupdA, hupdB, Option.bind_eq_bind, Option.bind_some]
    rw [hc₃, hc₂]
    rfl
  · rw [setServer_same, hhostedB]
    exact hNb
  · rw [setServer_same, hd]

theorem get_second (hkey : key ≠ "") (hpos : 1 ≤ numShards)
    (hshard : getShardForKey key numShards = some numShards)
    (hmap : c.shardMap = uniformMap numShards ["b", "a"]) (hkv : c.kv = makeKv)
    (hhosted : numShards ∈ (c.server "b").hostedShards)
    (hdata : (c.server "b").lockedData numShards = some ∅) :
    ∃ c', c.perform (.get key) = some (.got (.ok ("", false)), c') := by
  have hshard' : getShardForKey key c.shardMap.numShards = some numShards := by
    rw [hmap]
    exact hshard
  have hnodes : c.shardMap.nodesForShard numShards = ["b", "a"] := by
    rw [hmap, uniformMap_nodes hpos (le_refl _)]
  have hget : (c.server "b").get c.shardMap c.now key = some (.ok ("", false)) := by
    rw [KvServer.get, route_hosted hkey hshard' hhosted]
    simp [hdata]
  refine ⟨{ c with kv := ⟨Function.update makeKv.nodeInds numShards 1⟩ }, ?_⟩
  simp [perform, Kv.get, hshard', hnodes, hkv, makeKv, failover, chooseClient, getCalls, calls,
    hget, setServer_self]

/-- With more than `2 ^ 31` shards a value that was set can be lost when a node joins. -/
theorem cache_loses_truncated_shard : ∃ numShards past c c', 1 ≤ numShards ∧
    Run (Starts numShards) Step past c ∧
    c.perform (.get "hello") = some (.got (.ok ("", false)), c') ∧
    expected past c.now "hello" = ("v", true) := by
  have hhash : (fnv32 "hello".toUTF8).toNat = 3069866343 := by decide
  have hshard : getShardForKey "hello" 3069866344 = some 3069866344 := by
    rw [getShardForKey, hhash]
    decide
  obtain ⟨c₀, hstart, _, hmap, hmembers, hkv, hready, hhostedB, hhosted⟩ :=
    exists_starts (by decide : (1 : Int) ≤ 3069866344)
  have hset := set_admissible (c := c₀) (by decide) hmap (by decide : "hello" ≠ "") "v"
  obtain ⟨server₁, hperform₁, hready₁, hB₁⟩ := set_first (by decide) (by decide) hshard hmap hready
    (hhosted 3069866344 (by decide) (by decide))
  have hjoin : ({ c₀ with server := server₁ } : Cluster).Admissible (joined 3069866344) :=
    joined_admissible (by decide) hmap hmembers
  obtain ⟨server₂, hperform₂, hhosted₂, hdata₂⟩ := join_second
    (c := { c₀ with server := server₁ }) (by decide : (1 : Int) ≤ 3069866344) (by decide) hmembers
    hready₁
    ((congrArg KvServer.hostedShards hB₁).trans hhostedB)
  have hstep₁ : Step c₀ (.set "hello" "v" 1000000000 ["a"]) { c₀ with server := server₁ } :=
    ⟨hset, _, hperform₁⟩
  have hstep₂ : Step { c₀ with server := server₁ } (joined 3069866344) _ := ⟨hjoin, _, hperform₂⟩
  obtain ⟨c', hget⟩ := get_second (by decide : "hello" ≠ "") (by decide) hshard
    (c := { c₀ with shardMap := uniformMap 3069866344 ["b", "a"], server := server₂ }) rfl hkv
    hhosted₂ hdata₂
  exact ⟨3069866344, _, _, c', by decide, Run.next (Run.next (Run.start hstart) hstep₁) hstep₂, hget,
    expected_joined c₀ { c₀ with server := server₁ } "hello" ["a"] rfl⟩

end Steps

end ShardedKv.Cluster
