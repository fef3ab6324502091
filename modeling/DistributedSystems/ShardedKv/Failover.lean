import DistributedSystems.ShardedKv.Client

/-!
# Failover

The search for an answering node on a network where the outcome of a call is any function of the
calls before it.  The network keeps the calls in order, and `Searched` says what a search over
distinct nodes can look like.
-/

namespace ShardedKv

variable {α : Type}

/-! ## 1. Calls and their outcomes -/

/-- One call with its outcome: `GetClient`, or the RPC. -/
inductive Event (α : Type) where
  | client (node : String) (err : Option KvError)
  | rpc (node : String) (response : Except KvError α)

/-- The outcome of a call to a node, given the calls before it. -/
structure Outcomes (α : Type) where
  client : List (Event α) → String → Option KvError
  response : List (Event α) → String → Except KvError α

def Outcomes.network (O : Outcomes α) : Network (List (Event α)) α where
  getClient node h := some (O.client h node, h ++ [.client node (O.client h node)])
  rpc node h := some (O.response h node, h ++ [.rpc node (O.response h node)])

theorem network_rpc (O : Outcomes α) (node : String) (h : List (Event α)) :
    O.network.rpc node h = some (O.response h node, h ++ [.rpc node (O.response h node)]) := rfl

def Event.sent : Event α → Option String
  | .client _ _ => none
  | .rpc node _ => some node

def sentTo (h : List (Event α)) : List String := h.filterMap Event.sent

def AllFailed (h : List (Event α)) : Prop := ∀ node v, Event.rpc node (.ok v) ∉ h

def failedPass (errs : List (String × KvError)) : List (Event α) :=
  errs.map fun x => .client x.1 (some x.2)

variable {nodes : List String} {h : List (Event α)} {node : String}

theorem mem_sentTo : node ∈ sentTo h ↔ ∃ r, Event.rpc node r ∈ h := by
  unfold sentTo
  rw [List.mem_filterMap]
  constructor
  · intro hx
    obtain ⟨x, hx, hsent⟩ := hx
    cases x with
    | client n err => exact absurd hsent (by simp [Event.sent])
    | rpc n r =>
      rw [← Option.some.inj hsent]
      exact ⟨r, hx⟩
  · intro hr
    obtain ⟨r, hr⟩ := hr
    exact ⟨_, hr, rfl⟩

theorem sentTo_append (h h' : List (Event α)) : sentTo (h ++ h') = sentTo h ++ sentTo h' :=
  List.filterMap_append

theorem sentTo_failedPass (errs : List (String × KvError)) :
    sentTo (failedPass errs : List (Event α)) = [] := by
  unfold sentTo failedPass
  rw [List.filterMap_map]
  exact List.filterMap_eq_nil_iff.mpr fun x _ => rfl

theorem not_mem_failedPass_client (errs : List (String × KvError)) (node : String) :
    Event.client node none ∉ (failedPass errs : List (Event α)) := by
  simp [failedPass]

theorem allFailed_of_sentTo (hnil : sentTo h = []) : AllFailed h := by
  intro node v hmem
  have hsent : node ∈ sentTo h := mem_sentTo.mpr ⟨_, hmem⟩
  rw [hnil] at hsent
  exact absurd hsent List.not_mem_nil

theorem allFailed_append {h' : List (Event α)} (hh : AllFailed h) (hh' : AllFailed h') :
    AllFailed (h ++ h') := fun node v hmem =>
  (List.mem_append.mp hmem).elim (hh node v) (hh' node v)

/-- A client is found after some that are missing, and the RPC is made. -/
def attempt (errs : List (String × KvError)) (node : String) (r : Except KvError α) :
    List (Event α) :=
  failedPass errs ++ [.client node none, .rpc node r]

theorem sentTo_attempt (errs : List (String × KvError)) (node : String) (r : Except KvError α) :
    sentTo (attempt errs node r) = [node] := by
  unfold attempt
  rw [sentTo_append, sentTo_failedPass]
  rfl

theorem client_mem_attempt (errs : List (String × KvError)) (node n : String)
    (r : Except KvError α) : Event.client n none ∈ attempt errs node r ↔ n = node := by
  simp [attempt, failedPass]

theorem allFailed_attempt (errs : List (String × KvError)) (node : String) (e : KvError) :
    AllFailed (attempt errs node (.error e) : List (Event α)) := by
  intro n v
  simp [attempt, failedPass]

/-! ## 2. A search -/

structure Searched (nodes : List String) (r : Except KvError α) (h : List (Event α)) : Prop where
  once : (sentTo h).Nodup
  among : ∀ node ∈ sentTo h, node ∈ nodes
  clients : ∀ node, Event.client node none ∈ h ↔ node ∈ sentTo h
  answered : ∀ v, r = .ok v → ∃ pre node, h = pre ++ [.rpc node (.ok v)] ∧ AllFailed pre
  exhausted : ∀ e, r = .error e → AllFailed h ∧
    ∃ pre errs, h = pre ++ failedPass errs ∧
      errs.map Prod.fst = nodes.filter fun node => node ∉ sentTo h

theorem Searched.found (hmem : node ∈ nodes) (v : α) (errs : List (String × KvError)) :
    Searched nodes (.ok v) (attempt errs node (.ok v)) where
  once := by
    rw [sentTo_attempt]
    exact List.nodup_singleton node
  among n hn := by
    rw [sentTo_attempt, List.mem_singleton] at hn
    rwa [hn]
  clients n := by rw [client_mem_attempt, sentTo_attempt, List.mem_singleton]
  answered u hu := by
    cases hu
    refine ⟨failedPass errs ++ [.client node none], node, by simp [attempt], ?_⟩
    refine allFailed_append (allFailed_of_sentTo (sentTo_failedPass errs)) ?_
    exact allFailed_of_sentTo rfl
  exhausted e he := nomatch he

theorem Searched.unavailable (e : KvError) (before : List (String × KvError))
    {errs : List (String × KvError)} (hpass : errs.map Prod.fst = nodes) :
    Searched nodes (.error e) (failedPass before ++ failedPass errs : List (Event α)) := by
  have hnone : sentTo (failedPass before ++ failedPass errs : List (Event α)) = [] := by
    rw [sentTo_append, sentTo_failedPass, sentTo_failedPass, List.append_nil]
  refine ⟨?_, ?_, ?_, fun v hv => (nomatch hv), fun e' _ => ⟨allFailed_of_sentTo hnone, ?_⟩⟩
  · rw [hnone]
    exact List.nodup_nil
  · rw [hnone]
    exact fun n hn => absurd hn List.not_mem_nil
  · intro n
    rw [hnone, List.mem_append]
    simp [not_mem_failedPass_client]
  · refine ⟨failedPass before, errs, rfl, ?_⟩
    rw [hpass, hnone]
    simp

theorem Searched.nothing (e : KvError) : Searched [] (.error e) ([] : List (Event α)) :=
  Searched.unavailable e [] (List.map_nil : [].map Prod.fst = [])

theorem Searched.missed {r : Except KvError α} (hnodup : nodes.Nodup) (hmem : node ∈ nodes)
    (e : KvError) (errs : List (String × KvError)) (hs : Searched (removeNode nodes node) r h) :
    Searched nodes r (attempt errs node (.error e) ++ h) := by
  have hsent : sentTo (attempt errs node (.error e) ++ h) = node :: sentTo h := by
    rw [sentTo_append, sentTo_attempt, List.singleton_append]
  have hother : ∀ n ∈ sentTo h, n ∈ nodes ∧ n ≠ node := by
    intro n hn
    have hrest := hs.among n hn
    unfold removeNode at hrest
    rw [hnodup.mem_erase_iff] at hrest
    exact ⟨hrest.2, hrest.1⟩
  refine ⟨?_, ?_, ?_, ?_, ?_⟩
  · rw [hsent, List.nodup_cons]
    exact ⟨fun hn => (hother node hn).2 rfl, hs.once⟩
  · rw [hsent]
    intro n hn
    rcases List.mem_cons.mp hn with rfl | hn
    · exact hmem
    · exact (hother n hn).1
  · intro n
    rw [hsent, List.mem_append, client_mem_attempt, hs.clients, List.mem_cons]
  · intro v hv
    obtain ⟨pre, n, rfl, hpre⟩ := hs.answered v hv
    refine ⟨attempt errs node (.error e) ++ pre, n, (List.append_assoc _ _ _).symm, ?_⟩
    exact allFailed_append (allFailed_attempt errs node e) hpre
  · intro e' he'
    obtain ⟨hfailed, pre, errs', hh, hpass⟩ := hs.exhausted e' he'
    refine ⟨allFailed_append (allFailed_attempt errs node e) hfailed,
      attempt errs node (.error e) ++ pre, errs', by rw [List.append_assoc, ← hh], ?_⟩
    -- the nodes without an RPC are the same as in the rest of the search
    rw [hpass, hsent]
    unfold removeNode
    rw [hnodup.erase_eq_filter, List.filter_filter]
    apply List.filter_congr
    intro n _
    by_cases hn : n = node
    · simp [hn]
    · simp [hn]

/-! ## 3. The retry loop -/

variable (O : Outcomes α)

theorem getUsableClient_trace (nodes : List String) (h : List (Event α)) :
    (∃ node ∈ nodes, ∃ errs, getUsableClient O.network nodes h =
        some (.ok node, h ++ failedPass errs ++ [.client node none])) ∨
      ∃ errs, getUsableClient O.network nodes h =
        some (.error .noAvailableNodes, h ++ failedPass errs) ∧ errs.map Prod.fst = nodes := by
  induction nodes generalizing h with
  | nil => exact Or.inr ⟨[], by simp [getUsableClient, failedPass], rfl⟩
  | cons node nodes ih =>
    cases hclient : O.client h node with
    | none =>
      refine Or.inl ⟨node, List.mem_cons_self, [], ?_⟩
      simp [getUsableClient, Outcomes.network, hclient, failedPass]
    | some err =>
      have hnext : getUsableClient O.network (node :: nodes) h =
          getUsableClient O.network nodes (h ++ [.client node (some err)]) := by
        simp [getUsableClient, Outcomes.network, hclient]
      have happend : ∀ errs, h ++ [.client node (some err)] ++ failedPass errs =
          h ++ failedPass ((node, err) :: errs) := by
        intro errs
        rw [List.append_assoc]
        rfl
      rw [hnext]
      rcases ih (h ++ [.client node (some err)]) with ⟨n, hn, errs, hr⟩ | ⟨errs, hr, hpass⟩
      · refine Or.inl ⟨n, List.mem_cons_of_mem node hn, (node, err) :: errs, ?_⟩
        rw [hr, happend]
      · refine Or.inr ⟨(node, err) :: errs, ?_, ?_⟩
        · rw [hr, happend]
        · rw [List.map_cons, hpass]

theorem attempt_append (h : List (Event α)) (errs : List (String × KvError)) (node : String)
    (r : Except KvError α) :
    h ++ failedPass errs ++ [.client node none] ++ [.rpc node r] = h ++ attempt errs node r := by
  simp [attempt]

theorem retry_trace {fuel : Nat} (hnodup : nodes.Nodup) (hfuel : nodes.length ≤ fuel)
    (err2 : KvError) (h : List (Event α)) :
    ∃ r h', retry O.network fuel err2 nodes h = some (r, h ++ h') ∧ Searched nodes r h' := by
  induction fuel generalizing nodes err2 h with
  | zero =>
    obtain rfl : nodes = [] := List.eq_nil_of_length_eq_zero (Nat.le_zero.mp hfuel)
    exact ⟨.error err2, [], by simp [retry], Searched.nothing err2⟩
  | succ fuel ih =>
    by_cases hnil : nodes = []
    · subst hnil
      exact ⟨.error err2, [], by simp [retry], Searched.nothing err2⟩
    · unfold retry
      rw [if_neg hnil]
      rcases getUsableClient_trace O nodes h with ⟨node, hmem, errs, hr⟩ | ⟨errs, hr, hpass⟩
      · simp only [hr, Option.bind_eq_bind, Option.bind_some, network_rpc, attempt_append]
        cases hresponse : O.response (h ++ failedPass errs ++ [.client node none]) node with
        | ok v => exact ⟨.ok v, _, rfl, Searched.found hmem v errs⟩
        | error e =>
          have hlen : (removeNode nodes node).length ≤ fuel := by
            have herase : (nodes.erase node).length = nodes.length - 1 :=
              List.length_erase_of_mem hmem
            unfold removeNode
            omega
          obtain ⟨r, h', hr', hs⟩ := ih (hnodup.erase node) hlen e
            (h ++ attempt errs node (.error e))
          refine ⟨r, attempt errs node (.error e) ++ h', ?_, hs.missed hnodup hmem e errs⟩
          rw [← List.append_assoc]
          exact hr'
      · simp only [hr, Option.bind_eq_bind, Option.bind_some]
        exact ⟨_, failedPass errs, rfl, Searched.unavailable .noAvailableNodes [] hpass⟩

theorem chooseClient_trace {first : String} (hfirst : first ∈ nodes) (h : List (Event α)) :
    (∃ node ∈ nodes, ∃ errs, chooseClient O.network nodes first h =
        some (.ok node, h ++ failedPass errs ++ [.client node none])) ∨
      ∃ before errs, chooseClient O.network nodes first h =
        some (.error .noAvailableNodes, h ++ (failedPass before ++ failedPass errs)) ∧
        errs.map Prod.fst = nodes := by
  cases hclient : O.client h first with
  | none =>
    refine Or.inl ⟨first, hfirst, [], ?_⟩
    simp [chooseClient, Outcomes.network, hclient, failedPass]
  | some err =>
    have hnext : chooseClient O.network nodes first h =
        getUsableClient O.network nodes (h ++ [.client first (some err)]) := by
      simp [chooseClient, Outcomes.network, hclient]
    rw [hnext]
    rcases getUsableClient_trace O nodes (h ++ [.client first (some err)]) with
      ⟨node, hmem, errs, hr⟩ | ⟨errs, hr, hpass⟩
    · refine Or.inl ⟨node, hmem, (first, err) :: errs, ?_⟩
      rw [hr]
      simp [failedPass]
    · refine Or.inr ⟨[(first, err)], errs, ?_, hpass⟩
      rw [hr]
      simp [failedPass]

theorem failover_trace (hnodup : nodes.Nodup) {first : String} (hfirst : first ∈ nodes)
    (h : List (Event α)) :
    ∃ r h', failover O.network nodes first h = some (r, h ++ h') ∧ Searched nodes r h' := by
  unfold failover
  rcases chooseClient_trace O hfirst h with ⟨node, hmem, errs, hr⟩ | ⟨before, errs, hr, hpass⟩
  · simp only [hr, Option.bind_eq_bind, Option.bind_some, network_rpc, attempt_append]
    cases hresponse : O.response (h ++ failedPass errs ++ [.client node none]) node with
    | ok v => exact ⟨.ok v, _, rfl, Searched.found hmem v errs⟩
    | error e =>
      obtain ⟨r, h', hr', hs⟩ := retry_trace O (hnodup.erase node) le_rfl e
        (h ++ attempt errs node (.error e))
      refine ⟨r, attempt errs node (.error e) ++ h', ?_, hs.missed hnodup hmem e errs⟩
      rw [← List.append_assoc]
      exact hr'
  · simp only [hr, Option.bind_eq_bind, Option.bind_some]
    exact ⟨_, _, rfl, Searched.unavailable .noAvailableNodes before hpass⟩

/-! ## 4. The client's `Get` -/

/-- **Client failover.**  Over distinct nodes, from every round-robin position and whatever the calls
come to, `Kv.Get` returns.  It sends each node at most one RPC and stops at the first that succeeds,
with its value; it reports an error only when all RPCs failed and the nodes without one had no client
in a last pass. -/
theorem get_failover (O : Outcomes (String × Bool)) (st : ShardMapState) (kv : Kv) {key : String}
    {shardId : Int} (hshard : getShardForKey key st.numShards = some shardId)
    (hnodes : st.nodesForShard shardId ≠ []) (hnodup : (st.nodesForShard shardId).Nodup) :
    ∃ response kv' h, Kv.get O.network st kv key [] = some ((response, kv'), h) ∧
      Searched (st.nodesForShard shardId) response h := by
  have hpos := List.length_pos_iff.mpr hnodes
  have hlt : kv.nodeInds shardId % (st.nodesForShard shardId).length <
      (st.nodesForShard shardId).length := Nat.mod_lt _ hpos
  obtain ⟨r, h, hr, hs⟩ := failover_trace O hnodup (List.getElem_mem hlt) []
  refine ⟨r, ⟨Function.update kv.nodeInds shardId
    (kv.nodeInds shardId % (st.nodesForShard shardId).length + 1)⟩, h, ?_, hs⟩
  unfold Kv.get
  simp only [hshard, Option.bind_eq_bind, Option.bind_some]
  rw [if_neg hnodes, List.getElem?_eq_getElem hlt, Option.bind_some, hr]
  rfl

def threeNodes : ShardMapState where
  nodes := ["a", "b", "c"]
  shardsToNodes := AList.singleton 1 ["a", "b", "c"]
  numShards := 1

def flaky : Outcomes (String × Bool) where
  client h _ := if h.length = 0 then some (.other "dial") else none
  response h _ := if h.length < 4 then .error (.other "unavailable") else .ok ("v", true)

theorem get_failover_flaky :
    getShardForKey "k" threeNodes.numShards = some 1 ∧
      ∃ response kv' h, Kv.get flaky.network threeNodes makeKv "k" [] =
        some ((response, kv'), h) ∧ Searched (threeNodes.nodesForShard 1) response h :=
  ⟨by decide +kernel, get_failover flaky threeNodes makeKv (by decide +kernel) (by decide)
    (by decide)⟩

end ShardedKv
