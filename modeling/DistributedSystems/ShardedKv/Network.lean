import DistributedSystems.ShardedKv.ShardMap

/-!
# Calls to other nodes (`GetUsableClient`, the retry loops of `client.go` and `server.go`)

`Kv.Get` and `copyShardData` look for an answering node in the same way: a first choice, the first
usable client when that one is unavailable, and a retry loop over a shrinking list.  The network is a
parameter with a state of its own, so outcomes may change from call to call.
-/

namespace ShardedKv

/-! ## 1. Errors -/

inductive Code where
  | invalidArgument
  | notFound
  | other
deriving DecidableEq, Repr

inductive KvError where
  | emptyKey (method : String)
  | notHosted (shard : Int) (nodeName : String) (hostedShards : List Int)
  | noNodes (shard : Int)
  | noAvailableNodes
  | other (text : String)
deriving DecidableEq, Repr

namespace KvError

def code : KvError → Code
  | emptyKey _ => .invalidArgument
  | notHosted .. => .notFound
  | noNodes _ => .notFound
  | noAvailableNodes => .notFound
  | other _ => .other

def text : KvError → String
  | emptyKey method => s!"key cannot be empty in {method}()"
  | notHosted shard nodeName hostedShards =>
    let hosted := " ".intercalate (hostedShards.map toString)
    s!"shard {shard} is not hosted by server {nodeName}: [{hosted}]"
  | noNodes shard => s!"No nodes host the shard {shard}"
  | noAvailableNodes => "No available nodes"
  | other text => text

end KvError

/-! ## 2. The calls -/

/-- The outcomes of `GetClient` and of one RPC, by node.  Nothing stands for a panic. -/
structure Network (σ α : Type) where
  getClient : String → σ → Option (Option KvError × σ)
  rpc : String → σ → Option (Except KvError α × σ)

section Failover

variable {σ α : Type} (N : Network σ α)

def getUsableClient : List String → σ → Option (Except KvError String × σ)
  | [], w => some (.error .noAvailableNodes, w)
  | node :: nodes, w => do
    let (err1, w) ← N.getClient node w
    match err1 with
    | none => some (.ok node, w)
    | some _ => getUsableClient nodes w

/-- The loop over `reduced_nodes`.  Every round removes one node, so the fuel is their number. -/
def retry : Nat → KvError → List String → σ → Option (Except KvError α × σ)
  | 0, err2, _, w => some (.error err2, w)
  | fuel + 1, err2, reducedNodes, w =>
    if reducedNodes = [] then some (.error err2, w)
    else do
      let (chosen, w) ← getUsableClient N reducedNodes w
      match chosen with
      | .error err1 => some (.error err1, w)
      | .ok newNode => do
        let (response, w) ← N.rpc newNode w
        match response with
        | .ok v => some (.ok v, w)
        | .error err2 => retry fuel err2 (removeNode reducedNodes newNode) w

/-- The round-robin choice `first`, or the first usable client. -/
def chooseClient (nodes : List String) (first : String) (w : σ) :
    Option (Except KvError String × σ) := do
  let (err1, w) ← N.getClient first w
  match err1 with
  | none => some (.ok first, w)
  | some _ => getUsableClient N nodes w

def failover (nodes : List String) (first : String) (w : σ) : Option (Except KvError α × σ) := do
  let (chosen, w) ← chooseClient N nodes first w
  match chosen with
  | .error err1 => some (.error err1, w)
  | .ok newNode => do
    let (response, w) ← N.rpc newNode w
    match response with
    | .ok v => some (.ok v, w)
    | .error err2 =>
      let reducedNodes := removeNode nodes newNode
      retry N reducedNodes.length err2 reducedNodes w

/-- The goroutines of `Kv.Set` and `Kv.Delete`, one after the other: `err` is the last error. -/
def fanOut : List String → Option KvError → σ → Option (Option KvError × σ)
  | [], err, w => some (err, w)
  | node :: nodes, err, w => do
    let (err1, w) ← N.getClient node w
    match err1 with
    | some err1 => fanOut nodes (some err1) w
    | none => do
      let (response, w) ← N.rpc node w
      match response with
      | .error err2 => fanOut nodes (some err2) w
      | .ok _ => fanOut nodes err w

/-! ## 3. Where an answer comes from -/

variable {N}

variable {nodes : List String}

theorem retry_ok {fuel : Nat} {err2 : KvError} {w w' : σ} {v : α}
    (h : retry N fuel err2 nodes w = some (.ok v, w')) :
    ∃ node w₁, N.rpc node w₁ = some (.ok v, w') := by
  induction fuel generalizing err2 nodes w with
  | zero => simp [retry] at h
  | succ fuel ih =>
    rw [retry] at h
    split at h
    · simp at h
    obtain ⟨⟨chosen, w₁⟩, _, h⟩ := Option.bind_eq_some_iff.mp h
    cases chosen with
    | error e => simp at h
    | ok node =>
      obtain ⟨⟨response, w₂⟩, hr, h⟩ := Option.bind_eq_some_iff.mp h
      cases response with
      | error e => exact ih h
      | ok u =>
        cases h
        exact ⟨node, w₁, hr⟩

theorem failover_ok {first : String} {w w' : σ} {v : α}
    (h : failover N nodes first w = some (.ok v, w')) :
    ∃ node w₁, N.rpc node w₁ = some (.ok v, w') := by
  unfold failover at h
  obtain ⟨⟨chosen, w₂⟩, _, h⟩ := Option.bind_eq_some_iff.mp h
  cases chosen with
  | error e => simp at h
  | ok node =>
    obtain ⟨⟨response, w₃⟩, hr, h⟩ := Option.bind_eq_some_iff.mp h
    cases response with
    | error e => exact retry_ok h
    | ok u =>
      cases h
      exact ⟨node, w₂, hr⟩

/-! ## 4. Networks on which every client is available -/

/-- In state `w` every node of the list has a client and answers without changing the state. -/
structure Steady (N : Network σ α) (w : σ) (answer : String → Except KvError α)
    (nodes : List String) : Prop where
  client : ∀ n ∈ nodes, N.getClient n w = some (none, w)
  reply : ∀ n ∈ nodes, N.rpc n w = some (answer n, w)

variable {w : σ} {answer : String → Except KvError α}

theorem Steady.mono {nodes' : List String} (h : Steady N w answer nodes)
    (hsub : ∀ n ∈ nodes', n ∈ nodes) : Steady N w answer nodes' where
  client n hn := h.client n (hsub n hn)
  reply n hn := h.reply n (hsub n hn)

theorem getUsableClient_steady {node : String} (h : Steady N w answer (node :: nodes)) :
    getUsableClient N (node :: nodes) w = some (.ok node, w) := by
  rw [getUsableClient, h.client node List.mem_cons_self]
  rfl

/-- How a search among the nodes ends: with the answer of one of them, or because none answers. -/
def Outcome (answer : String → Except KvError α) (nodes : List String) :
    Except KvError α → Prop
  | .ok v => ∃ n ∈ nodes, answer n = .ok v
  | .error _ => ∀ n ∈ nodes, ∀ v, answer n ≠ .ok v

theorem Outcome.of_removeNode {node : String} {e : KvError} (hfail : answer node = .error e)
    {r : Except KvError α} (h : Outcome answer (removeNode nodes node) r) :
    Outcome answer nodes r := by
  cases r with
  | ok v =>
    obtain ⟨n, hn, hv⟩ := h
    exact ⟨n, List.mem_of_mem_erase hn, hv⟩
  | error e' =>
    intro n hn v hv
    have hne : n ≠ node := by
      intro heq
      simp [heq, hfail] at hv
    exact h n ((List.mem_erase_of_ne hne).mpr hn) v hv

theorem retry_steady (h : Steady N w answer nodes) (err2 : KvError) :
    ∃ r, retry N nodes.length err2 nodes w = some (r, w) ∧ Outcome answer nodes r := by
  induction nodes generalizing err2 with
  | nil => exact ⟨.error err2, rfl, by simp [Outcome]⟩
  | cons node nodes ih =>
    have hremove : removeNode (node :: nodes) node = nodes := by
      simp [removeNode]
    rw [List.length_cons, retry, if_neg (by simp), getUsableClient_steady h]
    simp only [Option.bind_eq_bind, Option.bind_some, h.reply node List.mem_cons_self]
    cases ha : answer node with
    | ok v => exact ⟨.ok v, rfl, node, List.mem_cons_self, ha⟩
    | error e =>
      obtain ⟨r, hr, hout⟩ := ih (h.mono fun n hn => List.mem_cons_of_mem node hn) e
      refine ⟨r, by simpa [hremove] using hr, ?_⟩
      apply Outcome.of_removeNode ha
      rwa [hremove]

theorem failover_steady (h : Steady N w answer nodes) {first : String} (hfirst : first ∈ nodes) :
    ∃ r, failover N nodes first w = some (r, w) ∧ Outcome answer nodes r := by
  unfold failover chooseClient
  simp only [Option.bind_eq_bind, h.client first hfirst, Option.bind_some, h.reply first hfirst]
  cases ha : answer first with
  | ok v => exact ⟨.ok v, rfl, first, hfirst, ha⟩
  | error e =>
    have hsub : ∀ n ∈ removeNode nodes first, n ∈ nodes := fun n hn => List.mem_of_mem_erase hn
    obtain ⟨r, hr, hout⟩ := retry_steady (h.mono hsub) e
    exact ⟨r, hr, hout.of_removeNode ha⟩

/-! ## 5. Networks on which no call panics -/

/-- Where `I` holds no call panics, and `I` holds afterwards. -/
structure Network.Sound (N : Network σ α) (I : σ → Prop) : Prop where
  client : ∀ node w, I w → ∃ err w', N.getClient node w = some (err, w') ∧ I w'
  call : ∀ node w, I w → ∃ r w', N.rpc node w = some (r, w') ∧ I w'

variable {I : σ → Prop}

theorem getUsableClient_sound (hN : N.Sound I) (nodes : List String) :
    ∀ w, I w → ∃ r w', getUsableClient N nodes w = some (r, w') ∧ I w' := by
  induction nodes with
  | nil => exact fun w hw => ⟨_, w, rfl, hw⟩
  | cons node nodes ih =>
    intro w hw
    obtain ⟨err, w₁, hclient, hw₁⟩ := hN.client node w hw
    unfold getUsableClient
    simp only [hclient, Option.bind_eq_bind, Option.bind_some]
    cases err with
    | none => exact ⟨_, w₁, rfl, hw₁⟩
    | some err => exact ih w₁ hw₁

theorem retry_sound (hN : N.Sound I) (fuel : Nat) :
    ∀ err2 nodes w, I w → ∃ r w', retry N fuel err2 nodes w = some (r, w') ∧ I w' := by
  induction fuel with
  | zero => exact fun err2 nodes w hw => ⟨_, w, rfl, hw⟩
  | succ fuel ih =>
    intro err2 nodes w hw
    unfold retry
    split
    · exact ⟨_, w, rfl, hw⟩
    · obtain ⟨chosen, w₁, hchosen, hw₁⟩ := getUsableClient_sound hN nodes w hw
      simp only [hchosen, Option.bind_eq_bind, Option.bind_some]
      cases chosen with
      | error err => exact ⟨_, w₁, rfl, hw₁⟩
      | ok node =>
        obtain ⟨response, w₂, hresponse, hw₂⟩ := hN.call node w₁ hw₁
        simp only [hresponse, Option.bind_some]
        cases response with
        | ok v => exact ⟨_, w₂, rfl, hw₂⟩
        | error err => exact ih err _ w₂ hw₂

theorem failover_sound (hN : N.Sound I) (nodes : List String) (first : String) (hw : I w) :
    ∃ r w', failover N nodes first w = some (r, w') ∧ I w' := by
  have hchoose : ∃ r w', chooseClient N nodes first w = some (r, w') ∧ I w' := by
    obtain ⟨err, w₁, hclient, hw₁⟩ := hN.client first w hw
    unfold chooseClient
    simp only [hclient, Option.bind_eq_bind, Option.bind_some]
    cases err with
    | none => exact ⟨_, w₁, rfl, hw₁⟩
    | some err => exact getUsableClient_sound hN nodes w₁ hw₁
  obtain ⟨chosen, w₁, hchosen, hw₁⟩ := hchoose
  unfold failover
  simp only [hchosen, Option.bind_eq_bind, Option.bind_some]
  cases chosen with
  | error err => exact ⟨_, w₁, rfl, hw₁⟩
  | ok node =>
    obtain ⟨response, w₂, hresponse, hw₂⟩ := hN.call node w₁ hw₁
    simp only [hresponse, Option.bind_some]
    cases response with
    | ok v => exact ⟨_, w₂, rfl, hw₂⟩
    | error err => exact retry_sound hN _ err _ w₂ hw₂

theorem fanOut_sound (hN : N.Sound I) (nodes : List String) :
    ∀ err w, I w → ∃ r w', fanOut N nodes err w = some (r, w') ∧ I w' := by
  induction nodes with
  | nil => exact fun err w hw => ⟨err, w, rfl, hw⟩
  | cons node nodes ih =>
    intro err w hw
    obtain ⟨err1, w₁, hclient, hw₁⟩ := hN.client node w hw
    unfold fanOut
    simp only [hclient, Option.bind_eq_bind, Option.bind_some]
    cases err1 with
    | some err1 => exact ih _ w₁ hw₁
    | none =>
      obtain ⟨response, w₂, hresponse, hw₂⟩ := hN.call node w₁ hw₁
      simp only [hresponse, Option.bind_some]
      cases response with
      | ok v => exact ih _ w₂ hw₂
      | error err2 => exact ih _ w₂ hw₂

end Failover

end ShardedKv
