import Mathlib.Data.UInt
import DistributedSystems.VideoRec.Server

/-!
# Accounting of the recommendation service

What the counters of `GetStats` should be once no call is in progress, and when they are: every exit
of `GetTopVideos` and of its helpers moves them by what the call returns and by the attempts that
failed, except for the cancellations that `GetTopVideos` notices itself, a user without coefficients,
and attempts that a retry option counts too rarely or twice.
-/

namespace VideoRec

open Sections Transition Function

/-! ## 1. What should be counted -/

abbrev Call := Thread Query Answer Server Result Request

abbrev Service := Pool Query Answer Server Result Request

def failed : (q : Query) → Answer q → Bool
  | .getUser .., .error _ => true
  | .getVideo .., .error _ => true
  | .getTrendingVideos .., .error _ => true
  | _, _ => false

/-- The attempts whose errors a counter is for. -/
def Counter.counts : Counter → Query → Bool
  | .userServiceErrors, .getUser .. => true
  | .videoServiceErrors, .getVideo true .. => true
  | _, _ => false

def failures (c : Counter) (log : Log) : Nat :=
  log.countP fun e => c.counts e.1 && failed e.1 e.2

def Result.isError : Result → Bool
  | .topVideos (.error _) => true
  | _ => false

def Result.isStale : Result → Bool
  | .topVideos (.ok response) => response.staleResponse
  | _ => false

def Request.isTopVideos : Request → Bool
  | .getTopVideos _ => true
  | _ => false

def tally (c : Counter) (t : Call) : Nat :=
  match c with
  | .totalRequests => t.request.isTopVideos.toNat
  | .totalErrors => (t.prog.result.any Result.isError).toNat
  | .activeRequests => 0
  | .userServiceErrors => failures .userServiceErrors t.log
  | .videoServiceErrors => failures .videoServiceErrors t.log
  | .staleResponses => (t.prog.result.any Result.isStale).toNat

def Exact (p : Service) : Prop :=
  ∀ c, p.shared.counters c = UInt64.ofNat (p.threads.map (tally c)).sum

def Started (p : Service) : Prop := p.threads = [] ∧ p.shared = Server.new

def Reaches (cfg : Config) : List (Service × PoolEvent Query Answer Request) → Service → Prop :=
  Run Started fun p a p' => p.perform (handle cfg) a = some p'

/-! ## 2. The calls that are counted right -/

/-- The checks in the helpers, whose errors `GetTopVideos` counts. -/
def CtxCheck.counted : CtxCheck → Bool
  | .afterVideoClient | .afterUserClient | .afterLookup | .afterLiked | .afterVideos => false
  | _ => true

/-- The response to the lookup gives the user subscriptions or coefficients. -/
def Found (users : List UserInfo) (userId : UInt64) : Prop :=
  (requestedUser userId users).1 ≠ [] ∨ (requestedUser userId users).2.isSome = true

/-- No cancellation at a check of `GetTopVideos`, nor right after a `GetVideo` that failed; a first
attempt for the user of the request fails only where it is not retried, the other first attempts only
where they are; and the user of the request is found. -/
def Regular (cfg : Config) (log : Log) : (q : Query) → Answer q → Prop
  | .ctxErr check, answer => answer.isSome = true → check.counted = true ∧
    (check = .videosAfter true → ∀ e ∈ log.head?, failed e.1 e.2 = false)
  | .getUser .lookup _ _ ids, .ok users => ∀ id ∈ ids, Found users id
  | .getUser .lookup false _ _, .error _ => cfg.options.disableRetry = true
  | .getUser .liked false _ _, .error _ => cfg.options.disableRetry = false
  | .getVideo true false _ _, .error _ => cfg.options.disableRetry = false
  | _, _ => True

/-! ## 3. What a part of a call adds -/

section Books

variable (cfg : Config) (c : Counter)

abbrev quantity (s : Server) : UInt64 := s.counters c

/-- The ghost value has the failed attempts of the log, and as much more as `spec` says of `a`. -/
def Booked {α : Type} (x : UInt64) (spec : α → UInt64 → Prop) (log : Log) (m : UInt64) (a : α) :
    Prop :=
  ∃ y, spec a y ∧ m = x + UInt64.ofNat (failures c log) + y

/-- From a ghost value with the failed attempts of the log. -/
def Books {α : Type} (spec : α → UInt64 → Prop) (p : M α) : Prop :=
  ∀ x log, Holds (fun _ => True) (Regular cfg) (Adds (quantity c)) (Booked c x spec) p log
    (x + UInt64.ofNat (failures c log))

/-- The failed attempts and nothing else; what is returned has `P`. -/
abbrev Keeps {α : Type} (P : α → Prop) (p : M α) : Prop := Books cfg c (fun a y => P a ∧ y = 0) p

variable {cfg c} {α β : Type}

variable {f : Server → Server} {m : UInt64} {a : α}

theorem adds_frame (h : ∀ s, (f s).counters = s.counters) (m : UInt64) :
    Adds (quantity c) m f m := by
  intro s
  rw [sub_self, add_zero]
  exact congrFun (h s) c

theorem adds_increment (c' : Counter) (m : UInt64) :
    Adds (quantity c) m (Server.increment c') (m + if c' = c then 1 else 0) := by
  intro s
  rw [add_sub_cancel_left]
  show update s.counters c' (s.counters c' + 1) c = _
  by_cases h : c' = c
  · rw [h, update_self, if_pos rfl]
  · rw [update_of_ne (Ne.symm h), if_neg h, add_zero]

theorem failures_cons (e : Sigma Answer) (log : Log) :
    UInt64.ofNat (failures c (e :: log)) = UInt64.ofNat (failures c log) +
      if c.counts e.1 && failed e.1 e.2 then 1 else 0 := by
  unfold failures
  rw [List.countP_cons, UInt64.ofNat_add]
  split
  · rfl
  · rfl

theorem failures_cons_same {e : Sigma Answer} (h : (c.counts e.1 && failed e.1 e.2) = false)
    (log : Log) :
    UInt64.ofNat (failures c (e :: log)) = UInt64.ofNat (failures c log) := by
  rw [failures_cons, h]
  exact add_zero _

theorem failures_getUser_error (call : UserCall) (retry : Bool) (client : Client)
    (ids : List UInt64) (err : Status) (log : Log) :
    UInt64.ofNat (failures c (⟨.getUser call retry client ids, .error err⟩ :: log)) =
      UInt64.ofNat (failures c log) + if .userServiceErrors = c then 1 else 0 := by
  rw [failures_cons]
  cases c <;> rfl

theorem failures_getVideo_error (retry : Bool) (client : Client) (ids : List UInt64)
    (err : Status) (log : Log) :
    UInt64.ofNat (failures c (⟨.getVideo true retry client ids, .error err⟩ :: log)) =
      UInt64.ofNat (failures c log) + if .videoServiceErrors = c then 1 else 0 := by
  rw [failures_cons]
  cases c <;> rfl

theorem Books.holds {spec : α → UInt64 → Prop} {p : M α} (h : Books cfg c spec p) {x : UInt64}
    {log : Log} (hm : m = x + UInt64.ofNat (failures c log)) :
    Holds (fun _ => True) (Regular cfg) (Adds (quantity c)) (Booked c x spec) p log m := by
  rw [hm]
  exact h x log

theorem Booked.keeps {P : α → Prop} {x : UInt64} {log : Log} (hP : P a)
    (hm : m = x + UInt64.ofNat (failures c log)) :
    Booked c x (fun a y => P a ∧ y = 0) log m a := by
  refine ⟨0, ⟨hP, rfl⟩, ?_⟩
  rw [add_zero]
  exact hm

theorem books_pure {spec : α → UInt64 → Prop} (h : spec a 0) : Books cfg c spec (pure a) := by
  intro x log
  exact ⟨0, h, (add_zero _).symm⟩

theorem keeps_pure {P : α → Prop} (h : P a) : Keeps cfg c P (pure a : M α) :=
  books_pure ⟨h, rfl⟩

theorem Keeps.bind {P : α → Prop} {spec : β → UInt64 → Prop} {p : M α} {k : α → M β}
    (hp : Keeps cfg c P p) (hk : ∀ a, P a → Books cfg c spec (k a)) :
    Books cfg c spec (p >>= k) := by
  intro x log
  apply holds_bind
  apply holds_mono _ (hp x log)
  intro log m a ⟨y, ⟨hP, hy⟩, hm⟩
  rw [hy, add_zero] at hm
  exact (hk a hP).holds hm

theorem keeps_look : Keeps cfg c (fun _ => True) Prog.look := by
  intro x log
  exact holds_look (adds_frame (fun _ => rfl) _) fun _ _ => .keeps trivial rfl

theorem keeps_update (h : ∀ s, (f s).counters = s.counters) :
    Keeps cfg c (fun _ => True) (Prog.update f) := by
  intro x log
  exact holds_update (adds_frame h _) (.keeps trivial rfl)

theorem keeps_request {q : Query} (h : ∀ a, (c.counts q && failed q a) = false) :
    Keeps cfg c (fun _ => True) (Prog.request q) := by
  intro x log
  apply holds_request
  intro a _
  apply Booked.keeps trivial
  rw [failures_cons_same (h a)]

theorem keeps_again {err : Status} {attempt : M (Except Status α)}
    (h : Keeps cfg c (fun _ => True) attempt) :
    Keeps cfg c (fun _ => True) (again cfg err attempt) := by
  unfold again
  split
  · exact keeps_pure trivial
  · exact h

theorem ctxErr_same (check : CtxCheck) (answer : Option CtxError) :
    (c.counts (.ctxErr check) && failed (.ctxErr check) answer) = false := by
  cases c <;> rfl

theorem Books.unlessCancelled {spec : Except TopError α → UInt64 → Prop} {check : CtxCheck}
    {next : M (Except TopError α)}
    (hcancelled : ∀ err, spec (.error (.requestCancelled err)) 0)
    (h : Books cfg c spec next) : Books cfg c spec (VideoRec.unlessCancelled check next) := by
  apply Keeps.bind (keeps_request (ctxErr_same check))
  intro answer _
  cases answer with
  | none => exact h
  | some err => exact books_pure (hcancelled err)

theorem Books.unlessCancelled_own {spec : Except TopError α → UInt64 → Prop} {check : CtxCheck}
    {next : M (Except TopError α)} (hown : check.counted = false)
    (h : Books cfg c spec next) : Books cfg c spec (VideoRec.unlessCancelled check next) := by
  intro x log answer hregular
  cases answer with
  | none =>
    apply h.holds
    rw [failures_cons_same (ctxErr_same check none)]
  | some err =>
    have hcounted := (hregular rfl).1
    rw [hown] at hcounted
    contradiction

/-! ## 4. The attempts -/

theorem keeps_clientRoundRobin {index : Server → Int64} {advance : Server → Server}
    (h : ∀ s, (advance s).counters = s.counters) (poolSize : Int) (clients : Nat) :
    Keeps cfg c (fun _ => True) (clientRoundRobin index advance poolSize clients) := by
  unfold clientRoundRobin
  split
  · exact fun _ _ => trivial
  · intro x log
    refine ⟨_, adds_frame h _, fun s _ => ?_⟩
    dsimp only
    split
    · exact .keeps trivial rfl
    · trivial

theorem keeps_userClient : Keeps cfg c (fun _ => True) (userClient cfg) := by
  unfold userClient
  split
  · exact keeps_pure trivial
  · apply keeps_clientRoundRobin
    exact fun _ => rfl

theorem keeps_videoClient : Keeps cfg c (fun _ => True) (videoClient cfg) := by
  unfold videoClient
  split
  · exact keeps_pure trivial
  · apply keeps_clientRoundRobin
    exact fun _ => rfl

theorem again_disabled (hretry : cfg.options.disableRetry = true) (err : Status)
    (attempt : M (Except Status α)) : again cfg err attempt = pure (.error err) := if_pos hretry

theorem again_enabled (hretry : cfg.options.disableRetry = false) (err : Status)
    (attempt : M (Except Status α)) : again cfg err attempt = attempt := by
  unfold again
  rw [hretry]
  rfl

def FoundIn (userId : UInt64) (result : Except TopError (List UserInfo)) : Prop :=
  ∀ users, result = .ok users → Found users userId

theorem keeps_lookupUser (client : Client) (userId : UInt64) :
    Keeps cfg c (FoundIn userId) (lookupUser cfg client userId) := by
  intro x log first hregular
  refine ⟨_, adds_frame (fun _ => rfl) _, fun _ _ => ?_⟩
  cases first with
  | ok users =>
    apply Booked.keeps
    · rintro users' heq
      rw [← Except.ok.inj heq]
      exact hregular userId List.mem_cons_self
    · rw [failures_cons_same (by cases c <;> rfl)]
  | error err =>
    -- it is not retried, so its error is counted once
    show Holds _ _ _ _ (again cfg err _ >>= _) _ _
    rw [again_disabled hregular]
    refine ⟨_, adds_frame (fun _ => rfl) _, fun _ _ => ?_⟩
    refine ⟨_, adds_increment .userServiceErrors _, fun _ _ => ?_⟩
    apply Booked.keeps nofun
    rw [failures_getUser_error, add_assoc]

theorem keeps_likedBatch (client : Client) (subscribedTo : Nat) (batch : List UInt64) :
    Keeps cfg c (fun _ => True) (likedBatch cfg client subscribedTo batch) := by
  have hafter : ∀ users : List UserInfo, Keeps cfg c (fun _ => True)
      (unlessCancelled .likedAfter (pure (.ok users))) :=
    fun users => Books.unlessCancelled (fun _ => ⟨trivial, rfl⟩) (keeps_pure trivial)
  apply Books.unlessCancelled (fun _ => ⟨trivial, rfl⟩)
  intro x log first hregular
  refine ⟨_, adds_frame (fun _ => rfl) _, fun _ _ => ?_⟩
  cases first with
  | ok users =>
    apply (hafter users).holds
    rw [failures_cons_same (by cases c <;> rfl)]
  | error err =>
    refine ⟨_, adds_increment .userServiceErrors _, fun _ _ => ?_⟩
    rw [again_enabled hregular]
    intro second _
    refine ⟨_, adds_frame (fun _ => rfl) _, fun _ _ => ?_⟩
    cases second with
    | ok users =>
      apply (hafter users).holds
      rw [failures_cons_same (by cases c <;> rfl), failures_getUser_error, add_assoc]
    | error err' =>
      refine ⟨_, adds_increment .userServiceErrors _, fun _ _ => ?_⟩
      apply Booked.keeps trivial
      rw [failures_getUser_error, failures_getUser_error, add_assoc, add_assoc, add_assoc]

theorem keeps_videoBatch_refresh (client : Client) (likedVideos nbatch : Nat)
    (batch : List UInt64) :
    Keeps cfg c (fun _ => True) (videoBatch cfg client false likedVideos nbatch batch) := by
  have hrequest : ∀ retry,
      Keeps cfg c (fun _ => True) (Prog.request (Query.getVideo false retry client batch)) :=
    fun retry => keeps_request fun _ => by cases c <;> rfl
  apply Books.unlessCancelled (fun _ => ⟨trivial, rfl⟩)
  apply Keeps.bind (hrequest false)
  intro first _
  apply Keeps.bind (keeps_update fun _ => rfl)
  intro _ _
  apply Books.unlessCancelled (fun _ => ⟨trivial, rfl⟩)
  cases first with
  | ok infos => exact keeps_pure trivial
  | error err =>
    apply Keeps.bind (keeps_again (hrequest true))
    intro second _
    apply Keeps.bind (keeps_update fun _ => rfl)
    intro _ _
    cases second with
    | ok infos => exact keeps_pure trivial
    | error err' => exact keeps_pure trivial

theorem keeps_videoBatch_top (client : Client) (likedVideos nbatch : Nat) (batch : List UInt64) :
    Keeps cfg c (fun _ => True) (videoBatch cfg client true likedVideos nbatch batch) := by
  apply Books.unlessCancelled (fun _ => ⟨trivial, rfl⟩)
  intro x log first hregular
  refine ⟨_, adds_frame (fun _ => rfl) _, fun _ _ => ?_⟩
  cases first with
  | ok infos =>
    have hnext : Keeps cfg c (fun _ => True) (unlessCancelled (.videosAfter true) (pure (.ok infos))) :=
      Books.unlessCancelled (fun _ => ⟨trivial, rfl⟩) (keeps_pure trivial)
    apply hnext.holds
    rw [failures_cons_same (by cases c <;> rfl)]
  | error err =>
    intro answer hanswer
    cases answer with
    | some cancelled =>
      have hfailed := (hanswer rfl).2 rfl _ rfl
      contradiction
    | none =>
      refine ⟨_, adds_increment .videoServiceErrors _, fun _ _ => ?_⟩
      rw [again_enabled hregular]
      intro second _
      refine ⟨_, adds_frame (fun _ => rfl) _, fun _ _ => ?_⟩
      cases second with
      | ok infos =>
        apply Booked.keeps trivial
        rw [failures_cons_same (by cases c <;> rfl), failures_cons_same (ctxErr_same _ _),
          failures_getVideo_error, add_assoc]
      | error err' =>
        refine ⟨_, adds_increment .videoServiceErrors _, fun _ _ => ?_⟩
        apply Booked.keeps trivial
        rw [failures_getVideo_error, failures_cons_same (ctxErr_same _ _), failures_getVideo_error,
          add_assoc, add_assoc, add_assoc]

theorem keeps_videoBatch (callFromGettopvideo : Bool) (client : Client) (likedVideos nbatch : Nat)
    (batch : List UInt64) :
    Keeps cfg c (fun _ => True) (videoBatch cfg client callFromGettopvideo likedVideos nbatch batch) := by
  cases callFromGettopvideo with
  | false => exact keeps_videoBatch_refresh client likedVideos nbatch batch
  | true => exact keeps_videoBatch_top client likedVideos nbatch batch

/-! ## 5. The loops -/

theorem keeps_getLikedVideos (client : Client) (subscribedTo : List UInt64) :
    Keeps cfg c (fun _ => True) (getLikedVideos cfg client subscribedTo) := by
  unfold getLikedVideos
  generalize batches cfg.options.maxBatchSize subscribedTo = rest
  generalize ([] : List UInt64) = liked
  induction rest generalizing liked with
  | nil => exact keeps_pure trivial
  | cons batch rest ih =>
    apply Keeps.bind (keeps_likedBatch client subscribedTo.length batch)
    intro result hresult
    cases result with
    | error err => exact keeps_pure hresult
    | ok users => exact ih _

theorem keeps_getVideoInfos (client : Client) (callFromGettopvideo : Bool)
    (videoIds : List UInt64) :
    Keeps cfg c (fun _ => True) (getVideoInfos cfg client callFromGettopvideo videoIds) := by
  unfold getVideoInfos
  generalize (batches cfg.options.maxBatchSize videoIds).length = nbatch
  generalize batches cfg.options.maxBatchSize videoIds = rest
  generalize ([] : List VideoInfo) = infos
  induction rest generalizing infos with
  | nil => exact keeps_pure trivial
  | cons batch rest ih =>
    apply Keeps.bind (keeps_videoBatch callFromGettopvideo client videoIds.length nbatch batch)
    intro result hresult
    cases result with
    | error err => exact keeps_pure hresult
    | ok fetched => exact ih _

/-! ## 6. The requests -/

def settled (c : Counter) : Except TopError GetTopVideosResponse → UInt64
  | .error _ => if .totalErrors = c then 1 else 0
  | .ok response => if response.staleResponse then if .staleResponses = c then 1 else 0 else 0

abbrev Settles (c : Counter) (result : Except TopError GetTopVideosResponse) (y : UInt64) : Prop :=
  y = settled c result

theorem settles_orFallback (err : TopError) : Books cfg c (Settles c) (orFallback cfg err) := by
  apply Keeps.bind keeps_look
  intro s _ x log
  split
  · refine ⟨_, adds_increment .staleResponses _, fun _ _ => ?_⟩
    exact ⟨_, adds_frame (fun _ => rfl) _, fun _ _ => ⟨_, rfl, rfl⟩⟩
  · exact ⟨_, adds_increment .totalErrors _, fun _ _ => ⟨_, rfl, rfl⟩⟩

theorem settles_orTrending {other : Except TopError GetTopVideosResponse}
    (hother : settled c other = 0) : Books cfg c (Settles c) (orTrending other) := by
  apply Keeps.bind keeps_look
  intro s _
  split
  · apply Keeps.bind keeps_look
    exact fun _ _ => books_pure rfl
  · exact books_pure hother.symm

theorem settles_recommend (req : GetTopVideosRequest) (uclient vclient : Client)
    {users : List UserInfo} (hfound : Found users req.userId) :
    Books cfg c (Settles c) (recommend cfg req uclient vclient users) := by
  unfold recommend
  unfold Found at hfound
  generalize requestedUser req.userId users = user at hfound ⊢
  obtain ⟨subscribedTo, coeffs⟩ := user
  dsimp only
  split
  case isTrue hnone =>
    cases coeffs with
    | none => simp_all
    | some _ => exact settles_orTrending rfl
  case isFalse =>
    apply Keeps.bind (keeps_getLikedVideos uclient subscribedTo)
    intro liked _
    cases liked with
    | error err => exact settles_orFallback err
    | ok liked =>
      apply Books.unlessCancelled_own rfl
      apply Keeps.bind (keeps_getVideoInfos vclient true liked)
      intro infos _
      cases infos with
      | error err => exact settles_orFallback err
      | ok infos =>
        apply Books.unlessCancelled_own rfl
        exact books_pure rfl

theorem settles_serveTopVideos (req : GetTopVideosRequest) :
    Books cfg c (Settles c) (serveTopVideos cfg req) := by
  apply Keeps.bind keeps_videoClient
  intro vclient _
  apply Books.unlessCancelled_own rfl
  apply Keeps.bind keeps_userClient
  intro uclient _
  apply Books.unlessCancelled_own rfl
  apply Keeps.bind (keeps_lookupUser uclient req.userId)
  intro users husers
  cases users with
  | error err => exact settles_orFallback err
  | ok users =>
    apply Books.unlessCancelled_own rfl
    exact settles_recommend req uclient vclient (husers users rfl)

theorem keeps_fetchTrending (vclient : Client) :
    Keeps cfg c (fun _ => True) (fetchTrending vclient) := by
  have hrequest : ∀ retry,
      Keeps cfg c (fun _ => True) (Prog.request (Query.getTrendingVideos retry vclient)) :=
    fun retry => keeps_request fun _ => by cases c <;> rfl
  apply Keeps.bind (hrequest false)
  intro first _
  apply Books.unlessCancelled (fun _ => ⟨trivial, rfl⟩)
  cases first with
  | ok response => exact keeps_pure trivial
  | error err =>
    apply Keeps.bind (hrequest true)
    intro second _
    cases second with
    | ok response => exact keeps_pure trivial
    | error err' =>
      apply Keeps.bind keeps_look
      exact fun _ _ => keeps_pure trivial

theorem keeps_fetchTrendingInfos (vclient : Client) (videoIds : List UInt64) :
    Keeps cfg c (fun _ => True) (fetchTrendingInfos cfg vclient videoIds) := by
  apply Keeps.bind (keeps_getVideoInfos vclient false videoIds)
  intro first _
  apply Books.unlessCancelled (fun _ => ⟨trivial, rfl⟩)
  cases first with
  | ok infos => exact keeps_pure trivial
  | error err =>
    apply Keeps.bind (keeps_getVideoInfos vclient false videoIds)
    intro second _
    cases second with
    | ok infos => exact keeps_pure trivial
    | error err' =>
      apply Keeps.bind keeps_look
      exact fun _ _ => keeps_pure trivial

theorem keeps_updateTrendingVideos : Keeps cfg c (fun _ => True) (updateTrendingVideos cfg) := by
  apply Keeps.bind keeps_videoClient
  intro vclient _
  apply Books.unlessCancelled (fun _ => ⟨trivial, rfl⟩)
  apply Keeps.bind (keeps_fetchTrending vclient)
  intro response _
  cases response with
  | error err => exact keeps_pure trivial
  | ok response =>
    apply Books.unlessCancelled (fun _ => ⟨trivial, rfl⟩)
    apply Keeps.bind (keeps_fetchTrendingInfos vclient response.videos)
    intro infos _
    cases infos with
    | error err => exact keeps_pure trivial
    | ok infos =>
      apply Keeps.bind (keeps_update fun _ => rfl)
      exact fun _ _ => keeps_pure trivial

theorem keeps_getStats : Keeps cfg c (fun _ => True) getStats := by
  apply Keeps.bind keeps_look
  intro s _
  apply Keeps.bind (keeps_request fun _ => by cases c <;> rfl)
  intro p99 _
  cases p99 with
  | error err => exact keeps_pure trivial
  | ok p99 =>
    apply Keeps.bind (keeps_update fun _ => rfl)
    intro _ _
    -- eight looks at the fields
    iterate 8
      apply Keeps.bind keeps_look
      intro _ _
    exact keeps_pure trivial

/-! ## 7. Whole calls -/

theorem adds_trans {g : Server → Server} {m' m'' : UInt64} (hf : Adds (quantity c) m f m')
    (hg : Adds (quantity c) m' g m'') : Adds (quantity c) m (fun s => g (f s)) m'' := by
  intro s
  rw [hg (f s), hf s]
  abel

theorem adds_decrement (c' : Counter) (m : UInt64) :
    Adds (quantity c) m (Server.decrement c') (m - if c' = c then 1 else 0) := by
  intro s
  rw [sub_sub_cancel_left]
  show update s.counters c' (s.counters c' - 1) c = _
  by_cases h : c' = c
  · rw [h, update_self, if_pos rfl, sub_eq_add_neg]
  · rw [update_of_ne (Ne.symm h), if_neg h, neg_zero, add_zero]

theorem failures_eq_zero (h : ∀ q, c.counts q = false) (log : Log) : failures c log = 0 := by
  apply List.countP_eq_zero.mpr
  intro e _
  rw [h e.1, Bool.false_and]
  decide

theorem settled_eq (result : Except TopError GetTopVideosResponse) :
    settled c result = UInt64.ofNat
      (match c with
        | .totalErrors => (Result.topVideos result).isError.toNat
        | .staleResponses => (Result.topVideos result).isStale.toNat
        | _ => 0) := by
  cases result with
  | ok response =>
    obtain ⟨videos, staleResponse, cached⟩ := response
    cases c <;> cases staleResponse <;> rfl
  | error err => cases c <;> rfl

theorem settled_eq_tally (req : GetTopVideosRequest) (log : Log)
    (result : Except TopError GetTopVideosResponse) :
    (if .totalRequests = c then 1 else 0) + UInt64.ofNat (failures c log) + settled c result =
      UInt64.ofNat (tally c ⟨.getTopVideos req, .ret (.topVideos result), log⟩) := by
  rw [settled_eq result]
  cases c with
  | userServiceErrors => exact (add_zero _).trans (zero_add _)
  | videoServiceErrors => exact (add_zero _).trans (zero_add _)
  | totalRequests =>
    rw [failures_eq_zero (fun _ => rfl)]
    rfl
  | activeRequests =>
    rw [failures_eq_zero (fun _ => rfl)]
    rfl
  | totalErrors =>
    rw [failures_eq_zero (fun _ => rfl)]
    exact zero_add _
  | staleResponses =>
    rw [failures_eq_zero (fun _ => rfl)]
    exact zero_add _

theorem failures_eq_tally {r : Request} {result : Result} (hr : r.isTopVideos = false)
    (herror : result.isError = false) (hstale : result.isStale = false) (log : Log) :
    failures c log = tally c ⟨r, .ret result, log⟩ := by
  cases c with
  | userServiceErrors => rfl
  | videoServiceErrors => rfl
  | totalRequests =>
    show _ = r.isTopVideos.toNat
    rw [failures_eq_zero (fun _ => rfl), hr]
    rfl
  | activeRequests => exact failures_eq_zero (fun _ => rfl) log
  | totalErrors =>
    show _ = result.isError.toNat
    rw [failures_eq_zero (fun _ => rfl), herror]
    rfl
  | staleResponses =>
    show _ = result.isStale.toNat
    rw [failures_eq_zero (fun _ => rfl), hstale]
    rfl

/-- What a call has added when it returns: its tally. -/
def Added (c : Counter) (r : Request) (log : Log) (m : UInt64) (result : Result) : Prop :=
  m = UInt64.ofNat (tally c ⟨r, .ret result, log⟩)

theorem added_getTopVideos (req : GetTopVideosRequest) :
    Holds (fun _ => True) (Regular cfg) (Adds (quantity c)) (Added c (.getTopVideos req))
      (handle cfg (.getTopVideos req)) [] 0 := by
  -- the sections at both ends
  have hbegin : Adds (quantity c) 0 Server.beginRequest
      (0 + (if .totalRequests = c then 1 else 0) + if .activeRequests = c then 1 else 0) :=
    adds_trans (f := Server.increment .totalRequests) (g := Server.increment .activeRequests)
      (adds_increment .totalRequests 0) (adds_increment .activeRequests _)
  have hend : ∀ latency m, Adds (quantity c) m (Server.endRequest latency)
      (m - if .activeRequests = c then 1 else 0) :=
    fun latency m s => adds_decrement .activeRequests m s
  refine ⟨_, hbegin, fun _ _ => ?_⟩
  show Holds _ _ _ _ ((serveTopVideos cfg req >>= _) >>= _) _ _
  apply holds_bind
  apply holds_bind
  apply holds_mono _ ((settles_serveTopVideos req).holds (add_zero _).symm)
  intro log m result ⟨y, hy, hm⟩ latency _
  refine ⟨_, hend latency m, fun _ _ => ?_⟩
  show _ = UInt64.ofNat (tally c ⟨.getTopVideos req, .ret (.topVideos result), _⟩)
  rw [← settled_eq_tally req _ result, failures_cons_same (by cases c <;> rfl), hm,
    show y = settled c result from hy]
  abel

theorem added_other {r : Request} {p : M α} {k : α → Result} (hp : Keeps cfg c (fun _ => True) p)
    (hr : r.isTopVideos = false) (herror : ∀ a, (k a).isError = false)
    (hstale : ∀ a, (k a).isStale = false) :
    Holds (fun _ => True) (Regular cfg) (Adds (quantity c)) (Added c r)
      (p >>= fun a => pure (k a)) [] 0 := by
  apply holds_bind
  apply holds_mono _ (hp.holds (x := 0) (add_zero _).symm)
  intro log m a ⟨y, ⟨_, hy⟩, hm⟩
  show m = _
  rw [hm, hy, add_zero, zero_add, failures_eq_tally hr (herror a) (hstale a)]

theorem added_handle (r : Request) :
    Holds (fun _ => True) (Regular cfg) (Adds (quantity c)) (Added c r) (handle cfg r) [] 0 := by
  cases r with
  | getTopVideos req => exact added_getTopVideos req
  | getStats => exact added_other keeps_getStats rfl (fun _ => rfl) fun _ => rfl
  | refresh => exact added_other keeps_updateTrendingVideos rfl (fun _ => rfl) fun _ => rfl

end Books

/-! ## 8. Runs of the service -/

theorem ofNat_sum (ns : List Nat) : UInt64.ofNat ns.sum = (ns.map UInt64.ofNat).sum := by
  induction ns with
  | nil => rfl
  | cons n ns ih => rw [List.sum_cons, UInt64.ofNat_add, ih, List.map_cons, List.sum_cons]

/-- Once no call is in progress the counters are exact, on every run whose answers are regular. -/
theorem accounting_exact (cfg : Config) {past : List (Service × PoolEvent Query Answer Request)}
    {p : Service} (hrun : Reaches cfg past p) (hidle : p.Idle)
    (hregular : ∀ x ∈ past, x.1.Answers (Regular cfg) x.2) : Exact p := by
  intro c
  have hbalanced : Balanced (Regular cfg) (quantity c) (Added c) 0 p := by
    apply Balanced.run added_handle _ hrun hregular
    intro p ⟨hthreads, hnew⟩
    refine ⟨hthreads, ?_⟩
    rw [hnew]
    rfl
  have hsum : p.shared.counters c = 0 + (p.threads.map fun t => UInt64.ofNat (tally c t)).sum := by
    apply hbalanced.idle hidle
    rintro ⟨request, prog, log⟩ _ m a rfl hadded
    exact hadded
  rw [hsum, zero_add, ofNat_sum, List.map_map]
  rfl

/-- A call with nobody else, which gets the same answer whenever it asks the same. -/
def alone (cfg : Config) (answers : (q : Query) → Answer q) (r : Request) :
    List (Service × PoolEvent Query Answer Request) × Service :=
  replay (Pool.perform (handle cfg)) [] ⟨Server.new, []⟩
    (.spawn r :: Pool.script answers 0 (handle cfg r) Server.new)

theorem reaches_alone (cfg : Config) (answers : (q : Query) → Answer q) (r : Request) :
    Reaches cfg (alone cfg answers r).1 (alone cfg answers r).2 :=
  replay_run (fun _ _ _ h => h) _ [] _ (.start ⟨rfl, rfl⟩)

theorem regular_alone {cfg : Config} {answers : (q : Query) → Answer q}
    (h : ∀ log q, Regular cfg log q (answers q)) (r : Request) :
    ∀ x ∈ (alone cfg answers r).1, x.1.Answers (Regular cfg) x.2 := by
  intro x hx
  obtain hx | hx := replay_label hx
  · contradiction
  · rcases List.mem_cons.mp hx with hspawn | hscript
    · rw [hspawn]
      trivial
    · exact Pool.answers_script h x.1 hscript

def mocked (disableRetry : Bool) : Config :=
  makeVideoRecServiceServerWithMocks (fun _ _ => 0) .insertion ⟨50, false, disableRetry, 4⟩

def healthy : (q : Query) → Answer q
  | .ctxErr _ => none
  | .getUser .lookup _ _ ids => .ok (ids.map fun id => ⟨id, [2], some [], []⟩)
  | .getUser .liked .. => .ok [⟨2, [], none, [7]⟩]
  | .getVideo .. => .ok [⟨7, "title", "author", "url", none⟩]
  | .getTrendingVideos .. => .ok ⟨[7], 0⟩
  | .sinceStart => 1
  | .quantile _ => .ok 0

def injected : Status := ⟨.internal, "UserService: (injected) internal error!"⟩

def likedFails : (q : Query) → Answer q
  | .getUser .liked .. => .error injected
  | q => healthy q

theorem found_map {ids : List UInt64} {id : UInt64} (hid : id ∈ ids) :
    Found (ids.map fun id => ⟨id, [2], some [], []⟩) id := by
  unfold Found requestedUser
  cases hfind : (ids.map fun id => (⟨id, [2], some [], []⟩ : UserInfo)).find?
      fun user => user.userId == id with
  | none =>
    have hnone := List.find?_eq_none.mp hfind _ (List.mem_map.mpr ⟨id, hid, rfl⟩)
    simp at hnone
  | some user =>
    obtain ⟨id', _, rfl⟩ := List.mem_map.mp (List.mem_of_find?_eq_some hfind)
    exact Or.inr rfl

theorem regular_likedFails (log : Log) (q : Query) :
    Regular (mocked false) log q (likedFails q) := by
  cases q with
  | ctxErr check => exact fun h => absurd h Bool.false_ne_true
  | getUser call retry client ids =>
    cases call with
    | lookup => exact fun id hid => found_map hid
    | liked => cases retry <;> trivial
  | getVideo callFromGettopvideo retry client ids =>
    cases callFromGettopvideo <;> cases retry <;> trivial
  | _ => trivial

/-- An attempt and its retry fail: both are counted, and the error of the call. -/
theorem accounting_exact_likedFails :
    Exact (alone (mocked false) likedFails (.getTopVideos ⟨1, 0⟩)).2 ∧
      (alone (mocked false) likedFails (.getTopVideos ⟨1, 0⟩)).2.shared.counters
        .userServiceErrors = 2 := by
  constructor
  · exact accounting_exact (mocked false) (reaches_alone _ _ (.getTopVideos ⟨1, 0⟩))
      (by decide +kernel) (regular_alone regular_likedFails _)
  · decide +kernel

/-- A run after which a counter is not what its calls should have added. -/
def Miscounts (cfg : Config) (c : Counter) (counted due : Nat) : Prop :=
  ∃ past p, Reaches cfg past p ∧ p.Idle ∧ p.shared.counters c = UInt64.ofNat counted ∧
    (p.threads.map (tally c)).sum = due

theorem miscounts_alone {cfg : Config} {c : Counter} {counted due : Nat}
    (answers : (q : Query) → Answer q) (r : Request) (hidle : (alone cfg answers r).2.Idle)
    (hcounted : (alone cfg answers r).2.shared.counters c = UInt64.ofNat counted)
    (hdue : ((alone cfg answers r).2.threads.map (tally c)).sum = due) :
    Miscounts cfg c counted due :=
  ⟨_, _, reaches_alone cfg answers r, hidle, hcounted, hdue⟩

def cancelledFirst : (q : Query) → Answer q
  | .ctxErr _ => some .canceled
  | q => healthy q

def unknownUser : (q : Query) → Answer q
  | .getUser .lookup .. => .ok []
  | q => healthy q

def lookupFailsOnce : (q : Query) → Answer q
  | .getUser .lookup false .. => .error injected
  | q => healthy q

def videosFail : (q : Query) → Answer q
  | .getVideo .. => .error ⟨.internal, "VideoService: (injected) internal error!"⟩
  | q => healthy q

def videosFailCancelled : (q : Query) → Answer q
  | .ctxErr (.videosAfter true) => some .canceled
  | q => videosFail q

/-- A cancelled call and one of an unknown user are not among the errors; a failed attempt that is
retried is not counted, one that is not retried is counted twice, and one whose context is cancelled
is not counted. -/
theorem accounting_miscounts :
    Miscounts (mocked false) .totalErrors 0 1 ∧
      Miscounts (mocked true) .totalErrors 0 1 ∧
      Miscounts (mocked false) .userServiceErrors 0 1 ∧
      Miscounts (mocked true) .userServiceErrors 2 1 ∧
      Miscounts (mocked true) .videoServiceErrors 2 1 ∧
      Miscounts (mocked false) .videoServiceErrors 0 1 := by
  refine ⟨?_, ?_, ?_, ?_, ?_, ?_⟩
  · apply miscounts_alone cancelledFirst (.getTopVideos ⟨1, 0⟩) <;> decide +kernel
  · apply miscounts_alone unknownUser (.getTopVideos ⟨1, 0⟩) <;> decide +kernel
  · apply miscounts_alone lookupFailsOnce (.getTopVideos ⟨1, 0⟩) <;> decide +kernel
  · apply miscounts_alone likedFails (.getTopVideos ⟨1, 0⟩) <;> decide +kernel
  · apply miscounts_alone videosFail (.getTopVideos ⟨1, 0⟩) <;> decide +kernel
  · apply miscounts_alone videosFailCancelled (.getTopVideos ⟨1, 0⟩) <;> decide +kernel

end VideoRec
