import DistributedSystems.VideoRec.Accounting

/-!
# Fallback responses

When a response of `GetTopVideos` is the cache, it should say so, and only an enabled fallback should
give it; and a request whose RPC failed in the end should get the cache.  The branches for a user
without subscriptions give the cache without either.
-/

namespace VideoRec

open Sections

/-! ## 1. Failed RPCs and marked responses -/

/-- The first is the retry of the second. -/
def Query.retries : Query → Query → Bool
  | .getUser call true client ids, .getUser call' _ client' ids' =>
    call = call' ∧ client = client' ∧ ids = ids'
  | .getVideo top true client ids, .getVideo top' _ client' ids' =>
    top = top' ∧ client = client' ∧ ids = ids'
  | .getTrendingVideos true client, .getTrendingVideos _ client' => client = client'
  | _, _ => false

/-- The attempts that failed and were not made good by a retry. -/
def unsettled : Log → List Query
  | [] => []
  | e :: earlier =>
    if failed e.1 e.2 then e.1 :: unsettled earlier
    else (unsettled earlier).filter fun q => !e.1.retries q

/-- What a response owes its client. -/
structure Marked (cfg : Config) (cache : List VideoInfo) (log : Log)
    (result : Except TopError GetTopVideosResponse) : Prop where
  stale : ∀ response, result = .ok response → response.cached = true →
    response.staleResponse = true ∧ cfg.options.disableFallback = false
  fallback : unsettled log ≠ [] → cfg.options.disableFallback = false → cache ≠ [] →
    ∃ response, result = .ok response ∧ response.cached = true ∧ response.videos = cache

/-- The answer to the lookup has no subscriptions of the user, and the answer to the check after it is
that the context is alive. -/
def Unsubscribed (req : GetTopVideosRequest) (log : Log) : Prop :=
  ⟨.ctxErr .afterLookup, none⟩ ∈ log ∧ ∃ retry client ids users,
    ⟨.getUser .lookup retry client ids, .ok users⟩ ∈ log ∧ (requestedUser req.userId users).1 = []

/-! ## 2. Helpers -/

section Helpers

variable (cfg : Config) (cache : List VideoInfo)

/-- The sections of a call leave the cache alone. -/
def KeepsCache (_ : Unit) (f : Server → Server) (_ : Unit) : Prop :=
  ∀ s, (f s).trendingVideos = s.trendingVideos

abbrev Cached {α : Type} (post : Log → α → Prop) (p : M α) (log : Log) : Prop :=
  Holds (fun s => s.trendingVideos = cache) (fun _ _ _ => True) KeepsCache
    (fun log _ a => post log a) p log ()

/-- The questions whose answers `Unsubscribed` is about. -/
def Query.concerns : Query → Bool
  | .ctxErr .afterLookup | .getUser .lookup _ _ _ => true
  | _ => false

def Subscribed (req : GetTopVideosRequest) (log : Log) : Prop := ¬ Unsubscribed req log

/-- No attempt is open, and the user has subscriptions. -/
def Clear (req : GetTopVideosRequest) (log : Log) : Prop := unsettled log = [] ∧ Subscribed req log

def Helped {α : Type} (req : GetTopVideosRequest) (log : Log) : Except TopError α → Prop
  | .ok _ => Clear req log
  | .error _ => Subscribed req log

variable {cfg cache} {α β : Type} {req : GetTopVideosRequest}

variable {log : Log}

theorem cached_bind {p : M α} {k : α → M β} {post : Log → α → Prop} {post' : Log → β → Prop}
    (hp : Cached cache post p log) (hk : ∀ log a, post log a → Cached cache post' (k a) log) :
    Cached cache post' (p >>= k) log := by
  apply holds_bind
  exact holds_mono (fun log _ a h => hk log a h) hp

theorem unsettled_cons {e : Sigma Answer} (hfailed : failed e.1 e.2 = false)
    (h : unsettled log = []) : unsettled (e :: log) = [] := by
  unfold unsettled
  rw [hfailed, h]
  rfl

theorem unsettled_retry {q q' : Query} {a : Answer q} {a' : Answer q'} (between : Log)
    (hretries : q'.retries q = true) (hok : failed q' a' = false) (hfailed : failed q a = true)
    (hbetween : ∀ e ∈ between, failed e.1 e.2 = false) (h : unsettled log = []) :
    unsettled (⟨q', a'⟩ :: (between ++ ⟨q, a⟩ :: log)) = [] := by
  -- what is open before the retry is at most the attempt
  have hopen : ∀ x ∈ unsettled (between ++ ⟨q, a⟩ :: log), x = q := by
    induction between with
    | nil =>
      rw [List.nil_append]
      unfold unsettled
      rw [if_pos hfailed, h]
      exact fun x hx => List.mem_singleton.mp hx
    | cons e between ih =>
      rw [List.cons_append]
      unfold unsettled
      rw [hbetween e List.mem_cons_self]
      intro x hx
      have hmem := (List.mem_filter.mp hx).1
      exact ih (fun e he => hbetween e (List.mem_cons_of_mem _ he)) x hmem
  unfold unsettled
  rw [hok]
  apply List.filter_eq_nil_iff.mpr
  intro x hx
  rw [hopen x hx, hretries]
  decide

theorem cached_unlessCancelled (check : CtxCheck) {next : M (Except TopError α)}
    {post : Log → Except TopError α → Prop} (hcancelled : ∀ err,
      post (⟨.ctxErr check, some err⟩ :: log) (.error (.requestCancelled err)))
    (hnext : Cached cache post next (⟨.ctxErr check, none⟩ :: log)) :
    Cached cache post (unlessCancelled check next) log := by
  intro answer _
  cases answer with
  | none => exact hnext
  | some err => exact hcancelled err

theorem Subscribed.cons {e : Sigma Answer} (h : Subscribed req log) (he : e.1.concerns = false) :
    Subscribed req (e :: log) := by
  rintro ⟨hcheck, retry, client, ids, users, hlookup, hnone⟩
  refine h ⟨(List.mem_cons.mp hcheck).resolve_left ?_, retry, client, ids, users,
    (List.mem_cons.mp hlookup).resolve_left ?_, hnone⟩
  · rintro rfl
    contradiction
  · rintro rfl
    contradiction

theorem Clear.cons {e : Sigma Answer} (h : Clear req log) (hfailed : failed e.1 e.2 = false)
    (he : e.1.concerns = false) : Clear req (e :: log) :=
  ⟨unsettled_cons hfailed h.1, h.2.cons he⟩

theorem subscribed_unchecked (h : ⟨.ctxErr .afterLookup, none⟩ ∉ log) : Subscribed req log :=
  fun hunsubscribed => h hunsubscribed.1

theorem cached_again {err : Status} {attempt : M (Except Status α)} {k : Except Status α → M β}
    {post : Log → β → Prop} (hdisabled : Cached cache post (k (.error err)) log)
    (henabled : Cached cache post (attempt >>= k) log) :
    Cached cache post (again cfg err attempt >>= k) log := by
  unfold again
  split
  · exact hdisabled
  · exact henabled

/-- The one lookup that was answered has these users, and the check after it is still to come. -/
def Looked (log : Log) : Except TopError (List UserInfo) → Prop
  | .ok users => unsettled log = [] ∧ (∃ retry client ids,
      ⟨.getUser .lookup retry client ids, .ok users⟩ ∈ log) ∧
    (∀ retry client ids users', ⟨.getUser .lookup retry client ids, .ok users'⟩ ∈ log →
      users' = users) ∧ ∀ answer, ⟨.ctxErr .afterLookup, answer⟩ ∉ log
  | .error _ => ∀ answer, ⟨.ctxErr .afterLookup, answer⟩ ∉ log

theorem looked_lookupUser (client : Client) (userId : UInt64) (h : unsettled log = [])
    (hfirst : ∀ e ∈ log, e.1.concerns = false) :
    Cached cache Looked (lookupUser cfg client userId) log := by
  have hcheck : ∀ answer, ⟨.ctxErr .afterLookup, answer⟩ ∉ log :=
    fun answer hmem => absurd (hfirst _ hmem) (by simp [Query.concerns])
  have hlookup : ∀ retry client ids answer, ⟨.getUser .lookup retry client ids, answer⟩ ∉ log :=
    fun _ _ _ _ hmem => absurd (hfirst _ hmem) (by simp [Query.concerns])
  intro first _
  refine ⟨(), fun _ => rfl, fun _ _ => ?_⟩
  cases first with
  | ok users =>
    refine ⟨unsettled_cons rfl h, ⟨_, _, _, List.mem_cons_self⟩, ?_, ?_⟩
    · simp [hlookup]
    · simp [hcheck]
  | error err =>
    apply cached_again
    · refine ⟨(), fun _ => rfl, fun _ _ => ⟨(), fun _ => rfl, fun _ _ answer => ?_⟩⟩
      simp [hcheck]
    · intro second _
      refine ⟨(), fun _ => rfl, fun _ _ => ?_⟩
      cases second with
      | ok users =>
        have hretries : (Query.getUser .lookup true client [userId]).retries
            (.getUser .lookup false client [userId]) = true := by simp [Query.retries]
        refine ⟨unsettled_retry [] hretries rfl rfl nofun h, ⟨_, _, _, List.mem_cons_self⟩, ?_, ?_⟩
        · simp [hlookup]
        · simp [hcheck]
      | error err' =>
        refine ⟨(), fun _ => rfl, fun _ _ answer => ?_⟩
        simp [hcheck]

theorem helped_likedBatch (client : Client) (subscribedTo : Nat) (batch : List UInt64)
    (h : Clear req log) :
    Cached cache (Helped req) (likedBatch cfg client subscribedTo batch) log := by
  have hafter : ∀ (users : List UserInfo) {log : Log}, Clear req log →
      Cached cache (Helped req) (unlessCancelled .likedAfter (pure (.ok users))) log :=
    fun users log h => cached_unlessCancelled _ (fun _ => h.2.cons rfl) (h.cons rfl rfl)
  refine cached_unlessCancelled .likedBefore (fun _ => h.2.cons rfl) ?_
  replace h : Clear req (⟨.ctxErr .likedBefore, none⟩ :: log) := h.cons rfl rfl
  intro first _
  refine ⟨(), fun _ => rfl, fun _ _ => ?_⟩
  cases first with
  | ok users => exact hafter users (h.cons rfl rfl)
  | error err =>
    refine ⟨(), fun _ => rfl, fun _ _ => ?_⟩
    apply cached_again
    · refine ⟨(), fun _ => rfl, fun _ _ => ⟨(), fun _ => rfl, fun _ _ => ?_⟩⟩
      exact h.2.cons rfl
    · intro second _
      refine ⟨(), fun _ => rfl, fun _ _ => ?_⟩
      cases second with
      | ok users =>
        have hretries : (Query.getUser .liked true client batch).retries
            (.getUser .liked false client batch) = true := by simp [Query.retries]
        exact hafter users ⟨unsettled_retry [] hretries rfl rfl nofun h.1,
          (h.2.cons rfl).cons rfl⟩
      | error err' => exact ⟨(), fun _ => rfl, fun _ _ => (h.2.cons rfl).cons rfl⟩

theorem helped_videoBatch (client : Client) (likedVideos nbatch : Nat) (batch : List UInt64)
    (h : Clear req log) :
    Cached cache (Helped req) (videoBatch cfg client true likedVideos nbatch batch) log := by
  refine cached_unlessCancelled (.videosBefore true) (fun _ => h.2.cons rfl) ?_
  replace h : Clear req (⟨.ctxErr (.videosBefore true), none⟩ :: log) := h.cons rfl rfl
  intro first _
  refine ⟨(), fun _ => rfl, fun _ _ => ?_⟩
  -- a cancellation here hides a failed attempt, but it is an error as well
  refine cached_unlessCancelled _ (fun _ => (h.2.cons rfl).cons rfl) ?_
  cases first with
  | ok infos => exact (h.cons rfl rfl).cons rfl rfl
  | error err =>
    have hsub := (h.2.cons (e := ⟨.getVideo true false client batch, .error err⟩) rfl).cons
      (e := ⟨.ctxErr (.videosAfter true), none⟩) rfl
    refine ⟨(), fun _ => rfl, fun _ _ => ?_⟩
    apply cached_again
    · exact ⟨(), fun _ => rfl, fun _ _ => ⟨(), fun _ => rfl, fun _ _ => hsub⟩⟩
    · intro second _
      refine ⟨(), fun _ => rfl, fun _ _ => ?_⟩
      cases second with
      | ok infos =>
        have hretries : (Query.getVideo true true client batch).retries
            (.getVideo true false client batch) = true := by simp [Query.retries]
        have hbetween : ∀ e ∈ ([⟨.ctxErr (.videosAfter true), none⟩] : Log),
            failed e.1 e.2 = false := by simp [failed]
        exact ⟨unsettled_retry [⟨.ctxErr (.videosAfter true), none⟩] hretries rfl rfl hbetween h.1,
          hsub.cons rfl⟩
      | error err' => exact ⟨(), fun _ => rfl, fun _ _ => hsub.cons rfl⟩

theorem helped_getLikedVideos (client : Client) (subscribedTo : List UInt64)
    (h : Clear req log) :
    Cached cache (Helped req) (getLikedVideos cfg client subscribedTo) log := by
  unfold getLikedVideos
  generalize batches cfg.options.maxBatchSize subscribedTo = rest
  generalize ([] : List UInt64) = liked
  induction rest generalizing liked log with
  | nil => exact h
  | cons batch rest ih =>
    apply cached_bind (helped_likedBatch client subscribedTo.length batch h)
    intro log result hresult
    cases result with
    | error err => exact hresult
    | ok users => exact ih hresult _

theorem helped_getVideoInfos (client : Client) (videoIds : List UInt64) (h : Clear req log) :
    Cached cache (Helped req) (getVideoInfos cfg client true videoIds) log := by
  unfold getVideoInfos
  generalize (batches cfg.options.maxBatchSize videoIds).length = nbatch
  generalize batches cfg.options.maxBatchSize videoIds = rest
  generalize ([] : List VideoInfo) = infos
  induction rest generalizing infos log with
  | nil => exact h
  | cons batch rest ih =>
    apply cached_bind (helped_videoBatch client videoIds.length nbatch batch h)
    intro log result hresult
    cases result with
    | error err => exact hresult
    | ok fetched => exact ih hresult _

end Helpers

/-! ## 3. Requests -/

section Requests

variable (cfg : Config) (cache : List VideoInfo) (req : GetTopVideosRequest)

def Verdict (log : Log) (result : Except TopError GetTopVideosResponse) : Prop :=
  ∀ latency, Marked cfg cache (⟨.sinceStart, latency⟩ :: log) result ↔
    ¬ (Unsubscribed req (⟨.sinceStart, latency⟩ :: log) ∧ cache ≠ [])

variable {cfg cache req}

variable {log : Log}

theorem verdict_of_marked {result : Except TopError GetTopVideosResponse} (hsub : Subscribed req log)
    (h : ∀ latency, Marked cfg cache (⟨.sinceStart, latency⟩ :: log) result) :
    Verdict cfg cache req log result :=
  fun latency => iff_of_true (h latency) fun hboth => hsub.cons rfl hboth.1

theorem marked_of_settled {result : Except TopError GetTopVideosResponse} (h : unsettled log = [])
    (hresult : ∀ response, result = .ok response → response.cached = false) (latency : Int64) :
    Marked cfg cache (⟨.sinceStart, latency⟩ :: log) result where
  stale response heq hcached := by
    rw [hresult response heq] at hcached
    contradiction
  fallback hopen := absurd (unsettled_cons rfl h) hopen

theorem verdict_cancelled {check : CtxCheck} {err : CtxError} (h : unsettled log = [])
    (hsub : Subscribed req (⟨.ctxErr check, some err⟩ :: log)) :
    Verdict cfg cache req (⟨.ctxErr check, some err⟩ :: log) (.error (.requestCancelled err)) :=
  verdict_of_marked hsub (marked_of_settled (unsettled_cons rfl h) nofun)

theorem verdict_orFallback {err : TopError} (h : Subscribed req log) :
    Cached cache (Verdict cfg cache req) (orFallback cfg err) log := by
  refine ⟨(), fun _ => rfl, fun s hs => ?_⟩
  show Cached cache _ (ite _ _ _) log
  split
  · next hcond =>
    refine ⟨(), fun _ => rfl, fun _ _ => ⟨(), fun _ => rfl, fun s' hs' => ?_⟩⟩
    have hfallback : cfg.options.disableFallback = false := by simpa using hcond.1
    apply verdict_of_marked h
    intro latency
    refine ⟨fun response heq _ => ?_, fun _ _ _ => ⟨_, rfl, rfl, hs'⟩⟩
    obtain rfl := Except.ok.inj heq
    exact ⟨rfl, hfallback⟩
  · next hcond =>
    refine ⟨(), fun _ => rfl, fun _ _ => ?_⟩
    apply verdict_of_marked h
    intro latency
    refine ⟨nofun, fun _ hfallback hcache => absurd ?_ hcond⟩
    rw [show s.trendingVideos = cache from hs]
    exact ⟨by simpa using hfallback, List.length_pos_iff.mpr hcache⟩

theorem verdict_orTrending {other : Except TopError GetTopVideosResponse}
    (hother : ∀ response, other = .ok response → response.cached = false)
    (h : ∀ latency, Unsubscribed req (⟨.sinceStart, latency⟩ :: log)) :
    Cached cache (Verdict cfg cache req) (orTrending other) log := by
  refine ⟨(), fun _ => rfl, fun s hs => ?_⟩
  show Cached cache _ (ite _ _ _) log
  rw [show s.trendingVideos = cache from hs]
  split
  · next hcond =>
    refine ⟨(), fun _ => rfl, fun s' hs' latency => ?_⟩
    refine iff_of_false (fun hmarked => ?_)
      fun hnot => hnot ⟨h latency, List.length_pos_iff.mp hcond⟩
    have hstale := (hmarked.stale _ rfl rfl).1
    contradiction
  · next hcond =>
    have hempty : cache = [] := by
      apply List.length_eq_zero_iff.mp
      omega
    intro latency
    refine iff_of_true ⟨fun response heq hcached => ?_, fun _ _ hcache => absurd hempty hcache⟩
      fun hboth => hboth.2 hempty
    rw [hother response heq] at hcached
    contradiction

theorem verdict_recommend (uclient vclient : Client) (users : List UserInfo)
    (h : unsettled log = [])
    (hiff : Unsubscribed req log ↔ (requestedUser req.userId users).1 = []) :
    Cached cache (Verdict cfg cache req) (recommend cfg req uclient vclient users) log := by
  unfold recommend
  generalize huser : requestedUser req.userId users = user
  obtain ⟨subscribedTo, coeffs⟩ := user
  dsimp only
  split
  · next hnone =>
    have hunsubscribed : ∀ latency, Unsubscribed req (⟨.sinceStart, latency⟩ :: log) := by
      intro latency
      obtain ⟨hcheck, retry, client, ids, users', hmem, hsubs⟩ :=
        hiff.mpr (by rw [huser]; exact List.length_eq_zero_iff.mp hnone)
      exact ⟨List.mem_cons_of_mem _ hcheck, retry, client, ids, users',
        List.mem_cons_of_mem _ hmem, hsubs⟩
    cases coeffs with
    | none => exact verdict_orTrending nofun hunsubscribed
    | some _ =>
      apply verdict_orTrending _ hunsubscribed
      intro response heq
      rw [← Except.ok.inj heq]
  · next hsome =>
    have hclear : Clear req log := by
      refine ⟨h, fun hunsubscribed => hsome ?_⟩
      have hsubs := hiff.mp hunsubscribed
      rw [huser] at hsubs
      exact List.length_eq_zero_iff.mpr hsubs
    apply cached_bind (helped_getLikedVideos uclient subscribedTo hclear)
    intro log liked hliked
    cases liked with
    | error err => exact verdict_orFallback hliked
    | ok liked =>
      apply cached_unlessCancelled _ fun _ => verdict_cancelled hliked.1 (hliked.2.cons rfl)
      apply cached_bind (helped_getVideoInfos vclient liked (hliked.cons rfl rfl))
      intro log infos hinfos
      cases infos with
      | error err => exact verdict_orFallback hinfos
      | ok infos =>
        apply cached_unlessCancelled _ fun _ => verdict_cancelled hinfos.1 (hinfos.2.cons rfl)
        apply verdict_of_marked (hinfos.2.cons rfl)
        apply marked_of_settled (unsettled_cons rfl hinfos.1)
        intro response heq
        rw [← Except.ok.inj heq]

theorem cached_clientRoundRobin {index : Server → Int64} {advance : Server → Server}
    (h : ∀ s, (advance s).trendingVideos = s.trendingVideos) (poolSize : Int) (clients : Nat)
    (log : Log) :
    Cached cache (fun log' _ => log' = log) (clientRoundRobin index advance poolSize clients) log := by
  unfold clientRoundRobin
  split
  · trivial
  · refine ⟨(), h, fun s _ => ?_⟩
    dsimp only
    split
    · rfl
    · trivial

theorem cached_videoClient (log : Log) :
    Cached cache (fun log' _ => log' = log) (videoClient cfg) log := by
  unfold videoClient
  split
  · rfl
  · apply cached_clientRoundRobin
    exact fun _ => rfl

theorem cached_userClient (log : Log) :
    Cached cache (fun log' _ => log' = log) (userClient cfg) log := by
  unfold userClient
  split
  · rfl
  · apply cached_clientRoundRobin
    exact fun _ => rfl

theorem verdict_serveTopVideos :
    Cached cache (Verdict cfg cache req) (serveTopVideos cfg req) [] := by
  apply cached_bind (cached_videoClient [])
  intro log vclient hlog
  rw [hlog]
  have hempty : Subscribed req [] := subscribed_unchecked List.not_mem_nil
  apply cached_unlessCancelled _ fun _ => verdict_cancelled rfl (hempty.cons rfl)
  apply cached_bind (cached_userClient _)
  intro log uclient hlog
  rw [hlog]
  apply cached_unlessCancelled _ fun _ => verdict_cancelled rfl ((hempty.cons rfl).cons rfl)
  apply cached_bind (looked_lookupUser uclient req.userId rfl (by simp [Query.concerns]))
  intro log users husers
  cases users with
  | error err => exact verdict_orFallback (subscribed_unchecked (husers none))
  | ok users =>
    obtain ⟨hsettled, ⟨retry, client, ids, hmem⟩, honly, hcheck⟩ := husers
    apply cached_unlessCancelled
    · intro err
      apply verdict_cancelled hsettled (subscribed_unchecked _)
      simp [hcheck]
    · apply verdict_recommend uclient vclient users (unsettled_cons rfl hsettled)
      constructor
      · rintro ⟨_, retry', client', ids', users', hlookup, hnone⟩
        rw [honly retry' client' ids' users' (by simpa using hlookup)] at hnone
        exact hnone
      · exact fun hnone => ⟨List.mem_cons_self, retry, client, ids, users,
          List.mem_cons_of_mem _ hmem, hnone⟩

end Requests

/-- Whatever the services answer and whatever the cache holds: the response is marked as it should be
exactly when it is not the cache for a user without subscriptions. -/
theorem fallback_marked_iff (cfg : Config) (req : GetTopVideosRequest)
    (env : Log → (q : Query) → Answer q) (s : Server) {s' : Server} {log : Log}
    {result : Except TopError GetTopVideosResponse}
    (hrun : runAlone env (getTopVideos cfg req) s [] = some (s', log, result)) :
    Marked cfg s.trendingVideos log result ↔ ¬ (Unsubscribed req log ∧ s.trendingVideos ≠ []) := by
  have hcall : Cached s.trendingVideos
      (fun log result => Marked cfg s.trendingVideos log result ↔
        ¬ (Unsubscribed req log ∧ s.trendingVideos ≠ [])) (getTopVideos cfg req) [] := by
    refine ⟨(), fun _ => rfl, fun _ _ => ?_⟩
    apply cached_bind verdict_serveTopVideos
    intro log result hverdict latency _
    exact ⟨(), fun _ => rfl, fun _ _ => hverdict latency⟩
  have hkeep : ∀ (m : Unit) f m', KeepsCache m f m' → ∀ t : Server,
      t.trendingVideos = s.trendingVideos → (f t).trendingVideos = s.trendingVideos :=
    fun _ f _ hf t ht => (hf t).trans ht
  obtain ⟨_, hpost⟩ := holds_runAlone hkeep (fun _ _ => trivial) hcall rfl hrun
  exact hpost

def trendingVideo : VideoInfo := ⟨9, "trending", "author", "url", none⟩

def withCache : Server := { Server.new with trendingVideos := [trendingVideo] }

def subscribes (userId : UInt64) : Sigma Answer → Bool
  | ⟨.getUser .lookup _ _ _, .ok users⟩ => !(requestedUser userId users).1.isEmpty
  | _ => true

theorem subscribed_of_all {req : GetTopVideosRequest} {log : Log}
    (h : log.all (subscribes req.userId) = true) : Subscribed req log := by
  rintro ⟨_, retry, client, ids, users, hmem, hnone⟩
  have hsubs := List.all_eq_true.mp h _ hmem
  simp [subscribes, hnone] at hsubs

/-- The users a call asks for do not answer: the cache, marked. -/
theorem fallback_marked_iff_likedFails :
    ∃ s' log, runAlone (fun _ => likedFails) (getTopVideos (mocked false) ⟨1, 0⟩) withCache [] =
        some (s', log, .ok ⟨[trendingVideo], true, true⟩) ∧
      Marked (mocked false) [trendingVideo] log (.ok ⟨[trendingVideo], true, true⟩) := by
  have hmap : (runAlone (fun _ => likedFails) (getTopVideos (mocked false) ⟨1, 0⟩) withCache []).map
      (fun x => (x.2.2, x.2.1.all (subscribes 1))) =
        some (.ok ⟨[trendingVideo], true, true⟩, true) := by decide +kernel
  obtain ⟨⟨s', log, result⟩, hrun, heq⟩ := Option.map_eq_some_iff.mp hmap
  obtain ⟨rfl, hall⟩ := Prod.mk.inj heq
  have hiff := fallback_marked_iff (mocked false) ⟨1, 0⟩ (fun _ => likedFails) withCache hrun
  exact ⟨s', log, hrun, hiff.mpr fun hboth => subscribed_of_all hall hboth.1⟩

def withoutFallback : Config :=
  makeVideoRecServiceServerWithMocks (fun _ _ => 0) .insertion ⟨50, true, false, 4⟩

def noSubscriptions : (q : Query) → Answer q
  | .getUser .lookup .. => .ok [⟨1, [], some [], []⟩]
  | q => healthy q

/-- The call with these answers is given the cache, not marked as stale. -/
def Unmarked (answers : (q : Query) → Answer q) : Prop :=
  ∃ s' log, runAlone (fun _ => answers) (getTopVideos withoutFallback ⟨1, 0⟩) withCache [] =
    some (s', log, .ok ⟨withCache.trendingVideos, false, true⟩)

theorem unmarked_of_map {answers : (q : Query) → Answer q}
    (h : (runAlone (fun _ => answers) (getTopVideos withoutFallback ⟨1, 0⟩) withCache []).map
      (fun x => x.2.2) = some (.ok ⟨withCache.trendingVideos, false, true⟩)) :
    Unmarked answers := by
  obtain ⟨⟨s', log, result⟩, hrun, hok⟩ := Option.map_eq_some_iff.mp h
  exact ⟨s', log, hrun.trans (by rw [show result = _ from hok])⟩

/-- With fallback disabled and no RPC failing, a user without subscriptions and an unknown one get
the cache. -/
theorem fallback_unmarked : Unmarked noSubscriptions ∧ Unmarked unknownUser :=
  ⟨unmarked_of_map (by decide +kernel), unmarked_of_map (by decide +kernel)⟩

end VideoRec
