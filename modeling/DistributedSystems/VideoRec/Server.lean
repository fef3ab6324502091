import Mathlib.Data.List.Sort
import Mathlib.Logic.Function.Basic
import DistributedSystems.Library.Sections

/-!
# The recommendation service (`video_rec_service/server_lib/server_lib.go`)

A call is a program between the critical sections of `mu`; an access without the lock is a section of
its own.  What is not in the file is asked for: the RPCs, `ctx.Err()`, the clock and the t-digest.  A
panic, and with it the process, is `stuck`.
-/

namespace VideoRec

open Sections (Prog)

/-! ## 1. Messages -/

abbrev Coefficients := List (Int32 × UInt64)

/-- `user_service.UserInfo`, as far as the service reads it. -/
structure UserInfo where
  userId : UInt64
  subscribedTo : List UInt64
  userCoefficients : Option Coefficients
  likedVideos : List UInt64
deriving DecidableEq

structure VideoInfo where
  videoId : UInt64
  title : String
  author : String
  url : String
  videoCoefficients : Option Coefficients
deriving DecidableEq

structure GetTrendingVideosResponse where
  videos : List UInt64
  expirationTimeS : UInt64
deriving DecidableEq

structure GetTopVideosRequest where
  userId : UInt64
  limit : Int32
deriving DecidableEq

structure GetTopVideosResponse where
  videos : List VideoInfo
  staleResponse : Bool
  /-- Not in the message: whether `videos` is `server.TrendingVideos`. -/
  cached : Bool
deriving DecidableEq

structure GetStatsResponse where
  totalRequests : UInt64
  totalErrors : UInt64
  activeRequests : UInt64
  userServiceErrors : UInt64
  videoServiceErrors : UInt64
  averageLatencyMs : Float32
  p99LatencyMs : Float32
  staleResponses : UInt64

/-! ## 2. Errors -/

/-- The codes of gRPC but `OK`, which is no error. -/
inductive Code where
  | canceled | unknown | invalidArgument | deadlineExceeded | notFound | alreadyExists
  | permissionDenied | resourceExhausted | failedPrecondition | aborted | outOfRange
  | unimplemented | internal | unavailable | dataLoss | unauthenticated
deriving DecidableEq

def Code.text : Code → String
  | .canceled => "Canceled"
  | .unknown => "Unknown"
  | .invalidArgument => "InvalidArgument"
  | .deadlineExceeded => "DeadlineExceeded"
  | .notFound => "NotFound"
  | .alreadyExists => "AlreadyExists"
  | .permissionDenied => "PermissionDenied"
  | .resourceExhausted => "ResourceExhausted"
  | .failedPrecondition => "FailedPrecondition"
  | .aborted => "Aborted"
  | .outOfRange => "OutOfRange"
  | .unimplemented => "Unimplemented"
  | .internal => "Internal"
  | .unavailable => "Unavailable"
  | .dataLoss => "DataLoss"
  | .unauthenticated => "Unauthenticated"

structure Status where
  code : Code
  message : String
deriving DecidableEq

def Status.text (err : Status) : String :=
  "rpc error: code = " ++ err.code.text ++ " desc = " ++ err.message

inductive CtxError where
  | canceled | deadlineExceeded
deriving DecidableEq

def CtxError.text : CtxError → String
  | .canceled => "context canceled"
  | .deadlineExceeded => "context deadline exceeded"

inductive TopError where
  | requestCancelled (err : CtxError)
  | getUser (userId : UInt64) (err : Status)
  | userNotFound (userId : UInt64)
  | getSubscribed (err : Status) (subscribedTo : Nat)
  | getVideo (likedVideos : Nat) (callFromGettopvideo : Bool) (nbatch : Nat) (err : Status)
  | getTrendingVideos (totalRequests : UInt64) (err : Status)
  | getVideoInfos (totalRequests : UInt64) (err : TopError)
deriving DecidableEq

def TopError.status : TopError → Status
  | .requestCancelled err => ⟨.canceled, "Request cancelled: " ++ err.text⟩
  | .getUser userId err =>
    ⟨err.code, "Error when running GetUser() for UserId: [" ++ toString userId ++ "], error: " ++
      err.text ++ " "⟩
  | .userNotFound userId =>
    ⟨.notFound, "User coeff not found for user with userId = " ++ toString userId⟩
  | .getSubscribed err subscribedTo =>
    ⟨err.code, "Error when running GetUser() for users in subscribed_to: err: " ++ err.text ++
      " len(substribed_to): " ++ toString subscribedTo⟩
  | .getVideo likedVideos callFromGettopvideo nbatch err =>
    ⟨err.code, "Error when running GetVideo() for videos in liked_videos_all. " ++
      "len(liked_videos_all): " ++ toString likedVideos ++ ", call_from_gettopvideo = " ++
      toString callFromGettopvideo ++ ", nbatch_videos: " ++ toString nbatch ++ ", error: " ++
      err.text ++ " "⟩
  | .getTrendingVideos totalRequests err =>
    ⟨err.code, "Error when running GetTrendingVideos(). total requests: " ++
      toString totalRequests ++ ", error: " ++ err.text ++ " "⟩
  | .getVideoInfos totalRequests err =>
    ⟨err.status.code, "Error when running get_video_infos(). total requests: " ++
      toString totalRequests ++ ", error: " ++ err.status.text ++ " "⟩

/-! ## 3. Configuration -/

structure VideoRecServiceOptions where
  maxBatchSize : Int
  disableFallback : Bool
  disableRetry : Bool
  clientPoolSize : Int
deriving DecidableEq

structure Ranked where
  ind : Nat
  rankScore : UInt64
deriving DecidableEq

/-- `sort.Slice` by descending score; equal scores come in any order. -/
structure Sorter where
  sort : List Ranked → List Ranked
  perm : ∀ xs, (sort xs).Perm xs
  sorted : ∀ xs, (sort xs).Pairwise fun a b => b.rankScore ≤ a.rankScore

/-- What `sort.Slice` does with up to twelve elements. -/
def Sorter.insertion : Sorter where
  sort := List.insertionSort fun a b => b.rankScore ≤ a.rankScore
  perm := List.perm_insertionSort _
  sorted xs :=
    have : Std.Total fun a b : Ranked => b.rankScore ≤ a.rankScore :=
      ⟨fun a b => UInt64.le_total b.rankScore a.rankScore⟩
    have : IsTrans Ranked fun a b => b.rankScore ≤ a.rankScore :=
      ⟨fun _ _ _ hab hbc => UInt64.le_trans hbc hab⟩
    List.pairwise_insertionSort _ xs

/-- What a server is made with and never changes. -/
structure Config where
  options : VideoRecServiceOptions
  uMockclient : Bool
  vMockclient : Bool
  /-- `len(nonmock_uclients)`. -/
  nonmockUclients : Nat
  nonmockVclients : Nat
  /-- `BcryptRanker.Rank`. -/
  rank : Option Coefficients → Coefficients → UInt64
  sorter : Sorter

section Make

variable (rank : Option Coefficients → Coefficients → UInt64) (sorter : Sorter)

/-- No `grpc.NewClient` fails. -/
def makeVideoRecServiceServer (options : VideoRecServiceOptions) : Config :=
  ⟨options, false, false, options.clientPoolSize.toNat, options.clientPoolSize.toNat, rank, sorter⟩

def makeVideoRecServiceServerWithMocks (options : VideoRecServiceOptions) : Config :=
  ⟨options, true, true, 0, 0, rank, sorter⟩

end Make

/-! ## 4. State -/

inductive Counter where
  | totalRequests | totalErrors | activeRequests | userServiceErrors | videoServiceErrors
  | staleResponses
deriving DecidableEq

structure Server where
  counters : Counter → UInt64
  averageLatencyMs : Float32
  p99LatencyMs : Float32
  accumulatedLatencyMs : Float32
  latencySlice : List Float32
  trendingVideos : List VideoInfo
  expirationTimeS : UInt64
  totalUserRequests : UInt64
  totalVideoRequests : UInt64
  vInd : Int64
  uInd : Int64

def Server.new : Server := ⟨fun _ => 0, 0, 0, 0, [], [], 0, 0, 0, 0, 0⟩

namespace Server

def increment (c : Counter) (s : Server) : Server :=
  { s with counters := Function.update s.counters c (s.counters c + 1) }

def decrement (c : Counter) (s : Server) : Server :=
  { s with counters := Function.update s.counters c (s.counters c - 1) }

end Server

/-! ## 5. What a call asks for -/

/-- The checks of `ctx.Err()`. -/
inductive CtxCheck where
  | afterVideoClient | afterUserClient | afterLookup | afterLiked | afterVideos
  | likedBefore | likedAfter
  | videosBefore (callFromGettopvideo : Bool) | videosAfter (callFromGettopvideo : Bool)
  | refreshClient | refreshTrending | refreshRetried | refreshInfos
deriving DecidableEq

inductive Client where
  | mock
  | nonmock (ind : Nat)
deriving DecidableEq

/-- `GetUser` for the user of the request, or for those it subscribes to. -/
inductive UserCall where
  | lookup | liked
deriving DecidableEq

inductive Query where
  | ctxErr (check : CtxCheck)
  | getUser (call : UserCall) (retry : Bool) (client : Client) (userIds : List UInt64)
  | getVideo (callFromGettopvideo retry : Bool) (client : Client) (videoIds : List UInt64)
  | getTrendingVideos (retry : Bool) (client : Client)
  /-- `time.Since(start).Milliseconds()`. -/
  | sinceStart
  /-- `tdigest.New()`, and `Quantile(0.99)` after these values. -/
  | quantile (latencies : List Float32)

abbrev Answer : Query → Type
  | .ctxErr _ => Option CtxError
  | .getUser .. => Except Status (List UserInfo)
  | .getVideo .. => Except Status (List VideoInfo)
  | .getTrendingVideos .. => Except Status GetTrendingVideosResponse
  | .sinceStart => Int64
  | .quantile _ => Except String Float

abbrev M := Prog Query Answer Server

abbrev Log := Sections.Log Query Answer

def increment (c : Counter) : M Unit := Prog.update (Server.increment c)

def countUserRequest : M Unit :=
  Prog.update fun s => { s with totalUserRequests := s.totalUserRequests + 1 }

def countVideoRequest : M Unit :=
  Prog.update fun s => { s with totalVideoRequests := s.totalVideoRequests + 1 }

/-- `if err := ctx.Err(); err != nil { return …, status.Errorf(codes.Canceled, …) }`. -/
def unlessCancelled {α : Type} (check : CtxCheck) (next : M (Except TopError α)) :
    M (Except TopError α) := do
  match ← Prog.request (Query.ctxErr check) with
  | some err => return .error (.requestCancelled err)
  | none => next

/-! ## 6. Clients -/

/-- The remainder by a pool size of zero panics under the lock. -/
def clientRoundRobin (index : Server → Int64) (advance : Server → Server) (poolSize : Int)
    (clients : Nat) : M Client :=
  if poolSize = 0 then .stuck
  else .sect advance fun s =>
    let ind := (index s).toInt.tmod poolSize
    if 0 ≤ ind ∧ ind < clients then .ret (.nonmock ind.toNat) else .stuck

def getUserClientRoundRobin (cfg : Config) : M Client :=
  clientRoundRobin Server.uInd (fun s => { s with uInd := s.uInd + 1 }) cfg.options.clientPoolSize
    cfg.nonmockUclients

def getVideoClientRoundRobin (cfg : Config) : M Client :=
  clientRoundRobin Server.vInd (fun s => { s with vInd := s.vInd + 1 }) cfg.options.clientPoolSize
    cfg.nonmockVclients

def userClient (cfg : Config) : M Client :=
  if cfg.uMockclient then pure .mock else getUserClientRoundRobin cfg

def videoClient (cfg : Config) : M Client :=
  if cfg.vMockclient then pure .mock else getVideoClientRoundRobin cfg

/-! ## 7. Attempts and retries -/

section Attempts

variable (cfg : Config) (client : Client)

/-- The second attempt, unless retries are disabled. -/
def again {α : Type} (err : Status) (attempt : M (Except Status α)) : M (Except Status α) :=
  if cfg.options.disableRetry then pure (.error err) else attempt

def lookupUser (userId : UInt64) : M (Except TopError (List UserInfo)) := do
  let first ← Prog.request (Query.getUser .lookup false client [userId])
  countUserRequest
  match first with
  | .ok users => return .ok users
  | .error err =>
    let second ← again cfg err (Prog.request (Query.getUser .lookup true client [userId]))
    countUserRequest
    match second with
    | .ok users => return .ok users
    | .error err =>
      increment .userServiceErrors
      return .error (.getUser userId err)

/-- One round of the loop of `get_liked_videos`, up to `GetUsers()`. -/
def likedBatch (subscribedTo : Nat) (batch : List UInt64) :
    M (Except TopError (List UserInfo)) :=
  unlessCancelled .likedBefore do
    let first ← Prog.request (Query.getUser .liked false client batch)
    countUserRequest
    match first with
    | .ok users => unlessCancelled .likedAfter (pure (.ok users))
    | .error err =>
      increment .userServiceErrors
      let second ← again cfg err (Prog.request (Query.getUser .liked true client batch))
      countUserRequest
      match second with
      | .ok users => unlessCancelled .likedAfter (pure (.ok users))
      | .error err =>
        increment .userServiceErrors
        return .error (.getSubscribed err subscribedTo)

/-- The errors of the video service count for `GetTopVideos` only. -/
def countVideoError (callFromGettopvideo : Bool) : M Unit :=
  if callFromGettopvideo then increment .videoServiceErrors else pure ()

/-- One round of the loop of `get_video_infos`. -/
def videoBatch (callFromGettopvideo : Bool) (likedVideos nbatch : Nat) (batch : List UInt64) :
    M (Except TopError (List VideoInfo)) :=
  unlessCancelled (.videosBefore callFromGettopvideo) do
    let first ← Prog.request (Query.getVideo callFromGettopvideo false client batch)
    countVideoRequest
    unlessCancelled (.videosAfter callFromGettopvideo) do
      match first with
      | .ok infos => return .ok infos
      | .error err =>
        countVideoError callFromGettopvideo
        let second ← again cfg err
          (Prog.request (Query.getVideo callFromGettopvideo true client batch))
        countVideoRequest
        match second with
        | .ok infos => return .ok infos
        | .error err =>
          countVideoError callFromGettopvideo
          return .error (.getVideo likedVideos callFromGettopvideo nbatch err)

end Attempts

/-! ## 8. Batches -/

/-- `int(math.Ceil(float64(n)/float64(MaxBatchSize)))`; the quotient by zero converts to the least
`int`, as on amd64. -/
def batchCount (maxBatchSize : Int) (n : Nat) : Nat :=
  (((n : Int) + maxBatchSize - 1) / maxBatchSize).toNat

def batches (maxBatchSize : Int) (ids : List UInt64) : List (List UInt64) :=
  let size := maxBatchSize.toNat
  let nbatch := if maxBatchSize ≤ 0 then 0 else batchCount maxBatchSize ids.length
  (List.range nbatch).map fun i =>
    if i < nbatch - 1 then (ids.drop (i * size)).take size else ids.drop (i * size)

/-- The videos that are not in `unique_videoid_map` yet, which holds those appended before. -/
def appendLiked (liked : List UInt64) (users : List UserInfo) : List UInt64 :=
  (users.flatMap UserInfo.likedVideos).foldl
    (fun liked video => if video ∈ liked then liked else liked ++ [video]) liked

def getLikedVideosLoop (cfg : Config) (client : Client) (subscribedTo : Nat) :
    List (List UInt64) → List UInt64 → M (Except TopError (List UInt64))
  | [], liked => return .ok liked
  | batch :: rest, liked => do
    match ← likedBatch cfg client subscribedTo batch with
    | .error err => return .error err
    | .ok users => getLikedVideosLoop cfg client subscribedTo rest (appendLiked liked users)

def getLikedVideos (cfg : Config) (client : Client) (subscribedTo : List UInt64) :
    M (Except TopError (List UInt64)) :=
  getLikedVideosLoop cfg client subscribedTo.length (batches cfg.options.maxBatchSize subscribedTo)
    []

def getVideoInfosLoop (cfg : Config) (client : Client) (callFromGettopvideo : Bool)
    (likedVideos nbatch : Nat) :
    List (List UInt64) → List VideoInfo → M (Except TopError (List VideoInfo))
  | [], infos => return .ok infos
  | batch :: rest, infos => do
    match ← videoBatch cfg client callFromGettopvideo likedVideos nbatch batch with
    | .error err => return .error err
    | .ok fetched =>
      getVideoInfosLoop cfg client callFromGettopvideo likedVideos nbatch rest (infos ++ fetched)

def getVideoInfos (cfg : Config) (client : Client) (callFromGettopvideo : Bool)
    (videoIds : List UInt64) : M (Except TopError (List VideoInfo)) :=
  getVideoInfosLoop cfg client callFromGettopvideo videoIds.length
    (batches cfg.options.maxBatchSize videoIds).length (batches cfg.options.maxBatchSize videoIds) []

/-! ## 9. Ranking -/

/-- The videos with coefficients, by their index. -/
def rankVideos (cfg : Config) (coeffs : Option Coefficients) (infos : List VideoInfo) :
    List Ranked :=
  infos.zipIdx.filterMap fun (info, i) =>
    info.videoCoefficients.map fun c => ⟨i, cfg.rank coeffs c⟩

def rankAndTruncate (cfg : Config) (infos : List VideoInfo) (coeffs : Option Coefficients)
    (limit : Int32) : List VideoInfo :=
  let sorted := (cfg.sorter.sort (rankVideos cfg coeffs infos)).filterMap fun r => infos[r.ind]?
  if 0 < limit ∧ limit ≤ Int32.ofNat sorted.length then sorted.take limit.toNatClampNeg else sorted

/-! ## 10. GetTopVideos -/

/-- The error of an RPC, or the cached videos: `TrendingVideos` is read twice, without the lock. -/
def orFallback (cfg : Config) (err : TopError) : M (Except TopError GetTopVideosResponse) := do
  let s ← Prog.look
  if !cfg.options.disableFallback ∧ s.trendingVideos.length > 0 then
    increment .staleResponses
    let s ← Prog.look
    return .ok ⟨s.trendingVideos, true, true⟩
  else
    increment .totalErrors
    return .error err

/-- The cached videos if there are any; also without the lock, and whatever the options say. -/
def orTrending (other : Except TopError GetTopVideosResponse) :
    M (Except TopError GetTopVideosResponse) := do
  let s ← Prog.look
  if s.trendingVideos.length > 0 then
    let s ← Prog.look
    return .ok ⟨s.trendingVideos, false, true⟩
  else
    return other

def requestedUser (userId : UInt64) (users : List UserInfo) :
    List UInt64 × Option Coefficients :=
  match users.find? fun user => user.userId == userId with
  | some user => (user.subscribedTo, user.userCoefficients)
  | none => ([], none)

def recommend (cfg : Config) (req : GetTopVideosRequest) (uclient vclient : Client)
    (users : List UserInfo) : M (Except TopError GetTopVideosResponse) := do
  let (subscribedTo, coeffs) := requestedUser req.userId users
  if subscribedTo.length = 0 then
    match coeffs with
    | none => orTrending (.error (.userNotFound req.userId))
    | some _ => orTrending (.ok ⟨[], false, false⟩)
  else
    match ← getLikedVideos cfg uclient subscribedTo with
    | .error err => orFallback cfg err
    | .ok liked => unlessCancelled .afterLiked do
      match ← getVideoInfos cfg vclient true liked with
      | .error err => orFallback cfg err
      | .ok infos => unlessCancelled .afterVideos do
        return .ok ⟨rankAndTruncate cfg infos coeffs req.limit, false, false⟩

/-- `GetTopVideos` between its first section and the deferred one. -/
def serveTopVideos (cfg : Config) (req : GetTopVideosRequest) :
    M (Except TopError GetTopVideosResponse) := do
  let vclient ← videoClient cfg
  unlessCancelled .afterVideoClient do
    let uclient ← userClient cfg
    unlessCancelled .afterUserClient do
      match ← lookupUser cfg uclient req.userId with
      | .error err => orFallback cfg err
      | .ok users => unlessCancelled .afterLookup (recommend cfg req uclient vclient users)

namespace Server

def beginRequest (s : Server) : Server := (s.increment .totalRequests).increment .activeRequests

def endRequest (latency : Int64) (s : Server) : Server :=
  let accumulated := s.accumulatedLatencyMs + latency.toFloat32
  { s.decrement .activeRequests with
    latencySlice := s.latencySlice ++ [latency.toFloat32]
    accumulatedLatencyMs := accumulated
    averageLatencyMs := accumulated / (s.counters .totalRequests).toFloat32 }

end Server

def getTopVideos (cfg : Config) (req : GetTopVideosRequest) :
    M (Except TopError GetTopVideosResponse) := do
  Prog.update Server.beginRequest
  let result ← serveTopVideos cfg req
  let latency ← Prog.request Query.sinceStart
  Prog.update (Server.endRequest latency)
  return result

/-! ## 11. The cache and the statistics -/

/-- `GetTrendingVideos`, once more after 11 s; retries are never disabled here. -/
def fetchTrending (vclient : Client) : M (Except TopError GetTrendingVideosResponse) := do
  let first ← Prog.request (Query.getTrendingVideos false vclient)
  unlessCancelled .refreshTrending do
    match first with
    | .ok response => return .ok response
    | .error _ =>
      match ← Prog.request (Query.getTrendingVideos true vclient) with
      | .ok response => return .ok response
      | .error err =>
        -- `TotalRequests` in the text is read without the lock
        let s ← Prog.look
        return .error (.getTrendingVideos (s.counters .totalRequests) err)

/-- The infos of the trending videos, and the whole of it once more after 11 s. -/
def fetchTrendingInfos (cfg : Config) (vclient : Client) (videoIds : List UInt64) :
    M (Except TopError (List VideoInfo)) := do
  let first ← getVideoInfos cfg vclient false videoIds
  unlessCancelled .refreshInfos do
    match first with
    | .ok infos => return .ok infos
    | .error _ =>
      match ← getVideoInfos cfg vclient false videoIds with
      | .ok infos => return .ok infos
      | .error err =>
        let s ← Prog.look
        return .error (.getVideoInfos (s.counters .totalRequests) err)

def updateTrendingVideos (cfg : Config) : M (Except TopError Unit) := do
  let vclient ← videoClient cfg
  unlessCancelled .refreshClient do
    match ← fetchTrending vclient with
    | .error err => return .error err
    | .ok response => unlessCancelled .refreshRetried do
      match ← fetchTrendingInfos cfg vclient response.videos with
      | .error err => return .error err
      | .ok infos =>
        Prog.update fun s =>
          { s with trendingVideos := infos, expirationTimeS := response.expirationTimeS }
        return .ok ()

/-- The fields of the response are read one after the other, without the lock. -/
def getStats : M (Except String GetStatsResponse) := do
  let s ← Prog.look
  match ← Prog.request (Query.quantile s.latencySlice) with
  | .error err => return .error err
  | .ok p99LatencyMs =>
    Prog.update fun s => { s with p99LatencyMs := p99LatencyMs.toFloat32 }
    let totalRequests := (← Prog.look).counters .totalRequests
    let totalErrors := (← Prog.look).counters .totalErrors
    let activeRequests := (← Prog.look).counters .activeRequests
    let userServiceErrors := (← Prog.look).counters .userServiceErrors
    let videoServiceErrors := (← Prog.look).counters .videoServiceErrors
    let averageLatencyMs := (← Prog.look).averageLatencyMs
    let p99LatencyMs := (← Prog.look).p99LatencyMs
    let staleResponses := (← Prog.look).counters .staleResponses
    return .ok ⟨totalRequests, totalErrors, activeRequests, userServiceErrors, videoServiceErrors,
      averageLatencyMs, p99LatencyMs, staleResponses⟩

/-! ## 12. The service -/

inductive Request where
  | getTopVideos (req : GetTopVideosRequest)
  | getStats
  /-- A round of `ContinuallyRefreshCache` after the expiration time. -/
  | refresh
deriving DecidableEq

inductive Result where
  | topVideos (result : Except TopError GetTopVideosResponse)
  | stats (result : Except String GetStatsResponse)
  | refreshed (result : Except TopError Unit)

def handle (cfg : Config) : Request → M Result
  | .getTopVideos req => do return .topVideos (← getTopVideos cfg req)
  | .getStats => do return .stats (← getStats)
  | .refresh => do return .refreshed (← updateTrendingVideos cfg)

end VideoRec
