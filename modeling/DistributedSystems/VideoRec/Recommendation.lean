import Mathlib.Data.Set.Card
import DistributedSystems.VideoRec.Server

/-!
# Recommendations in batches

`GetTopVideos` against a user service and a video service that answer from their databases, while
the context is alive.  The response has the best of the videos that the subscribed-to users like,
whatever the batch size is, unless their number does not fit an `int32`.
-/

namespace VideoRec

open Sections

/-! ## 1. The services -/

/-- The records of both services, each with its own key. -/
structure Database where
  users : UInt64 → Option UserInfo
  videos : UInt64 → Option VideoInfo
  userId : ∀ id user, users id = some user → user.userId = id
  videoId : ∀ id video, videos id = some video → video.videoId = id

/-- The ids that are not in the list yet are appended, one after the other. -/
def appendNew (seen ids : List UInt64) : List UInt64 :=
  ids.foldl (fun seen id => if id ∈ seen then seen else seen ++ [id]) seen

def deduplicateIds (ids : List UInt64) : List UInt64 := appendNew [] ids

def lookupAll {α : Type} (service record : String) (find : UInt64 → Option α) (ids : List UInt64) :
    Except Status (List α) :=
  ids.mapM fun id =>
    match find id with
    | some info => .ok info
    | none => .error ⟨.notFound, service ++ ": " ++ record ++ " " ++ toString id ++
        " cannot be found, it may have been deleted or never existed in the first place."⟩

namespace Database

variable (db : Database) (maxBatchSize : Int)

/-- `GetUser` of the user service, without an injected failure. -/
def getUser (userIds : List UInt64) : Except Status (List UserInfo) :=
  if userIds.length = 0 then
    .error ⟨.invalidArgument, "UserService: user_ids in GetUserRequest should not be empty"⟩
  else if maxBatchSize < userIds.length then
    .error ⟨.invalidArgument,
      "UserService: user_ids exceeded the max batch size " ++ toString maxBatchSize⟩
  else lookupAll "UserService" "user" db.users userIds

/-- `GetVideo` of the video service, without an injected failure. -/
def getVideo (videoIds : List UInt64) : Except Status (List VideoInfo) :=
  if videoIds.length = 0 then
    .error ⟨.invalidArgument, "VideoService: video_ids in GetVideoRequest should not be empty"⟩
  else if maxBatchSize < videoIds.length then
    .error ⟨.invalidArgument,
      "VideoService: video_ids exceeded the max batch size " ++ toString maxBatchSize⟩
  else if (deduplicateIds videoIds).length ≠ videoIds.length then
    .error ⟨.invalidArgument, "VideoService: duplicate IDs found in video_ids"⟩
  else lookupAll "VideoService" "video" db.videos videoIds

/-- The services answer from the database, and the context is alive. -/
def Answered : (q : Query) → Answer q → Prop
  | .ctxErr _, err => err = none
  | .getUser _ _ _ ids, users => users = db.getUser maxBatchSize ids
  | .getVideo _ _ _ ids, infos => infos = db.getVideo maxBatchSize ids
  | _, _ => True

/-- Every record that a recommendation for the user needs is there. -/
def Complete (user : UserInfo) : Prop :=
  ∀ id ∈ user.subscribedTo, ∃ other, db.users id = some other ∧
    ∀ video ∈ other.likedVideos, (db.videos video).isSome = true

/-- The videos with coefficients that a subscribed-to user likes. -/
def eligible (user : UserInfo) : Set VideoInfo :=
  { v | v.videoCoefficients ≠ none ∧ db.videos v.videoId = some v ∧
    ∃ id ∈ user.subscribedTo, ∃ other, db.users id = some other ∧ v.videoId ∈ other.likedVideos }

end Database

def Fits (maxBatchSize : Int) (ids : List UInt64) : Prop := ids ≠ [] ∧ ids.length ≤ maxBatchSize

/-- The request passes the checks of its service. -/
def Query.Accepted (maxBatchSize : Int) : Query → Prop
  | .getUser _ _ _ ids => Fits maxBatchSize ids
  | .getVideo _ _ _ ids => Fits maxBatchSize ids ∧ ids.Nodup
  | _ => True

/-! ## 2. New ids -/

section AppendNew

variable {seen ids : List UInt64}

theorem appendNew_cons (id : UInt64) :
    appendNew seen (id :: ids) = appendNew (if id ∈ seen then seen else seen ++ [id]) ids := rfl

theorem mem_appendNew {x : UInt64} : x ∈ appendNew seen ids ↔ x ∈ seen ∨ x ∈ ids := by
  induction ids generalizing seen with
  | nil => simp [appendNew]
  | cons id ids ih =>
    rw [appendNew_cons, ih, List.mem_cons]
    split
    · next h => grind
    · rw [List.mem_append, List.mem_singleton, or_assoc]

theorem nodup_appendNew (h : seen.Nodup) : (appendNew seen ids).Nodup := by
  induction ids generalizing seen with
  | nil => exact h
  | cons id ids ih =>
    rw [appendNew_cons]
    apply ih
    split
    · exact h
    · next hid =>
      refine List.nodup_append.mpr ⟨h, List.nodup_singleton id, ?_⟩
      simpa using fun x hx => ne_of_mem_of_not_mem hx hid

theorem appendNew_of_nodup (h : (seen ++ ids).Nodup) : appendNew seen ids = seen ++ ids := by
  induction ids generalizing seen with
  | nil => rw [List.append_nil, appendNew, List.foldl_nil]
  | cons id ids ih =>
    have hid : id ∉ seen := by
      intro hmem
      exact (List.nodup_append.mp h).2.2 id hmem id List.mem_cons_self rfl
    rw [appendNew_cons, if_neg hid, ih (by simpa using h), List.append_assoc, List.singleton_append]

end AppendNew

/-! ## 3. Batches -/

section Batches

variable {k : Int} {ids : List UInt64}

theorem batches_eq (ids : List UInt64) (hk : 1 ≤ k) : ∃ n, batches k ids =
      (List.range n).map (fun i => (ids.drop (i * k.toNat)).take k.toNat) ∧
    ids.length ≤ n * k.toNat ∧ ∀ i < n, i * k.toNat < ids.length := by
  obtain ⟨c, rfl⟩ : ∃ c : Nat, k = c := ⟨k.toNat, by omega⟩
  have hc : 0 < c := by omega
  have hcount : batchCount c ids.length = (ids.length + c - 1) / c := by
    unfold batchCount
    have hcast : (ids.length : Int) + c - 1 = ((ids.length + c - 1 : Nat) : Int) := by omega
    rw [hcast]
    exact Int.toNat_natCast _
  obtain ⟨n, hn⟩ : ∃ n, n = (ids.length + c - 1) / c := ⟨_, rfl⟩
  have hupper : ids.length ≤ n * c := by
    have hlt := Nat.lt_div_mul_add hc (a := ids.length + c - 1)
    rw [← hn] at hlt
    omega
  have hlower : ∀ i < n, i * c < ids.length := by
    intro i hi
    rw [hn] at hi
    have hle := (Nat.le_div_iff_mul_le hc).mp (Nat.succ_le_of_lt hi)
    rw [Nat.succ_mul] at hle
    omega
  refine ⟨n, ?_, hupper, hlower⟩
  unfold batches
  rw [if_neg (by omega), hcount, ← hn]
  apply List.map_congr_left
  intro i hi
  have hi := List.mem_range.mp hi
  rw [Int.toNat_natCast]
  split
  · rfl
  · next hlast =>
    obtain rfl : i = n - 1 := by omega
    rw [List.take_of_length_le]
    rw [List.length_drop, Nat.sub_mul, Nat.one_mul]
    omega

theorem flatten_slices (ids : List UInt64) (c n : Nat) :
    ((List.range n).map fun i => (ids.drop (i * c)).take c).flatten = ids.take (n * c) := by
  induction n with
  | zero => simp
  | succ n ih =>
    rw [List.range_succ, List.map_append, List.flatten_append, ih, Nat.succ_mul, List.take_add]
    simp

theorem flatten_batches (ids : List UInt64) (hk : 1 ≤ k) : (batches k ids).flatten = ids := by
  obtain ⟨n, hn, hupper, _⟩ := batches_eq ids hk
  rw [hn, flatten_slices, List.take_of_length_le hupper]

theorem batch_fits (hk : 1 ≤ k) : ∀ batch ∈ batches k ids, Fits k batch := by
  intro batch hb
  obtain ⟨n, hn, _, hlower⟩ := batches_eq ids hk
  rw [hn] at hb
  obtain ⟨i, hi, rfl⟩ := List.mem_map.mp hb
  have hpos := hlower i (List.mem_range.mp hi)
  have hlen : ((ids.drop (i * k.toNat)).take k.toNat).length =
      min k.toNat (ids.length - i * k.toNat) := by
    rw [List.length_take, List.length_drop]
  refine ⟨fun hnil => ?_, by omega⟩
  rw [hnil, List.length_nil] at hlen
  omega

end Batches

/-! ## 4. The calls -/

section Sure

/-- With a pool, the servers of the pool have a client each. -/
def Config.Pooled (cfg : Config) (mock : Bool) (clients : Nat) : Prop :=
  mock = false → 0 < cfg.options.clientPoolSize ∧ clients = cfg.options.clientPoolSize.toNat

/-- The server is from one of its constructors, with a pool of at least one client. -/
def Config.Connected (cfg : Config) : Prop :=
  cfg.Pooled cfg.uMockclient cfg.nonmockUclients ∧ cfg.Pooled cfg.vMockclient cfg.nonmockVclients

theorem connected_server (rank : Option Coefficients → Coefficients → UInt64) (sorter : Sorter)
    {options : VideoRecServiceOptions} (h : 0 < options.clientPoolSize) :
    (makeVideoRecServiceServer rank sorter options).Connected :=
  ⟨fun _ => ⟨h, rfl⟩, fun _ => ⟨h, rfl⟩⟩

theorem connected_mocks (rank : Option Coefficients → Coefficients → UInt64) (sorter : Sorter)
    (options : VideoRecServiceOptions) :
    (makeVideoRecServiceServerWithMocks rank sorter options).Connected :=
  ⟨fun h => Bool.noConfusion h, fun h => Bool.noConfusion h⟩

/-- No index of a pool has wrapped around. -/
def Config.Indexed (cfg : Config) (s : Server) : Prop :=
  (cfg.uMockclient = false → 0 ≤ s.uInd.toInt) ∧ (cfg.vMockclient = false → 0 ≤ s.vInd.toInt)

/-- The program sends acceptable requests only, and returns what `post` says. -/
abbrev Works {α : Type} (cfg : Config) (db : Database) (post : α → Prop) (p : M α) : Prop :=
  Sure cfg.Indexed (db.Answered cfg.options.maxBatchSize)
    (Query.Accepted cfg.options.maxBatchSize) post p

variable {cfg : Config} {db : Database} {α : Type}

theorem lookupAll_eq {service record : String} {find : UInt64 → Option α} {ids : List UInt64}
    (h : ∀ id ∈ ids, (find id).isSome = true) :
    lookupAll service record find ids = .ok (ids.filterMap find) := by
  unfold lookupAll
  induction ids with
  | nil => rfl
  | cons id ids ih =>
    obtain ⟨info, hinfo⟩ := Option.isSome_iff_exists.mp (h id List.mem_cons_self)
    rw [List.mapM_cons, ih fun id hid => h id (List.mem_cons_of_mem _ hid), hinfo,
      List.filterMap_cons_some hinfo]
    rfl

theorem getUser_eq {n : Int} {ids : List UInt64} (hids : Fits n ids)
    (h : ∀ id ∈ ids, (db.users id).isSome = true) :
    db.getUser n ids = .ok (ids.filterMap db.users) := by
  unfold Database.getUser
  rw [if_neg (by simpa using hids.1), if_neg (Int.not_lt.mpr hids.2), lookupAll_eq h]

theorem getVideo_eq {n : Int} {ids : List UInt64} (hids : Fits n ids) (hnodup : ids.Nodup)
    (h : ∀ id ∈ ids, (db.videos id).isSome = true) :
    db.getVideo n ids = .ok (ids.filterMap db.videos) := by
  have hdedup : deduplicateIds ids = ids := appendNew_of_nodup hnodup
  unfold Database.getVideo
  rw [if_neg (by simpa using hids.1), if_neg (Int.not_lt.mpr hids.2), hdedup,
    if_neg (fun hne => hne rfl), lookupAll_eq h]

theorem works_unlessCancelled {check : CtxCheck} {next : M (Except TopError α)}
    {post : Except TopError α → Prop} (h : Works cfg db post next) :
    Works cfg db post (unlessCancelled check next) := by
  refine sure_bind (sure_request trivial fun _ ha => ha) ?_
  rintro err rfl
  exact h

theorem works_client {mock : Bool} {index : Server → Int64} {advance : Server → Server}
    {clients : Nat} (h : cfg.Pooled mock clients)
    (hindex : ∀ s, cfg.Indexed s → mock = false → 0 ≤ (index s).toInt) :
    Works cfg db (fun _ => True) (if mock then pure .mock else
      clientRoundRobin index advance cfg.options.clientPoolSize clients) := by
  cases mock with
  | true => trivial
  | false =>
    obtain ⟨hpos, hclients⟩ := h rfl
    unfold clientRoundRobin
    rw [if_neg Bool.false_ne_true, if_neg (by omega)]
    intro s hs
    have hnonneg := Int.tmod_nonneg cfg.options.clientPoolSize (hindex s hs rfl)
    have hlt := Int.tmod_lt_of_pos (index s).toInt hpos
    simp only
    rw [if_pos ⟨hnonneg, by omega⟩]
    trivial

theorem works_lookupUser (hn : 1 ≤ cfg.options.maxBatchSize) {client : Client} {id : UInt64}
    {user : UserInfo} (huser : db.users id = some user) :
    Works cfg db (· = .ok [user]) (lookupUser cfg client id) := by
  have hids : Fits cfg.options.maxBatchSize [id] := ⟨List.cons_ne_nil _ _, hn⟩
  refine sure_bind (sure_request hids fun _ ha => ha) ?_
  intro first hfirst
  rw [show first = _ from hfirst, getUser_eq hids (by simp [huser]), List.filterMap_cons_some huser]
  exact sure_bind sure_update fun _ _ => rfl

theorem works_likedBatch {client : Client} {subscribedTo : Nat} {batch : List UInt64}
    (hfits : Fits cfg.options.maxBatchSize batch) (h : ∀ id ∈ batch, (db.users id).isSome = true) :
    Works cfg db (· = .ok (batch.filterMap db.users))
      (likedBatch cfg client subscribedTo batch) := by
  apply works_unlessCancelled
  refine sure_bind (sure_request hfits fun _ ha => ha) ?_
  intro first hfirst
  rw [show first = _ from hfirst, getUser_eq hfits h]
  exact sure_bind sure_update fun _ _ => works_unlessCancelled rfl

theorem works_videoBatch {client : Client} {top : Bool} {likedVideos nbatch : Nat}
    {batch : List UInt64} (hfits : Fits cfg.options.maxBatchSize batch) (hnodup : batch.Nodup)
    (h : ∀ id ∈ batch, (db.videos id).isSome = true) :
    Works cfg db (· = .ok (batch.filterMap db.videos))
      (videoBatch cfg client top likedVideos nbatch batch) := by
  apply works_unlessCancelled
  refine sure_bind (sure_request ⟨hfits, hnodup⟩ fun _ ha => ha) ?_
  intro first hfirst
  rw [show first = _ from hfirst, getVideo_eq hfits hnodup h]
  exact sure_bind sure_update fun _ _ => works_unlessCancelled rfl

theorem works_getLikedVideosLoop {client : Client} {subscribedTo : Nat}
    {batches : List (List UInt64)} {liked : List UInt64}
    (hfits : ∀ b ∈ batches, Fits cfg.options.maxBatchSize b)
    (h : ∀ id ∈ batches.flatten, (db.users id).isSome = true) :
    Works cfg db
      (· = .ok (appendNew liked ((batches.flatten.filterMap db.users).flatMap (·.likedVideos))))
      (getLikedVideosLoop cfg client subscribedTo batches liked) := by
  induction batches generalizing liked with
  | nil => rfl
  | cons batch rest ih =>
    rw [List.forall_mem_cons] at hfits
    rw [List.flatten_cons, List.forall_mem_append] at h
    refine sure_bind (works_likedBatch hfits.1 h.1) ?_
    rintro _ rfl
    rw [List.flatten_cons, List.filterMap_append, List.flatMap_append, appendNew, List.foldl_append]
    exact ih hfits.2 h.2

theorem works_getVideoInfosLoop {client : Client} {top : Bool} {likedVideos nbatch : Nat}
    {batches : List (List UInt64)} {infos : List VideoInfo}
    (hfits : ∀ b ∈ batches, Fits cfg.options.maxBatchSize b)
    (hnodup : batches.flatten.Nodup) (h : ∀ id ∈ batches.flatten, (db.videos id).isSome = true) :
    Works cfg db (· = .ok (infos ++ batches.flatten.filterMap db.videos))
      (getVideoInfosLoop cfg client top likedVideos nbatch batches infos) := by
  induction batches generalizing infos with
  | nil =>
    rw [List.flatten_nil, List.filterMap_nil, List.append_nil]
    rfl
  | cons batch rest ih =>
    rw [List.forall_mem_cons] at hfits
    rw [List.flatten_cons, List.forall_mem_append] at h
    rw [List.flatten_cons, List.nodup_append] at hnodup
    refine sure_bind (works_videoBatch hfits.1 hnodup.1 h.1) ?_
    rintro _ rfl
    rw [List.flatten_cons, List.filterMap_append, ← List.append_assoc]
    exact ih hfits.2 hnodup.2.1 h.2

theorem works_orTrending {other : Except TopError GetTopVideosResponse} :
    Works cfg db (fun _ => True) (orTrending other) := by
  intro s _
  dsimp only [Prog.bind]
  split
  · exact fun _ _ => trivial
  · trivial

namespace Database

variable (db)

def likedVideos (user : UserInfo) : List UInt64 :=
  appendNew [] ((user.subscribedTo.filterMap db.users).flatMap (·.likedVideos))

variable {db} {user : UserInfo}

theorem mem_likedVideos {video : UInt64} : video ∈ db.likedVideos user ↔
    ∃ id ∈ user.subscribedTo, ∃ other, db.users id = some other ∧ video ∈ other.likedVideos := by
  simp only [likedVideos, mem_appendNew, List.mem_flatMap, List.mem_filterMap, List.not_mem_nil,
    false_or]
  constructor
  · rintro ⟨other, ⟨id, hid, hother⟩, hvideo⟩
    exact ⟨id, hid, other, hother, hvideo⟩
  · rintro ⟨id, hid, other, hother, hvideo⟩
    exact ⟨other, ⟨id, hid, hother⟩, hvideo⟩

theorem nodup_likedVideos : (db.likedVideos user).Nodup := nodup_appendNew List.nodup_nil

theorem Complete.videos (h : db.Complete user) :
    ∀ video ∈ db.likedVideos user, (db.videos video).isSome = true := by
  intro video hvideo
  obtain ⟨id, hid, other, hother, hliked⟩ := mem_likedVideos.mp hvideo
  obtain ⟨other', hother', hall⟩ := h id hid
  obtain rfl : other' = other := Option.some.inj (hother'.symm.trans hother)
  exact hall video hliked

end Database

variable {user : UserInfo} {req : GetTopVideosRequest} {client : Client}

theorem works_getLikedVideos (hn : 1 ≤ cfg.options.maxBatchSize) (h : db.Complete user) :
    Works cfg db (· = .ok (db.likedVideos user)) (getLikedVideos cfg client user.subscribedTo) := by
  have hflat := flatten_batches user.subscribedTo hn
  unfold Database.likedVideos
  nth_rewrite 1 [← hflat]
  apply works_getLikedVideosLoop
  · exact batch_fits hn
  · rw [hflat]
    intro id hid
    obtain ⟨other, hother, _⟩ := h id hid
    rw [hother, Option.isSome_some]

theorem works_getVideoInfos (hn : 1 ≤ cfg.options.maxBatchSize) {top : Bool} {ids : List UInt64}
    (hnodup : ids.Nodup) (h : ∀ id ∈ ids, (db.videos id).isSome = true) :
    Works cfg db (· = .ok (ids.filterMap db.videos)) (getVideoInfos cfg client top ids) := by
  have hflat := flatten_batches ids hn
  nth_rewrite 1 [← hflat]
  rw [← List.nil_append (List.filterMap _ _)]
  apply works_getVideoInfosLoop
  · exact batch_fits hn
  · rwa [hflat]
  · rwa [hflat]

def Ranks (cfg : Config) (db : Database) (user : UserInfo) (limit : Int32)
    (result : Except TopError GetTopVideosResponse) : Prop :=
  user.subscribedTo ≠ [] → result = .ok ⟨rankAndTruncate cfg
    ((db.likedVideos user).filterMap db.videos) user.userCoefficients limit, false, false⟩

theorem works_recommend (hn : 1 ≤ cfg.options.maxBatchSize) (huser : user.userId = req.userId)
    (hcomplete : db.Complete user) {uclient vclient : Client} :
    Works cfg db (Ranks cfg db user req.limit) (recommend cfg req uclient vclient [user]) := by
  have hrequested : requestedUser req.userId [user] =
      (user.subscribedTo, user.userCoefficients) := by
    simp [requestedUser, huser]
  unfold recommend
  rw [hrequested]
  dsimp only
  split
  · next hnone =>
    have hranks : ∀ result, Ranks cfg db user req.limit result :=
      fun _ h => absurd (List.length_eq_zero_iff.mp hnone) h
    split <;> exact sure_mono works_orTrending fun result _ => hranks result
  · refine sure_bind (works_getLikedVideos hn hcomplete) ?_
    rintro _ rfl
    apply works_unlessCancelled
    refine sure_bind (works_getVideoInfos hn Database.nodup_likedVideos hcomplete.videos) ?_
    rintro _ rfl
    exact works_unlessCancelled fun _ => rfl

theorem works_getTopVideos (cfg : Config) (req : GetTopVideosRequest)
    (hn : 1 ≤ cfg.options.maxBatchSize) (hcfg : cfg.Connected)
    (huser : db.users req.userId = some user) (hcomplete : db.Complete user) :
    Works cfg db (Ranks cfg db user req.limit) (getTopVideos cfg req) := by
  have hserve : Works cfg db (Ranks cfg db user req.limit) (serveTopVideos cfg req) := by
    refine sure_bind (works_client hcfg.2 fun s hs => hs.2) fun vclient _ => ?_
    apply works_unlessCancelled
    refine sure_bind (works_client hcfg.1 fun s hs => hs.1) fun uclient _ => ?_
    apply works_unlessCancelled
    refine sure_bind (works_lookupUser hn huser) ?_
    rintro _ rfl
    exact works_unlessCancelled (works_recommend hn (db.userId _ _ huser) hcomplete)
  refine sure_bind sure_update fun _ _ => ?_
  refine sure_bind hserve fun result hresult => ?_
  refine sure_bind (sure_request trivial fun _ ha => ha) fun latency _ => ?_
  exact sure_bind sure_update fun _ _ => hresult

end Sure

/-! ## 5. Ranking -/

def score (cfg : Config) (coeffs : Option Coefficients) (v : VideoInfo) : UInt64 :=
  cfg.rank coeffs (v.videoCoefficients.getD [])

/-- The best videos of the set, up to the limit if there is one. -/
structure Best (videos : Set VideoInfo) (score : VideoInfo → UInt64) (limit : Int32)
    (list : List VideoInfo) : Prop where
  nodup : list.Nodup
  sorted : list.Pairwise fun a b => score b ≤ score a
  among : ∀ v ∈ list, v ∈ videos
  all : limit ≤ 0 → ∀ v ∈ videos, v ∈ list
  count : 0 < limit → list.length = min limit.toNatClampNeg videos.ncard
  best : ∀ v ∈ videos, v ∉ list → ∀ w ∈ list, score v ≤ score w

section Ranking

variable {cfg : Config} {coeffs : Option Coefficients} {infos : List VideoInfo} {limit : Int32}

def sortedInfos (cfg : Config) (coeffs : Option Coefficients) (infos : List VideoInfo) :
    List VideoInfo :=
  (cfg.sorter.sort (rankVideos cfg coeffs infos)).filterMap fun r => infos[r.ind]?

theorem rankAndTruncate_eq : rankAndTruncate cfg infos coeffs limit =
    if 0 < limit ∧ limit ≤ Int32.ofNat (sortedInfos cfg coeffs infos).length then
      (sortedInfos cfg coeffs infos).take limit.toNatClampNeg
    else sortedInfos cfg coeffs infos := rfl

theorem mem_rankVideos {r : Ranked} : r ∈ rankVideos cfg coeffs infos ↔
    ∃ v, infos[r.ind]? = some v ∧ v.videoCoefficients ≠ none ∧
      r.rankScore = score cfg coeffs v := by
  unfold rankVideos score
  rw [List.mem_filterMap]
  constructor
  · rintro ⟨⟨v, i⟩, hvi, hr⟩
    obtain ⟨c, hc, rfl⟩ := Option.map_eq_some_iff.mp hr
    refine ⟨v, List.mem_zipIdx_iff_getElem?.mp hvi, ?_, ?_⟩
    · simp [hc]
    · rw [hc, Option.getD_some]
  · rintro ⟨v, hv, hcoeff, hr⟩
    obtain ⟨c, hc⟩ := Option.ne_none_iff_exists'.mp hcoeff
    refine ⟨⟨v, r.ind⟩, List.mem_zipIdx_iff_getElem?.mpr hv, ?_⟩
    rw [hc, Option.getD_some] at hr
    simp only [hc, Option.map_some, ← hr]

theorem perm_sortedInfos : (sortedInfos cfg coeffs infos).Perm
    (infos.filter fun v => v.videoCoefficients.isSome) := by
  refine ((cfg.sorter.perm _).filterMap _).trans (List.Perm.of_eq ?_)
  -- an index leads back to the video it was taken from
  have hback : ∀ x ∈ infos.zipIdx,
      ((x.1.videoCoefficients.map fun c => (⟨x.2, cfg.rank coeffs c⟩ : Ranked)).bind
          fun r => infos[r.ind]?) = Option.guard (fun v => v.videoCoefficients.isSome) x.1 := by
    intro x hx
    have hget := List.mem_zipIdx_iff_getElem?.mp hx
    cases hc : x.1.videoCoefficients with
    | none => simp [Option.guard, hc]
    | some c => simp [hc, hget]
  calc (rankVideos cfg coeffs infos).filterMap (fun r => infos[r.ind]?)
      = infos.zipIdx.filterMap (Option.guard (fun v => v.videoCoefficients.isSome) ∘ Prod.fst) := by
        unfold rankVideos
        rw [List.filterMap_filterMap]
        exact List.filterMap_congr hback
    _ = infos.filter fun v => v.videoCoefficients.isSome := by
        rw [← List.filterMap_map, List.zipIdx_map_fst, List.filterMap_eq_filter]

theorem sorted_sortedInfos :
    (sortedInfos cfg coeffs infos).Pairwise fun a b => score cfg coeffs b ≤ score cfg coeffs a := by
  apply List.pairwise_filterMap.mpr
  refine (cfg.sorter.sorted _).imp_of_mem ?_
  intro a b ha hb hab v hv w hw
  obtain ⟨v', hv', _, hav⟩ := mem_rankVideos.mp ((cfg.sorter.perm _).mem_iff.mp ha)
  obtain ⟨w', hw', _, hbw⟩ := mem_rankVideos.mp ((cfg.sorter.perm _).mem_iff.mp hb)
  obtain rfl : v' = v := Option.some.inj (hv'.symm.trans hv)
  obtain rfl : w' = w := Option.some.inj (hw'.symm.trans hw)
  rwa [← hav, ← hbw]

/-- With `int32(len)` for the length, a list that is too long is not truncated. -/
theorem best_truncated_iff {videos : Set VideoInfo} {score : VideoInfo → UInt64}
    {list : List VideoInfo} (hnodup : list.Nodup)
    (hsorted : list.Pairwise fun a b => score b ≤ score a) (hmem : ∀ v, v ∈ list ↔ v ∈ videos) :
    Best videos score limit (if 0 < limit ∧ limit ≤ Int32.ofNat list.length then
        list.take limit.toNatClampNeg else list) ↔
      (0 < limit → limit ≤ Int32.ofNat videos.ncard ∨ videos.ncard ≤ limit.toNatClampNeg) := by
  have hcard : videos.ncard = list.length := by
    classical
    have hset : videos = (list.toFinset : Set VideoInfo) := by
      ext v
      rw [List.coe_toFinset, Set.mem_ofPred_eq, hmem]
    rw [hset, Set.ncard_coe_finset, List.toFinset_card_of_nodup hnodup]
  rw [hcard]
  split
  · next htrunc =>
    refine iff_of_true ?_ fun _ => Or.inl htrunc.2
    have hparts := List.take_append_drop limit.toNatClampNeg list
    refine ⟨hnodup.sublist (List.take_sublist _ _), hsorted.sublist (List.take_sublist _ _),
      fun v hv => (hmem v).mp (List.mem_of_mem_take hv), fun hle => ?_, fun _ => ?_, ?_⟩
    · exact absurd htrunc.1 (Int32.not_lt.mpr hle)
    · rw [List.length_take, hcard]
    · intro v hv hout w hw
      rw [← hmem, ← hparts, List.mem_append] at hv
      rw [← hparts] at hsorted
      exact (List.pairwise_append.mp hsorted).2.2 w hw v (hv.resolve_left hout)
  · next hwhole =>
    constructor
    · intro hbest hpos
      have hcount := hbest.count hpos
      omega
    · intro hfits
      refine ⟨hnodup, hsorted, fun v => (hmem v).mp, fun _ v => (hmem v).mpr, fun hpos => ?_,
        fun v hv hout => absurd ((hmem v).mpr hv) hout⟩
      have hle : list.length ≤ limit.toNatClampNeg :=
        (hfits hpos).resolve_left fun hle => hwhole ⟨hpos, hle⟩
      omega

end Ranking

/-! ## 6. The recommendation -/

section Recommendation

variable {cfg : Config} {db : Database} {user : UserInfo} {coeffs : Option Coefficients}

theorem mem_sortedInfos_iff (v : VideoInfo) :
    v ∈ sortedInfos cfg coeffs ((db.likedVideos user).filterMap db.videos) ↔
      v ∈ db.eligible user := by
  rw [perm_sortedInfos.mem_iff, List.mem_filter, List.mem_filterMap, Option.isSome_iff_ne_none]
  constructor
  · rintro ⟨⟨id, hid, hv⟩, hcoeff⟩
    obtain rfl := db.videoId id v hv
    exact ⟨hcoeff, hv, Database.mem_likedVideos.mp hid⟩
  · rintro ⟨hcoeff, hv, hliked⟩
    exact ⟨⟨v.videoId, Database.mem_likedVideos.mpr hliked, hv⟩, hcoeff⟩

theorem nodup_sortedInfos :
    (sortedInfos cfg coeffs ((db.likedVideos user).filterMap db.videos)).Nodup := by
  refine perm_sortedInfos.nodup_iff.mpr (List.Nodup.filter _ ?_)
  refine Database.nodup_likedVideos.filterMap ?_
  intro id id' v hv hv'
  exact (db.videoId id v hv).symm.trans (db.videoId id' v hv')

/-- Whatever the batch size: a call for a known user whose records are all there returns, all its
requests pass the checks of the services, and the response to a user with subscriptions has the best
of the eligible videos exactly when no truncation is missed. -/
theorem recommendation_exact_iff (cfg : Config) (db : Database) (req : GetTopVideosRequest)
    (user : UserInfo) (hn : 1 ≤ cfg.options.maxBatchSize) (hcfg : cfg.Connected)
    (huser : db.users req.userId = some user) (hcomplete : db.Complete user) :
    Sure cfg.Indexed (db.Answered cfg.options.maxBatchSize)
      (Query.Accepted cfg.options.maxBatchSize)
      (fun result => user.subscribedTo ≠ [] → ∃ videos, result = .ok ⟨videos, false, false⟩ ∧
        (Best (db.eligible user) (score cfg user.userCoefficients) req.limit videos ↔
          (0 < req.limit → req.limit ≤ Int32.ofNat (db.eligible user).ncard ∨
            (db.eligible user).ncard ≤ req.limit.toNatClampNeg)))
      (getTopVideos cfg req) := by
  refine sure_mono (works_getTopVideos cfg req hn hcfg huser hcomplete) ?_
  intro result hresult hsubs
  exact ⟨_, hresult hsubs,
    best_truncated_iff nodup_sortedInfos sorted_sortedInfos mem_sortedInfos_iff⟩

end Recommendation

/-! ## 7. A recommendation and one that is not truncated -/

def subscriber : UserInfo := ⟨1, [2], some [], []⟩

def bulk (n : Nat) : Database where
  users id := if id = 1 then some subscriber
    else if id = 2 then some ⟨2, [], none, (List.range n).map UInt64.ofNat⟩ else none
  videos id := some ⟨id, "title", "author", "url", some []⟩
  userId := by grind [subscriber]
  videoId := by grind

theorem complete_bulk (n : Nat) : (bulk n).Complete subscriber := by
  intro id hid
  obtain rfl := List.mem_singleton.mp hid
  exact ⟨_, rfl, fun _ _ => rfl⟩

def mocks : Config :=
  makeVideoRecServiceServerWithMocks (fun _ _ => 0) .insertion ⟨2, false, false, 1⟩

def pooled : Config := makeVideoRecServiceServer (fun _ _ => 0) .insertion ⟨2, false, false, 3⟩

theorem eligible_bulk_le : ((bulk 3).eligible subscriber).ncard ≤ 3 := by
  have hsub : (bulk 3).eligible subscriber ⊆
      (fun i : Nat => (⟨UInt64.ofNat i, "title", "author", "url", some []⟩ : VideoInfo)) ''
        ↑(Finset.range 3) := by
    rintro v ⟨_, hv, id, hid, other, hother, hliked⟩
    obtain rfl := List.mem_singleton.mp hid
    obtain rfl := Option.some.inj hother
    obtain ⟨i, hi, hid'⟩ := List.mem_map.mp hliked
    refine ⟨i, by simpa using hi, ?_⟩
    dsimp only
    rw [hid']
    exact Option.some.inj hv
  calc ((bulk 3).eligible subscriber).ncard
      ≤ _ := Set.ncard_le_ncard hsub (Set.toFinite _)
    _ ≤ (↑(Finset.range 3) : Set Nat).ncard := Set.ncard_image_le (Set.toFinite _)
    _ = 3 := by rw [Set.ncard_coe_finset, Finset.card_range]

theorem recommendation_exact_iff_bulk : pooled.Connected ∧ (bulk 3).Complete subscriber ∧
    Sure pooled.Indexed ((bulk 3).Answered 2) (Query.Accepted 2)
      (fun result => ∃ videos, result = .ok ⟨videos, false, false⟩ ∧
        Best ((bulk 3).eligible subscriber) (score pooled (some [])) 1 videos)
      (getTopVideos pooled ⟨1, 1⟩) := by
  have hpooled : pooled.Connected := connected_server _ _ (by decide)
  refine ⟨hpooled, complete_bulk 3, ?_⟩
  apply sure_mono (recommendation_exact_iff pooled (bulk 3) ⟨1, 1⟩ subscriber (by decide) hpooled rfl
    (complete_bulk 3))
  intro result hresult
  obtain ⟨videos, hok, hiff⟩ := hresult (List.cons_ne_nil _ _)
  have hall : ∀ n ≤ 3, (1 : Int32) ≤ Int32.ofNat n ∨ n ≤ (1 : Int32).toNatClampNeg := by decide
  exact ⟨videos, hok, hiff.mpr fun _ => hall _ eligible_bulk_le⟩

def Database.answers (db : Database) (maxBatchSize : Int) : Log → (q : Query) → Answer q
  | _, .ctxErr _ => none
  | _, .getUser _ _ _ ids => db.getUser maxBatchSize ids
  | _, .getVideo _ _ _ ids => db.getVideo maxBatchSize ids
  | _, .getTrendingVideos .. => .ok ⟨[], 0⟩
  | _, .sinceStart => 1
  | _, .quantile _ => .ok 0

theorem likedVideos_bulk {n : Nat} (hn : n ≤ 2 ^ 64) :
    (bulk n).likedVideos subscriber = (List.range n).map UInt64.ofNat := by
  have hnodup : ((List.range n).map UInt64.ofNat).Nodup := by
    refine List.Nodup.map_on ?_ List.nodup_range
    intro i hi j hj hij
    rw [List.mem_range] at hi hj
    have hmod : i % 2 ^ 64 = j % 2 ^ 64 := by simpa using congrArg UInt64.toNat hij
    rwa [Nat.mod_eq_of_lt (by omega), Nat.mod_eq_of_lt (by omega)] at hmod
  rw [← List.nil_append (List.map _ _)] at hnodup
  simpa [Database.likedVideos, bulk, subscriber] using appendNew_of_nodup hnodup

theorem untruncated_bulk {n : Nat} (hn : n ≤ 2 ^ 64) (hlimit : ¬1 ≤ Int32.ofNat n) :
    ∃ s log videos, runAlone ((bulk n).answers 2) (getTopVideos mocks ⟨1, 1⟩) Server.new [] =
      some (s, log, .ok ⟨videos, false, false⟩) ∧ videos.length = n := by
  have huser : (bulk n).users 1 = some subscriber := rfl
  have hworks := works_getTopVideos mocks ⟨1, 1⟩ (by decide) (connected_mocks _ _ _) huser
    (complete_bulk n)
  have henv : ∀ log q, (bulk n).Answered 2 q ((bulk n).answers 2 log q) := by
    intro _ q
    cases q <;> trivial
  obtain ⟨s, log, _, hrun, hranks⟩ :=
    sure_runAlone (fun _ => ⟨(absurd · (by decide)), (absurd · (by decide))⟩) henv hworks
      Server.new []
  have hlen : (sortedInfos mocks (some []) (((bulk n).likedVideos subscriber).filterMap
      (bulk n).videos)).length = n := by
    rw [perm_sortedInfos.length_eq, likedVideos_bulk hn, List.filter_eq_self.mpr] <;> simp [bulk]
  refine ⟨s, log, _, hranks (List.cons_ne_nil _ _) ▸ hrun, ?_⟩
  have hinfos : subscriber.userCoefficients = some [] := rfl
  rw [rankAndTruncate_eq, hinfos, if_neg, hlen]
  rw [hlen]
  exact fun h => hlimit h.2

/-- A limit of one, and all the 2³¹ videos. -/
theorem limit_ignored : ∃ s log videos,
    runAlone ((bulk (2 ^ 31)).answers 2) (getTopVideos mocks ⟨1, 1⟩) Server.new [] =
      some (s, log, .ok ⟨videos, false, false⟩) ∧ videos.length = 2 ^ 31 :=
  untruncated_bulk (by decide) (by decide)

end VideoRec
