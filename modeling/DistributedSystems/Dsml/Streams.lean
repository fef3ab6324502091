import DistributedSystems.Library.Runs
import DistributedSystems.Dsml.Device

/-!
# Streams of one device

Any number of host-to-device transfers share a device with the `BeginReceive` calls of other devices'
transfers and with the coordinator's `StreamReceive` calls.  All of them write into the one map
`streams`, under ids from three kinds of counters.  A transfer is delivered as long as no call writes
under an id at which the device holds the buffer of an open transfer or the success of a stream.
-/

namespace Dsml

open Transition Function

/-! ## 1. Runs of one device -/

inductive Phase where
  | begun
  | sending (memAddr : UInt64) (chunks : List Bytes)
  | ended (how : SendEnd)

structure Transfer where
  streamID : UInt64
  phase : Phase

structure Streams where
  device : GPUDevice
  transfers : List Transfer
  completed : List UInt64
  crashed : Bool

inductive StreamEvent where
  | beginSend
  | beginReceive (streamID : UInt64)
  | streamReceive (streamID memAddr numBytes : UInt64) (sent : Bool)
  | first (k : Nat) (memAddr : UInt64)
  | recv (k : Nat) (item : Recv)

def Recv.data : Recv → List Bytes
  | .chunk data => [data]
  | .eof => []
  | .failure => []

namespace Streams

def start (deviceId : UInt64) (rank : UInt32) : Streams :=
  ⟨newGPUDeviceService deviceId rank, [], [], false⟩

def proceed (s : Streams) (k : Nat) (streamID memAddr : UInt64) (chunks : List Bytes) :
    GPUDevice × Option SendEnd → Streams
  | (d, none) =>
    { s with device := d, transfers := s.transfers.set k ⟨streamID, .sending memAddr chunks⟩ }
  | (d, some how) =>
    { s with
      device := d
      transfers := s.transfers.set k ⟨streamID, .ended how⟩
      completed := if how = .success then streamID :: s.completed else s.completed
      crashed := decide (how = .panicked) }

def exec (s : Streams) (e : StreamEvent) : Option Streams :=
  if s.crashed then
    none
  else
    match e with
    | .beginSend =>
      let (d, streamID) := s.device.beginSend
      some { s with device := d, transfers := s.transfers ++ [⟨streamID, .begun⟩] }
    | .beginReceive streamID => some { s with device := s.device.beginReceive streamID }
    | .streamReceive streamID memAddr numBytes sent =>
      match s.device.streamReceive streamID memAddr numBytes sent with
      | (d, .ok _) => some { s with device := d, completed := streamID :: s.completed }
      | (d, .error _) => some { s with device := d }
    | .first k memAddr =>
      match s.transfers[k]? with
      | some ⟨streamID, .begun⟩ =>
        match s.device.streamSendFirst (.chunk (initialChunk streamID memAddr)) with
        | (d, .ok (streamID, memAddr)) => some (s.proceed k streamID memAddr [] (d, none))
        | (d, .error how) => some (s.proceed k streamID memAddr [] (d, some how))
      | _ => none
    | .recv k item =>
      match s.transfers[k]? with
      | some ⟨streamID, .sending memAddr chunks⟩ =>
        some (s.proceed k streamID memAddr (chunks ++ item.data)
          (s.device.streamSendNext streamID memAddr item))
      | _ => none

def Step (s : Streams) (e : StreamEvent) (s' : Streams) : Prop := s.exec e = some s'

abbrev Reaches (deviceId : UInt64) (rank : UInt32) : List (Streams × StreamEvent) → Streams → Prop :=
  Run (fun s => s = start deviceId rank) Step

end Streams

/-! ## 2. Ids that are spoken for -/

/-- The device holds the buffer of an open transfer or the success of a stream under this id. -/
def GPUDevice.claimed (d : GPUDevice) (streamID : UInt64) : Bool :=
  match d.streams streamID with
  | some (.buffer _) => true
  | some (.status .success) => true
  | _ => false

namespace Streams

/-- A condition on events: a call that starts to use an id finds it unclaimed. -/
def Separate (s : Streams) : StreamEvent → Prop
  | .beginSend => s.device.claimed (s.device.streamIDCounter + 1) = false
  | .beginReceive streamID => s.device.claimed streamID = false
  | .streamReceive streamID _ _ _ => s.device.claimed streamID = false
  | .first k _ => ∀ t ∈ s.transfers[k]?, s.device.claimed t.streamID = false
  | .recv _ _ => True

instance (s : Streams) : ∀ e, Decidable (s.Separate e)
  | .beginSend | .beginReceive _ | .streamReceive _ _ _ _ => inferInstanceAs (Decidable (_ = _))
  | .first k _ => inferInstanceAs (Decidable (∀ t ∈ s.transfers[k]?, _))
  | .recv _ _ => .isTrue trivial

def Open (s : Streams) (k : Nat) (streamID memAddr : UInt64) (chunks : List Bytes) : Prop :=
  s.transfers[k]? = some ⟨streamID, .sending memAddr chunks⟩

structure Inv (s : Streams) : Prop where
  running : s.crashed = false
  buffered : ∀ k streamID memAddr chunks, s.Open k streamID memAddr chunks →
    s.device.streams streamID = some (.buffer chunks.flatten)
  apart : ∀ k k' streamID memAddr chunks memAddr' chunks', s.Open k streamID memAddr chunks →
    s.Open k' streamID memAddr' chunks' → k = k'
  succeeded : ∀ streamID ∈ s.completed, s.device.streams streamID = some (.status .success)

theorem Inv.start (deviceId : UInt64) (rank : UInt32) : Inv (start deviceId rank) where
  running := rfl
  buffered _ _ _ _ h := absurd h.symm (Option.some_ne_none _)
  apart _ _ _ _ _ _ _ h := absurd h.symm (Option.some_ne_none _)
  succeeded _ h := absurd h List.not_mem_nil

theorem streams_setStream (d : GPUDevice) (streamID id : UInt64) (entry : StreamEntry) :
    (d.setStream streamID entry).streams id =
      if id = streamID then some entry else d.streams id :=
  update_apply _ _ _ _

variable {s : Streams} {k : Nat} {streamID memAddr : UInt64} {chunks : List Bytes} {id : UInt64}

theorem Inv.buffered_ne (h : Inv s) (hid : s.device.claimed id = false)
    (ho : s.Open k streamID memAddr chunks) : streamID ≠ id := by
  intro he
  unfold GPUDevice.claimed at hid
  rw [← he, h.buffered k streamID memAddr chunks ho] at hid
  exact Bool.noConfusion hid

theorem Inv.succeeded_ne (h : Inv s) (hid : s.device.claimed id = false)
    (hc : streamID ∈ s.completed) :
    streamID ≠ id := by
  intro he
  unfold GPUDevice.claimed at hid
  rw [← he, h.succeeded streamID hc] at hid
  exact Bool.noConfusion hid

theorem Inv.write (h : Inv s) (hid : s.device.claimed id = false) {d : GPUDevice}
    {entry : StreamEntry} (hd : ∀ streamID, d.streams streamID = if streamID = id then some entry
      else s.device.streams streamID) {completed : List UInt64}
    (hcompleted : ∀ streamID ∈ completed, streamID ∈ s.completed ∨
      (streamID = id ∧ entry = .status .success)) :
    Inv { s with device := d, completed := completed } where
  running := h.running
  buffered k streamID memAddr chunks ho := by
    rw [hd, if_neg (h.buffered_ne hid ho)]
    exact h.buffered k streamID memAddr chunks ho
  apart := h.apart
  succeeded streamID hc := by
    show d.streams streamID = _
    rcases hcompleted streamID hc with hold | ⟨he, hentry⟩
    · rw [hd, if_neg (h.succeeded_ne hid hold)]
      exact h.succeeded streamID hold
    · rw [hd, if_pos he, hentry]

theorem open_set {t : Transfer} {j : Nat}
    (h : (s.transfers.set k t)[j]? = some ⟨streamID, .sending memAddr chunks⟩) :
    (j = k ∧ t = ⟨streamID, .sending memAddr chunks⟩) ∨ (j ≠ k ∧ s.Open j streamID memAddr chunks) := by
  by_cases hj : j = k
  · rw [hj, List.getElem?_set] at h
    simp only [if_true] at h
    split at h
    · exact Or.inl ⟨hj, Option.some.inj h⟩
    · exact absurd h.symm (Option.some_ne_none _)
  · rw [List.getElem?_set_ne (Ne.symm hj)] at h
    exact Or.inr ⟨hj, h⟩

/-! ## 3. Steps -/

theorem Inv.beginSend (h : Inv s) (hsep : s.Separate .beginSend) :
    Inv { s with
      device := s.device.beginSend.1
      transfers := s.transfers ++ [⟨s.device.beginSend.2, .begun⟩] } := by
  have hwrite := h.write (d := s.device.beginSend.1) hsep (streams_setStream _ _ · _)
    fun streamID hc => Or.inl hc
  have hold : ∀ {k streamID memAddr chunks},
      (s.transfers ++ [(⟨s.device.beginSend.2, .begun⟩ : Transfer)])[k]? =
        some ⟨streamID, .sending memAddr chunks⟩ → s.Open k streamID memAddr chunks := by
    intro k streamID memAddr chunks ho
    by_cases hk : k < s.transfers.length
    · rwa [List.getElem?_append_left hk] at ho
    · -- the new transfer has not started to send
      rw [List.getElem?_append_right (by omega)] at ho
      have hmem := List.mem_singleton.mp (List.mem_of_getElem? ho)
      have hphase := congrArg Transfer.phase hmem
      exact Phase.noConfusion hphase
  exact ⟨hwrite.running, fun k streamID memAddr chunks ho =>
      hwrite.buffered k streamID memAddr chunks (hold ho),
    fun k k' streamID memAddr chunks memAddr' chunks' ho ho' =>
      hwrite.apart k k' streamID memAddr chunks memAddr' chunks' (hold ho) (hold ho'),
    hwrite.succeeded⟩

theorem Inv.first (h : Inv s) (memAddr : UInt64) (hid : s.device.claimed streamID = false) :
    Inv (s.proceed k streamID memAddr [] (s.device.setStream streamID (.buffer []), none)) := by
  constructor
  · exact h.running
  · intro j id addr chunks ho
    show (s.device.setStream streamID (.buffer [])).streams id = _
    rw [streams_setStream]
    rcases open_set ho with ⟨_, he⟩ | ⟨_, hold⟩
    · cases he
      rw [if_pos rfl]
      rfl
    · rw [if_neg (h.buffered_ne hid hold)]
      exact h.buffered j id addr chunks hold
  · intro j j' id addr chunks addr' chunks' ho ho'
    rcases open_set ho with ⟨hj, he⟩ | ⟨_, hold⟩
    · rcases open_set ho' with ⟨hj', _⟩ | ⟨_, hold'⟩
      · rw [hj, hj']
      · cases he
        exact absurd rfl (h.buffered_ne hid hold')
    · rcases open_set ho' with ⟨_, he'⟩ | ⟨_, hold'⟩
      · cases he'
        exact absurd rfl (h.buffered_ne hid hold)
      · exact h.apart j j' id addr chunks addr' chunks' hold hold'
  · intro id hc
    show (s.device.setStream streamID (.buffer [])).streams id = _
    rw [streams_setStream, if_neg (h.succeeded_ne hid hc)]
    exact h.succeeded id hc

/-- What an open `StreamSend` call does with the next item: it appends, or it stores what it has, or
it gives up; in each case it writes under its own id only. -/
theorem Inv.next (h : Inv s) (ho : s.Open k streamID memAddr chunks) (item : Recv) :
    s.device.streamSendNext streamID memAddr item =
      match item with
      | .chunk data => (s.device.setStream streamID (.buffer (chunks ++ [data]).flatten), none)
      | .eof => (({ s.device with
          memory := update s.device.memory memAddr (some chunks.flatten) } :
            GPUDevice).setStream streamID (.status .success), some .success)
      | .failure => (s.device.setStream streamID (.status .failed), some (.failed .receiveFailed)) := by
  have hbuffer := h.buffered k streamID memAddr chunks ho
  unfold GPUDevice.streamSendNext
  cases item with
  | chunk data =>
    rw [hbuffer]
    dsimp only
    rw [List.flatten_append, List.flatten_singleton]
  | eof =>
    rw [hbuffer]
  | failure => rfl

theorem Inv.proceed (h : Inv s) (ho : s.Open k streamID memAddr chunks) (item : Recv) :
    Inv (s.proceed k streamID memAddr (chunks ++ item.data)
      (s.device.streamSendNext streamID memAddr item)) := by
  rw [h.next ho item]
  have hother : ∀ {j id addr chunks'}, j ≠ k → s.Open j id addr chunks' → id ≠ streamID := by
    intro j id addr chunks' hj hold he
    rw [he] at hold
    exact hj (h.apart j k streamID addr chunks' memAddr chunks hold ho)
  have hfinished : ∀ {id}, id ∈ s.completed → id ≠ streamID := by
    intro id hc he
    have hbuffer := h.buffered k streamID memAddr chunks ho
    rw [← he, h.succeeded id hc] at hbuffer
    exact StreamEntry.noConfusion (Option.some.inj hbuffer)
  -- the calls that stay open, when this one ends
  have hstill : ∀ {how j id addr chunks'},
      (s.transfers.set k ⟨streamID, .ended how⟩)[j]? = some ⟨id, .sending addr chunks'⟩ →
        j ≠ k ∧ s.Open j id addr chunks' := by
    intro how j id addr chunks' hj
    rcases open_set hj with ⟨_, he⟩ | hold
    · exact Phase.noConfusion (congrArg Transfer.phase he)
    · exact hold
  cases item with
  | chunk data =>
    constructor
    · exact h.running
    · intro j id addr chunks' hj
      show (s.device.setStream streamID _).streams id = _
      rw [streams_setStream]
      rcases open_set hj with ⟨_, he⟩ | ⟨hne, hold⟩
      · cases he
        rw [if_pos rfl]
        rfl
      · rw [if_neg (hother hne hold)]
        exact h.buffered j id addr chunks' hold
    · intro j j' id addr chunks₁ addr' chunks₂ hj hj'
      rcases open_set hj with ⟨hjk, he⟩ | ⟨hne, hold⟩
      · rcases open_set hj' with ⟨hjk', _⟩ | ⟨hne', hold'⟩
        · rw [hjk, hjk']
        · cases he
          exact absurd rfl (hother hne' hold')
      · rcases open_set hj' with ⟨_, he'⟩ | ⟨_, hold'⟩
        · cases he'
          exact absurd rfl (hother hne hold)
        · exact h.apart j j' id addr chunks₁ addr' chunks₂ hold hold'
    · intro id hc
      show (s.device.setStream streamID _).streams id = _
      rw [streams_setStream, if_neg (hfinished hc)]
      exact h.succeeded id hc
  | eof =>
    constructor
    · rfl
    · intro j id addr chunks' hj
      obtain ⟨hne, hold⟩ := hstill hj
      show (GPUDevice.setStream _ streamID _).streams id = _
      rw [streams_setStream, if_neg (hother hne hold)]
      exact h.buffered j id addr chunks' hold
    · intro j j' id addr chunks₁ addr' chunks₂ hj hj'
      exact h.apart j j' id addr chunks₁ addr' chunks₂ (hstill hj).2 (hstill hj').2
    · intro id hc
      show (GPUDevice.setStream _ streamID _).streams id = _
      rw [streams_setStream]
      by_cases hid : id = streamID
      · rw [if_pos hid]
      · rw [if_neg hid]
        exact h.succeeded id ((List.mem_cons.mp hc).resolve_left hid)
  | failure =>
    constructor
    · rfl
    · intro j id addr chunks' hj
      obtain ⟨hne, hold⟩ := hstill hj
      show (s.device.setStream streamID _).streams id = _
      rw [streams_setStream, if_neg (hother hne hold)]
      exact h.buffered j id addr chunks' hold
    · intro j j' id addr chunks₁ addr' chunks₂ hj hj'
      exact h.apart j j' id addr chunks₁ addr' chunks₂ (hstill hj).2 (hstill hj').2
    · intro id hc
      show (s.device.setStream streamID _).streams id = _
      rw [streams_setStream, if_neg (hfinished hc)]
      exact h.succeeded id hc

theorem Inv.step {s' : Streams} {e : StreamEvent} (h : Inv s) (hsep : s.Separate e)
    (hstep : Step s e s') : Inv s' := by
  unfold Step exec at hstep
  rw [if_neg (by rw [h.running]; exact Bool.false_ne_true)] at hstep
  cases e with
  | beginSend =>
    cases hstep
    exact h.beginSend hsep
  | beginReceive streamID =>
    cases hstep
    exact h.write hsep (streams_setStream _ _ · _) fun streamID hc => Or.inl hc
  | streamReceive streamID memAddr numBytes sent =>
    dsimp only at hstep
    unfold GPUDevice.streamReceive at hstep
    cases hmem : s.device.memory memAddr with
    | none =>
      rw [hmem] at hstep
      cases hstep
      exact h
    | some data =>
      rw [hmem] at hstep
      cases sent with
      | true =>
        cases hstep
        apply h.write hsep (streams_setStream _ _ · _)
        intro id hc
        rcases List.mem_cons.mp hc with he | hold
        · exact Or.inr ⟨he, rfl⟩
        · exact Or.inl hold
      | false =>
        cases hstep
        exact h.write hsep (streams_setStream _ _ · _) fun streamID hc => Or.inl hc
  | first k memAddr =>
    dsimp only at hstep
    split at hstep
    · next streamID hk =>
      rw [streamSendFirst_initialChunk] at hstep
      cases hstep
      exact h.first memAddr (hsep _ hk)
    · exact absurd hstep.symm (Option.some_ne_none _)
  | recv k item =>
    dsimp only at hstep
    split at hstep
    · next streamID memAddr chunks hk =>
      cases hstep
      exact h.proceed hk item
    · exact absurd hstep.symm (Option.some_ne_none _)

/-! ## 4. Delivery -/

/-- Every open transfer takes its chunks and is delivered at the end of its stream, and completed
streams report success. -/
structure Delivery (s : Streams) : Prop where
  running : s.crashed = false
  chunk : ∀ k streamID memAddr chunks, s.Open k streamID memAddr chunks → ∀ data,
    (s.device.streamSendNext streamID memAddr (.chunk data)).2 = none
  eof : ∀ k streamID memAddr chunks, s.Open k streamID memAddr chunks →
    (s.device.streamSendNext streamID memAddr .eof).2 = some .success ∧
      (s.device.streamSendNext streamID memAddr .eof).1.memory memAddr = some chunks.flatten ∧
      ∀ a, a ≠ memAddr →
        (s.device.streamSendNext streamID memAddr .eof).1.memory a = s.device.memory a
  status : ∀ streamID ∈ s.completed, s.device.getStreamStatus streamID = .success

theorem stream_delivery {deviceId : UInt64} {rank : UInt32} {past : List (Streams × StreamEvent)}
    {s : Streams} (hr : Reaches deviceId rank past s) (hsep : ∀ x ∈ past, x.1.Separate x.2) :
    Delivery s := by
  have h : Inv s := by
    apply hr.invariant_of _ _ hsep
    · intro s hs
      rw [hs]
      exact Inv.start deviceId rank
    · intro s e s' h he hstep
      exact h.step he hstep
  constructor
  · exact h.running
  · intro k streamID memAddr chunks ho data
    rw [h.next ho]
  · intro k streamID memAddr chunks ho
    rw [h.next ho]
    refine ⟨rfl, ?_, ?_⟩
    · exact update_self _ _ _
    · intro a ha
      exact update_of_ne ha _ _
  · intro streamID hc
    unfold GPUDevice.getStreamStatus
    rw [h.succeeded streamID hc]

def twoTransfers : List (Streams × StreamEvent) × Streams :=
  replay exec [] (start 1 0)
    [.beginSend, .beginSend, .first 0 0x1000, .recv 0 (.chunk [1, 2]), .first 1 0x2000,
      .recv 1 (.chunk [7]), .recv 0 (.chunk [3]), .recv 0 .eof, .streamReceive 9 0x1000 2 true,
      .beginReceive 8]

theorem stream_delivery_twoTransfers :
    (∀ x ∈ twoTransfers.1, x.1.Separate x.2) ∧ twoTransfers.2.completed = [9, 1] ∧
      twoTransfers.2.device.memory 0x1000 = some [1, 2, 3] ∧ Delivery twoTransfers.2 := by
  have hr : Reaches 1 0 twoTransfers.1 twoTransfers.2 :=
    replay_run (fun _ _ _ h => h) _ _ _ (Run.start rfl)
  exact ⟨by decide +kernel, by decide +kernel, by decide +kernel,
    stream_delivery hr (by decide +kernel)⟩

def clashed : List (Streams × StreamEvent) × Streams :=
  replay exec [] (start 1 0) [.beginSend, .first 0 0x1000, .beginReceive 1, .recv 0 .eof]

def overwritten : List (Streams × StreamEvent) × Streams :=
  replay exec [] (start 1 0) [.beginSend, .first 0 0x1000, .recv 0 .eof, .beginReceive 1]

/-- `BeginReceive` with the id of an open transfer makes the end of its stream a panic, and with the
id of a finished one it takes back the success. -/
theorem stream_id_clash :
    (Reaches 1 0 clashed.1 clashed.2 ∧ clashed.2.crashed = true ∧
      clashed.2.device.memory 0x1000 = none) ∧
    Reaches 1 0 overwritten.1 overwritten.2 ∧ overwritten.2.completed = [1] ∧
      overwritten.2.device.getStreamStatus 1 = .inProgress :=
  ⟨⟨replay_run (fun _ _ _ h => h) _ _ _ (Run.start rfl), by decide +kernel, by decide +kernel⟩,
    replay_run (fun _ _ _ h => h) _ _ _ (Run.start rfl), by decide +kernel, by decide +kernel⟩

end Streams

end Dsml
