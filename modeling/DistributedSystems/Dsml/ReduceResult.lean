import DistributedSystems.Dsml.AllReduce

/-!
# What a reduction leaves in the devices

A successful `AllReduceRing` leaves one buffer in all devices of the communicator.  The ring phase
stores ones in the place of every rank before the buffers are gathered, so every element of the result
is the operation folded over ones, whatever the devices held before.
-/

namespace Dsml

open LittleEndian Fallible Function

/-! ## 1. Buffers of the devices -/

def World.held (w : World) (deviceId memAddr : UInt64) : Option Bytes :=
  (w.devices deviceId).bind fun d => d.memory memAddr

def World.rankDevice (w : World) (comm : Communicator) (rank : UInt32) : Option UInt64 :=
  (comm.rankMapping rank).bind fun i =>
    (w.service.availableDevices[i]?).map fun device => device.metadata.deviceId

def World.bufferOf (w : World) (comm : Communicator) (memAddrs : UInt32 → Option UInt64) (r : Nat) :
    Option Bytes :=
  (w.rankDevice comm (UInt32.ofNat r)).bind fun deviceId =>
    (memAddrs (UInt32.ofNat r)).bind fun memAddr => w.held deviceId memAddr

structure Kept (w w' : World) : Prop where
  devices : w'.service.availableDevices = w.service.availableDevices
  held : ∀ deviceId memAddr, w'.held deviceId memAddr = w.held deviceId memAddr

structure Stored (deviceId memAddr : UInt64) (data : Bytes) (w w' : World) : Prop where
  devices : w'.service.availableDevices = w.service.availableDevices
  held : ∀ id addr, w'.held id addr =
    if id = deviceId ∧ addr = memAddr then some data else w.held id addr

theorem Kept.refl (w : World) : Kept w w := ⟨rfl, fun _ _ => rfl⟩

variable {w' : World} {deviceId : UInt64}

theorem Kept.trans {w w'' : World} (h : Kept w w') (h' : Kept w' w'') : Kept w w'' where
  devices := h'.devices.trans h.devices
  held deviceId memAddr := (h'.held deviceId memAddr).trans (h.held deviceId memAddr)

theorem Kept.stored {w w'' : World} (h : Kept w w') {memAddr : UInt64} {data : Bytes}
    (h' : Stored deviceId memAddr data w' w'') : Stored deviceId memAddr data w w'' where
  devices := h'.devices.trans h.devices
  held id addr := by rw [h'.held, h.held]

theorem rankDevice_congr {w : World} (h : w'.service.availableDevices = w.service.availableDevices)
    (comm : Communicator) (rank : UInt32) : w'.rankDevice comm rank = w.rankDevice comm rank := by
  unfold World.rankDevice
  rw [h]

/-! ## 2. Requests that succeed -/

abbrev anyFailure : Failure → World → Prop := fun _ _ => True

variable {w : World} {comm : Communicator} {count : UInt64}

@[simp] theorem wp_nextFault {Q : Fault → World → Prop} {R : Failure → World → Prop} :
    wp nextFault Q R w ↔ Q (w.faults w.requests) { w with requests := w.requests + 1 } := Iff.rfl

theorem wp_call {α : Type} {handler : Fault → GPUDevice → Option GPUDevice × Except ReduceError α}
    {Q : α → World → Prop} (h : ∀ d a, w.devices deviceId = some d → (handler .none d).2 = .ok a →
      Q a { w with
        requests := w.requests + 1
        devices := Function.update w.devices deviceId (handler .none d).1 }) :
    wp (call deviceId handler) Q anyFailure w := by
  unfold call
  rw [wp_bind, wp_nextFault, wp_bind, wp_get]
  cases hd : w.devices deviceId with
  | none => exact trivial
  | some d =>
    dsimp only
    by_cases hlost : w.faults w.requests = .lost
    · rw [if_pos hlost]
      exact trivial
    · rw [if_neg hlost, wp_bind, wp_set]
      by_cases hnone : w.faults w.requests = .none
      · rw [if_pos hnone, hnone]
        cases ha : (handler .none d).2 with
        | ok a => exact h d a hd ha
        | error err => exact trivial
      · rw [if_neg hnone]
        exact trivial

theorem wp_newClient (deviceId : UInt64) (w : World) :
    wp (newClient deviceId) (fun _ w' => Kept w w') anyFailure w := by
  unfold newClient
  rw [wp_bind, wp_nextFault]
  split
  · exact ⟨rfl, fun _ _ => rfl⟩
  · exact trivial

theorem Kept.update {d : GPUDevice} (d' : GPUDevice) (hd : w.devices deviceId = some d)
    (hmemory : d'.memory = d.memory) (requests : Nat) :
    Kept w { w with requests := requests, devices := Function.update w.devices deviceId (some d') } where
  devices := rfl
  held id addr := by
    show (Function.update w.devices deviceId (some d') id).bind _ = _
    by_cases hid : id = deviceId
    · rw [hid, update_self, Option.bind_some, hmemory]
      unfold World.held
      rw [hd, Option.bind_some]
    · rw [update_of_ne hid]
      rfl

theorem wp_beginSend (deviceId : UInt64) (w : World) :
    wp (beginSend deviceId) (fun _ w' => Kept w w') anyFailure w := by
  apply wp_call
  intro d _ hd _
  exact Kept.update d.beginSend.1 hd rfl _

theorem wp_beginReceive (deviceId streamID : UInt64) (w : World) :
    wp (beginReceive deviceId streamID) (fun _ w' => Kept w w') anyFailure w := by
  apply wp_call
  intro d _ hd _
  exact Kept.update (d.beginReceive streamID) hd rfl _

theorem streamSend_clientItems (d : GPUDevice) (streamID memAddr : UInt64) (data : Bytes) :
    ∃ d', d.streamSend (clientItems streamID memAddr data) = (d', some .success) ∧
      d'.memory = Function.update d.memory memAddr (some data) := by
  unfold clientItems GPUDevice.streamSend
  dsimp only
  rw [streamSendFirst_initialChunk]
  by_cases hdata : 0 < data.length
  · rw [if_pos hdata]
    simp only [List.singleton_append, GPUDevice.streamSendLoop, GPUDevice.streamSendNext,
      update_self, List.nil_append, GPUDevice.setStream]
    exact ⟨_, rfl, rfl⟩
  · rw [if_neg hdata]
    -- without data the buffer is stored as it was made
    have hnil : data = [] := List.length_eq_zero_iff.mp (by omega)
    unfold GPUDevice.setStream
    simp only [List.nil_append, GPUDevice.streamSendLoop, GPUDevice.streamSendNext,
      update_self, hnil]
    exact ⟨_, rfl, rfl⟩

theorem wp_streamSend (deviceId streamID memAddr : UInt64) (data : Bytes) (w : World) :
    wp (streamSend deviceId streamID memAddr data)
      (fun _ w' => Stored deviceId memAddr data w w') anyFailure w := by
  apply wp_call
  intro d a hd hok
  obtain ⟨d', hsend, hmemory⟩ := streamSend_clientItems d streamID memAddr data
  dsimp only
  rw [hsend]
  refine ⟨rfl, ?_⟩
  intro id addr
  show (Function.update w.devices deviceId (some d') id).bind _ = _
  by_cases hid : id = deviceId
  · rw [hid, update_self, Option.bind_some, hmemory, update_apply]
    unfold World.held
    rw [hd, Option.bind_some]
    simp only [true_and]
  · rw [update_of_ne hid, if_neg fun h => hid h.1]
    rfl

theorem wp_streamReceive (deviceId streamID memAddr numBytes : UInt64) (w : World) :
    wp (streamReceive deviceId streamID memAddr numBytes) (fun data w' => Kept w w' ∧
      ∃ buffer, w.held deviceId memAddr = some buffer ∧
        data = if numBytes.toNat < buffer.length then buffer.take numBytes.toNat else buffer)
      anyFailure w := by
  apply wp_call
  intro d a hd hok
  unfold GPUDevice.streamReceive at hok ⊢
  cases hmem : d.memory memAddr with
  | none =>
    rw [hmem] at hok
    exact absurd hok (by simp)
  | some buffer =>
    rw [hmem] at hok
    refine ⟨Kept.update (d.setStream streamID (.status .success)) hd rfl _, buffer, ?_, ?_⟩
    · unfold World.held
      rw [hd, Option.bind_some, hmem]
    · exact (Except.ok.inj hok).symm

/-! ## 3. `Memcpy` -/

theorem wp_memcpyHostToDevice (data : Bytes) (deviceId memAddr : UInt64) (w : World) :
    wp (memcpyHostToDevice data deviceId memAddr)
      (fun _ w' => Stored deviceId memAddr data w w') anyFailure w := by
  unfold memcpyHostToDevice
  rw [wp_bind, wp_get]
  split
  · exact trivial
  · rw [wp_bind]
    apply wp_mono (wp_newClient deviceId w) _ fun _ _ _ => trivial
    intro _ w₁ h₁
    rw [wp_bind]
    apply wp_mono (wp_beginSend deviceId w₁) _ fun _ _ _ => trivial
    intro streamID w₂ h₂
    apply wp_mono (wp_streamSend deviceId streamID memAddr data w₂) _ fun _ _ _ => trivial
    intro _ w₃ h₃
    exact (h₁.trans h₂).stored h₃

theorem wp_memcpyDeviceToHost (deviceId memAddr numBytes : UInt64) (w : World) :
    wp (memcpyDeviceToHost deviceId memAddr numBytes) (fun data w' => Kept w w' ∧
      ∃ buffer, w.held deviceId memAddr = some buffer ∧
        data = if numBytes.toNat < buffer.length then buffer.take numBytes.toNat else buffer)
      anyFailure w := by
  unfold memcpyDeviceToHost
  rw [wp_bind]
  apply wp_mono (wp_newClient deviceId w) _ fun _ _ _ => trivial
  intro _ w₁ h₁
  rw [wp_bind, wp_get]
  rw [wp_bind, wp_set]
  apply wp_mono (wp_streamReceive deviceId _ memAddr numBytes _) _ fun _ _ _ => trivial
  intro data w₂ h
  obtain ⟨h₂, buffer, hbuffer, hdata⟩ := h
  have hcounter : Kept w₁ { w₁ with service := { w₁.service with
      streamIDCounter := w₁.service.streamIDCounter + 1 } } := ⟨rfl, fun _ _ => rfl⟩
  refine ⟨(h₁.trans hcounter).trans h₂, buffer, ?_, hdata⟩
  rw [← h₁.held]
  exact hbuffer

/-! ## 4. Arrays of words -/

theorem reduceLoop_encode (f : UInt64 → UInt64 → UInt64) (ys : List UInt64) (n : Nat) :
    ∀ (i : Nat) (xs : List UInt64), i + n = xs.length → xs.length = ys.length →
      reduceLoop f (encode ys) n i (encode xs) =
        some (encode (xs.take i ++ List.zipWith f (xs.drop i) (ys.drop i))) := by
  induction n with
  | zero =>
    intro i xs hi hlen
    unfold reduceLoop
    rw [List.drop_eq_nil_of_le (by omega), List.zipWith_nil_left, List.append_nil,
      List.take_of_length_le (by omega)]
  | succ n ih =>
    intro i xs hi hlen
    have hx : i < xs.length := by omega
    have hy : i < ys.length := by omega
    unfold reduceLoop
    simp only [wordAt_encode, List.getElem?_eq_getElem hx, List.getElem?_eq_getElem hy,
      Option.bind_eq_bind, Option.bind_some, setWordAt_encode hx]
    rw [ih (i + 1) _ (by rw [List.length_set]; omega) (by rw [List.length_set]; omega)]
    -- the element that was written moves from the array to the part that is done
    have htake : (xs.set i (f xs[i] ys[i])).take (i + 1) = xs.take i ++ [f xs[i] ys[i]] := by
      rw [List.take_add_one, List.getElem?_set_self hx, List.take_set_of_le (Nat.le_refl i)]
      rfl
    rw [htake, List.drop_set_of_lt (by omega), List.append_assoc, List.singleton_append,
      List.drop_eq_getElem_cons hx, List.drop_eq_getElem_cons hy, List.zipWith_cons_cons]

theorem reduceArrays_encode (f : UInt64 → UInt64 → UInt64) {xs ys : List UInt64}
    (h : xs.length = ys.length) :
    reduceArrays f (encode xs) (encode ys) = some (encode (List.zipWith f xs ys)) := by
  unfold reduceArrays
  rw [length_encode, Nat.mul_div_cancel_left _ (by decide),
    reduceLoop_encode f ys xs.length 0 xs (by omega) h]
  rfl

theorem fillOnes_encode (n : Nat) : ∀ (i : Nat) (xs : List UInt64), i + n = xs.length →
    fillOnes n i (encode xs) = some (encode (xs.take i ++ List.replicate n one)) := by
  induction n with
  | zero =>
    intro i xs hi
    unfold fillOnes
    rw [List.take_of_length_le (by omega), List.replicate_zero, List.append_nil]
  | succ n ih =>
    intro i xs hi
    have hx : i < xs.length := by omega
    unfold fillOnes
    simp only [Option.bind_eq_bind, setWordAt_encode hx, Option.bind_some]
    rw [ih (i + 1) _ (by rw [List.length_set]; omega), List.take_add_one, List.getElem?_set_self hx,
      List.take_set_of_le (Nat.le_refl i), List.replicate_succ, List.append_assoc]
    rfl

theorem encode_zeros (n : Nat) : encode (List.replicate n 0) = List.replicate (8 * n) 0 := by
  induction n with
  | zero => rfl
  | succ n ih =>
    rw [List.replicate_succ, encode_cons, ih, Nat.mul_succ, Nat.add_comm, List.replicate_add]
    rfl

theorem generateData_eq (op : ReduceOp) (h : 8 * count.toNat < 2 ^ 63) :
    generateData op count = some (encode (List.replicate count.toNat one)) := by
  have hbytes : (count * 8).toNat = 8 * count.toNat := by
    rw [UInt64.toNat_mul, show (8 : UInt64).toNat = 8 from rfl, Nat.mod_eq_of_lt (by omega)]
    omega
  unfold generateData
  rw [hbytes, if_neg (by omega), if_pos (by omega), ← encode_zeros,
    fillOnes_encode _ 0 _ (by rw [List.length_replicate]; omega)]
  rfl

/-- A left fold that starts with the first element. -/
def reduceRanks (f : UInt64 → UInt64 → UInt64) : List UInt64 → UInt64
  | [] => 0
  | x :: xs => xs.foldl f x

theorem reduceAll_replicate (f : UInt64 → UInt64 → UInt64) (count : Nat) (v : UInt64) (n : Nat) :
    ∀ x,
      reduceAll f (encode (List.replicate count x))
        (List.replicate n (encode (List.replicate count v))) =
      some (encode (List.replicate count ((List.replicate n v).foldl f x))) := by
  induction n with
  | zero => intro x; rfl
  | succ n ih =>
    intro x
    rw [List.replicate_succ]
    unfold reduceAll
    rw [reduceArrays_encode f (by rw [List.length_replicate, List.length_replicate])]
    simp only [Option.bind_eq_bind, Option.bind_some, List.zipWith_replicate', ih]
    rfl

/-! ## 5. The phases -/

/-- `int(count) * 8` for a count whose buffer is a slice. -/
structure SliceSize (count : UInt64) (dataSize : Int64) : Prop where
  toInt : dataSize.toInt = 8 * count.toNat
  toNat : dataSize.toUInt64.toNat = 8 * count.toNat

theorem sliceSize (h : 8 * count.toNat < 2 ^ 63) : SliceSize count (count.toInt64 * 8) := by
  have hsigned : count.toInt64.toInt = count.toNat := by
    show count.toBitVec.toInt = _
    rw [BitVec.toInt_eq_toNat_of_lt]
    · rfl
    · show 2 * count.toNat < 2 ^ 64
      omega
  constructor
  · rw [Int64.toInt_mul, hsigned, show (8 : Int64).toInt = 8 from rfl,
      Int.bmod_eq_of_le (by omega) (by omega)]
    omega
  · rw [Int64.toUInt64_mul, UInt64.toUInt64_toInt64, UInt64.toNat_mul,
      show (Int64.toUInt64 8).toNat = 8 from rfl, Nat.mod_eq_of_lt (by omega)]
    omega

theorem wp_orPanic {α : Type} {Q : α → World → Prop} {o : Option α} (h : ∀ a, o = some a → Q a w) :
    wp (orPanic o) Q anyFailure w := by
  cases o with
  | none => exact trivial
  | some a => exact h a rfl

theorem wp_deviceOf (comm : Communicator) (rank : UInt32) (w : World) :
    wp (deviceOf comm rank) (fun deviceId w' => w' = w ∧ w.rankDevice comm rank = some deviceId)
      anyFailure w := by
  unfold deviceOf
  rw [wp_bind, wp_get, wp_bind]
  apply wp_orPanic
  intro i hi
  rw [wp_bind]
  apply wp_orPanic
  intro device hdevice
  refine ⟨rfl, ?_⟩
  unfold World.rankDevice
  rw [hi, Option.bind_some, hdevice, Option.map_some]

def HeldBy (comm : Communicator) (memAddrs : UInt32 → Option UInt64) (buffer : Bytes) (rank : UInt32)
    (w : World) : Prop :=
  ∃ deviceId memAddr, w.rankDevice comm rank = some deviceId ∧ memAddrs rank = some memAddr ∧
    w.held deviceId memAddr = some buffer

section Phases

variable {comm : Communicator} {memAddrs : UInt32 → Option UInt64} {buffer : Bytes}

variable {rank : UInt32} {w w' : World}

theorem HeldBy.kept (h : HeldBy comm memAddrs buffer rank w) (hkept : Kept w w') :
    HeldBy comm memAddrs buffer rank w' := by
  obtain ⟨deviceId, memAddr, hdevice, haddr, hheld⟩ := h
  refine ⟨deviceId, memAddr, ?_, haddr, ?_⟩
  · rw [rankDevice_congr hkept.devices]
    exact hdevice
  · rw [hkept.held]
    exact hheld

theorem HeldBy.stored (h : HeldBy comm memAddrs buffer rank w) {deviceId memAddr : UInt64}
    (hstored : Stored deviceId memAddr buffer w w') :
    HeldBy comm memAddrs buffer rank w' := by
  obtain ⟨id, addr, hdevice, haddr, hheld⟩ := h
  refine ⟨id, addr, ?_, haddr, ?_⟩
  · rw [rankDevice_congr hstored.devices]
    exact hdevice
  · rw [hstored.held]
    split
    · rfl
    · exact hheld

theorem HeldBy.of_stored {deviceId memAddr : UInt64}
    (hdevice : w.rankDevice comm rank = some deviceId) (haddr : memAddrs rank = some memAddr)
    (hstored : Stored deviceId memAddr buffer w w') : HeldBy comm memAddrs buffer rank w' := by
  refine ⟨deviceId, memAddr, ?_, haddr, ?_⟩
  · rw [rankDevice_congr hstored.devices]
    exact hdevice
  · rw [hstored.held, if_pos ⟨rfl, rfl⟩]

theorem wp_ringStep (comm : Communicator) (req : AllReduceRequest) (i : Nat) (w : World)
    {ones : Bytes} (hones : generateData req.op req.count = some ones) :
    wp (ringStep comm req i) (fun _ w' => ∃ deviceId memAddr, Stored deviceId memAddr ones w w' ∧
      HeldBy comm req.memAddrs ones (UInt32.ofNat i) w') anyFailure w := by
  unfold ringStep
  dsimp only
  split
  · next srcMemAddr dstMemAddr hsrc hdst =>
    rw [wp_bind]
    apply wp_mono (wp_deviceOf comm _ w) _ fun _ _ _ => trivial
    intro srcDevice w₀ h₀
    obtain ⟨rfl, hdevice⟩ := h₀
    rw [wp_bind]
    apply wp_mono (wp_newClient srcDevice w₀) _ fun _ _ _ => trivial
    intro _ w₁ h₁
    rw [wp_bind]
    apply wp_mono (wp_beginSend srcDevice w₁) _ fun _ _ _ => trivial
    intro streamID w₂ h₂
    rw [wp_bind]
    apply wp_mono (wp_deviceOf comm _ w₂) _ fun _ _ _ => trivial
    intro dstDevice w₃ h₃
    obtain ⟨rfl, _⟩ := h₃
    rw [wp_bind]
    apply wp_mono (wp_newClient dstDevice w₃) _ fun _ _ _ => trivial
    intro _ w₄ h₄
    rw [wp_bind]
    apply wp_mono (wp_beginReceive dstDevice streamID w₄) _ fun _ _ _ => trivial
    intro _ w₅ h₅
    rw [wp_bind]
    apply wp_orPanic
    intro data hdata
    obtain rfl := Option.some.inj (hones.symm.trans hdata)
    apply wp_mono (wp_streamSend srcDevice streamID srcMemAddr ones w₅) _ fun _ _ _ => trivial
    intro _ w₆ h₆
    have hstored := (((h₁.trans h₂).trans h₄).trans h₅).stored h₆
    exact ⟨srcDevice, srcMemAddr, hstored, HeldBy.of_stored hdevice hsrc hstored⟩
  · exact trivial

theorem wp_ring (comm : Communicator) (req : AllReduceRequest) (w : World) {ones : Bytes}
    (hones : generateData req.op req.count = some ones) :
    wp (forUp (ringStep comm req) 0 comm.devices.length) (fun _ w' =>
      w'.service.availableDevices = w.service.availableDevices ∧
        ∀ r < comm.devices.length, HeldBy comm req.memAddrs ones (UInt32.ofNat r) w')
      anyFailure w := by
  have h : wp (forUp (ringStep comm req) 0 comm.devices.length) (fun _ w' =>
      w'.service.availableDevices = w.service.availableDevices ∧
        ∀ r < 0 + comm.devices.length, HeldBy comm req.memAddrs ones (UInt32.ofNat r) w')
      anyFailure w := by
    -- after `i` steps the first `i` ranks hold ones
    apply wp_forUp (I := fun i w' => w'.service.availableDevices = w.service.availableDevices ∧
      ∀ r < i, HeldBy comm req.memAddrs ones (UInt32.ofNat r) w')
    · exact ⟨rfl, fun r hr => absurd hr (Nat.not_lt_zero r)⟩
    · intro i w₁ _ _ hI
      apply wp_mono (wp_ringStep comm req i w₁ hones) _ fun _ _ _ => trivial
      intro _ w₂ hstep
      obtain ⟨deviceId, memAddr, hstored, hheld⟩ := hstep
      refine ⟨hstored.devices.trans hI.1, ?_⟩
      intro r hr
      by_cases hri : r = i
      · rw [hri]
        exact hheld
      · exact (hI.2 r (by omega)).stored hstored
  rwa [Nat.zero_add] at h

theorem wp_gather {dataSize : Int64} (hsize : SliceSize count dataSize)
    (hlen : buffer.length = 8 * count.toNat) (ranks : List UInt32) :
    ∀ (allData : List Bytes) (w : World), (∀ r ∈ ranks, HeldBy comm memAddrs buffer r w) →
      wp (gather comm memAddrs dataSize ranks allData) (fun out w' => Kept w w' ∧
        out.length = allData.length ∧ (∀ r ∈ ranks, out[r.toNat]? = some buffer) ∧
        ∀ k : Nat, allData[k]? = some buffer → out[k]? = some buffer) anyFailure w := by
  induction ranks with
  | nil =>
    intro allData w _
    exact ⟨Kept.refl w, rfl, fun r hr => absurd hr List.not_mem_nil, fun _ hk => hk⟩
  | cons rank ranks ih =>
    intro allData w hheld
    unfold gather
    rw [wp_bind]
    apply wp_mono (wp_deviceOf comm rank w) _ fun _ _ _ => trivial
    intro deviceId w₀ h₀
    obtain ⟨rfl, hdevice⟩ := h₀
    rw [wp_bind]
    apply wp_mono (wp_memcpyDeviceToHost deviceId _ _ w₀) _ fun _ _ _ => trivial
    intro data w₁ h₁
    obtain ⟨hkept, stored, hstored, hdata⟩ := h₁
    -- what was read is the buffer
    obtain ⟨id, addr, hid, haddr, hbuffer⟩ := hheld rank List.mem_cons_self
    obtain rfl := Option.some.inj (hid.symm.trans hdevice)
    rw [haddr, Option.getD_some, hbuffer] at hstored
    obtain rfl := Option.some.inj hstored
    rw [hsize.toNat, hlen, if_neg (Nat.lt_irrefl _)] at hdata
    split
    · exact trivial
    · next hrank =>
      split
      · exact trivial
      · apply wp_mono (ih (allData.set rank.toNat data) w₁ fun r hr =>
          (hheld r (List.mem_cons_of_mem _ hr)).kept hkept) _ fun _ _ _ => trivial
        intro out w₂ h₂
        obtain ⟨hkept', houtlen, hranks, hold⟩ := h₂
        refine ⟨hkept.trans hkept', by rw [houtlen, List.length_set], ?_, ?_⟩
        · intro r hr
          rcases List.mem_cons.mp hr with rfl | hr
          · apply hold
            rw [List.getElem?_set_self (by omega), hdata]
          · exact hranks r hr
        · intro k hk
          apply hold
          rw [List.getElem?_set, hdata]
          split
          · next hrk =>
            rw [if_pos (by omega)]
          · exact hk

theorem wp_writeBack (deviceId memAddr : UInt64) (data : Bytes) (w : World) :
    wp (writeBack deviceId memAddr data) (fun _ w' => Stored deviceId memAddr data w w') anyFailure
      w := by
  have hcopy := wp_memcpyHostToDevice data deviceId memAddr w
  unfold wp writeBack at *
  cases hm : memcpyHostToDevice data deviceId memAddr w with
  | error e w' => cases e <;> exact trivial
  | ok a w' =>
    rw [hm] at hcopy
    exact hcopy

theorem wp_scatter (ranks : List UInt32) (haddrs : ∀ r ∈ ranks, (memAddrs r).isSome = true)
    (w : World) :
    wp (ranks.forM fun rank => do
        let deviceId ← deviceOf comm rank
        writeBack deviceId ((memAddrs rank).getD 0) buffer)
      (fun _ w' => w'.service.availableDevices = w.service.availableDevices ∧
        ∀ r ∈ ranks, HeldBy comm memAddrs buffer r w') anyFailure w := by
  -- the invariant is about the ranks that are done
  apply wp_forM (I := fun done w' =>
    w'.service.availableDevices = w.service.availableDevices ∧
      ∀ r ∈ done, HeldBy comm memAddrs buffer r w')
  · exact ⟨rfl, fun r hr => absurd hr List.not_mem_nil⟩
  · intro done rank rest w₁ hranks hI
    have hrank : rank ∈ ranks := by
      rw [hranks]
      exact List.mem_append_right _ List.mem_cons_self
    rw [wp_bind]
    apply wp_mono (wp_deviceOf comm rank w₁) _ fun _ _ _ => trivial
    intro deviceId w₂ h₂
    obtain ⟨rfl, hdevice⟩ := h₂
    obtain ⟨memAddr, haddr⟩ := Option.isSome_iff_exists.mp (haddrs rank hrank)
    rw [haddr, Option.getD_some]
    apply wp_mono (wp_writeBack deviceId memAddr buffer w₂) _ fun _ _ _ => trivial
    intro _ w' hstored
    refine ⟨hstored.devices.trans hI.1, ?_⟩
    intro r hr
    rcases List.mem_append.mp hr with hr | hr
    · exact (hI.2 r hr).stored hstored
    · obtain rfl := List.mem_singleton.mp hr
      exact HeldBy.of_stored hdevice haddr hstored

end Phases

/-! ## 6. The result -/

/-- The ranks of a communicator as `CommInit` gives them: device `r` of the list has rank `r`. -/
structure Communicator.Ranked (comm : Communicator) : Prop where
  ranks : ∀ r : UInt32, comm.rankMapping r = comm.devices[r.toNat]?
  length : comm.devices.length < 2 ^ 32

def Communicator.Iterates (comm : Communicator) (order : List UInt32) : Prop :=
  order.Nodup ∧ ∀ r, r ∈ order ↔ (comm.rankMapping r).isSome = true

theorem Communicator.Ranked.mem_order (h : comm.Ranked) {order : List UInt32}
    (horder : comm.Iterates order) (r : UInt32) : r ∈ order ↔ r.toNat < comm.devices.length := by
  rw [horder.2 r, h.ranks r]
  simp only [getElem?_def, Option.isSome_dite]

theorem toNat_ofNat_rank (h : comm.Ranked) {r : Nat} (hr : r < comm.devices.length) :
    (UInt32.ofNat r).toNat = r := by
  have := h.length
  rw [UInt32.toNat_ofNat', Nat.mod_eq_of_lt (by omega)]

def onesReduced (ops : FloatOps) (op : ReduceOp) (count n : Nat) : Bytes :=
  encode (List.replicate count (reduceRanks (reduceOp ops op) (List.replicate n one)))

theorem copyTo_self (data : Bytes) : copyTo data.length data = data := by
  unfold copyTo
  rw [List.take_length, Nat.sub_self, List.replicate_zero, List.append_nil]

theorem wp_performReduction (ops : FloatOps) (hranked : comm.Ranked) (hn : 1 ≤ comm.devices.length)
    (hcount : 8 * count.toNat < 2 ^ 63) (op : ReduceOp) {memAddrs : UInt32 → Option UInt64}
    {gathering scattering : List UInt32} (hgathering : comm.Iterates gathering)
    (hscattering : comm.Iterates scattering) (hheld : ∀ r < comm.devices.length,
      HeldBy comm memAddrs (encode (List.replicate count.toNat one)) (UInt32.ofNat r) w) :
    wp (performReduction ops comm count op memAddrs gathering scattering) (fun _ w' =>
      w'.service.availableDevices = w.service.availableDevices ∧
        ∀ r ∈ scattering,
          HeldBy comm memAddrs (onesReduced ops op count.toNat comm.devices.length) r w')
      anyFailure w := by
  have hsize := sliceSize hcount
  have hlen : (encode (List.replicate count.toNat one)).length = 8 * count.toNat := by
    rw [length_encode, List.length_replicate]
  have hrank : ∀ r : UInt32, r.toNat < comm.devices.length →
      HeldBy comm memAddrs (encode (List.replicate count.toNat one)) r w := by
    intro r hr
    have := hheld r.toNat hr
    rwa [UInt32.ofNat_toNat] at this
  unfold performReduction
  rw [wp_bind]
  apply wp_mono (wp_gather hsize hlen gathering _ w fun r hr =>
    hrank r ((hranked.mem_order hgathering r).mp hr)) _ fun _ _ _ => trivial
  intro out w₁ h₁
  obtain ⟨hkept, houtlen, hout, _⟩ := h₁
  rw [List.length_replicate] at houtlen
  -- every rank was gathered
  have hall : out = List.replicate comm.devices.length (encode (List.replicate count.toNat one)) := by
    apply List.ext_getElem?
    intro k
    by_cases hk : k < comm.devices.length
    · have hmem := (hranked.mem_order hgathering (UInt32.ofNat k)).mpr
        (by rwa [toNat_ofNat_rank hranked hk])
      have := hout _ hmem
      rw [toNat_ofNat_rank hranked hk] at this
      rw [this, List.getElem?_replicate, if_pos hk]
    · rw [List.getElem?_eq_none (by omega), List.getElem?_eq_none (by
        rw [List.length_replicate]
        omega)]
  have hnonneg : ¬ count.toInt64 * 8 < 0 := by
    rw [Int64.lt_iff_toInt_lt, hsize.toInt, show (0 : Int64).toInt = 0 from rfl]
    omega
  obtain ⟨n, hn'⟩ : ∃ n, comm.devices.length = n + 1 := ⟨comm.devices.length - 1, by omega⟩
  rw [if_neg hnonneg, hall, hn', List.replicate_succ]
  dsimp only
  rw [wp_bind, hsize.toInt, show (8 * (count.toNat : Int)).toNat = 8 * count.toNat by omega, ← hlen,
    copyTo_self, reduceAll_replicate]
  have haddrs : ∀ r ∈ scattering, (memAddrs r).isSome = true := by
    intro r hr
    obtain ⟨_, _, _, haddr, _⟩ := hrank r ((hranked.mem_order hscattering r).mp hr)
    rw [haddr]
    rfl
  apply wp_mono (wp_scatter scattering haddrs w₁) _ fun _ _ _ => trivial
  intro _ w₂ h₂
  exact ⟨h₂.1.trans hkept.devices, h₂.2⟩

theorem wp_orFail {m : Handler PUnit} {Q : PUnit → World → Prop} {commId : UInt64}
    (h : wp m Q anyFailure w) : wp (orFail commId m) Q anyFailure w := by
  unfold wp orFail at *
  cases hm : m w with
  | error e w' => cases e <;> exact trivial
  | ok a w' =>
    rw [hm] at h
    exact h

theorem Service.beginAllReduce_eq {s : Service} {commId : UInt64} {p : Nat}
    (hlookup : s.lookup commId = some (p, comm)) (hstatus : comm.status = .inProgress) :
    s.beginAllReduce commId = (s, .ok p) ∧ s.objects[p]? = some comm := by
  have hobject : s.objects[p]? = some comm := by
    obtain ⟨q, hq, hm⟩ := Option.bind_eq_some_iff.mp hlookup
    obtain ⟨x, hx, he⟩ := Option.map_eq_some_iff.mp hm
    obtain ⟨rfl, rfl⟩ := Prod.mk.inj he
    exact hx
  have hsame : s.objects.modify p (fun comm => { comm with status := .inProgress }) = s.objects := by
    apply List.ext_getElem?
    intro j
    rw [List.getElem?_modify]
    by_cases hj : p = j
    · rw [← hj, hobject, ← hstatus]
      simp
    · simp [hj]
  refine ⟨?_, hobject⟩
  unfold Service.beginAllReduce Service.setStatus
  rw [hlookup]
  dsimp only
  rw [if_neg (not_not_intro hstatus), hsame]

theorem wp_allReduceRing (ops : FloatOps) (req : AllReduceRequest) {p : Nat}
    (hlookup : w.service.lookup req.commId = some (p, comm)) (hranked : comm.Ranked)
    (hn : 1 ≤ comm.devices.length) (hcount : 8 * req.count.toNat < 2 ^ 63)
    {gathering scattering : List UInt32} (hgathering : comm.Iterates gathering)
    (hscattering : comm.Iterates scattering) :
    wp (allReduceRing ops req gathering scattering) (fun _ w' => ∀ r < comm.devices.length,
      HeldBy comm req.memAddrs
        (onesReduced ops req.op req.count.toNat comm.devices.length) (UInt32.ofNat r) w')
      anyFailure w := by
  unfold allReduceRing
  rw [wp_bind, wp_get]
  by_cases hstatus : comm.status = .inProgress
  · obtain ⟨hbegin, hobject⟩ := Service.beginAllReduce_eq hlookup hstatus
    rw [hbegin]
    rw [wp_bind, wp_set, wp_bind, hobject]
    show wp (orFail req.commId _ >>= _) _ _ _
    rw [wp_bind]
    apply wp_mono (wp_orFail _) _ fun _ _ _ => trivial
    · exact fun _ w' => ∀ r < comm.devices.length, HeldBy comm req.memAddrs
        (onesReduced ops req.op req.count.toNat comm.devices.length) (UInt32.ofNat r) w'
    · rw [wp_bind]
      apply wp_mono (wp_ring comm req _ (generateData_eq req.op hcount)) _ fun _ _ _ => trivial
      intro _ w₁ h₁
      apply wp_mono (wp_performReduction ops hranked hn hcount req.op hgathering hscattering h₁.2) _
        fun _ _ _ => trivial
      intro _ w₂ h₂ r hr
      apply h₂.2
      rwa [hranked.mem_order hscattering, toNat_ofNat_rank hranked hr]
    · intro _ w₁ h₁
      rw [wp_modify]
      intro r hr
      exact (h₁ r hr).kept ⟨rfl, fun _ _ => rfl⟩
  · unfold Service.beginAllReduce
    rw [hlookup]
    dsimp only
    rw [if_pos hstatus]
    exact trivial

theorem bufferOf_eq_some {memAddrs : UInt32 → Option UInt64} {r : Nat} {buffer : Bytes} :
    w.bufferOf comm memAddrs r = some buffer ↔ HeldBy comm memAddrs buffer (UInt32.ofNat r) w := by
  unfold World.bufferOf HeldBy
  simp only [Option.bind_eq_some_iff]
  constructor
  · intro ⟨deviceId, hdevice, memAddr, haddr, hheld⟩
    exact ⟨deviceId, memAddr, hdevice, haddr, hheld⟩
  · intro ⟨deviceId, memAddr, hdevice, haddr, hheld⟩
    exact ⟨deviceId, hdevice, memAddr, haddr, hheld⟩

def element (buffer : Bytes) (i : Nat) : UInt64 := (wordAt buffer i).getD 0

/-- The buffer that a reduction of these buffers is meant to give: element by element the left fold
in the order of the ranks. -/
def reducedBuffer (ops : FloatOps) (op : ReduceOp) (count n : Nat) (initial : Nat → Bytes) : Bytes :=
  encode ((List.range count).map fun i =>
    reduceRanks (reduceOp ops op) ((List.range n).map fun r => element (initial r) i))

/-- A successful reduction of buffers that the devices hold leaves their reduction in every device if
and only if each of its elements is also the operation folded over ones. -/
theorem allReduceRing_result (ops : FloatOps) (req : AllReduceRequest) {w w' : World} {p : Nat}
    {comm : Communicator} (hlookup : w.service.lookup req.commId = some (p, comm))
    (hranked : comm.Ranked) (hn : 1 ≤ comm.devices.length) {gathering scattering : List UInt32}
    (hgathering : comm.Iterates gathering) (hscattering : comm.Iterates scattering)
    {initial : Nat → Bytes}
    (hinitial : ∀ r < comm.devices.length, w.bufferOf comm req.memAddrs r = some (initial r) ∧
      (initial r).length = 8 * req.count.toNat ∧ (initial r).length < 2 ^ 63)
    (hok : allReduceRing ops req gathering scattering w = .ok ⟨⟩ w') :
    (∀ r < comm.devices.length, w'.bufferOf comm req.memAddrs r =
        some (reducedBuffer ops req.op req.count.toNat comm.devices.length initial)) ↔
      ∀ i < req.count.toNat,
        reduceRanks (reduceOp ops req.op)
            ((List.range comm.devices.length).map fun r => element (initial r) i) =
          reduceRanks (reduceOp ops req.op) (List.replicate comm.devices.length one) := by
  have hcount : 8 * req.count.toNat < 2 ^ 63 := by
    have := hinitial 0 (by omega)
    omega
  have hresult : ∀ r < comm.devices.length, w'.bufferOf comm req.memAddrs r =
      some (onesReduced ops req.op req.count.toNat comm.devices.length) := by
    intro r hr
    apply bufferOf_eq_some.mpr
    exact wp_ok (wp_allReduceRing ops req hlookup hranked hn hcount hgathering hscattering) hok r hr
  have hequal : onesReduced ops req.op req.count.toNat comm.devices.length =
      reducedBuffer ops req.op req.count.toNat comm.devices.length initial ↔
      ∀ i < req.count.toNat, reduceRanks (reduceOp ops req.op)
        ((List.range comm.devices.length).map fun r => element (initial r) i) =
        reduceRanks (reduceOp ops req.op) (List.replicate comm.devices.length one) := by
    unfold onesReduced reducedBuffer
    constructor
    · intro he i hi
      have hget := congrArg (fun l : List UInt64 => l[i]?) (encode_injective he)
      simp only [List.getElem?_replicate, if_pos hi, List.getElem?_map,
        List.getElem?_range hi, Option.map_some] at hget
      exact (Option.some.inj hget).symm
    · intro h
      congr 1
      apply List.ext_getElem?
      intro i
      by_cases hi : i < req.count.toNat
      · rw [List.getElem?_replicate, if_pos hi, List.getElem?_map, List.getElem?_range hi,
          Option.map_some, h i hi]
      · rw [List.getElem?_eq_none (by rw [List.length_replicate]; omega),
          List.getElem?_eq_none (by rw [List.length_map, List.length_range]; omega)]
  rw [← hequal]
  constructor
  · intro h
    exact Option.some.inj ((hresult 0 (by omega)).symm.trans (h 0 (by omega)))
  · intro h r hr
    rw [hresult r hr, h]

/-! ## 7. Examples -/

def patternOps : FloatOps := ⟨fun a _ => a, fun a _ => a, fun a b => a < b⟩

def twoDevices : List DeviceMetadata := [⟨1, 0x1000, 0x1FFFFF, 0⟩, ⟨2, 0x1000, 0x1FFFFF, 1⟩]

def twoRanks (x y : UInt64) : World where
  service := ((newGPUCoordinatorService twoDevices).commInit 2).1
  devices := fun id =>
    if id = 1 then
      some { newGPUDeviceService 1 0 with memory := Function.update (fun _ => none) 0x1000 (put x) }
    else if id = 2 then
      some { newGPUDeviceService 2 1 with memory := Function.update (fun _ => none) 0x2000 (put y) }
    else none
  faults := fun _ => .none
  requests := 0

def twoRanksRequest (op : ReduceOp) : AllReduceRequest where
  commId := 1
  count := 1
  op := op
  memAddrs := fun rank => if rank = 0 then some 0x1000 else if rank = 1 then some 0x2000 else none

def successOf (m : Handler PUnit) (w : World) : Option World :=
  match m w with
  | .ok _ w' => some w'
  | .error _ _ => none

theorem successOf_eq_some {m : Handler PUnit} (h : successOf m w = some w') : m w = .ok ⟨⟩ w' := by
  unfold successOf at h
  split at h
  · next heq => rw [heq, Option.some.inj h]
  · exact absurd h.symm (Option.some_ne_none _)

/-- The maximum of two devices that hold `2.0` and `3.0` comes out as `1.0`. -/
theorem allReduceRing_loses_data :
    (twoRanks 0x4000000000000000 0x4008000000000000).held 1 0x1000 = some (put 0x4000000000000000) ∧
      (twoRanks 0x4000000000000000 0x4008000000000000).held 2 0x2000 =
        some (put 0x4008000000000000) ∧
      ∃ w', allReduceRing patternOps (twoRanksRequest .max) [0, 1] [0, 1]
          (twoRanks 0x4000000000000000 0x4008000000000000) = .ok ⟨⟩ w' ∧
        w'.held 1 0x1000 = some (put one) ∧ w'.held 2 0x2000 = some (put one) ∧
        put one ≠ reducedBuffer patternOps .max 1 2 fun r =>
          if r = 0 then put 0x4000000000000000 else put 0x4008000000000000 := by
  refine ⟨by decide +kernel, by decide +kernel, _,
    successOf_eq_some (Option.some_get (by decide +kernel)).symm, ?_⟩
  exact ⟨by decide +kernel, by decide +kernel, by decide +kernel⟩

def bothDevices : Communicator := ⟨[0, 1], fun r => [0, 1][r.toNat]?, .inProgress⟩

def onesHeld : World :=
  { twoRanks one one with
    service := (newGPUCoordinatorService twoDevices).addCommunicator bothDevices.devices
      bothDevices.rankMapping }

theorem bothDevices_ranked : bothDevices.Ranked := ⟨fun _ => rfl, by decide⟩

theorem bothDevices_iterates : bothDevices.Iterates [1, 0] := by
  refine ⟨by decide, fun r => ?_⟩
  show r ∈ [1, 0] ↔ ([0, 1][r.toNat]?).isSome = true
  rw [List.mem_cons, List.mem_singleton, ← UInt32.toNat_inj, ← UInt32.toNat_inj]
  show r.toNat = 1 ∨ r.toNat = 0 ↔ _
  simp only [getElem?_def, Option.isSome_dite, List.length_cons, List.length_nil]
  omega

/-- Where the devices hold ones, the reduction of what they hold is what they get. -/
theorem allReduceRing_result_ones :
    ∃ w', allReduceRing patternOps (twoRanksRequest .max) [1, 0] [1, 0] onesHeld = .ok ⟨⟩ w' ∧
      ∀ r < 2, w'.bufferOf bothDevices (twoRanksRequest .max).memAddrs r =
        some (reducedBuffer patternOps .max 1 2 fun _ => put one) := by
  refine ⟨_, successOf_eq_some (Option.some_get (by decide +kernel)).symm, ?_⟩
  apply (allReduceRing_result patternOps (twoRanksRequest .max) (w := onesHeld) rfl
    bothDevices_ranked (by decide) bothDevices_iterates bothDevices_iterates
    (by decide +kernel) (successOf_eq_some (Option.some_get (by decide +kernel)).symm)).mpr
  decide +kernel

end Dsml
