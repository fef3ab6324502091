import DistributedSystems.Library.Runs
import DistributedSystems.Dsml.ReduceResult

/-!
# Ranges of device memory

The coordinator keeps a record of every device with the range of its addresses.  `Memcpy` compares
the start of the buffer with the range and lets a device without a record pass; the ring phase of
`AllReduceRing` compares nothing.  Requests that ask for no more than the records allow keep every
buffer in its range.
-/

namespace Dsml

open Fallible Transition Function

/-! ## 1. Records and ranges -/

namespace Service

def records (s : Service) : List DeviceMetadata := s.availableDevices.map fun d => d.metadata

def Listed (s : Service) : Prop :=
  ∀ comm ∈ s.objects, ∀ r, (comm.rankMapping r).isSome = true → r.toNat < comm.devices.length

structure Maintains (s s' : Service) : Prop where
  records : s'.records = s.records
  listed : s.Listed → s'.Listed

theorem Maintains.refl (s : Service) : Maintains s s := ⟨rfl, id⟩

theorem Maintains.trans {s s' s'' : Service} (h : Maintains s s') (h' : Maintains s' s'') :
    Maintains s s'' :=
  ⟨h'.records.trans h.records, h'.listed ∘ h.listed⟩

end Service

def Known (records : List DeviceMetadata) (deviceId : UInt64) : Prop :=
  ∃ r ∈ records, r.deviceId = deviceId

def Allowed (records : List DeviceMetadata) (deviceId memAddr : UInt64) (length : Nat) : Prop :=
  Known records deviceId ∧ ∀ r ∈ records, r.deviceId = deviceId →
    r.minMemAddr ≤ memAddr ∧ memAddr.toNat + length ≤ r.maxMemAddr.toNat + 1

def Rejected (records : List DeviceMetadata) (deviceId memAddr : UInt64) : Prop :=
  ∃ r ∈ records, r.deviceId = deviceId ∧ (memAddr < r.minMemAddr ∨ r.maxMemAddr < memAddr)

instance (records : List DeviceMetadata) (deviceId : UInt64) : Decidable (Known records deviceId) :=
  inferInstanceAs (Decidable (∃ r ∈ records, _))

instance (records : List DeviceMetadata) (deviceId memAddr : UInt64) (length : Nat) :
    Decidable (Allowed records deviceId memAddr length) :=
  inferInstanceAs (Decidable (_ ∧ _))

instance (records : List DeviceMetadata) (deviceId memAddr : UInt64) :
    Decidable (Rejected records deviceId memAddr) :=
  inferInstanceAs (Decidable (∃ r ∈ records, _))

namespace World

def records (w : World) : List DeviceMetadata := w.service.records

def InRange (w : World) : Prop :=
  ∀ deviceId memAddr data, w.held deviceId memAddr = some data →
    Allowed w.records deviceId memAddr data.length

/-- The records are as in `w`, and a buffer that `w` does not hold is one of those allowed. -/
structure Wrote (A : UInt64 → UInt64 → Nat → Prop) (w w' : World) : Prop where
  maintains : Service.Maintains w.service w'.service
  held : ∀ deviceId memAddr data, w'.held deviceId memAddr = some data →
    w.held deviceId memAddr = some data ∨ A deviceId memAddr data.length

theorem Wrote.refl {A : UInt64 → UInt64 → Nat → Prop} (w : World) : Wrote A w w :=
  ⟨Service.Maintains.refl _, fun _ _ _ h => Or.inl h⟩

variable {w w' : World} {A : UInt64 → UInt64 → Nat → Prop}

theorem Wrote.records (h : Wrote A w w') : w'.records = w.records := h.maintains.records

theorem Wrote.asked (h : Wrote A w w') (requests : Nat) :
    Wrote A w { w' with requests := requests } := ⟨h.maintains, h.held⟩

theorem Wrote.service (h : Wrote A w w') {s : Service}
    (hs : Service.Maintains w'.service s) : Wrote A w { w' with service := s } :=
  ⟨h.maintains.trans hs, h.held⟩

theorem Wrote.inRange (h : Wrote (Allowed w.records) w w') (hw : w.InRange) : w'.InRange := by
  intro deviceId memAddr data hheld
  rw [h.records]
  rcases h.held deviceId memAddr data hheld with hold | hnew
  · exact hw deviceId memAddr data hold
  · exact hnew

end World

open World

/-! ## 2. Requests to devices -/

section Requests

variable {A : UInt64 → UInt64 → Nat → Prop} {w₀ : World}

theorem keeps_nextFault : Keeps (Wrote A w₀) nextFault := fun _ h => h.asked _

theorem keeps_call {α : Type} {deviceId : UInt64}
    {handler : Fault → GPUDevice → Option GPUDevice × Except ReduceError α}
    (hhandler : ∀ fault d d', (handler fault d).1 = some d' → ∀ memAddr data,
      d'.memory memAddr = some data →
        d.memory memAddr = some data ∨ A deviceId memAddr data.length) :
    Keeps (Wrote A w₀) (call deviceId handler) := by
  intro w h
  unfold call
  rw [wp_bind, wp_nextFault, wp_bind, wp_get]
  cases hd : w.devices deviceId with
  | none => exact h.asked _
  | some d =>
    dsimp only
    by_cases hlost : w.faults w.requests = .lost
    · rw [if_pos hlost]
      exact h.asked _
    · rw [if_neg hlost, wp_bind, wp_set]
      -- the device has handled the request, answered or not
      have hdone : Wrote A w₀ { w with
          requests := w.requests + 1
          devices := update w.devices deviceId (handler (w.faults w.requests) d).1 } := by
        refine ⟨h.maintains, fun id memAddr data hheld => ?_⟩
        change (update w.devices deviceId _ id).bind _ = _ at hheld
        by_cases hid : id = deviceId
        · rw [hid, update_self] at hheld
          obtain ⟨d', hd', hmem⟩ := Option.bind_eq_some_iff.mp hheld
          rw [hid]
          rcases hhandler _ d d' hd' memAddr data hmem with hold | hnew
          · apply h.held
            unfold World.held
            rw [hd, Option.bind_some, hold]
          · exact Or.inr hnew
        · rw [update_of_ne hid] at hheld
          exact h.held id memAddr data hheld
      split
      · split
        · exact hdone
        · exact hdone
      · exact hdone

theorem keeps_newClient (deviceId : UInt64) : Keeps (Wrote A w₀) (newClient deviceId) := by
  apply keeps_bind keeps_nextFault
  intro fault
  split
  · exact keeps_pure _
  · exact keeps_throw _

theorem keeps_beginSend (deviceId : UInt64) : Keeps (Wrote A w₀) (beginSend deviceId) := by
  apply keeps_call
  intro fault d d' hd' memAddr data hmem
  obtain rfl := Option.some.inj hd'
  exact Or.inl hmem

theorem keeps_beginReceive (deviceId streamID : UInt64) :
    Keeps (Wrote A w₀) (beginReceive deviceId streamID) := by
  apply keeps_call
  intro fault d d' hd' memAddr data hmem
  obtain rfl := Option.some.inj hd'
  exact Or.inl hmem

theorem streamReceive_memory (d : GPUDevice) (streamID memAddr numBytes : UInt64) (sent : Bool) :
    (d.streamReceive streamID memAddr numBytes sent).1.memory = d.memory := by
  unfold GPUDevice.streamReceive
  split
  · rfl
  · cases sent with
    | true => rfl
    | false => rfl

theorem keeps_streamReceive (deviceId streamID memAddr numBytes : UInt64) :
    Keeps (Wrote A w₀) (streamReceive deviceId streamID memAddr numBytes) := by
  apply keeps_call
  intro fault d d' hd' addr data hmem
  left
  dsimp only at hd'
  generalize hr : d.streamReceive streamID memAddr numBytes _ = r at hd'
  have hmemory : r.1.memory = d.memory := by
    rw [← hr]
    exact streamReceive_memory d streamID memAddr numBytes _
  rw [← hmemory]
  obtain ⟨d₁, out⟩ := r
  cases out with
  | ok data =>
    obtain rfl := Option.some.inj hd'
    exact hmem
  | error err =>
    obtain rfl := Option.some.inj hd'
    exact hmem

theorem streamSend_memory (d : GPUDevice) (streamID memAddr : UInt64) (data : Bytes) (n : Nat) :
    (d.streamSend ((clientItems streamID memAddr data).take n ++ [.failure])).1.memory = d.memory ∨
      (d.streamSend ((clientItems streamID memAddr data).take n ++ [.failure])).1.memory =
        update d.memory memAddr (some data) := by
  have hfirst := streamSendFirst_initialChunk d streamID memAddr
  unfold clientItems
  by_cases hdata : 0 < data.length
  · rw [if_pos hdata]
    rcases n with _ | _ | _ | n
    · exact Or.inl rfl
    · left
      simp [GPUDevice.streamSend, hfirst, GPUDevice.streamSendLoop, GPUDevice.streamSendNext,
        GPUDevice.setStream]
    · left
      simp [GPUDevice.streamSend, hfirst, GPUDevice.streamSendLoop, GPUDevice.streamSendNext,
        GPUDevice.setStream]
    · right
      simp [GPUDevice.streamSend, hfirst, GPUDevice.streamSendLoop, GPUDevice.streamSendNext,
        GPUDevice.setStream]
  · rw [if_neg hdata]
    have hnil : data = [] := List.length_eq_zero_iff.mp (by omega)
    rcases n with _ | _ | n
    · exact Or.inl rfl
    · left
      simp [GPUDevice.streamSend, hfirst, GPUDevice.streamSendLoop, GPUDevice.streamSendNext,
        GPUDevice.setStream]
    · right
      simp [GPUDevice.streamSend, hfirst, GPUDevice.streamSendLoop, GPUDevice.streamSendNext,
        GPUDevice.setStream, hnil]

theorem keeps_streamSend (deviceId streamID memAddr : UInt64) {data : Bytes}
    (hA : A deviceId memAddr data.length) :
    Keeps (Wrote A w₀) (streamSend deviceId streamID memAddr data) := by
  apply keeps_call
  intro fault d d' hd' addr buffer hmem
  have hmemory : d'.memory = d.memory ∨ d'.memory = update d.memory memAddr (some data) := by
    dsimp only at hd'
    generalize hr : d.streamSend _ = r at hd'
    have hend : r.1.memory = d.memory ∨ r.1.memory = update d.memory memAddr (some data) := by
      rw [← hr]
      split
      · exact streamSend_memory d streamID memAddr data _
      · obtain ⟨d₁, hsend, hset⟩ := streamSend_clientItems d streamID memAddr data
        rw [hsend]
        exact Or.inr hset
    obtain ⟨d₁, out⟩ := r
    -- a device that panicked is gone
    cases out with
    | none =>
      obtain rfl := Option.some.inj hd'
      exact hend
    | some out =>
      cases out with
      | success =>
        obtain rfl := Option.some.inj hd'
        exact hend
      | failed err =>
        obtain rfl := Option.some.inj hd'
        exact hend
      | panicked => contradiction
  rcases hmemory with hsame | hset
  · rw [hsame] at hmem
    exact Or.inl hmem
  · rw [hset, update_apply] at hmem
    split at hmem
    · next haddr =>
      obtain rfl := Option.some.inj hmem
      rw [haddr]
      exact Or.inr hA
    · exact Or.inl hmem

/-! ## 3. `Memcpy` -/

variable {w : World}

theorem any_rejected {deviceId memAddr : UInt64} :
    (w.service.availableDevices.any fun device => device.metadata.deviceId = deviceId ∧
      (memAddr < device.metadata.minMemAddr ∨ device.metadata.maxMemAddr < memAddr)) = true ↔
    Rejected w.records deviceId memAddr := by
  unfold Rejected World.records Service.records
  simp

theorem keeps_memcpyHostToDevice (data : Bytes) (deviceId memAddr : UInt64)
    (hA : ¬ Rejected w₀.records deviceId memAddr → A deviceId memAddr data.length) :
    Keeps (Wrote A w₀) (memcpyHostToDevice data deviceId memAddr) := by
  intro w h
  unfold memcpyHostToDevice
  rw [wp_bind, wp_get]
  split
  · exact h
  · next hcheck =>
    have hrejected : ¬ Rejected w₀.records deviceId memAddr := by
      rw [← h.records]
      exact fun hc => hcheck (any_rejected.mpr hc)
    refine keeps_bind (keeps_newClient deviceId) (fun _ => ?_) w h
    refine keeps_bind (keeps_beginSend deviceId) fun streamID => ?_
    exact keeps_streamSend deviceId streamID memAddr (hA hrejected)

theorem keeps_memcpyDeviceToHost (deviceId memAddr numBytes : UInt64) :
    Keeps (Wrote A w₀) (memcpyDeviceToHost deviceId memAddr numBytes) := by
  refine keeps_bind (keeps_newClient deviceId) fun _ => ?_
  intro w h
  rw [wp_bind, wp_get]
  rw [wp_bind, wp_set]
  exact keeps_streamReceive deviceId _ memAddr numBytes _ (h.service ⟨rfl, id⟩)

/-! ## 4. `AllReduceRing` -/

theorem rankDevice_of_records {w' : World} (h : w'.records = w.records) (comm : Communicator)
    (rank : UInt32) : w'.rankDevice comm rank = w.rankDevice comm rank := by
  have hid : ∀ (w : World) (i : Nat), ((w.service.availableDevices[i]?).map
      fun device => device.metadata.deviceId) = (w.records[i]?).map fun r => r.deviceId := by
    intro w i
    unfold World.records Service.records
    rw [List.getElem?_map, Option.map_map]
    rfl
  unfold World.rankDevice
  simp only [hid, h]

theorem wp_deviceOf_records (h : Wrote A w₀ w) (comm : Communicator) (rank : UInt32) :
    wp (deviceOf comm rank)
      (fun deviceId w' => Wrote A w₀ w' ∧ w₀.rankDevice comm rank = some deviceId)
      (fun _ w' => Wrote A w₀ w') w := by
  have hsame := rankDevice_of_records h.records comm rank
  rw [← hsame]
  unfold deviceOf World.rankDevice
  rw [wp_bind, wp_get, wp_bind]
  cases hi : comm.rankMapping rank with
  | none => exact h
  | some i =>
    show wp (orPanic w.service.availableDevices[i]? >>= _) _ _ w
    rw [wp_bind]
    cases hd : w.service.availableDevices[i]? with
    | none => exact h
    | some device =>
      refine ⟨h, ?_⟩
      rw [Option.bind_some, hd, Option.map_some]

theorem wp_ringStep_records (h : Wrote A w₀ w) (comm : Communicator) (req : AllReduceRequest)
    (i : Nat) (hA : ∀ deviceId memAddr data, w₀.rankDevice comm (UInt32.ofNat i) = some deviceId →
      req.memAddrs (UInt32.ofNat i) = some memAddr → generateData req.op req.count = some data →
      A deviceId memAddr data.length) :
    wp (ringStep comm req i)
      (fun _ w' => Wrote A w₀ w' ∧ (req.memAddrs (UInt32.ofNat i)).isSome = true)
      (fun _ w' => Wrote A w₀ w') w := by
  unfold ringStep
  dsimp only
  split
  · next srcMemAddr dstMemAddr hsrc hdst =>
    rw [wp_bind]
    apply wp_mono (wp_deviceOf_records h comm _) _ fun _ _ h' => h'
    intro srcDevice w₁ h₁
    have hrest : ∀ streamID, Keeps (Wrote A w₀) (do
        let dstDevice ← deviceOf comm (UInt32.ofNat ((i + 1) % comm.devices.length))
        newClient dstDevice
        beginReceive dstDevice streamID
        let data ← orPanic (generateData req.op req.count)
        streamSend srcDevice streamID srcMemAddr data) := by
      intro streamID
      refine keeps_bind (fun w hw => wp_mono (wp_deviceOf_records hw comm _) (fun _ _ h' => h'.1)
        fun _ _ h' => h') fun dstDevice => ?_
      refine keeps_bind (keeps_newClient dstDevice) fun _ => ?_
      refine keeps_bind (keeps_beginReceive dstDevice streamID) fun _ => ?_
      cases hdata : generateData req.op req.count with
      | none => exact fun _ h => h
      | some data =>
        exact keeps_streamSend srcDevice streamID srcMemAddr (hA _ _ data h₁.2 hsrc hdata)
    have hall := keeps_bind (keeps_newClient srcDevice) (fun _ =>
      keeps_bind (keeps_beginSend srcDevice) hrest) w₁ h₁.1
    exact wp_mono hall (fun _ w' h' => ⟨h', by rw [hsrc]; rfl⟩) fun _ _ h' => h'
  · exact h

theorem length_reduceLoop (f : UInt64 → UInt64 → UInt64) (inputData : Bytes) (n : Nat) :
    ∀ i finalData out, reduceLoop f inputData n i finalData = some out →
      out.length = finalData.length := by
  induction n with
  | zero =>
    intro i finalData out h
    rw [← Option.some.inj h]
  | succ n ih =>
    intro i finalData out h
    obtain ⟨finalVal, _, h⟩ := Option.bind_eq_some_iff.mp h
    obtain ⟨inputVal, _, h⟩ := Option.bind_eq_some_iff.mp h
    obtain ⟨next, hnext, h⟩ := Option.bind_eq_some_iff.mp h
    rw [ih (i + 1) next out h, LittleEndian.length_setWordAt hnext]

theorem length_reduceAll (f : UInt64 → UInt64 → UInt64) (rest : List Bytes) :
    ∀ finalData out, reduceAll f finalData rest = some out → out.length = finalData.length := by
  induction rest with
  | nil =>
    intro finalData out h
    rw [← Option.some.inj h]
  | cons data rest ih =>
    intro finalData out h
    obtain ⟨next, hnext, h⟩ := Option.bind_eq_some_iff.mp h
    rw [ih next out h, length_reduceLoop f data _ 0 finalData next hnext]

theorem length_fillOnes (n : Nat) :
    ∀ i data out, fillOnes n i data = some out → out.length = data.length := by
  induction n with
  | zero =>
    intro i data out h
    rw [← Option.some.inj h]
  | succ n ih =>
    intro i data out h
    obtain ⟨next, hnext, h⟩ := Option.bind_eq_some_iff.mp h
    rw [ih (i + 1) next out h, LittleEndian.length_setWordAt hnext]

theorem length_generateData {op : ReduceOp} {count : UInt64} {data : Bytes}
    (h : generateData op count = some data) : data.length = (count * 8).toNat := by
  unfold generateData at h
  split at h
  · contradiction
  · rw [length_fillOnes _ _ _ _ h, List.length_replicate]

theorem length_copyTo (size : Nat) (data : Bytes) : (copyTo size data).length = size := by
  unfold copyTo
  rw [List.length_append, List.length_take, List.length_replicate]
  omega

theorem toNat_dataSize {count : UInt64} (h : ¬ count.toInt64 * 8 < 0) :
    (count.toInt64 * 8).toInt.toNat = (count * 8).toNat := by
  have hbits : (count.toInt64 * 8).toUInt64 = count * 8 := by
    rw [Int64.toUInt64_mul, UInt64.toUInt64_toInt64]
    rfl
  have hnonneg : 0 ≤ (count.toInt64 * 8).toInt := by
    by_contra hc
    exact h (Int64.lt_iff_toInt_lt.mpr (by simpa using hc))
  rw [← hbits]
  generalize count.toInt64 * 8 = x at hnonneg ⊢
  have hlt := x.toBitVec.isLt
  show x.toBitVec.toInt.toNat = x.toBitVec.toNat
  change 0 ≤ x.toBitVec.toInt at hnonneg
  rw [BitVec.toInt_eq_toNat_cond] at hnonneg ⊢
  split at hnonneg
  · next hsmall =>
    rw [if_pos hsmall]
    rfl
  · omega

theorem keeps_gather (comm : Communicator) (memAddrs : UInt32 → Option UInt64) (dataSize : Int64)
    (ranks : List UInt32) :
    ∀ allData, Keeps (Wrote A w₀) (gather comm memAddrs dataSize ranks allData) := by
  induction ranks with
  | nil => exact fun allData => keeps_pure allData
  | cons rank ranks ih =>
    intro allData
    refine keeps_bind (fun w hw => wp_mono (wp_deviceOf_records hw comm _) (fun _ _ h' => h'.1)
      fun _ _ h' => h') fun deviceId => ?_
    refine keeps_bind (keeps_memcpyDeviceToHost deviceId _ _) fun data => ?_
    split
    · exact keeps_throw _
    · split
      · exact keeps_throw _
      · exact ih _

theorem keeps_writeBack (deviceId memAddr : UInt64) (data : Bytes)
    (hA : A deviceId memAddr data.length) :
    Keeps (Wrote A w₀) (writeBack deviceId memAddr data) := by
  intro w h
  have hcopy : wp (memcpyHostToDevice data deviceId memAddr) (fun _ => Wrote A w₀)
      (fun _ => Wrote A w₀) w :=
    keeps_memcpyHostToDevice data deviceId memAddr (fun _ => hA) w h
  unfold wp writeBack at *
  cases hm : memcpyHostToDevice data deviceId memAddr w with
  | error e w' =>
    rw [hm] at hcopy
    cases e with
    | error err => exact hcopy
    | panicked => exact hcopy
  | ok a w' =>
    rw [hm] at hcopy
    exact hcopy

theorem keeps_performReduction (ops : FloatOps) (comm : Communicator) (count : UInt64)
    (op : ReduceOp) (memAddrs : UInt32 → Option UInt64) (gathering scattering : List UInt32)
    (hA : ∀ rank deviceId, w₀.rankDevice comm rank = some deviceId →
      A deviceId ((memAddrs rank).getD 0) (count * 8).toNat) :
    Keeps (Wrote A w₀) (performReduction ops comm count op memAddrs gathering scattering) := by
  refine keeps_bind (keeps_gather comm memAddrs _ gathering _) fun allData => ?_
  split
  · exact keeps_throw _
  · next hsize =>
    cases allData with
    | nil => exact keeps_throw _
    | cons data rest =>
      dsimp only
      cases hfinal : reduceAll (reduceOp ops op)
          (copyTo (count.toInt64 * 8).toInt.toNat data) rest with
      | none => exact fun _ h => h
      | some finalData =>
        have hlen : finalData.length = (count * 8).toNat := by
          rw [length_reduceAll _ _ _ _ hfinal, length_copyTo, toNat_dataSize hsize]
        intro w h
        apply wp_forM (I := fun _ w' => Wrote A w₀ w') scattering h
        intro done rank rest w₁ _ h₁
        rw [wp_bind]
        apply wp_mono (wp_deviceOf_records h₁ comm rank) _ fun _ _ h' => h'
        intro deviceId w₂ h₂
        apply keeps_writeBack deviceId _ finalData _ w₂ h₂.1
        rw [hlen]
        exact hA rank deviceId h₂.2

end Requests

/-! ## 5. What the coordinator's handlers keep -/

namespace Service

theorem map_modify_same {α β : Type} (f : α → α) (g : α → β) (h : ∀ x, g (f x) = g x)
    (l : List α) (i : Nat) : (l.modify i f).map g = l.map g := by
  apply List.ext_getElem?
  intro j
  rw [List.getElem?_map, List.getElem?_modify, List.getElem?_map]
  cases l[j]? with
  | none => rfl
  | some x =>
    show some (g (if i = j then f x else x)) = some (g x)
    split
    · rw [h]
    · rfl

theorem listed_of_objects {s s' : Service}
    (h : s'.objects.map (fun comm => (comm.devices, comm.rankMapping)) =
      s.objects.map fun comm => (comm.devices, comm.rankMapping)) (hs : s.Listed) : s'.Listed := by
  intro comm hcomm r hr
  have hmem := List.mem_map_of_mem (f := fun comm : Communicator => (comm.devices, comm.rankMapping))
    hcomm
  rw [h] at hmem
  obtain ⟨old, hold, heq⟩ := List.mem_map.mp hmem
  obtain ⟨hdevices, hranks⟩ := Prod.mk.inj heq
  rw [← hdevices]
  rw [← hranks] at hr
  exact hs old hold r hr

theorem maintains_setStatus (s : Service) (p : Nat) (status : Status) :
    Maintains s (s.setStatus p status) := by
  refine ⟨rfl, listed_of_objects ?_⟩
  apply map_modify_same
  exact fun _ => rfl

theorem records_release (picks : List Nat) :
    ∀ devices : List Device, (picks.foldl releaseDevice devices).map (fun d => d.metadata) =
      devices.map fun d => d.metadata := by
  induction picks with
  | nil => exact fun _ => rfl
  | cons i picks ih =>
    intro devices
    rw [List.foldl_cons, ih]
    apply map_modify_same
    exact fun _ => rfl

theorem maintains_remove (s : Service) (commId : UInt64) (p : Nat) (comm : Communicator)
    (status : Status) : Maintains s (s.remove commId p comm status) :=
  ⟨records_release comm.devices _, (maintains_setStatus s p status).listed⟩

theorem maintains_markCommunicatorFailed (s : Service) (commId : UInt64) :
    Maintains s (s.markCommunicatorFailed commId) := by
  unfold markCommunicatorFailed
  split
  · exact Maintains.refl s
  · next p comm _ =>
    have hremove := maintains_remove s commId p comm .failed
    exact ⟨hremove.records, hremove.listed⟩

theorem maintains_commFinalize (s : Service) (commId : UInt64) :
    Maintains s (s.commFinalize commId).1 := by
  unfold commFinalize
  split
  · exact Maintains.refl s
  · exact maintains_remove s commId _ _ _

theorem maintains_commDestroy (s : Service) (commId : UInt64) :
    Maintains s (s.commDestroy commId).1 := by
  unfold commDestroy
  split
  · exact Maintains.refl s
  · next p comm _ =>
    have hremove := maintains_remove s commId p comm .failed
    exact ⟨hremove.records, hremove.listed⟩

theorem maintains_group (s : Service) (commId : UInt64) (status : Status) :
    Maintains s (s.group commId status).1 := by
  unfold group
  split
  · exact Maintains.refl s
  · exact ⟨rfl, id⟩

theorem maintains_finishAllReduce (s : Service) (commId : UInt64) (p : Nat) :
    Maintains s (s.finishAllReduce commId p) :=
  ⟨rfl, (maintains_setStatus s p .success).listed⟩

theorem Selected.records {comm : UInt64} {ds ds' : List Device} {picks : List Nat}
    (h : Selected comm ds 0 picks ds') :
    ds'.map (fun d => d.metadata) = ds.map fun d => d.metadata := by
  apply List.ext_getElem?
  intro j
  rw [List.getElem?_map, List.getElem?_map]
  by_cases hj : j ∈ picks
  · obtain ⟨d, hd, _, hd'⟩ := h.taken j (by rwa [Nat.zero_add])
    rw [hd, hd']
    rfl
  · rw [h.kept j (by rwa [Nat.zero_add])]

theorem fillRanks_room (devices : List Device) (picks : List Nat) :
    ∀ i metadata ranks r, i ≤ metadata.length → fillRanks devices picks i metadata ranks = some r →
      i + picks.length ≤ metadata.length := by
  induction picks with
  | nil => exact fun i metadata ranks r hi _ => hi
  | cons p picks ih =>
    intro i metadata ranks r hi h
    unfold fillRanks at h
    split at h
    · next hlt =>
      have hrest := ih (i + 1) _ _ r (by rw [List.length_set]; omega) h
      rw [List.length_set] at hrest
      rw [List.length_cons]
      omega
    · contradiction

theorem maintains_commInit (s : Service) (n : UInt32) : Maintains s (s.commInit n).1 := by
  obtain ⟨picks, hpicks, hselected⟩ := selectDevices_selected s.nextCommID n s.availableDevices 0 []
  rw [List.nil_append] at hpicks
  have hrecords := Selected.records hselected
  unfold commInit
  split
  · exact Maintains.refl s
  · dsimp only
    rw [hpicks]
    split
    · exact ⟨hrecords, id⟩
    · next metadata ranks hfill =>
      refine ⟨hrecords, fun h comm hcomm r hr => ?_⟩
      rcases List.mem_append.mp hcomm with hold | hnew
      · exact h comm hold r hr
      · -- the ranks of the new communicator are the positions of its devices
        rw [List.mem_singleton.mp hnew] at hr ⊢
        have hn := n.toNat_lt
        have hroom := fillRanks_room _ _ _ _ _ _ (Nat.zero_le _) hfill
        obtain ⟨_, ranks', hfill', _, hranks, _⟩ := fillRanks_spec
          (selectDevices s.nextCommID n s.availableDevices 0 []).1 picks 0
          (List.replicate n.toNat none) (fun _ => none) hroom
          (by rw [List.length_replicate]; exact hn)
        obtain ⟨_, rfl⟩ := Prod.mk.inj (Option.some.inj (hfill.symm.trans hfill'))
        have hr : (ranks r).isSome := hr
        rw [hranks r] at hr
        split at hr
        · next hlt =>
          show r.toNat < picks.length
          omega
        · contradiction

end Service

/-! ## 6. The whole reduction -/

def World.Misplaced (w : World) (req : AllReduceRequest) : Prop :=
  ∃ p comm, w.service.lookup req.commId = some (p, comm) ∧ comm.status = .inProgress ∧
    ∃ i < comm.devices.length, ∃ deviceId memAddr,
      w.rankDevice comm (UInt32.ofNat i) = some deviceId ∧
      req.memAddrs (UInt32.ofNat i) = some memAddr ∧
      ¬ Allowed w.records deviceId memAddr (req.count * 8).toNat

theorem keeps_orFail {A : UInt64 → UInt64 → Nat → Prop} {w₀ : World} {m : Handler PUnit}
    (commId : UInt64) (h : Keeps (Wrote A w₀) m) : Keeps (Wrote A w₀) (orFail commId m) := by
  intro w hw
  have hm := h w hw
  unfold wp orFail at *
  cases hr : m w with
  | ok a w' =>
    rw [hr] at hm
    exact hm
  | error e w' =>
    rw [hr] at hm
    cases e with
    | error err => exact hm.service (Service.maintains_markCommunicatorFailed _ commId)
    | panicked => exact hm

theorem keeps_phases (ops : FloatOps) {w₀ : World} {comm : Communicator}
    (hlisted : ∀ r, (comm.rankMapping r).isSome = true → r.toNat < comm.devices.length)
    (req : AllReduceRequest) (gathering scattering : List UInt32)
    (hplaced : ∀ i < comm.devices.length, ∀ deviceId memAddr,
      w₀.rankDevice comm (UInt32.ofNat i) = some deviceId →
      req.memAddrs (UInt32.ofNat i) = some memAddr →
      Allowed w₀.records deviceId memAddr (req.count * 8).toNat) :
    Keeps (Wrote (Allowed w₀.records) w₀) (do
      forUp (ringStep comm req) 0 comm.devices.length
      performReduction ops comm req.count req.op req.memAddrs gathering scattering) := by
  intro w h
  -- a ring that went round has found an address for every rank
  have hring : wp (forUp (ringStep comm req) 0 comm.devices.length)
      (fun _ w' => Wrote (Allowed w₀.records) w₀ w' ∧
        ∀ k < 0 + comm.devices.length, (req.memAddrs (UInt32.ofNat k)).isSome = true)
      (fun _ w' => Wrote (Allowed w₀.records) w₀ w') w := by
    apply wp_forUp (I := fun i w' => Wrote (Allowed w₀.records) w₀ w' ∧
      ∀ k < i, (req.memAddrs (UInt32.ofNat k)).isSome = true) _ 0 ⟨h, by omega⟩
    intro i w₁ _ hi h₁
    apply wp_mono (wp_ringStep_records h₁.1 comm req i _) _ fun _ _ h' => h'
    · intro deviceId memAddr data hdevice haddr hdata
      rw [length_generateData hdata]
      exact hplaced i (by omega) deviceId memAddr hdevice haddr
    · intro _ w₂ h₂
      refine ⟨h₂.1, fun k hk => ?_⟩
      by_cases hki : k = i
      · rw [hki]
        exact h₂.2
      · exact h₁.2 k (by omega)
  rw [wp_bind]
  apply wp_mono hring _ fun _ _ h' => h'
  intro _ w₁ h₁
  apply keeps_performReduction ops comm req.count req.op req.memAddrs gathering scattering _ w₁ h₁.1
  intro rank deviceId hdevice
  have hrank : rank.toNat < comm.devices.length := by
    apply hlisted
    obtain ⟨i, hi, _⟩ := Option.bind_eq_some_iff.mp hdevice
    rw [hi]
    rfl
  have haddr := h₁.2 rank.toNat (by omega)
  rw [UInt32.ofNat_toNat] at haddr
  obtain ⟨memAddr, hmemAddr⟩ := Option.isSome_iff_exists.mp haddr
  rw [hmemAddr]
  apply hplaced rank.toNat hrank deviceId memAddr
  · rw [UInt32.ofNat_toNat]
    exact hdevice
  · rw [UInt32.ofNat_toNat]
    exact hmemAddr

variable {w : World} {deviceId : UInt64}

theorem wrote_allReduceRing (ops : FloatOps) (hlisted : w.service.Listed) (req : AllReduceRequest)
    (gathering scattering : List UInt32) (hplaced : ¬ w.Misplaced req) :
    wp (allReduceRing ops req gathering scattering)
      (fun _ w' => Wrote (Allowed w.records) w w') (fun _ w' => Wrote (Allowed w.records) w w') w := by
  unfold allReduceRing
  rw [wp_bind, wp_get]
  cases hlookup : w.service.lookup req.commId with
  | none =>
    unfold Service.beginAllReduce
    rw [hlookup]
    exact Wrote.refl w
  | some found =>
    obtain ⟨p, comm⟩ := found
    by_cases hstatus : comm.status = .inProgress
    · obtain ⟨hbegin, hobject⟩ := Service.beginAllReduce_eq hlookup hstatus
      have hphases := keeps_orFail req.commId (keeps_phases ops
        (hlisted comm (List.mem_of_getElem? hobject)) req gathering scattering
        fun i hi deviceId memAddr hdevice haddr => by
          by_contra hbad
          exact hplaced ⟨p, comm, hlookup, hstatus, i, hi, deviceId, memAddr, hdevice, haddr, hbad⟩)
      rw [hbegin]
      rw [wp_bind, wp_set, wp_bind, hobject]
      show wp (orFail req.commId _ >>= _) _ _ _
      rw [wp_bind]
      apply wp_mono (hphases w (Wrote.refl w)) _ fun _ _ h' => h'
      intro _ w₁ h₁
      rw [wp_modify]
      exact h₁.service (Service.maintains_finishAllReduce _ _ _)
    · unfold Service.beginAllReduce
      rw [hlookup]
      dsimp only
      rw [if_pos hstatus]
      exact Wrote.refl w

/-! ## 7. Runs of the coordinator -/

inductive Request where
  | commInit (numDevices : UInt32)
  | commFinalize (commId : UInt64)
  | commDestroy (commId : UInt64)
  | groupStart (commId : UInt64)
  | groupEnd (commId : UInt64)
  | memcpyHostToDevice (data : Bytes) (deviceId memAddr : UInt64)
  | memcpyDeviceToHost (deviceId memAddr numBytes : UInt64)
  | allReduceRing (req : AllReduceRequest) (gathering scattering : List UInt32)

def onService {α : Type} (handler : Service → Service × Outcome α) : Handler PUnit := fun w =>
  match handler w.service with
  | (s, .returned _ none) => .ok ⟨⟩ { w with service := s }
  | (s, .returned _ (some err)) => .error (.error (.coordinator err)) { w with service := s }
  | (s, .panicked) => .error .panicked { w with service := s }

def serve (ops : FloatOps) : Request → Handler PUnit
  | .commInit numDevices => onService fun s => s.commInit numDevices
  | .commFinalize commId => onService fun s => s.commFinalize commId
  | .commDestroy commId => onService fun s => s.commDestroy commId
  | .groupStart commId => onService fun s => s.groupStart commId
  | .groupEnd commId => onService fun s => s.groupEnd commId
  | .memcpyHostToDevice data deviceId memAddr => memcpyHostToDevice data deviceId memAddr
  | .memcpyDeviceToHost deviceId memAddr numBytes => do
    let _ ← memcpyDeviceToHost deviceId memAddr numBytes
    pure ⟨⟩
  | .allReduceRing req gathering scattering => allReduceRing ops req gathering scattering

namespace World

structure Started (initialDevices : List DeviceMetadata) (w : World) : Prop where
  service : w.service = newGPUCoordinatorService initialDevices
  empty : ∀ deviceId memAddr, w.held deviceId memAddr = none

def Serves (ops : FloatOps) (w : World) (a : Request) (w' : World) : Prop :=
  serve ops a w = .ok ⟨⟩ w' ∨ ∃ err, serve ops a w = .error (.error err) w'

/-- The request would leave a buffer outside of the recorded range, or names an unknown device. -/
def Improper (w : World) : Request → Prop
  | .memcpyHostToDevice data deviceId memAddr => ¬ Allowed w.records deviceId memAddr data.length
  | .memcpyDeviceToHost deviceId _ _ => ¬ Known w.records deviceId
  | .allReduceRing req _ _ => w.Misplaced req
  | _ => False

/-- What the code leaves to its callers: a copy that starts in the range of a known device ends there,
an unknown device does not listen, and a reduction is given addresses with room for its data. -/
def Checked (w : World) : Request → Prop
  | .memcpyHostToDevice data deviceId memAddr =>
    Allowed w.records deviceId memAddr data.length ∨ Rejected w.records deviceId memAddr ∨
      w.devices deviceId = none
  | .allReduceRing req _ _ => ¬ w.Misplaced req
  | _ => True

def Refuses (m : Handler PUnit) (w : World) : Prop :=
  ∃ err w', m w = .error (.error err) w' ∧
    ∀ deviceId memAddr, w'.held deviceId memAddr = w.held deviceId memAddr

theorem refuses_of_wp {m : Handler PUnit}
    (h : wp m (fun _ _ => False) (fun e w' => (∃ err, e = .error err) ∧
      ∀ deviceId memAddr, w'.held deviceId memAddr = w.held deviceId memAddr) w) :
    Refuses m w := by
  unfold wp at h
  cases hm : m w with
  | ok a w' =>
    rw [hm] at h
    exact h.elim
  | error e w' =>
    rw [hm] at h
    obtain ⟨⟨err, rfl⟩, hheld⟩ := h
    exact ⟨err, w', hm, hheld⟩

end World

theorem wp_newClient_bind {α : Type} {m : PUnit → Handler α} {Q : α → World → Prop}
    {R : Failure → World → Prop}
    (hfailed : ∀ err, R (.error err) { w with requests := w.requests + 1 })
    (h : wp (m ⟨⟩) Q R { w with requests := w.requests + 1 }) :
    wp (newClient deviceId >>= m) Q R w := by
  unfold newClient
  rw [wp_bind, wp_bind, wp_nextFault]
  split
  · exact h
  · exact hfailed _

theorem wp_memcpyHostToDevice_unheard (h : w.devices deviceId = none) (data : Bytes)
    (memAddr : UInt64) :
    wp (memcpyHostToDevice data deviceId memAddr) (fun _ _ => False) (fun e w' =>
      (∃ err, e = .error err) ∧ ∃ n, w' = { w with requests := n }) w := by
  unfold memcpyHostToDevice
  rw [wp_bind, wp_get]
  split
  · exact ⟨⟨_, rfl⟩, w.requests, rfl⟩
  · apply wp_newClient_bind
    · exact fun err => ⟨⟨err, rfl⟩, _, rfl⟩
    · unfold beginSend call
      rw [wp_bind, wp_bind, wp_nextFault, wp_bind, wp_get]
      rw [h]
      exact ⟨⟨_, rfl⟩, _, rfl⟩

theorem refuses_unheard (h : w.devices deviceId = none) (data : Bytes) (memAddr : UInt64) :
    Refuses (memcpyHostToDevice data deviceId memAddr) w := by
  apply refuses_of_wp
  apply wp_mono (wp_memcpyHostToDevice_unheard h data memAddr) fun _ _ h => h
  intro e w' ⟨herr, n, hw'⟩
  rw [hw']
  exact ⟨herr, fun _ _ => rfl⟩

theorem refuses_rejected {memAddr : UInt64} (h : Rejected w.records deviceId memAddr) (data : Bytes) :
    Refuses (memcpyHostToDevice data deviceId memAddr) w := by
  apply refuses_of_wp
  unfold memcpyHostToDevice
  rw [wp_bind, wp_get, if_pos (any_rejected.mpr h)]
  exact ⟨⟨_, rfl⟩, fun _ _ => rfl⟩

theorem refuses_missing {memAddr : UInt64} (h : w.held deviceId memAddr = none) (numBytes : UInt64) :
    Refuses (do
      let _ ← memcpyDeviceToHost deviceId memAddr numBytes
      pure ⟨⟩) w := by
  apply refuses_of_wp
  rw [wp_bind]
  apply wp_mono (Q := fun _ _ => False) _ (fun _ _ h => h.elim) fun _ _ h => h
  apply wp_newClient_bind fun err => ⟨⟨err, rfl⟩, fun _ _ => rfl⟩
  unfold streamReceive call
  rw [wp_bind, wp_get]
  rw [wp_bind, wp_set, wp_bind, wp_nextFault, wp_bind, wp_get]
  dsimp only
  cases hd : w.devices deviceId with
  | none => exact ⟨⟨_, rfl⟩, fun _ _ => rfl⟩
  | some d =>
    have hmem : d.memory memAddr = none := by
      unfold World.held at h
      rwa [hd, Option.bind_some] at h
    have hreceive : ∀ streamID sent,
        d.streamReceive streamID memAddr numBytes sent = (d, .error (.addressNotFound memAddr)) := by
      intro streamID sent
      unfold GPUDevice.streamReceive
      rw [hmem]
    dsimp only
    split
    · exact ⟨⟨_, rfl⟩, fun _ _ => rfl⟩
    · rw [wp_bind, wp_set]
      simp only [hreceive]
      have hkept := (Kept.update d hd rfl (w.requests + 1)).held
      split
      · exact ⟨⟨_, rfl⟩, hkept⟩
      · exact ⟨⟨_, rfl⟩, hkept⟩

theorem wrote_onService {α : Type} {handler : Service → Service × Outcome α}
    {A : UInt64 → UInt64 → Nat → Prop} (h : ∀ s, Service.Maintains s (handler s).1) :
    wp (onService handler) (fun _ w' => Wrote A w w') (fun _ w' => Wrote A w w') w := by
  have hwrote := (Wrote.refl (A := A) w).service (h w.service)
  unfold wp onService
  generalize handler w.service = r at hwrote
  obtain ⟨s, out⟩ := r
  cases out with
  | panicked => exact hwrote
  | returned response err =>
    cases err with
    | none => exact hwrote
    | some err => exact hwrote

theorem wrote_serve (ops : FloatOps) (hlisted : w.service.Listed) {a : Request}
    (hchecked : w.Checked a) :
    wp (serve ops a) (fun _ w' => Wrote (Allowed w.records) w w')
      (fun _ w' => Wrote (Allowed w.records) w w') w := by
  cases a with
  | commInit numDevices => exact wrote_onService fun s => s.maintains_commInit _
  | commFinalize commId => exact wrote_onService fun s => s.maintains_commFinalize _
  | commDestroy commId => exact wrote_onService fun s => s.maintains_commDestroy _
  | groupStart commId => exact wrote_onService fun s => s.maintains_group _ _
  | groupEnd commId => exact wrote_onService fun s => s.maintains_group _ _
  | memcpyHostToDevice data deviceId memAddr =>
    rcases hchecked with hallowed | hrejected | hunheard
    · exact keeps_memcpyHostToDevice data deviceId memAddr (fun _ => hallowed) w (Wrote.refl w)
    · exact keeps_memcpyHostToDevice data deviceId memAddr (fun h => absurd hrejected h) w
        (Wrote.refl w)
    · apply wp_mono (wp_memcpyHostToDevice_unheard hunheard data memAddr) fun _ _ h => h.elim
      intro _ w' ⟨_, n, hw'⟩
      rw [hw']
      exact (Wrote.refl w).asked n
  | memcpyDeviceToHost deviceId memAddr numBytes =>
    exact keeps_bind (keeps_memcpyDeviceToHost deviceId memAddr numBytes) (fun _ => keeps_pure _) w
      (Wrote.refl w)
  | allReduceRing req gathering scattering =>
    exact wrote_allReduceRing ops hlisted req gathering scattering hchecked

theorem refuses_improper (ops : FloatOps) (hrange : w.InRange) {a : Request}
    (hchecked : w.Checked a) (himproper : w.Improper a) : Refuses (serve ops a) w := by
  cases a with
  | commInit => exact himproper.elim
  | commFinalize => exact himproper.elim
  | commDestroy => exact himproper.elim
  | groupStart => exact himproper.elim
  | groupEnd => exact himproper.elim
  | memcpyHostToDevice data deviceId memAddr =>
    rcases hchecked with hallowed | hrejected | hunheard
    · exact absurd hallowed himproper
    · exact refuses_rejected hrejected data
    · exact refuses_unheard hunheard data memAddr
  | memcpyDeviceToHost deviceId memAddr numBytes =>
    -- a device without a record holds nothing
    apply refuses_missing
    cases hheld : w.held deviceId memAddr with
    | none => rfl
    | some data => exact absurd (hrange deviceId memAddr data hheld).1 himproper
  | allReduceRing req gathering scattering => exact absurd himproper hchecked

theorem listed_newGPUCoordinatorService (initialDevices : List DeviceMetadata) :
    (newGPUCoordinatorService initialDevices).Listed :=
  fun _ hcomm => absurd hcomm List.not_mem_nil

theorem inRange_run (ops : FloatOps) {initialDevices : List DeviceMetadata}
    {past : List (World × Request)} (hrun : Run (Started initialDevices) (Serves ops) past w)
    (hpast : ∀ x ∈ past, x.1.Checked x.2) : w.InRange ∧ w.service.Listed := by
  apply hrun.invariant_of (I := fun w => w.InRange ∧ w.service.Listed) (C := Checked) _ _ hpast
  · intro w hw
    refine ⟨fun deviceId memAddr data hheld => ?_, ?_⟩
    · rw [hw.empty] at hheld
      contradiction
    · rw [hw.service]
      exact listed_newGPUCoordinatorService initialDevices
  · intro w a w' ⟨hrange, hlisted⟩ hchecked hserves
    have hwrote := wrote_serve ops hlisted hchecked
    have hend : Wrote (Allowed w.records) w w' := by
      unfold wp at hwrote
      rcases hserves with hok | ⟨err, herr⟩
      · rwa [hok] at hwrote
      · rwa [herr] at hwrote
    exact ⟨hend.inRange hrange, hend.maintains.listed hlisted⟩

/-- In a run whose requests are checked every buffer lies in the range that the coordinator has
recorded for its device; the next checked request, however it ends, keeps this, and is refused if it
is improper. -/
theorem device_memory_range (ops : FloatOps) {initialDevices : List DeviceMetadata}
    {past : List (World × Request)} {w : World}
    (hrun : Run (Started initialDevices) (Serves ops) past w)
    (hpast : ∀ x ∈ past, x.1.Checked x.2) :
    w.InRange ∧ ∀ a, w.Checked a →
      wp (serve ops a) (fun _ w' => w'.InRange) (fun _ w' => w'.InRange) w ∧
        (w.Improper a → Refuses (serve ops a) w) := by
  obtain ⟨hrange, hlisted⟩ := inRange_run ops hrun hpast
  refine ⟨hrange, fun a hchecked => ⟨?_, refuses_improper ops hrange hchecked⟩⟩
  exact wp_mono (wrote_serve ops hlisted hchecked) (fun _ _ h => h.inRange hrange)
    fun _ _ h => h.inRange hrange

def threeListening : World where
  service := newGPUCoordinatorService twoDevices
  devices := fun id => if 1 ≤ id ∧ id ≤ 3 then some (newGPUDeviceService id 0) else none
  faults := fun _ => .none
  requests := 0

theorem threeListening_started : Started twoDevices threeListening := by
  refine ⟨rfl, fun deviceId memAddr => ?_⟩
  unfold World.held threeListening
  dsimp only
  split
  · rfl
  · rfl

/-- After a copy in range, a copy below the range is refused. -/
theorem device_memory_range_copied :
    ∃ w, serve patternOps (.memcpyHostToDevice [1, 2] 1 0x1000) threeListening = .ok ⟨⟩ w ∧
      w.InRange ∧ Refuses (serve patternOps (.memcpyHostToDevice [3] 1 0)) w := by
  refine ⟨_, successOf_eq_some (Option.some_get (by decide +kernel)).symm, ?_⟩
  have hrange := device_memory_range patternOps
    (.next (a := .memcpyHostToDevice [1, 2] 1 0x1000) (.start threeListening_started)
      (Or.inl (successOf_eq_some (Option.some_get (by decide +kernel)).symm)))
    (by
      intro x hx
      rw [List.mem_singleton.mp hx]
      exact Or.inl (by decide))
  exact ⟨hrange.1, (hrange.2 (.memcpyHostToDevice [3] 1 0)
    (Or.inr (Or.inl (by decide +kernel)))).2 (by unfold Improper; decide +kernel)⟩

def failureOf (m : Handler PUnit) (w : World) : Option (ReduceError × World) :=
  match m w with
  | .error (.error err) w' => some (err, w')
  | _ => none

theorem failureOf_eq_some {m : Handler PUnit} {r : ReduceError × World} (h : failureOf m w = some r) :
    m w = .error (.error r.1) r.2 := by
  unfold failureOf at h
  split at h
  · next heq => rw [heq, ← Option.some.inj h]
  · exact absurd h.symm (Option.some_ne_none _)

def lowAddress : AllReduceRequest where
  commId := 1
  count := 1
  op := .sum
  memAddrs := fun rank => if rank = 0 then some 0 else some 0x2000

/-- A copy that starts at the last address ends outside of the range, a device without a record is
written to, and a reduction fails after it has stored ones below the range. -/
theorem memory_range_exceeded :
    Started twoDevices threeListening ∧
      (∃ w, serve patternOps (.memcpyHostToDevice [1, 2] 1 0x1FFFFF) threeListening = .ok ⟨⟩ w ∧
        w.held 1 0x1FFFFF = some [1, 2] ∧ ¬ Allowed w.records 1 0x1FFFFF 2) ∧
      (∃ w, serve patternOps (.memcpyHostToDevice [1] 3 0x1000) threeListening = .ok ⟨⟩ w ∧
        w.held 3 0x1000 = some [1] ∧ ¬ Known w.records 3) ∧
      ∃ w, serve patternOps (.commInit 2) threeListening = .ok ⟨⟩ w ∧
        ∃ r, serve patternOps (.allReduceRing lowAddress [0, 1] [0, 1]) w =
            .error (.error (Prod.fst r)) r.2 ∧
          r.2.held 1 0 = some (LittleEndian.put one) ∧ ¬ Allowed r.2.records 1 0 8 := by
  refine ⟨threeListening_started, ⟨_, successOf_eq_some (Option.some_get (by decide +kernel)).symm,
    by decide +kernel, by decide +kernel⟩, ⟨_,
    successOf_eq_some (Option.some_get (by decide +kernel)).symm, by decide +kernel,
    by decide +kernel⟩, _, successOf_eq_some (Option.some_get (by decide +kernel)).symm, _,
    failureOf_eq_some (Option.some_get (by decide +kernel)).symm, by decide +kernel,
    by decide +kernel⟩

end Dsml
