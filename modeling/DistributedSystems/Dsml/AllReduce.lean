import DistributedSystems.Library.Fallible
import DistributedSystems.Dsml.Device

/-!
# `AllReduceRing`

The coordinator's side of a reduction: requests to the devices, which may fail in every way a network
allows, the ring phase, and the phase that gathers the buffers of all devices, reduces them and writes
the result back.  The arithmetic on `float64` values is a parameter, on their 64-bit patterns.
-/

namespace Dsml

open LittleEndian Fallible

/-! ## 1. Requests to devices -/

/-- What happens to a request: nothing, or it does not reach the device, or its answer is lost, or
the connection breaks after some messages. -/
inductive Fault where
  | none
  | lost
  | unanswered
  | broken (messages : Nat)
  deriving DecidableEq, Repr

structure World where
  service : Service
  devices : UInt64 → Option GPUDevice
  faults : Nat → Fault
  requests : Nat

inductive ReduceError where
  | coordinator (err : CoordinatorError)
  | missingMemAddr (srcRank dstRank : UInt32)
  | noConnection (deviceId : UInt64)
  | rpc (deviceId : UInt64)
  | stream (err : StreamError)
  | invalidAddress (memAddr deviceId : UInt64)
  | insufficientData (deviceId : UInt64)
  | hostToDeviceFailed (deviceId : UInt64) (err : ReduceError)

def ReduceError.text : ReduceError → String
  | .coordinator err => err.text
  | .missingMemAddr srcRank dstRank => s!"missing MemAddr for rank {srcRank} or {dstRank}"
  | .noConnection deviceId => s!"failed to connect to localhost:{deviceId + 50050}"
  | .rpc _ => "RPC failed"
  | .stream err => err.text
  | .invalidAddress memAddr deviceId =>
    "Memcpy: Invalid memory address 0x" ++ hex memAddr ++ s!" for device {deviceId}"
  | .insufficientData deviceId =>
    s!"performReduction: insufficient data retrieved from DeviceId {deviceId}"
  | .hostToDeviceFailed deviceId err =>
    s!"performReduction: HostToDevice Memcpy failed for DeviceId {deviceId}: " ++ err.text

inductive Failure where
  | error (err : ReduceError)
  | panicked

abbrev Handler := EStateM Failure World

def nextFault : Handler Fault := do
  let w ← get
  set { w with requests := w.requests + 1 }
  pure (w.faults w.requests)

def newClient (deviceId : UInt64) : Handler PUnit := do
  let fault ← nextFault
  if fault = .none then pure ⟨⟩ else throw (.error (.noConnection deviceId))

/-- A request to the device; a handler that leaves no device has panicked. -/
def call {α : Type} (deviceId : UInt64)
    (handler : Fault → GPUDevice → Option GPUDevice × Except ReduceError α) : Handler α := do
  let fault ← nextFault
  let w ← get
  match w.devices deviceId with
  | none => throw (.error (.rpc deviceId))
  | some d =>
    if fault = .lost then
      throw (.error (.rpc deviceId))
    else
      set { w with devices := Function.update w.devices deviceId (handler fault d).1 }
      if fault = .none then
        match (handler fault d).2 with
        | .ok a => pure a
        | .error err => throw (.error err)
      else
        throw (.error (.rpc deviceId))

def beginSend (deviceId : UInt64) : Handler UInt64 :=
  call deviceId fun _ d => (some d.beginSend.1, .ok d.beginSend.2)

def beginReceive (deviceId streamID : UInt64) : Handler PUnit :=
  call deviceId fun _ d => (some (d.beginReceive streamID), .ok ⟨⟩)

namespace GPUDevice

/-- The iterations of `StreamSend` over the items that arrive; it waits when there are no more. -/
def streamSendLoop (d : GPUDevice) (streamID memAddr : UInt64) :
    List Recv → GPUDevice × Option SendEnd
  | [] => (d, none)
  | item :: items =>
    match d.streamSendNext streamID memAddr item with
    | (d, some how) => (d, some how)
    | (d, none) => d.streamSendLoop streamID memAddr items

def streamSend (d : GPUDevice) : List Recv → GPUDevice × Option SendEnd
  | [] => (d, none)
  | item :: items =>
    match d.streamSendFirst item with
    | (d, .error how) => (d, some how)
    | (d, .ok (streamID, memAddr)) => d.streamSendLoop streamID memAddr items

end GPUDevice

/-- What the client sends: the ids, the data if there is any, and the end of the stream. -/
def clientItems (streamID memAddr : UInt64) (data : Bytes) : List Recv :=
  .chunk (initialChunk streamID memAddr) ::
    ((if 0 < data.length then [.chunk data] else []) ++ [.eof])

def streamSend (deviceId streamID memAddr : UInt64) (data : Bytes) : Handler PUnit :=
  call deviceId fun fault d =>
    let items := clientItems streamID memAddr data
    let items := match fault with
      | .broken messages => items.take messages ++ [.failure]
      | _ => items
    match d.streamSend items with
    | (d, some .success) => (some d, .ok ⟨⟩)
    | (d, some (.failed err)) => (some d, .error (.stream err))
    | (_, some .panicked) => (none, .error (.rpc deviceId))
    | (d, none) => (some d, .error (.rpc deviceId))

def streamReceive (deviceId streamID memAddr numBytes : UInt64) : Handler Bytes :=
  call deviceId fun fault d =>
    let sent := match fault with
      | .broken _ => false
      | _ => true
    match d.streamReceive streamID memAddr numBytes sent with
    | (d, .ok data) => (some d, .ok data)
    | (d, .error err) => (some d, .error (.stream err))

/-! ## 2. `Memcpy` -/

/-- The range check looks at the start of the buffer only, and passes for an unknown device. -/
def memcpyHostToDevice (data : Bytes) (dstDeviceId dstMemAddr : UInt64) : Handler PUnit := do
  let w ← get
  if w.service.availableDevices.any fun device => device.metadata.deviceId = dstDeviceId ∧
      (dstMemAddr < device.metadata.minMemAddr ∨ device.metadata.maxMemAddr < dstMemAddr) then
    throw (.error (.invalidAddress dstMemAddr dstDeviceId))
  else
    newClient dstDeviceId
    let streamID ← beginSend dstDeviceId
    streamSend dstDeviceId streamID dstMemAddr data

def memcpyDeviceToHost (srcDeviceId srcMemAddr numBytes : UInt64) : Handler Bytes := do
  newClient srcDeviceId
  let w ← get
  let streamID := w.service.streamIDCounter + 1
  set { w with service := { w.service with streamIDCounter := streamID } }
  streamReceive srcDeviceId streamID srcMemAddr numBytes

/-! ## 3. The reduction -/

structure FloatOps where
  add : UInt64 → UInt64 → UInt64
  mul : UInt64 → UInt64 → UInt64
  lt : UInt64 → UInt64 → Bool

inductive ReduceOp where
  | sum
  | prod
  | min
  | max
  | other (value : Int32)
  deriving DecidableEq, Repr

/-- The element that replaces `finalVal`; an unknown operation is a sum. -/
def reduceOp (ops : FloatOps) : ReduceOp → UInt64 → UInt64 → UInt64
  | .sum, finalVal, inputVal => ops.add finalVal inputVal
  | .prod, finalVal, inputVal => ops.mul finalVal inputVal
  | .min, finalVal, inputVal => if ops.lt inputVal finalVal then inputVal else finalVal
  | .max, finalVal, inputVal => if ops.lt finalVal inputVal then inputVal else finalVal
  | .other _, finalVal, inputVal => ops.add finalVal inputVal

/-- The loop of `reduceArrays`; an index outside of an array is a panic. -/
def reduceLoop (f : UInt64 → UInt64 → UInt64) (inputData : Bytes) :
    Nat → Nat → Bytes → Option Bytes
  | 0, _, finalData => some finalData
  | n + 1, i, finalData => do
    let finalVal ← wordAt finalData i
    let inputVal ← wordAt inputData i
    let finalData ← setWordAt finalData i (f finalVal inputVal)
    reduceLoop f inputData n (i + 1) finalData

def reduceArrays (f : UInt64 → UInt64 → UInt64) (finalData inputData : Bytes) : Option Bytes :=
  reduceLoop f inputData (finalData.length / 8) 0 finalData

def one : UInt64 := 0x3FF0000000000000

def fillOnes : Nat → Nat → Bytes → Option Bytes
  | 0, _, data => some data
  | n + 1, i, data => do
    let data ← setWordAt data i one
    fillOnes n (i + 1) data

/-- `count * 8` is taken modulo `2^64`, and `make` panics on what is no `int`. -/
def generateData (_op : ReduceOp) (count : UInt64) : Option Bytes :=
  if 2 ^ 63 ≤ (count * 8).toNat then
    none
  else
    fillOnes (if count.toNat < 2 ^ 63 then count.toNat else 0) 0
      (List.replicate (count * 8).toNat 0)

def orPanic {α : Type} : Option α → Handler α
  | some a => pure a
  | none => throw .panicked

def deviceOf (comm : Communicator) (rank : UInt32) : Handler UInt64 := do
  let w ← get
  let i ← orPanic (comm.rankMapping rank)
  let device ← orPanic w.service.availableDevices[i]?
  pure device.metadata.deviceId

/-- The loop that collects the buffers, over the ranks in the order of the map's iteration. -/
def gather (comm : Communicator) (memAddrs : UInt32 → Option UInt64) (dataSize : Int64) :
    List UInt32 → List Bytes → Handler (List Bytes)
  | [], allData => pure allData
  | rank :: ranks, allData => do
    let deviceId ← deviceOf comm rank
    let data ← memcpyDeviceToHost deviceId ((memAddrs rank).getD 0) dataSize.toUInt64
    if allData.length ≤ rank.toNat then
      throw .panicked
    else if (data.length : Int) < dataSize.toInt then
      throw (.error (.insufficientData deviceId))
    else
      gather comm memAddrs dataSize ranks (allData.set rank.toNat data)

/-- `copy(finalData, data)` into a zeroed slice of this size. -/
def copyTo (size : Nat) (data : Bytes) : Bytes :=
  data.take size ++ List.replicate (size - data.length) 0

def reduceAll (f : UInt64 → UInt64 → UInt64) (finalData : Bytes) : List Bytes → Option Bytes
  | [] => some finalData
  | data :: rest => do
    let finalData ← reduceArrays f finalData data
    reduceAll f finalData rest

def writeBack (deviceId memAddr : UInt64) (data : Bytes) : Handler PUnit := fun w =>
  match memcpyHostToDevice data deviceId memAddr w with
  | .error (.error err) w' => .error (.error (.hostToDeviceFailed deviceId err)) w'
  | r => r

/-- Go iterates over a map in any order; `gathering` and `scattering` are those of the two loops. -/
def performReduction (ops : FloatOps) (comm : Communicator) (count : UInt64) (op : ReduceOp)
    (memAddrs : UInt32 → Option UInt64) (gathering scattering : List UInt32) : Handler PUnit := do
  let dataSize := count.toInt64 * 8
  let allData ← gather comm memAddrs dataSize gathering (List.replicate comm.devices.length [])
  if dataSize < 0 then
    throw .panicked
  else
    match allData with
    | [] => throw .panicked
    | data :: rest =>
      let finalData ← orPanic
        (reduceAll (reduceOp ops op) (copyTo dataSize.toInt.toNat data) rest)
      scattering.forM fun rank => do
        let deviceId ← deviceOf comm rank
        writeBack deviceId ((memAddrs rank).getD 0) finalData

/-! ## 4. The whole call -/

structure AllReduceRequest where
  commId : UInt64
  count : UInt64
  op : ReduceOp
  memAddrs : UInt32 → Option UInt64

/-- One step of the ring.  The data that is streamed to the source device is made up here. -/
def ringStep (comm : Communicator) (req : AllReduceRequest) (i : Nat) : Handler PUnit := do
  let srcRank := UInt32.ofNat i
  let dstRank := UInt32.ofNat ((i + 1) % comm.devices.length)
  match req.memAddrs srcRank, req.memAddrs dstRank with
  | some srcMemAddr, some _ =>
    let srcDevice ← deviceOf comm srcRank
    newClient srcDevice
    let streamID ← beginSend srcDevice
    let dstDevice ← deviceOf comm dstRank
    newClient dstDevice
    beginReceive dstDevice streamID
    let data ← orPanic (generateData req.op req.count)
    streamSend srcDevice streamID srcMemAddr data
  | _, _ => throw (.error (.missingMemAddr srcRank dstRank))

/-- An error between the two critical sections fails the communicator. -/
def orFail (commId : UInt64) (m : Handler PUnit) : Handler PUnit := fun w =>
  match m w with
  | .error (.error err) w' =>
    .error (.error err) { w' with service := w'.service.markCommunicatorFailed commId }
  | r => r

def allReduceRing (ops : FloatOps) (req : AllReduceRequest) (gathering scattering : List UInt32) :
    Handler PUnit := do
  let w ← get
  let (service, begun) := w.service.beginAllReduce req.commId
  set { w with service := service }
  match begun with
  | .error err => throw (.error (.coordinator err))
  | .ok p =>
    let comm ← orPanic service.objects[p]?
    orFail req.commId do
      forUp (ringStep comm req) 0 comm.devices.length
      performReduction ops comm req.count req.op req.memAddrs gathering scattering
    modify fun w => { w with service := w.service.finishAllReduce req.commId p }

end Dsml
