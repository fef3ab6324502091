import DistributedSystems.Library.LittleEndian
import DistributedSystems.Dsml.Coordinator

/-!
# A simulated device

`GPUDeviceService` keeps buffers under memory addresses and, under stream ids, either the status of a
stream or the buffer that a `StreamSend` call is filling.  `StreamSend` is a loop over what
`stream.Recv()` returns; it is given here as what its first and each further iteration do, so that
calls can be interleaved.
-/

namespace Dsml

open LittleEndian

abbrev Bytes := List UInt8

/-! ## 1. State -/

inductive StreamEntry where
  | status (s : Status)
  | buffer (data : Bytes)
  deriving DecidableEq, Repr

structure GPUDevice where
  deviceId : UInt64
  minMemAddr : UInt64
  maxMemAddr : UInt64
  rank : UInt32
  streams : UInt64 → Option StreamEntry
  memory : UInt64 → Option Bytes
  streamIDCounter : UInt64

def newGPUDeviceService (deviceId : UInt64) (rank : UInt32) : GPUDevice where
  deviceId := deviceId
  minMemAddr := 0x1000
  maxMemAddr := 0x100000
  rank := rank
  streams := fun _ => none
  memory := fun _ => none
  streamIDCounter := 0

inductive Recv where
  | chunk (data : Bytes)
  | eof
  | failure

inductive StreamError where
  | noInitialChunk
  | tooShort
  | bufferNotFound (streamID : UInt64)
  | bufferNotRetrieved (streamID : UInt64)
  | receiveFailed
  | addressNotFound (memAddr : UInt64)
  | sendFailed
  deriving DecidableEq, Repr

def hex (x : UInt64) : String := String.ofList (Nat.toDigits 16 x.toNat)

/-- The texts end with that of the underlying error where the source appends it. -/
def StreamError.text : StreamError → String
  | .noInitialChunk => "StreamSend: failed to receive initial data chunk"
  | .tooShort => "StreamSend: initial data chunk too short"
  | .bufferNotFound streamID => s!"StreamSend: buffer not found for StreamId {streamID}"
  | .bufferNotRetrieved streamID => s!"StreamSend: failed to retrieve buffer for StreamId {streamID}"
  | .receiveFailed => "StreamSend: failed to receive chunk"
  | .addressNotFound memAddr => "StreamReceive: memory address 0x" ++ hex memAddr ++ " not found"
  | .sendFailed => "StreamReceive: failed to send data chunk"

inductive SendEnd where
  | success
  | failed (err : StreamError)
  | panicked
  deriving DecidableEq, Repr

namespace GPUDevice

def setStream (d : GPUDevice) (streamID : UInt64) (entry : StreamEntry) : GPUDevice :=
  { d with streams := Function.update d.streams streamID (some entry) }

/-! ## 2. Handlers -/

def generateUniqueStreamID (d : GPUDevice) : GPUDevice × UInt64 :=
  ({ d with streamIDCounter := d.streamIDCounter + 1 }, d.streamIDCounter + 1)

def beginSend (d : GPUDevice) : GPUDevice × UInt64 :=
  let (d, streamID) := d.generateUniqueStreamID
  (d.setStream streamID (.status .inProgress), streamID)

def beginReceive (d : GPUDevice) (streamID : UInt64) : GPUDevice :=
  d.setStream streamID (.status .inProgress)

/-- The first iteration: the ids of the call, or its end. -/
def streamSendFirst (d : GPUDevice) : Recv → GPUDevice × Except SendEnd (UInt64 × UInt64)
  | .chunk data =>
    if data.length < 16 then
      (d, .error (.failed .tooShort))
    else
      let streamID := get (data.take 8)
      let memAddr := get ((data.drop 8).take 8)
      -- what follows the first 16 bytes is not read
      (d.setStream streamID (.buffer []), .ok (streamID, memAddr))
  | .eof => (d, .error (.failed .noInitialChunk))
  | .failure => (d, .error (.failed .noInitialChunk))

/-- A further iteration: the end of the call, or nothing when it goes on. -/
def streamSendNext (d : GPUDevice) (streamID memAddr : UInt64) : Recv → GPUDevice × Option SendEnd
  | .chunk data =>
    match d.streams streamID with
    | none => (d, some (.failed (.bufferNotFound streamID)))
    | some (.status _) => (d, some .panicked)
    | some (.buffer buffer) => (d.setStream streamID (.buffer (buffer ++ data)), none)
  | .eof =>
    match d.streams streamID with
    | none => (d, some (.failed (.bufferNotRetrieved streamID)))
    | some (.status _) => ({ d with streams := Function.update d.streams streamID none }, some .panicked)
    | some (.buffer buffer) =>
      let d := { d with memory := Function.update d.memory memAddr (some buffer) }
      (d.setStream streamID (.status .success), some .success)
  | .failure => (d.setStream streamID (.status .failed), some (.failed .receiveFailed))

def getStreamStatus (d : GPUDevice) (streamID : UInt64) : Status :=
  match d.streams streamID with
  | none => .failed
  | some (.buffer _) => .failed
  | some (.status s) => s

/-- `sent` is whether the chunk reaches the client. -/
def streamReceive (d : GPUDevice) (streamID memAddr numBytes : UInt64) (sent : Bool) :
    GPUDevice × Except StreamError Bytes :=
  match d.memory memAddr with
  | none => (d, .error (.addressNotFound memAddr))
  | some data =>
    let data := if numBytes.toNat < data.length then data.take numBytes.toNat else data
    if sent then
      (d.setStream streamID (.status .success), .ok data)
    else
      (d.setStream streamID (.status .failed), .error .sendFailed)

end GPUDevice

/-! ## 3. The client's first chunk -/

/-- `GPUDeviceClient.StreamSend` starts with the two ids and nothing else. -/
def initialChunk (streamID memAddr : UInt64) : Bytes := put streamID ++ put memAddr

theorem streamSendFirst_initialChunk (d : GPUDevice) (streamID memAddr : UInt64) :
    d.streamSendFirst (.chunk (initialChunk streamID memAddr)) =
      (d.setStream streamID (.buffer []), .ok (streamID, memAddr)) := by
  have hs := length_put streamID
  have hm := length_put memAddr
  have hid : (initialChunk streamID memAddr).take 8 = put streamID := by
    unfold initialChunk
    rw [← hs, List.take_left]
  have haddr : ((initialChunk streamID memAddr).drop 8).take 8 = put memAddr := by
    unfold initialChunk
    rw [← hs, List.drop_left, hs, ← hm, List.take_length]
  unfold GPUDevice.streamSendFirst
  dsimp only
  rw [if_neg (by unfold initialChunk; rw [List.length_append]; omega)]
  simp only [hid, haddr, get_put]

end Dsml
