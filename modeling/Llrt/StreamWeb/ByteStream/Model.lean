import Llrt.Lib.Effect
import Llrt.Lib.Region
import Llrt.StreamWeb.Value

/-!
# The readable byte stream

The stream, its controller and the reader that holds it, with the operations of the byte controller
and of both kinds of readers. A call of the user's `pull` is the last thing an operation does,
except in an enqueue that serves waiting reads from the queue; that one is suspended in
`enqueueFrame`. Buffers are transferred, never shared, so a buffer is its contents; the source can
reach the one behind the BYOB request. The number it passes to `respond` is arbitrary, so sums with
it wrap. `produced` and `settled` are history.
-/

namespace Llrt.StreamWeb.ByteStream

open Llrt.Lib

/-- The view kinds `ObjectBytes` distinguishes. -/
inductive ViewKind where
  | u8Array | i8Array | u16Array | i16Array | u32Array | i32Array | u64Array | i64Array
  | f16Array | f32Array | f64Array | u8ClampedArray | dataView
  deriving DecidableEq

def ViewKind.elementSize : ViewKind → Nat
  | .u8Array | .i8Array => 1
  | .u16Array | .i16Array => 2
  | .u32Array | .i32Array => 4
  | .u64Array | .i64Array => 8
  | .f16Array => 2
  | .f32Array => 4
  | .f64Array => 8
  | .u8ClampedArray => 1
  | .dataView => 1

theorem ViewKind.elementSize_pos (k : ViewKind) : 0 < k.elementSize := by
  cases k <;> decide

/-- An `ArrayBuffer`. -/
structure ArrayBuffer where
  bytes : List UInt8
  detached : Bool
  deriving DecidableEq

/-- `ArrayBuffer::len`: a detached buffer has length zero. -/
def ArrayBuffer.len (b : ArrayBuffer) : Nat :=
  if b.detached then 0 else b.bytes.length

def ArrayBuffer.slice (b : ArrayBuffer) (offset length : Nat) : List UInt8 :=
  region b.bytes offset length

/-- Overwrite the bytes from `offset` on. -/
def ArrayBuffer.write (b : ArrayBuffer) (offset : Nat) (bs : List UInt8) : ArrayBuffer :=
  { b with bytes := overwrite b.bytes offset bs }

/-- A typed array or `DataView`: inside its buffer and, for a typed array, aligned to its element
size. -/
structure ViewBytes where
  kind : ViewKind
  buffer : ArrayBuffer
  byteOffset : Nat
  byteLength : Nat
  inBuffer : byteOffset + byteLength ≤ buffer.len
  offsetAligned : kind.elementSize ∣ byteOffset
  lengthAligned : kind.elementSize ∣ byteLength

/-- `PullIntoDescriptorReaderType`. -/
inductive ReaderType where
  | default | byob | none
  deriving DecidableEq

structure PullIntoDescriptor where
  buffer : ArrayBuffer
  bufferByteLength : Nat
  byteOffset : Nat
  byteLength : Nat
  bytesFilled : Nat
  minimumFill : Nat
  elementSize : Nat
  viewConstructor : ViewKind
  readerType : ReaderType
  deriving DecidableEq

/-- `ReadableByteStreamQueueEntry`. -/
structure QueueEntry where
  buffer : ArrayBuffer
  byteOffset : Nat
  byteLength : Nat
  deriving DecidableEq

def QueueEntry.content (e : QueueEntry) : List UInt8 :=
  e.buffer.slice e.byteOffset e.byteLength

def PullIntoDescriptor.filled (d : PullIntoDescriptor) : List UInt8 :=
  d.buffer.slice d.byteOffset d.bytesFilled

/-- `ReadableStreamState`. -/
inductive StreamState where
  | readable
  | closed
  | errored (e : Value)
  deriving DecidableEq

/-- The reader that holds the stream, with the requests that wait on it. Reader
and request numbers are never reused. -/
inductive Reader where
  | default (id : Nat) (readRequests : List Nat)
  | byob (id : Nat) (readIntoRequests : List Nat)
  deriving DecidableEq

def Reader.requests : Reader → List Nat
  | .default _ rs => rs
  | .byob _ rs => rs

/-- How a read ended: a chunk, the end of the stream (a BYOB read gets its view
back), or an error. -/
inductive ReadResult where
  | chunk (kind : ViewKind) (bytes : List UInt8)
  | done (view : Option (ViewKind × List UInt8))
  | error (e : Value)
  deriving DecidableEq

def ReadResult.bytes : ReadResult → List UInt8
  | .chunk _ bs => bs
  | _ => []

/-- The view of a `ReadableStreamBYOBRequest`, over the first descriptor's buffer. -/
structure ByobRequest where
  byteOffset : Nat
  byteLength : Nat
  deriving DecidableEq

/-- An enqueue that waits for the user's `pull`: the reader it serves and the chunk it has not
stored. -/
structure EnqueueFrame where
  reader : Nat
  entry : QueueEntry
  deriving DecidableEq

/-- Places where the source aborts the process, and the one loop that may not
end. -/
inductive Fault where
  | pullAlgorithmCleared
  | cancelAlgorithmCleared
  | emptyPendingPullIntos
  | emptyQueue
  | emptyReadRequests
  | emptyReadIntoRequests
  | expectedDefaultReader
  | expectedByobReader
  | detachedClone
  | sliceOutOfRange
  | subtractOverflow
  | loopsForever
  deriving DecidableEq

/-- The stream with its controller and current reader. -/
structure Stream where
  state : StreamState
  disturbed : Bool
  reader : Option Reader
  autoAllocateChunkSize : Option Nat
  byobRequest : Option ByobRequest
  /-- Whether the pull and cancel algorithms are still set. -/
  algorithms : Bool
  closeRequested : Bool
  pullAgain : Bool
  pulling : Bool
  pendingPullIntos : List PullIntoDescriptor
  queue : List QueueEntry
  queueTotalSize : Nat
  started : Bool
  /-- The high-water mark rounded up to a whole number of bytes, `none` for
  infinity. It is only ever compared with the number of queued bytes. -/
  strategyHwm : Option Nat
  startPending : Bool
  pullPending : Bool
  enqueueFrame : Option EnqueueFrame
  nextReader : Nat
  nextRequest : Nat
  produced : List UInt8
  settled : List (Nat × ReadResult)
  deriving DecidableEq

def Stream.delivered (s : Stream) : List UInt8 :=
  s.settled.flatMap fun r => r.2.bytes

def Stream.held (s : Stream) : List UInt8 :=
  s.pendingPullIntos.flatMap PullIntoDescriptor.filled ++ s.queue.flatMap QueueEntry.content

/-- The stream after `set_up_readable_byte_stream_controller`. -/
def Stream.setUp (autoAllocateChunkSize strategyHwm : Option Nat) : Stream where
  state := .readable
  disturbed := false
  reader := none
  autoAllocateChunkSize := autoAllocateChunkSize
  byobRequest := none
  algorithms := true
  closeRequested := false
  pullAgain := false
  pulling := false
  pendingPullIntos := []
  queue := []
  queueTotalSize := 0
  started := false
  strategyHwm := strategyHwm
  startPending := true
  pullPending := false
  enqueueFrame := none
  nextReader := 0
  nextRequest := 0
  produced := []
  settled := []

abbrev Action := Op Stream Value Fault

/-- `2 ^ 64`, where `usize` wraps. -/
def usizeSize : Nat := 2 ^ 64

/-- `ArrayBuffer.prototype.transfer`. -/
def transferArrayBuffer (b : ArrayBuffer) : Action ArrayBuffer :=
  if b.detached then raise (.typeError "ArrayBuffer is detached") else pure b

def settle (request : Nat) (result : ReadResult) : Action PUnit :=
  modify fun s => { s with settled := s.settled ++ [(request, result)] }

def newRequest : Action Nat := do
  let s ← get
  set { s with nextRequest := s.nextRequest + 1 }
  pure s.nextRequest

/-- The read requests of a default reader that an operation has captured. A
reader that no longer holds the stream has none. -/
def Stream.readRequestsOf (s : Stream) (id : Nat) : List Nat :=
  match s.reader with
  | some (.default id' rs) => if id' = id then rs else []
  | _ => []

def Stream.hasRequests (s : Stream) : Bool :=
  match s.reader with
  | some r => !r.requests.isEmpty
  | none => false

/-- `readable_byte_stream_controller_should_call_pull`, given whether the reader
at hand has waiting requests. -/
def Stream.shouldCallPull (s : Stream) (hasRequests : Bool) : Bool :=
  s.state == .readable && !s.closeRequested && s.started && (hasRequests ||
      match s.strategyHwm with
      | none => true
      | some hwm => decide (s.queueTotalSize < hwm))

/-- `readable_byte_stream_controller_call_pull_if_needed`; the result says
whether the user's `pull` was called. -/
def callPullIfNeeded (hasRequests : Bool) : Action Bool := do
  let s ← get
  if s.shouldCallPull hasRequests then
    if s.pulling then
      set { s with pullAgain := true }
      pure false
    else if s.algorithms then
      set { s with pulling := true, pullPending := true }
      pure true
    else abort .pullAlgorithmCleared
  else pure false

/-- `call_pull_if_needed` for the reader that currently holds the stream. -/
def callPullForCurrentReader : Action PUnit := do
  let s ← get
  let _ ← callPullIfNeeded s.hasRequests
  pure ⟨⟩

/-- `readable_byte_stream_controller_invalidate_byob_request`. -/
def invalidateByobRequest : Action PUnit :=
  modify fun s => { s with byobRequest := none }

/-- `readable_byte_stream_controller_clear_algorithms`. -/
def clearAlgorithms : Action PUnit :=
  modify fun s => { s with algorithms := false }

def Reader.cleared : Reader → Reader
  | .default id _ => .default id []
  | .byob id _ => .byob id []

def Stream.settleRequests (s : Stream) (result : ReadResult) : Stream :=
  { s with
    reader := s.reader.map Reader.cleared
    settled := s.settled ++
      (s.reader.elim [] Reader.requests).map fun request => (request, result) }

/-- `readable_stream_close`: only a default reader's requests end here. -/
def Stream.closed (s : Stream) : Stream :=
  match s.reader with
  | some (.default _ _) => { s with state := .closed }.settleRequests (.done none)
  | _ => { s with state := .closed }

/-- `readable_stream_close` as an operation. -/
def readableStreamClose : Action PUnit := modify Stream.closed

/-- `readable_byte_stream_controller_error` on a readable stream. -/
def Stream.failed (s : Stream) (e : Value) : Stream :=
  { s with
    byobRequest := none
    pendingPullIntos := []
    queue := []
    queueTotalSize := 0
    algorithms := false
    state := .errored e }.settleRequests (.error e)

/-- `readable_byte_stream_controller_error`. -/
def controllerError (e : Value) : Action PUnit :=
  modify fun s => if s.state = .readable then s.failed e else s

/-- `readable_byte_stream_controller_enqueue_chunk_to_queue`. -/
def enqueueChunkToQueue (entry : QueueEntry) : Action PUnit :=
  modify fun s =>
    { s with
      queue := s.queue ++ [entry]
      queueTotalSize := s.queueTotalSize + entry.byteLength }

/-- `readable_byte_stream_controller_enqueue_cloned_chunk_to_queue`; `alloc` says
whether the engine can allocate the copy. -/
def enqueueClonedChunkToQueue (alloc : Bool) (buffer : ArrayBuffer)
    (byteOffset byteLength : Nat) : Action PUnit :=
  if buffer.detached then abort .detachedClone
  else if byteOffset + byteLength > buffer.bytes.length then abort .sliceOutOfRange
  else if alloc then
    enqueueChunkToQueue ⟨⟨buffer.slice byteOffset byteLength, false⟩, 0, byteLength⟩
  else do
    controllerError (.internalError "out of memory")
    raise (.internalError "out of memory")

/-- `readable_byte_stream_controller_shift_pending_pull_into`. -/
def shiftPendingPullInto : Action PullIntoDescriptor := do
  let s ← get
  match s.pendingPullIntos with
  | [] => abort .emptyPendingPullIntos
  | d :: rest =>
    set { s with byobRequest := none, pendingPullIntos := rest }
    pure d

/-- `readable_byte_stream_enqueue_detached_pull_into_to_queue`, always for the
first descriptor. -/
def enqueueDetachedPullIntoToQueue (alloc : Bool) : Action PUnit := do
  let s ← get
  match s.pendingPullIntos with
  | [] => abort .emptyPendingPullIntos
  | d :: _ =>
    if d.bytesFilled > 0 then
      enqueueClonedChunkToQueue alloc d.buffer d.byteOffset d.bytesFilled
    let _ ← shiftPendingPullInto
    pure ⟨⟩

/-- `readable_stream_fulfill_read_request` for the default reader `id`. -/
def fulfillReadRequest (id : Nat) (kind : ViewKind) (bytes : List UInt8) (done : Bool) :
    Action PUnit := do
  let s ← get
  match s.readRequestsOf id with
  | [] => abort .emptyReadRequests
  | r :: rs =>
    set { s with reader := some (.default id rs) }
    settle r (if done then .done none else .chunk kind bytes)

/-- `readable_stream_fulfill_read_into_request` for the BYOB reader `id`. -/
def fulfillReadIntoRequest (id : Nat) (requests : List Nat) (kind : ViewKind)
    (bytes : List UInt8) (done : Bool) : Action PUnit :=
  match requests with
  | [] => abort .emptyReadIntoRequests
  | r :: rs => do
    modify fun s => { s with reader := some (.byob id rs) }
    settle r (if done then .done (some (kind, bytes)) else .chunk kind bytes)

/-- The bytes of the view that the constructor makes over the filled part. -/
def convertPullIntoDescriptor (d : PullIntoDescriptor) : Action (List UInt8) := do
  let buffer ← transferArrayBuffer d.buffer
  let length := d.bytesFilled / d.elementSize * d.viewConstructor.elementSize
  if d.byteOffset % d.viewConstructor.elementSize ≠ 0 then
    raise (.rangeError "invalid offset")
  else if d.byteOffset + length > buffer.len then
    raise (.rangeError "invalid length")
  else pure (buffer.slice d.byteOffset length)

/-- `readable_byte_stream_controller_commit_pull_into_descriptor`. -/
def commitPullIntoDescriptor (d : PullIntoDescriptor) : Action PUnit := do
  let filledView ← convertPullIntoDescriptor d
  let s ← get
  match d.readerType, s.reader with
  | .default, some (.default id _) =>
    fulfillReadRequest id d.viewConstructor filledView (s.state == .closed)
  | .default, _ => abort .expectedDefaultReader
  | _, some (.byob id rs) =>
    fulfillReadIntoRequest id rs d.viewConstructor filledView (s.state == .closed)
  | _, _ => abort .expectedByobReader

/-- `readable_byte_stream_controller_handle_queue_drain`; the result says whether
the user's `pull` was called. -/
def handleQueueDrain (hasRequests : Bool) : Action Bool := do
  let s ← get
  if s.queueTotalSize = 0 ∧ s.closeRequested = true then
    clearAlgorithms
    readableStreamClose
    pure false
  else callPullIfNeeded hasRequests

/-- `readable_byte_stream_controller_fill_read_request_from_queue`, for a request
of the default reader `id`. -/
def fillReadRequestFromQueue (id request : Nat) : Action Bool := do
  let s ← get
  match s.queue with
  | [] => abort .emptyQueue
  | entry :: rest =>
    if s.queueTotalSize < entry.byteLength then abort .subtractOverflow
    else
      set { s with
        queue := rest
        queueTotalSize := s.queueTotalSize - entry.byteLength
        settled := s.settled ++ [(request, ReadResult.chunk .u8Array entry.content)] }
      handleQueueDrain !(s.readRequestsOf id).isEmpty

def copyDataBlockBytes (toBlock : ArrayBuffer) (toIndex : Nat) (fromBlock : ArrayBuffer)
    (fromIndex count : Nat) : Action ArrayBuffer :=
  if toBlock.detached || fromBlock.detached then
    raise (.typeError "array is detached")
  else if toIndex + count > toBlock.bytes.length ∨ fromIndex + count > fromBlock.bytes.length then
    abort .sliceOutOfRange
  else pure (toBlock.write toIndex (fromBlock.slice fromIndex count))

/-- The copying loop: move `remaining` bytes from the front of the queue into the descriptor. -/
def fillLoop (d : PullIntoDescriptor) (remaining : Nat) :
    List QueueEntry → Action PullIntoDescriptor
  | [] => if remaining > 0 then abort .emptyQueue else pure d
  | head :: rest =>
    if remaining > 0 then do
      let bytesToCopy := min remaining head.byteLength
      let buffer ← copyDataBlockBytes d.buffer (d.byteOffset + d.bytesFilled) head.buffer
        head.byteOffset bytesToCopy
      let d := { d with buffer := buffer, bytesFilled := d.bytesFilled + bytesToCopy }
      let s ← get
      if s.queueTotalSize < bytesToCopy then abort .subtractOverflow
      else if head.byteLength = bytesToCopy then
        set { s with queue := rest, queueTotalSize := s.queueTotalSize - bytesToCopy }
        fillLoop d (remaining - bytesToCopy) rest
      else
        -- the entry is longer than what is wanted, so this is the last round
        set { s with
          queue := { head with
            byteOffset := head.byteOffset + bytesToCopy
            byteLength := head.byteLength - bytesToCopy } :: rest
          queueTotalSize := s.queueTotalSize - bytesToCopy }
        pure d
    else pure d

/-- The descriptor after filling, and whether it is ready to be committed. -/
def fillPullIntoDescriptorFromQueue (d : PullIntoDescriptor) :
    Action (PullIntoDescriptor × Bool) := do
  let s ← get
  if d.byteLength < d.bytesFilled then abort .subtractOverflow
  else
    let maxBytesToCopy := min s.queueTotalSize (d.byteLength - d.bytesFilled)
    let maxBytesFilled := d.bytesFilled + maxBytesToCopy
    let maxAlignedBytes := maxBytesFilled - maxBytesFilled % d.elementSize
    if maxAlignedBytes ≥ d.minimumFill then
      if maxAlignedBytes < d.bytesFilled then abort .subtractOverflow
      else
        let d ← fillLoop d (maxAlignedBytes - d.bytesFilled) s.queue
        pure (d, true)
    else
      let d ← fillLoop d maxBytesToCopy s.queue
      pure (d, false)

/-- `readable_byte_stream_controller_process_pull_into_descriptors_using_queue`.
Every round but the last two removes a descriptor, so a run that uses up
`pendingPullIntos.length + 2` rounds never ends. -/
def processPullIntoDescriptorsUsingQueue : Nat → Action PUnit
  | 0 => abort .loopsForever
  | fuel + 1 => do
    let s ← get
    match s.pendingPullIntos with
    | [] => pure ⟨⟩
    | d :: rest =>
      if s.queueTotalSize = 0 then pure ⟨⟩
      else
        let (d, ready) ← fillPullIntoDescriptorFromQueue d
        modify fun s => { s with pendingPullIntos := d :: rest }
        if ready then
          let d ← shiftPendingPullInto
          commitPullIntoDescriptor d
        processPullIntoDescriptorsUsingQueue fuel

def processPullIntoDescriptors : Action PUnit := do
  let s ← get
  processPullIntoDescriptorsUsingQueue (s.pendingPullIntos.length + 2)

/-- At most `n` rounds of the loop for the reader `id`; the result says whether the user's `pull`
was called. -/
def processReadRequestsUsingQueue (id : Nat) : Nat → Action Bool
  | 0 => pure false
  | n + 1 => do
    let s ← get
    match s.readRequestsOf id with
    | [] => pure false
    | request :: requests =>
      if s.queueTotalSize = 0 then pure false
      else
        set { s with reader := some (.default id requests) }
        let pulled ← fillReadRequestFromQueue id request
        if pulled then pure true else processReadRequestsUsingQueue id n

/-- The rest of `readable_byte_stream_controller_enqueue_impl` after the read requests have been
served. -/
def storeForDefaultReader (id : Nat) (entry : QueueEntry) : Action PUnit := do
  let s ← get
  set { s with produced := s.produced ++ entry.content }
  if (s.readRequestsOf id).isEmpty then
    enqueueChunkToQueue entry
  else
    if !s.pendingPullIntos.isEmpty then
      let _ ← shiftPendingPullInto
    fulfillReadRequest id .u8Array entry.content false
  let s ← get
  let _ ← callPullIfNeeded !(s.readRequestsOf id).isEmpty
  pure ⟨⟩

/-- The default-reader branch of `readable_byte_stream_controller_enqueue_impl`. -/
def enqueueForDefaultReader (id : Nat) (entry : QueueEntry) : Action PUnit := do
  let s ← get
  let pulled ← processReadRequestsUsingQueue id (s.readRequestsOf id).length
  if pulled then
    modify fun s => { s with enqueueFrame := some ⟨id, entry⟩ }
  else storeForDefaultReader id entry

/-- The reader branches of `readable_byte_stream_controller_enqueue_impl`. -/
def enqueueForReader (entry : QueueEntry) : Action PUnit := do
  let s ← get
  match s.reader with
  | some (.default id _) => enqueueForDefaultReader id entry
  | some (.byob _ _) =>
    set { s with produced := s.produced ++ entry.content }
    enqueueChunkToQueue entry
    processPullIntoDescriptors
    callPullForCurrentReader
  | none =>
    set { s with produced := s.produced ++ entry.content }
    enqueueChunkToQueue entry
    callPullForCurrentReader

def prepareFirstDescriptor (alloc : Bool) : Action PUnit := do
  let s ← get
  match s.pendingPullIntos with
  | [] => pure ⟨⟩
  | d :: _ =>
    if d.buffer.detached then
      raise (.typeError ("The BYOB request's buffer has been detached and so cannot be " ++
        "filled with an enqueued chunk"))
    else
      invalidateByobRequest
      if d.readerType = .none then enqueueDetachedPullIntoToQueue alloc else pure ⟨⟩

/-- `readable_byte_stream_controller_enqueue_impl`. -/
def enqueueImpl (alloc : Bool) (chunk : ViewBytes) : Action PUnit := do
  let s ← get
  if s.closeRequested = true ∨ s.state ≠ .readable then pure ⟨⟩
  else if chunk.buffer.detached then
    raise (.typeError "chunk's buffer is detached and so cannot be enqueued")
  else
    prepareFirstDescriptor alloc
    enqueueForReader ⟨chunk.buffer, chunk.byteOffset, chunk.byteLength⟩

def enqueue (alloc : Bool) (chunk : ViewBytes) : Action PUnit := do
  let s ← get
  if chunk.byteLength = 0 then
    raise (.typeError "chunk must have non-zero byteLength")
  else if chunk.buffer.len = 0 then
    raise (.typeError "chunk must have non-zero buffer byteLength")
  else if s.closeRequested = true then
    raise (.typeError "stream is closed or draining")
  else if s.state ≠ .readable then
    raise (.typeError "The stream is not in the readable state and cannot be enqueued to")
  else enqueueImpl alloc chunk

/-- The event that the `pull` an enqueue was waiting for has returned. -/
def pullReturns (frame : EnqueueFrame) : Action PUnit := do
  modify fun s => { s with enqueueFrame := none }
  enqueueForDefaultReader frame.reader frame.entry

/-- `readable_byte_stream_controller_close`. -/
def controllerClose : Action PUnit := do
  let s ← get
  if s.closeRequested = true ∨ s.state ≠ .readable then pure ⟨⟩
  else if s.queueTotalSize > 0 then set { s with closeRequested := true }
  else
    match s.pendingPullIntos with
    | d :: _ =>
      if d.bytesFilled % d.elementSize ≠ 0 then
        let e := .typeError "Insufficient bytes to fill elements in the given buffer"
        controllerError e
        raise e
      else
        clearAlgorithms
        readableStreamClose
    | [] =>
      clearAlgorithms
      readableStreamClose

def close : Action PUnit := do
  let s ← get
  if s.closeRequested = true then raise (.typeError "close() called more than once")
  else if s.state ≠ .readable then
    raise (.typeError "close() called when stream is not readable")
  else controllerClose

/-- The descriptor `pull_steps` allocates for a default reader. -/
def autoAllocated (size : Nat) : PullIntoDescriptor where
  buffer := ⟨List.replicate size 0, false⟩
  bufferByteLength := size
  byteOffset := 0
  byteLength := size
  bytesFilled := 0
  minimumFill := 1
  elementSize := 1
  viewConstructor := .u8Array
  readerType := .default

/-- `readable_stream_add_read_request`, with the pull that follows it in
`pull_steps`. -/
def addReadRequest (id request : Nat) : Action PUnit := do
  modify fun s => { s with reader := some (.default id (s.readRequestsOf id ++ [request])) }
  callPullForCurrentReader

/-- `ReadableByteStreamController::pull_steps`; `alloc` says whether the engine
can allocate the automatic buffer. -/
def pullSteps (alloc : Bool) (id request : Nat) : Action PUnit := do
  let s ← get
  if s.queueTotalSize > 0 then
    let _ ← fillReadRequestFromQueue id request
    pure ⟨⟩
  else
    match s.autoAllocateChunkSize with
    | none => addReadRequest id request
    | some size =>
      if alloc then
        set { s with pendingPullIntos := s.pendingPullIntos ++ [autoAllocated size] }
        addReadRequest id request
      else settle request (.error (.rangeError "invalid array buffer length"))

/-- `ReadableStreamDefaultReader::read` on the reader that holds the stream. -/
def read (alloc : Bool) (id : Nat) : Action PUnit := do
  let request ← newRequest
  modify fun s => { s with disturbed := true }
  let s ← get
  match s.state with
  | .closed => settle request (.done none)
  | .errored e => settle request (.error e)
  | .readable => pullSteps alloc id request

/-- The descriptor `readable_byte_stream_controller_pull_into` makes for a view. -/
def ViewBytes.descriptor (view : ViewBytes) (min : Nat) : PullIntoDescriptor where
  buffer := view.buffer
  bufferByteLength := view.buffer.len
  byteOffset := view.byteOffset
  byteLength := view.byteLength
  bytesFilled := 0
  minimumFill := min * view.kind.elementSize
  elementSize := view.kind.elementSize
  viewConstructor := view.kind
  readerType := .byob

def addPullInto (d : PullIntoDescriptor) (id request : Nat) (requests : List Nat) :
    Action PUnit :=
  modify fun s =>
    { s with
      pendingPullIntos := s.pendingPullIntos ++ [d]
      reader := some (.byob id (requests ++ [request])) }

/-- `readable_byte_stream_controller_pull_into`, for the BYOB reader `id` with
its waiting `requests`. -/
def pullInto (view : ViewBytes) (min : Nat) (id : Nat) (requests : List Nat) (request : Nat) :
    Action PUnit := do
  let s ← get
  if view.buffer.detached then
    settle request (.error (.typeError "ArrayBuffer is detached"))
  else
    let d := view.descriptor min
    if !s.pendingPullIntos.isEmpty then
      addPullInto d id request requests
    else if s.state = .closed then
      settle request (.done (some (view.kind, [])))
    else if s.queueTotalSize > 0 then
      let (d, ready) ← fillPullIntoDescriptorFromQueue d
      let s ← get
      if ready then
        let filledView ← convertPullIntoDescriptor d
        settle request (.chunk view.kind filledView)
        let _ ← handleQueueDrain !requests.isEmpty
        pure ⟨⟩
      else if s.closeRequested = true then
        let e := .typeError "Insufficient bytes to fill elements in the given buffer"
        controllerError e
        settle request (.error e)
      else
        addPullInto d id request requests
        callPullForCurrentReader
    else
      addPullInto d id request requests
      callPullForCurrentReader

/-- The length in elements for the kinds that the `typed_array_len` match lists. -/
def ViewBytes.typedArrayLen (view : ViewBytes) : Option Nat :=
  match view.kind with
  | .u8Array | .i8Array | .u16Array | .i16Array | .u32Array | .i32Array
  | .u64Array | .i64Array | .f32Array | .f64Array =>
    some (view.byteLength / view.kind.elementSize)
  | _ => none

/-- The checks of `ReadableStreamBYOBReader::read` before the stream is touched. -/
def ViewBytes.refused (view : ViewBytes) (min : Nat) : Option Value :=
  if view.byteLength = 0 then
    some (.typeError "view must have non-zero byteLength")
  else if view.buffer.len = 0 then
    some (.typeError "view's buffer must have non-zero byteLength")
  else if view.buffer.detached then
    some (.typeError "view's buffer has been detached")
  else if min = 0 then
    some (.typeError "options.min must be greater than 0")
  else
    match view.typedArrayLen with
    | some length =>
      if min > length then
        some (.rangeError "options.min must be less than or equal to views length")
      else none
    | none =>
      if min > view.byteLength then
        some (.rangeError "options.min must be less than or equal to views byteLength")
      else none

/-- `ReadableStreamBYOBReader::read` on the reader that holds the stream. -/
def readInto (view : ViewBytes) (min : Nat) (id : Nat) (requests : List Nat) :
    Action PUnit := do
  let request ← newRequest
  match view.refused min with
  | some e => settle request (.error e)
  | none =>
    modify fun s => { s with disturbed := true }
    let s ← get
    match s.state with
    | .errored e => settle request (.error e)
    | _ => pullInto view min id requests request

/-- The first descriptor is filled; the bytes it takes over count as produced. -/
def fillHeadPullIntoDescriptor (size : Nat) : Action PUnit := do
  let s ← get
  match s.pendingPullIntos with
  | [] => abort .emptyPendingPullIntos
  | d :: rest =>
    set { s with
      pendingPullIntos :=
        { d with bytesFilled := (d.bytesFilled + size) % usizeSize } :: rest
      produced := s.produced ++ d.buffer.slice (d.byteOffset + d.bytesFilled) size }

/-- The loop of `readable_byte_stream_controller_respond_in_closed_state`; each
round takes one of the `n` waiting requests. -/
def commitAllInClosedState : Nat → Action PUnit
  | 0 => pure ⟨⟩
  | n + 1 => do
    let d ← shiftPendingPullInto
    commitPullIntoDescriptor d
    commitAllInClosedState n

/-- `readable_byte_stream_controller_respond_in_closed_state`. -/
def respondInClosedState : Action PUnit := do
  let s ← get
  match s.pendingPullIntos with
  | [] => abort .emptyPendingPullIntos
  | d :: _ =>
    if d.readerType = .none then
      let _ ← shiftPendingPullInto
    match s.reader with
    | some (.byob _ rs) => commitAllInClosedState rs.length
    | _ => pure ⟨⟩

/-- How `respondInClosedState` ends. -/
def commitForReader : Option Reader → Action PUnit
  | some (.byob _ rs) => commitAllInClosedState rs.length
  | _ => pure ⟨⟩

/-- `readable_byte_stream_controller_respond_in_readable_state`. -/
def respondInReadableState (alloc : Bool) (bytesWritten : Nat) : Action PUnit := do
  fillHeadPullIntoDescriptor bytesWritten
  let s ← get
  match s.pendingPullIntos with
  | [] => abort .emptyPendingPullIntos
  | d :: _ =>
    if d.readerType = .none then
      enqueueDetachedPullIntoToQueue alloc
      processPullIntoDescriptors
    else if d.bytesFilled < d.minimumFill then pure ⟨⟩
    else
      let d ← shiftPendingPullInto
      let remainderSize := d.bytesFilled % d.elementSize
      if remainderSize > 0 then
        enqueueClonedChunkToQueue alloc d.buffer
          (d.byteOffset + d.bytesFilled - remainderSize) remainderSize
      commitPullIntoDescriptor { d with bytesFilled := d.bytesFilled - remainderSize }
      processPullIntoDescriptors

/-- `readable_byte_stream_controller_respond_internal`. -/
def respondInternal (alloc : Bool) (bytesWritten : Nat) : Action PUnit := do
  invalidateByobRequest
  let s ← get
  if s.state = .closed then respondInClosedState
  else respondInReadableState alloc bytesWritten
  callPullForCurrentReader

/-- `readable_byte_stream_controller_respond`. -/
def controllerRespond (alloc : Bool) (bytesWritten : Nat) : Action PUnit := do
  let s ← get
  match s.pendingPullIntos with
  | [] => abort .emptyPendingPullIntos
  | d :: rest =>
    if s.state = .closed then
      if bytesWritten ≠ 0 then
        raise (.typeError "bytesWritten must be 0 when calling respond() on a closed stream")
      else
        let buffer ← transferArrayBuffer d.buffer
        set { s with pendingPullIntos := { d with buffer := buffer } :: rest }
        respondInternal alloc bytesWritten
    else if bytesWritten = 0 then
      raise (.typeError ("bytesWritten must be greater than 0 when calling respond() on a " ++
        "readable stream"))
    else if (d.bytesFilled + bytesWritten) % usizeSize > d.byteLength then
      raise (.rangeError "bytesWritten out of range'")
    else
      let buffer ← transferArrayBuffer d.buffer
      set { s with pendingPullIntos := { d with buffer := buffer } :: rest }
      respondInternal alloc bytesWritten

/-- `ReadableStreamBYOBRequest::respond` on the current request. -/
def respond (alloc : Bool) (bytesWritten : Nat) : Action PUnit := do
  let s ← get
  match s.byobRequest, s.pendingPullIntos with
  | some _, d :: _ =>
    if d.buffer.detached then
      raise (.typeError ("The BYOB request's buffer has been detached and so cannot be used " ++
        "as a response"))
    else controllerRespond alloc bytesWritten
  | some _, [] => abort .emptyPendingPullIntos
  | none, _ => raise (.typeError "This BYOB request has been invalidated")

/-- `readable_byte_stream_controller_respond_with_new_view`. -/
def controllerRespondWithNewView (alloc : Bool) (view : ViewBytes) : Action PUnit := do
  let s ← get
  if s.state = .closed ∧ view.byteLength ≠ 0 then
    raise (.typeError ("The view's length must be 0 when calling respondWithNewView() on a " ++
      "closed stream"))
  else if s.state ≠ .closed ∧ view.byteLength = 0 then
    raise (.typeError ("The view's length must be greater than 0 when calling " ++
      "respondWithNewView() on a readable stream"))
  else
    match s.pendingPullIntos with
    | [] => abort .emptyPendingPullIntos
    | d :: rest =>
      if d.byteOffset + d.bytesFilled ≠ view.byteOffset then
        raise (.rangeError "The region specified by view does not match byobRequest")
      else if d.bufferByteLength ≠ view.buffer.len then
        raise (.rangeError "The buffer of view has different capacity than byobRequest")
      else if (d.bytesFilled + view.byteLength) % usizeSize > d.byteLength then
        raise (.rangeError "The region specified by view is larger than byobRequest")
      else
        let buffer ← transferArrayBuffer view.buffer
        set { s with pendingPullIntos := { d with buffer := buffer } :: rest }
        respondInternal alloc view.byteLength

/-- `ReadableStreamBYOBRequest::respond_with_new_view` on the current request. -/
def respondWithNewView (alloc : Bool) (view : ViewBytes) : Action PUnit := do
  let s ← get
  match s.byobRequest with
  | none => raise (.typeError "This BYOB request has been invalidated")
  | some _ =>
    if view.buffer.detached then
      raise (.typeError ("The given view's buffer has been detached and so cannot be used " ++
        "as a response"))
    else controllerRespondWithNewView alloc view

/-- `readable_byte_stream_controller_get_byob_request`. -/
def getByobRequest : Action PUnit := do
  let s ← get
  match s.byobRequest, s.pendingPullIntos with
  | none, d :: _ =>
    if d.byteLength < d.bytesFilled then abort .subtractOverflow
    else if d.buffer.detached then raise (.typeError "ArrayBuffer is detached")
    else
      set { s with
        byobRequest := some ⟨d.byteOffset + d.bytesFilled, d.byteLength - d.bytesFilled⟩ }
  | _, _ => pure ⟨⟩

/-- The source writes `bs` at `offset` into the buffer behind the BYOB request. A
write outside the buffer has no effect. -/
def writeRequest (offset : Nat) (bs : List UInt8) : Action PUnit :=
  modify fun s =>
    match s.byobRequest, s.pendingPullIntos with
    | some _, d :: rest =>
      if offset + bs.length ≤ d.buffer.len then
        { s with pendingPullIntos := { d with buffer := d.buffer.write offset bs } :: rest }
      else s
    | _, _ => s

def transferRequest : Action PUnit :=
  modify fun s =>
    match s.byobRequest, s.pendingPullIntos with
    | some _, d :: rest =>
      { s with
        pendingPullIntos := { d with buffer := { d.buffer with detached := true } } :: rest }
    | _, _ => s

/-- Lock the stream to a new reader, by `set_up_readable_stream_default_reader`
or `set_up_readable_stream_byob_reader`. -/
def acquireReader (reader : Nat → Reader) : Action PUnit := do
  let s ← get
  match s.reader with
  | some _ =>
    raise (.typeError ("This stream has already been locked for exclusive reading by " ++
      "another reader"))
  | none => set { s with reader := some (reader s.nextReader), nextReader := s.nextReader + 1 }

def Stream.releaseSteps (s : Stream) : Stream :=
  match s.pendingPullIntos with
  | [] => s
  | d :: _ => { s with pendingPullIntos := [{ d with readerType := .none }] }

/-- `release_lock` of the reader that holds the stream. -/
def releaseLock : Action PUnit :=
  modify fun s =>
    { s.releaseSteps.settleRequests (.error (.typeError "Reader was released")) with
      reader := none }

/-- `readable_stream_cancel` with the controller's `cancel_steps`. -/
def cancel : Action PUnit := do
  modify fun s => { s with disturbed := true }
  let s ← get
  if s.state = .readable then
    readableStreamClose
    modify fun s => s.settleRequests (.done none)
    modify fun s =>
      { s with byobRequest := none, pendingPullIntos := [], queue := [], queueTotalSize := 0 }
    if s.algorithms then clearAlgorithms else abort .cancelAlgorithmCleared
  else pure ⟨⟩

def startFulfilled : Action PUnit := do
  modify fun s => { s with startPending := false, started := true }
  callPullForCurrentReader

def pullFulfilled : Action PUnit := do
  modify fun s => { s with pullPending := false, pulling := false }
  let s ← get
  if s.pullAgain then
    set { s with pullAgain := false }
    callPullForCurrentReader
  else pure ⟨⟩

/-- What scripts and settled promises can do to the stream. -/
inductive Event where
  | startFulfilled
  | startRejected (e : Value)
  | pullFulfilled
  | pullRejected (e : Value)
  | pullReturns
  | enqueue (alloc : Bool) (chunk : ViewBytes)
  | close
  | error (e : Value)
  | getDefaultReader
  | getByobReader
  | releaseLock
  | read (alloc : Bool)
  | readInto (view : ViewBytes) (min : Nat)
  | cancel
  | byobRequest
  | writeRequest (offset : Nat) (bs : List UInt8)
  | transferRequest
  | respond (alloc : Bool) (bytesWritten : Nat)
  | respondWithNewView (alloc : Bool) (view : ViewBytes)

/-- Promise reactions run only when no script is running, so not while an enqueue waits for `pull`
to return. -/
def step (s : Stream) : Event → Next Fault Stream
  | .startFulfilled =>
    if s.startPending ∧ s.enqueueFrame = none then perform startFulfilled s else .disabled
  | .startRejected e =>
    if s.startPending ∧ s.enqueueFrame = none then
      perform (controllerError e) { s with startPending := false }
    else .disabled
  | .pullFulfilled =>
    if s.pullPending ∧ s.enqueueFrame = none then perform pullFulfilled s else .disabled
  | .pullRejected e =>
    if s.pullPending ∧ s.enqueueFrame = none then
      perform (controllerError e) { s with pullPending := false }
    else .disabled
  | .pullReturns =>
    match s.enqueueFrame with
    | some frame => perform (pullReturns frame) s
    | none => .disabled
  | .enqueue alloc chunk => perform (enqueue alloc chunk) s
  | .close => perform close s
  | .error e => perform (controllerError e) s
  | .getDefaultReader => perform (acquireReader fun id => .default id []) s
  | .getByobReader => perform (acquireReader fun id => .byob id []) s
  | .releaseLock =>
    match s.reader with
    | some _ => perform releaseLock s
    | none => .disabled
  | .read alloc =>
    match s.reader with
    | some (.default id _) => perform (read alloc id) s
    | _ => .disabled
  | .readInto view min =>
    match s.reader with
    | some (.byob id requests) => perform (readInto view min id requests) s
    | _ => .disabled
  | .cancel => perform cancel s
  | .byobRequest => perform getByobRequest s
  | .writeRequest offset bs => perform (writeRequest offset bs) s
  | .transferRequest => perform transferRequest s
  | .respond alloc bytesWritten => perform (respond alloc bytesWritten) s
  | .respondWithNewView alloc view => perform (respondWithNewView alloc view) s

def machine : Machine Stream Event Fault where
  init s := ∃ size hwm, size ≠ some 0 ∧ s = .setUp size hwm
  step := step

end Llrt.StreamWeb.ByteStream
