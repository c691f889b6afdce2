import DunitOS.Gui.Wire
import DunitOS.SysLib.TreeMap

/-!
# The GUI server

The headless server of `protocols/gui-v1/src/server.rs`: connections with their surfaces
and buffers, the single input seat, and the calls through which packets, composition
ticks, reconfiguration and input enter it.

The arms of `dispatch` are programs on `Ctx`, the three things the source
lends them mutably: the connection, the allocator of client ids and the seat. An arm that
is left early keeps what it has done, so that a refused request leaves the state alone is
something to be proved. The packets of a call are given with their connection, header
object and header serial; the bytes are `Packet.bytes`.

The server is built without overflow checks, so its counters wrap.
-/

namespace DunitOS.Gui

open SysLib Prog Std

abbrev ConnId := UInt32

abbrev ObjectId := UInt64

/-- An input target: the connection that owns a surface, and the id of the surface. -/
abbrev Target := ConnId × ObjectId

/-! ### Constants -/

/-- How long a connection may go without HELLO. -/
def helloTimeoutNs : UInt64 := 5000000000

abbrev maxConnections : ℕ := 64

def maxSurfaces : UInt32 := 64

def maxBuffers : UInt32 := 192

/-- The largest backing of one buffer. -/
def maxBackingBytes : UInt64 := 64 * 1024 * 1024

/-- The backing that one connection may pin. -/
def maxBackingBytesConn : UInt64 := 256 * 1024 * 1024

def maxStride : UInt32 := 16384

abbrev maxTitleBytes : ℕ := 160

abbrev maxAppIdBytes : ℕ := 128

abbrev maxTextBytes : ℕ := 160

abbrev maxHeldKeys : ℕ := 256

def framePresented : UInt32 := 0

def frameDiscarded : UInt32 := 1

def stateActivated : UInt32 := 1

/-! ### Arithmetic -/

/-- A product, unless it overflows. -/
def checkedMul32 (a b : UInt32) : Option UInt32 :=
  if a.toNat * b.toNat < 2 ^ 32 then some (a * b) else none

def checkedMul64 (a b : UInt64) : Option UInt64 :=
  if a.toNat * b.toNat < 2 ^ 64 then some (a * b) else none

def checkedAdd64 (a b : UInt64) : Option UInt64 :=
  if a.toNat + b.toNat < 2 ^ 64 then some (a + b) else none

/-- `b as u32` -/
def asU32 (b : Bool) : UInt32 := if b then 1 else 0

/-! ### Objects -/

/-- The kinds of objects of a connection. -/
inductive ObjKind
  | surface
  | buffer
  deriving DecidableEq, Repr

/-- Whose turn it is with a buffer. -/
inductive BufState
  | available
  | pending
  | busy
  deriving DecidableEq, Repr

/-- A shared buffer imported by a client. -/
structure Buffer where
  width : UInt32
  height : UInt32
  format : UInt32
  /-- Pinned bytes, returned to the budget when the buffer is destroyed. -/
  backing : UInt64
  state : BufState
  /-- The COMMIT that made the buffer busy, or zero. -/
  commitToken : UInt64
  deriving DecidableEq, Repr

/-- A surface: its state as committed, and what is pending. -/
structure Surface where
  format : UInt32
  width : UInt32
  height : UInt32
  scale : UInt32
  state : UInt32
  /-- Header serial of the latest CONFIGURE. -/
  latestToken : UInt64
  /-- The last token acknowledged, or zero. -/
  ackedToken : UInt64
  pendingAttach : Bool
  /-- The buffer of the pending ATTACH; zero is an unmap. -/
  pendingBuffer : ObjectId
  committedBuffer : ObjectId
  committedToken : UInt64
  mapped : Bool
  framePending : Bool
  frameToken : UInt64
  deriving DecidableEq, Repr

/-- A surface that waits for its first CONFIGURE to be acknowledged. -/
def Surface.new (format width height : UInt32) (token : UInt64) : Surface where
  format := format
  width := width
  height := height
  scale := 1
  state := stateActivated
  latestToken := token
  ackedToken := 0
  pendingAttach := false
  pendingBuffer := 0
  committedBuffer := 0
  committedToken := 0
  mapped := false
  framePending := false
  frameToken := 0

/-- Whether a token names the latest CONFIGURE, and that one has been acknowledged. -/
def Surface.configureReady (s : Surface) (token : UInt64) : Bool :=
  token == s.latestToken && s.ackedToken == s.latestToken

/-- What a frame callback reports when it is completed. -/
def Surface.frameStatus (s : Surface) : UInt32 :=
  if s.mapped then framePresented else frameDiscarded

inductive Object
  | surface (s : Surface)
  | buffer (b : Buffer)
  deriving DecidableEq, Repr

def Object.kind : Object → ObjKind
  | surface _ => .surface
  | buffer _ => .buffer

/-! ### Connections -/

/-- How far a connection has come. -/
inductive Phase
  | new
  | active
  | closed
  deriving DecidableEq, Repr

/-- The state that the server keeps for a client. -/
structure Connection where
  phase : Phase
  createdNs : UInt64
  lastClientSerial : UInt64
  nextServerSerial : UInt64
  features : UInt64
  clientId : UInt64
  objects : ExtTreeMap ObjectId Object
  idWatermark : ObjectId
  surfaces : UInt32
  buffers : UInt32
  backingBytes : UInt64

/-- What is sent on a connection: header object and event of each packet. -/
abbrev Batch := List (ObjectId × Event)

/-- A packet that has been sent. -/
structure Packet where
  conn : ConnId
  object : ObjectId
  serial : UInt64
  event : Event
  deriving DecidableEq, Repr

/-- A packet as it goes over the wire. -/
def Packet.bytes (p : Packet) : List UInt8 := p.event.encode p.object p.serial

namespace Connection

def new (nowNs : UInt64) : Connection where
  phase := .new
  createdNs := nowNs
  lastClientSerial := 0
  nextServerSerial := 1
  features := 0
  clientId := 0
  objects := ∅
  idWatermark := 0
  surfaces := 0
  buffers := 0
  backingBytes := 0

def argbEnabled (c : Connection) : Bool := c.features &&& featureArgb8888 != 0

/-- There is an object of a kind under an id. -/
def require (c : Connection) (id : ObjectId) (kind : ObjKind) : Except ErrorCode Unit :=
  match c.objects[id]? with
  | none => .error .staleObject
  | some o => if o.kind ≠ kind then .error .wrongObjectType else .ok ()

/-- A new id is not zero and exceeds every id created before. -/
def checkFresh (c : Connection) (id : ObjectId) : Except ErrorCode Unit :=
  if id = 0 ∨ id ≤ c.idWatermark then .error .badValue else .ok ()

def surfaceOf (c : Connection) (id : ObjectId) : Except ErrorCode Surface :=
  match c.objects[id]? with
  | none => .error .staleObject
  | some (.surface s) => .ok s
  | some (.buffer _) => .error .wrongObjectType

def bufferOf (c : Connection) (id : ObjectId) : Except ErrorCode Buffer :=
  match c.objects[id]? with
  | none => .error .staleObject
  | some (.buffer b) => .ok b
  | some (.surface _) => .error .wrongObjectType

def putSurface (c : Connection) (id : ObjectId) (s : Surface) : Connection :=
  { c with objects := c.objects.insert id (.surface s) }

def putBuffer (c : Connection) (id : ObjectId) (b : Buffer) : Connection :=
  { c with objects := c.objects.insert id (.buffer b) }

/-- Make a buffer available again and announce it, as the four places of the source do
that give a buffer up. -/
def release (c : Connection) (id : ObjectId) (commit : UInt64) : Connection × Batch :=
  match c.bufferOf id with
  | .ok b =>
    (c.putBuffer id { b with state := .available, commitToken := 0 },
      [(id, .bufferRelease commit)])
  | .error _ => (c, [])

/-- Number a batch with the server serials of the connection. -/
def send (conn : ConnId) : Batch → Connection → List Packet × Connection
  | [], c => ([], c)
  | (object, ev) :: rest, c =>
    let r := send conn rest { c with nextServerSerial := c.nextServerSerial + 1 }
    (⟨conn, object, c.nextServerSerial, ev⟩ :: r.1, r.2)

end Connection

/-! ### Field checks -/

/-- The formats that there are, one of them a feature. -/
def checkFormat (fmt : UInt32) (argbEnabled : Bool) : Except ErrorCode Unit :=
  if fmt = formatXrgb8888 then .ok ()
  else if fmt = formatArgb8888 then if argbEnabled then .ok () else .error .unsupported
  else .error .badValue

/-- ASCII letters, digits and `.`, `_`, `-`. -/
def appIdByte (b : UInt8) : Bool :=
  (0x30 ≤ b && b ≤ 0x39) || (0x41 ≤ b && b ≤ 0x5a) || (0x61 ≤ b && b ≤ 0x7a) ||
    b == 0x2e || b == 0x5f || b == 0x2d

/-- What an application id may consist of. -/
def appIdOk (bytes : List UInt8) : Bool :=
  1 ≤ bytes.length && bytes.length ≤ maxAppIdBytes && bytes.all appIdByte

/-- What a width or a height may be. -/
def dimOk (v : UInt32) : Bool := dimMin ≤ v && v ≤ dimMax

/-- Whether a damage rectangle is not a nonempty rectangle inside the buffer. -/
def outOfBounds (b : Buffer) (r : Rect) : Bool :=
  r.w == 0 || r.h == 0 || r.x < 0 || r.y < 0 ||
    decide ((b.width.toNat : ℤ) < r.x.toInt + r.w.toNat) ||
    decide ((b.height.toNat : ℤ) < r.y.toInt + r.h.toNat)

/-! ### The seat -/

/-- The input seat shared by all connections. -/
structure Seat where
  pointerFocus : Option Target
  keyboardFocus : Option Target
  grab : Option Target
  buttons : List UInt32
  heldKeys : List UInt32
  modifiers : UInt32
  deriving DecidableEq, Repr

namespace Seat

/-- No focus, and nothing is held. -/
def empty : Seat := ⟨none, none, none, [], [], 0⟩

/-- What has the focus or the grab is of a connection. -/
def holds (t : Option Target) (conn : ConnId) : Bool := t.any fun t => t.1 == conn

/-- Forget what a vanished connection held. -/
def dropConn (seat : Seat) (conn : ConnId) : Seat :=
  let seat := if holds seat.pointerFocus conn then { seat with pointerFocus := none, buttons := [] }
    else seat
  let seat := if holds seat.grab conn then { seat with grab := none, buttons := [] } else seat
  if holds seat.keyboardFocus conn then
    { seat with keyboardFocus := none, heldKeys := [], modifiers := 0 }
  else seat

/-- Forget what a surface held; the leave events precede its removal from the scene. -/
def dropSurface (seat : Seat) (tgt : Target) : Seat × Batch :=
  let ev1 := if seat.pointerFocus = some tgt then [(tgt.2, Event.pointerLeave)] else []
  let seat := if seat.pointerFocus = some tgt then { seat with pointerFocus := none, buttons := [] }
    else seat
  let seat := if seat.grab = some tgt then { seat with grab := none, buttons := [] } else seat
  let ev2 := if seat.keyboardFocus = some tgt then [(tgt.2, Event.keyLeave)] else []
  let seat := if seat.keyboardFocus = some tgt then
    { seat with keyboardFocus := none, heldKeys := [], modifiers := 0 } else seat
  (seat, ev1 ++ ev2)

end Seat

/-! ### Dispatch -/

/-- A batch of packets to emit, and whether the connection is torn down afterwards. -/
abbrev Emit := Batch × Bool

/-- The state that a request can change. -/
structure Ctx where
  conn : Connection
  nextClientId : UInt64
  seat : Seat

/-- The body of a request: a batch, or the error it is refused with. -/
abbrev Arm := Prog Ctx ErrorCode Batch

/-- The ERROR that answers a request. -/
def error (object : ObjectId) (request : UInt64) (code : ErrorCode) (fatal : Bool) : Emit :=
  ([(object, .error request code.code (asU32 fatal))], fatal)

/-- Run the body of a request, with `error` for its early returns. -/
def answer (object : ObjectId) (request : UInt64) (fatal : Bool) (m : Arm) (x : Ctx) :
    Emit × Ctx :=
  match m x with
  | (.ok batch, y) => ((batch, false), y)
  | (.error e, y) => (error object request e fatal, y)

def setConn (c : Connection) : Prog Ctx ErrorCode Unit := Prog.modify fun x => { x with conn := c }

namespace Arm

/-- HELLO: the features are agreed on. -/
def hello (ser : UInt64) (minMinor maxMinor : UInt16) (offered required : UInt64) : Arm := do
  refuse (maxMinor < minMinor || versionMinor < minMinor) .versionMismatch
  refuse (required &&& ~~~offered != 0) .malformed
  refuse (required &&& ~~~featureArgb8888 != 0) .unsupported
  let features := offered &&& featureArgb8888
  let x ← Prog.get
  Prog.modify fun x =>
    { x with
      conn := { x.conn with features, phase := .active, clientId := x.nextClientId }
      nextClientId := x.nextClientId + 1 }
  let formats := formatsXrgb8888 |||
    if features &&& featureArgb8888 != 0 then formatsArgb8888 else 0
  pure [(0, .welcome ser x.nextClientId features formats)]

/-- CREATE_SURFACE: a surface, and its first CONFIGURE. -/
def createSurface (obj ser : UInt64) (role width height format : UInt32) : Arm := do
  let x ← Prog.get
  ofExcept (x.conn.checkFresh obj)
  refuse (role != roleToplevel) .unsupported
  ofExcept (checkFormat format x.conn.argbEnabled)
  refuse (!(dimOk width && dimOk height)) .badValue
  refuse (maxSurfaces ≤ x.conn.surfaces) .limitExceeded
  -- The CONFIGURE is the second packet of the batch, hence the serial after the next.
  let token := x.conn.nextServerSerial + 1
  setConn { x.conn.putSurface obj (Surface.new format width height token) with
    idWatermark := obj
    surfaces := x.conn.surfaces + 1 }
  pure [(obj, .result ser), (obj, .configure width height 1 stateActivated)]

/-- Give up the buffer of a pending attach. -/
def cancelPending (c : Connection) (s : Surface) : Connection × Batch :=
  if s.pendingAttach && s.pendingBuffer != 0 then c.release s.pendingBuffer 0 else (c, [])

/-- Give up the committed buffer. -/
def releaseCommitted (c : Connection) (s : Surface) : Connection × Batch :=
  if s.committedBuffer != 0 then c.release s.committedBuffer s.committedToken else (c, [])

/-- The event of a frame callback that is not presented. -/
def discarded (obj now : UInt64) : Option UInt64 → Batch
  | some token => [(obj, .frameDone token now frameDiscarded)]
  | none => []

/-- DESTROY_SURFACE: it is unmapped and its buffers are released. -/
def destroySurface (connId : ConnId) (now obj ser : UInt64) : Arm := do
  let x ← Prog.get
  let s ← ofExcept (x.conn.surfaceOf obj)
  let left := x.seat.dropSurface (connId, obj)
  let r1 := cancelPending x.conn s
  let r2 := releaseCommitted r1.1 s
  let frame := discarded obj now (if s.framePending then some s.frameToken else none)
  Prog.modify fun x =>
    { x with
      conn := { r2.1 with objects := r2.1.objects.erase obj, surfaces := r2.1.surfaces - 1 }
      seat := left.1 }
  pure (left.2 ++ r1.2 ++ r2.2 ++ frame ++ [(obj, .result ser)])

/-- SET_TITLE and SET_APP_ID keep nothing: they check their object and their string. -/
def setText (obj ser : UInt64) (ok : Bool) : Arm := do
  let x ← Prog.get
  ofExcept (x.conn.require obj .surface)
  refuse (!ok) .badValue
  pure [(obj, .result ser)]

def setTitle (obj ser : UInt64) (s : List Char) : Arm :=
  setText obj ser ((utf8 s).length ≤ maxTitleBytes)

def setAppId (obj ser : UInt64) (s : List Char) : Arm := setText obj ser (appIdOk (utf8 s))

/-- ACK_CONFIGURE: the latest token, once. -/
def ackConfigure (obj ser configure : UInt64) : Arm := do
  let x ← Prog.get
  let s ← ofExcept (x.conn.surfaceOf obj)
  refuse (configure != s.latestToken || s.ackedToken == s.latestToken) .badSerial
  setConn (x.conn.putSurface obj { s with ackedToken := configure })
  pure [(obj, .result ser)]

/-- The end of the pixels in the backing, if it can be computed. -/
def pixelsEnd (width height stride : UInt32) (offset : UInt64) : Option UInt64 :=
  ((checkedMul64 stride.toUInt64 (height - 1).toUInt64).bind (checkedAdd64 · offset)).bind
    (checkedAdd64 · (width * 4).toUInt64)

/-- IMPORT_BUFFER: all checks, in the order of the source. -/
def importBuffer (obj ser : UInt64) (width height stride format : UInt32) (offset : UInt64)
    (cap : Option UInt64) : Arm := do
  let capSize := cap.getD 0
  let x ← Prog.get
  ofExcept (x.conn.checkFresh obj)
  ofExcept (checkFormat format x.conn.argbEnabled)
  refuse (!(dimOk width && dimOk height)) .badValue
  refuse (stride % 4 != 0 || offset % 4 != 0 || stride < width * 4) .badValue
  refuse (maxStride < stride || maxBackingBytes < capSize) .limitExceeded
  refuse (!(pixelsEnd width height stride offset).any (· ≤ capSize)) .outOfBounds
  refuse (maxBuffers ≤ x.conn.buffers) .limitExceeded
  refuse (maxBackingBytesConn < x.conn.backingBytes + capSize) .limitExceeded
  setConn { x.conn.putBuffer obj ⟨width, height, format, capSize, .available, 0⟩ with
    idWatermark := obj
    buffers := x.conn.buffers + 1
    backingBytes := x.conn.backingBytes + capSize }
  pure [(obj, .result ser)]

/-- DESTROY_BUFFER: only if the client has it. -/
def destroyBuffer (obj ser : UInt64) : Arm := do
  let x ← Prog.get
  let b ← ofExcept (x.conn.bufferOf obj)
  refuse (b.state != .available) .busy
  setConn { x.conn with
    objects := x.conn.objects.erase obj
    buffers := x.conn.buffers - 1
    backingBytes := x.conn.backingBytes - b.backing }
  pure [(obj, .result ser)]

/-- An explicit unmap: attach nothing. -/
def attachNothing (obj ser : UInt64) (damage : List Rect) (s : Surface) : Arm := do
  let x ← Prog.get
  refuse s.pendingAttach .badState
  refuse (!damage.isEmpty) .badValue
  setConn (x.conn.putSurface obj { s with pendingAttach := true, pendingBuffer := 0 })
  pure [(obj, .result ser)]

/-- A buffer becomes the pending one. -/
def attachSome (obj ser buffer : UInt64) (damage : List Rect) (s : Surface) : Arm := do
  let x ← Prog.get
  let b ← ofExcept (x.conn.bufferOf buffer)
  refuse s.pendingAttach .badState
  refuse (b.state != .available) .busy
  refuse (damage.any (outOfBounds b)) .outOfBounds
  refuse (maxDamageRects < UInt32.ofNat damage.length) .limitExceeded
  setConn ((x.conn.putBuffer buffer { b with state := .pending }).putSurface obj
    { s with pendingAttach := true, pendingBuffer := buffer })
  pure [(obj, .result ser)]

/-- ATTACH_BUFFER: a buffer, or none. -/
def attachBuffer (obj ser buffer : UInt64) (damage : List Rect) : Arm := do
  let x ← Prog.get
  let s ← ofExcept (x.conn.surfaceOf obj)
  if buffer = 0 then attachNothing obj ser damage s else attachSome obj ser buffer damage s

/-- A commit that takes the contents away. -/
def commitUnmap (connId : ConnId) (now obj ser : UInt64) (frameCallback : UInt32) (s : Surface) :
    Arm := do
  let x ← Prog.get
  let discard := if s.framePending then some s.frameToken
    else if frameCallback = 1 then some ser else none
  let c := x.conn.putSurface obj { s with
    committedBuffer := 0
    committedToken := 0
    mapped := false
    pendingAttach := false
    pendingBuffer := 0
    framePending := false }
  let left := x.seat.dropSurface (connId, obj)
  let r := releaseCommitted c s
  Prog.modify fun x => { x with conn := r.1, seat := left.1 }
  pure ([(obj, .result ser)] ++ left.2 ++ r.2 ++ discarded obj now discard)

/-- The size in pixels that the latest CONFIGURE asks for. -/
def pixelSize (s : Surface) : Option (UInt32 × UInt32) :=
  (checkedMul32 s.width s.scale).bind fun w => (checkedMul32 s.height s.scale).map fun h => (w, h)

/-- A commit that shows the pending buffer. -/
def commitMap (obj ser : UInt64) (frameCallback : UInt32) (s : Surface) : Arm := do
  let x ← Prog.get
  let b ← ofExcept (x.conn.bufferOf s.pendingBuffer)
  let px ← ofExcept ((pixelSize s).elim (.error ErrorCode.outOfBounds) .ok)
  refuse (b.width != px.1 || b.height != px.2 || b.format != s.format) .badValue
  let c := (x.conn.putBuffer s.pendingBuffer
    { b with state := .busy, commitToken := ser }).putSurface obj { s with
      committedBuffer := s.pendingBuffer
      committedToken := ser
      mapped := true
      pendingAttach := false
      pendingBuffer := 0
      framePending := if frameCallback = 1 then true else s.framePending
      frameToken := if frameCallback = 1 then ser else s.frameToken }
  let r := if s.committedBuffer != 0 && s.committedBuffer != s.pendingBuffer then
    c.release s.committedBuffer s.committedToken else (c, [])
  setConn r.1
  pure ([(obj, .result ser)] ++ r.2)

/-- COMMIT: what is pending becomes current. -/
def commit (connId : ConnId) (now obj ser configure : UInt64) (frameCallback : UInt32) : Arm := do
  refuse (1 < frameCallback) .badValue
  let x ← Prog.get
  let s ← ofExcept (x.conn.surfaceOf obj)
  refuse (!s.pendingAttach) .badState
  refuse (!s.configureReady configure) .badSerial
  refuse (frameCallback == 1 && s.framePending) .busy
  if s.pendingBuffer = 0 then commitUnmap connId now obj ser frameCallback s
  else commitMap obj ser frameCallback s

end Arm

open Arm in
/-- Answer a decoded request. -/
def dispatch (connId : ConnId) (now : UInt64) (header : Header) (req : Request)
    (cap : Option UInt64) : Ctx → Emit × Ctx :=
  let obj := header.object
  let ser := header.serial
  match req with
  | .hello minMinor maxMinor offered required =>
    answer obj ser true (hello ser minMinor maxMinor offered required)
  | .disconnect => fun x => (([(0, .result ser)], true), x)
  | .createSurface role width height format =>
    answer obj ser false (createSurface obj ser role width height format)
  | .destroySurface => answer obj ser false (destroySurface connId now obj ser)
  | .setTitle s => answer obj ser false (setTitle obj ser s)
  | .setAppId s => answer obj ser false (setAppId obj ser s)
  | .ackConfigure configure => answer obj ser false (ackConfigure obj ser configure)
  | .importBuffer width height stride format offset =>
    answer obj ser false (importBuffer obj ser width height stride format offset cap)
  | .destroyBuffer => answer obj ser false (destroyBuffer obj ser)
  | .attachBuffer buffer damage => answer obj ser false (attachBuffer obj ser buffer damage)
  | .commit configure frameCallback =>
    answer obj ser false (commit connId now obj ser configure frameCallback)

/-! ### The validation pipeline -/

/-- The opcode, the connection state and the payload: what follows the header serial. -/
def interpret (connId : ConnId) (now : UInt64) (header : Header) (packet : List UInt8)
    (cap : Option UInt64) (x : Ctx) : Emit × Ctx :=
  let refuse := error header.object header.serial
  match Opcode.fromU16 header.opcodeRaw with
  | some op =>
    if op.isRequest = false then (refuse .badOpcode true, x)
    else if x.conn.phase = .new ∧ op ≠ .hello then (refuse .badState true, x)
    else if x.conn.phase = .active ∧ op = .hello then (refuse .badState false, x)
    else match Request.decode op (packet.drop headerLen) with
      | .ok req => dispatch connId now header req cap x
      | .error e => (refuse e.code (e.code == .malformed), x)
  | none =>
    if policyOpcodeLo ≤ header.opcodeRaw ∧ header.opcodeRaw ≤ policyOpcodeHi then
      (refuse .accessDenied false, x)
    else (refuse .badOpcode true, x)

/-- The checks on a packet, in order, and then its effect. -/
def pipeline (connId : ConnId) (now : UInt64) (packet : List UInt8) (cap : Option UInt64)
    (x : Ctx) : Emit × Ctx :=
  match Header.decode packet with
  | .error e => (error 0 0 e.code true, x)
  | .ok header =>
    let refuse := error header.object header.serial
    if (header.opcodeRaw == Opcode.importBuffer.raw) ≠ cap.isSome then (refuse .malformed true, x)
    else if header.major ≠ versionMajor then (refuse .versionMismatch true, x)
    else if header.serial = 0 ∨ header.serial ≤ x.conn.lastClientSerial then
      (refuse .badSerial true, x)
    else interpret connId now header packet cap
      { x with conn := { x.conn with lastClientSerial := header.serial } }

/-! ### The server -/

/-- All connections, the counters, and the seat. -/
structure Server where
  nowNs : UInt64
  nextConn : ConnId
  nextClientId : UInt64
  conns : ExtTreeMap ConnId Connection
  seat : Seat

namespace Server

def new : Server := ⟨0, 1, 1, ∅, Seat.empty⟩

/-- Accept a connection, unless there are too many. -/
def connect (s : Server) : Option ConnId × Server :=
  if maxConnections ≤ s.conns.size then (none, s)
  else (some s.nextConn,
    { s with
      nextConn := s.nextConn + 1
      conns := s.conns.insert s.nextConn (Connection.new s.nowNs) })

/-- The peer is gone. -/
def disconnectPeer (s : Server) (conn : ConnId) : Server :=
  { s with conns := s.conns.erase conn, seat := s.seat.dropConn conn }

/-- Whether a connection that has not said HELLO is out of time; `saturating_sub`. -/
def timedOut (nowNs : UInt64) (c : Connection) : Bool :=
  c.phase == .new && helloTimeoutNs.toNat ≤ nowNs.toNat - c.createdNs.toNat

/-- Advance the clock, and remove the connections that are out of time. -/
def tick (s : Server) (nowNs : UInt64) : List ConnId × Server :=
  let now := if s.nowNs < nowNs then nowNs else s.nowNs
  let closed := (s.conns.toList.filter fun e => timedOut now e.2).map Prod.fst
  (closed,
    { s with
      nowNs := now
      conns := closed.foldl (fun t id => t.erase id) s.conns
      seat := closed.foldl Seat.dropConn s.seat })

/-- Feed one packet of a client, with the size of the capability attached to it. -/
def deliver (s : Server) (conn : ConnId) (packet : List UInt8) (cap : Option UInt64) :
    List Packet × Server :=
  match s.conns[conn]? with
  | some c =>
    if c.phase = .closed then ([], s)
    else
      let r := pipeline conn s.nowNs packet cap ⟨c, s.nextClientId, s.seat⟩
      let sent := r.2.conn.send conn r.1.1
      (sent.1,
        { s with
          nextClientId := r.2.nextClientId
          conns := s.conns.insert conn
            (if r.1.2 then { sent.2 with phase := .closed } else sent.2)
          seat := if r.1.2 then r.2.seat.dropConn conn else r.2.seat })
  | none => ([], s)

/-- Send one event, unless the connection is unknown or closed. -/
def emitTo (s : Server) (conn : ConnId) (obj : ObjectId) (ev : Event) : List Packet × Server :=
  match s.conns[conn]? with
  | some c =>
    if c.phase = .closed then ([], s)
    else
      let sent := c.send conn [(obj, ev)]
      (sent.1, { s with conns := s.conns.insert conn sent.2 })
  | none => ([], s)

/-- Send one event to a target, if there is one. -/
def emitToTarget (s : Server) (t : Option Target) (ev : Event) : List Packet × Server :=
  match t with
  | some t => s.emitTo t.1 t.2 ev
  | none => ([], s)

/-- Whether a target is a mapped surface of an active connection. -/
def isMapped (s : Server) (t : Target) : Bool :=
  match s.conns[t.1]? with
  | some c => c.phase == .active && match c.surfaceOf t.2 with
    | .ok surface => surface.mapped
    | .error _ => false
  | none => false

/-- Too many keys are held: the connection is torn down. -/
def inputOverflow (s : Server) (conn : ConnId) : List Packet × Server :=
  let r := s.emitTo conn 0 (.error 0 ErrorCode.limitExceeded.code 1)
  let conns := match r.2.conns[conn]? with
    | some c => r.2.conns.insert conn { c with phase := .closed }
    | none => r.2.conns
  (r.1, { r.2 with conns, seat := r.2.seat.dropConn conn })

/-! ### Composition and configuration -/

/-- The frame callbacks that wait on a connection, with the status they will report. -/
def waitingFrames (conn : ConnId) (c : Connection) : List (ConnId × ObjectId × UInt64 × UInt32) :=
  if c.phase ≠ .active then []
  else c.objects.toList.filterMap fun e =>
    match e.2 with
    | .surface s =>
      if s.framePending then some (conn, e.1, s.frameToken, s.frameStatus) else none
    | .buffer _ => none

/-- Complete one frame callback. -/
def frameDone (s : Server) (conn : ConnId) (id : ObjectId) (token : UInt64) (status : UInt32) :
    List Packet × Server :=
  let conns := match s.conns[conn]? with
    | some c => match c.surfaceOf id with
      | .ok surface => s.conns.insert conn (c.putSurface id { surface with framePending := false })
      | .error _ => s.conns
    | none => s.conns
  emitTo { s with conns } conn id (.frameDone token s.nowNs status)

/-- Complete the frame callbacks of a list, in order. -/
def framesDone (s : Server) :
    List (ConnId × ObjectId × UInt64 × UInt32) → List Packet × Server
  | [] => ([], s)
  | (conn, id, token, status) :: rest =>
    let r := s.frameDone conn id token status
    let r' := r.2.framesDone rest
    (r.1 ++ r'.1, r'.2)

/-- A composition tick. -/
def composite (s : Server) : List Packet × Server :=
  s.framesDone (s.conns.toList.flatMap fun e => waitingFrames e.1 e.2)

/-- Push a new CONFIGURE to a surface. -/
def reconfigure (s : Server) (conn : ConnId) (surface : ObjectId)
    (width height scale state : UInt32) : List Packet × Server :=
  if !(dimOk width && dimOk height) || scale == 0 then ([], s)
  else match s.conns[conn]? with
    | some c =>
      if c.phase = .active then
        match c.surfaceOf surface with
        | .ok sf =>
          let c := c.putSurface surface
            { sf with width, height, scale, state, latestToken := c.nextServerSerial }
          emitTo { s with conns := s.conns.insert conn c } conn surface
            (.configure width height scale state)
        | .error _ => ([], s)
      else ([], s)
    | none => ([], s)

/-! ### Input -/

/-- The pointer goes to another surface, with LEAVE and ENTER. -/
def setPointerFocus (s : Server) (target : Option Target) (x y : Int32) : List Packet × Server :=
  if s.seat.grab.isSome then ([], s)
  else
    let target := target.filter s.isMapped
    if s.seat.pointerFocus = target then ([], s)
    else
      let r1 := s.emitToTarget s.seat.pointerFocus .pointerLeave
      let r2 := emitToTarget
        { r1.2 with seat := { r1.2.seat with pointerFocus := target, buttons := [] } } target
        (.pointerEnter x y)
      (r1.1 ++ r2.1, r2.2)

/-- Where pointer events go: the grab, else the focus. -/
def pointerTarget (s : Server) : Option Target := s.seat.grab.or s.seat.pointerFocus

/-- The pointer moves on the surface that it is on. -/
def pointerMotion (s : Server) (x y : Int32) : List Packet × Server :=
  s.emitToTarget s.pointerTarget (.pointerMotion s.nowNs x y)

/-- A button goes down or up: a press starts the implicit grab, if there is none. -/
def pushButton (seat : Seat) (t : Target) (button : UInt32) (pressed : Bool) : Seat :=
  if pressed then
    { seat with
      buttons := if seat.buttons.contains button then seat.buttons else seat.buttons ++ [button]
      grab := if seat.grab.isNone then some t else seat.grab }
  else { seat with buttons := seat.buttons.filter (· != button) }

/-- A button, for the surface that has the pointer. -/
def pointerButton (s : Server) (button : UInt32) (pressed : Bool) : List Packet × Server :=
  match s.pointerTarget with
  | none => ([], s)
  | some t =>
    let r := emitTo { s with seat := pushButton s.seat t button pressed } t.1 t.2
      (.pointerButton s.nowNs button (asU32 pressed))
    if !pressed && r.2.seat.buttons.isEmpty then
      (r.1, { r.2 with seat := { r.2.seat with grab := none } })
    else r

def pointerAxis (s : Server) (dx dy : Int32) : List Packet × Server :=
  s.emitToTarget s.pointerTarget (.pointerAxis s.nowNs dx dy)

/-- The keys go to another surface. -/
def setKeyboardFocus (s : Server) (target : Option Target) (modifiers : UInt32) :
    List Packet × Server :=
  let target := target.filter s.isMapped
  if s.seat.keyboardFocus = target then ([], s)
  else
    let r1 := s.emitToTarget s.seat.keyboardFocus .keyLeave
    let r2 := emitToTarget
      { r1.2 with seat := { r1.2.seat with keyboardFocus := target, heldKeys := [], modifiers } }
      target (.keyEnter modifiers)
    (r1.1 ++ r2.1, r2.2)

/-- A key event. A release of a key that is not held is suppressed, a repeat is delivered
only for a key that is, and a fresh press makes the set of held keys grow. -/
def key (s : Server) (usage : UInt32) (pressed : Bool) (modifiers : UInt32) (repeat_ : Bool) :
    List Packet × Server :=
  let s := { s with seat := { s.seat with modifiers } }
  match s.seat.keyboardFocus with
  | none => ([], s)
  | some t =>
    let held := s.seat.heldKeys.contains usage
    let send := fun (keys : List UInt32) =>
      emitTo { s with seat := { s.seat with heldKeys := keys } } t.1 t.2
        (.key s.nowNs usage (asU32 pressed) modifiers
          (asU32 (pressed && repeat_)))
    if pressed then
      if repeat_ then if held then send s.seat.heldKeys else ([], s)
      else if held then send s.seat.heldKeys
      else if maxHeldKeys ≤ s.seat.heldKeys.length then s.inputOverflow t.1
      else send (s.seat.heldKeys ++ [usage])
    else if held then send (s.seat.heldKeys.filter (· != usage))
    else ([], s)

def textInput (s : Server) (text : List Char) : List Packet × Server :=
  match s.seat.keyboardFocus with
  | none => ([], s)
  | some t =>
    if text.isEmpty || maxTextBytes < (utf8 text).length then ([], s)
    else s.emitTo t.1 t.2 (.textInput s.nowNs text)

end Server

end DunitOS.Gui
