import DunitOS.SysLib.Bytes
import DunitOS.SysLib.Prog

/-!
# The wire format of the GUI protocol

The packets of `protocols/gui-v1/src/wire.rs`. A packet is a header of 32 bytes and a
payload whose layout depends on the opcode; all integers are little-endian. The server
reads a packet in two stages, the header with `Header.decode`, which checks
the framing, and the payload with `Request.decode`, which reads the fields of
the opcode through a cursor and requires that nothing is left. What the server sends is
written by `Event.encode`.

A string of the source is the list of its characters, and its bytes are their UTF-8
encoding.
-/

namespace DunitOS.Gui

open SysLib

/-! ### Constants -/

/-- `DGUI` as a little-endian word. -/
def magic : UInt32 := 0x49554744

abbrev headerLen : ℕ := 32

abbrev minPacket : ℕ := 32

abbrev maxPacket : ℕ := 256

def versionMajor : UInt16 := 1

def versionMinor : UInt16 := 0

def featureArgb8888 : UInt64 := 1

def formatXrgb8888 : UInt32 := 1

def formatArgb8888 : UInt32 := 2

/-- The `formats` bits reported in WELCOME. -/
def formatsXrgb8888 : UInt32 := 1

def formatsArgb8888 : UInt32 := 2

def roleToplevel : UInt32 := 1

/-- The opcodes reserved for the window-manager policy endpoint. -/
def policyOpcodeLo : UInt16 := 0x1000

def policyOpcodeHi : UInt16 := 0x1fff

def dimMin : UInt32 := 1

def dimMax : UInt32 := 4096

def maxDamageRects : UInt32 := 8

/-! ### Error codes and opcodes -/

inductive ErrorCode
  | malformed
  | versionMismatch
  | badOpcode
  | badState
  | staleObject
  | wrongObjectType
  | badSerial
  | badValue
  | unsupported
  | accessDenied
  | outOfBounds
  | busy
  | limitExceeded
  | noMemory
  | slowClient
  | internal
  deriving DecidableEq, Repr

def ErrorCode.code : ErrorCode → UInt32
  | .malformed => 1
  | .versionMismatch => 2
  | .badOpcode => 3
  | .badState => 4
  | .staleObject => 5
  | .wrongObjectType => 6
  | .badSerial => 7
  | .badValue => 8
  | .unsupported => 9
  | .accessDenied => 10
  | .outOfBounds => 11
  | .busy => 12
  | .limitExceeded => 13
  | .noMemory => 14
  | .slowClient => 15
  | .internal => 16

/-- The opcodes of both directions. -/
inductive Opcode
  | hello
  | disconnect
  | createSurface
  | destroySurface
  | setTitle
  | setAppId
  | ackConfigure
  | importBuffer
  | destroyBuffer
  | attachBuffer
  | commit
  | welcome
  | result
  | error
  | configure
  | requestClose
  | bufferRelease
  | frameDone
  | pointerEnter
  | pointerLeave
  | pointerMotion
  | pointerButton
  | pointerAxis
  | keyEnter
  | keyLeave
  | key
  | textInput
  deriving DecidableEq, Repr

namespace Opcode

def raw : Opcode → UInt16
  | hello => 0x0001
  | disconnect => 0x0002
  | createSurface => 0x0010
  | destroySurface => 0x0011
  | setTitle => 0x0012
  | setAppId => 0x0013
  | ackConfigure => 0x0014
  | importBuffer => 0x0020
  | destroyBuffer => 0x0021
  | attachBuffer => 0x0022
  | commit => 0x0023
  | welcome => 0x8001
  | result => 0x8002
  | error => 0x8003
  | configure => 0x8010
  | requestClose => 0x8011
  | bufferRelease => 0x8020
  | frameDone => 0x8021
  | pointerEnter => 0x8030
  | pointerLeave => 0x8031
  | pointerMotion => 0x8032
  | pointerButton => 0x8033
  | pointerAxis => 0x8034
  | keyEnter => 0x8040
  | keyLeave => 0x8041
  | key => 0x8042
  | textInput => 0x8043

/-- Recognise an opcode. -/
def fromU16 (v : UInt16) : Option Opcode :=
  if v = 0x0001 then some hello
  else if v = 0x0002 then some disconnect
  else if v = 0x0010 then some createSurface
  else if v = 0x0011 then some destroySurface
  else if v = 0x0012 then some setTitle
  else if v = 0x0013 then some setAppId
  else if v = 0x0014 then some ackConfigure
  else if v = 0x0020 then some importBuffer
  else if v = 0x0021 then some destroyBuffer
  else if v = 0x0022 then some attachBuffer
  else if v = 0x0023 then some commit
  else if v = 0x8001 then some welcome
  else if v = 0x8002 then some result
  else if v = 0x8003 then some error
  else if v = 0x8010 then some configure
  else if v = 0x8011 then some requestClose
  else if v = 0x8020 then some bufferRelease
  else if v = 0x8021 then some frameDone
  else if v = 0x8030 then some pointerEnter
  else if v = 0x8031 then some pointerLeave
  else if v = 0x8032 then some pointerMotion
  else if v = 0x8033 then some pointerButton
  else if v = 0x8034 then some pointerAxis
  else if v = 0x8040 then some keyEnter
  else if v = 0x8041 then some keyLeave
  else if v = 0x8042 then some key
  else if v = 0x8043 then some textInput
  else none

/-- Whether the opcode goes from the client to the server. -/
def isRequest (op : Opcode) : Bool := op.raw &&& 0x8000 == 0

theorem fromU16_raw (op : Opcode) : fromU16 op.raw = some op := by
  cases op <;> decide

/-- One row of the table of opcodes. -/
theorem row_cases {v w : UInt16} {a op : Opcode} {rest : Option Opcode}
    (h : (if v = w then some a else rest) = some op) : (v = w ∧ a = op) ∨ rest = some op := by
  by_cases hv : v = w
  · rw [if_pos hv] at h
    exact Or.inl ⟨hv, Option.some.inj h⟩
  · rw [if_neg hv] at h
    exact Or.inr h

/-- **An opcode is recognised by its number alone.** -/
theorem raw_of_fromU16 {v : UInt16} {op : Opcode} (h : fromU16 v = some op) : op.raw = v := by
  rw [fromU16] at h
  iterate 27
    obtain ⟨rfl, rfl⟩ | h := row_cases h
    · rfl
  cases h

end Opcode

/-! ### Decode errors and fixed-width reads -/

/-- A decode failure with the protocol error it maps to. -/
structure WireError where
  code : ErrorCode
  reason : String
  deriving DecidableEq, Repr

def WireError.malformed (reason : String) : WireError := ⟨.malformed, reason⟩

def WireError.badValue (reason : String) : WireError := ⟨.badValue, reason⟩

def rdU16 (b : List UInt8) (off : ℕ) : UInt16 := UInt16.ofNat (getLe b off 2)

def rdU32 (b : List UInt8) (off : ℕ) : UInt32 := UInt32.ofNat (getLe b off 4)

def rdU64 (b : List UInt8) (off : ℕ) : UInt64 := UInt64.ofNat (getLe b off 8)

/-! ### The header -/

structure Header where
  major : UInt16
  minor : UInt16
  opcodeRaw : UInt16
  size : UInt32
  object : UInt64
  serial : UInt64
  deriving DecidableEq, Repr

/-- Decode the header of a packet and check its framing. -/
def Header.decode (packet : List UInt8) : Except WireError Header :=
  if packet.length < headerLen then .error (.malformed "short header")
  else if packet.length < minPacket ∨ maxPacket < packet.length then
    .error (.malformed "packet length out of range")
  else if rdU32 packet 0 ≠ magic then .error (.malformed "bad magic")
  else if rdU16 packet 10 ≠ 0 then .error (.malformed "nonzero flags")
  else if (rdU32 packet 12).toNat ≠ packet.length then
    .error (.malformed "size mismatch / trailing bytes")
  else .ok
    { major := rdU16 packet 4
      minor := rdU16 packet 6
      opcodeRaw := rdU16 packet 8
      size := rdU32 packet 12
      object := rdU64 packet 16
      serial := rdU64 packet 24 }

/-! ### The cursor over a payload -/

structure Cursor where
  b : List UInt8
  pos : ℕ

/-- A method of the cursor. -/
abbrev CursorM := Prog Cursor WireError

namespace Cursor

/-- The next `n` bytes. The checked addition of the source cannot fail: a position in a
slice and a 16-bit length do not reach the width of `usize`. -/
def take (n : ℕ) : CursorM (List UInt8) := fun c =>
  if c.b.length < c.pos + n then (.error (.malformed "payload truncated"), c)
  else (.ok (slice c.b c.pos n), { c with pos := c.pos + n })

def u16 : CursorM UInt16 := do
  let s ← take 2
  pure (rdU16 s 0)

def u32 : CursorM UInt32 := do
  let s ← take 4
  pure (rdU32 s 0)

def u64 : CursorM UInt64 := do
  let s ← take 8
  pure (rdU64 s 0)

def i32 : CursorM Int32 := do
  let v ← u32
  pure v.toInt32

/-- A reserved field: present on the wire, and zero. -/
def reservedU32 : CursorM Unit := do
  let v ← u32
  Prog.refuse (v != 0) (.malformed "nonzero reserved")

/-- A string: its length in bytes, then as many bytes of UTF-8 without a NUL. -/
def takeStr : CursorM (List Char) := do
  let len ← u16
  let bytes ← take len.toNat
  Prog.refuse (bytes.contains 0) (.badValue "NUL in string")
  match fromUtf8 bytes with
  | some s => pure s
  | none => Prog.stop (.badValue "invalid UTF-8")

/-- Nothing may be left. -/
def finish : CursorM Unit := do
  let c ← Prog.get
  Prog.refuse (c.pos != c.b.length) (.malformed "trailing payload bytes")

end Cursor

/-! ### Requests -/

structure Rect where
  x : Int32
  y : Int32
  w : UInt32
  h : UInt32
  deriving DecidableEq, Repr

/-- A client request, structurally valid. -/
inductive Request
  | hello (minMinor maxMinor : UInt16) (offeredFeatures requiredFeatures : UInt64)
  | disconnect
  | createSurface (role width height format : UInt32)
  | destroySurface
  | setTitle (title : List Char)
  | setAppId (appId : List Char)
  | ackConfigure (configure : UInt64)
  | importBuffer (width height stride format : UInt32) (offset : UInt64)
  | destroyBuffer
  | attachBuffer (buffer : UInt64) (damage : List Rect)
  | commit (configure : UInt64) (frameCallback : UInt32)
  deriving DecidableEq, Repr

namespace Cursor

def rect : CursorM Rect := do
  let x ← i32
  let y ← i32
  let w ← u32
  let h ← u32
  pure ⟨x, y, w, h⟩

/-- The loop over the damage rectangles. -/
def rects : ℕ → CursorM (List Rect)
  | 0 => pure []
  | n + 1 => do
    let r ← rect
    let rs ← rects n
    pure (r :: rs)

/-- The fields of a request, by opcode. -/
def request : Opcode → CursorM Request
  | .hello => do
    let minMinor ← u16
    let maxMinor ← u16
    reservedU32
    let offeredFeatures ← u64
    let requiredFeatures ← u64
    pure (.hello minMinor maxMinor offeredFeatures requiredFeatures)
  | .disconnect => pure .disconnect
  | .createSurface => do
    let role ← u32
    let width ← u32
    let height ← u32
    let format ← u32
    pure (.createSurface role width height format)
  | .destroySurface => pure .destroySurface
  | .setTitle => do
    let s ← takeStr
    pure (.setTitle s)
  | .setAppId => do
    let s ← takeStr
    pure (.setAppId s)
  | .ackConfigure => do
    let configure ← u64
    pure (.ackConfigure configure)
  | .importBuffer => do
    let width ← u32
    let height ← u32
    let stride ← u32
    let format ← u32
    let offset ← u64
    pure (.importBuffer width height stride format offset)
  | .destroyBuffer => pure .destroyBuffer
  | .attachBuffer => do
    let buffer ← u64
    let damageCount ← u32
    reservedU32
    let damage ← rects damageCount.toNat
    pure (.attachBuffer buffer damage)
  | .commit => do
    let configure ← u64
    let frameCallback ← u32
    reservedU32
    pure (.commit configure frameCallback)
  | _ => Prog.stop ⟨.badOpcode, "not a request opcode"⟩

end Cursor

namespace Request

/-- Decode the payload of a request whose opcode is known. -/
def decode (opcode : Opcode) (payload : List UInt8) : Except WireError Request :=
  if opcode.isRequest = false then .error ⟨.badOpcode, "not a request opcode"⟩
  else
    ((do
      let req ← Cursor.request opcode
      Cursor.finish
      pure req : CursorM Request) ⟨payload, 0⟩).1

def opcode : Request → Opcode
  | hello .. => .hello
  | disconnect => .disconnect
  | createSurface .. => .createSurface
  | destroySurface => .destroySurface
  | setTitle _ => .setTitle
  | setAppId _ => .setAppId
  | ackConfigure _ => .ackConfigure
  | importBuffer .. => .importBuffer
  | destroyBuffer => .destroyBuffer
  | attachBuffer .. => .attachBuffer
  | commit .. => .commit

end Request

/-! ### Writing a packet -/

namespace Writer

/-- The header, with the size still zero. -/
def header (opcode : Opcode) (object serial : UInt64) : List UInt8 :=
  leBytes 4 magic.toNat ++ leBytes 2 versionMajor.toNat ++ leBytes 2 versionMinor.toNat ++
    leBytes 2 opcode.raw.toNat ++ leBytes 2 0 ++ leBytes 4 0 ++ leBytes 8 object.toNat ++
    leBytes 8 serial.toNat

def u16 (v : UInt16) : List UInt8 := leBytes 2 v.toNat

def u32 (v : UInt32) : List UInt8 := leBytes 4 v.toNat

def i32 (v : Int32) : List UInt8 := leBytes 4 v.toUInt32.toNat

def u64 (v : UInt64) : List UInt8 := leBytes 8 v.toNat

def reservedU32 : List UInt8 := u32 0

def str (s : List Char) : List UInt8 := u16 (UInt16.ofNat (utf8 s).length) ++ utf8 s

def rect (r : Rect) : List UInt8 := i32 r.x ++ i32 r.y ++ u32 r.w ++ u32 r.h

/-- Set the size of the packet. -/
def finish (buf : List UInt8) : List UInt8 := putLe buf 12 4 (UInt32.ofNat buf.length).toNat

end Writer

open Writer in
def Request.payload : Request → List UInt8
  | hello minMinor maxMinor offeredFeatures requiredFeatures =>
    u16 minMinor ++ u16 maxMinor ++ reservedU32 ++ u64 offeredFeatures ++ u64 requiredFeatures
  | disconnect | destroySurface | destroyBuffer => []
  | createSurface role width height format => u32 role ++ u32 width ++ u32 height ++ u32 format
  | setTitle s | setAppId s => str s
  | ackConfigure configure => u64 configure
  | importBuffer width height stride format offset =>
    u32 width ++ u32 height ++ u32 stride ++ u32 format ++ u64 offset
  | attachBuffer buffer damage =>
    u64 buffer ++ u32 (UInt32.ofNat damage.length) ++ reservedU32 ++ damage.flatMap rect
  | commit configure frameCallback => u64 configure ++ u32 frameCallback ++ reservedU32

/-- A whole request packet. -/
def Request.encode (req : Request) (object serial : UInt64) : List UInt8 :=
  Writer.finish (Writer.header req.opcode object serial ++ req.payload)

/-! ### Replies and events -/

/-- What the server sends. -/
inductive Event
  | welcome (request clientId features : UInt64) (formats : UInt32)
  | result (request : UInt64)
  | error (request : UInt64) (code fatal : UInt32)
  | configure (width height scale state : UInt32)
  | requestClose
  | bufferRelease (commit : UInt64)
  | frameDone (commit timeNs : UInt64) (status : UInt32)
  | pointerEnter (x y : Int32)
  | pointerLeave
  | pointerMotion (timeNs : UInt64) (x y : Int32)
  | pointerButton (timeNs : UInt64) (button pressed : UInt32)
  | pointerAxis (timeNs : UInt64) (dx dy : Int32)
  | keyEnter (modifiers : UInt32)
  | keyLeave
  | key (timeNs : UInt64) (usage pressed modifiers repeat_ : UInt32)
  | textInput (timeNs : UInt64) (text : List Char)
  deriving DecidableEq, Repr

namespace Event

def opcode : Event → Opcode
  | welcome .. => .welcome
  | result _ => .result
  | error .. => .error
  | configure .. => .configure
  | requestClose => .requestClose
  | bufferRelease _ => .bufferRelease
  | frameDone .. => .frameDone
  | pointerEnter .. => .pointerEnter
  | pointerLeave => .pointerLeave
  | pointerMotion .. => .pointerMotion
  | pointerButton .. => .pointerButton
  | pointerAxis .. => .pointerAxis
  | keyEnter _ => .keyEnter
  | keyLeave => .keyLeave
  | key .. => .key
  | textInput .. => .textInput

open Writer in
def payload : Event → List UInt8
  | welcome request clientId features formats =>
    u64 request ++ u64 clientId ++ u64 features ++ u32 formats ++ reservedU32
  | result request => u64 request
  | error request code fatal => u64 request ++ u32 code ++ u32 fatal
  | configure width height scale state => u32 width ++ u32 height ++ u32 scale ++ u32 state
  | requestClose | pointerLeave | keyLeave => []
  | bufferRelease commit => u64 commit
  | frameDone commit timeNs status => u64 commit ++ u64 timeNs ++ u32 status ++ reservedU32
  | pointerEnter x y => i32 x ++ i32 y
  | pointerMotion timeNs x y => u64 timeNs ++ i32 x ++ i32 y
  | pointerButton timeNs button pressed => u64 timeNs ++ u32 button ++ u32 pressed
  | pointerAxis timeNs dx dy => u64 timeNs ++ i32 dx ++ i32 dy
  | keyEnter modifiers => u32 modifiers ++ reservedU32
  | key timeNs usage pressed modifiers repeat_ =>
    u64 timeNs ++ u32 usage ++ u32 pressed ++ u32 modifiers ++ u32 repeat_
  | textInput timeNs text => u64 timeNs ++ str text

/-- A whole reply or event packet. -/
def encode (ev : Event) (object serial : UInt64) : List UInt8 :=
  Writer.finish (Writer.header ev.opcode object serial ++ ev.payload)

end Event

end DunitOS.Gui
