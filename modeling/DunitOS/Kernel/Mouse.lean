import Mathlib.Algebra.Order.Ring.Int
import Mathlib.Data.List.Basic

/-!
# Packets of the mouse

The driver of `kernel/src/drivers/mouse.rs` collects the bytes of a PS/2 packet and pushes one event
for each packet, which moves the pointer of `kernel/src/input/mod.rs`. In a packet a displacement
has nine bits: eight in a byte of its own and the sign in the first byte. The driver does not look
at the sign: it takes the byte itself for a signed number.

`feed_iff` says that the events and the position are the right ones just if every
displacement of the stream fits into a signed byte.
-/

namespace DunitOS.Pointer

open List

/-! ### The code -/

structure MouseEvent where
  (x y dx dy : ℤ)
  buttons : UInt8
  wheel : ℤ
  absolute : Bool

/-- The driver with the bytes it has collected, the pointer and the events that were pushed. -/
structure Mouse where
  packetSize : ℕ
  bytes : List UInt8 := []
  (x y : ℤ)
  (maxX maxY : Int32)
  buttons : UInt8 := 0
  wheelDelta : Int32 := 0
  events : List MouseEvent := []

def saturatingAdd (a b : ℤ) : ℤ := max (-2 ^ 31) (min (a + b) (2 ^ 31 - 1))

def clampMouse (v : ℤ) (bound : Int32) : ℤ := min (max v 0) bound.toInt

/-- The pointer is at a new position, and an event says so. -/
def Mouse.moved (m : Mouse) (x y : ℤ) (d : ℤ × ℤ) (buttons : UInt8) (wheel : ℤ) : Mouse :=
  { m with
    x := x
    y := y
    buttons := buttons
    wheelDelta := if wheel = 0 then m.wheelDelta else m.wheelDelta + Int32.ofInt wheel
    events := m.events ++ [⟨x, y, d.1, d.2, buttons, wheel, false⟩] }

def pushMouseRelative (m : Mouse) (d : ℤ × ℤ) : UInt8 → ℤ → Mouse :=
  m.moved (clampMouse (saturatingAdd m.x d.1) m.maxX) (clampMouse (saturatingAdd m.y d.2) m.maxY) d

/-- The low four bits of the fourth byte, as a signed number. -/
def wheelOf (bytes : List UInt8) : ℤ :=
  let raw := bytes.getD 3 0 &&& 0x0f
  if bytes.length ≠ 4 then 0
  else if raw &&& 0x08 ≠ 0 then (raw ||| 0xf0).toInt8.toInt else raw.toNat

/-- `push_packet_byte_locked`. -/
def pushPacketByte (m : Mouse) (byte : UInt8) : Mouse :=
  if m.bytes = [] ∧ byte &&& 0x08 = 0 then m else
    let bytes := m.bytes ++ [byte]
    if bytes.length = m.packetSize then
      pushMouseRelative { m with bytes := [] }
        ((bytes.getD 1 0).toInt8.toInt, -(bytes.getD 2 0).toInt8.toInt) (bytes.getD 0 0 &&& 0x07)
        (wheelOf bytes)
    else { m with bytes := bytes }

def feed (m : Mouse) (stream : List UInt8) : Mouse := stream.foldl pushPacketByte m

/-! ### Packets -/

/-- **A packet**: bit 3 of the first byte is set and the overflow bits are clear. -/
structure Packet (size : ℕ) where
  (first moveX moveY : UInt8)
  rest : List UInt8
  first_bit : first &&& 0x08 ≠ 0
  no_overflow : first &&& 0xc0 = 0
  length_rest : rest.length + 3 = size

variable {size : ℕ}

def Packet.bytes (p : Packet size) : List UInt8 := p.first :: p.moveX :: p.moveY :: p.rest

/-- The nine-bit number with a sign and eight bits. -/
def nineBits (sign : Bool) (data : UInt8) : ℤ := if sign then data.toNat - 256 else data.toNat

/-- The displacement on the screen, where y points down. -/
def Packet.dx (p : Packet size) : ℤ := nineBits (p.first &&& 0x10 != 0) p.moveX

def Packet.dy (p : Packet size) : ℤ := -nineBits (p.first &&& 0x20 != 0) p.moveY

/-- A packet that is taken for some displacement: one event, and the pointer moves by it and is
clamped to the screen. -/
def Packet.moveBy (d : Packet size → ℤ × ℤ) (m : Mouse) (p : Packet size) : Mouse :=
  m.moved (clampMouse (m.x + (d p).1) m.maxX) (clampMouse (m.y + (d p).2) m.maxY) (d p)
    (p.first &&& 0x07) (wheelOf p.bytes)

/-- **What a packet means.** -/
def Packet.move : Mouse → Packet size → Mouse := moveBy fun p => (p.dx, p.dy)

/-- Both displacements fit into a signed byte. -/
def Packet.Fits (p : Packet size) : Prop :=
  (-128 ≤ p.dx ∧ p.dx < 128) ∧ -128 ≤ -p.dy ∧ -p.dy < 128

/-! ### One packet -/

theorem nineBits_eq_iff (sign : Bool) (data : UInt8) : data.toInt8.toInt = nineBits sign data ↔
      -128 ≤ nineBits sign data ∧ nineBits sign data < 128 := by
  have := data.toNat_lt
  change data.toBitVec.toInt = _ ↔ _
  rw [BitVec.toInt_eq_toNat_cond, UInt8.toNat_toBitVec, nineBits]
  grind

/-- A sum that is clamped to the screen does not saturate before. -/
theorem clampMouse_saturatingAdd (a b : ℤ) (bound : Int32) :
    clampMouse (saturatingAdd a b) bound = clampMouse (a + b) bound := by
  have := bound.toInt_lt
  unfold clampMouse saturatingAdd
  omega

/-- What the driver takes for the displacement. -/
def Packet.raw (p : Packet size) : ℤ × ℤ := (p.moveX.toInt8.toInt, -p.moveY.toInt8.toInt)

theorem Packet.raw_eq_iff (p : Packet size) : p.raw = (p.dx, p.dy) ↔ p.Fits := by
  rw [raw, Prod.mk.injEq, Fits, dy, neg_neg, neg_inj, dx, nineBits_eq_iff, nineBits_eq_iff]

theorem feed_bytes {m : Mouse} (p : Packet size) (hsync : m.bytes = [])
    (hm : m.packetSize = size) (hsize : size = 3 ∨ size = 4) :
    feed m p.bytes = Packet.moveBy Packet.raw m p := by
  obtain ⟨first, moveX, moveY, rest, hfirst, -, hrest⟩ := p
  obtain ⟨packetSize, bytes, x, y, maxX, maxY, buttons, wheelDelta, events⟩ := m
  obtain rfl : bytes = [] := hsync
  obtain rfl : packetSize = size := hm
  rw [Packet.moveBy, ← clampMouse_saturatingAdd, ← clampMouse_saturatingAdd]
  rcases hsize with rfl | rfl
  · obtain rfl : rest = [] := length_eq_zero_iff.mp (by omega)
    simp [feed, Packet.bytes, pushPacketByte, hfirst, pushMouseRelative, Packet.raw]
  · obtain ⟨wheel, rfl⟩ := length_eq_one_iff.mp (show rest.length = 1 by omega)
    simp [feed, Packet.bytes, pushPacketByte, hfirst, pushMouseRelative, Packet.raw]

/-! ### Streams -/

theorem displacements_foldl (d : Packet size → ℤ × ℤ) (ps : List (Packet size)) (m : Mouse) :
    (ps.foldl (Packet.moveBy d) m).events.map (fun e => (e.dx, e.dy)) =
      m.events.map (fun e => (e.dx, e.dy)) ++ ps.map d := by
  induction ps generalizing m with
  | nil => rw [foldl_nil, map_nil, append_nil]
  | cons p ps ih =>
    rw [foldl_cons, ih, Packet.moveBy, Mouse.moved, map_append, append_assoc]
    rfl

theorem feed_flatMap {m : Mouse} (ps : List (Packet size)) (hsync : m.bytes = [])
    (hm : m.packetSize = size) (hsize : size = 3 ∨ size = 4) :
    feed m (ps.flatMap Packet.bytes) = ps.foldl (Packet.moveBy Packet.raw) m := by
  induction ps generalizing m with
  | nil => rfl
  | cons p ps ih =>
    rw [flatMap_cons, feed, foldl_append, ← feed, ← feed, feed_bytes p hsync hm hsize]
    exact ih hsync hm

/-- **When the mouse is decoded**: from a synchronised state the packets of a stream give one event
each, with their displacement, and move the pointer by it, just if every displacement fits into a
signed byte. -/
theorem feed_iff (m : Mouse) (hsync : m.bytes = []) (hsize : m.packetSize = 3 ∨ m.packetSize = 4)
    (ps : List (Packet m.packetSize)) :
    feed m (ps.flatMap Packet.bytes) = ps.foldl Packet.move m ↔ ∀ p ∈ ps, p.Fits := by
  simp only [← Packet.raw_eq_iff]
  rw [feed_flatMap ps hsync rfl hsize]
  constructor
  · intro heq
    -- The pointer may be clamped to the same place, but the events that were pushed tell the
    -- displacements apart.
    have hevents := displacements_foldl Packet.raw ps m
    rw [heq, Packet.move, displacements_foldl, append_right_inj] at hevents
    exact fun p hp => (map_inj_left.mp hevents p hp).symm
  · intro hraw
    refine foldl_ext _ _ _ fun m p hp => ?_
    rw [Packet.move, Packet.moveBy, Packet.moveBy, hraw p hp]

/-- A mouse without a wheel in the middle of a screen. -/
def centred : Mouse := { packetSize := 3, x := 512, y := 384, maxX := 1023, maxY := 767 }

/-- A step to the right. -/
def rightBy (data : UInt8) : Packet 3 := ⟨0x08, data, 0, [], by decide, by decide, rfl⟩

theorem feed_iff_slow : (feed centred [0x08, 0x7f, 0]).x = 639 := by
  refine congrArg Mouse.x ((feed_iff centred rfl (.inl rfl) [rightBy 0x7f]).mpr fun p hp => ?_)
  rw [mem_singleton.mp hp]
  unfold Packet.Fits
  decide

/-- **A fast movement goes the wrong way**: 128 counts to the right move the pointer to the left. -/
theorem fast_movement_reversed :
    (feed centred [0x08, 0x80, 0]).x = 384 ∧
      ([rightBy 0x80].foldl Packet.move centred).x = 640 := by
  decide

end DunitOS.Pointer
