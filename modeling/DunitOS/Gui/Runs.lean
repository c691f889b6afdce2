import DunitOS.Gui.Server
import DunitOS.SysLib.Trace

/-!
# Runs of the GUI server

A run is a sequence of calls of the server's public methods with the values they return.
`Server.exec` makes one call, `run` makes the calls of a list on a
new server and keeps what was seen: each call, the connection it opened, the connections
it closed and the packets it returned.

What one connection has lived through is read off such a record by `life`:
the requests that were accepted and refused, the packets that were sent and the
composition ticks, since the connection was opened. Connection ids are handed out in
order and wrap, so that one id can name several connections, one after the other.
-/

namespace DunitOS.Gui

open SysLib Std List

/-! ### Calls -/

/-- A call of a public method of the server. -/
inductive Call
  | connect
  | disconnectPeer (conn : ConnId)
  | tick (nowNs : UInt64)
  | deliver (conn : ConnId) (packet : List UInt8) (cap : Option UInt64)
  | composite
  | reconfigure (conn : ConnId) (surface : ObjectId) (width height scale state : UInt32)
  | setPointerFocus (target : Option Target) (x y : Int32)
  | pointerMotion (x y : Int32)
  | pointerButton (button : UInt32) (pressed : Bool)
  | pointerAxis (dx dy : Int32)
  | setKeyboardFocus (target : Option Target) (modifiers : UInt32)
  | key (usage : UInt32) (pressed : Bool) (modifiers : UInt32) (repeat_ : Bool)
  | textInput (text : List Char)
  deriving DecidableEq, Repr

/-- A call that does nothing to a connection but send packets on it. -/
def Call.isPlain : Call → Bool
  | connect | disconnectPeer _ | tick _ | deliver .. | composite => false
  | _ => true

/-- A call and what it returned. -/
structure Seen where
  call : Call
  opened : Option ConnId
  closed : List ConnId
  sent : List Packet
  deriving DecidableEq, Repr

/-- A call that returns packets. -/
def Seen.ofPackets (call : Call) (r : List Packet × Server) : Seen × Server :=
  (⟨call, none, [], r.1⟩, r.2)

/-- Make one call. -/
def Server.exec (s : Server) (call : Call) : Seen × Server :=
  match call with
  | .connect => (⟨call, s.connect.1, [], []⟩, s.connect.2)
  | .disconnectPeer conn => (⟨call, none, [], []⟩, s.disconnectPeer conn)
  | .tick nowNs => (⟨call, none, (s.tick nowNs).1, []⟩, (s.tick nowNs).2)
  | .deliver conn packet cap => Seen.ofPackets call (s.deliver conn packet cap)
  | .composite => Seen.ofPackets call s.composite
  | .reconfigure conn surface width height scale state =>
    Seen.ofPackets call (s.reconfigure conn surface width height scale state)
  | .setPointerFocus target x y => Seen.ofPackets call (s.setPointerFocus target x y)
  | .pointerMotion x y => Seen.ofPackets call (s.pointerMotion x y)
  | .pointerButton button pressed => Seen.ofPackets call (s.pointerButton button pressed)
  | .pointerAxis dx dy => Seen.ofPackets call (s.pointerAxis dx dy)
  | .setKeyboardFocus target modifiers => Seen.ofPackets call (s.setKeyboardFocus target modifiers)
  | .key usage pressed modifiers repeat_ =>
    Seen.ofPackets call (s.key usage pressed modifiers repeat_)
  | .textInput text => Seen.ofPackets call (s.textInput text)

/-- Make a call and add it to the record. -/
def extend (r : List Seen × Server) (call : Call) : List Seen × Server :=
  (r.1 ++ [(r.2.exec call).1], (r.2.exec call).2)

/-- Make the calls of a list, from a record and a server. -/
def runFrom (r : List Seen × Server) (calls : List Call) : List Seen × Server :=
  calls.foldl extend r

/-- **A run**: the calls of a list on a new server. -/
def run (calls : List Call) : List Seen × Server := runFrom ([], Server.new) calls

theorem runFrom_append (r : List Seen × Server) (calls calls' : List Call) :
    runFrom r (calls ++ calls') = runFrom (runFrom r calls) calls' := foldl_append

theorem run_append (calls calls' : List Call) :
    run (calls ++ calls') = runFrom (run calls) calls' := runFrom_append _ calls calls'

theorem runFrom_cons (r : List Seen × Server) (call : Call) (calls : List Call) :
    runFrom r (call :: calls) = runFrom (extend r call) calls := rfl

/-- What was recorded before has no say in what follows. -/
theorem runFrom_eq (t : List Seen) (s : Server) (calls : List Call) :
    runFrom (t, s) calls = (t ++ (runFrom ([], s) calls).1, (runFrom ([], s) calls).2) := by
  induction calls generalizing t s with
  | nil => simp [runFrom]
  | cons call calls ih =>
    rw [runFrom_cons, runFrom_cons, extend, extend, ih, ih ([] ++ _)]
    simp

theorem runFrom_nil_cons (s : Server) (call : Call) (calls : List Call) :
    runFrom ([], s) (call :: calls) = ((s.exec call).1 :: (runFrom ([], (s.exec call).2) calls).1,
        (runFrom ([], (s.exec call).2) calls).2) := by
  rw [runFrom_cons, extend, runFrom_eq]
  rfl

/-- **The induction along a run**: what holds of a new server and is kept by every call
holds throughout. -/
theorem run_induct {P : List Seen → Server → Prop} (hnew : P [] Server.new)
    (hstep : ∀ t s call, P t s → P (t ++ [(s.exec call).1]) (s.exec call).2)
    (calls : List Call) : P (run calls).1 (run calls).2 := by
  induction calls using reverseRecOn with
  | nil => exact hnew
  | append_singleton calls call ih =>
    rw [run_append]
    exact hstep _ _ call ih

/-- Every call is made in a state that a condition admits it in. -/
def EveryCall (ok : Server → Call → Prop) : Server → List Call → Prop
  | _, [] => True
  | s, call :: calls => ok s call ∧ EveryCall ok (s.exec call).2 calls

instance decidableEveryCall (ok : Server → Call → Prop) [∀ s call, Decidable (ok s call)] :
    ∀ (s : Server) (calls : List Call), Decidable (EveryCall ok s calls)
  | _, [] => .isTrue trivial
  | s, call :: calls =>
    have := decidableEveryCall ok (s.exec call).2 calls
    inferInstanceAs (Decidable (ok s call ∧ EveryCall ok (s.exec call).2 calls))

/-- **The induction along a run whose calls meet a condition.** -/
theorem everyCall_induct {P : List Seen → Server → Prop} {ok : Server → Call → Prop}
    (hstep : ∀ t s call, P t s → ok s call → P (t ++ [(s.exec call).1]) (s.exec call).2)
    (calls : List Call) {t : List Seen} {s : Server} (h : P t s) (hok : EveryCall ok s calls) :
    P (runFrom (t, s) calls).1 (runFrom (t, s) calls).2 := by
  induction calls generalizing t s with
  | nil => exact h
  | cons call calls ih => exact ih (hstep t s call h hok.1) hok.2

/-- **A condition for another**, along a run that keeps an invariant. -/
theorem EveryCall.imp {ok ok' : Server → Call → Prop} {I : Server → Prop}
    (hstep : ∀ s call, I s → ok s call → ok' s call ∧ I (s.exec call).2) {calls : List Call}
    {s : Server} (hs : I s) (h : EveryCall ok s calls) : EveryCall ok' s calls := by
  induction calls generalizing s with
  | nil => trivial
  | cons call calls ih =>
    obtain ⟨hok', hs'⟩ := hstep s call hs h.1
    exact ⟨hok', ih hs' h.2⟩

/-! ### The life of a connection -/

/-- Something that happened on a connection. -/
inductive Item
  /-- A request was answered with RESULT or WELCOME. -/
  | accepted (header : Header) (req : Request)
  /-- A packet was answered with an ERROR. -/
  | refused (packet : List UInt8)
  /-- A composition tick; the frame callbacks it completes follow. -/
  | composite
  /-- The connection was taken off the server. -/
  | removed
  | sent (p : Packet)
  deriving DecidableEq, Repr

/-- The request a packet carries, if it is well formed. -/
def readRequest (packet : List UInt8) : Option (Header × Request) :=
  match Header.decode packet with
  | .ok header => match Opcode.fromU16 header.opcodeRaw with
    | some op => match Request.decode op (packet.drop headerLen) with
      | .ok req => some (header, req)
      | .error _ => none
    | none => none
  | .error _ => none

/-- Whether an event answers a request in the affirmative. -/
def Event.isSuccess : Event → Bool
  | .welcome .. | .result _ => true
  | _ => false

/-- How a packet was received, to judge by what was sent in return. -/
def received (packet : List UInt8) (sent : List Packet) : List Item :=
  if sent.isEmpty then []
  else if sent.any fun p => p.event.isSuccess then
    match readRequest packet with
    | some (header, req) => [.accepted header req]
    | none => []
  else [.refused packet]

/-- What a call means for a connection. -/
def Seen.items (k : ConnId) (o : Seen) : List Item :=
  (match o.call with
    | .deliver conn packet _ => if conn = k then received packet o.sent else []
    | .composite => [.composite]
    | .disconnectPeer conn => if conn = k then [.removed] else []
    | .tick _ => if k ∈ o.closed then [.removed] else []
    | _ => []) ++
  (o.sent.filter fun p => p.conn = k).map Item.sent

/-- One more call in the life of a connection; to be opened is to start anew. -/
def live (k : ConnId) (l : List Item) (o : Seen) : List Item :=
  if o.opened = some k then [] else l ++ o.items k

/-- **What has happened on a connection** since it was opened. The ids of connections wrap: when
an id is handed out again, the connection that had it counts as ended here, and its life starts
anew, even if it was still open. -/
def life (k : ConnId) (t : List Seen) : List Item := t.foldl (live k) []

@[simp] theorem life_nil (k : ConnId) : life k [] = [] := rfl

theorem life_snoc (k : ConnId) (t : List Seen) (o : Seen) :
    life k (t ++ [o]) = if o.opened = some k then [] else life k t ++ o.items k := by
  rw [life, foldl_append]
  rfl

/-- As long as a connection is not opened anew its life goes on. -/
theorem life_append {k : ConnId} (t : List Seen) {t' : List Seen}
    (h : ∀ o ∈ t', o.opened ≠ some k) :
    life k (t ++ t') = life k t ++ t'.flatMap (Seen.items k) := by
  induction t' generalizing t with
  | nil => simp
  | cons o t' ih =>
    rw [append_cons, ih _ fun o' ho' => h o' (mem_cons_of_mem _ ho'), life_snoc,
      if_neg (h o mem_cons_self), flatMap_cons, append_assoc]

/-- What happened before a connection was opened is forgotten. -/
theorem life_of_opened {k : ConnId} {o : Seen} (h : o.opened = some k) (t t' : List Seen) :
    life k (t ++ o :: t') = life k (o :: t') := by
  rw [life, foldl_append, foldl_cons, life, foldl_cons, live, live, if_pos h, if_pos h]

/-! ### A client -/

/-- A request, as a client sends it. -/
def Call.request (conn : ConnId) (object serial : UInt64) (req : Request)
    (cap : Option UInt64 := none) : Call :=
  .deliver conn (req.encode object serial) cap

/-- The first client shows a buffer on a surface. -/
def firstFrame : List Call :=
  [.connect, .request 1 0 1 (.hello 0 0 0 0), .request 1 1 2 (.createSurface 1 16 16 1),
    .request 1 2 3 (.importBuffer 16 16 64 1 0) (some 4096), .request 1 1 4 (.ackConfigure 3),
    .request 1 1 5 (.attachBuffer 2 []), .request 1 1 6 (.commit 3 1)]

/-- The first client takes its frame down, and asks for the surface again. -/
def lastFrame : List Call :=
  firstFrame ++ [.request 1 1 7 .destroySurface, .request 1 2 8 .destroyBuffer,
    .request 1 1 9 (.setTitle []), .request 1 1 10 (.createSurface 1 16 16 1)]

end DunitOS.Gui
