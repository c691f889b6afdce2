import DunitOS.SysLib.Machine

/-!
# Events of the keyboard

The driver of `kernel/src/drivers/keyboard.rs` puts each scancode into a ring when it arrives, and
`sys_get_key_event` takes one key out of the ring, of one byte or of two: the byte `0xE0` extends
the next one. If it is the last byte in the ring the call takes it, returns nothing and remembers
nothing, so that the next byte is taken for a key of its own.

`faithful_iff` says when the calls return the events of the stream all the same: if
after each such call the next byte is not a prefix again and makes the same event with and without
one. That is so for the arrows, but not for the keys of the number pad
(`extended_key_types`).
-/

namespace DunitOS.Keys

open SysLib List

/-! ### The driver -/

def scancodeBufferLen : ℕ := 64

/-- The state of the driver: the bytes in the ring, and the modifiers. -/
structure Keyboard where
  buffer : List UInt8 := []
  shiftDown : Bool := false
  ctrlDown : Bool := false
  altDown : Bool := false
  superDown : Bool := false
  extPending : Bool := false
  deriving DecidableEq

/-- Whether a modifier is down after a byte. -/
def held (down up : List UInt8) (scancode : UInt8) (before : Bool) : Bool :=
  if scancode ∈ down then true else if scancode ∈ up then false else before

/-- The modifiers are tracked as the bytes arrive, prefixes included. -/
def pushScancode (kb : Keyboard) (scancode : UInt8) : Keyboard where
  buffer := if kb.buffer.length + 1 < scancodeBufferLen then kb.buffer ++ [scancode] else kb.buffer
  shiftDown := held [0x2a, 0x36] [0xaa, 0xb6] scancode kb.shiftDown
  ctrlDown := held [0x1d] [0x9d] scancode kb.ctrlDown
  altDown := held [0x38] [0xb8] scancode kb.altDown
  superDown :=
    if kb.extPending then held [0x5b, 0x5c] [0xdb, 0xdc] scancode kb.superDown else kb.superDown
  extPending := scancode == 0xe0

def readScancode (kb : Keyboard) : Option UInt8 × Keyboard :=
  match kb.buffer with
  | [] => (none, kb)
  | b :: bs => (some b, { kb with buffer := bs })

def modifierMask (kb : Keyboard) : ℕ :=
  kb.shiftDown.toNat ||| kb.ctrlDown.toNat <<< 1 ||| kb.altDown.toNat <<< 2 |||
    kb.superDown.toNat <<< 3

/-- The rows of the keyboard: the scancode of the first key, and the characters without and with
Shift. -/
def keymap : List (ℕ × List Char × List Char) :=
  [(0x02, "1234567890-=".toList, "!@#$%^&*()_+".toList),
    (0x10, "qwertyuiop[]".toList, "QWERTYUIOP\x7b\x7d".toList),
    (0x1e, "asdfghjkl;'".toList, "ASDFGHJKL:\"".toList),
    (0x2b, "\\zxcvbnm,./".toList, "|ZXCVBNM<>?".toList),
    (0x39, [' '], [' ']), (0x1c, ['\n'], ['\n']), (0x0f, ['\t'], ['\t'])]

def scancodeToChar (shifted : Bool) (scancode : UInt8) : Option Char :=
  keymap.findSome? fun row => if scancode.toNat < row.1 then none
    else (if shifted then row.2.2 else row.2.1)[scancode.toNat - row.1]?

/-! ### Events -/

/-- What `sys_get_key_event` packs into a number, field by field. -/
structure KeyEvent where
  base : UInt8
  pressed : Bool
  mods : ℕ
  ascii : ℕ
  deriving DecidableEq

/-- A key: a scancode, after a prefix or not. -/
structure Key where
  ext : Bool
  code : UInt8
  deriving DecidableEq

/-- The event of a key, with the modifiers at the time of the call. -/
def Key.event (k : Key) (kb : Keyboard) : KeyEvent :=
  let pressed := k.code &&& 0x80 == 0
  let base := k.code &&& 0x7f
  ⟨base, pressed, modifierMask kb,
    if pressed && !k.ext then ((scancodeToChar kb.shiftDown base).map Char.toNat).getD 0 else 0⟩

/-- The key that a call takes out of the ring. -/
def takeKey (kb : Keyboard) : Option Key × Keyboard :=
  match readScancode kb with
  | (none, kb) => (none, kb)
  | (some sc, kb) =>
    if sc = 0xe0 then
      match readScancode kb with
      | (none, kb) => (none, kb)
      | (some next, kb) => (some ⟨true, next⟩, kb)
    else (some ⟨false, sc⟩, kb)

def sysGetKeyEvent (kb : Keyboard) : Option KeyEvent × Keyboard :=
  let (key, kb) := takeKey kb
  (key.map (·.event kb), kb)

/-- **The keys of a stream**, parsed at once, from a prefix on or not. -/
def parse : Bool → List UInt8 → List Key
  | _, [] => []
  | true, b :: bs => ⟨true, b⟩ :: parse false bs
  | false, b :: bs => if b = 0xe0 then parse true bs else ⟨false, b⟩ :: parse false bs

/-- Whether a stream ends with a prefix. -/
def pends : Bool → List UInt8 → Bool
  | ext, [] => ext
  | true, _ :: bs => pends false bs
  | false, b :: bs => pends (b == 0xe0) bs

/-! ### Runs -/

/-- The interrupt handler pushes a byte, or a process asks for an event. -/
inductive Op where
  | push (scancode : UInt8)
  | poll

/-- A run: the driver, the bytes that were pushed, and the keys that calls have taken. A prefix is
*lost* from the call that finds it alone until the next byte is pushed. -/
structure Run where
  kb : Keyboard := {}
  pushed : List UInt8 := []
  keys : List Key := []
  lost : Bool := false

def Run.step (r : Run) : Op → Run
  | .push b =>
    { r with kb := pushScancode r.kb b, pushed := r.pushed ++ [b], lost := false }
  | .poll =>
    { r with
      kb := (takeKey r.kb).2
      keys := r.keys ++ (takeKey r.kb).1.toList
      lost := r.lost || r.kb.buffer == [0xe0] }

def run (ops : List Op) : Run := ops.foldl Run.step {}

/-- **The calls return the events of the stream**: the keys that were taken, followed by those that
are in the ring, make the same events as the keys of the whole stream, whatever the modifiers are
when they are taken. -/
def Faithful (r : Run) : Prop :=
  (r.keys ++ parse false r.kb.buffer).map Key.event = (parse false r.pushed).map Key.event

/-- The ring has room for what is pushed. -/
def Op.Room (r : Run) : Op → Prop
  | push _ => r.kb.buffer.length + 1 < scancodeBufferLen
  | poll => True

/-- A byte that is pushed after a prefix was lost makes the same event without it. -/
def Op.Harmless (r : Run) : Op → Prop
  | push b => r.lost = true → b ≠ 0xe0 ∧ Key.event ⟨false, b⟩ = Key.event ⟨true, b⟩
  | poll => True

/-! ### Streams in pieces -/

theorem parse_append (ext : Bool) (s t : List UInt8) :
    parse ext (s ++ t) = parse ext s ++ parse (pends ext s) t := by
  induction s generalizing ext with
  | nil => rfl
  | cons b s ih =>
    cases ext with
    | true => rw [cons_append, parse, ih, parse, pends, cons_append]
    | false =>
      rw [cons_append, parse, parse, pends]
      by_cases hb : b = 0xe0
      · rw [if_pos hb, if_pos hb, ih, beq_iff_eq.mpr hb]
      · rw [if_neg hb, if_neg hb, ih, beq_eq_false_iff_ne.mpr hb, cons_append]

theorem pends_append (ext : Bool) (s t : List UInt8) :
    pends ext (s ++ t) = pends (pends ext s) t := by
  induction s generalizing ext with
  | nil => rfl
  | cons b s ih => cases ext <;> exact ih _

/-- The key at the front of the ring, if there is more than a prefix. -/
theorem takeKey_cases (kb : Keyboard) : (∃ key kb', takeKey kb = (some key, kb') ∧
      parse false kb.buffer = key :: parse false kb'.buffer ∧
      pends false kb.buffer = pends false kb'.buffer ∧ kb.buffer ≠ [0xe0]) ∨
    takeKey kb = (none, { kb with buffer := [] }) ∧ (kb.buffer = [] ∨ kb.buffer = [0xe0]) := by
  obtain ⟨buffer, shift, ctrl, alt, super, ext⟩ := kb
  rcases buffer with _ | ⟨b, bs⟩
  · exact .inr ⟨rfl, .inl rfl⟩
  by_cases hb : b = 0xe0
  · subst hb
    rcases bs with _ | ⟨c, bs⟩
    · exact .inr ⟨rfl, .inr rfl⟩
    · exact .inl ⟨⟨true, c⟩, _, rfl, rfl, rfl, by simp⟩
  · refine .inl ⟨⟨false, b⟩, ⟨bs, shift, ctrl, alt, super, ext⟩, if_neg hb, if_neg hb, ?_,
      by simp [hb]⟩
    rw [pends, beq_eq_false_iff_ne.mpr hb]

/-! ### The steps -/

/-- The invariant of a faithful run: the ring is at the same place as the stream, or a prefix is
lost and the ring is empty. -/
def InStep (r : Run) : Prop :=
  Faithful r ∧ (if r.lost then r.kb.buffer = [] ∧ pends false r.pushed = true
    else pends false r.kb.buffer = pends false r.pushed)

variable {r : Run}

theorem buffer_pushScancode {kb : Keyboard} (b : UInt8)
    (h : kb.buffer.length + 1 < scancodeBufferLen) :
    (pushScancode kb b).buffer = kb.buffer ++ [b] := if_pos h

/-- **A call** keeps a run in step; it may lose a prefix. -/
theorem InStep.poll (h : InStep r) : InStep (r.step .poll) := by
  obtain ⟨hfaithful, hplace⟩ := h
  rcases takeKey_cases r.kb with ⟨key, kb, htake, hparse, hpends, hne⟩ | ⟨htake, hempty⟩
  · have hlost : r.lost = false := by
      by_contra hlost
      rw [if_pos (by simpa using hlost)] at hplace
      rw [hplace.1] at hparse
      cases hparse
    rw [hlost] at hplace
    rw [Run.step, htake, hlost, beq_eq_false_iff_ne.mpr hne]
    refine ⟨?_, hpends.symm.trans hplace⟩
    rw [Faithful, hparse] at hfaithful
    rw [Faithful, ← hfaithful]
    dsimp only
    rw [append_assoc]
    rfl
  · rw [Run.step, htake]
    have hnil : parse false r.kb.buffer = [] := by
      rcases hempty with hempty | hempty <;> rw [hempty] <;> rfl
    refine ⟨?_, ?_⟩
    · rw [Faithful, hnil] at hfaithful
      rw [Faithful, ← hfaithful]
      dsimp only
      rw [Option.toList_none, append_nil, parse, append_nil]
    · dsimp only
      rcases hempty with hempty | hempty <;> rw [hempty] at hplace ⊢
      · simpa using hplace
      · rw [if_pos (by simp)]
        refine ⟨rfl, ?_⟩
        split_ifs at hplace with hlost
        · exact hplace.2
        · exact hplace.symm

/-- A byte that is pushed is read at the same place of the ring and of the stream, unless a prefix
was lost before it. -/
theorem faithful_push_iff (h : InStep r) {b : UInt8} (hroom : (Op.push b).Room r) :
    Faithful (r.step (.push b)) ↔ (Op.push b).Harmless r := by
  obtain ⟨hfaithful, hplace⟩ := h
  rw [Faithful] at hfaithful
  rw [Faithful, Run.step]
  dsimp only
  rw [buffer_pushScancode b hroom, parse_append, parse_append, ← append_assoc, map_append,
    hfaithful, map_append, append_right_inj, Op.Harmless]
  cases hlost : r.lost with
  | false =>
    rw [hlost] at hplace
    rw [show pends false r.kb.buffer = _ from hplace]
    exact iff_of_true rfl fun hno => by cases hno
  | true =>
    rw [hlost] at hplace
    rw [hplace.1, hplace.2]
    by_cases hb : b = 0xe0
    · refine iff_of_false (fun hno => ?_) fun hno => (hno rfl).1 hb
      rw [pends, parse, parse, parse, if_pos hb] at hno
      cases hno
    · rw [pends, parse, parse, parse, if_neg hb]
      refine ⟨fun heq _ => ⟨hb, (cons.inj heq).1⟩, fun heq => ?_⟩
      exact congrArg (· :: []) (heq rfl).2

theorem InStep.push (h : InStep r) {b : UInt8} (hroom : (Op.push b).Room r)
    (hb : (Op.push b).Harmless r) : InStep (r.step (.push b)) := by
  refine ⟨(faithful_push_iff h hroom).mpr hb, ?_⟩
  have hplace := h.2
  show pends false (pushScancode r.kb b).buffer = pends false (r.pushed ++ [b])
  rw [buffer_pushScancode b hroom, pends_append, pends_append]
  split_ifs at hplace with hlost
  · rw [hplace.1, hplace.2]
    exact beq_eq_false_iff_ne.mpr (hb hlost).1
  · rw [hplace]

/-- **When the calls return the events of the stream**: just if, after each call that took a prefix
alone, the next byte makes the same event without it. The bytes and the calls come in any order, as
long as the ring has room for the bytes. -/
theorem faithful_iff (ops : List Op) (h : Along (fun r o => o.Room r) Run.step {} ops) :
    (∀ k, Faithful (run (ops.take k))) ↔ Along (fun r o => o.Harmless r) Run.step {} ops := by
  refine forall_take_iff (P := InStep) (fun _ hr => hr.1) ?_ ?_ h ⟨rfl, rfl⟩
  · rintro r (b | _) hr hroom hfaithful
    · exact (faithful_push_iff hr hroom).mp hfaithful
    · trivial
  · rintro r (b | _) hr hroom hok
    · exact hr.push hroom hok
    · exact hr.poll

/-- An arrow key whose prefix is lost makes the same event. -/
theorem faithful_iff_arrow : Faithful (run [.push 0xe0, .poll, .push 0x48, .poll]) := by
  have hroom : 0 + 1 < scancodeBufferLen := by decide
  have harrow : Key.event ⟨false, 0x48⟩ = Key.event ⟨true, 0x48⟩ := by
    funext ⟨_, shift, _, _, _, _⟩
    cases shift <;> rfl
  refine (faithful_iff [.push 0xe0, .poll, .push 0x48, .poll]
    ⟨hroom, trivial, hroom, trivial, trivial⟩).mpr
    ⟨fun hno => ?_, trivial, fun _ => ⟨by decide, harrow⟩, trivial, trivial⟩ 4
  cases hno

/-- **An extended key that types a character**: a process asks for an event between the two bytes of
the Enter of the number pad, and the second byte is reported as a line feed. -/
theorem extended_key_types :
    let first := sysGetKeyEvent (pushScancode {} 0xe0)
    let second := sysGetKeyEvent (pushScancode first.2 0x1c)
    first.1 = none ∧ second.1 = some ⟨0x1c, true, 0, 10⟩ ∧
      (parse false [0xe0, 0x1c]).map (·.event second.2) = [⟨0x1c, true, 0, 0⟩] := by
  decide

end DunitOS.Keys
