import DunitOS.Gui.Wire
import DunitOS.SysLib.Reader

/-!
# The codec of the GUI protocol

What a client writes is what the server reads, and the server reads nothing else. Each
method of the cursor reads one format (`SysLib.Prog.Reads`), the one its counterpart on
the writer's side spells: words, reserved words, strings and rectangles. The payloads of
the requests are put together from them on both sides in the same order, so that
`Request.decode` accepts a payload exactly if it is the one of a request
(`decode_eq_ok_iff`).

The header has its fields at fixed offsets, and none of its 32 bytes is free: together the
two directions of `codec_round_trip` say that packets and requests with their
object and serial are in bijection.
-/

namespace DunitOS.Gui

open SysLib List Prog Writer Request Nat

/-! ### Words -/

theorem toNat_rdU16 (b : List UInt8) (off : ℕ) : (rdU16 b off).toNat = getLe b off 2 := by
  have hlt : getLe b off 2 < 2 ^ 16 := getLe_lt b off 2
  rw [rdU16, UInt16.toNat_ofNat', mod_eq_of_lt hlt]

theorem toNat_rdU32 (b : List UInt8) (off : ℕ) : (rdU32 b off).toNat = getLe b off 4 := by
  have hlt : getLe b off 4 < 2 ^ 32 := getLe_lt b off 4
  rw [rdU32, UInt32.toNat_ofNat', mod_eq_of_lt hlt]

theorem toNat_rdU64 (b : List UInt8) (off : ℕ) : (rdU64 b off).toNat = getLe b off 8 := by
  have hlt : getLe b off 8 < 2 ^ 64 := getLe_lt b off 8
  rw [rdU64, UInt64.toNat_ofNat', mod_eq_of_lt hlt]

/-! ### The cursor -/

namespace Cursor

/-- What is left to be read. -/
def rest (c : Cursor) : List UInt8 := c.b.drop c.pos

/-- The position is in the payload or at its end. -/
def InRange (c : Cursor) : Prop := c.pos ≤ c.b.length

/-- A method of the cursor reads a format. -/
abbrev Reads {α : Type} (m : CursorM α) (F : α → List UInt8 → Prop) : Prop :=
  Prog.Reads InRange rest m F

theorem reads_take (n : ℕ) : Reads (take n) fun s w => s.length = n ∧ w = s where
  sound {c c' s} hc h := by
    rw [take] at h
    split_ifs at h with hlen
    · cases h
    cases h
    have hrest : c.pos + n ≤ c.b.length := by omega
    refine ⟨_, ⟨length_slice _ hrest, rfl⟩, ?_, hrest⟩
    rw [rest, rest, slice, ← drop_drop, take_append_drop]
  complete {c s w r} hc hF hr := by
    obtain ⟨rfl, rfl⟩ := hF
    have hlen := congrArg length hr
    rw [rest, length_drop, length_append] at hlen
    have hin : c.pos ≤ c.b.length := hc
    have hslice : slice c.b c.pos w.length = w := by
      rw [slice, ← rest, hr, take_left]
    refine ⟨{ c with pos := c.pos + w.length }, ?_, ?_, ?_⟩
    · rw [take, if_neg (by omega), hslice]
    · rw [rest, ← drop_drop, ← rest, hr, drop_left]
    · change c.pos + w.length ≤ c.b.length
      omega

/-- A word that is read as bytes and turned into a value. -/
theorem reads_word {α : Type} {n : ℕ} {val : List UInt8 → α} {toNat : α → ℕ}
    (hinj : ∀ {a b}, toNat a = toNat b → a = b) (hlt : ∀ a, toNat a < 256 ^ n)
    (hval : ∀ s, toNat (val s) = getLe s 0 n) :
    Reads (do let s ← take n; pure (val s)) fun a w => w = leBytes n (toNat a) := by
  refine ((reads_take n).bind fun s => Prog.Reads.pure (val s)).congr fun a w => ⟨?_, ?_⟩
  · rintro ⟨s, u, v, rfl, ⟨hs, rfl⟩, rfl, rfl⟩
    rw [hval, leBytes_getLe hs, append_nil]
  · rintro rfl
    refine ⟨_, _, [], (append_nil _).symm, ⟨length_leBytes n _, rfl⟩, hinj ?_, rfl⟩
    rw [hval, getLe_leBytes, mod_eq_of_lt (hlt a)]

theorem reads_u16 : Reads u16 fun a w => w = Writer.u16 a :=
  reads_word UInt16.toNat_inj.mp UInt16.toNat_lt (toNat_rdU16 · 0)

theorem reads_u32 : Reads u32 fun a w => w = Writer.u32 a :=
  reads_word UInt32.toNat_inj.mp UInt32.toNat_lt (toNat_rdU32 · 0)

theorem reads_u64 : Reads u64 fun a w => w = Writer.u64 a :=
  reads_word UInt64.toNat_inj.mp UInt64.toNat_lt (toNat_rdU64 · 0)

/-- A field behind which others are read. -/
theorem Reads.field {α β : Type} {m : CursorM α} {f : α → CursorM β} {enc : α → List UInt8}
    {G : α → β → List UInt8 → Prop} (h : Reads m fun a w => w = enc a)
    (hf : ∀ a, Reads (f a) (G a)) :
    Reads (m >>= f) fun b w => ∃ a v, w = enc a ++ v ∧ G a b v :=
  (Prog.Reads.bind h hf).congr fun b w => by simp

theorem reads_i32 : Reads i32 fun a w => w = Writer.i32 a := by
  refine (reads_u32.field fun v => Prog.Reads.pure v.toInt32).congr fun a w => ⟨?_, ?_⟩
  · rintro ⟨v, -, rfl, rfl, rfl⟩
    exact append_nil _
  · rintro rfl
    exact ⟨a.toUInt32, [], (append_nil _).symm, rfl, rfl⟩

theorem reads_reservedU32 : Reads reservedU32 fun _ w => w = Writer.reservedU32 := by
  refine (reads_u32.field fun v => Prog.Reads.refuse (v != 0) _).congr fun _ w => ⟨?_, ?_⟩
  · rintro ⟨v, -, rfl, hv, rfl⟩
    rw [bne_eq_false_iff_eq.mp hv]
    exact append_nil _
  · rintro rfl
    exact ⟨0, [], (append_nil _).symm, rfl, rfl⟩

theorem reads_rect : Reads rect fun a w => w = Writer.rect a := by
  refine (reads_i32.field fun x => reads_i32.field fun y => reads_u32.field fun w =>
    reads_u32.field fun h => Prog.Reads.pure (⟨x, y, w, h⟩ : Rect)).congr fun a w => ⟨?_, ?_⟩
  · rintro ⟨x, -, rfl, y, -, rfl, w, -, rfl, h, -, rfl, rfl, rfl⟩
    simp [Writer.rect]
  · rintro rfl
    exact ⟨a.x, _, append_assoc _ _ _, a.y, _, rfl, a.w, _, rfl, a.h, [], by simp, rfl, rfl⟩

theorem reads_rects (n : ℕ) :
    Reads (rects n) fun l w => l.length = n ∧ w = l.flatMap Writer.rect := by
  induction n with
  | zero => exact (Prog.Reads.pure []).congr fun l w => by aesop
  | succ n ih =>
    refine (reads_rect.field fun r => ih.bind fun rs => Prog.Reads.pure (r :: rs)).congr
      fun l w => ⟨?_, ?_⟩
    · rintro ⟨r, -, rfl, rs, u, -, rfl, ⟨rfl, rfl⟩, rfl, rfl⟩
      simp
    · rintro ⟨hl, rfl⟩
      cases l with
      | nil => cases hl
      | cons r rs =>
        exact ⟨r, _, flatMap_cons, rs, _, [], (append_nil _).symm, ⟨succ.inj hl, rfl⟩, rfl, rfl⟩

/-- A string that the wire can carry. -/
def Carries (s : List Char) : Prop := '\x00' ∉ s ∧ (utf8 s).length < 2 ^ 16

theorem takeStr_eq :
    takeStr = u16 >>= fun len => take len.toNat >>= fun bytes =>
      Prog.refuse (bytes.contains 0) (.badValue "NUL in string") >>= fun _ =>
        (fromUtf8 bytes).elim (Prog.stop (.badValue "invalid UTF-8")) pure := by
  refine congrArg (u16 >>= ·) (funext fun len => congrArg (take len.toNat >>= ·)
    (funext fun bytes => congrArg (_ >>= ·) (funext fun _ => ?_)))
  cases fromUtf8 bytes <;> rfl

theorem reads_takeStr : Reads takeStr fun s w => Carries s ∧ w = Writer.str s := by
  have htext : ∀ bytes : List UInt8,
      Reads ((fromUtf8 bytes).elim (stop (.badValue "invalid UTF-8")) pure)
        fun s w => fromUtf8 bytes = some s ∧ w = [] := fun bytes => by
    rcases fromUtf8 bytes with _ | s
    · exact (Prog.Reads.stop _).congr fun _ _ => by simp
    · exact (Prog.Reads.pure s).congr fun _ _ => by simp [eq_comm]
  rw [takeStr_eq]
  refine (reads_u16.field fun len => (reads_take len.toNat).bind fun bytes =>
    (Prog.Reads.refuse (bytes.contains 0) _).bind fun _ => htext bytes).congr fun s w => ⟨?_, ?_⟩
  · rintro ⟨len, -, rfl, bytes, u, -, rfl, ⟨hlen, rfl⟩, -, -, -, rfl, ⟨hnul, rfl⟩, htxt, rfl⟩
    obtain rfl := utf8_of_fromUtf8 htxt
    have hlt := len.toNat_lt
    refine ⟨⟨?_, by omega⟩, ?_⟩
    · rw [← zero_mem_utf8, ← contains_iff_mem, hnul]
      exact Bool.false_ne_true
    · rw [str, hlen, UInt16.ofNat_toNat]
      simp
  · rintro ⟨⟨hnul, hlt⟩, rfl⟩
    have hlen : (UInt16.ofNat (utf8 s).length).toNat = (utf8 s).length := by
      rw [UInt16.toNat_ofNat', mod_eq_of_lt hlt]
    have hzero : (utf8 s).contains 0 = false := by
      rw [← Bool.not_eq_true, contains_iff_mem, zero_mem_utf8]
      exact hnul
    exact ⟨_, _, rfl, utf8 s, _, [], (append_nil _).symm, ⟨hlen.symm, rfl⟩, (), [], [], rfl,
      ⟨hzero, rfl⟩, fromUtf8_utf8 s, rfl⟩

end Cursor

/-! ### Payloads -/

namespace Request

/-- A request that the wire can carry: strings without a NUL, and neither they nor the damage
too long for their length field. -/
def Carried : Request → Prop
  | setTitle s | setAppId s => Cursor.Carries s
  | attachBuffer _ damage => damage.length < 2 ^ 32
  | _ => True

end Request

namespace Cursor

/-- What a request without fields reads. -/
theorem reads_empty {req : Request} (hp : req.payload = []) (hc : req.Carried)
    (hop : ∀ req', req'.opcode = req.opcode → req' = req) :
    Reads (pure req) fun req' w => req'.opcode = req.opcode ∧ req'.Carried ∧ w = req'.payload := by
  refine (Prog.Reads.pure req).congr fun req' w => ⟨?_, ?_⟩
  · rintro ⟨rfl, rfl⟩
    exact ⟨rfl, hc, hp.symm⟩
  · rintro ⟨h, -, rfl⟩
    obtain rfl := hop req' h
    exact ⟨rfl, hp⟩

/-- **The fields of a request are its payload.** -/
theorem reads_request {op : Opcode} (hop : op.isRequest = true) :
    Reads (request op) fun req w => req.opcode = op ∧ req.Carried ∧ w = req.payload := by
  -- The fields are read in the order in which the payload lists them.
  cases op with
  | hello =>
    refine (reads_u16.field fun minMinor => reads_u16.field fun maxMinor =>
      reads_reservedU32.bind fun _ => reads_u64.field fun offered => reads_u64.field fun required =>
      Prog.Reads.pure (hello minMinor maxMinor offered required)).congr
      fun req w => ⟨?_, ?_⟩
    · rintro ⟨_, -, rfl, _, -, rfl, -, -, -, rfl, rfl, _, -, rfl, _, -, rfl, rfl, rfl⟩
      exact ⟨rfl, trivial, by simp [payload]⟩
    · rintro ⟨hop, -, rfl⟩
      cases req <;> cases hop
      simp only [payload, append_assoc]
      exact ⟨_, _, rfl, _, _, rfl, (), _, _, rfl, rfl, _, _, rfl, _, [], (append_nil _).symm,
        rfl, rfl⟩
  | disconnect | destroySurface | destroyBuffer =>
    exact reads_empty rfl trivial fun req' h => by cases req' <;> first | rfl | cases h
  | createSurface =>
    refine (reads_u32.field fun role => reads_u32.field fun width => reads_u32.field fun height =>
      reads_u32.field fun format =>
      Prog.Reads.pure (createSurface role width height format)).congr fun req w => ⟨?_, ?_⟩
    · rintro ⟨_, -, rfl, _, -, rfl, _, -, rfl, _, -, rfl, rfl, rfl⟩
      exact ⟨rfl, trivial, by simp [payload]⟩
    · rintro ⟨hop, -, rfl⟩
      cases req <;> cases hop
      simp only [payload, append_assoc]
      exact ⟨_, _, rfl, _, _, rfl, _, _, rfl, _, [], (append_nil _).symm, rfl, rfl⟩
  | setTitle | setAppId =>
    refine (reads_takeStr.bind fun s => Prog.Reads.pure _).congr fun req w => ⟨?_, ?_⟩
    · rintro ⟨s, _, -, rfl, ⟨hs, rfl⟩, rfl, rfl⟩
      exact ⟨rfl, hs, append_nil _⟩
    · rintro ⟨hop, hs, rfl⟩
      cases req <;> cases hop
      exact ⟨_, _, [], (append_nil _).symm, ⟨hs, rfl⟩, rfl, rfl⟩
  | ackConfigure =>
    refine (reads_u64.field fun configure =>
      Prog.Reads.pure (ackConfigure configure)).congr fun req w => ⟨?_, ?_⟩
    · rintro ⟨_, -, rfl, rfl, rfl⟩
      exact ⟨rfl, trivial, append_nil _⟩
    · rintro ⟨hop, -, rfl⟩
      cases req <;> cases hop
      exact ⟨_, [], (append_nil _).symm, rfl, rfl⟩
  | importBuffer =>
    refine (reads_u32.field fun width => reads_u32.field fun height => reads_u32.field fun stride =>
      reads_u32.field fun format => reads_u64.field fun offset =>
      Prog.Reads.pure (importBuffer width height stride format offset)).congr
      fun req w => ⟨?_, ?_⟩
    · rintro ⟨_, -, rfl, _, -, rfl, _, -, rfl, _, -, rfl, _, -, rfl, rfl, rfl⟩
      exact ⟨rfl, trivial, by simp [payload]⟩
    · rintro ⟨hop, -, rfl⟩
      cases req <;> cases hop
      simp only [payload, append_assoc]
      exact ⟨_, _, rfl, _, _, rfl, _, _, rfl, _, _, rfl, _, [], (append_nil _).symm, rfl, rfl⟩
  | attachBuffer =>
    refine (reads_u64.field fun buffer => reads_u32.field fun count =>
      reads_reservedU32.bind fun _ => (reads_rects count.toNat).bind fun damage =>
      Prog.Reads.pure (attachBuffer buffer damage)).congr fun req w => ⟨?_, ?_⟩
    · rintro ⟨_, -, rfl, count, -, rfl, -, -, -, rfl, rfl, damage, _, -, rfl, ⟨hlen, rfl⟩, rfl, rfl⟩
      have hlt := count.toNat_lt
      refine ⟨rfl, lt_of_eq_of_lt hlen hlt, ?_⟩
      rw [payload, hlen, UInt32.ofNat_toNat]
      simp
    · rintro ⟨hop, hc, rfl⟩
      cases req <;> cases hop
      rename_i buffer damage
      have hlen : (UInt32.ofNat damage.length).toNat = damage.length := by
        rw [UInt32.toNat_ofNat', mod_eq_of_lt hc]
      simp only [payload, append_assoc]
      exact ⟨_, _, rfl, _, _, rfl, (), _, _, rfl, rfl, damage, _, [], (append_nil _).symm,
        ⟨hlen.symm, rfl⟩, rfl, rfl⟩
  | commit =>
    refine (reads_u64.field fun configure => reads_u32.field fun frameCallback =>
      reads_reservedU32.bind fun _ =>
      Prog.Reads.pure (commit configure frameCallback)).congr fun req w => ⟨?_, ?_⟩
    · rintro ⟨_, -, rfl, _, -, rfl, -, -, -, rfl, rfl, rfl, rfl⟩
      exact ⟨rfl, trivial, by simp [payload]⟩
    · rintro ⟨hop, -, rfl⟩
      cases req <;> cases hop
      simp only [payload, append_assoc]
      exact ⟨_, _, rfl, _, _, rfl, (), _, [], (append_nil _).symm, rfl, rfl, rfl⟩
  | _ => cases hop

/-- Nothing is left at the end. -/
theorem finish_eq_ok {c c' : Cursor} (hc : c.InRange) :
    finish c = (.ok (), c') ↔ c.rest = [] ∧ c' = c := by
  have hend : (c.pos != c.b.length) = false ↔ c.rest = [] := by
    have hin : c.pos ≤ c.b.length := hc
    rw [bne_eq_false_iff_eq, rest, drop_eq_nil_iff]
    omega
  rw [← hend, finish, get_bind_run]
  cases (c.pos != c.b.length) with
  | false => simp [refuse, when, eq_comm]
  | true => simp [refuse, when]

end Cursor

theorem Request.isRequest_opcode (req : Request) : req.opcode.isRequest = true := by
  cases req <;> simp only [opcode] <;> decide

/-- **What the decoder accepts**: the payload of a request with the given opcode, and nothing
else. -/
theorem decode_eq_ok_iff {op : Opcode} {payload : List UInt8} {req : Request} :
    decode op payload = .ok req ↔ req.opcode = op ∧ req.Carried ∧ payload = req.payload := by
  have hzero : Cursor.InRange ⟨payload, 0⟩ := zero_le _
  rw [decode]
  split_ifs with hop
  · refine ⟨fun h => (by cases h), ?_⟩
    rintro ⟨rfl, -, -⟩
    rw [req.isRequest_opcode] at hop
    cases hop
  · have hreads := Cursor.reads_request (Bool.not_eq_false _ ▸ hop)
    constructor
    · intro h
      rcases hm : Cursor.request op ⟨payload, 0⟩ with ⟨e | req', c⟩
      · rw [bind_error hm] at h
        cases h
      · obtain ⟨w, ⟨hreq, hcarried, rfl⟩, hrest, hc⟩ := hreads.sound hzero hm
        rw [bind_ok hm] at h
        rcases hf : Cursor.finish c with ⟨e | u, c'⟩
        · rw [bind_error hf] at h
          cases h
        · obtain ⟨hnil, rfl⟩ := (Cursor.finish_eq_ok hc).mp hf
          rw [bind_ok hf] at h
          cases h
          rw [hnil, append_nil] at hrest
          exact ⟨hreq, hcarried, hrest⟩
    · rintro ⟨rfl, hcarried, rfl⟩
      obtain ⟨c, hm, hrest, hc⟩ := hreads.complete hzero ⟨rfl, hcarried, rfl⟩
        (append_nil _).symm
      rw [bind_ok hm, bind_ok ((Cursor.finish_eq_ok hc).mpr ⟨hrest, rfl⟩)]
      rfl

/-! ### Headers -/

/-- The header of a packet of a given size. -/
def frame (opcode : UInt16) (object serial : UInt64) (size : ℕ) : List UInt8 :=
  leBytes 4 magic.toNat ++ (leBytes 2 versionMajor.toNat ++ (leBytes 2 versionMinor.toNat ++
    (leBytes 2 opcode.toNat ++ (leBytes 2 0 ++ (leBytes 4 size ++ (leBytes 8 object.toNat ++
    leBytes 8 serial.toNat))))))

theorem length_frame (opcode : UInt16) (object serial : UInt64) (size : ℕ) :
    (frame opcode object serial size).length = headerLen := by
  simp [frame]

theorem encode_eq (req : Request) (object serial : UInt64) : req.encode object serial =
      frame req.opcode.raw object serial (UInt32.ofNat (headerLen + req.payload.length)).toNat ++
        req.payload := by
  have hlen : (header req.opcode object serial).length = headerLen := by
    simp [header]
  rw [encode, finish, length_append, hlen, header, frame]
  simp only [append_assoc]
  rw [← append_assoc, ← append_assoc, ← append_assoc, ← append_assoc,
    putLe_append (by simp) (length_leBytes 4 0)]
  simp only [append_assoc]

theorem length_encode (req : Request) (object serial : UInt64) :
    (req.encode object serial).length = headerLen + req.payload.length := by
  rw [encode_eq, length_append, length_frame]

/-- The fields of a header, where the decoder looks for them. -/
structure Framed (packet : List UInt8) (opcode : UInt16) (object serial : UInt64) (size : ℕ) :
    Prop where
  magic : rdU32 packet 0 = magic
  major : rdU16 packet 4 = versionMajor
  minor : rdU16 packet 6 = versionMinor
  opcode : rdU16 packet 8 = opcode
  flags : rdU16 packet 10 = 0
  size : (rdU32 packet 12).toNat = size
  object : rdU64 packet 16 = object
  serial : rdU64 packet 24 = serial

theorem framed_frame (opcode : UInt16) (object serial : UInt64) {size : ℕ} (hsize : size < 2 ^ 32)
    (payload : List UInt8) :
    Framed (frame opcode object serial size ++ payload) opcode object serial size := by
  have hskip : ∀ (w n : ℕ) (rest : List UInt8) (off w' : ℕ),
      getLe (leBytes w n ++ rest) (w + off) w' = getLe rest off w' := fun w n rest off w' => by
    have h := getLe_append_right (leBytes w n) rest off w'
    rwa [length_leBytes] at h
  have hhead : ∀ {w n : ℕ} {rest : List UInt8}, n < 256 ^ w →
      getLe (leBytes w n ++ rest) 0 w = n := fun hn => by
    rw [getLe_leBytes_append, mod_eq_of_lt hn]
  simp only [frame, append_assoc]
  -- Each offset is the sum of the widths of the fields before it.
  refine ⟨UInt32.toNat_inj.mp ?_, UInt16.toNat_inj.mp ?_, UInt16.toNat_inj.mp ?_,
    UInt16.toNat_inj.mp ?_, UInt16.toNat_inj.mp ?_, ?_, UInt64.toNat_inj.mp ?_,
    UInt64.toNat_inj.mp ?_⟩
  · rw [toNat_rdU32, hhead (UInt32.toNat_lt _)]
  · rw [toNat_rdU16, show 4 = 4 + 0 from rfl, hskip, hhead (UInt16.toNat_lt _)]
  · rw [toNat_rdU16, show 6 = 4 + (2 + 0) from rfl, hskip, hskip, hhead (UInt16.toNat_lt _)]
  · rw [toNat_rdU16, show 8 = 4 + (2 + (2 + 0)) from rfl, hskip, hskip, hskip,
      hhead (UInt16.toNat_lt _)]
  · rw [toNat_rdU16, show 10 = 4 + (2 + (2 + (2 + 0))) from rfl, hskip, hskip, hskip, hskip,
      hhead (by decide)]
    rfl
  · rw [toNat_rdU32, show 12 = 4 + (2 + (2 + (2 + (2 + 0)))) from rfl, hskip, hskip, hskip, hskip,
      hskip, hhead hsize]
  · rw [toNat_rdU64, show 16 = 4 + (2 + (2 + (2 + (2 + (4 + 0))))) from rfl, hskip, hskip, hskip,
      hskip, hskip, hskip, hhead (UInt64.toNat_lt _)]
  · rw [toNat_rdU64, show 24 = 4 + (2 + (2 + (2 + (2 + (4 + (8 + 0)))))) from rfl, hskip, hskip,
      hskip, hskip, hskip, hskip, hskip, hhead (UInt64.toNat_lt _)]

/-- A packet with the fields of a header starts with the header. -/
theorem Framed.eq {packet : List UInt8} {opcode : UInt16} {object serial : UInt64} {size : ℕ}
    (h : Framed packet opcode object serial size) (hlen : headerLen ≤ packet.length) :
    packet = frame opcode object serial size ++ packet.drop headerLen := by
  have hfield : ∀ {off w n : ℕ}, getLe packet off w = n → off + w ≤ headerLen →
      slice packet off w = leBytes w n := fun hn hle => by
    rw [slice_eq_leBytes (hle.trans hlen), hn]
  have h32 : ∀ {off : ℕ} {v : UInt32}, rdU32 packet off = v → getLe packet off 4 = v.toNat :=
    fun hv => by rw [← hv, toNat_rdU32]
  have h16 : ∀ {off : ℕ} {v : UInt16}, rdU16 packet off = v → getLe packet off 2 = v.toNat :=
    fun hv => by rw [← hv, toNat_rdU16]
  have h64 : ∀ {off : ℕ} {v : UInt64}, rdU64 packet off = v → getLe packet off 8 = v.toNat :=
    fun hv => by rw [← hv, toNat_rdU64]
  have hsize : getLe packet 12 4 = size := by rw [← h.size, toNat_rdU32]
  have hhead : packet.take headerLen = frame opcode object serial size := by
    rw [← slice_zero, show headerLen = 4 + (2 + (2 + (2 + (2 + (4 + (8 + 8)))))) from rfl]
    simp only [slice_add]
    simp only [zero_add, reduceAdd]
    rw [frame, hfield (h32 h.magic) (by decide), hfield (h16 h.major) (by decide),
      hfield (h16 h.minor) (by decide), hfield (h16 h.opcode) (by decide),
      hfield (h16 h.flags) (by decide), hfield hsize (by decide), hfield (h64 h.object) (by decide),
      hfield (h64 h.serial) (by decide)]
    rfl
  rw [← hhead, take_append_drop]

/-- **What has a header**: a packet of an admissible length with the fields of one. -/
theorem header_decode_eq_ok {packet : List UInt8} {header : Header}
    (hmajor : header.major = versionMajor) (hminor : header.minor = versionMinor) :
    Header.decode packet = .ok header ↔ headerLen ≤ packet.length ∧ packet.length ≤ maxPacket ∧
      header.size.toNat = packet.length ∧
      Framed packet header.opcodeRaw header.object header.serial packet.length := by
  have hbounds : headerLen = 32 ∧ minPacket = 32 ∧ maxPacket = 256 := ⟨rfl, rfl, rfl⟩
  rw [Header.decode]
  constructor
  · intro h
    split_ifs at h with hshort hrange hmagic hflags hsize
    cases h
    rw [not_not] at hmagic hflags hsize
    exact ⟨by omega, by omega, hsize, hmagic, hmajor, hminor, rfl, hflags, hsize, rfl, rfl⟩
  · rintro ⟨hmin, hmax, hsize, h⟩
    rw [if_neg (by omega), if_neg (by omega), if_neg (not_not.mpr h.magic),
      if_neg (not_not.mpr h.flags), if_neg (not_not.mpr h.size), h.major, h.minor, h.opcode,
      h.object, h.serial, ← hmajor, ← hminor]
    have : rdU32 packet 12 = header.size := UInt32.toNat_inj.mp (h.size.trans hsize.symm)
    rw [this]

/-- No string of the request has a NUL. -/
def Request.NoNul : Request → Prop
  | setTitle s | setAppId s => '\x00' ∉ s
  | _ => True

theorem length_rect (r : Rect) : (rect r).length = 16 := by
  simp [rect, i32, u32]

/-- A request that fits in a packet can be carried. -/
theorem Request.carried {req : Request} (hnul : req.NoNul)
    (hlen : headerLen + req.payload.length ≤ maxPacket) : req.Carried := by
  have hmax : maxPacket = 256 := rfl
  cases req with
  | setTitle s | setAppId s =>
    refine ⟨hnul, ?_⟩
    simp only [payload, str, u16, length_append, length_leBytes] at hlen
    omega
  | attachBuffer buffer damage =>
    have hdamage : (damage.flatMap rect).length = damage.length * 16 := by
      simp [length_flatMap, length_rect]
    simp only [payload, length_append, hdamage] at hlen
    change damage.length < 2 ^ 32
    omega
  | _ => trivial

/-- **The codec is exact**: a request that fits in a packet is read back as it was written,
under its opcode, object and serial; and a packet that is read is the one its request is
written to. -/
theorem codec_round_trip :
    (∀ (req : Request) (object serial : UInt64), req.NoNul →
      (req.encode object serial).length ≤ maxPacket →
      (∃ header, Header.decode (req.encode object serial) = .ok header ∧
        Opcode.fromU16 header.opcodeRaw = some req.opcode ∧ header.object = object ∧
        header.serial = serial ∧ header.size.toNat = (req.encode object serial).length) ∧
      Request.decode req.opcode ((req.encode object serial).drop headerLen) = .ok req) ∧
    ∀ (packet : List UInt8) (header : Header) (op : Opcode) (req : Request),
      Header.decode packet = .ok header → header.major = versionMajor →
      header.minor = versionMinor → Opcode.fromU16 header.opcodeRaw = some op →
      Request.decode op (packet.drop headerLen) = .ok req →
      req.encode header.object header.serial = packet := by
  have hsize : ∀ {n : ℕ}, n ≤ maxPacket → (UInt32.ofNat n).toNat = n := fun {n} hn => by
    have hmax : maxPacket < 2 ^ 32 := by decide
    rw [UInt32.toNat_ofNat', mod_eq_of_lt (lt_of_le_of_lt hn hmax)]
  refine ⟨fun req object serial hnul hmax => ?_,
    fun packet header op req hd hmajor hminor hop hreq => ?_⟩
  · have hlen := length_encode req object serial
    rw [hlen] at hmax
    have hnat := hsize hmax
    rw [encode_eq, hnat] at hlen ⊢
    refine ⟨⟨⟨versionMajor, versionMinor, req.opcode.raw,
      UInt32.ofNat (headerLen + req.payload.length), object, serial⟩,
      (header_decode_eq_ok rfl rfl).mpr ?_, Opcode.fromU16_raw _, rfl, rfl,
      hnat.trans hlen.symm⟩, ?_⟩
    · rw [hlen]
      refine ⟨le_add_right _ _, hmax, hnat, framed_frame _ _ _ ?_ _⟩
      exact lt_of_le_of_lt hmax (by decide)
    · rw [drop_left' (length_frame _ _ _ _)]
      exact decode_eq_ok_iff.mpr ⟨rfl, carried hnul hmax, rfl⟩
  · obtain ⟨hmin, hmax, -, hframed⟩ := (header_decode_eq_ok hmajor hminor).mp hd
    obtain ⟨rfl, -, hpayload⟩ := decode_eq_ok_iff.mp hreq
    have hlen : headerLen + req.payload.length = packet.length := by
      rw [← hpayload, length_drop, Nat.add_sub_cancel' hmin]
    rw [encode_eq, hlen, hsize hmax, Opcode.raw_of_fromU16 hop, ← hpayload]
    exact (hframed.eq hmin).symm

end DunitOS.Gui
