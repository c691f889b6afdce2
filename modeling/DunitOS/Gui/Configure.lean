import DunitOS.Gui.Objects
import DunitOS.Gui.Replies
import Mathlib.Data.List.Nodup

/-!
# Configure tokens

The token of a CONFIGURE is the header serial of its packet. A surface remembers the token
of its latest CONFIGURE and the last token that was acknowledged, and a COMMIT has to name
the latest token after it has been acknowledged. CREATE_SURFACE has to predict its token:
the CONFIGURE is the second packet of the answer.

As long as the serials of a connection have not wrapped, the tokens are what they should
be (`run_configured`): the latest token is the serial of the last CONFIGURE for
the surface and of no other packet, and a COMMIT is accepted only if the last CONFIGURE has
been acknowledged since. Serials of 64 bits do wrap, without the connection being closed,
and then a COMMIT is accepted that follows no ACK_CONFIGURE at all
(`commit_without_ack`).
-/

namespace DunitOS.Gui

open SysLib Std List Connection UInt64

/-! ### The history of a surface -/

def Event.isConfigure : Event → Bool
  | .configure .. => true
  | _ => false

/-- A CONFIGURE for a surface. -/
def Configures (i : ObjectId) (a : Item) : Prop :=
  ∃ p, a = .sent p ∧ p.object = i ∧ p.event.isConfigure = true

/-- The CONFIGURE with a given token. -/
def ConfiguresAs (i : ObjectId) (token : UInt64) (a : Item) : Prop :=
  ∃ p, a = .sent p ∧ p.object = i ∧ p.event.isConfigure = true ∧ p.serial = token

/-- The acknowledgement of a token. -/
def Acks (i : ObjectId) (token : UInt64) (a : Item) : Prop :=
  ∃ header : Header, a = .accepted header (.ackConfigure token) ∧ header.object = i

/-- **The last CONFIGURE** for a surface has the given token. -/
def Latest (i : ObjectId) (token : UInt64) (l : List Item) : Prop :=
  Since (fun _ => ConfiguresAs i token) (Configures i) l

/-- **The last CONFIGURE has been acknowledged**, and none came since. -/
def Acknowledged (i : ObjectId) (token : UInt64) (l : List Item) : Prop :=
  Since (fun before a => Acks i token a ∧ Latest i token before) (Configures i) l

/-- The tokens of a surface agree with the history of its connection. -/
structure TokensOk (l : List Item) (i : ObjectId) (s : Surface) : Prop where
  latest : Latest i s.latestToken l
  acked : s.ackedToken = 0 ∨ ∃ a ∈ l, ConfiguresAs i s.ackedToken a
  ready : s.ackedToken = s.latestToken → Acknowledged i s.latestToken l

/-- A COMMIT names the last CONFIGURE, after it has been acknowledged. -/
def CommitReady (before : List Item) (a : Item) : Prop :=
  ∀ header configure frameCallback, a = .accepted header (.commit configure frameCallback) →
    Latest header.object configure before ∧ Acknowledged header.object configure before

variable {a : Item} {token : UInt64}

section

variable {l items : List Item} {i : ObjectId} {s s' : Surface}

theorem not_configures_cons {m : List Item} (ha : ∀ p, a ≠ .sent p)
    (hm : ∀ b ∈ m, ¬Configures i b) : ∀ b ∈ a :: m, ¬Configures i b :=
  forall_mem_cons.mpr ⟨fun ⟨p, hp, _⟩ => ha p hp, hm⟩

/-- Nothing about a surface has happened. -/
theorem TokensOk.append (h : TokensOk l i s) (hitems : ∀ a ∈ items, ¬Configures i a)
    (h1 : s'.latestToken = s.latestToken) (h2 : s'.ackedToken = s.ackedToken) :
    TokensOk (l ++ items) i s' where
  latest := by
    rw [h1]
    exact Since.append h.latest hitems
  acked := by
    rw [h2]
    exact h.acked.imp id fun ⟨a, ha, hc⟩ => ⟨a, mem_append_left _ ha, hc⟩
  ready hack := by
    rw [h1, h2] at hack
    rw [h1]
    exact Since.append (h.ready hack) hitems

theorem Latest.exists_mem (h : Latest i token l) : ∃ a ∈ l, ConfiguresAs i token a := by
  obtain ⟨-, a, ha, hc⟩ := Since.exists_mem h
  exact ⟨a, ha, hc⟩

/-- A CONFIGURE is one of the packets that were sent. -/
theorem ConfiguresAs.mem_sentSerials (h : ConfiguresAs i token a)
    (ha : a ∈ l) : token ∈ sentSerials l := by
  obtain ⟨p, rfl, -, -, rfl⟩ := h
  exact mem_filterMap.mpr ⟨_, ha, rfl⟩

/-- A packet with a number of its own is a new CONFIGURE. -/
theorem TokensOk.reconfigured (hacked : s.ackedToken = 0 ∨ ∃ a ∈ l, ConfiguresAs i s.ackedToken a)
    {p : Packet} (hp : p.object = i) (hev : p.event.isConfigure = true)
    (hs : s.latestToken = p.serial) (h0 : p.serial ≠ 0) (hnew : p.serial ∉ sentSerials l) :
    TokensOk (l ++ [.sent p]) i s where
  latest := since_snoc ⟨p, rfl, hp, hev, hs.symm⟩
  acked := hacked.imp id fun ⟨a, ha, hc⟩ => ⟨a, mem_append_left _ ha, hc⟩
  ready hack := by
    rw [hs] at hack
    rcases hacked with h | ⟨a, ha, hc⟩
    · exact absurd (hack.symm.trans h) h0
    · rw [hack] at hc
      exact absurd (hc.mem_sentSerials ha) hnew

/-- The latest token is acknowledged. -/
theorem TokensOk.acknowledged (h : TokensOk l i s) {header : Header} (hi : header.object = i)
    (hitems : ∀ a ∈ items, ¬Configures i a) :
    TokensOk (l ++ .accepted header (.ackConfigure s.latestToken) :: items) i
      { s with ackedToken := s.latestToken } := by
  obtain ⟨a, ha, hc⟩ := h.latest.exists_mem
  exact ⟨Since.append h.latest (not_configures_cons (by simp) hitems),
    Or.inr ⟨a, mem_append_left _ ha, hc⟩,
    fun _ => ⟨l, _, items, rfl, ⟨⟨header, rfl, hi⟩, h.latest⟩, hitems⟩⟩

end

/-! ### Requests -/

variable {i : ObjectId}

section

variable {k : ConnId} {now : UInt64} {header : Header} {cap : Option UInt64} {req : Request}
  {x y : Ctx} {batch : Batch}

/-- What a request does to the tokens of a surface. -/
inductive TokenStep (header : Header) (req : Request) (next : UInt64) (i : ObjectId) :
    Option Object → Surface → Prop
  | keep {s s' : Surface} (h1 : s'.latestToken = s.latestToken) (h2 : s'.ackedToken = s.ackedToken)
      (hreq : ∀ role width height format, req = .createSurface role width height format →
        i ≠ header.object) :
    TokenStep header req next i (some (.surface s)) s'
  | create {o : Option Object} {s' : Surface} (role width height format : UInt32)
      (hi : i = header.object) (hreq : req = .createSurface role width height format)
      (h1 : s'.latestToken = next + 1) (h2 : s'.ackedToken = 0) :
    TokenStep header req next i o s'
  | ack {s : Surface} (hi : i = header.object) (hreq : req = .ackConfigure s.latestToken) :
    TokenStep header req next i (some (.surface s)) { s with ackedToken := s.latestToken }

/-- **What an accepted request does to the tokens** of every surface that is there
afterwards. -/
theorem Effect.tokens (h : Effect k now header cap req x batch y) (hx : x.conn.Wf)
    {s' : Surface} (hs' : y.conn.objects[i]? = some (.surface s')) :
    TokenStep header req x.conn.nextServerSerial i x.conn.objects[i]? s' := by
  -- A surface that the request does not name, or names without touching its tokens.
  have hkeep : ∀ {s}, x.conn.objects[i]? = some (.surface s) → s'.latestToken = s.latestToken →
      s'.ackedToken = s.ackedToken →
      (∀ role width height format, req = .createSurface role width height format →
        i ≠ header.object) →
      TokenStep header req x.conn.nextServerSerial i x.conn.objects[i]? s' :=
    fun hs h1 h2 hreq => hs ▸ .keep h1 h2 hreq
  cases h with
  | hello | setTitle | setAppId => exact hkeep hs' rfl rfl (by simp)
  | createSurface role width height format =>
    rcases surface_of_insert_surface hs' with ⟨hi, rfl⟩ | ⟨hi, hs⟩
    · exact .create role width height format hi rfl rfl rfl
    · exact hkeep hs rfl rfl fun _ _ _ _ _ => hi
  | @destroySurface _ _ hs _ _ hr1 hr2 =>
    subst hr1
    subst hr2
    obtain ⟨-, hs'⟩ := of_getElem?_erase hs'
    rw [Arm.releaseCommitted_fst, Arm.cancelPending_fst _ (hx.links.sound _ _ hs)] at hs'
    exact hkeep (surface_of_freeRef (surface_of_freeRef hs')) rfl rfl (by simp)
  | ackConfigure hs =>
    rcases surface_of_insert_surface hs' with ⟨rfl, rfl⟩ | ⟨hi, hs⟩
    · rw [hs]
      exact .ack rfl rfl
    · exact hkeep hs rfl rfl (by simp)
  | importBuffer =>
    exact hkeep (surface_of_insert_buffer hs') rfl rfl (by simp)
  | destroyBuffer => exact hkeep (of_getElem?_erase hs').2 rfl rfl (by simp)
  | attachNothing hs =>
    rcases surface_of_insert_surface hs' with ⟨rfl, rfl⟩ | ⟨hi, hs⟩ <;>
      exact hkeep hs rfl rfl (by simp)
  | attachSome _ hs =>
    rcases surface_of_insert_surface hs' with ⟨rfl, rfl⟩ | ⟨hi, hs⟩
    · exact hkeep hs rfl rfl (by simp)
    · exact hkeep (surface_of_insert_buffer hs) rfl rfl (by simp)
  | commitUnmap hs _ _ _ _ _ _ hr =>
    subst hr
    rw [Arm.releaseCommitted_fst] at hs'
    rcases surface_of_insert_surface (surface_of_freeRef hs') with ⟨rfl, rfl⟩ | ⟨hi, hs⟩ <;>
      exact hkeep hs rfl rfl (by simp)
  | commitMap hs _ hne _ _ _ _ _ hr =>
    subst hr
    rw [replaced_eq _ (hx.links.committed_ne_pending hs hne), Arm.releaseCommitted_fst] at hs'
    rcases surface_of_insert_surface (surface_of_freeRef hs') with ⟨rfl, rfl⟩ | ⟨-, hs⟩
    · exact hkeep hs rfl rfl (by simp)
    · exact hkeep (surface_of_insert_buffer hs) rfl rfl (by simp)

/-- Only CREATE_SURFACE is answered with a CONFIGURE, and for its own surface. -/
theorem Effect.configures (h : Effect k now header cap req x batch y) {e : ObjectId × Event}
    (he : e ∈ batch) (hev : e.2.isConfigure = true) :
    e.1 = header.object ∧ ∃ role width height format,
      req = .createSurface role width height format := by
  cases h.parts e he with
  | configure hreq => exact ⟨rfl, _, _, _, _, hreq⟩
  | _ => cases hev

end

/-! ### Runs -/

section

variable {k : ConnId} {now : UInt64} {c c' : Connection} {l items : List Item}

theorem not_configures_sends {batch : Batch} (h : ∀ e ∈ batch, e.1 = i → e.2.isConfigure = false) :
    ∀ a ∈ c.sends k batch, ¬Configures i a := by
  rintro a ha ⟨p, rfl, hp, hev⟩
  obtain ⟨e, he, n, hpe⟩ := of_mem_sends ha
  cases hpe
  rw [h e he hp] at hev
  cases hev

theorem commitReady_sends {batch : Batch} (l : List Item) :
    Always (fun before => CommitReady (l ++ before)) (c.sends k batch) := by
  refine always_of_forall_mem fun before a ha header configure frameCallback h => ?_
  obtain ⟨e, -, n, rfl⟩ := of_mem_sends ha
  cases h

/-- A packet that was sent last has a serial of its own. -/
theorem fresh_of_nodup {p : Packet} (hnodup : (sentSerials (l ++ [.sent p])).Nodup)
    (hzero : 0 ∉ sentSerials (l ++ [.sent p])) : p.serial ∉ sentSerials l ∧ p.serial ≠ 0 := by
  have hone : sentSerials [.sent p] = [p.serial] := rfl
  rw [sentSerials_append, hone] at hnodup hzero
  refine ⟨fun hp => ?_, fun hp => hzero (mem_append_right _ (by simp [hp]))⟩
  exact (nodup_append.mp hnodup).2.2 _ hp _ (mem_singleton_self _) rfl

/-- **Every step keeps the tokens right**, as long as no serial has come twice. -/
theorem Step.tokensOk (h : Step k now c items c') (hc : c.Wf)
    (hnodup : (sentSerials (l ++ items)).Nodup) (hzero : 0 ∉ sentSerials (l ++ items))
    (hl : ∀ (i : ObjectId) (s : Surface), c.objects[i]? = some (.surface s) → TokensOk l i s) :
    ∀ (i : ObjectId) (s : Surface), c'.objects[i]? = some (.surface s) →
      TokensOk (l ++ items) i s := by
  intro i s' hs'
  have hone : ∀ {object : ObjectId} {ev : Event}, ev.isConfigure = false →
      ∀ a ∈ c.sends k [(object, ev)], ¬Configures i a := fun hev =>
    not_configures_sends fun e he _ => by rw [mem_singleton.mp he]; exact hev
  cases h with
  | idle => exact (hl i s' hs').append (by simp) rfl rfl
  | refuse | reject | disconnect =>
    exact (hl i s' hs').append (not_configures_cons (by simp) (hone rfl)) rfl rfl
  | @accept header _ _ _ _ _ _ _ _ _ _ hx he =>
    have hstep := he.tokens (by rw [hx]; exact ⟨hc.links, hc.tally⟩) hs'
    rw [hx] at hstep
    generalize ho : c.objects[i]? = o at hstep
    cases hstep with
    | keep h1 h2 hreq =>
      refine (hl i _ ho).append
        (not_configures_cons (by simp) (not_configures_sends fun e hmem hi => ?_)) h1 h2
      refine Bool.eq_false_iff.mpr fun hev => ?_
      obtain ⟨hobject, role, width, height, format, hcreate⟩ := he.configures hmem hev
      exact hreq _ _ _ _ hcreate (hi.symm.trans hobject)
    | create role width height format hi hreq h1 h2 =>
      subst hreq
      cases he
      -- The answer is RESULT and then CONFIGURE, with the serial that was predicted.
      have hsplit : l ++ .accepted header (.createSurface role width height format) ::
          c.sends k [(header.object, .result header.serial),
            (header.object, .configure width height 1 stateActivated)] =
          (l ++ [.accepted header (.createSurface role width height format),
            .sent ⟨k, header.object, c.nextServerSerial, .result header.serial⟩]) ++
            [.sent ⟨k, header.object, c.nextServerSerial + 1,
              .configure width height 1 stateActivated⟩] := by
        rw [append_assoc]
        rfl
      rw [hsplit] at hnodup hzero ⊢
      have hfresh := fresh_of_nodup hnodup hzero
      exact TokensOk.reconfigured (Or.inl h2) hi.symm rfl h1 hfresh.2 hfresh.1
    | ack hi hreq =>
      subst hreq
      refine (hl i _ ho).acknowledged hi.symm (not_configures_sends fun e hmem _ => ?_)
      refine Bool.eq_false_iff.mpr fun hev => ?_
      obtain ⟨-, role, width, height, format, hcreate⟩ := he.configures hmem hev
      cases hcreate
  | composite =>
    obtain ⟨s, hs, h1, h2⟩ : ∃ s, c.objects[i]? = some (.surface s) ∧
        s'.latestToken = s.latestToken ∧ s'.ackedToken = s.ackedToken := by
      dsimp only [bump, composed] at hs'
      rw [ExtTreeMap.getElem?_map] at hs'
      rcases ho : c.objects[i]? with _ | ⟨s | b⟩ <;> rw [ho] at hs' <;> cases hs'
      exact ⟨s, rfl, rfl, rfl⟩
    refine (hl i s hs).append (not_configures_cons (by simp)
      (not_configures_sends fun e he _ => ?_)) h1 h2
    obtain ⟨_, -, hev⟩ := of_mem_frames he
    rw [hev]
    rfl
  | pass => exact (hl i s' hs').append (by rintro a ha ⟨p, rfl, -⟩; simp at ha) rfl rfl
  | @reconfigure _ s _ _ _ _ _ hs =>
    rcases surface_of_insert_surface hs' with ⟨rfl, rfl⟩ | ⟨hi, hs'⟩
    · have hfresh := fresh_of_nodup hnodup hzero
      refine TokensOk.reconfigured ?_ rfl rfl rfl hfresh.2 hfresh.1
      exact (hl i s hs).acked
    · refine (hl i s' hs').append (not_configures_sends fun e he hei => ?_) rfl rfl
      rw [mem_singleton.mp he] at hei
      exact absurd hei.symm hi
  | input _ _ hinput =>
    refine (hl i s' hs').append (not_configures_sends fun e he _ => ?_) rfl rfl
    have := hinput e he
    generalize e.2 = ev at this
    cases ev <;> first | rfl | cases this
  | overflow => exact (hl i s' hs').append (hone rfl) rfl rfl

theorem commitReady_mark (l : List Item) (ha : a = .composite ∨ a = .removed) :
    Always (fun before => CommitReady (l ++ before)) [a] := by
  refine always_cons.mpr ⟨fun header configure frameCallback heq => ?_, always_nil⟩
  rcases ha with rfl | rfl <;> cases heq

/-- **A COMMIT is accepted only when it is ready.** -/
theorem Step.commitReady (h : Step k now c items c')
    (hl : ∀ (i : ObjectId) (s : Surface), c.objects[i]? = some (.surface s) → TokensOk l i s)
    (hready : Always CommitReady l) : Always CommitReady (l ++ items) := by
  refine always_append.mpr ⟨hready, ?_⟩
  have hcons : ∀ {a : Item} {batch : Batch}, CommitReady l a →
      Always (fun before => CommitReady (l ++ before)) (a :: c.sends k batch) := fun {a batch} ha =>
    always_cons.mpr ⟨by simpa using ha, by
      simpa [append_assoc] using commitReady_sends (l ++ [a])⟩
  cases h with
  | @accept header _ req _ _ _ _ hne _ _ _ hx he =>
    refine hcons fun header' configure frameCallback heq => ?_
    obtain ⟨rfl, rfl⟩ : header = header' ∧ req = .commit configure frameCallback := by
      simpa using heq
    have hsurface : ∃ s, c.objects[header.object]? = some (.surface s) ∧
        s.latestToken = configure ∧ s.ackedToken = s.latestToken := by
      cases he with
      | commitUnmap hs hpend hnone hack | commitMap hs hpend hne hb hack =>
        rw [hx] at hs
        exact ⟨_, hs, rfl, hack⟩
    obtain ⟨s, hs, rfl, hack⟩ := hsurface
    exact ⟨(hl _ s hs).latest, (hl _ s hs).ready hack⟩
  | idle => exact always_nil
  | pass => exact commitReady_mark l (Or.inl rfl)
  | reconfigure | input | overflow => exact commitReady_sends l
  | _ => exact hcons fun header' configure frameCallback heq => by cases heq

end

/-- Serials do not repeat before they wrap, and are not zero. -/
theorem nodup_serialsFrom {n : ℕ} (h : n < 2 ^ 64) :
    (serialsFrom 1 n).Nodup ∧ 0 ∉ serialsFrom 1 n := by
  have hval : ∀ j < n, (1 + UInt64.ofNat j).toNat = j + 1 := fun j hj => by
    rw [UInt64.toNat_add, UInt64.toNat_ofNat', UInt64.toNat_one, Nat.add_comm]
    omega
  refine ⟨(nodup_map_iff_inj_on nodup_range).mpr fun a ha b hb hab => ?_, fun h0 => ?_⟩
  · have := congrArg toNat hab
    rw [hval a (mem_range.mp ha), hval b (mem_range.mp hb)] at this
    omega
  · obtain ⟨j, hj, hj0⟩ := mem_map.mp h0
    have := hval j (mem_range.mp hj)
    rw [hj0] at this
    cases this

theorem length_serialsFrom (m : UInt64) (n : ℕ) : (serialsFrom m n).length = n := by
  rw [serialsFrom, length_map, length_range]

/-- **As long as the serials of a connection have not wrapped its tokens are right**: the
latest token of each surface is the serial of its last CONFIGURE and of no other packet, an
acknowledged token is the serial of a CONFIGURE of the surface, and every COMMIT that was
accepted named the last CONFIGURE after it had been acknowledged. -/
theorem run_configured (calls : List Call) (k : ConnId)
    (hwrap : (sentSerials (life k (run calls).1)).length < 2 ^ 64) :
    (∀ (c : Connection) (i : ObjectId) (s : Surface), (run calls).2.conns[k]? = some c →
      c.objects[i]? = some (.surface s) →
        Latest i s.latestToken (life k (run calls).1) ∧
        (sentSerials (life k (run calls).1)).count s.latestToken = 1 ∧
        (s.ackedToken = 0 ∨ ∃ a ∈ life k (run calls).1, ConfiguresAs i s.ackedToken a)) ∧
    Always CommitReady (life k (run calls).1) := by
  have key := life_induct
    (R := fun _ l c => c.Wf ∧
      (∃ n, sentSerials l = serialsFrom 1 n ∧ c.nextServerSerial = 1 + ofNat n) ∧
      ((sentSerials l).length < 2 ^ 64 →
        (∀ (i : ObjectId) (s : Surface), c.objects[i]? = some (.surface s) → TokensOk l i s) ∧
        Always CommitReady l))
    (G := fun _ l => (sentSerials l).length < 2 ^ 64 → Always CommitReady l)
    (fun _ now => ⟨wf_new now, ⟨0, rfl, rfl⟩, fun _ => ⟨fun i s hs => (by
      rw [new, ExtTreeMap.getElem?_empty] at hs
      cases hs), always_nil⟩⟩)
    (fun k now l c items c' hR h => by
      obtain ⟨hc, ⟨n, hl, hn⟩, hok⟩ := hR
      obtain ⟨m, hm, hn'⟩ := h.sentSerials_eq
      have hall : sentSerials (l ++ items) = serialsFrom 1 (n + m) := by
        rw [sentSerials_append, hl, hm, hn, serialsFrom_add]
      refine ⟨h.wf hc, ⟨n + m, hall, by rw [hn', hn, UInt64.ofNat_add, UInt64.add_assoc]⟩,
        fun hlt => ?_⟩
      rw [hall, length_serialsFrom] at hlt
      obtain ⟨hnodup, hzero⟩ := nodup_serialsFrom hlt
      rw [← hall] at hnodup hzero
      rw [hl, length_serialsFrom] at hok
      obtain ⟨htokens, hready⟩ := hok (by omega)
      exact ⟨h.tokensOk hc hnodup hzero htokens, h.commitReady htokens hready⟩)
    (fun _ _ => always_nil)
    (fun k l c hR hlt => by
      obtain ⟨-, -, hok⟩ := hR
      rw [sentSerials_append, length_append] at hlt
      exact always_append.mpr ⟨(hok (by omega)).2, commitReady_mark l (Or.inr rfl)⟩)
    (fun k l a ha hok hlt => by
      rw [sentSerials_append, length_append] at hlt
      exact always_append.mpr ⟨hok (by omega), commitReady_mark l ha⟩)
    calls k
  rcases key with ⟨c, hc, -, ⟨n, hl, -⟩, hok⟩ | ⟨hnone, hok⟩
  · obtain ⟨htokens, hready⟩ := hok hwrap
    refine ⟨fun c' i s hc' hs => ?_, hready⟩
    obtain rfl : c = c' := Option.some.inj (hc.symm.trans hc')
    obtain ⟨a, ha, hconf⟩ := (htokens i s hs).latest.exists_mem
    have hmem := hconf.mem_sentSerials ha
    rw [hl] at hwrap hmem ⊢
    rw [length_serialsFrom] at hwrap
    exact ⟨(htokens i s hs).latest,
      count_eq_one_of_mem (nodup_serialsFrom hwrap).1 hmem, (htokens i s hs).acked⟩
  · refine ⟨fun c i s hc => ?_, hok hwrap⟩
    rw [hnone] at hc
    cases hc

theorem run_configured_firstFrame :
    (sentSerials (life 1 (run firstFrame).1)).length < 2 ^ 64 ∧
      Always CommitReady (life 1 (run firstFrame).1) :=
  ⟨by decide +kernel, (run_configured firstFrame 1 (by decide +kernel)).2⟩

/-! ### Wrapped serials -/

/-- The first client has a surface. -/
def opening : List Call :=
  [.connect, .request 1 0 1 (.hello 0 0 0 0), .request 1 1 2 (.createSurface 1 16 16 1)]

/-- The server after `opening`, with the latest token and the next serial moved on. -/
def configuredTo (token : UInt64) : Server where
  nowNs := 0
  nextConn := 2
  nextClientId := 2
  conns := (∅ : ExtTreeMap ConnId Connection).insert 1
    { phase := .active
      createdNs := 0
      lastClientSerial := 2
      nextServerSerial := token + 1
      features := 0
      clientId := 1
      objects := (∅ : ExtTreeMap ObjectId Object).insert 1
        (.surface (Surface.new 1 16 16 token))
      idWatermark := 1
      surfaces := 1
      buffers := 0
      backingBytes := 0 }
  seat := Seat.empty

/-- The compositor configures the surface anew, with what it has. -/
def configureAgain : Call := .reconfigure 1 1 16 16 1 stateActivated

theorem configuredTo_succ :
    ((configuredTo token).exec configureAgain).2 = configuredTo (token + 1) := rfl

/-- Whether an item is an ACK_CONFIGURE. -/
def Item.isAck : Item → Bool
  | .accepted _ (.ackConfigure _) => true
  | _ => false

theorem Acks.isAck (h : Acks i token a) : a.isAck = true := by
  obtain ⟨-, rfl, -⟩ := h
  rfl

/-- Nothing but the latest token and the serials changes, and nothing is acknowledged. -/
theorem runFrom_configureAgain (n : ℕ) (t : List Seen) (token : UInt64)
    (ht : ∀ a ∈ life 1 t, a.isAck = false) :
    ∃ t', runFrom (t, configuredTo token) (List.replicate n configureAgain) =
        (t', configuredTo (token + ofNat n)) ∧ ∀ a ∈ life 1 t', a.isAck = false := by
  induction n generalizing t token with
  | zero => exact ⟨t, by simp [runFrom], ht⟩
  | succ n ih =>
    have hnext : ∀ a ∈ life 1 (t ++ [((configuredTo token).exec configureAgain).1]),
        a.isAck = false := by
      intro a ha
      rw [life_snoc, if_neg (by simp [Server.exec, configureAgain, Seen.ofPackets])] at ha
      rcases mem_append.mp ha with ha | ha
      · exact ht a ha
      · obtain ⟨p, -, rfl⟩ : ∃ p, _ ∧ Item.sent p = a := mem_map.mp ha
        rfl
    obtain ⟨t', hrun, ht'⟩ := ih _ (token + 1) hnext
    refine ⟨t', ?_, ht'⟩
    rw [replicate_succ, runFrom_cons, extend, configuredTo_succ, hrun, Nat.add_comm n,
      UInt64.ofNat_add, ← UInt64.add_assoc]
    rfl

/-- Attach nothing and commit that, naming the token zero. -/
def unmapAs : List Call :=
  [.request 1 1 3 (.attachBuffer 0 []), .request 1 1 4 (.commit 0 0)]

/-- Configure the surface until its latest token is zero, which is what a surface has
acknowledged that has acknowledged nothing; then commit. -/
def wrapTokens : List Call :=
  opening ++ (List.replicate (2 ^ 64 - 3) configureAgain ++ unmapAs)

/-- **After the serials have wrapped a COMMIT is accepted without any ACK_CONFIGURE.** -/
theorem commit_without_ack : ¬Always CommitReady (life 1 (run wrapTokens).1) := by
  have hopening : run opening = ((run opening).1, configuredTo 3) := rfl
  obtain ⟨t, ht, hnone⟩ := runFrom_configureAgain (2 ^ 64 - 3) (run opening).1 3
    (by decide +kernel)
  have hrun : (run wrapTokens).1 = t ++ (runFrom ([], configuredTo 0) unmapAs).1 := by
    rw [wrapTokens, run_append, hopening, runFrom_append, ht,
      show (3 + ofNat (2 ^ 64 - 3) : UInt64) = 0 from by decide, runFrom_eq]
  have hitems : (runFrom ([], configuredTo 0) unmapAs).1.flatMap (Seen.items 1) =
      [.accepted ⟨1, 0, 34, 48, 1, 3⟩ (.attachBuffer 0 []), .sent ⟨1, 1, 1, .result 3⟩] ++
        .accepted ⟨1, 0, 35, 48, 1, 4⟩ (.commit 0 0) :: [.sent ⟨1, 1, 2, .result 4⟩] := by
    decide +kernel
  intro h
  rw [hrun, life_append t (by decide +kernel), hitems, ← append_assoc] at h
  obtain ⟨-, hack⟩ := h _ _ _ rfl _ _ _ rfl
  obtain ⟨-, a, ha, hack, -⟩ := Since.exists_mem hack
  have hno : a.isAck = false := by
    rcases mem_append.mp ha with ha | ha
    · exact hnone a ha
    · rcases mem_pair.mp ha with rfl | rfl <;> rfl
  rw [hack.isAck] at hno
  cases hno

end DunitOS.Gui
