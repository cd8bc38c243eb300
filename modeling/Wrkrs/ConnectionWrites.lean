import Wrkrs.Library.Runs
import Wrkrs.ConnectionReads

/-!
# The bytes on the wire

What one writable call can do, and what the socket has accepted after any run of
handlers: whole requests and a front part of the current one.
-/

namespace Wrkrs

set_option autoImplicit false
set_option maxRecDepth 4096

open Text Machine Runs

variable {ε σ : Type} {engine : ScriptEngine ε} {socket : Socket σ} {now : Nat}

namespace Endpoint

def generates (engine : ScriptEngine ε) (p : Endpoint ε σ) : List Bytes :=
  if p.connection.delayed = false ∧ p.connection.written = 0 ∧ p.ctx.dynamic = true then
    match (engine.request p.ctx.engine).1 with
    | .ok bytes => [bytes]
    | .error _ => []
  else []

/-- The burst that `q` is about to offer, begun by `p` or before. -/
structure Started (engine : ScriptEngine ε) (p q : Endpoint ε σ) : Prop where
  socket : q.socket = p.socket
  written : q.connection.written = p.connection.written
  delayed : q.connection.delayed = p.connection.delayed
  dynamic : q.ctx.dynamic = p.ctx.dynamic
  hasDelay : q.ctx.hasDelay = p.ctx.hasDelay
  pipeline : q.ctx.pipeline = p.ctx.pipeline
  complete : q.ctx.counters.complete = p.ctx.counters.complete
  goesOn : p.connection.written ≠ 0 → q.connection.request = p.connection.request ∧
    q.connection.pending = p.connection.pending
  begins : p.connection.written = 0 → q.connection.pending = p.ctx.pipeline ∧
    (p.ctx.dynamic = false → q.connection.request = p.connection.request) ∧
    (p.ctx.dynamic = true → ∃ bytes, (engine.request p.ctx.engine).1 = .ok bytes ∧
      q.connection.request = .owned bytes)

theorem startBurst_error {p q : Endpoint ε σ} {error : EngineError}
    (h : p.startBurst engine now = (.error error, q)) :
    p.generates engine = [] ∧ ∃ state, q = p.withEngine state := by
  unfold startBurst at h
  split at h
  · split at h
    · split at h
      · cases h
      · rename_i hrequest
        obtain ⟨_, rfl⟩ := Prod.mk.inj h
        refine ⟨?_, _, rfl⟩
        unfold generates
        rw [hrequest]
        split <;> rfl
    · cases h
  · cases h

theorem startBurst_ok {p q : Endpoint ε σ} (h : p.startBurst engine now = (.ok (), q)) :
    Started engine p q := by
  unfold startBurst at h
  by_cases hwritten : p.connection.written = 0
  · rw [if_pos hwritten] at h
    cases hdynamic : p.ctx.dynamic with
    | false =>
      simp only [hdynamic, if_neg Bool.false_ne_true] at h
      obtain ⟨_, rfl⟩ := Prod.mk.inj h
      have hstatic : p.ctx.dynamic ≠ true := by simp [hdynamic]
      refine ⟨rfl, rfl, rfl, rfl, rfl, rfl, rfl, fun hne => absurd hwritten hne, ?_⟩
      intro _
      exact ⟨rfl, fun _ => rfl, fun hd => absurd hd hstatic⟩
    | true =>
      simp only [hdynamic, if_true] at h
      cases hrequest : engine.request p.ctx.engine with
      | mk answer state =>
        rw [hrequest] at h
        cases answer with
        | error error => cases h
        | ok bytes =>
          obtain ⟨_, rfl⟩ := Prod.mk.inj h
          have hstatic : p.ctx.dynamic ≠ false := by simp [hdynamic]
          refine ⟨rfl, rfl, rfl, rfl, rfl, rfl, rfl, fun hne => absurd hwritten hne, ?_⟩
          intro _
          refine ⟨rfl, fun hd => absurd hd hstatic, fun _ => ?_⟩
          exact ⟨bytes, by rw [hrequest], rfl⟩
  · rw [if_neg hwritten] at h
    obtain ⟨_, rfl⟩ := Prod.mk.inj h
    exact ⟨rfl, rfl, rfl, rfl, rfl, rfl, rfl, fun _ => ⟨rfl, rfl⟩, fun h0 => absurd h0 hwritten⟩

theorem generates_nil {p : Endpoint ε σ}
    (h : p.connection.delayed = true ∨ p.connection.written ≠ 0) : p.generates engine = [] := by
  unfold generates
  apply if_neg
  rintro ⟨hdelayed, hwritten, _⟩
  rcases h with h | h
  · rw [h] at hdelayed
    cases hdelayed
  · exact h hwritten

theorem Started.generates {p q : Endpoint ε σ} (h : Started engine p q)
    (hdelayed : p.connection.delayed = false) (hwritten : p.connection.written = 0)
    (hdynamic : p.ctx.dynamic = true) :
    p.generates engine = [q.connection.request.bytes] := by
  obtain ⟨bytes, hok, hbytes⟩ := (h.begins hwritten).2.2 hdynamic
  unfold Endpoint.generates
  rw [if_pos ⟨hdelayed, hwritten, hdynamic⟩, hok, hbytes]
  rfl

def unsent (p : Endpoint ε σ) : Bytes := p.connection.request.bytes.drop p.connection.written

def wrote (p : Endpoint ε σ) (written : Nat) (state : σ) : Endpoint ε σ :=
  { p with connection := { p.connection with written := written }, socket := state }

inductive Offered (socket : Socket σ) (p : Endpoint ε σ) : Event → Endpoint ε σ → Prop where
  | whole {count : Nat} {state : σ} : socket.write p.socket p.unsent = (.ok count, state) →
      p.connection.written + count = p.connection.request.bytes.length →
      Offered socket p (.interest .readable) (p.wrote 0 state)
  | part {count : Nat} {state : σ} : socket.write p.socket p.unsent = (.ok count, state) →
      p.connection.written + count ≠ p.connection.request.bytes.length →
      Offered socket p (.interest .readableWritable)
        (p.wrote (p.connection.written + count) state)
  | blocked {state : σ} : socket.write p.socket p.unsent = (.error .wouldBlock, state) →
      Offered socket p (.interest .readableWritable) (p.wrote p.connection.written state)
  | failed {state : σ} : socket.write p.socket p.unsent = (.error .other, state) →
      Offered socket p .reconnect
        ((p.withCounters p.ctx.counters.failWrite).wrote p.connection.written state)

theorem send_cases {p q : Endpoint ε σ} {event : Event} (h : p.send socket = .ok (event, q)) :
    p.connection.written ≤ p.connection.request.bytes.length ∧ Offered socket p event q := by
  unfold send at h
  by_cases hle : p.connection.written ≤ p.connection.request.bytes.length
  · refine ⟨hle, ?_⟩
    simp only [sliceFrom_eq hle, ok_bind] at h
    cases hwrite : socket.write p.socket p.unsent with
    | mk answer state =>
      have hwrite' := hwrite
      unfold unsent at hwrite'
      rw [hwrite'] at h
      rcases answer with error | count
      · cases error with
        | wouldBlock =>
          obtain ⟨rfl, rfl⟩ := Prod.mk.inj (Except.ok.inj h)
          exact .blocked hwrite
        | other =>
          obtain ⟨rfl, rfl⟩ := Prod.mk.inj (Except.ok.inj h)
          exact .failed hwrite
      · dsimp only at h
        split at h
        · obtain ⟨rfl, rfl⟩ := Prod.mk.inj (Except.ok.inj h)
          exact .whole hwrite (by assumption)
        · obtain ⟨rfl, rfl⟩ := Prod.mk.inj (Except.ok.inj h)
          exact .part hwrite (by assumption)
  · simp only [sliceFrom, if_neg hle, error_bind] at h
    cases h

inductive Wrote (engine : ScriptEngine ε) (socket : Socket σ) (p : Endpoint ε σ) :
    Event → Endpoint ε σ → Prop where
  | waits (millis : UInt64) (state : ε) : p.connection.delayed = true →
      Wrote engine socket p (.delay millis) (p.withEngine state)
  | fails (message : Str) (state : ε) : p.connection.delayed = false →
      p.generates engine = [] → Wrote engine socket p (.fatal message) (p.withEngine state)
  | offers {b q : Endpoint ε σ} {event : Event} : p.connection.delayed = false →
      Started engine p b → b.connection.written ≤ b.connection.request.bytes.length →
      Offered socket b event q → Wrote engine socket p event q

theorem writable_cases {p q : Endpoint ε σ} {event : Event}
    (h : p.writable engine socket now = .ok (event, q)) : Wrote engine socket p event q := by
  unfold writable at h
  cases hdelayed : p.connection.delayed with
  | true =>
    simp only [hdelayed, if_true] at h
    obtain ⟨rfl, rfl⟩ := Prod.mk.inj (Except.ok.inj h)
    exact .waits _ _ hdelayed
  | false =>
    simp only [hdelayed, if_neg Bool.false_ne_true] at h
    cases hstart : p.startBurst engine now with
    | mk answer b =>
      rw [hstart] at h
      cases answer with
      | ok _ =>
        obtain ⟨hle, hoffered⟩ := send_cases h
        exact .offers hdelayed (startBurst_ok hstart) hle hoffered
      | error error =>
        obtain ⟨rfl, rfl⟩ := Prod.mk.inj (Except.ok.inj h)
        obtain ⟨hnone, state, rfl⟩ := startBurst_error hstart
        exact .fails _ state hdelayed hnone

def offer (engine : ScriptEngine ε) (socket : Socket σ) (now : Nat) (p : Endpoint ε σ) :
    Option (Endpoint ε σ × Except IoError Nat) :=
  if p.connection.delayed then none
  else
    match p.startBurst engine now with
    | (.ok _, b) => some (b, (socket.write b.socket b.unsent).1)
    | (.error _, _) => none

/-- The bytes that the socket takes in a writable call. -/
def taken (engine : ScriptEngine ε) (socket : Socket σ) (now : Nat) (p : Endpoint ε σ) : Nat :=
  match p.offer engine socket now with
  | some (_, .ok count) => count
  | _ => 0

/-- The socket takes the rest of the burst. -/
def finishes (engine : ScriptEngine ε) (socket : Socket σ) (now : Nat) (p : Endpoint ε σ) : Bool :=
  match p.offer engine socket now with
  | some (b, .ok count) => b.connection.written + count == b.connection.request.bytes.length
  | _ => false

theorem offer_delayed {p : Endpoint ε σ} (h : p.connection.delayed = true) :
    p.offer engine socket now = none := if_pos h

theorem finishes_delayed {p : Endpoint ε σ} (h : p.connection.delayed = true) :
    p.finishes engine socket now = false := by
  unfold finishes
  rw [offer_delayed h]

theorem offer_started {p b : Endpoint ε σ} (hdelayed : p.connection.delayed = false)
    (hstart : p.startBurst engine now = (.ok (), b)) :
    p.offer engine socket now = some (b, (socket.write b.socket b.unsent).1) := by
  unfold offer
  rw [hdelayed, if_neg Bool.false_ne_true, hstart]

theorem writable_finishes {p q : Endpoint ε σ} {event : Event}
    (h : p.writable engine socket now = .ok (event, q)) :
    (p.finishes engine socket now = true ∧ event = .interest .readable ∧
        q.connection.written = 0) ∨
      (p.finishes engine socket now = false ∧ event ≠ .interest .readable ∧
        q.connection.written = p.connection.written + p.taken engine socket now) := by
  unfold writable at h
  cases hdelayed : p.connection.delayed with
  | true =>
    simp only [hdelayed, if_true] at h
    obtain ⟨rfl, rfl⟩ := Prod.mk.inj (Except.ok.inj h)
    unfold finishes taken
    rw [offer_delayed hdelayed]
    exact .inr ⟨rfl, nofun, rfl⟩
  | false =>
    simp only [hdelayed, if_neg Bool.false_ne_true] at h
    cases hstart : p.startBurst engine now with
    | mk answer b =>
      rw [hstart] at h
      cases answer with
      | ok _ =>
        obtain ⟨_, hoffered⟩ := send_cases h
        have hwritten := (startBurst_ok hstart).written
        unfold finishes taken
        rw [offer_started hdelayed hstart]
        cases hoffered with
        | whole hwrite hwhole =>
          rw [hwrite]
          exact .inl ⟨beq_iff_eq.mpr hwhole, rfl, rfl⟩
        | part hwrite hpart =>
          rw [hwrite, ← hwritten]
          exact .inr ⟨beq_false_of_ne hpart, nofun, rfl⟩
        | blocked hwrite =>
          rw [hwrite, ← hwritten]
          exact .inr ⟨rfl, nofun, rfl⟩
        | failed hwrite =>
          rw [hwrite, ← hwritten]
          exact .inr ⟨rfl, nofun, rfl⟩
      | error error =>
        obtain ⟨rfl, rfl⟩ := Prod.mk.inj (Except.ok.inj h)
        obtain ⟨_, state, rfl⟩ := startBurst_error hstart
        have hnone : p.offer engine socket now = none := by
          unfold offer
          rw [hdelayed, if_neg Bool.false_ne_true, hstart]
        unfold finishes taken
        rw [hnone]
        exact .inr ⟨rfl, nofun, rfl⟩

theorem readable_keeps {build : Build} {parse : ResponseParser} {fuel : Nat} {p q : Endpoint ε σ}
    {event : Event} (h : readable build parse engine socket now fuel p = .ok (event, q)) :
    Keeps p q := by
  rcases readable_spec h with hresponded | ⟨hresponded, _⟩
  · exact hresponded.keeps
  · exact hresponded.keeps

theorem readable_socket {build : Build} {parse : ResponseParser} {I : σ → Prop}
    (hread : ∀ state, I state → I (socket.read state recvbuf).2) {fuel : Nat}
    {p q : Endpoint ε σ} {event : Event} (hp : I p.socket)
    (h : readable build parse engine socket now fuel p = .ok (event, q)) : I q.socket := by
  induction fuel generalizing p with
  | zero => cases h
  | succ fuel ih =>
    unfold readable at h
    cases honce : p.readOnce build parse engine socket now with
    | error fault =>
      rw [honce] at h
      cases h
    | ok taken =>
      have hsocket : I taken.2.socket := by
        rw [(readOnce_spec honce).2]
        exact hread _ hp
      obtain ⟨event', r⟩ := taken
      rw [honce, ok_bind] at h
      cases event' with
      | some event' =>
        obtain ⟨_, rfl⟩ := Prod.mk.inj (Except.ok.inj h)
        exact hsocket
      | none => exact ih hsocket h

end Endpoint

/-- A write takes exactly the bytes it reports, or none with an error. -/
structure Socket.WellBehaved (socket : Socket σ) (accepted : σ → Bytes) : Prop where
  takes : ∀ {state bytes count next}, socket.write state bytes = (.ok count, next) →
    count ≤ bytes.length ∧ accepted next = accepted state ++ bytes.take count
  refuses : ∀ {state bytes error next}, socket.write state bytes = (.error error, next) →
    accepted next = accepted state
  reads : ∀ state size, accepted (socket.read state size).2 = accepted state

/-- One handler call on a connection, with the requests it generates, or anything that
other connections of the thread do to what they share. -/
inductive Handled (build : Build) (parse : ResponseParser) (engine : ScriptEngine ε)
    (socket : Socket σ) : Endpoint ε σ → List Bytes → Endpoint ε σ → Prop where
  | writable {p q : Endpoint ε σ} {event : Event} (now : Nat) :
      p.writable engine socket now = .ok (event, q) →
      Handled build parse engine socket p (p.generates engine) q
  | readable {p q : Endpoint ε σ} {event : Event} (now fuel : Nat) :
      Endpoint.readable build parse engine socket now fuel p = .ok (event, q) →
      Handled build parse engine socket p [] q
  | delayFired (p : Endpoint ε σ) :
      Handled build parse engine socket p [] { p with connection := p.connection.delayFired.2 }
  | elsewhere (p : Endpoint ε σ) (ctx : ThreadCtx ε) : ctx.dynamic = p.ctx.dynamic →
      Handled build parse engine socket p [] { p with ctx := ctx }

def Endpoint.opened (staticRequest : Bytes) (wantsResponse delayed : Bool) (ctx : ThreadCtx ε)
    (state : σ) : Endpoint ε σ where
  connection := (Connection.new staticRequest wantsResponse delayed).connected.2
  ctx := ctx
  socket := state

/-- The request of which a front part is on the wire. -/
def Endpoint.current (p : Endpoint ε σ) : List Bytes :=
  if p.connection.written = 0 then [] else [p.connection.request.bytes]

/-- The accepted bytes are whole requests and a front part of the current one. Static
scripts send the shared request; dynamic ones send generated requests in order, each at
most once. -/
structure OnWire (staticRequest : Bytes) (generated : List Bytes) (accepted : Bytes)
    (p : Endpoint ε σ) : Prop where
  within : p.connection.written ≤ p.connection.request.bytes.length
  requests : ∃ sent : List Bytes,
    accepted = sent.flatten ++ p.connection.request.bytes.take p.connection.written ∧
    (p.ctx.dynamic = false →
      p.connection.request.bytes = staticRequest ∧ ∀ request ∈ sent, request = staticRequest) ∧
    (p.ctx.dynamic = true → (sent ++ p.current).Sublist generated)

section Wire
variable {staticRequest accepted : Bytes} {generated : List Bytes} {p q : Endpoint ε σ}

theorem OnWire.keeps (h : OnWire staticRequest generated accepted p)
    (hrequest : q.connection.request = p.connection.request)
    (hwritten : q.connection.written = p.connection.written)
    (hdynamic : q.ctx.dynamic = p.ctx.dynamic) : OnWire staticRequest generated accepted q := by
  obtain ⟨hwithin, hrequests⟩ := h
  have hcurrent : q.current = p.current := by
    unfold Endpoint.current
    rw [hwritten, hrequest]
  constructor
  · rw [hrequest, hwritten]
    exact hwithin
  · rw [hrequest, hwritten, hdynamic, hcurrent]
    exact hrequests

theorem OnWire.started (h : OnWire staticRequest generated accepted p)
    (hdelayed : p.connection.delayed = false) (hstart : Endpoint.Started engine p q) :
    ∃ sent : List Bytes,
      accepted = sent.flatten ++ q.connection.request.bytes.take q.connection.written ∧
      (q.ctx.dynamic = false →
        q.connection.request.bytes = staticRequest ∧ ∀ request ∈ sent, request = staticRequest) ∧
      (q.ctx.dynamic = true →
        (sent ++ [q.connection.request.bytes]).Sublist (generated ++ p.generates engine)) := by
  obtain ⟨hwithin, sent, haccepted, hstatic, hdynamic⟩ := h
  unfold Endpoint.current at hdynamic
  by_cases hwritten : p.connection.written = 0
  · obtain ⟨_, hshared, _⟩ := hstart.begins hwritten
    rw [if_pos hwritten, List.append_nil] at hdynamic
    refine ⟨sent, ?_, ?_, ?_⟩
    · rw [hstart.written, hwritten, List.take_zero]
      rw [hwritten, List.take_zero] at haccepted
      exact haccepted
    · intro hd
      rw [hstart.dynamic] at hd
      rw [hshared hd]
      exact hstatic hd
    · intro hd
      rw [hstart.dynamic] at hd
      rw [hstart.generates hdelayed hwritten hd]
      exact (hdynamic hd).append (List.Sublist.refl _)
  · obtain ⟨hrequest, _⟩ := hstart.goesOn hwritten
    rw [if_neg hwritten] at hdynamic
    refine ⟨sent, ?_, ?_, ?_⟩
    · rw [hstart.written, hrequest]
      exact haccepted
    · rw [hstart.dynamic, hrequest]
      exact hstatic
    · rw [hstart.dynamic, hrequest, Endpoint.generates_nil (.inr hwritten), List.append_nil]
      exact hdynamic

theorem OnWire.front {b : Endpoint ε σ} (sent : List Bytes)
    (hle : q.connection.written ≤ b.connection.request.bytes.length)
    (hrequest : q.connection.request = b.connection.request) (hctx : q.ctx.dynamic = b.ctx.dynamic)
    (hstatic : b.ctx.dynamic = false →
      b.connection.request.bytes = staticRequest ∧ ∀ request ∈ sent, request = staticRequest)
    (hdynamic : b.ctx.dynamic = true →
      (sent ++ [b.connection.request.bytes]).Sublist generated) :
    OnWire staticRequest generated
      (sent.flatten ++ b.connection.request.bytes.take q.connection.written) q := by
  refine ⟨by rw [hrequest]; exact hle, sent, by rw [hrequest], ?_, ?_⟩
  · rw [hctx, hrequest]
    exact hstatic
  · intro hd
    rw [hctx] at hd
    unfold Endpoint.current
    rw [hrequest]
    split
    · rw [List.append_nil]
      exact (List.sublist_append_left _ _).trans (hdynamic hd)
    · exact hdynamic hd

theorem OnWire.offered {taken : σ → Bytes} (behaved : socket.WellBehaved taken) {b : Endpoint ε σ}
    {event : Event} {before : Bytes} {sent : List Bytes}
    (hle : b.connection.written ≤ b.connection.request.bytes.length)
    (haccepted : taken b.socket =
      before ++ (sent.flatten ++ b.connection.request.bytes.take b.connection.written))
    (hstatic : b.ctx.dynamic = false →
      b.connection.request.bytes = staticRequest ∧ ∀ request ∈ sent, request = staticRequest)
    (hdynamic : b.ctx.dynamic = true →
      (sent ++ [b.connection.request.bytes]).Sublist generated)
    (h : Endpoint.Offered socket b event q) :
    ∃ after, taken q.socket = before ++ after ∧ OnWire staticRequest generated after q := by
  have hlength : b.unsent.length = b.connection.request.bytes.length - b.connection.written :=
    List.length_drop
  cases h with
  | @whole count state hwrite hwhole =>
    obtain ⟨_, htaken⟩ := behaved.takes hwrite
    have hall : b.unsent.take count = b.unsent := List.take_of_length_le (by omega)
    have hbytes : b.connection.request.bytes.take b.connection.written ++ b.unsent =
        b.connection.request.bytes := List.take_append_drop _ _
    refine ⟨(sent ++ [b.connection.request.bytes]).flatten, ?_, Nat.zero_le _,
      sent ++ [b.connection.request.bytes], (List.append_nil _).symm, ?_, ?_⟩
    · change taken state = _
      rw [htaken, haccepted, hall, List.append_assoc, List.append_assoc, hbytes,
        List.flatten_append, List.flatten_singleton]
    · intro hd
      obtain ⟨hshared, hsent⟩ := hstatic hd
      refine ⟨hshared, ?_⟩
      intro request hmem
      rcases List.mem_append.mp hmem with hold | hnew
      · exact hsent request hold
      · rw [List.mem_singleton.mp hnew]
        exact hshared
    · intro hd
      change (_ ++ []).Sublist generated
      rw [List.append_nil]
      exact hdynamic hd
  | @part count state hwrite hpart =>
    obtain ⟨hcount, htaken⟩ := behaved.takes hwrite
    refine ⟨_, ?_, OnWire.front (b := b) sent (by
      change b.connection.written + count ≤ _
      omega) rfl rfl hstatic hdynamic⟩
    change taken state =
      before ++ (sent.flatten ++ b.connection.request.bytes.take (b.connection.written + count))
    rw [htaken, haccepted, List.take_add, List.append_assoc, List.append_assoc]
    rfl
  | blocked hwrite =>
    refine ⟨_, ?_, OnWire.front (b := b) sent hle rfl rfl hstatic hdynamic⟩
    exact (behaved.refuses hwrite).trans haccepted
  | failed hwrite =>
    refine ⟨_, ?_, OnWire.front (b := b) sent hle rfl rfl hstatic hdynamic⟩
    exact (behaved.refuses hwrite).trans haccepted

end Wire

/-- One handler call keeps the wire in shape. -/
theorem handled_onWire {build : Build} {parse : ResponseParser} {taken : σ → Bytes}
    (behaved : socket.WellBehaved taken) {staticRequest before after : Bytes}
    {generated fresh : List Bytes} {p q : Endpoint ε σ}
    (htaken : taken p.socket = before ++ after) (h : OnWire staticRequest generated after p)
    (hstep : Handled build parse engine socket p fresh q) :
    ∃ later, taken q.socket = before ++ later ∧
      OnWire staticRequest (generated ++ fresh) later q := by
  cases hstep with
  | writable now hwritable =>
    cases Endpoint.writable_cases hwritable with
    | waits millis state hdelayed =>
      rw [Endpoint.generates_nil (.inl hdelayed), List.append_nil]
      exact ⟨after, htaken, h.keeps rfl rfl rfl⟩
    | fails message state _ hnone =>
      rw [hnone, List.append_nil]
      exact ⟨after, htaken, h.keeps rfl rfl rfl⟩
    | @offers b _ _ hdelayed hstart hle hoffered =>
      obtain ⟨sent, haccepted, hstatic, hdynamic⟩ := h.started hdelayed hstart
      apply OnWire.offered behaved hle _ hstatic hdynamic hoffered
      rw [hstart.socket, htaken, haccepted]
  | readable now fuel hreadable =>
    have hkeeps := Endpoint.readable_keeps hreadable
    have hsocket : taken q.socket = taken p.socket :=
      Endpoint.readable_socket (I := fun state => taken state = taken p.socket)
        (fun state hstate => (behaved.reads state _).trans hstate) rfl hreadable
    rw [List.append_nil]
    exact ⟨after, hsocket.trans htaken, h.keeps hkeeps.request hkeeps.written hkeeps.dynamic⟩
  | delayFired =>
    rw [List.append_nil]
    exact ⟨after, htaken, h.keeps rfl rfl rfl⟩
  | elsewhere ctx hdynamic =>
    rw [List.append_nil]
    exact ⟨after, htaken, h.keeps rfl rfl hdynamic⟩

/-- Over any well-behaved socket and in any order of handler calls, the bytes accepted
since the connect are whole requests and a front part of the current one. -/
theorem wire_integrity (build : Build) (parse : ResponseParser) (engine : ScriptEngine ε)
    (socket : Socket σ) (accepted : σ → Bytes) (behaved : socket.WellBehaved accepted)
    (staticRequest : Bytes) (wantsResponse delayed : Bool) (ctx : ThreadCtx ε) (state : σ)
    (generated : List (List Bytes)) (p : Endpoint ε σ)
    (h : Run (Handled build parse engine socket)
      (.opened staticRequest wantsResponse delayed ctx state) generated p) :
    ∃ after, accepted p.socket = accepted state ++ after ∧
      OnWire staticRequest generated.flatten after p := by
  apply h.history (I := fun generated p => ∃ after, accepted p.socket = accepted state ++ after ∧
    OnWire staticRequest generated.flatten after p)
  · refine ⟨[], (List.append_nil _).symm, Nat.zero_le _, [], rfl, ?_, ?_⟩
    · intro _
      exact ⟨rfl, fun request hmem => by cases hmem⟩
    · intro _
      exact List.Sublist.refl _
  · intro generated p fresh q hinv _ hstep
    obtain ⟨after, htaken, honwire⟩ := hinv
    rw [List.flatten_append, List.flatten_singleton]
    exact handled_onWire behaved htaken honwire hstep

theorem queueSocket_behaved : queueSocket.WellBehaved (·.2) where
  takes := by
    intro state bytes count next h
    obtain ⟨hcount, rfl⟩ := Prod.mk.inj h
    obtain rfl := Except.ok.inj hcount
    refine ⟨Nat.le_refl _, ?_⟩
    rw [List.take_length]
  refuses := by
    intro state bytes error next h
    cases (Prod.mk.inj h).1
  reads := by
    intro state size
    unfold queueSocket
    dsimp only
    split <;> rfl

def byteSocket : Socket (List Bytes × Bytes) where
  write state bytes := (.ok (min 1 bytes.length), (state.1, state.2 ++ bytes.take 1))
  read := queueSocket.read

theorem byteSocket_behaved : byteSocket.WellBehaved (·.2) where
  takes := by
    intro state bytes count next h
    obtain ⟨hcount, rfl⟩ := Prod.mk.inj h
    obtain rfl := Except.ok.inj hcount
    exact ⟨Nat.min_le_right _ _, congrArg (state.2 ++ ·) List.take_eq_take_min⟩
  refuses := by
    intro state bytes error next h
    cases (Prod.mk.inj h).1
  reads := queueSocket_behaved.reads

def listEngine : ScriptEngine (List Bytes) where
  delay requests := (0, requests)
  request requests :=
    match requests with
    | [] => (.error (.runtime []), [])
    | request :: rest => (.ok request, rest)
  response requests _ _ _ := (.ok (), requests)

/-- A dynamic connection of a script that generates the listed requests. -/
def listed (requests : List Bytes) (state : σ) : Endpoint (List Bytes) σ :=
  .opened [] false false { quietCtx 1 false with dynamic := true, engine := requests } state

def Endpoint.next (engine : ScriptEngine ε) (socket : Socket σ) (p : Endpoint ε σ) :
    Endpoint ε σ :=
  match p.writable engine socket 0 with
  | .ok (_, q) => q
  | .error _ => p

theorem next_handled {p : Endpoint ε σ} (h : (p.writable engine socket 0).isOk = true) :
    Handled .release reference engine socket p (p.generates engine) (p.next engine socket) := by
  unfold Endpoint.next
  cases hwritable : p.writable engine socket 0 with
  | error fault =>
    rw [hwritable] at h
    cases h
  | ok taken => exact .writable 0 hwritable

/-- Three writes of a byte: the first request and one half of the second. -/
def byteRun : Endpoint (List Bytes) (List Bytes × Bytes) :=
  (List.range 3).foldl (fun p _ => p.next listEngine byteSocket)
    (listed [[65, 66], [67, 68]] ([], []))

theorem wire_integrity_sample :
    ∃ after, byteRun.socket.2 = [] ++ after ∧ byteRun.connection.written = 1 ∧
      OnWire [] [[65, 66], [67, 68]] after byteRun := by
  have hrun : Run (Handled .release reference listEngine byteSocket)
      (listed [[65, 66], [67, 68]] ([], [])) [[[65, 66]], [], [[67, 68]]] byteRun :=
    (((Run.refl _).tail (next_handled rfl)).tail (next_handled rfl)).tail (next_handled rfl)
  obtain ⟨after, hafter, hwire⟩ := wire_integrity .release reference listEngine byteSocket (·.2)
    byteSocket_behaved [] false false _ ([], []) _ byteRun hrun
  exact ⟨after, hafter, rfl, hwire⟩

end Wrkrs
