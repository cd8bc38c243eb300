import Wrkrs.Tls

/-!
# The TLS handshake

The handshake of `tls.rs`: one write and one read of records for each readiness event. The
session is a list of flights, the socket any source of answers. A call that makes progress
without finishing also answers "not yet", and the poll does not report a readiness again that
the call has not used up.
-/

namespace Wrkrs

set_option autoImplicit false

variable {τ κ : Type}

/-- What the handshake uses of a client session besides its transport. -/
structure HandshakeConnection (τ : Type) extends ClientConnection τ where
  isHandshaking : τ → Bool
  wantsRead : τ → Bool

namespace HandshakeConnection

variable (conn : HandshakeConnection τ)

def readRecords (s : τ) : Except IoError Unit × τ :=
  match conn.readTls s with
  | (.error error, s) => (.error error, s)
  | (.ok _, s) =>
    match conn.processNewPackets s with
    | (.error _, s) => (.error .other, s)
    | (.ok _, s) => (.ok (), s)

/-- One exchange of pending handshake bytes. -/
def handshakeStep (s : τ) : Except IoError Unit × τ :=
  match if conn.wantsWrite s then conn.writeRecords s else (.ok (), s) with
  | (.error error, s) => (.error error, s)
  | (.ok _, s) => if conn.wantsRead s then conn.readRecords s else (.ok (), s)

/-- What a step means to the loop: a blocked one is tried again, any other error is fatal. -/
def report : Except IoError Unit × τ → Except IoError Bool × τ
  | (.ok _, s) => (.ok (!conn.isHandshaking s), s)
  | (.error .wouldBlock, s) => (.ok false, s)
  | (.error .other, s) => (.error .other, s)

/-- True once the session is established. -/
def handshake (s : τ) : Except IoError Bool × τ :=
  if conn.isHandshaking s then conn.report (conn.handshakeStep s)
  else (.ok (!conn.isHandshaking s), s)

/-- The same session with more to its state: `view` forgets the rest, and no operation looks
at it. -/
structure Extends {σ : Type} (conn : HandshakeConnection τ) (plain : HandshakeConnection σ)
    (view : τ → σ) : Prop where
  wantsWrite : ∀ s, conn.wantsWrite s = plain.wantsWrite (view s)
  wantsRead : ∀ s, conn.wantsRead s = plain.wantsRead (view s)
  isHandshaking : ∀ s, conn.isHandshaking s = plain.isHandshaking (view s)
  writeTls : ∀ s, (conn.writeTls s).map id view = plain.writeTls (view s)
  readTls : ∀ s, (conn.readTls s).map id view = plain.readTls (view s)
  processNewPackets : ∀ s, (conn.processNewPackets s).map id view = plain.processNewPackets (view s)

namespace Extends

variable {σ : Type} {conn : HandshakeConnection τ} {plain : HandshakeConnection σ} {view : τ → σ}

theorem writeRecords (h : conn.Extends plain view) (s : τ) :
    (conn.writeRecords s).map id view = plain.writeRecords (view s) := by
  unfold ClientConnection.writeRecords
  rw [← h.writeTls s]
  match conn.writeTls s with
  | (.ok 0, _) => rfl
  | (.ok (_ + 1), _) => rfl
  | (.error _, _) => rfl

theorem readRecords (h : conn.Extends plain view) (s : τ) :
    (conn.readRecords s).map id view = plain.readRecords (view s) := by
  unfold HandshakeConnection.readRecords
  rw [← h.readTls s]
  match conn.readTls s with
  | (.error _, _) => rfl
  | (.ok _, t) =>
    simp only [Prod.map, id]
    rw [← h.processNewPackets t]
    match conn.processNewPackets t with
    | (.error _, _) => rfl
    | (.ok _, _) => rfl

theorem handshakeStep (h : conn.Extends plain view) (s : τ) :
    (conn.handshakeStep s).map id view = plain.handshakeStep (view s) := by
  have hwrite : (if conn.wantsWrite s then conn.writeRecords s else (.ok (), s)).map id view =
      if plain.wantsWrite (view s) then plain.writeRecords (view s) else (.ok (), view s) := by
    rw [h.wantsWrite s]
    split
    · exact h.writeRecords s
    · rfl
  unfold HandshakeConnection.handshakeStep
  rw [← hwrite]
  match if conn.wantsWrite s then conn.writeRecords s else (.ok (), s) with
  | (.error _, _) => rfl
  | (.ok _, t) =>
    simp only [Prod.map, id, h.wantsRead t]
    split
    · exact h.readRecords t
    · rfl

/-- The handshake of the larger state is the handshake of the smaller one. -/
theorem handshake (h : conn.Extends plain view) (s : τ) :
    (conn.handshake s).map id view = plain.handshake (view s) := by
  unfold HandshakeConnection.handshake
  rw [h.isHandshaking s]
  split
  · rw [← h.handshakeStep s]
    match conn.handshakeStep s with
    | (.ok _, t) => simp only [HandshakeConnection.report, Prod.map, id, h.isHandshaking t]
    | (.error .wouldBlock, _) => rfl
    | (.error .other, _) => rfl
  · rfl

end Extends

end HandshakeConnection

/-- The bytes one side sends in a row: the client's, the server's, or a message of the server
that the client refuses. -/
inductive Flight where
  | sends (bytes : Nat)
  | awaits (bytes : Nat)
  | refuses (bytes : Nat)
  deriving DecidableEq, Repr

/-- A client session: the record bytes queued for the socket, those read and not yet processed,
the plaintext held back until the handshake is over, and the flights to come. -/
structure Session where
  outgoing : Nat
  incoming : Nat
  held : Nat
  flights : List Flight
  deriving DecidableEq, Repr

namespace Session

/-- Processes what has arrived: whole flights of the server, each with the reply it calls for. -/
def advance (held : Nat) : (outgoing incoming : Nat) → List Flight → Except Unit Unit × Session
  | outgoing, incoming, [] => (.ok (), ⟨outgoing + held, incoming, 0, []⟩)
  | outgoing, incoming, .sends bytes :: flights =>
    advance held (outgoing + bytes) incoming flights
  | outgoing, incoming, .awaits bytes :: flights =>
    if bytes ≤ incoming then advance held outgoing (incoming - bytes) flights
    else (.ok (), ⟨outgoing, incoming, held, .awaits bytes :: flights⟩)
  | outgoing, incoming, .refuses bytes :: flights =>
    (if bytes ≤ incoming then .error () else .ok (),
      ⟨outgoing, incoming, held, .refuses bytes :: flights⟩)

def process (s : Session) : Except Unit Unit × Session :=
  advance s.held s.outgoing s.incoming s.flights

def fresh (flights : List Flight) : Session := (advance 0 0 0 flights).2

/-- Before the handshake is over the plaintext waits in the session. -/
def queue (s : Session) (bytes : Nat) : Session :=
  if s.flights = [] then { s with outgoing := s.outgoing + bytes }
  else { s with held := s.held + bytes }

def isHandshaking (s : Session) : Bool := !s.flights.isEmpty

/-- A session does not read while records of its own are queued. -/
def wantsRead (s : Session) : Bool := s.outgoing == 0

/-- The bytes of the server up to the end of the handshake, or of the message refused. -/
def ahead : List Flight → Nat
  | [] => 0
  | .sends _ :: flights => ahead flights
  | .awaits bytes :: flights => bytes + ahead flights
  | .refuses bytes :: _ => bytes

/-- Processing stops short of the end exactly when too few bytes have arrived. -/
theorem advance_stops_iff (held outgoing incoming : Nat) (flights : List Flight) :
    ((advance held outgoing incoming flights).1 = .ok () ∧
        (advance held outgoing incoming flights).2.isHandshaking = true) ↔
      incoming < ahead flights := by
  induction flights generalizing outgoing incoming with
  | nil => simp [advance, isHandshaking, ahead]
  | cons flight flights ih =>
    cases flight with
    | sends bytes => exact ih (outgoing + bytes) incoming
    | awaits bytes =>
      by_cases hle : bytes ≤ incoming
      · simp only [advance, if_pos hle, ih, ahead]
        omega
      · simp only [advance, if_neg hle, isHandshaking, ahead, List.isEmpty_cons, Bool.not_false,
          true_and, true_iff]
        omega
    | refuses bytes =>
      by_cases hle : bytes ≤ incoming
      · simp [advance, ahead, hle]
      · simp [advance, ahead, isHandshaking, Nat.lt_of_not_le hle, hle]

end Session

/-- A non-blocking socket, by the counts of the bytes it takes and delivers. -/
structure RawSocket (κ : Type) where
  write : κ → Nat → Except IoError Nat × κ
  read : κ → Nat → Except IoError Nat × κ
  takes : ∀ {k n m}, (write k n).1 = .ok m → m ≤ n
  fills : ∀ {k n m}, (read k n).1 = .ok m → m ≤ n

namespace RawSocket

variable (sock : RawSocket κ) (limit : Nat)

theorem takes_sends {k k' : κ} {s : Session} {n : Nat}
    (h : sock.write k s.outgoing = (.ok (n + 1), k')) :
    s.outgoing - (n + 1) < s.outgoing := by
  have hle : n + 1 ≤ s.outgoing := sock.takes (congrArg Prod.fst h)
  omega

def connection : HandshakeConnection (Session × κ) where
  write p bytes := (.ok bytes.length, p.1.queue bytes.length, p.2)
  -- No plaintext comes with the flights of a handshake.
  read p _ := (.error .wouldBlock, p)
  wantsWrite p := decide (0 < p.1.outgoing)
  writeTls p :=
    match sock.write p.2 p.1.outgoing with
    | (.ok n, k) => (.ok n, { p.1 with outgoing := p.1.outgoing - n }, k)
    | (.error error, k) => (.error error, p.1, k)
  readTls p :=
    match sock.read p.2 limit with
    | (.ok n, k) => (.ok n, { p.1 with incoming := p.1.incoming + n }, k)
    | (.error error, k) => (.error error, p.1, k)
  processNewPackets p := (p.1.process.1, p.1.process.2, p.2)
  queued p := p.1.outgoing
  wants h := of_decide_eq_true h
  sends {s n t} h := by
    cases hwrite : sock.write s.2 s.1.outgoing with
    | mk answer k =>
      simp only [hwrite] at h
      cases answer with
      | error error => cases h
      | ok m =>
        obtain ⟨hm, rfl⟩ := Prod.mk.inj h
        cases hm
        exact sock.takes_sends hwrite
  isHandshaking p := p.1.isHandshaking
  wantsRead p := p.1.wantsRead

end RawSocket

inductive Operation where
  | writeTls
  | readTls
  deriving DecidableEq, Repr

def Operation.wanted (s : Session) : Operation → Bool
  | .writeTls => decide (0 < s.outgoing)
  | .readTls => s.wantsRead

/-- The socket with the operations made on it and their answers, the last one in front. -/
def RawSocket.logged (sock : RawSocket κ) :
    RawSocket (κ × List (Operation × Except IoError Nat)) where
  write k n :=
    ((sock.write k.1 n).1, (sock.write k.1 n).2, (.writeTls, (sock.write k.1 n).1) :: k.2)
  read k n :=
    ((sock.read k.1 n).1, (sock.read k.1 n).2, (.readTls, (sock.read k.1 n).1) :: k.2)
  takes := sock.takes
  fills := sock.fills

theorem RawSocket.logged_extends (sock : RawSocket κ) (limit : Nat) :
    (sock.logged.connection limit).Extends (sock.connection limit) (Prod.map id Prod.fst) where
  wantsWrite _ := rfl
  wantsRead _ := rfl
  isHandshaking _ := rfl
  writeTls s := by
    simp only [RawSocket.connection, RawSocket.logged, Prod.map, id]
    match sock.write s.2.1 s.1.outgoing with
    | (.ok _, _) => rfl
    | (.error _, _) => rfl
  readTls s := by
    simp only [RawSocket.connection, RawSocket.logged, Prod.map, id]
    match sock.read s.2.1 limit with
    | (.ok _, _) => rfl
    | (.error _, _) => rfl
  processNewPackets _ := rfl

/-- The log is only looked at: a call does the same without it. -/
theorem handshake_logged (sock : RawSocket κ) (limit : Nat) (s : Session) (k : κ)
    (log : List (Operation × Except IoError Nat)) :
    ((sock.logged.connection limit).handshake (s, k, log)).map id (Prod.map id Prod.fst) =
      (sock.connection limit).handshake (s, k) :=
  (sock.logged_extends limit).handshake (s, k, log)

/-- The last operation was blocked, and the session wants it still. -/
def Blocked (t : Session × κ × List (Operation × Except IoError Nat)) : Prop :=
  ∃ operation, t.2.2.head? = some (operation, .error .wouldBlock) ∧ operation.wanted t.1 = true

/-- A call that answers "not yet" ends with an operation that the socket blocked. -/
def ParksBlocked (sock : RawSocket κ) (limit : Nat) (s : Session) (k : κ) : Prop :=
  ∀ {t}, (sock.logged.connection limit).handshake (s, k, []) = (.ok false, t) → Blocked t

/-- The read blocks or fails, or the handshake ends with what it delivers. -/
def ReadSettles (sock : RawSocket κ) (limit : Nat) (s : Session) (k : κ) : Prop :=
  match sock.read k limit with
  | (.ok n, _) => Session.ahead s.flights ≤ s.incoming + n
  | (.error _, _) => True

/-- The call has nothing to do, a write or a read of it blocks or fails, or all that is queued
goes out at once and all that the server still has to send comes in with one read. -/
def Settles (sock : RawSocket κ) (limit : Nat) (s : Session) (k : κ) : Prop :=
  s.flights = [] ∨
    if s.outgoing = 0 then ReadSettles sock limit s k
    else
      match sock.write k s.outgoing with
      | (.ok n, k) => n = 0 ∨ (n = s.outgoing ∧ ReadSettles sock limit s k)
      | (.error _, _) => True

section Parking
variable {sock : RawSocket κ} {limit : Nat} {s : Session} {k : κ}
  {log : List (Operation × Except IoError Nat)}

theorem not_blocked {operation : Operation} {n : Nat} :
    ¬ Blocked (s, k, (operation, .ok n) :: log) := by
  intro h
  obtain ⟨blocked, hhead, -⟩ := h
  cases Option.some.inj hhead

theorem readRecords_fails {k' : κ} {error : IoError}
    (hread : sock.read k limit = (.error error, k')) :
    (sock.logged.connection limit).readRecords (s, k, log) =
      (.error error, s, k', (.readTls, .error error) :: log) := by
  simp only [HandshakeConnection.readRecords, RawSocket.connection, RawSocket.logged, hread]

theorem readRecords_delivers {k' : κ} {n : Nat} (hread : sock.read k limit = (.ok n, k')) :
    (sock.logged.connection limit).readRecords (s, k, log) =
      ((Session.advance s.held s.outgoing (s.incoming + n) s.flights).1.mapError
          (fun _ => .other),
        (Session.advance s.held s.outgoing (s.incoming + n) s.flights).2, k',
        (.readTls, .ok n) :: log) := by
  simp only [HandshakeConnection.readRecords, RawSocket.connection, RawSocket.logged, hread,
    Session.process]
  cases Session.advance s.held s.outgoing (s.incoming + n) s.flights with
  | mk result s' => cases result <;> rfl

/-- The call goes on to "not yet" in two ways: the step was blocked, or it went through and the
session is not at its end. -/
theorem report_not_yet {result : Except IoError Unit} {t u : τ} {conn : HandshakeConnection τ} :
    conn.report (result, t) = (.ok false, u) ↔
      t = u ∧ (result = .error .wouldBlock ∨ (result = .ok () ∧ conn.isHandshaking t = true)) := by
  cases result with
  | ok _ =>
    cases hmore : conn.isHandshaking t <;> simp [HandshakeConnection.report, hmore]
  | error error => cases error <;> simp [HandshakeConnection.report]

theorem read_parks_iff (hout : s.outgoing = 0) :
    (∀ {t}, (sock.logged.connection limit).report
        ((sock.logged.connection limit).readRecords (s, k, log)) = (.ok false, t) → Blocked t) ↔
      ReadSettles sock limit s k := by
  unfold ReadSettles
  cases hread : sock.read k limit with
  | mk answer k' =>
    cases answer with
    | error error =>
      simp only [iff_true, readRecords_fails hread, report_not_yet]
      intro t h
      obtain ⟨rfl, hblock | ⟨hok, -⟩⟩ := h
      · cases hblock
        exact ⟨.readTls, rfl, by simp [Operation.wanted, Session.wantsRead, hout]⟩
      · cases hok
    | ok n =>
      have hstops := Session.advance_stops_iff s.held s.outgoing (s.incoming + n) s.flights
      simp only [readRecords_delivers hread, report_not_yet]
      constructor
      · intro hparks
        apply Nat.le_of_not_lt
        intro hless
        obtain ⟨hok, hmore⟩ := hstops.mpr hless
        exact not_blocked (hparks ⟨rfl, .inr ⟨by rw [hok]; rfl, hmore⟩⟩)
      · intro hends t h
        obtain ⟨rfl, hyet⟩ := h
        apply absurd hends
        apply Nat.not_le_of_lt
        apply hstops.mp
        cases hresult : (Session.advance s.held s.outgoing (s.incoming + n) s.flights).1 with
        | error _ => simp [hresult, Except.mapError] at hyet
        | ok _ =>
          obtain hblock | ⟨-, hmore⟩ := hyet
          · simp [hresult, Except.mapError] at hblock
          · exact ⟨rfl, hmore⟩

theorem handshakeStep_reads (hout : s.outgoing = 0) :
    (sock.logged.connection limit).handshakeStep (s, k, log) =
      (sock.logged.connection limit).readRecords (s, k, log) := by
  simp [HandshakeConnection.handshakeStep, RawSocket.connection, Session.wantsRead, hout]

theorem handshakeStep_writes (hout : s.outgoing ≠ 0) {answer : Except IoError Nat} {k' : κ}
    (hwrite : sock.write k s.outgoing = (answer, k')) :
    (sock.logged.connection limit).handshakeStep (s, k, log) =
      match answer with
      | .error error => (.error error, s, k', (.writeTls, .error error) :: log)
      | .ok 0 => (.error .other, s, k', (.writeTls, .ok 0) :: log)
      | .ok (n + 1) =>
        if s.outgoing = n + 1 then
          (sock.logged.connection limit).readRecords
            ({ s with outgoing := 0 }, k', (.writeTls, .ok (n + 1)) :: log)
        else (.ok (), { s with outgoing := s.outgoing - (n + 1) }, k',
          (.writeTls, .ok (n + 1)) :: log) := by
  have hpos : 0 < s.outgoing := Nat.pos_of_ne_zero hout
  simp only [HandshakeConnection.handshakeStep, ClientConnection.writeRecords,
    RawSocket.connection, RawSocket.logged, hwrite, hpos, decide_true, if_true]
  match answer with
  | .error error => rfl
  | .ok 0 => simp
  | .ok (n + 1) =>
    have hle : n + 1 ≤ s.outgoing := sock.takes (congrArg Prod.fst hwrite)
    by_cases hall : s.outgoing = n + 1
    · simp [Session.wantsRead, hall]
    · have hrest : s.outgoing - (n + 1) ≠ 0 := by omega
      simp [Session.wantsRead, hall, hrest]

theorem parksBlocked_over (h : s.flights = []) : ParksBlocked sock limit s k := by
  intro t ht
  simp [HandshakeConnection.handshake, RawSocket.connection, Session.isHandshaking, h] at ht

theorem parksBlocked_step (h : s.flights ≠ []) :
    ParksBlocked sock limit s k ↔
      ∀ {t}, (sock.logged.connection limit).report
        ((sock.logged.connection limit).handshakeStep (s, k, [])) = (.ok false, t) → Blocked t := by
  have hmore : (sock.logged.connection limit).isHandshaking (s, k, []) = true := by
    simp [RawSocket.connection, Session.isHandshaking, h]
  simp only [ParksBlocked, HandshakeConnection.handshake, if_pos hmore]

/-- The handshake parks without work it could still do exactly when its one write and its one
read settle it. -/
theorem handshake_parks_iff (sock : RawSocket κ) (limit : Nat) (s : Session) (k : κ) :
    ParksBlocked sock limit s k ↔ Settles sock limit s k := by
  unfold Settles
  by_cases hover : s.flights = []
  · exact iff_of_true (parksBlocked_over hover) (.inl hover)
  rw [parksBlocked_step hover, or_iff_right hover]
  by_cases hout : s.outgoing = 0
  · rw [if_pos hout, handshakeStep_reads hout]
    exact read_parks_iff hout
  rw [if_neg hout]
  cases hwrite : sock.write k s.outgoing with
  | mk answer k' =>
    rw [handshakeStep_writes hout hwrite]
    match answer with
    | .error error =>
      simp only [iff_true, report_not_yet]
      intro t h
      obtain ⟨rfl, hblock | ⟨hok, -⟩⟩ := h
      · cases hblock
        exact ⟨.writeTls, rfl, decide_eq_true (Nat.pos_of_ne_zero hout)⟩
      · cases hok
    | .ok 0 =>
      apply iff_of_true
      · intro t ht
        cases ht
      · exact .inl rfl
    | .ok (n + 1) =>
      by_cases hall : s.outgoing = n + 1
      · -- The queue is empty now, and the rest of the call is its read.
        simp only [hall, Nat.succ_ne_zero, true_and, false_or]
        exact read_parks_iff rfl
      · simp only [if_neg hall, report_not_yet]
        apply iff_of_false
        · intro hparks
          have hmore : s.flights.isEmpty = false := List.isEmpty_eq_false_iff.mpr hover
          exact not_blocked (hparks ⟨rfl, .inr ⟨trivial, congrArg not hmore⟩⟩)
        · intro hsettles
          obtain hzero | ⟨heq, -⟩ := hsettles
          · cases hzero
          · exact hall heq.symm

end Parking

def RawSocket.scripted : RawSocket (List (Except IoError Nat)) where
  write answers n := (.ok n, answers)
  read answers n :=
    match answers with
    | .ok m :: answers => (.ok (min m n), answers)
    | .error error :: answers => (.error error, answers)
    | [] => (.error .wouldBlock, [])
  takes h := (Except.ok.inj h).ge
  fills {answers n m} h := by
    match answers with
    | .ok _ :: _ => exact Except.ok.inj h ▸ Nat.min_le_right _ _
    | .error _ :: _ => cases h
    | [] => cases h

/-- Two flights each way. The first call sends the hello and is blocked; the second reads the
server's flight and leaves the reply to it queued, on a socket that would take it. -/
theorem reply_left_queued :
    ∃ s s' : Session,
      (RawSocket.scripted.connection 4).handshake
          (Session.fresh [.sends 2, .awaits 3, .sends 1, .awaits 1],
            [.error .wouldBlock, .ok 3]) = (.ok false, s, [.ok 3]) ∧
        (RawSocket.scripted.connection 4).handshake (s, [.ok 3]) = (.ok false, s', []) ∧
        s'.outgoing = 1 ∧ ¬ ParksBlocked RawSocket.scripted 4 s [.ok 3] := by
  refine ⟨⟨0, 0, 0, [.awaits 3, .sends 1, .awaits 1]⟩, ⟨1, 0, 0, [.awaits 1]⟩, rfl, rfl, rfl, ?_⟩
  intro hparks
  obtain ⟨operation, hhead, -⟩ := hparks rfl
  cases Option.some.inj hhead

end Wrkrs
