import Mathlib.Data.List.Sublists
import Mathlib.Data.List.TakeDrop
import Wrkrs.ConnectionWrites

/-!
# The TLS transport

The stream of `tls.rs` over any client session. A chunk whose records block counts as
unsent until the next write acknowledges it, while a connection that has nothing
acknowledged generates a new request: the two agree only when the new request goes on
where the chunk ended.
-/

namespace Wrkrs

set_option autoImplicit false
set_option maxRecDepth 4096

open Text Machine Runs

variable {ε τ : Type}

/-- What the transport uses of a client session over its socket. The bytes of queued
records bound the flush loop. -/
structure ClientConnection (τ : Type) where
  write : τ → Bytes → Except IoError Nat × τ
  read : τ → Nat → Except IoError Bytes × τ
  wantsWrite : τ → Bool
  writeTls : τ → Except IoError Nat × τ
  readTls : τ → Except IoError Nat × τ
  processNewPackets : τ → Except Unit Unit × τ
  queued : τ → Nat
  wants : ∀ {s}, wantsWrite s = true → 0 < queued s
  sends : ∀ {s n t}, writeTls s = (.ok (n + 1), t) → queued t < queued s

namespace ClientConnection

variable (conn : ClientConnection τ)

/-- One step of `writeTls`; a write of nothing stops the loop with an error. -/
def writeRecords (s : τ) : Except IoError Unit × τ :=
  match conn.writeTls s with
  | (.ok 0, s) => (.error .other, s)
  | (.ok (_ + 1), s) => (.ok (), s)
  | (.error error, s) => (.error error, s)

theorem writeRecords_ok {s t : τ} (h : conn.writeRecords s = (.ok (), t)) :
    conn.queued t < conn.queued s := by
  unfold writeRecords at h
  split at h
  · cases (Prod.mk.inj h).1
  · rename_i hwrite
    obtain ⟨_, rfl⟩ := Prod.mk.inj h
    exact conn.sends hwrite
  · cases (Prod.mk.inj h).1

/-- The flush loop on a bound for what is queued. Nothing queued is nothing wanted, so
the bound never runs out. -/
def flushWithin : (bound : Nat) → (s : τ) → conn.queued s ≤ bound → Except IoError Unit × τ
  | 0, s, _ => (.ok (), s)
  | bound + 1, s, hbound =>
    if conn.wantsWrite s then
      match hwrite : conn.writeRecords s with
      | (.ok _, t) =>
        flushWithin bound t (by have := conn.writeRecords_ok hwrite; omega)
      | (.error error, t) => (.error error, t)
    else (.ok (), s)

def flushTls (s : τ) : Except IoError Unit × τ := conn.flushWithin (conn.queued s) s (Nat.le_refl _)

theorem flushWithin_congr {s : τ} {bound least : Nat} (h : conn.queued s ≤ bound)
    (h' : conn.queued s ≤ least) : conn.flushWithin bound s h = conn.flushWithin least s h' := by
  induction bound generalizing s least with
  | zero =>
    have hwants : conn.wantsWrite s ≠ true := fun hwants => by
      have := conn.wants hwants
      omega
    cases least with
    | zero => rfl
    | succ least => simp only [flushWithin, if_neg hwants]
  | succ bound ih =>
    cases least with
    | zero =>
      have hwants : conn.wantsWrite s ≠ true := fun hwants => by
        have := conn.wants hwants
        omega
      simp only [flushWithin, if_neg hwants]
    | succ least =>
      unfold flushWithin
      split
      · split
        · rename_i t hwrite
          have hless := conn.writeRecords_ok hwrite
          exact ih (by omega) (by omega)
        · rfl
      · rfl

theorem flushTls_stops {s : τ} (h : conn.wantsWrite s = false) : conn.flushTls s = (.ok (), s) := by
  rw [flushTls, conn.flushWithin_congr _ (Nat.le_succ _)]
  simp only [flushWithin, h, if_neg Bool.false_ne_true]

theorem flushTls_goes_on {s t : τ} (h : conn.wantsWrite s = true)
    (hwrite : conn.writeRecords s = (.ok (), t)) : conn.flushTls s = conn.flushTls t := by
  rw [flushTls, conn.flushWithin_congr _ (Nat.le_succ _)]
  unfold flushWithin
  rw [if_pos h]
  split
  · rename_i u hwrite'
    obtain ⟨_, rfl⟩ := Prod.mk.inj (hwrite.symm.trans hwrite')
    exact conn.flushWithin_congr _ _
  · rename_i hwrite'
    cases (Prod.mk.inj (hwrite.symm.trans hwrite')).1

theorem flushTls_fails {s t : τ} {error : IoError} (h : conn.wantsWrite s = true)
    (hwrite : conn.writeRecords s = (.error error, t)) : conn.flushTls s = (.error error, t) := by
  rw [flushTls, conn.flushWithin_congr _ (Nat.le_succ _)]
  unfold flushWithin
  rw [if_pos h]
  split
  · rename_i hwrite'
    cases (Prod.mk.inj (hwrite.symm.trans hwrite')).1
  · rename_i hwrite'
    obtain ⟨herror, rfl⟩ := Prod.mk.inj (hwrite.symm.trans hwrite')
    rw [Except.error.inj herror]

def receive (s : τ) (size : Nat) : Except IoError Bytes × τ :=
  match conn.flushTls s with
  | (.error error, s) => (.error error, s)
  | (.ok _, s) =>
    match conn.read s size with
    | (.ok bytes, s) => (.ok bytes, s)
    | (.error .other, s) => (.error .other, s)
    | (.error .wouldBlock, s) =>
      match conn.readTls s with
      | (.error error, s) => (.error error, s)
      | (.ok _, s) =>
        match conn.processNewPackets s with
        | (.error _, s) => (.error .other, s)
        | (.ok _, s) => conn.read s size

/-- What the session promises of the plaintext handed to it. -/
structure Lawful (plaintext : τ → Bytes) : Prop where
  queues : ∀ {s bytes n t}, conn.write s bytes = (.ok n, t) →
    n ≤ bytes.length ∧ plaintext t = plaintext s ++ bytes.take n
  refuses : ∀ {s bytes error t}, conn.write s bytes = (.error error, t) → plaintext t = plaintext s
  sendsRecords : ∀ s, plaintext (conn.writeTls s).2 = plaintext s
  reads : ∀ s size, plaintext (conn.read s size).2 = plaintext s
  readsRecords : ∀ s, plaintext (conn.readTls s).2 = plaintext s
  processes : ∀ s, plaintext (conn.processNewPackets s).2 = plaintext s

end ClientConnection

/-- One session, with the plaintext bytes queued whose records are not on the wire yet. -/
structure TlsStream (τ : Type) where
  session : τ
  sending : Nat

namespace TlsStream

variable (conn : ClientConnection τ)

/-- Finishes the previous chunk before queueing new plaintext: the retry after a blocked
flush reports its completion. -/
def write (t : TlsStream τ) (bytes : Bytes) : Except IoError Nat × TlsStream τ :=
  match conn.flushTls t.session with
  | (.error error, s) => (.error error, { t with session := s })
  | (.ok _, s) =>
    if 0 < t.sending then (.ok t.sending, ⟨s, 0⟩)
    else
      match conn.write s bytes with
      | (.error error, s) => (.error error, { t with session := s })
      | (.ok queued, s) =>
        match conn.flushTls s with
        | (.ok _, s) => (.ok queued, ⟨s, 0⟩)
        | (.error error, s) => (.error error, ⟨s, queued⟩)

def read (t : TlsStream τ) (size : Nat) : Except IoError Bytes × TlsStream τ :=
  let (result, s) := conn.receive t.session size
  (result, { t with session := s })

def socket : Socket (TlsStream τ) where
  write := write conn
  read := read conn

end TlsStream

section Session
variable {conn : ClientConnection τ} {plaintext : τ → Bytes}

theorem ClientConnection.Lawful.writesRecords (lawful : conn.Lawful plaintext) {s t : τ}
    {result : Except IoError Unit} (h : conn.writeRecords s = (result, t)) :
    plaintext t = plaintext s := by
  have hkept := lawful.sendsRecords s
  unfold writeRecords at h
  split at h
  all_goals
    rename_i hwrite
    obtain ⟨_, rfl⟩ := Prod.mk.inj h
    rwa [hwrite] at hkept

theorem ClientConnection.Lawful.flushes (lawful : conn.Lawful plaintext) (s : τ) :
    plaintext (conn.flushTls s).2 = plaintext s := by
  generalize hbound : conn.queued s = bound
  induction bound using Nat.strongRecOn generalizing s with
  | ind bound ih =>
    cases hwants : conn.wantsWrite s with
    | false => rw [conn.flushTls_stops hwants]
    | true =>
      cases hwrite : conn.writeRecords s with
      | mk result t =>
        have hkept := lawful.writesRecords hwrite
        cases result with
        | ok _ =>
          have hless := conn.writeRecords_ok hwrite
          rw [conn.flushTls_goes_on hwants hwrite, ih (conn.queued t) (by omega) t rfl]
          exact hkept
        | error error =>
          rw [conn.flushTls_fails hwants hwrite]
          exact hkept

theorem ClientConnection.Lawful.receives (lawful : conn.Lawful plaintext) (s : τ) (size : Nat) :
    plaintext (conn.receive s size).2 = plaintext s := by
  have hflushed := lawful.flushes s
  unfold receive
  split
  · rename_i hflush
    rwa [hflush] at hflushed
  · rename_i t hflush
    rw [hflush] at hflushed
    have hread := (lawful.reads t size).trans hflushed
    split
    · rename_i hanswer
      rwa [hanswer] at hread
    · rename_i hanswer
      rwa [hanswer] at hread
    · rename_i u hanswer
      rw [hanswer] at hread
      have hrecords := (lawful.readsRecords u).trans hread
      split
      · rename_i hreadTls
        rwa [hreadTls] at hrecords
      · rename_i v hreadTls
        rw [hreadTls] at hrecords
        have hprocessed := (lawful.processes v).trans hrecords
        split
        · rename_i hprocess
          rwa [hprocess] at hprocessed
        · rename_i w hprocess
          rw [hprocess] at hprocessed
          exact (lawful.reads w size).trans hprocessed

namespace TlsStream

inductive Wrote (conn : ClientConnection τ) (plaintext : τ → Bytes) (t : TlsStream τ)
    (bytes : Bytes) : Except IoError Nat → TlsStream τ → Prop where
  /-- The earlier chunk is on the wire now. -/
  | acknowledged {s : τ} : 0 < t.sending → (conn.flushTls t.session).1 = .ok () →
      plaintext s = plaintext t.session →
      Wrote conn plaintext t bytes (.ok t.sending) ⟨s, 0⟩
  | taken {s : τ} {n : Nat} : t.sending = 0 → n ≤ bytes.length →
      plaintext s = plaintext t.session ++ bytes.take n →
      Wrote conn plaintext t bytes (.ok n) ⟨s, 0⟩
  | held {s : τ} (error : IoError) :
      (0 < t.sending → (conn.flushTls t.session).1 ≠ .ok ()) →
      plaintext s = plaintext t.session →
      Wrote conn plaintext t bytes (.error error) ⟨s, t.sending⟩
  /-- Queued, but the socket blocks: the caller hears of no byte taken. -/
  | stuck {s : τ} {n : Nat} (error : IoError) : t.sending = 0 → n ≤ bytes.length →
      plaintext s = plaintext t.session ++ bytes.take n →
      Wrote conn plaintext t bytes (.error error) ⟨s, n⟩

theorem write_spec (lawful : conn.Lawful plaintext) (t : TlsStream τ) (bytes : Bytes) :
    Wrote conn plaintext t bytes (write conn t bytes).1 (write conn t bytes).2 := by
  have hflushed := lawful.flushes t.session
  unfold write
  cases hflush : conn.flushTls t.session with
  | mk result s =>
    rw [hflush] at hflushed
    cases result with
    | error error =>
      apply Wrote.held error _ hflushed
      intro _
      rw [hflush]
      exact nofun
    | ok _ =>
      dsimp only
      split
      · apply Wrote.acknowledged (by assumption) _ hflushed
        rw [hflush]
      · have hnone : t.sending = 0 := by omega
        cases hwrite : conn.write s bytes with
        | mk answer s' =>
          cases answer with
          | error error =>
            apply Wrote.held error
            · intro hpos
              omega
            · exact (lawful.refuses hwrite).trans hflushed
          | ok n =>
            obtain ⟨hle, hqueued⟩ := lawful.queues hwrite
            have hafter := lawful.flushes s'
            rw [hqueued, hflushed] at hafter
            dsimp only
            cases hrest : conn.flushTls s' with
            | mk result s'' =>
              rw [hrest] at hafter
              cases result with
              | ok _ => exact Wrote.taken hnone hle hafter
              | error error => exact Wrote.stuck error hnone hle hafter

end TlsStream

/-- The plaintext behind `before` is whole requests, in the order in which they were generated
and each at most once, and the first `count` bytes of the next one of them. -/
structure Front (generated : List Bytes) (before text : Bytes) (sent : List Bytes)
    (request : Bytes) (count : Nat) : Prop where
  le : count ≤ request.length
  text : text = before ++ (sent.flatten ++ request.take count)
  order : (sent ++ if count = 0 then [] else [request]).Sublist generated

section Front
variable {generated sent : List Bytes} {before request text : Bytes} {count : Nat}

theorem Front.wholes (h : Front generated before text sent request count) :
    sent.Sublist generated := (List.sublist_append_left _ _).trans h.order

theorem Front.begun (h : Front generated before text sent request count) (hcount : count ≠ 0) :
    (sent ++ [request]).Sublist generated := by
  have horder := h.order
  rwa [if_neg hcount] at horder

theorem Front.mono (h : Front generated before text sent request count) (fresh : List Bytes) :
    Front (generated ++ fresh) before text sent request count :=
  ⟨h.le, h.text, h.order.trans (List.sublist_append_left _ _)⟩

theorem Front.zero (h : Front generated before text sent request 0) (next : Bytes) :
    Front generated before text sent next 0 := ⟨Nat.zero_le _, h.text, h.order⟩

theorem Front.taken {n : Nat} (h : Front generated before text sent request count)
    (horder : (sent ++ [request]).Sublist generated) (hn : n ≤ (request.drop count).length) :
    Front generated before (text ++ (request.drop count).take n) sent request (count + n) := by
  rw [List.length_drop] at hn
  have hle := h.le
  refine ⟨by omega, ?_, ?_⟩
  · rw [h.text, List.take_add, List.append_assoc, List.append_assoc]
  · split
    · rw [List.append_nil]
      exact h.wholes
    · exact horder

theorem Front.whole (h : Front generated before text sent request count)
    (hcount : count = request.length) (next : Bytes) :
    ∃ sent, Front generated before text sent next 0 := by
  refine ⟨sent ++ if count = 0 then [] else [request], Nat.zero_le _, ?_, ?_⟩
  · have htext := h.text
    rw [hcount, List.take_length] at htext
    rw [htext, List.take_zero, List.append_nil, List.flatten_append]
    split
    · next hzero =>
      rw [List.eq_nil_of_length_eq_zero (hcount.symm.trans hzero)]
      rfl
    · rw [List.flatten_singleton]
  · rw [if_pos rfl, List.append_nil]
    exact h.order

theorem Front.of_take {next : Bytes} (h : Front generated before text sent request count)
    (hnext : request.take count <+: next) :
    Front (generated ++ [next]) before text sent next count := by
  have hlength : (request.take count).length = count := List.length_take_of_le h.le
  have htake : next.take count = request.take count := by
    conv_lhs => rw [← hlength]
    exact (List.prefix_iff_eq_take.mp hnext).symm
  refine ⟨?_, ?_, ?_⟩
  · have := hnext.length_le
    omega
  · rw [htake]
    exact h.text
  · split
    · rw [List.append_nil]
      exact h.wholes.trans (List.sublist_append_left _ _)
    · exact h.wholes.append (List.Sublist.refl _)

end Front

/-- A connection over TLS with the request that its unacknowledged chunk was cut from. -/
structure TlsEndpoint (ε τ : Type) where
  endpoint : Endpoint ε (TlsStream τ)
  origin : Bytes

namespace TlsEndpoint

variable (u : TlsEndpoint ε τ)

/-- The plaintext queued by an earlier write and not yet acknowledged. -/
def chunk : Bytes := u.origin.take u.endpoint.socket.sending

/-- What may follow the chunk: a request that begins with it, or, when the chunk is all of the
request that it was cut from, one of its length or any while the chunk is still blocked. -/
def Follows (conn : ClientConnection τ) (request : Bytes) : Prop :=
  u.chunk <+: request ∨
    (u.chunk = u.origin ∧ (request.length = u.endpoint.socket.sending ∨
      (conn.flushTls u.endpoint.socket.session).1 ≠ .ok ()))

/-- A chunk that a call leaves behind was cut from its request, or is the one from before. -/
def after (q : Endpoint ε (TlsStream τ)) : TlsEndpoint ε τ where
  endpoint := q
  origin := if u.endpoint.socket.sending = 0 then q.connection.request.bytes else u.origin

inductive Step (conn : ClientConnection τ) (build : Build) (parse : ResponseParser)
    (engine : ScriptEngine ε) : TlsEndpoint ε τ → List Bytes → TlsEndpoint ε τ → Prop where
  | mk {u : TlsEndpoint ε τ} {fresh : List Bytes} {q : Endpoint ε (TlsStream τ)} :
      Handled build parse engine (TlsStream.socket conn) u.endpoint fresh q →
      Step conn build parse engine u fresh (u.after q)

end TlsEndpoint

/-- Between two calls the chunk goes on with the current request, or it is the whole of an
earlier one. -/
inductive Held (generated : List Bytes) (before text request : Bytes) (written : Nat)
    (origin : Bytes) (sending : Nat) : Prop where
  | current (sent : List Bytes) :
      Front generated before text sent request (written + sending) →
      (written = 0 → 0 < sending → Front generated before text sent origin sending) →
      Held generated before text request written origin sending
  | behind (sent : List Bytes) : written = 0 → sending = origin.length → 0 < sending →
      Front generated before text sent origin sending →
      Held generated before text request written origin sending

/-- The same once a burst has been started, when the script may have generated a request
that the flush of the call acknowledges in the place of the whole chunk. -/
inductive Ready (conn : ClientConnection τ) (generated : List Bytes) (before text request : Bytes)
    (written : Nat) (origin : Bytes) (t : TlsStream τ) : Prop where
  | current (sent : List Bytes) :
      Front generated before text sent request (written + t.sending) →
      (sent ++ [request]).Sublist generated →
      (written = 0 → 0 < t.sending → Front generated before text sent origin t.sending) →
      Ready conn generated before text request written origin t
  | behind (sent : List Bytes) : written = 0 → t.sending = origin.length → 0 < t.sending →
      Front generated before text sent origin t.sending →
      (request.length = t.sending ∨ (conn.flushTls t.session).1 ≠ .ok ()) →
      Ready conn generated before text request written origin t

section Held
variable {generated : List Bytes} {before request origin text : Bytes} {written sending : Nat}
variable {t v : TlsStream τ}

theorem Held.recut (h : Held generated before text request written origin sending)
    (other : Bytes) : Held generated before text request written
      (if sending = 0 then other else origin) sending := by
  rcases Nat.eq_zero_or_pos sending with hzero | hpos
  · rw [if_pos hzero]
    cases h with
    | current sent hfront _ => exact .current sent hfront fun _ hpos => by omega
    | behind sent _ _ hpos _ => omega
  · rw [if_neg (Nat.ne_of_gt hpos)]
    exact h

theorem Held.goes_on (h : Held generated before text request written origin t.sending)
    (hwritten : written ≠ 0) : Ready conn generated before text request written origin t := by
  cases h with
  | current sent hfront _ =>
    exact .current sent hfront (hfront.begun (by omega)) fun hzero => absurd hzero hwritten
  | behind sent hzero => exact absurd hzero hwritten

/-- A burst that starts behind a chunk, with the request `next`. -/
theorem Held.starts {u : TlsEndpoint ε τ} {next : Bytes}
    (h : Held generated before text request 0 u.origin u.endpoint.socket.sending)
    (hfollows : u.Follows conn next) :
    Ready conn (generated ++ [next]) before text next 0 u.origin u.endpoint.socket := by
  rcases Nat.eq_zero_or_pos u.endpoint.socket.sending with hzero | hpos
  · cases h with
    | current sent hfront _ =>
      rw [hzero] at hfront
      refine .current sent ?_ (hfront.wholes.append (List.Sublist.refl _)) fun _ hpos => by omega
      rw [hzero]
      exact (hfront.zero next).mono [next]
    | behind sent _ _ hpos _ => omega
  · obtain ⟨sent, hchunk⟩ : ∃ sent,
        Front generated before text sent u.origin u.endpoint.socket.sending := by
      cases h with
      | current sent _ hchunk => exact ⟨sent, hchunk rfl hpos⟩
      | behind sent _ _ _ hchunk => exact ⟨sent, hchunk⟩
    rcases hfollows with hprefix | ⟨hwhole, hends⟩
    · refine .current sent ?_ (hchunk.wholes.append (List.Sublist.refl _))
        fun _ _ => hchunk.mono [next]
      rw [Nat.zero_add]
      exact hchunk.of_take hprefix
    · refine .behind sent rfl ?_ hpos (hchunk.mono [next]) hends
      exact Nat.le_antisymm hchunk.le ((List.take_eq_self_iff _).mp hwhole)

variable {plaintext : τ → Bytes}

theorem Ready.acknowledges
    (h : Ready conn generated before (plaintext t.session) request written origin t) {count : Nat}
    (hwrote : TlsStream.Wrote conn plaintext t (request.drop written) (.ok count) v) :
    v.sending = 0 ∧ ((∃ sent,
        Front generated before (plaintext v.session) sent request (written + count)) ∨
      (written + count = request.length ∧
        ∃ sent, Front generated before (plaintext v.session) sent request 0)) := by
  cases hwrote with
  | acknowledged hpos hflush htext =>
    refine ⟨rfl, ?_⟩
    rw [htext]
    cases h with
    | current sent hfront => exact .inl ⟨sent, hfront⟩
    | behind sent hzero hlength _ hchunk hends =>
      rcases hends with hends | hblocks
      · exact .inr ⟨by omega, hchunk.whole hlength request⟩
      · exact absurd hflush hblocks
  | taken hnone hle htext =>
    refine ⟨rfl, ?_⟩
    rw [htext]
    cases h with
    | current sent hfront horder =>
      rw [hnone, Nat.add_zero] at hfront
      exact .inl ⟨sent, hfront.taken horder hle⟩
    | behind sent _ _ hpos => omega

theorem Ready.refuses
    (h : Ready conn generated before (plaintext t.session) request written origin t)
    {error : IoError}
    (hwrote : TlsStream.Wrote conn plaintext t (request.drop written) (.error error) v) :
    Held generated before (plaintext v.session) request written
      (if t.sending = 0 then request else origin) v.sending := by
  cases hwrote with
  | held _ _ htext =>
    rw [htext]
    apply Held.recut
    cases h with
    | current sent hfront _ hchunk => exact .current sent hfront hchunk
    | behind sent hzero hlength hpos hchunk => exact .behind sent hzero hlength hpos hchunk
  | @stuck s n _ hnone hle htext =>
    cases h with
    | current sent hfront horder =>
      rw [hnone, Nat.add_zero] at hfront
      have hmore := hfront.taken horder hle
      rw [htext, if_pos hnone]
      refine .current sent hmore ?_
      intro hzero _
      subst hzero
      rwa [Nat.zero_add] at hmore
    | behind sent _ _ hpos => omega

theorem Front.held {sent : List Bytes}
    (h : Front generated before text sent request written) (origin : Bytes) :
    Held generated before text request written origin 0 :=
  .current sent h fun _ hpos => absurd hpos (Nat.lt_irrefl 0)

end Held

theorem Ready.offered (lawful : conn.Lawful plaintext) {generated : List Bytes}
    {before origin : Bytes} {b q : Endpoint ε (TlsStream τ)} {event : Event}
    (h : Ready conn generated before (plaintext b.socket.session) b.connection.request.bytes
      b.connection.written origin b.socket)
    (hoffered : Endpoint.Offered (TlsStream.socket conn) b event q) :
    Held generated before (plaintext q.socket.session) q.connection.request.bytes
      q.connection.written (if b.socket.sending = 0 then b.connection.request.bytes else origin)
      q.socket.sending := by
  have hwrote := TlsStream.write_spec lawful b.socket b.unsent
  cases hoffered with
  | whole hwrite hwhole =>
    change TlsStream.write conn b.socket b.unsent = _ at hwrite
    rw [hwrite] at hwrote
    obtain ⟨hnone, hfront⟩ := h.acknowledges hwrote
    obtain ⟨sent, hnext⟩ : ∃ sent, Front generated before _ sent b.connection.request.bytes 0 := by
      rcases hfront with ⟨sent, hfront⟩ | ⟨_, hfront⟩
      · exact hfront.whole hwhole _
      · exact hfront
    exact hnone ▸ hnext.held _
  | part hwrite hpart =>
    change TlsStream.write conn b.socket b.unsent = _ at hwrite
    rw [hwrite] at hwrote
    obtain ⟨hnone, hfront⟩ := h.acknowledges hwrote
    rcases hfront with ⟨sent, hfront⟩ | ⟨hwhole, _⟩
    · exact hnone ▸ hfront.held _
    · exact absurd hwhole hpart
  | blocked hwrite =>
    change TlsStream.write conn b.socket b.unsent = _ at hwrite
    rw [hwrite] at hwrote
    exact h.refuses hwrote
  | failed hwrite =>
    change TlsStream.write conn b.socket b.unsent = _ at hwrite
    rw [hwrite] at hwrote
    exact h.refuses hwrote

/-- The written count fits the request, and the plaintext is whole requests, in the order in
which they were generated and each at most once, and a front part of the current one with at
least what the connection counts as written. -/
structure Intact (plaintext : τ → Bytes) (generated : List Bytes) (before : Bytes)
    (p : Endpoint ε (TlsStream τ)) : Prop where
  within : p.connection.written ≤ p.connection.request.bytes.length
  requests : ∃ sent count, p.connection.written ≤ count ∧
    Front generated before (plaintext p.socket.session) sent p.connection.request.bytes count

def TlsEndpoint.Keeps (plaintext : τ → Bytes) (generated : List Bytes) (before : Bytes)
    (u : TlsEndpoint ε τ) : Prop :=
  u.endpoint.ctx.dynamic = true ∧
    Held generated before (plaintext u.endpoint.socket.session)
      u.endpoint.connection.request.bytes u.endpoint.connection.written u.origin
      u.endpoint.socket.sending

theorem TlsEndpoint.Keeps.intact {generated : List Bytes} {before : Bytes} {u : TlsEndpoint ε τ}
    (h : u.Keeps plaintext generated before) : Intact plaintext generated before u.endpoint := by
  cases h.2 with
  | current sent hfront =>
    have hle := hfront.le
    exact ⟨by omega, sent, _, Nat.le_add_right _ _, hfront⟩
  | behind sent hzero hlength _ hchunk =>
    obtain ⟨sent, hfront⟩ := hchunk.whole hlength u.endpoint.connection.request.bytes
    exact ⟨by omega, sent, 0, by omega, hfront⟩

theorem Held.started {engine : ScriptEngine ε} {generated : List Bytes}
    {before : Bytes} {u : TlsEndpoint ε τ} {b : Endpoint ε (TlsStream τ)}
    (h : Held generated before (plaintext u.endpoint.socket.session)
      u.endpoint.connection.request.bytes u.endpoint.connection.written u.origin
      u.endpoint.socket.sending)
    (hdynamic : u.endpoint.ctx.dynamic = true)
    (hdelayed : u.endpoint.connection.delayed = false)
    (hstart : Endpoint.Started engine u.endpoint b)
    (hfollows : ∀ request ∈ u.endpoint.generates engine, u.Follows conn request) :
    Ready conn (generated ++ u.endpoint.generates engine) before (plaintext b.socket.session)
      b.connection.request.bytes b.connection.written u.origin b.socket := by
  rw [hstart.written, hstart.socket]
  by_cases hwritten : u.endpoint.connection.written = 0
  · have hgenerates := hstart.generates hdelayed hwritten hdynamic
    rw [hgenerates, hwritten]
    rw [hwritten] at h
    apply h.starts
    apply hfollows
    rw [hgenerates]
    exact List.mem_cons_self
  · rw [Endpoint.generates_nil (.inr hwritten), List.append_nil, (hstart.goesOn hwritten).1]
    exact h.goes_on hwritten

/-- One handler call of a dynamic script keeps the session in step with the connection. -/
theorem keeps_step {build : Build} {parse : ResponseParser} {engine : ScriptEngine ε}
    (lawful : conn.Lawful plaintext) {generated fresh : List Bytes} {before : Bytes}
    {u v : TlsEndpoint ε τ} (h : u.Keeps plaintext generated before)
    (hfollows : ∀ request ∈ fresh, u.Follows conn request)
    (hstep : TlsEndpoint.Step conn build parse engine u fresh v) :
    v.Keeps plaintext (generated ++ fresh) before := by
  obtain ⟨hdynamic, hheld⟩ := h
  cases hstep with
  | @mk q hhandled =>
    cases hhandled with
    | writable now hwritable =>
      cases Endpoint.writable_cases hwritable with
      | waits millis state hdelayed =>
        rw [Endpoint.generates_nil (.inl hdelayed), List.append_nil]
        exact ⟨hdynamic, hheld.recut _⟩
      | fails message state _ hnone =>
        rw [hnone, List.append_nil]
        exact ⟨hdynamic, hheld.recut _⟩
      | @offers b _ _ hdelayed hstart hle hoffered =>
        have hready := hheld.started hdynamic hdelayed hstart hfollows
        have hafter := hready.offered lawful hoffered
        rw [hstart.socket] at hafter
        refine ⟨?_, ?_⟩
        · cases hoffered <;> exact hstart.dynamic.trans hdynamic
        · cases hoffered <;> exact hafter
    | readable now fuel hreadable =>
      have hkeeps := Endpoint.readable_keeps hreadable
      have hsocket := Endpoint.readable_socket
        (I := fun t => plaintext t.session = plaintext u.endpoint.socket.session ∧
          t.sending = u.endpoint.socket.sending)
        (fun t ht => ⟨(lawful.receives t.session _).trans ht.1, ht.2⟩) ⟨rfl, rfl⟩ hreadable
      rw [List.append_nil]
      refine ⟨hkeeps.dynamic.trans hdynamic, ?_⟩
      change Held _ _ (plaintext q.socket.session) q.connection.request.bytes
        q.connection.written _ q.socket.sending
      rw [hkeeps.request, hkeeps.written, hsocket.1, hsocket.2]
      exact hheld.recut _
    | delayFired =>
      rw [List.append_nil]
      exact ⟨hdynamic, hheld.recut _⟩
    | elsewhere ctx hkept =>
      rw [List.append_nil]
      exact ⟨hkept.trans hdynamic, hheld.recut _⟩

/-- Over TLS a dynamic script sends whole requests in every run in which each request
generated while a chunk is unacknowledged can follow that chunk. -/
theorem tls_integrity (conn : ClientConnection τ) (plaintext : τ → Bytes)
    (lawful : conn.Lawful plaintext) (build : Build) (parse : ResponseParser)
    (engine : ScriptEngine ε) (staticRequest : Bytes) (wantsResponse delayed : Bool)
    (ctx : ThreadCtx ε) (hdynamic : ctx.dynamic = true) (session : τ)
    (generated : List (List Bytes)) (u : TlsEndpoint ε τ)
    (h : RunWhile (fun _ u fresh => ∀ request ∈ fresh, u.Follows conn request)
      (TlsEndpoint.Step conn build parse engine)
      ⟨.opened staticRequest wantsResponse delayed ctx ⟨session, 0⟩, []⟩ generated u) :
    Intact plaintext generated.flatten (plaintext session) u.endpoint := by
  have hkeeps : u.Keeps plaintext generated.flatten (plaintext session) := by
    apply h.history (I := fun generated u => u.Keeps plaintext generated.flatten (plaintext session))
    · have hfront : Front [] (plaintext session) (plaintext session) [] staticRequest 0 :=
        ⟨Nat.zero_le _, (List.append_nil _).symm, List.Sublist.refl _⟩
      exact ⟨hdynamic, hfront.held []⟩
    · intro generated u fresh v hu hfollows hstep
      rw [List.flatten_append, List.flatten_singleton]
      exact keeps_step lawful hu hfollows hstep
  exact hkeeps.intact

end Session

/-- Queued plaintext, the size of the queued records, and how often the socket blocks. -/
structure BlockingSession where
  text : Bytes
  queued : Nat
  blocks : Nat

def blockingConn : ClientConnection BlockingSession where
  write s bytes :=
    (.ok bytes.length, { s with text := s.text ++ bytes, queued := s.queued + bytes.length })
  read s _ := (.error .wouldBlock, s)
  wantsWrite s := decide (0 < s.queued)
  writeTls s :=
    match s.blocks with
    | 0 => (.ok s.queued, { s with queued := 0 })
    | blocks + 1 => (.error .wouldBlock, { s with blocks := blocks })
  readTls s := (.error .wouldBlock, s)
  processNewPackets s := (.ok (), s)
  queued s := s.queued
  wants := of_decide_eq_true
  sends := by
    intro s n t h
    split at h
    · obtain ⟨hsent, rfl⟩ := Prod.mk.inj h
      have := Except.ok.inj hsent
      change 0 < s.queued
      omega
    · cases (Prod.mk.inj h).1

theorem blockingConn_lawful : blockingConn.Lawful BlockingSession.text where
  queues := by
    intro s bytes n t h
    obtain ⟨hcount, rfl⟩ := Prod.mk.inj h
    obtain rfl := Except.ok.inj hcount
    refine ⟨Nat.le_refl _, ?_⟩
    rw [List.take_length]
  refuses := by
    intro s bytes error t h
    cases (Prod.mk.inj h).1
  sendsRecords := by
    intro s
    unfold blockingConn
    dsimp only
    split <;> rfl
  reads := fun _ _ => rfl
  readsRecords := fun _ => rfl
  processes := fun _ => rfl

def blockedOnce (requests : List Bytes) : TlsEndpoint (List Bytes) BlockingSession :=
  ⟨listed requests ⟨⟨[], 0, 1⟩, 0⟩, []⟩

def TlsEndpoint.next (u : TlsEndpoint (List Bytes) BlockingSession) :
    TlsEndpoint (List Bytes) BlockingSession :=
  u.after (u.endpoint.next listEngine (TlsStream.socket blockingConn))

theorem TlsEndpoint.next_step {u : TlsEndpoint (List Bytes) BlockingSession}
    (h : (u.endpoint.writable listEngine (TlsStream.socket blockingConn) 0).isOk = true) :
    Step blockingConn .release reference listEngine u (u.endpoint.generates listEngine) u.next :=
  .mk (next_handled h)

theorem tls_integrity_sample :
    Intact BlockingSession.text [[65, 66], [67, 68], [69]] []
      (blockedOnce [[65, 66], [67, 68], [69]]).next.next.next.endpoint := by
  apply tls_integrity blockingConn BlockingSession.text blockingConn_lawful .release reference
    listEngine [] false false
    { quietCtx 1 false with dynamic := true, engine := [[65, 66], [67, 68], [69]] } rfl
    ⟨[], 0, 1⟩ [[[65, 66]], [[67, 68]], [[69]]]
  apply (((RunWhile.refl (blockedOnce _)).tail _ (TlsEndpoint.next_step rfl)).tail _
    (TlsEndpoint.next_step rfl)).tail _ (TlsEndpoint.next_step rfl)
  · intro request _
    exact .inl List.nil_prefix
  · intro request hmem
    rw [List.mem_singleton.mp hmem]
    exact .inr ⟨rfl, .inl rfl⟩
  · intro request _
    exact .inl List.nil_prefix

/-- After a blocked flush a shorter request is overrun and the next call panics; a longer
one is sent without its first bytes, behind the chunk. -/
theorem blocked_chunk_misleads :
    (∃ u, Run (TlsEndpoint.Step blockingConn .release reference listEngine)
        (blockedOnce [[65, 66], [67]]) [[[65, 66]], [[67]]] u ∧
      ¬ Intact BlockingSession.text [[65, 66], [67]] [] u.endpoint ∧
      u.endpoint.writable listEngine (TlsStream.socket blockingConn) 0 = .error .slice) ∧
    ∃ u, Run (TlsEndpoint.Step blockingConn .release reference listEngine)
        (blockedOnce [[65, 66], [67, 68, 69]]) [[[65, 66]], [[67, 68, 69]], []] u ∧
      u.endpoint.socket.session.text = [65, 66, 69] ∧
      ¬ Intact BlockingSession.text [[65, 66], [67, 68, 69]] [] u.endpoint := by
  constructor
  · refine ⟨_, ((Run.refl (blockedOnce [[65, 66], [67]])).tail
      (TlsEndpoint.next_step rfl)).tail (TlsEndpoint.next_step rfl), ?_, rfl⟩
    intro hintact
    exact absurd hintact.within (by decide)
  · refine ⟨_, (((Run.refl (blockedOnce [[65, 66], [67, 68, 69]])).tail
      (TlsEndpoint.next_step rfl)).tail (TlsEndpoint.next_step rfl)).tail
      (TlsEndpoint.next_step rfl), rfl, ?_⟩
    rintro ⟨_, sent, count, _, hle, htext, horder⟩
    -- No selection of the two requests goes on with the last byte of the second alone.
    have hnone : ∀ sent ∈ List.sublists ([[65, 66], [67, 68, 69]] : List Bytes), ∀ count ≤ 3,
        ([65, 66, 69] : Bytes) ≠ [] ++ (sent.flatten ++ List.take count [67, 68, 69]) := by decide
    have hsent := List.mem_sublists.mpr ((List.sublist_append_left _ _).trans horder)
    exact hnone sent hsent count hle htext

end Wrkrs
