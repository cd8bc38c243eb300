import Wrkrs.Connection
import Wrkrs.Library.Dialogues
import Wrkrs.Library.Splitting

/-!
# Resolving the target

The system resolver and the three ways in which an engine asks it: the loop of `wrk.resolve`
that removes refused addresses from the end, and the filters of the JavaScript and the
benchmark file engine. They keep the same addresses, but the failure that the resolver
remembers last is that of the first address for one and of the last for the others.
-/

namespace Wrkrs

set_option autoImplicit false
set_option maxRecDepth 4096

open Text Splitting Runs Dialogues

variable {η α : Type}

/-- What the network answers, with the text of an error. -/
structure Network (η α : Type) where
  lookup : η → Str → Str → Except Str (List α) × η
  connect : η → α → Except Str Unit × η

inductive ResolveCall (α : Type) where
  | lookup (host service : Str)
  | connect (address : α)

def ResolveCall.Answer : ResolveCall α → Type
  | .lookup _ _ => Except Str (List α)
  | .connect _ => Bool

/-- The resolver with the text of the last failed probe. -/
structure SystemResolver (η : Type) where
  network : η
  lastConnectError : Option Str

/-- Drops the os error suffix so that the text matches strerror. -/
def stripOsSuffix (text : Str) : Str :=
  match cutAt " (os error".toList text with
  | some (front, _) => front
  | none => text

namespace SystemResolver

def new (network : η) : SystemResolver η := ⟨network, none⟩

def lastText (r : SystemResolver η) : Str := r.lastConnectError.getD "Success".toList

variable (net : Network η α) (r : SystemResolver η)

/-- Strings with a NUL never reach getaddrinfo. -/
def lookup (host service : Str) : Except Str (List α) × SystemResolver η :=
  if '\x00' ∈ host then (.error "invalid host".toList, r)
  else if '\x00' ∈ service then (.error "invalid service".toList, r)
  else
    let (found, network) := net.lookup r.network host service
    (found, { r with network := network })

def connect (address : α) : Bool × SystemResolver η :=
  match net.connect r.network address with
  | (.ok _, network) => (true, { r with network := network })
  | (.error text, network) => (false, ⟨network, some (stripOsSuffix text)⟩)

def serve : (call : ResolveCall α) → call.Answer × SystemResolver η
  | .lookup host service => r.lookup net host service
  | .connect address => r.connect net address

end SystemResolver

abbrev Resolving (α ρ : Type) := Dialogue (ResolveCall α) ResolveCall.Answer ρ

def lookUp {ρ : Type} (host service : Str) (next : Except Str (List α) → Resolving α ρ) :
    Resolving α ρ := .asks (.lookup host service) next

def probe {ρ : Type} (a : α) (next : Bool → Resolving α ρ) : Resolving α ρ :=
  .asks (.connect a) next

/-- The loop of `wrk.resolve` from an index down: a refused address is removed. -/
def pruneFrom : (i : Nat) → (addrs : List α) → i ≤ addrs.length → Resolving α (List α)
  | 0, addrs, _ => .ends addrs
  | i + 1, addrs, h => probe addrs[i] fun up =>
    if up then pruneFrom i addrs (Nat.le_of_succ_le h)
    else pruneFrom i (addrs.eraseIdx i) (by rw [List.length_eraseIdx_of_lt h]; omega)

/-- The candidates that accept a probe, in resolver order. -/
def filterReachable : List α → Resolving α (List α)
  | [] => .ends []
  | a :: rest => probe a fun up =>
    (filterReachable rest).map fun kept => if up then a :: kept else kept

def unresolved (host service text : Str) : Str :=
  "unable to resolve ".toList ++ host ++ ':' :: service ++ ' ' :: text

def unreachable (host service text : Str) : Str :=
  "unable to connect to ".toList ++ host ++ ':' :: service ++ ' ' :: text

def lookThen (host service : Str) (fail : Str → EngineError)
    (keep : List α → Resolving α (List α)) : Resolving α (Except EngineError (List α)) :=
  lookUp host service fun found =>
    match found with
    | .error text => .ends (.error (fail text))
    | .ok candidates => (keep candidates).map .ok

/-- `wrk.resolve` of the Lua engines. -/
def luaResolve (host service : Str) : Resolving α (Except EngineError (List α)) :=
  lookThen host service (fun text => .resolve (unresolved host service text)) fun candidates =>
    pruneFrom candidates.length candidates (Nat.le_refl _)

def jsResolve (host service : Str) : Resolving α (Except EngineError (List α)) :=
  lookThen host service (fun text => .runtime (unresolved host service text)) filterReachable

def configResolve (host service : Str) : Resolving α (Except EngineError (List α)) :=
  lookThen host service .resolve filterReachable

/-- The reachable addresses of the target, or the message that ends the process. -/
def target (net : Network η α) (resolve : Str → Str → Resolving α (Except EngineError (List α)))
    (host service : Str) (r : SystemResolver η) : Except Str (List α) :=
  match (resolve host service).run (SystemResolver.serve net) r with
  | (.error error, _) => .error error.rawMessage
  | (.ok [], r) => .error (unreachable host service r.lastText)
  | (.ok addresses, _) => .ok addresses

section Probes
variable {net : Network η α} {addrs candidates : List α} {r : SystemResolver η} {ρ : Type}

theorem run_lookUp (host service : Str) (next : Except Str (List α) → Resolving α ρ) :
    (lookUp host service next).run (SystemResolver.serve net) r =
      (next (r.lookup net host service).1).run (SystemResolver.serve net)
        (r.lookup net host service).2 := rfl

theorem log_lookUp (host service : Str) (next : Except Str (List α) → Resolving α ρ) :
    (lookUp host service next).log (SystemResolver.serve net) r =
      ⟨.lookup host service, (r.lookup net host service).1⟩ ::
        (next (r.lookup net host service).1).log (SystemResolver.serve net)
          (r.lookup net host service).2 := rfl

theorem run_probe (a : α) (next : Bool → Resolving α ρ) :
    (probe a next).run (SystemResolver.serve net) r =
      (next (r.connect net a).1).run (SystemResolver.serve net) (r.connect net a).2 := rfl

theorem log_probe (a : α) (next : Bool → Resolving α ρ) :
    (probe a next).log (SystemResolver.serve net) r = ⟨.connect a, (r.connect net a).1⟩ ::
      (next (r.connect net a).1).log (SystemResolver.serve net) (r.connect net a).2 := rfl

def probed (ups : List (α × Bool)) : List (Exchange (ResolveCall α) ResolveCall.Answer) :=
  ups.map fun up => ⟨.connect up.1, up.2⟩

def accepting (ups : List (α × Bool)) : List α := (ups.filter Prod.snd).map Prod.fst

theorem probed_append (ups others : List (α × Bool)) :
    probed (ups ++ others) = probed ups ++ probed others := List.map_append

theorem accepting_append (ups others : List (α × Bool)) :
    accepting (ups ++ others) = accepting ups ++ accepting others := by
  rw [accepting, List.filter_append, List.map_append]
  rfl

theorem filterReachable_run (net : Network η α) (candidates : List α) (r : SystemResolver η) :
    ∃ ups : List (α × Bool), ups.map Prod.fst = candidates ∧
      (filterReachable candidates).log (SystemResolver.serve net) r = probed ups ∧
      ((filterReachable candidates).run (SystemResolver.serve net) r).1 = accepting ups := by
  induction candidates generalizing r with
  | nil => exact ⟨[], rfl, rfl, rfl⟩
  | cons a rest ih =>
    obtain ⟨ups, hfst, hlog, hkept⟩ := ih (r.connect net a).2
    refine ⟨(a, (r.connect net a).1) :: ups, congrArg (a :: ·) hfst, ?_, ?_⟩
    · rw [filterReachable, log_probe, Dialogue.map, Dialogue.log_bind, hlog]
      exact congrArg (_ :: ·) (List.append_nil _)
    · rw [filterReachable, run_probe, Dialogue.run_map, hkept]
      cases hup : (r.connect net a).1 with
      | true => rfl
      | false => rfl

theorem pruneFrom_run (net : Network η α) {i : Nat} (hi : i ≤ addrs.length)
    (r : SystemResolver η) :
    ∃ ups : List (α × Bool), ups.map Prod.fst = addrs.take i ∧
      (pruneFrom i addrs hi).log (SystemResolver.serve net) r = (probed ups).reverse ∧
      ((pruneFrom i addrs hi).run (SystemResolver.serve net) r).1 =
        accepting ups ++ addrs.drop i := by
  induction i generalizing addrs r with
  | zero => exact ⟨[], rfl, rfl, rfl⟩
  | succ i ih =>
    have hlt : i < addrs.length := hi
    rw [pruneFrom, log_probe, run_probe]
    cases hup : (r.connect net addrs[i]).1 with
    | true =>
      obtain ⟨ups, hfst, hlog, hkept⟩ := ih (Nat.le_of_lt hlt) (r.connect net addrs[i]).2
      refine ⟨ups ++ [(addrs[i], true)], ?_, ?_, ?_⟩
      · rw [List.map_append, hfst]
        exact List.take_append_getElem hlt
      · rw [probed_append, List.reverse_append, if_pos rfl, hlog]
        rfl
      · rw [if_pos rfl, hkept, accepting_append, List.append_assoc,
          List.drop_eq_getElem_cons hlt]
        rfl
    | false =>
      have hlength : i ≤ (addrs.eraseIdx i).length := by
        rw [List.length_eraseIdx_of_lt hlt]
        omega
      have hbefore : (addrs.take i).length = i := List.length_take_of_le (Nat.le_of_lt hlt)
      obtain ⟨ups, hfst, hlog, hkept⟩ := ih hlength (r.connect net addrs[i]).2
      refine ⟨ups ++ [(addrs[i], false)], ?_, ?_, ?_⟩
      · rw [List.map_append, hfst, List.eraseIdx_eq_take_drop_succ, List.take_left' hbefore]
        exact List.take_append_getElem hlt
      · rw [probed_append, List.reverse_append, if_neg Bool.false_ne_true, hlog]
        rfl
      · rw [if_neg Bool.false_ne_true, hkept, accepting_append, List.append_assoc,
          List.eraseIdx_eq_take_drop_succ, List.drop_left' hbefore]
        rfl

/-- How an engine asks for a target whose candidates are found: each candidate is probed once
in some order, and those that accept their probe are kept in the order of the resolver. -/
def ProbesOnce (net : Network η α) (r : SystemResolver η)
    (resolve : Str → Str → Resolving α (Except EngineError (List α)))
    (order : List (Exchange (ResolveCall α) ResolveCall.Answer) →
      List (Exchange (ResolveCall α) ResolveCall.Answer))
    (host service : Str) (candidates : List α) : Prop :=
  ∃ ups : List (α × Bool), ups.map Prod.fst = candidates ∧
    (resolve host service).log (SystemResolver.serve net) r =
      ⟨.lookup host service, (.ok candidates : Except Str (List α))⟩ :: order (probed ups) ∧
    ((resolve host service).run (SystemResolver.serve net) r).1 = .ok (accepting ups)

theorem lookThen_found {host service : Str} (fail : Str → EngineError)
    (keep : List α → Resolving α (List α))
    (hfound : (r.lookup net host service).1 = .ok candidates) :
    ((lookThen host service fail keep).run (SystemResolver.serve net) r).1 =
        .ok ((keep candidates).run (SystemResolver.serve net) (r.lookup net host service).2).1 ∧
      ((lookThen host service fail keep).run (SystemResolver.serve net) r).2 =
        ((keep candidates).run (SystemResolver.serve net) (r.lookup net host service).2).2 ∧
      (lookThen host service fail keep).log (SystemResolver.serve net) r =
        ⟨.lookup host service, (.ok candidates : Except Str (List α))⟩ ::
          (keep candidates).log (SystemResolver.serve net) (r.lookup net host service).2 := by
  unfold lookThen
  rw [run_lookUp, log_lookUp, hfound]
  dsimp only
  rw [Dialogue.run_map, Dialogue.map, Dialogue.log_bind]
  refine ⟨rfl, rfl, ?_⟩
  exact congrArg (_ :: ·) (List.append_nil _)

theorem lookThen_failed {host service text : Str} (fail : Str → EngineError)
    (keep : List α → Resolving α (List α))
    (hfound : (r.lookup net host service).1 = .error text) :
    ((lookThen host service fail keep).run (SystemResolver.serve net) r).1 =
      .error (fail text) := by
  unfold lookThen
  rw [run_lookUp, hfound]
  rfl

theorem lookThen_filters {host service : Str} (fail : Str → Str → Str → EngineError)
    (hfound : (r.lookup net host service).1 = .ok candidates) :
    ProbesOnce net r
      (fun host service => lookThen host service (fail host service) filterReachable) id
      host service candidates := by
  obtain ⟨hrun, _, hlog⟩ := lookThen_found (fail host service) filterReachable hfound
  obtain ⟨ups, hfst, hprobes, hkept⟩ :=
    filterReachable_run net candidates (r.lookup net host service).2
  rw [hkept] at hrun
  rw [hprobes] at hlog
  exact ⟨ups, hfst, hlog, hrun⟩

theorem lookThen_prunes {host service : Str}
    (hfound : (r.lookup net host service).1 = .ok candidates) :
    ProbesOnce net r luaResolve List.reverse host service candidates := by
  obtain ⟨hrun, _, hlog⟩ := lookThen_found
    (fun text => .resolve (unresolved host service text))
    (fun candidates => pruneFrom candidates.length candidates (Nat.le_refl _)) hfound
  obtain ⟨ups, hfst, hprobes, hkept⟩ :=
    pruneFrom_run net (Nat.le_refl candidates.length) (r.lookup net host service).2
  rw [hkept, List.drop_length, List.append_nil] at hrun
  rw [hprobes] at hlog
  rw [List.take_length] at hfst
  exact ⟨ups, hfst, hlog, hrun⟩

/-- Whatever the network answers and when, every engine probes each candidate exactly once and
keeps the accepted ones in the order of the resolver, although `wrk.resolve` goes backwards
and removes from the table that it goes through. -/
theorem candidates_probed_once {host service : Str}
    (hfound : (r.lookup net host service).1 = .ok candidates) :
    ProbesOnce net r luaResolve List.reverse host service candidates ∧
      ProbesOnce net r jsResolve id host service candidates ∧
      ProbesOnce net r configResolve id host service candidates :=
  ⟨lookThen_prunes hfound,
    lookThen_filters (fun host service text => .runtime (unresolved host service text)) hfound,
    lookThen_filters (fun _ _ text => .resolve text) hfound⟩

end Probes

/-- Three addresses, where every other probe is accepted. -/
def busyNetwork : Network Nat Nat where
  lookup probes _ _ := (.ok [1, 2, 3], probes)
  connect probes _ :=
    (if probes % 2 = 0 then .error "Connection refused (os error 111)".toList else .ok (),
      probes + 1)

theorem candidates_probed_once_sample :
    ProbesOnce busyNetwork (.new 0) luaResolve List.reverse ['h'] ['1'] [1, 2, 3] ∧
      ProbesOnce busyNetwork (.new 0) jsResolve id ['h'] ['1'] [1, 2, 3] ∧
      ProbesOnce busyNetwork (.new 0) configResolve id ['h'] ['1'] [1, 2, 3] :=
  candidates_probed_once rfl

/-- The answer to a probe does not depend on when it is made. -/
def Network.Steady (net : Network η α) (fate : α → Except Str Unit) : Prop :=
  ∀ s a, (net.connect s a).1 = fate a

section Steady
variable {net : Network η α} {fate : α → Except Str Unit} {r : SystemResolver η} {ρ : Type}

def failure (fate : α → Except Str Unit) (a : α) : Option Str :=
  match fate a with
  | .ok _ => none
  | .error text => some (stripOsSuffix text)

/-- The text that the last failed probe of some exchanges left, or the one before them. -/
def remembered (fate : α → Except Str Unit) (prior : Option Str)
    (past : List (Exchange (ResolveCall α) ResolveCall.Answer)) : Option Str :=
  past.foldl (fun last e =>
    match e with
    | ⟨.connect a, _⟩ => (failure fate a).or last
    | ⟨.lookup _ _, _⟩ => last) prior

theorem remembered_append (prior : Option Str)
    (past : List (Exchange (ResolveCall α) ResolveCall.Answer))
    (e : Exchange (ResolveCall α) ResolveCall.Answer) :
    remembered fate prior (past ++ [e]) =
      match e with
      | ⟨.connect a, _⟩ => (failure fate a).or (remembered fate prior past)
      | ⟨.lookup _ _, _⟩ => remembered fate prior past := by
  rw [remembered, List.foldl_append, List.foldl_cons, List.foldl_nil]
  rfl

def Fated (fate : α → Except Str Unit) : Exchange (ResolveCall α) ResolveCall.Answer → Prop
  | ⟨.connect a, up⟩ => up = (fate a).isOk
  | ⟨.lookup _ _, _⟩ => True

theorem connect_steady (h : net.Steady fate) (r : SystemResolver η) (a : α) :
    (r.connect net a).1 = (fate a).isOk ∧
      (r.connect net a).2.lastConnectError = (failure fate a).or r.lastConnectError := by
  have hsame := h r.network a
  unfold SystemResolver.connect failure
  cases hanswer : net.connect r.network a with
  | mk answer network =>
    rw [hanswer] at hsame
    rw [← hsame]
    cases answer with
    | ok _ => exact ⟨rfl, rfl⟩
    | error text => exact ⟨rfl, rfl⟩

theorem lookup_last (host service : Str) :
    (r.lookup net host service).2.lastConnectError = r.lastConnectError := by
  unfold SystemResolver.lookup
  split
  · rfl
  · split <;> rfl

theorem steady_log (h : net.Steady fate) (d : Resolving α ρ) (r : SystemResolver η) :
    (∀ e ∈ d.log (SystemResolver.serve net) r, Fated fate e) ∧
      (d.run (SystemResolver.serve net) r).2.lastConnectError =
        remembered fate r.lastConnectError (d.log (SystemResolver.serve net) r) := by
  have hserve : ∀ past (s : SystemResolver η) (q : ResolveCall α),
      s.lastConnectError = remembered fate r.lastConnectError past →
      Fated fate ⟨q, (SystemResolver.serve net s q).1⟩ ∧
        (SystemResolver.serve net s q).2.lastConnectError =
          remembered fate r.lastConnectError (past ++ [⟨q, (SystemResolver.serve net s q).1⟩]) := by
    intro past s q hs
    rw [remembered_append]
    cases q with
    | lookup host service => exact ⟨trivial, (lookup_last host service).trans hs⟩
    | connect a =>
      obtain ⟨hup, hlast⟩ := connect_steady h s a
      refine ⟨hup, hlast.trans ?_⟩
      rw [hs]
  have hlog : Each (fun _ e => Fated fate e) ([] ++ d.log (SystemResolver.serve net) r) ∧ _ :=
    d.log_each hserve each_nil rfl
  rw [List.nil_append] at hlog
  refine ⟨?_, hlog.2⟩
  intro e he
  obtain ⟨past, rest, hsplit⟩ := List.append_of_mem he
  exact hlog.1 past e rest hsplit

def reachable (fate : α → Except Str Unit) (candidates : List α) : List α :=
  candidates.filter fun a => (fate a).isOk

/-- The text that the resolver has after a failed probe of an address, or of none. -/
def failureText (fate : α → Except Str Unit) (a : Option α) : Str :=
  (a.bind (failure fate)).getD "Success".toList

theorem accepting_fated {ups : List (α × Bool)} (h : ∀ e ∈ probed ups, Fated fate e) :
    accepting ups = reachable fate (ups.map Prod.fst) := by
  induction ups with
  | nil => rfl
  | cons up ups ih =>
    obtain ⟨a, b⟩ := up
    obtain ⟨hup, hrest⟩ := List.forall_mem_cons.mp h
    obtain rfl : b = (fate a).isOk := hup
    have hkept := ih hrest
    unfold accepting reachable at hkept ⊢
    rw [List.map_cons, List.filter_cons, List.filter_cons, ← hkept]
    cases (fate a).isOk with
    | true => rfl
    | false => rfl

theorem remembered_failed {ups : List (α × Bool)} (h : reachable fate (ups.map Prod.fst) = []) :
    remembered fate none (probed ups) = (ups.map Prod.fst).getLast?.bind (failure fate) := by
  rcases List.eq_nil_or_concat ups with rfl | ⟨front, last, rfl⟩
  · rfl
  · have hlast : ¬ (fate last.1).isOk = true := by
      apply List.filter_eq_nil_iff.mp h
      simp
    rw [List.concat_eq_append, probed_append, List.map_append]
    change remembered fate none (probed front ++ [⟨.connect last.1, last.2⟩]) = _
    rw [remembered_append, List.map_singleton, List.getLast?_append]
    change (failure fate last.1).or _ = failure fate last.1
    unfold failure
    cases hfate : fate last.1 with
    | ok _ =>
      rw [hfate] at hlast
      exact absurd rfl hlast
    | error text => rfl

/-- The target of an engine that probes each candidate once, with the last one that it probes. -/
theorem target_of_probes (h : net.Steady fate)
    {resolve : Str → Str → Resolving α (Except EngineError (List α))} {host service : Str}
    {network : η} {candidates : List α} {ups : List (α × Bool)}
    (hups : reachable fate (ups.map Prod.fst) = [] ↔ reachable fate candidates = [])
    (hlog : (resolve host service).log (SystemResolver.serve net) (.new network) =
      ⟨.lookup host service, (.ok candidates : Except Str (List α))⟩ :: probed ups)
    (hrun : ((resolve host service).run (SystemResolver.serve net) (.new network)).1 =
      .ok (reachable fate candidates)) :
    (reachable fate candidates ≠ [] →
        target net resolve host service (.new network) = .ok (reachable fate candidates)) ∧
      (reachable fate candidates = [] → target net resolve host service (.new network) =
        .error (unreachable host service (failureText fate (ups.map Prod.fst).getLast?))) := by
  obtain ⟨_, hlast⟩ := steady_log h (resolve host service) (.new network)
  rw [hlog] at hlast
  unfold target
  obtain ⟨answer, r, hdone⟩ : ∃ answer r,
      (resolve host service).run (SystemResolver.serve net) (.new network) = (answer, r) :=
    ⟨_, _, rfl⟩
  rw [hdone] at hrun hlast ⊢
  obtain rfl : answer = .ok (reachable fate candidates) := hrun
  constructor
  · intro hne
    cases hkept : reachable fate candidates with
    | nil => exact absurd hkept hne
    | cons a rest => rfl
  · intro hnone
    rw [hnone]
    have htext : r.lastConnectError = (ups.map Prod.fst).getLast?.bind (failure fate) :=
      hlast.trans (remembered_failed (hups.mpr hnone))
    change Except.error (unreachable host service (r.lastConnectError.getD _)) = _
    rw [htext]
    rfl

theorem target_of_order (h : net.Steady fate)
    (resolve : Str → Str → Resolving α (Except EngineError (List α)))
    {order : List (α × Bool) → List (α × Bool)} (horder : ∀ ups, (order ups).Perm ups)
    {host service : Str} {network : η} {candidates : List α}
    (hprobes : ∃ ups : List (α × Bool), ups.map Prod.fst = candidates ∧
      (resolve host service).log (SystemResolver.serve net) (.new network) =
        ⟨.lookup host service, (.ok candidates : Except Str (List α))⟩ :: probed (order ups) ∧
      ((resolve host service).run (SystemResolver.serve net) (.new network)).1 =
        .ok (accepting ups)) :
    ∃ ups : List (α × Bool), ups.map Prod.fst = candidates ∧
      (reachable fate candidates ≠ [] →
        target net resolve host service (.new network) = .ok (reachable fate candidates)) ∧
      (reachable fate candidates = [] → target net resolve host service (.new network) =
        .error (unreachable host service
          (failureText fate ((order ups).map Prod.fst).getLast?))) := by
  obtain ⟨ups, hfst, hlog, hrun⟩ := hprobes
  have hfated : ∀ e ∈ probed ups, Fated fate e := by
    intro e he
    apply (steady_log h (resolve host service) (.new network)).1
    rw [hlog]
    apply List.mem_cons_of_mem
    exact ((horder ups).symm.map _).subset he
  rw [accepting_fated hfated, hfst] at hrun
  have hups : reachable fate ((order ups).map Prod.fst) = [] ↔ reachable fate candidates = [] := by
    have hperm := ((horder ups).map Prod.fst).filter fun a => (fate a).isOk
    rw [hfst] at hperm
    constructor
    · intro hnil
      exact List.nil_perm.mp (hnil ▸ hperm)
    · intro hnil
      have hnil' : List.filter (fun a => (fate a).isOk) candidates = [] := hnil
      rw [hnil'] at hperm
      exact List.perm_nil.mp hperm
  exact ⟨ups, hfst, target_of_probes h hups hlog hrun⟩

/-- Where probes of an address are answered alike whenever they are made, all engines come to
the same addresses. When the lookup fails only the benchmark file engine leaves out the target,
and when no candidate is reachable the Lua engines name the failure of the first one, the
others that of the last. -/
theorem targets_agree (h : net.Steady fate) (host service : Str) (network : η) :
    (∀ text, ((SystemResolver.new network).lookup net host service).1 = .error text →
      target net luaResolve host service (.new network) =
          .error (unresolved host service text) ∧
        target net jsResolve host service (.new network) =
          .error (unresolved host service text) ∧
        target net configResolve host service (.new network) = .error text) ∧
      ∀ candidates, ((SystemResolver.new network).lookup net host service).1 = .ok candidates →
        (reachable fate candidates ≠ [] →
          target net luaResolve host service (.new network) = .ok (reachable fate candidates) ∧
            target net jsResolve host service (.new network) = .ok (reachable fate candidates) ∧
            target net configResolve host service (.new network) =
              .ok (reachable fate candidates)) ∧
          (reachable fate candidates = [] →
            target net luaResolve host service (.new network) =
                .error (unreachable host service (failureText fate candidates.head?)) ∧
              target net jsResolve host service (.new network) =
                .error (unreachable host service (failureText fate candidates.getLast?)) ∧
              target net configResolve host service (.new network) =
                .error (unreachable host service (failureText fate candidates.getLast?))) := by
  constructor
  · intro text hfound
    have hfailed : ∀ (fail : Str → EngineError) (keep : List α → Resolving α (List α))
        (resolve : Str → Str → Resolving α (Except EngineError (List α))),
        resolve host service = lookThen host service fail keep →
        target net resolve host service (.new network) = .error (fail text).rawMessage := by
      intro fail keep resolve hresolve
      have hrun := lookThen_failed fail keep hfound
      unfold target
      rw [hresolve]
      split
      · rename_i error _ hdone
        rw [hdone] at hrun
        rw [Except.error.inj hrun]
      · rename_i hdone
        rw [hdone] at hrun
        cases hrun
      · rename_i hdone
        rw [hdone] at hrun
        cases hrun
    refine ⟨hfailed _ _ luaResolve rfl, hfailed _ _ jsResolve rfl, ?_⟩
    exact hfailed .resolve filterReachable configResolve rfl
  · intro candidates hfound
    obtain ⟨luaUps, hlua, hluaOk, hluaNone⟩ := target_of_order h luaResolve
      List.reverse_perm (by
        obtain ⟨ups, hfst, hlog, hrun⟩ := lookThen_prunes hfound
        rw [probed, ← List.map_reverse] at hlog
        exact ⟨ups, hfst, hlog, hrun⟩)
    obtain ⟨jsUps, hjs, hjsOk, hjsNone⟩ := target_of_order h jsResolve
      List.Perm.refl (lookThen_filters
        (fun host service text => .runtime (unresolved host service text)) hfound)
    obtain ⟨ups, hups, hok, hnone⟩ := target_of_order h configResolve
      List.Perm.refl (lookThen_filters (fun _ _ text => .resolve text) hfound)
    rw [List.map_reverse, hlua, List.getLast?_reverse] at hluaNone
    rw [hjs] at hjsNone
    rw [hups] at hnone
    constructor
    · intro hne
      exact ⟨hluaOk hne, hjsOk hne, hok hne⟩
    · intro hnil
      exact ⟨hluaNone hnil, hjsNone hnil, hnone hnil⟩

def downFate (address : Nat) : Except Str Unit :=
  .error (if address = 1 then "Connection refused (os error 111)".toList
    else "Network is unreachable (os error 101)".toList)

def downNetwork : Network Unit Nat where
  lookup _ _ _ := (.ok [1, 2], ())
  connect _ address := (downFate address, ())

theorem targets_agree_sample :
    target downNetwork luaResolve ['h'] ['1'] (.new ()) =
        .error "unable to connect to h:1 Connection refused".toList ∧
      target downNetwork jsResolve ['h'] ['1'] (.new ()) =
        .error "unable to connect to h:1 Network is unreachable".toList := by
  have hsteady : downNetwork.Steady downFate := fun _ _ => rfl
  obtain ⟨hlua, hjs, _⟩ := ((targets_agree hsteady ['h'] ['1'] ()).2 [1, 2] rfl).2 rfl
  constructor
  · rw [hlua]
    decide +kernel
  · rw [hjs]
    decide +kernel

end Steady

end Wrkrs
