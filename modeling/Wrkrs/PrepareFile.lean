import Wrkrs.Library.Tables
import Wrkrs.Prepare
import Wrkrs.VerifyConfig

/-!
# Preparing a benchmark file

The engine of a benchmark file as an environment among others, with its globals and the stop
that it calls on its handle, and what a run of such a file is prepared to.
-/

namespace Wrkrs

set_option autoImplicit false
set_option maxRecDepth 4096

open Text Machine Runs Dialogues Cli

variable {α ν η : Type}

/-- The engine of a benchmark file with the globals that others leave with it. -/
structure FileState (ν : Type) where
  engine : ConfigEngine
  globals : List (Str × ν)

/-- How a path is read: the text of an error, or a parsed benchmark file. -/
abbrev FileReader := Str → Except Str BenchFile

def FileState.create (read : FileReader) (spec : RunSpec) :
    Except Fault (Except EngineError (FileState ν)) :=
  match spec.script with
  | none => .ok (.error (.load "config engine requires a benchmark file".toList))
  | some path =>
    match read path with
    | .error text => .ok (.error (.load text))
    | .ok file => (ConfigEngine.create spec.toScriptSpec path file).map fun
      | .error message => .error (.load message)
      | .ok engine => .ok ⟨engine, []⟩

/-- A response counts, and a limit that is reached stops the thread that init delivered. -/
def FileState.response (s : FileState ν) (body : Bytes) :
    OwnCalls α ν (Except EngineError Unit × FileState ν) :=
  let engine := s.engine.count body
  if engine.thread && engine.file.stop.reached engine.completed engine.received then
    .asks .stop fun _ => .ends (.ok (), { s with engine := engine })
  else .ends (.ok (), { s with engine := engine })

def configEnvironment (read : FileReader) (null : ν) : Environment α ν (FileState ν) where
  create _ spec := FileState.create read spec
  globals :=
    { get := fun s name => .ok ((Tables.value s.globals name).getD null)
      set := fun s name value => (.ok (), { s with globals := Tables.assign s.globals name value }) }
  resolve s host service := (configResolve host service).map fun result => (result, s)
  setup _ s := .ends (.ok (), s)
  init s _ := .ends (.ok (), { s with engine := s.engine.init })
  demands s := ⟨s.engine.capabilities, false⟩
  delay s := .ends (0, s)
  request s := .ends (.ok s.engine.request, s)
  response s _ _ body := s.response body
  done _ _ s := .ends (.ok (), s)

section Files
variable {read : FileReader} {null : ν} {build : Build} {parse : RequestParser} {config : Config}

def FileState.thread (s : FileState ν) : OpenThread α (FileState ν) :=
  ⟨none, false, { s with engine := s.engine.init }⟩

def FileState.found (build : Build) (parse : RequestParser) (s : FileState ν) :
    Except Unprepared (Nat × Demands) :=
  (verified (verifyRequest build parse s.engine.request)).map fun pipeline =>
    (pipeline, ⟨s.engine.capabilities, false⟩)

theorem initThread_file (s : FileState ν) (k : Nat) (found : Nat × Demands)
    (t : ClosedThread α) :
    initThread (configEnvironment read null) build parse config ClosedThread.serve k found s t =
      (if k = 0 then s.found build parse else .ok found).map fun found =>
        ⟨found, { s with engine := s.engine.init }, t⟩ := by
  change probeThread (configEnvironment read null) build parse ClosedThread.serve k found
    { s with engine := s.engine.init } t = _
  unfold probeThread
  split
  · unfold FileState.found
    change (verified (verifyRequest build parse s.engine.request)).map _ = _
    cases verified (verifyRequest build parse s.engine.request) <;> rfl
  · rfl

/-- One turn: the setup does nothing, and only thread zero is asked for its request. -/
theorem openThread_file {s : FileState ν}
    (hcreate : FileState.create read (buildSpec config) = .ok (.ok s)) {k : Nat}
    (p : Preparing (FileState ν) (OpenThread α (FileState ν)) k) :
    openThread (configEnvironment read null) build parse config p =
      (if k = 0 then s.found build parse else .ok p.found).map fun found =>
        ⟨p.main, Fin.snoc p.threads s.thread, found⟩ := by
  have hbuilt : built ((configEnvironment (α := α) read null).create (k + 1) (buildSpec config)) =
      .ok s := by
    change built (FileState.create read (buildSpec config)) = .ok s
    rw [hcreate]
    rfl
  have hsetup : setupThread (configEnvironment read null)
      (OpenThread.serve (configEnvironment (α := α) read null).globals) p.main p.threads
      (OpenThread.new s) = .ok (p.main, Fin.snoc p.threads (OpenThread.new s)) := rfl
  have hlast : (Fin.snoc p.threads (OpenThread.new s) :
      Fin (k + 1) → OpenThread α (FileState ν)) (Fin.last k) = OpenThread.new s :=
    Fin.snoc_last _ _
  unfold openThread
  rw [hbuilt, ok_bind, hsetup, ok_bind]
  dsimp only
  rw [hlast]
  change initThread (configEnvironment read null) build parse config ClosedThread.serve k p.found
    s (OpenThread.new s).close >>= _ = _
  rw [initThread_file]
  generalize (if k = 0 then s.found build parse else .ok p.found) = found
  cases found with
  | error _ => rfl
  | ok found =>
    exact congrArg (fun ts => Except.ok (Preparing.mk p.main ts found))
      (Fin.update_snoc_last (α := fun _ => OpenThread α (FileState ν)) (OpenThread.new s)
        p.threads s.thread)

theorem prepareThreads_file {s : FileState ν}
    (hcreate : FileState.create read (buildSpec config) = .ok (.ok s)) {n : Nat} (hn : 1 ≤ n) :
    prepareThreads (openThread (configEnvironment (α := α) read null) build parse config) s n =
      (s.found build parse).map fun found => ⟨s, fun _ => s.thread, found⟩ := by
  induction n, hn using Nat.le_induction with
  | base =>
    refine (openThread_file hcreate _).trans ?_
    rw [if_pos rfl]
    refine congrArg (fun ts => (s.found build parse).map fun found => Preparing.mk s ts found) ?_
    funext i
    rw [Fin.fin_one_eq_zero i]
    exact Fin.snoc_last (α := fun _ => OpenThread α (FileState ν)) (n := 0) _ _
  | succ n hn ih =>
    rw [prepareThreads, ih]
    cases s.found build parse with
    | error _ => rfl
    | ok found =>
      refine (openThread_file hcreate _).trans ?_
      rw [if_neg (Nat.ne_of_gt hn)]
      refine congrArg (fun ts => Except.ok (Preparing.mk s ts found)) ?_
      funext i
      refine Fin.lastCases ?_ (fun i => ?_) i
      · exact Fin.snoc_last _ _
      · exact Fin.snoc_castSucc _ _ _

theorem create_file {spec : RunSpec} {s : FileState ν} :
    FileState.create read spec = .ok (.ok s) ↔ ∃ path file engine, spec.script = some path ∧
      read path = .ok file ∧
      ConfigEngine.create spec.toScriptSpec path file = .ok (.ok engine) ∧ s = ⟨engine, []⟩ := by
  unfold FileState.create
  constructor
  · intro h
    split at h
    · cases h
    · rename_i path hpath
      split at h
      · cases h
      · rename_i file hfile
        obtain ⟨made, hmade, hs⟩ := map_eq_ok.mp h
        cases made with
        | error message => cases hs
        | ok engine =>
          obtain rfl := Except.ok.inj hs
          exact ⟨path, file, engine, hpath, hfile, hmade, rfl⟩
  · intro h
    obtain ⟨path, file, engine, hpath, hfile, hmade, rfl⟩ := h
    rw [hpath]
    dsimp only
    rw [hfile]
    dsimp only
    rw [hmade]
    rfl

theorem built_ok {ε : Type} {made : Except Fault (Except EngineError ε)} {state : ε} :
    built made = .ok state ↔ made = .ok (.ok state) := by
  cases made with
  | error fault => exact iff_of_false nofun nofun
  | ok result =>
    cases result with
    | error error => exact iff_of_false nofun nofun
    | ok made =>
      constructor
      · intro h
        rw [Except.ok.inj h]
      · intro h
        rw [Except.ok.inj (Except.ok.inj h)]
        rfl

theorem target_ok {net : Network η α}
    {resolve : Str → Str → Resolving α (Except EngineError (List α))} {host service : Str}
    {r : SystemResolver η} {addresses : List α} :
    target net resolve host service r = .ok addresses ↔
      ((resolve host service).run (SystemResolver.serve net) r).1 = .ok addresses ∧
        addresses ≠ [] := by
  obtain ⟨result, s, hrun⟩ : ∃ result s,
      (resolve host service).run (SystemResolver.serve net) r = (result, s) := ⟨_, _, rfl⟩
  unfold target
  rw [hrun]
  cases result with
  | error error => exact iff_of_false nofun nofun
  | ok found =>
    cases found with
    | nil =>
      refine iff_of_false nofun ?_
      intro h
      exact h.2 (Except.ok.inj h.1).symm
    | cons a rest =>
      constructor
      · intro h
        obtain rfl := Except.ok.inj h
        exact ⟨rfl, List.cons_ne_nil _ _⟩
      · intro h
        obtain rfl := Except.ok.inj h.1
        rfl

theorem raised_ok {β : Type} {result : Except EngineError β} {b : β} :
    raised result = .ok b ↔ result = .ok b := by
  cases result with
  | error error => exact iff_of_false nofun nofun
  | ok c =>
    constructor
    · intro h
      exact congrArg Except.ok (Except.ok.inj h)
    · intro h
      exact congrArg Except.ok (Except.ok.inj h)

theorem verified_ok {answer : Except Fault (Except Str Nat)} {pipeline : Nat} :
    verified answer = .ok pipeline ↔ answer = .ok (.ok pipeline) := by
  cases answer with
  | error fault => exact iff_of_false nofun nofun
  | ok result =>
    cases result with
    | error message => exact iff_of_false nofun nofun
    | ok n =>
      constructor
      · intro h
        rw [Except.ok.inj h]
      · intro h
        rw [Except.ok.inj (Except.ok.inj h)]
        rfl

/-- A run of a benchmark file is prepared exactly when its path is given and reads as a valid
file, some address of the target is reachable and its request passes the probe. All threads
then have an engine of their own in the same state, parked, with its handle and no address,
and the main engine none. -/
theorem prepared_file_iff (read : FileReader) (null : ν) (build : Build) (parse : RequestParser)
    (config : Config) (net : Network η α) (network : η) (hthreads : config.threads ≠ 0)
    (p : Prepared α (FileState ν) (HostThread α (FileState ν)) config.threads.toNat) :
    prepare (configEnvironment read null) build parse config net network = .ok p ↔
      ∃ path file engine addresses pipeline, config.script = some path ∧ read path = .ok file ∧
        ConfigEngine.create ⟨config.parts, splitHeaders config.headers⟩ path file =
          .ok (.ok engine) ∧
        target net configResolve (config.parts.host.getD [])
          ((config.parts.port.or config.parts.scheme).getD []) (.new network) = .ok addresses ∧
        verifyRequest build parse engine.request = .ok (.ok pipeline) ∧
        p = { main := ⟨engine, []⟩
              threads := fun _ => ⟨none, false, some ⟨engine.init, []⟩⟩
              found := (pipeline, ⟨engine.capabilities, false⟩)
              addresses := addresses
              tls := if config.parts.scheme.any ("https".toList).isPrefixOf then
                some (config.parts.host.getD []) else none } := by
  have hsome : 1 ≤ config.threads.toNat := by
    apply Nat.one_le_iff_ne_zero.mpr
    intro hzero
    exact hthreads (UInt64.toNat_inj.mp hzero)
  have hresolve : ∀ (s : FileState ν) (host service : Str),
      ((configEnvironment read null).resolve s host service).run (SystemResolver.serve net)
          (.new network) =
        ((((configResolve host service).run (SystemResolver.serve net) (.new network)).1, s),
          ((configResolve host service).run (SystemResolver.serve net) (.new network)).2) :=
    fun s host service => Dialogue.run_map _ _ _
  rw [prepare_handles, map_eq_ok]
  unfold prepareOpen prepareWith
  constructor
  · rintro ⟨q, hq, rfl⟩
    obtain ⟨s, hs, hq⟩ := bind_eq_ok.mp hq
    have hcreate := built_ok.mp hs
    dsimp only at hq
    rw [hresolve] at hq
    obtain ⟨addresses, haddresses, hq⟩ := bind_eq_ok.mp hq
    split at hq
    · cases hq
    · rename_i hne
      rw [prepareThreads_file hcreate hsome] at hq
      obtain ⟨threads, hprepared, hq⟩ := bind_eq_ok.mp hq
      obtain ⟨found, hfound, rfl⟩ := map_eq_ok.mp hprepared
      clear hprepared
      obtain ⟨pipeline, hpipeline, rfl⟩ := map_eq_ok.mp hfound
      obtain rfl := Except.ok.inj hq
      obtain ⟨path, file, engine, hpath, hfile, hmade, rfl⟩ := create_file.mp hcreate
      exact ⟨path, file, engine, addresses, pipeline, hpath, hfile, hmade,
        target_ok.mpr ⟨raised_ok.mp haddresses, hne⟩, verified_ok.mp hpipeline, rfl⟩
  · rintro ⟨path, file, engine, addresses, pipeline, hpath, hfile, hmade, htarget, hpipeline, rfl⟩
    have hcreate : FileState.create read (buildSpec config) =
        .ok (.ok (⟨engine, []⟩ : FileState ν)) :=
      create_file.mpr ⟨path, file, engine, hpath, hfile, hmade, rfl⟩
    obtain ⟨haddresses, hne⟩ := target_ok.mp htarget
    refine ⟨{ main := ⟨engine, []⟩
              threads := fun _ => FileState.thread ⟨engine, []⟩
              found := (pipeline, ⟨engine.capabilities, false⟩)
              addresses := addresses
              tls := _ }, bind_eq_ok.mpr ⟨_, built_ok.mpr hcreate, ?_⟩, rfl⟩
    dsimp only
    rw [hresolve]
    refine bind_eq_ok.mpr ⟨addresses, raised_ok.mpr haddresses, ?_⟩
    rw [if_neg hne, prepareThreads_file hcreate hsome]
    refine bind_eq_ok.mpr ⟨_, map_eq_ok.mpr ⟨(pipeline, _), map_eq_ok.mpr ⟨pipeline,
      verified_ok.mpr hpipeline, rfl⟩, rfl⟩, rfl⟩

def upNetwork : Network Unit Nat where
  lookup _ _ _ := (.ok [7], ())
  connect _ _ := (.ok (), ())

def fileConfig : Config where
  threads := 2
  connections := 2
  durationS := 1
  timeoutMs := 1000
  latency := false
  script := some ['f']
  headers := []
  engine := none
  output := .legacy
  outputFile := none
  url := "http://h/".toList
  parts := sampleParts
  initArgs := []

theorem prepared_file_iff_sample :
    prepare (configEnvironment (fun _ => .ok stopFile) 0) .release requestReference fileConfig
        upNetwork () =
      .ok { main := ⟨stopEngine, []⟩
            threads := fun _ => ⟨none, false, some ⟨stopEngine.init, []⟩⟩
            found := (1, ⟨stopEngine.capabilities, false⟩)
            addresses := [7]
            tls := none } := by
  refine (prepared_file_iff (fun _ => .ok stopFile) 0 .release requestReference fileConfig
    upNetwork () (by decide) _).mpr ?_
  refine ⟨['f'], stopFile, stopEngine, [7], 1, rfl, rfl, ?_, rfl, ?_, rfl⟩
  · decide +kernel
  · decide +kernel

end Files

end Wrkrs
