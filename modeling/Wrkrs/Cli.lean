import Wrkrs.Getopt
import Wrkrs.Units
import Wrkrs.UrlParse

/-!
# The command line

Options, defaults and validation. The version line is printed while parsing; every
failure ends in the usage text, with or without a message.
-/

namespace Wrkrs

set_option autoImplicit false
set_option maxRecDepth 4096

open Machine Text

inductive OutputMode where
  | legacy
  | modern
  | json
  deriving DecidableEq, Repr

def parseOutputMode (name : Str) : Option OutputMode :=
  if name = "legacy".toList then some .legacy
  else if name = "modern".toList then some .modern
  else if name = "json".toList then some .json
  else none

namespace Cli

structure Config where
  threads : UInt64
  connections : UInt64
  durationS : UInt64
  timeoutMs : UInt64
  latency : Bool
  script : Option Str
  headers : List Str
  engine : Option Str
  output : OutputMode
  outputFile : Option Str
  url : Str
  parts : UrlRef
  initArgs : List Str
  deriving DecidableEq, Repr

inductive Outcome where
  | run (config : Config)
  | listEngines
  | usage (message : Option Str)
  deriving DecidableEq, Repr

def options : List OptionDef := [
  ⟨'c', "connections".toList, true⟩,
  ⟨'d', "duration".toList, true⟩,
  ⟨'t', "threads".toList, true⟩,
  ⟨'s', "script".toList, true⟩,
  ⟨'H', "header".toList, true⟩,
  ⟨'L', "latency".toList, false⟩,
  ⟨'T', "timeout".toList, true⟩,
  ⟨'o', "output".toList, true⟩,
  ⟨'O', "output-file".toList, true⟩,
  ⟨'e', "engine".toList, true⟩,
  ⟨'E', "engines".toList, false⟩,
  ⟨'h', "help".toList, false⟩,
  ⟨'v', "version".toList, false⟩]

/-- What the options have set so far, and what has been printed. -/
structure Settings where
  threads : UInt64
  connections : UInt64
  durationS : UInt64
  timeoutMs : UInt64
  latency : Bool
  script : Option Str
  headers : List Str
  engine : Option Str
  listEngines : Bool
  output : OutputMode
  outputFile : Option Str
  out : Str
  deriving DecidableEq, Repr

def Settings.default : Settings where
  threads := 2
  connections := 10
  durationS := 10
  timeoutMs := 2000
  latency := false
  script := none
  headers := []
  engine := none
  listEngines := false
  output := .legacy
  outputFile := none
  out := []

/-- A failure is a usage message, or silent. -/
abbrev Usage := Option Str

def number (scan : Except Fault (Option UInt64)) (set : UInt64 → Settings) :
    Except Fault (Except Usage Settings) :=
  scan.map fun
    | none => .error none
    | some value => .ok (set value)

def readOption (build : Build) (version : Str) (settings : Settings) (option : ParsedOption) :
    Except Fault (Except Usage Settings) :=
  let value := option.value.getD []
  match option.short with
  | 't' => number (scanMetric build value) fun n => { settings with threads := n }
  | 'c' => number (scanMetric build value) fun n => { settings with connections := n }
  | 'd' => number (scanTime build value) fun n => { settings with durationS := n }
  | 'T' => number (scanTime build value) fun seconds =>
      { settings with timeoutMs := saturatingMul seconds 1000 }
  | 's' => .ok (.ok { settings with script := some value })
  | 'H' => .ok (.ok { settings with headers := settings.headers ++ [value] })
  | 'L' => .ok (.ok { settings with latency := true })
  | 'e' => .ok (.ok { settings with engine := some value })
  | 'E' => .ok (.ok { settings with listEngines := true })
  | 'o' => .ok (match parseOutputMode value with
      | some output => .ok { settings with output := output }
      | none => .error (some ("invalid output mode: ".toList ++ value ++
          " (expected legacy, modern, or json)".toList)))
  | 'O' => .ok (.ok { settings with outputFile := some value })
  | 'v' => .ok (.ok { settings with out := settings.out ++ version ++ "\n".toList })
  | _ => .ok (.error none)

/-- The settings, or where they stop; what has been printed stays in both cases. -/
def readOptions (build : Build) (version : Str) :
    Settings → List ParsedOption → Except Fault (Except Usage Settings × Str)
  | settings, [] => .ok (.ok settings, settings.out)
  | settings, option :: rest => do
    match ← readOption build version settings option with
    | .error message => return (.error message, settings.out)
    | .ok settings => readOptions build version settings rest

def outcome (settings : Settings) (positional : List Str) : Except Fault Outcome :=
  if settings.listEngines then .ok .listEngines
  else match positional with
    | [] => .ok (.usage none)
    | url :: _ =>
      if settings.threads = 0 ∨ settings.durationS = 0 then .ok (.usage none)
      else (parseUrl url).map fun
        | none => .usage (some ("invalid URL: ".toList ++ url))
        | some parts =>
          if settings.connections = 0 ∨ settings.connections < settings.threads then
            .usage (some "number of connections must be >= threads".toList)
          else .run {
            threads := settings.threads
            connections := settings.connections
            durationS := settings.durationS
            timeoutMs := settings.timeoutMs
            latency := settings.latency
            script := settings.script
            headers := settings.headers
            engine := settings.engine
            output := settings.output
            outputFile := settings.outputFile
            url := url
            parts := parts
            initArgs := positional }

/-- The outcome and what has been printed; the version line is one of the build. -/
def parse (build : Build) (version program : Str) (args : List Str) :
    Except Fault (Outcome × Str) := do
  match Getopt.parse program options args with
  | .error message => return (.usage (some message), [])
  | .ok arguments =>
    match ← readOptions build version .default arguments.options with
    | (.error message, out) => return (.usage message, out)
    | (.ok settings, out) =>
      let outcome ← outcome settings arguments.positional
      return (outcome, out)

theorem readOption_total (build : Build) (version : Str) (settings : Settings)
    (option : ParsedOption) :
    ∃ result, readOption build version settings option = .ok result := by
  have hnumber : ∀ {scan : Except Fault (Option UInt64)} (set : UInt64 → Settings),
      (∃ n, scan = .ok n) → ∃ result, number scan set = .ok result := by
    rintro scan set ⟨n, rfl⟩
    exact ⟨_, rfl⟩
  unfold readOption
  split
  · exact hnumber _ (scanMetric_total build _)
  · exact hnumber _ (scanMetric_total build _)
  · exact hnumber _ (scanTime_total build _)
  · exact hnumber _ (scanTime_total build _)
  all_goals exact ⟨_, rfl⟩

theorem readOptions_total (build : Build) (version : Str) (settings : Settings)
    (past : List ParsedOption) :
    ∃ result, readOptions build version settings past = .ok result := by
  induction past generalizing settings with
  | nil => exact ⟨_, rfl⟩
  | cons option rest ih =>
    obtain ⟨result, hresult⟩ := readOption_total build version settings option
    rw [readOptions, hresult, ok_bind]
    cases result with
    | error message => exact ⟨_, rfl⟩
    | ok settings => exact ih settings

theorem outcome_total (settings : Settings) (positional : List Str) :
    ∃ result, outcome settings positional = .ok result := by
  unfold outcome
  by_cases hlist : settings.listEngines
  · exact ⟨_, if_pos hlist⟩
  · rw [if_neg hlist]
    cases positional with
    | nil => exact ⟨_, rfl⟩
    | cons url rest =>
      obtain ⟨parts, hparts⟩ := parseUrl_total url
      dsimp only
      rw [hparts]
      split
      · exact ⟨_, rfl⟩
      · exact ⟨_, rfl⟩

/-- Every argument list has an outcome. -/
theorem parse_total (build : Build) (version program : Str) (args : List Str) :
    ∃ result, parse build version program args = .ok result := by
  rw [parse]
  cases Getopt.parse program options args with
  | error message => exact ⟨_, rfl⟩
  | ok arguments =>
    obtain ⟨⟨read, out⟩, hread⟩ := readOptions_total build version .default arguments.options
    dsimp only
    rw [hread, ok_bind]
    cases read with
    | error stopped => exact ⟨_, rfl⟩
    | ok settings =>
      obtain ⟨result, hresult⟩ := outcome_total settings arguments.positional
      dsimp only
      rw [hresult]
      exact ⟨_, rfl⟩

def lastValue (short : Char) : List ParsedOption → Option Str
  | [] => none
  | option :: rest => (lastValue short rest).or
      (if option.short = short then some (option.value.getD []) else none)

/-- A setting holds the number of the last option with its name, and its default without
one. -/
def Gives (scan : Str → Except Fault (Option UInt64)) (store : UInt64 → UInt64) (short : Char)
    (past : List ParsedOption) (default setting : UInt64) : Prop :=
  match lastValue short past with
  | none => setting = default
  | some value => ∃ n, scan value = .ok (some n) ∧ setting = store n

section Gives
variable {scan : Str → Except Fault (Option UInt64)} {store : UInt64 → UInt64} {short : Char}
variable {option : ParsedOption} {past : List ParsedOption} {a b c : UInt64}

theorem Gives.nil : Gives scan store short [] a a := by
  rw [Gives, lastValue]

theorem Gives.cons (first : Gives scan store short [option] a b)
    (rest : Gives scan store short past b c) : Gives scan store short (option :: past) a c := by
  rw [Gives, lastValue] at *
  cases hlast : lastValue short past with
  | some value =>
    rw [hlast] at rest
    exact rest
  | none =>
    rw [hlast] at rest
    rw [rest]
    exact first

theorem Gives.other (h : option.short ≠ short) : Gives scan store short [option] a a := by
  rw [Gives, lastValue, if_neg h]
  rfl

theorem Gives.set {n : UInt64} (h : option.short = short)
    (hscan : scan (option.value.getD []) = .ok (some n)) :
    Gives scan store short [option] a (store n) := by
  rw [Gives, lastValue, if_pos h]
  exact ⟨n, hscan, rfl⟩

end Gives

structure ReadBy (build : Build) (past : List ParsedOption) (s s' : Settings) : Prop where
  threads : Gives (scanMetric build) id 't' past s.threads s'.threads
  connections : Gives (scanMetric build) id 'c' past s.connections s'.connections
  durationS : Gives (scanTime build) id 'd' past s.durationS s'.durationS
  timeoutMs : Gives (scanTime build) (saturatingMul · 1000) 'T' past s.timeoutMs s'.timeoutMs

theorem number_ok {scan : Except Fault (Option UInt64)} {set : UInt64 → Settings} {s : Settings}
    (h : number scan set = .ok (.ok s)) : ∃ n, scan = .ok (some n) ∧ set n = s := by
  rw [number] at h
  cases scan with
  | error fault => cases h
  | ok result =>
    cases result with
    | none => cases h
    | some n =>
      cases h
      exact ⟨n, rfl, rfl⟩

theorem readOption_numbers {build : Build} {version : Str} {s s' : Settings}
    {option : ParsedOption} (h : readOption build version s option = .ok (.ok s')) :
    ReadBy build [option] s s' := by
  unfold readOption at h
  split at h
  case h_1 hshort =>
    obtain ⟨n, hscan, rfl⟩ := number_ok h
    constructor
    · exact .set hshort hscan
    all_goals exact .other (by simp [hshort])
  case h_2 hshort =>
    obtain ⟨n, hscan, rfl⟩ := number_ok h
    constructor
    · exact .other (by simp [hshort])
    · exact .set hshort hscan
    all_goals exact .other (by simp [hshort])
  case h_3 hshort =>
    obtain ⟨n, hscan, rfl⟩ := number_ok h
    constructor
    · exact .other (by simp [hshort])
    · exact .other (by simp [hshort])
    · exact .set hshort hscan
    · exact .other (by simp [hshort])
  case h_4 hshort =>
    obtain ⟨n, hscan, rfl⟩ := number_ok h
    constructor
    case timeoutMs => exact .set hshort hscan
    all_goals exact .other (by simp [hshort])
  case h_10 hshort =>
    dsimp only at h
    split at h
    · cases h
      constructor
      all_goals exact .other (by simp [hshort])
    · cases h
  case h_13 => cases h
  all_goals
    rename_i hshort
    cases h
    constructor
    all_goals exact .other (by simp [hshort])

theorem readOptions_numbers {build : Build} {version out : Str} {past : List ParsedOption}
    {s s' : Settings} (h : readOptions build version s past = .ok (.ok s', out)) :
    ReadBy build past s s' := by
  induction past generalizing s with
  | nil =>
    cases h
    exact ⟨.nil, .nil, .nil, .nil⟩
  | cons option rest ih =>
    rw [readOptions] at h
    cases hread : readOption build version s option with
    | error fault => simp [hread] at h
    | ok result =>
      rw [hread, ok_bind] at h
      cases result with
      | error stopped => cases h
      | ok settings =>
        have first := readOption_numbers hread
        have later := ih h
        constructor
        · exact first.threads.cons later.threads
        · exact first.connections.cons later.connections
        · exact first.durationS.cons later.durationS
        · exact first.timeoutMs.cons later.timeoutMs

/-- The numbers a command line gives; the timeout in seconds. -/
structure Numbers where
  threads : UInt64
  connections : UInt64
  duration : UInt64
  timeout : UInt64
  deriving DecidableEq, Repr

/-- The last option of each name counts, without one its default. -/
structure Numbers.Of (build : Build) (past : List ParsedOption) (n : Numbers) : Prop where
  threads : Gives (scanMetric build) id 't' past 2 n.threads
  connections : Gives (scanMetric build) id 'c' past 10 n.connections
  duration : Gives (scanTime build) id 'd' past 10 n.duration
  timeout : Gives (scanTime build) id 'T' past 2 n.timeout

/-- What the checks leave of the numbers. -/
structure Numbers.Checked (n : Numbers) (config : Config) : Prop where
  threads : config.threads = n.threads
  connections : config.connections = n.connections
  durationS : config.durationS = n.duration
  timeoutMs : config.timeoutMs = saturatingMul n.timeout 1000
  someThread : n.threads ≠ 0
  someTime : n.duration ≠ 0
  enough : n.threads ≤ n.connections

theorem Gives.stored {scan : Str → Except Fault (Option UInt64)} {store : UInt64 → UInt64}
    {short : Char} {past : List ParsedOption} {a b : UInt64}
    (h : Gives scan store short past (store a) b) :
    ∃ n, Gives scan id short past a n ∧ b = store n := by
  rw [Gives] at h
  cases hlast : lastValue short past with
  | none =>
    rw [hlast] at h
    refine ⟨a, ?_, h⟩
    rw [Gives, hlast]
  | some value =>
    rw [hlast] at h
    obtain ⟨n, hscan, hb⟩ := h
    refine ⟨n, ?_, hb⟩
    rw [Gives, hlast]
    exact ⟨n, hscan, rfl⟩

theorem outcome_run {settings : Settings} {positional : List Str} {config : Config}
    {timeout : UInt64} (h : outcome settings positional = .ok (.run config))
    (htimeout : settings.timeoutMs = saturatingMul timeout 1000) :
    Numbers.Checked ⟨settings.threads, settings.connections, settings.durationS, timeout⟩
      config := by
  unfold outcome at h
  split at h
  · cases h
  · split at h
    · cases h
    · split at h
      · cases h
      · rename_i url rest hzero
        obtain ⟨parts, hparts⟩ := parseUrl_total url
        rw [hparts] at h
        cases parts with
        | none => cases h
        | some parts =>
          change Except.ok (if _ then _ else _) = _ at h
          split at h
          · cases h
          · rename_i hconnections
            cases h
            obtain ⟨hthreads, hduration⟩ := not_or.mp hzero
            refine ⟨rfl, rfl, rfl, htimeout, hthreads, hduration, ?_⟩
            exact UInt64.not_lt.mp (not_or.mp hconnections).2

/-- A run has the numbers of its command line, and they pass the checks. -/
theorem parse_run {build : Build} {version program out : Str} {args : List Str} {config : Config}
    (h : parse build version program args = .ok (.run config, out)) :
    ∃ arguments n, Getopt.parse program options args = .ok arguments ∧
      Numbers.Of build arguments.options n ∧ n.Checked config := by
  rw [parse] at h
  cases hargs : Getopt.parse program options args with
  | error message =>
    rw [hargs] at h
    cases h
  | ok arguments =>
    rw [hargs] at h
    dsimp only at h
    obtain ⟨⟨read, printed⟩, hread⟩ := readOptions_total build version .default arguments.options
    rw [hread, ok_bind] at h
    cases read with
    | error stopped => cases h
    | ok settings =>
      obtain ⟨result, hresult⟩ := outcome_total settings arguments.positional
      dsimp only at h
      rw [hresult] at h
      cases h
      have hnumbers := readOptions_numbers hread
      obtain ⟨timeout, hgives, hstored⟩ := hnumbers.timeoutMs.stored (a := 2)
      refine ⟨arguments, ⟨settings.threads, settings.connections, settings.durationS, timeout⟩,
        rfl, ?_, outcome_run hresult hstored⟩
      exact ⟨hnumbers.threads, hnumbers.connections, hnumbers.durationS, hgives⟩

end Cli

end Wrkrs
