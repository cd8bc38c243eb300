import Mathlib.Data.List.TakeWhile
import Wrkrs.GetoptAccepts

/-!
# The configurations of command lines

The configurations that a command line can ask for are the ones that pass the checks: each of
them is written out, option by option, and read back.
-/

namespace Wrkrs

set_option autoImplicit false

open Machine Text

section Numbers

theorem toDigit_decimal {c : Char} (h : (toDigit 10 c).isSome) :
    48 ≤ c.toNat ∧ c.toNat ≤ 57 ∧ toDigit 10 c = some (c.toNat - 48) := by
  unfold toDigit at h ⊢
  dsimp only at h ⊢
  by_cases hcases : 48 ≤ c.toNat ∧ c.toNat ≤ 57
  · refine ⟨hcases.1, hcases.2, ?_⟩
    rw [if_pos hcases, if_pos (by omega)]
  · rw [if_neg hcases, if_neg (by split_ifs <;> omega)] at h
    cases h

theorem scanDigits_foldl {s : Str} (hs : AllDigits 10 s) (acc : Nat) :
    s.foldl (fun value digit => value * 10 + UInt64.ofNat (digit.toNat - 48)) (UInt64.ofNat acc) =
      UInt64.ofNat (digitsValue 10 acc s) := by
  induction s generalizing acc with
  | nil => rfl
  | cons c s ih =>
    obtain ⟨hc, hrest⟩ := List.forall_mem_cons.mp hs
    obtain ⟨-, -, hdigit⟩ := toDigit_decimal hc
    have hstep : UInt64.ofNat acc * 10 + UInt64.ofNat (c.toNat - 48) =
        UInt64.ofNat (acc * 10 + (c.toNat - 48)) := by
      rw [UInt64.ofNat_add, UInt64.ofNat_mul]
      rfl
    rw [List.foldl_cons, hstep, ih hrest, digitsValue, digitsValue, List.foldl_cons, hdigit]
    rfl

theorem scanUnits_decimal (build : Build) (n : UInt64) (base : Str) (units : List Str)
    (scale : Nat) : scanUnits build (decimal n.toNat) base units scale = .ok (some n) := by
  have hdigits : ∀ c ∈ decimal n.toNat, 48 ≤ c.toNat ∧ c.toNat ≤ 57 := by
    intro c hc
    obtain ⟨hlow, hhigh, -⟩ := toDigit_decimal (decimal_digits n.toNat c hc).2
    exact ⟨hlow, hhigh⟩
  obtain ⟨first, rest, heq⟩ := List.exists_cons_of_ne_nil (decimal_ne_nil n.toNat)
  obtain ⟨hlow, hhigh⟩ := hdigits first (heq ▸ List.mem_cons_self)
  have hspace : (decimal n.toNat).dropWhile isSpace = decimal n.toNat := by
    have hfirst : isSpace first = false := by
      simp only [isSpace]
      simp
      omega
    rw [heq, List.dropWhile_cons_of_neg (by rw [hfirst]; exact Bool.false_ne_true)]
  have hsign : scanSign (decimal n.toNat) = (false, decimal n.toNat) := by
    rw [heq]
    unfold scanSign
    split
    · next hplus =>
      cases hplus
      exact absurd hlow (by decide)
    · next hminus =>
      cases hminus
      exact absurd hlow (by decide)
    · rfl
  have hall : (decimal n.toNat).takeWhile Char.isDigit = decimal n.toNat := by
    rw [List.takeWhile_eq_self_iff]
    intro c hc
    obtain ⟨hlow, hhigh⟩ := hdigits c hc
    simp only [Char.isDigit, ge_iff_le, Bool.and_eq_true, decide_eq_true_eq]
    exact ⟨hlow, hhigh⟩
  have hvalue : scanDigits (decimal n.toNat) = n := by
    have hfold := scanDigits_foldl (fun c hc => (decimal_digits n.toNat c hc).2) 0
    rw [decimal_value, UInt64.ofNat_toNat] at hfold
    exact hfold
  simp only [scanUnits, hspace, hsign, hall, decimal_ne_nil, if_false, List.drop_length,
    List.dropWhile_nil, List.takeWhile_nil, List.take_nil, multiplier, if_true, hvalue]
  change Except.ok (some (n * UInt64.ofNat 1)) = _
  rw [show UInt64.ofNat 1 = 1 from rfl, UInt64.mul_one]

end Numbers

namespace Getopt

/-- Every sequence of options of the table, with any positional arguments, is parsed from some
command line. -/
theorem exists_parse {options : List OptionDef} (named : WellNamed options) (program : Str)
    {parsed : List ParsedOption} (h : ∀ option ∈ parsed, OfTable options option)
    (positional : List Str) :
    ∃ args, parse program options args = .ok ⟨parsed, positional⟩ := by
  induction parsed with
  | nil =>
    refine ⟨"--".toList :: positional, ?_⟩
    rw [parse, if_pos rfl]
  | cons option parsed ih =>
    obtain ⟨hoption, hrest⟩ := List.forall_mem_cons.mp h
    obtain ⟨written, hwritten⟩ := exists_written hoption
    obtain ⟨args, hargs⟩ := ih hrest
    refine ⟨written ++ args, ?_⟩
    rw [(hwritten.reads named).parse, hargs]
    rfl

end Getopt

def OutputMode.name : OutputMode → Str
  | .legacy => "legacy".toList
  | .modern => "modern".toList
  | .json => "json".toList

namespace Cli

/-- What the checks let through, with a timeout of whole seconds. -/
structure Config.Valid (config : Config) : Prop where
  someThread : config.threads ≠ 0
  someTime : config.durationS ≠ 0
  enough : config.threads ≤ config.connections
  seconds : ∃ timeout, config.timeoutMs = saturatingMul timeout 1000
  url : parseUrl config.url = .ok (some config.parts)
  first : ∃ rest, config.initArgs = config.url :: rest

/-- The options that set a configuration, with its timeout in seconds. -/
def Config.written (config : Config) (timeout : UInt64) : List ParsedOption :=
  [⟨'t', some (decimal config.threads.toNat)⟩, ⟨'c', some (decimal config.connections.toNat)⟩,
    ⟨'d', some (decimal config.durationS.toNat)⟩, ⟨'T', some (decimal timeout.toNat)⟩,
    ⟨'o', some config.output.name⟩] ++
  (if config.latency then [⟨'L', none⟩] else []) ++
  config.script.toList.map (fun script => ⟨'s', some script⟩) ++
  config.engine.toList.map (fun engine => ⟨'e', some engine⟩) ++
  config.outputFile.toList.map (fun file => ⟨'O', some file⟩) ++
  config.headers.map fun header => ⟨'H', some header⟩

section Settings
variable {build : Build} {version : Str} {s s' s'' : Settings} {past later : List ParsedOption}

/-- Some options take the settings to others, whatever options come after them. -/
def Sets (build : Build) (version : Str) (s : Settings) (past : List ParsedOption)
    (s' : Settings) : Prop :=
  ∀ rest, readOptions build version s (past ++ rest) = readOptions build version s' rest

theorem Sets.append (h : Sets build version s past s') (h' : Sets build version s' later s'') :
    Sets build version s (past ++ later) s'' := by
  intro rest
  rw [List.append_assoc, h, h']

theorem sets_none (s : Settings) : Sets build version s [] s := fun _ => rfl

theorem sets_one {option : ParsedOption} (h : readOption build version s option = .ok (.ok s')) :
    Sets build version s [option] s' := by
  intro rest
  rw [List.singleton_append, readOptions, h, ok_bind]

theorem sets_optional (short : Char) (value : Option Str) (set : Option Str → Settings)
    (hnone : set none = s) (hread : ∀ v,
      readOption build version s ⟨short, some v⟩ = .ok (.ok (set (some v)))) :
    Sets build version s (value.toList.map fun v => ⟨short, some v⟩) (set value) := by
  cases value with
  | none =>
    rw [hnone]
    exact sets_none s
  | some v => exact sets_one (hread v)

theorem sets_headers (s : Settings) (headers : List Str) :
    Sets build version s (headers.map fun header => ⟨'H', some header⟩)
      { s with headers := s.headers ++ headers } := by
  induction headers generalizing s with
  | nil =>
    rw [List.append_nil]
    exact sets_none s
  | cons header headers ih =>
    have hrest := ih { s with headers := s.headers ++ [header] }
    rw [List.append_assoc, List.singleton_append] at hrest
    exact Sets.append (sets_one rfl) hrest

theorem number_decimal (n : UInt64) (base : Str) (units : List Str) (scale : Nat)
    (set : UInt64 → Settings) :
    number (scanUnits build (decimal n.toNat) base units scale) set = .ok (.ok (set n)) := by
  rw [number, scanUnits_decimal]
  rfl

theorem parseOutputMode_name (output : OutputMode) :
    parseOutputMode output.name = some output := by
  cases output <;> decide

def Config.settings (config : Config) : Settings where
  threads := config.threads
  connections := config.connections
  durationS := config.durationS
  timeoutMs := config.timeoutMs
  latency := config.latency
  script := config.script
  headers := config.headers
  engine := config.engine
  listEngines := false
  output := config.output
  outputFile := config.outputFile
  out := []

theorem sets_numbers (config : Config) {timeout : UInt64}
    (htimeout : config.timeoutMs = saturatingMul timeout 1000) :
    Sets build version .default
      [⟨'t', some (decimal config.threads.toNat)⟩,
        ⟨'c', some (decimal config.connections.toNat)⟩,
        ⟨'d', some (decimal config.durationS.toNat)⟩, ⟨'T', some (decimal timeout.toNat)⟩,
        ⟨'o', some config.output.name⟩]
      { Settings.default with
        threads := config.threads
        connections := config.connections
        durationS := config.durationS
        timeoutMs := config.timeoutMs
        output := config.output } := by
  have hthreads : ∀ s : Settings,
      Sets build version s [⟨'t', some (decimal config.threads.toNat)⟩]
        { s with threads := config.threads } :=
    fun s => sets_one (number_decimal _ _ _ _ _)
  have hconnections : ∀ s : Settings,
      Sets build version s [⟨'c', some (decimal config.connections.toNat)⟩]
        { s with connections := config.connections } :=
    fun s => sets_one (number_decimal _ _ _ _ _)
  have hduration : ∀ s : Settings,
      Sets build version s [⟨'d', some (decimal config.durationS.toNat)⟩]
        { s with durationS := config.durationS } :=
    fun s => sets_one (number_decimal _ _ _ _ _)
  have hseconds : ∀ s : Settings,
      Sets build version s [⟨'T', some (decimal timeout.toNat)⟩]
        { s with timeoutMs := config.timeoutMs } := by
    intro s
    rw [htimeout]
    exact sets_one (number_decimal _ _ _ _ _)
  have houtput : ∀ s : Settings,
      Sets build version s [⟨'o', some config.output.name⟩]
        { s with output := config.output } := by
    intro s
    apply sets_one
    simp only [readOption, Option.getD_some, parseOutputMode_name]
  exact (hthreads _).append ((hconnections _).append ((hduration _).append
    ((hseconds _).append (houtput _))))

theorem sets_written (config : Config) {timeout : UInt64}
    (htimeout : config.timeoutMs = saturatingMul timeout 1000) :
    Sets build version .default (config.written timeout) config.settings := by
  have hlatency : ∀ s : Settings, s.latency = false →
      Sets build version s (if config.latency then [⟨'L', none⟩] else [])
        { s with latency := config.latency } := by
    intro s hs
    cases config.latency with
    | true => exact sets_one rfl
    | false =>
      have hsame : { s with latency := false } = s := by rw [← hs]
      rw [hsame]
      exact sets_none s
  have hfirst := (sets_numbers config htimeout).append (hlatency _ rfl)
  have hscript := hfirst.append (sets_optional 's' config.script
    (fun script => { config.settings with
      script := script, engine := none, outputFile := none, headers := [] }) rfl fun _ => rfl)
  have hengine := hscript.append (sets_optional 'e' config.engine
    (fun engine => { config.settings with engine := engine, outputFile := none, headers := [] })
    rfl fun _ => rfl)
  have hfile := hengine.append (sets_optional 'O' config.outputFile
    (fun file => { config.settings with outputFile := file, headers := [] }) rfl fun _ => rfl)
  exact hfile.append (sets_headers _ config.headers)

end Settings

theorem written_ofTable (config : Config) (timeout : UInt64) :
    ∀ option ∈ config.written timeout, Getopt.OfTable options option := by
  have hvalue : ∀ (short : Char) (value : Str),
      (∃ definition ∈ options, definition.short = short ∧ definition.value = true) →
        Getopt.OfTable options ⟨short, some value⟩ := fun _ _ h => h
  have hoptional : ∀ (short : Char) (values : List Str),
      (∃ definition ∈ options, definition.short = short ∧ definition.value = true) →
        ∀ option ∈ values.map (fun value => (⟨short, some value⟩ : ParsedOption)),
          Getopt.OfTable options option := by
    intro short values h option hoption
    obtain ⟨value, -, rfl⟩ := List.mem_map.mp hoption
    exact hvalue short value h
  have hlatency : ∀ option ∈ (if config.latency then [(⟨'L', none⟩ : ParsedOption)] else []),
      Getopt.OfTable options option := by
    intro option hoption
    split at hoption
    · obtain rfl := List.mem_singleton.mp hoption
      exact ⟨⟨'L', "latency".toList, false⟩, by decide, rfl, rfl⟩
    · cases hoption
  unfold Config.written
  simp only [List.forall_mem_append]
  refine ⟨⟨⟨⟨⟨?_, hlatency⟩, ?_⟩, ?_⟩, ?_⟩, ?_⟩
  · simp only [List.forall_mem_cons]
    exact ⟨hvalue 't' _ (by decide), hvalue 'c' _ (by decide), hvalue 'd' _ (by decide),
      hvalue 'T' _ (by decide), hvalue 'o' _ (by decide), List.forall_mem_nil _⟩
  · exact hoptional 's' _ (by decide)
  · exact hoptional 'e' _ (by decide)
  · exact hoptional 'O' _ (by decide)
  · exact hoptional 'H' _ (by decide)

theorem outcome_valid {config : Config} (h : config.Valid) :
    outcome config.settings config.initArgs = .ok (.run config) := by
  obtain ⟨rest, hrest⟩ := h.first
  have hchecks : ¬ (config.settings.threads = 0 ∨ config.settings.durationS = 0) :=
    not_or.mpr ⟨h.someThread, h.someTime⟩
  have henough : ¬ (config.settings.connections = 0 ∨
      config.settings.connections < config.settings.threads) := by
    have hle := UInt64.le_iff_toNat_le.mp h.enough
    have hpos : config.threads.toNat ≠ 0 := by
      intro hzero
      exact h.someThread (UInt64.toNat_inj.mp hzero)
    apply not_or.mpr
    constructor
    · intro hzero
      change config.connections = 0 at hzero
      rw [hzero] at hle
      exact hpos (Nat.le_zero.mp hle)
    · exact UInt64.not_lt.mpr h.enough
  have hlist : ¬ config.settings.listEngines = true := Bool.false_ne_true
  unfold outcome
  rw [hrest, if_neg hlist]
  dsimp only
  rw [if_neg hchecks, h.url]
  change Except.ok (if _ then _ else _) = _
  rw [if_neg henough, ← hrest]
  rfl

theorem outcome_url {settings : Settings} {positional : List Str} {config : Config}
    (h : outcome settings positional = .ok (.run config)) :
    parseUrl config.url = .ok (some config.parts) ∧
      ∃ rest, config.initArgs = config.url :: rest := by
  unfold outcome at h
  split at h
  · cases h
  · split at h
    · cases h
    · next url rest =>
      split at h
      · cases h
      · obtain ⟨parts, hparts⟩ := parseUrl_total url
        rw [hparts] at h
        cases parts with
        | none => cases h
        | some parts =>
          change Except.ok (if _ then _ else _) = _ at h
          split at h
          · cases h
          · cases h
            exact ⟨hparts, rest, rfl⟩

/-- The configurations that command lines ask for are the valid ones. -/
theorem asked_iff_valid (build : Build) (version program : Str) (config : Config) :
    (∃ args out, parse build version program args = .ok (.run config, out)) ↔ config.Valid := by
  constructor
  · intro h
    obtain ⟨args, out, hparse⟩ := h
    rw [parse] at hparse
    cases hargs : Getopt.parse program options args with
    | error message =>
      rw [hargs] at hparse
      cases hparse
    | ok arguments =>
      rw [hargs] at hparse
      dsimp only at hparse
      obtain ⟨⟨read, printed⟩, hread, hparse⟩ := bind_eq_ok.mp hparse
      cases read with
      | error message => cases hparse
      | ok settings =>
        obtain ⟨result, hresult, hparse⟩ := bind_eq_ok.mp hparse
        cases hparse
        have hnumbers := readOptions_numbers hread
        obtain ⟨timeout, -, htimeout⟩ := hnumbers.timeoutMs.stored (a := 2)
        have hchecked := outcome_run hresult htimeout
        obtain ⟨hurl, hfirst⟩ := outcome_url hresult
        constructor
        · exact hchecked.threads ▸ hchecked.someThread
        · exact hchecked.durationS ▸ hchecked.someTime
        · rw [hchecked.threads, hchecked.connections]
          exact hchecked.enough
        · exact ⟨timeout, hchecked.timeoutMs⟩
        · exact hurl
        · exact hfirst
  · intro h
    obtain ⟨timeout, htimeout⟩ := h.seconds
    obtain ⟨args, hargs⟩ := Getopt.exists_parse Getopt.cli_options_wellNamed program
      (written_ofTable config timeout) config.initArgs
    have hsets : readOptions build version .default (config.written timeout ++ []) =
        readOptions build version config.settings [] := sets_written config htimeout []
    rw [List.append_nil] at hsets
    refine ⟨args, [], ?_⟩
    rw [parse, hargs]
    dsimp only
    rw [hsets, readOptions, ok_bind]
    dsimp only
    rw [outcome_valid h]
    rfl

end Cli

end Wrkrs
