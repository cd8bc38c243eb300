import Mathlib.Data.List.Nodup
import Wrkrs.Cli

/-!
# Written options

The ways to write options and positional arguments on a command line, and that parsing
reads each of them back.
-/

namespace Wrkrs

set_option autoImplicit false

open Machine Splitting Text

namespace Getopt

/-- No two options share a name, and no name can be taken for a dash or for a value. -/
structure WellNamed (options : List OptionDef) : Prop where
  shorts : (options.map OptionDef.short).Nodup
  longs : (options.map OptionDef.long).Nodup
  dash : ∀ definition ∈ options, definition.short ≠ '-'
  named : ∀ definition ∈ options, definition.long ≠ []
  equals : ∀ definition ∈ options, '=' ∉ definition.long

/-- A name for a long option: the option's own, or a prefix of no other. -/
structure Denotes (options : List OptionDef) (name : Str) (definition : OptionDef) : Prop where
  mem : definition ∈ options
  named : name ≠ []
  begins : name <+: definition.long
  clear : name = definition.long ∨ ∀ other ∈ options, name <+: other.long → other = definition

/-- The arguments that write some options: flags in a cluster, perhaps with a value option at
their end, or one long option. -/
inductive Written (options : List OptionDef) : List Str → List ParsedOption → Prop where
  | flags {flag : Char} {flags : Str} :
      (∀ other ∈ flag :: flags, OfTable options (valueless other)) →
      Written options ['-' :: flag :: flags] ((flag :: flags).map valueless)
  | attached {flags value : Str} {short : Char} :
      (∀ flag ∈ flags, OfTable options (valueless flag)) →
      OfTable options ⟨short, some value⟩ → value ≠ [] →
      Written options ['-' :: (flags ++ short :: value)]
        (flags.map valueless ++ [⟨short, some value⟩])
  | next {flags value : Str} {short : Char} :
      (∀ flag ∈ flags, OfTable options (valueless flag)) →
      OfTable options ⟨short, some value⟩ →
      Written options ['-' :: (flags ++ [short]), value]
        (flags.map valueless ++ [⟨short, some value⟩])
  | longFlag {name : Str} {definition : OptionDef} :
      Denotes options name definition → definition.value = false →
      Written options ['-' :: '-' :: name] [valueless definition.short]
  | longNext {name value : Str} {definition : OptionDef} :
      Denotes options name definition → definition.value = true →
      Written options ['-' :: '-' :: name, value] [⟨definition.short, some value⟩]
  | longEquals {name value : Str} {definition : OptionDef} :
      Denotes options name definition → definition.value = true →
      Written options ['-' :: '-' :: (name ++ '=' :: value)] [⟨definition.short, some value⟩]

/-- A command line that stands for some options and positional arguments. A positional one is
empty, a bare dash, or begins with no dash; after two dashes anything is positional. -/
inductive Renders (options : List OptionDef) : List Str → Arguments → Prop where
  | done : Renders options [] ⟨[], []⟩
  | dashes {positional : List Str} : Renders options ("--".toList :: positional) ⟨[], positional⟩
  | positional {arg : Str} {args : List Str} {arguments : Arguments} :
      arg = [] ∨ arg = "-".toList ∨ ¬ "-".toList <+: arg → Renders options args arguments →
      Renders options (arg :: args) { arguments with positional := arg :: arguments.positional }
  | written {written args : List Str} {parsed : List ParsedOption} {arguments : Arguments} :
      Written options written parsed → Renders options args arguments →
      Renders options (written ++ args) (Arguments.prepend parsed arguments)

theorem exists_written {options : List OptionDef} {option : ParsedOption}
    (h : OfTable options option) : ∃ written, Written options written [option] := by
  obtain ⟨short, value⟩ := option
  cases value with
  | none => exact ⟨_, .flags (List.forall_mem_singleton.mpr h)⟩
  | some value => exact ⟨_, .next (List.forall_mem_nil _) h⟩

/-- Every sequence of options of the table, with any positional arguments, can be written. -/
theorem exists_renders {options : List OptionDef} {parsed : List ParsedOption}
    (h : ∀ option ∈ parsed, OfTable options option) (positional : List Str) :
    ∃ args, Renders options args ⟨parsed, positional⟩ := by
  induction parsed with
  | nil => exact ⟨_, .dashes⟩
  | cons option parsed ih =>
    obtain ⟨hoption, hrest⟩ := List.forall_mem_cons.mp h
    obtain ⟨written, hwritten⟩ := exists_written hoption
    obtain ⟨args, hargs⟩ := ih hrest
    exact ⟨written ++ args, .written hwritten hargs⟩

def Reading.after (flags : Str) : Reading → Reading
  | .complete parsed => .complete (flags.map valueless ++ parsed)
  | .awaits parsed short missing => .awaits (flags.map valueless ++ parsed) short missing

section Parse
variable {program : Str} {options : List OptionDef}

theorem WellNamed.find_short (named : WellNamed options) {definition : OptionDef}
    (hmem : definition ∈ options) :
    (options.find? fun other => other.short == definition.short) = some definition := by
  cases hfind : options.find? fun other => other.short == definition.short with
  | none =>
    have hnone := List.find?_eq_none.mp hfind definition hmem
    exact absurd (beq_self_eq_true _) hnone
  | some found =>
    have hfound := List.find?_some hfind
    exact congrArg some (List.inj_on_of_nodup_map named.shorts
      (List.mem_of_find?_eq_some hfind) hmem (eq_of_beq hfound))

theorem WellNamed.filter_unique (named : WellNamed options) {definition : OptionDef}
    (hmem : definition ∈ options) {p : OptionDef → Bool}
    (hp : ∀ other ∈ options, p other = true ↔ other = definition) :
    options.filter p = [definition] := by
  have honly : options.filter p = options.filter (· == definition) := by
    apply List.filter_congr
    intro other hother
    rw [Bool.eq_iff_iff, hp other hother, beq_iff_eq]
  rw [honly, List.filter_beq, List.count_eq_one_of_mem (named.shorts.of_map _) hmem]
  rfl

theorem matchLong_denotes (named : WellNamed options) {name : Str} {definition : OptionDef}
    (h : Denotes options name definition) :
    matchLong program name options = .ok definition := by
  unfold matchLong
  cases hfind : options.find? fun other => other.long == name with
  | some exact =>
    have hmem := List.mem_of_find?_eq_some hfind
    have hfound := List.find?_some hfind
    have hexact : exact.long = name := eq_of_beq hfound
    rcases h.clear with hwhole | honly
    · exact congrArg Except.ok
        (List.inj_on_of_nodup_map named.longs hmem h.mem (hexact.trans hwhole))
    · exact congrArg Except.ok (honly exact hmem (hexact ▸ List.prefix_rfl))
  | none =>
    rcases h.clear with hwhole | honly
    · have hnone := List.find?_eq_none.mp hfind definition h.mem
      rw [hwhole] at hnone
      exact absurd (beq_self_eq_true _) hnone
    · have hfilter := named.filter_unique h.mem (p := fun other => name.isPrefixOf other.long) (by
        intro other hother
        rw [List.isPrefixOf_iff_prefix]
        constructor
        · exact honly other hother
        · intro hsame
          exact hsame ▸ h.begins)
      simp only [hfilter]

theorem Denotes.no_equals (named : WellNamed options) {name : Str} {definition : OptionDef}
    (h : Denotes options name definition) : '=' ∉ name := by
  intro hmem
  exact named.equals definition h.mem (h.begins.subset hmem)

theorem readLong_name (named : WellNamed options) {name : Str} {definition : OptionDef}
    (h : Denotes options name definition) :
    readLong program options name =
      if definition.value then .ok (.awaits [] definition.short
        (program ++ ": option '--".toList ++ name ++ "' requires an argument".toList))
      else .ok (.complete [valueless definition.short]) := by
  rw [readLong, cutAt_none (h.no_equals named)]
  simp only [matchLong_denotes named h, ok_bind]
  cases definition.value <;> rfl

theorem readLong_equals (named : WellNamed options) {name : Str} {definition : OptionDef}
    (h : Denotes options name definition) (hvalue : definition.value = true) (value : Str) :
    readLong program options (name ++ '=' :: value) =
      .ok (.complete [⟨definition.short, some value⟩]) := by
  have hcut : cutAt ['='] (name ++ '=' :: value) = some (name, value) :=
    cutAt_first (h.no_equals named)
  rw [readLong, hcut]
  simp only [matchLong_denotes named h, ok_bind, hvalue]
  rfl

theorem readCluster_append (named : WellNamed options) {flags rest : Str}
    (hflags : ∀ flag ∈ flags, OfTable options (valueless flag)) :
    readCluster program options (flags ++ rest) =
      (readCluster program options rest).map (Reading.after flags) := by
  induction flags with
  | nil =>
    rw [List.nil_append]
    match readCluster program options rest with
    | .error _ => rfl
    | .ok (.complete _) => rfl
    | .ok (.awaits _ _ _) => rfl
  | cons flag flags ih =>
    obtain ⟨⟨definition, hmem, hshort, hvalue⟩, hrest⟩ := List.forall_mem_cons.mp hflags
    have hshort : definition.short = flag := hshort
    have hvalue : definition.value = false := hvalue
    have hfind := named.find_short hmem
    rw [hshort] at hfind
    rw [List.cons_append, readCluster, hfind, ih hrest]
    simp only [hvalue, Bool.false_eq_true, if_false]
    match readCluster program options rest with
    | .error _ => rfl
    | .ok (.complete _) => rfl
    | .ok (.awaits _ _ _) => rfl

theorem readCluster_value (named : WellNamed options) {short : Char} {value : Str}
    (h : OfTable options ⟨short, some value⟩) (rest : Str) :
    readCluster program options (short :: rest) =
      if rest = [] then .ok (.awaits [] short
        (program ++ ": option requires an argument -- '".toList ++ [short] ++ "'".toList))
      else .ok (.complete [⟨short, some rest⟩]) := by
  obtain ⟨definition, hmem, hshort, hvalue⟩ := h
  have hshort : definition.short = short := hshort
  have hvalue : definition.value = true := hvalue
  have hfind := named.find_short hmem
  rw [hshort] at hfind
  rw [readCluster, hfind]
  simp only [hvalue, if_true]

theorem OfTable.short_ne (named : WellNamed options) {option : ParsedOption}
    (h : OfTable options option) : option.short ≠ '-' := by
  obtain ⟨definition, hmem, hshort, -⟩ := h
  exact hshort ▸ named.dash definition hmem

theorem cluster_first (named : WellNamed options) {flags value : Str} {short : Char}
    (hflags : ∀ flag ∈ flags, OfTable options (valueless flag))
    (hvalue : OfTable options ⟨short, some value⟩) (rest : Str) :
    ∃ first cluster, flags ++ short :: rest = first :: cluster ∧ first ≠ '-' := by
  cases flags with
  | nil => exact ⟨short, rest, rfl, hvalue.short_ne named⟩
  | cons flag flags =>
    exact ⟨flag, flags ++ short :: rest, rfl,
      (hflags flag List.mem_cons_self).short_ne named⟩

theorem dashes_ne {body : Str} (hbody : body ≠ []) : '-' :: '-' :: body ≠ "--".toList := by
  intro heq
  exact hbody (List.cons.inj (List.cons.inj heq).2).2

theorem cluster_ne {first : Char} (cluster : Str) (hfirst : first ≠ '-') :
    '-' :: first :: cluster ≠ "--".toList := by
  intro heq
  cases heq
  exact hfirst rfl

theorem readArgument_cluster {first : Char} (cluster : Str) (hfirst : first ≠ '-') :
    readArgument program options ('-' :: first :: cluster) =
      some (readCluster program options (first :: cluster)) := by
  unfold readArgument
  split
  · rename_i heq
    cases heq
    exact absurd rfl hfirst
  · rename_i heq
    cases heq
    rfl
  · rename_i hno
    exact absurd rfl (hno first cluster)

theorem readArgument_positional {arg : Str}
    (h : arg = [] ∨ arg = "-".toList ∨ ¬ "-".toList <+: arg) :
    readArgument program options arg = none := by
  obtain rfl | rfl | hno := h
  · rfl
  · rfl
  · unfold readArgument
    split
    · exact absurd (List.prefix_append ['-'] _) hno
    · exact absurd (List.prefix_append ['-'] _) hno
    · rfl

inductive Reads (program : Str) (options : List OptionDef) :
    List Str → List ParsedOption → Prop where
  | whole {arg : Str} {parsed : List ParsedOption} : arg ≠ "--".toList →
      readArgument program options arg = some (.ok (.complete parsed)) →
      Reads program options [arg] parsed
  | pair {arg value missing : Str} {short : Char} {parsed : List ParsedOption} :
      arg ≠ "--".toList →
      readArgument program options arg = some (.ok (.awaits parsed short missing)) →
      Reads program options [arg, value] (parsed ++ [⟨short, some value⟩])

theorem Reads.parse {written args : List Str} {parsed : List ParsedOption}
    (h : Reads program options written parsed) :
    parse program options (written ++ args) =
      (parse program options args).map (Arguments.prepend parsed) := by
  cases h with
  | whole hdashes hread => rw [List.singleton_append, Getopt.parse, if_neg hdashes, hread]
  | pair hdashes hread =>
    rw [List.cons_append, List.singleton_append, Getopt.parse, if_neg hdashes, hread]

theorem Written.reads (named : WellNamed options) {written : List Str}
    {parsed : List ParsedOption} (h : Written options written parsed) :
    Reads program options written parsed := by
  cases h with
  | @flags flag flags hflags =>
    have hfirst : flag ≠ '-' := (hflags flag List.mem_cons_self).short_ne named
    apply Reads.whole (cluster_ne flags hfirst)
    have hread : readCluster program options ((flag :: flags) ++ []) = _ :=
      readCluster_append named hflags
    rw [List.append_nil] at hread
    rw [readArgument_cluster flags hfirst, hread]
    simp [readCluster, Except.map, Reading.after]
  | @attached flags value short hflags hvalue hne =>
    obtain ⟨first, cluster, heq, hfirst⟩ := cluster_first named hflags hvalue value
    rw [heq]
    apply Reads.whole (cluster_ne cluster hfirst)
    rw [readArgument_cluster cluster hfirst, ← heq, readCluster_append named hflags,
      readCluster_value named hvalue, if_neg hne]
    rfl
  | @next flags value short hflags hvalue =>
    obtain ⟨first, cluster, heq, hfirst⟩ := cluster_first named hflags hvalue []
    rw [heq]
    apply Reads.pair (cluster_ne cluster hfirst)
    rw [readArgument_cluster cluster hfirst, ← heq, readCluster_append named hflags,
      readCluster_value named hvalue, if_pos rfl]
    change some (Except.ok (Reading.awaits (flags.map valueless ++ []) short _)) = _
    rw [List.append_nil]
  | longFlag hname hvalue =>
    apply Reads.whole (dashes_ne hname.named)
    rw [readArgument, readLong_name named hname, hvalue]
    rfl
  | @longNext name value definition hname hvalue =>
    change Reads program options _ ([] ++ [⟨definition.short, some value⟩])
    apply Reads.pair (dashes_ne hname.named)
    rw [readArgument, readLong_name named hname, hvalue]
    rfl
  | @longEquals name value definition hname hvalue =>
    have hbody : name ++ '=' :: value ≠ [] := List.append_ne_nil_of_left_ne_nil hname.named _
    apply Reads.whole (dashes_ne hbody)
    rw [readArgument, readLong_equals named hname hvalue]

/-- Whatever way the options and the positional arguments are written, parsing reads back the
options with their values and the positional arguments, in order. -/
theorem parse_renders (named : WellNamed options) {args : List Str} {arguments : Arguments}
    (h : Renders options args arguments) : parse program options args = .ok arguments := by
  induction h with
  | done => rfl
  | dashes => rw [parse, if_pos rfl]
  | @positional arg args arguments hplain _ ih =>
    have hdashes : arg ≠ "--".toList := by
      intro heq
      obtain h | h | h := hplain
      · cases heq.symm.trans h
      · cases heq.symm.trans h
      · exact h (heq ▸ List.prefix_append ['-'] ['-'])
    rw [parse, if_neg hdashes, readArgument_positional hplain, ih]
    rfl
  | written hwritten _ ih =>
    rw [(hwritten.reads named).parse, ih]
    rfl

end Parse

theorem cli_options_wellNamed : WellNamed Cli.options where
  shorts := by decide
  longs := by decide
  dash := by decide
  named := by decide
  equals := by decide

/-- A flag with an attached value in one cluster, a prefix of `threads` whose value looks like
the end of the options, and an empty value after its option. -/
theorem parse_mixed_styles :
    parse "wrkrs".toList Cli.options
        ["-Lt2".toList, "url".toList, "--thr".toList, "--".toList, "-c".toList, [],
          "--timeout=a=b".toList, "-".toList, "--".toList, "-x".toList] =
      .ok ⟨[valueless 'L', ⟨'t', some "2".toList⟩, ⟨'t', some "--".toList⟩, ⟨'c', some []⟩,
          ⟨'T', some "a=b".toList⟩], ["url".toList, "-".toList, "-x".toList]⟩ := by
  have hthreads : Denotes Cli.options "thr".toList ⟨'t', "threads".toList, true⟩ :=
    ⟨by decide, by decide, by decide, .inr (by decide)⟩
  have htimeout : Denotes Cli.options "timeout".toList ⟨'T', "timeout".toList, true⟩ :=
    ⟨by decide, by decide, by decide, .inl rfl⟩
  have hflag : OfTable Cli.options (valueless 'L') :=
    ⟨⟨'L', "latency".toList, false⟩, by simp [Cli.options], rfl, rfl⟩
  have hattached : OfTable Cli.options ⟨'t', some ['2']⟩ :=
    ⟨⟨'t', "threads".toList, true⟩, by simp [Cli.options], rfl, rfl⟩
  have hempty : OfTable Cli.options ⟨'c', some []⟩ :=
    ⟨⟨'c', "connections".toList, true⟩, by simp [Cli.options], rfl, rfl⟩
  have hlast : Renders Cli.options
      ["--timeout=a=b".toList, "-".toList, "--".toList, "-x".toList]
      ⟨[⟨'T', some "a=b".toList⟩], ["-".toList, "-x".toList]⟩ :=
    .written (.longEquals htimeout rfl) (.positional (.inr (.inl rfl)) .dashes)
  have hmiddle : Renders Cli.options
      ["--thr".toList, "--".toList, "-c".toList, [],
        "--timeout=a=b".toList, "-".toList, "--".toList, "-x".toList]
      ⟨[⟨'t', some "--".toList⟩, ⟨'c', some []⟩, ⟨'T', some "a=b".toList⟩],
        ["-".toList, "-x".toList]⟩ :=
    .written (.longNext hthreads rfl)
      (.written (@Written.next _ [] [] 'c' (List.forall_mem_nil _) hempty) hlast)
  exact parse_renders cli_options_wellNamed
    (.written (@Written.attached _ ['L'] ['2'] 't' (List.forall_mem_singleton.mpr hflag)
        hattached (List.cons_ne_nil _ _))
      (.positional (.inr (.inr (by decide))) hmiddle))

end Getopt

end Wrkrs
