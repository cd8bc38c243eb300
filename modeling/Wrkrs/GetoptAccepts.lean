import Wrkrs.GetoptRender

/-!
# Accepted command lines

What parsing accepts is one of the ways to write what it gives.
-/

namespace Wrkrs

set_option autoImplicit false

open Machine Splitting Text

namespace Getopt

/-- What a reading says of its argument: it writes the options, with the next argument as a
value where it awaits one. -/
def Reading.Writes (options : List OptionDef) (arg : Str) : Reading → Prop
  | .complete parsed => Written options [arg] parsed
  | .awaits parsed short _ =>
    ∀ value, Written options [arg, value] (parsed ++ [⟨short, some value⟩])

section Accepts
variable {program : Str} {options : List OptionDef}

/-- An empty name is a prefix of every option, so of more than one. -/
theorem matchLong_nil (named : WellNamed options) (hmany : 2 ≤ options.length)
    (definition : OptionDef) : matchLong program [] options ≠ .ok definition := by
  have hfind : (options.find? fun other => other.long == []) = none := by
    rw [List.find?_eq_none]
    intro other hother hempty
    exact named.named other hother (eq_of_beq hempty)
  have hfilter : (options.filter fun other => List.isPrefixOf [] other.long) = options :=
    List.filter_eq_self.mpr fun _ _ => rfl
  unfold matchLong
  rw [hfind]
  dsimp only
  rw [hfilter]
  match options, hmany with
  | _ :: _ :: _, _ =>
    intro heq
    cases heq

theorem denotes_of_matchLong (named : WellNamed options) (hmany : 2 ≤ options.length)
    {name : Str} {definition : OptionDef} (h : matchLong program name options = .ok definition) :
    Denotes options name definition := by
  have hname : name ≠ [] := by
    rintro rfl
    exact matchLong_nil named hmany definition h
  have hmem := matchLong_mem h
  unfold matchLong at h
  split at h
  · next found hfind =>
    cases h
    have hfound := List.find?_some hfind
    have hexact : definition.long = name := eq_of_beq hfound
    exact ⟨hmem, hname, hexact ▸ List.prefix_rfl, .inl hexact.symm⟩
  · split at h
    · cases h
    · next only hfilter =>
      cases h
      have honly : ∀ other, other ∈ options ∧ name <+: other.long ↔ other = definition := by
        intro other
        rw [← List.mem_singleton, ← hfilter, List.mem_filter, List.isPrefixOf_iff_prefix]
      exact ⟨hmem, hname, ((honly definition).mpr rfl).2,
        .inr fun other hother hprefix => (honly other).mp ⟨hother, hprefix⟩⟩
    · cases h

theorem cutAt_eq_some {α : Type} [DecidableEq α] {x : α} {s before after : List α}
    (h : cutAt [x] s = some (before, after)) : s = before ++ x :: after := by
  induction s generalizing before with
  | nil => cases h
  | cons c cs ih =>
    by_cases heq : c = x
    · subst heq
      have hcut : cutAt [c] ([c] ++ cs) = _ := cutAt_start (List.cons_ne_nil c [])
      cases hcut.symm.trans h
      rfl
    · rw [cutAt_skip (not_prefix_of_ne heq)] at h
      obtain ⟨parts, hparts, hsame⟩ := Option.map_eq_some_iff.mp h
      cases hsame
      rw [ih hparts]
      rfl

theorem readLong_writes (named : WellNamed options) (hmany : 2 ≤ options.length) {body : Str}
    {reading : Reading} (h : readLong program options body = .ok reading) :
    reading.Writes options ('-' :: '-' :: body) := by
  rw [readLong] at h
  cases hcut : cutAt ['='] body with
  | some parts =>
    obtain ⟨name, value⟩ := parts
    obtain rfl := cutAt_eq_some hcut
    rw [hcut] at h
    dsimp only at h
    obtain ⟨definition, hmatch, hvalue⟩ := bind_eq_ok.mp h
    have hdenotes := denotes_of_matchLong named hmany hmatch
    cases hdefinition : definition.value with
    | false =>
      rw [hdefinition] at hvalue
      cases hvalue
    | true =>
      rw [hdefinition] at hvalue
      cases hvalue
      exact .longEquals hdenotes hdefinition
  | none =>
    rw [hcut] at h
    dsimp only at h
    obtain ⟨definition, hmatch, hvalue⟩ := bind_eq_ok.mp h
    have hdenotes := denotes_of_matchLong named hmany hmatch
    cases hdefinition : definition.value with
    | false =>
      rw [hdefinition] at hvalue
      cases hvalue
      exact .longFlag hdenotes hdefinition
    | true =>
      rw [hdefinition] at hvalue
      cases hvalue
      exact fun value => .longNext hdenotes hdefinition

/-- What a cluster is: flags, with a value option at the end whose value is attached or is yet
to come. -/
inductive Cluster (options : List OptionDef) : Str → Reading → Prop where
  | flags {flags : Str} : (∀ flag ∈ flags, OfTable options (valueless flag)) →
      Cluster options flags (.complete (flags.map valueless))
  | attached {flags value : Str} {short : Char} :
      (∀ flag ∈ flags, OfTable options (valueless flag)) →
      OfTable options ⟨short, some value⟩ → value ≠ [] →
      Cluster options (flags ++ short :: value)
        (.complete (flags.map valueless ++ [⟨short, some value⟩]))
  | next {flags missing : Str} {short : Char} :
      (∀ flag ∈ flags, OfTable options (valueless flag)) →
      (∀ value, OfTable options ⟨short, some value⟩) →
      Cluster options (flags ++ [short]) (.awaits (flags.map valueless) short missing)

theorem Cluster.cons {flag : Char} {rest : Str} {reading : Reading}
    (hflag : OfTable options (valueless flag)) (h : Cluster options rest reading) :
    Cluster options (flag :: rest) (reading.prepend (valueless flag)) := by
  cases h with
  | flags hflags => exact .flags (List.forall_mem_cons.mpr ⟨hflag, hflags⟩)
  | attached hflags hvalue hne =>
    exact .attached (List.forall_mem_cons.mpr ⟨hflag, hflags⟩) hvalue hne
  | next hflags hvalue => exact .next (List.forall_mem_cons.mpr ⟨hflag, hflags⟩) hvalue

theorem readCluster_cluster {cluster : Str} {reading : Reading}
    (h : readCluster program options cluster = .ok reading) : Cluster options cluster reading := by
  induction cluster generalizing reading with
  | nil =>
    cases h
    exact .flags (List.forall_mem_nil _)
  | cons flag rest ih =>
    unfold readCluster at h
    split at h
    · cases h
    · next definition hfind =>
      have hmem := List.mem_of_find?_eq_some hfind
      have hfound := List.find?_some hfind
      have hshort : definition.short = flag := eq_of_beq hfound
      split at h
      · next hvalue =>
        have htable : ∀ value, OfTable options ⟨flag, some value⟩ :=
          fun value => ⟨definition, hmem, hshort, hvalue⟩
        split at h
        · next hrest =>
          cases h
          rw [hrest]
          exact @Cluster.next options [] _ flag (List.forall_mem_nil _) htable
        · next hrest =>
          cases h
          exact @Cluster.attached options [] rest flag (List.forall_mem_nil _) (htable rest) hrest
      · next hvalue =>
        obtain ⟨later, hlater, rfl⟩ := map_eq_ok.mp h
        have hplain : definition.value = false := eq_false_of_ne_true hvalue
        exact (ih hlater).cons ⟨definition, hmem, hshort, hplain⟩

theorem Cluster.writes {flag : Char} {rest : Str} {reading : Reading}
    (h : Cluster options (flag :: rest) reading) :
    reading.Writes options ('-' :: flag :: rest) := by
  generalize hcluster : flag :: rest = cluster at h
  cases h with
  | flags hflags =>
    subst hcluster
    exact .flags hflags
  | attached hflags hvalue hne => exact .attached hflags hvalue hne
  | next hflags hvalue => exact fun value => .next hflags (hvalue value)

theorem readArgument_writes (named : WellNamed options) (hmany : 2 ≤ options.length) {arg : Str}
    {reading : Reading} (h : readArgument program options arg = some (.ok reading)) :
    reading.Writes options arg := by
  unfold readArgument at h
  split at h
  · exact readLong_writes named hmany (Option.some.inj h)
  · exact (readCluster_cluster (Option.some.inj h)).writes
  · cases h

theorem readArgument_none {arg : Str} (h : readArgument program options arg = none) :
    arg = [] ∨ arg = "-".toList ∨ ¬ "-".toList <+: arg := by
  cases arg with
  | nil => exact .inl rfl
  | cons c cs =>
    by_cases hdash : c = '-'
    · subst hdash
      cases cs with
      | nil => exact .inr (.inl rfl)
      | cons d ds =>
        by_cases hsecond : d = '-'
        · subst hsecond
          cases h
        · rw [readArgument_cluster ds hsecond] at h
          cases h
    · exact .inr (.inr (not_prefix_of_ne hdash))

/-- Whatever parsing accepts is a way to write what it gives. -/
theorem renders_of_parse (named : WellNamed options) (hmany : 2 ≤ options.length)
    {args : List Str} {arguments : Arguments}
    (h : parse program options args = .ok arguments) : Renders options args arguments := by
  induction args using parse.induct program options generalizing arguments with
  | case1 =>
    cases h
    exact .done
  | case2 args =>
    rw [parse, if_pos rfl] at h
    cases h
    exact .dashes
  | case3 arg args hdashes hread ih =>
    rw [parse, if_neg hdashes, hread] at h
    obtain ⟨later, hlater, rfl⟩ := map_eq_ok.mp h
    exact .positional (readArgument_none hread) (ih hlater)
  | case4 arg args hdashes message hread =>
    rw [parse, if_neg hdashes, hread] at h
    cases h
  | case5 arg args hdashes parsed hread ih =>
    rw [parse, if_neg hdashes, hread] at h
    obtain ⟨later, hlater, rfl⟩ := map_eq_ok.mp h
    exact .written (readArgument_writes named hmany hread) (ih hlater)
  | case6 arg hdashes parsed short missing hread =>
    rw [parse, if_neg hdashes, hread] at h
    cases h
  | case7 arg hdashes parsed short missing hread value args ih =>
    rw [parse, if_neg hdashes, hread] at h
    obtain ⟨later, hlater, rfl⟩ := map_eq_ok.mp h
    exact .written (readArgument_writes named hmany hread value) (ih hlater)

end Accepts

/-- A cluster whose value looks like the end of the options, and a name that is a prefix. -/
theorem renders_accepted : Renders Cli.options
    ["-Lt--".toList, "--thr".toList, "--".toList, "url".toList, "-c".toList, []]
    ⟨[valueless 'L', ⟨'t', some "--".toList⟩, ⟨'t', some "--".toList⟩, ⟨'c', some []⟩],
      ["url".toList]⟩ :=
  renders_of_parse cli_options_wellNamed (by decide)
    (rfl : parse "wrkrs".toList Cli.options
      ["-Lt--".toList, "--thr".toList, "--".toList, "url".toList, "-c".toList, []] = .ok
        ⟨[valueless 'L', ⟨'t', some "--".toList⟩, ⟨'t', some "--".toList⟩, ⟨'c', some []⟩],
          ["url".toList]⟩)

end Getopt

end Wrkrs
