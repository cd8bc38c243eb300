import Wrkrs.Library.Machine
import Wrkrs.Library.Splitting
import Wrkrs.Library.Text

/-!
# Options of a command line

Short clusters, long options with unambiguous prefixes, attached and separate values,
and the messages of the first failure.
-/

namespace Wrkrs

set_option autoImplicit false

open Machine Splitting Text

structure OptionDef where
  short : Char
  long : Str
  value : Bool
  deriving DecidableEq, Repr

structure ParsedOption where
  short : Char
  value : Option Str
  deriving DecidableEq, Repr

/-- Options in their order, and the positional arguments. -/
structure Arguments where
  options : List ParsedOption
  positional : List Str
  deriving DecidableEq, Repr

namespace Getopt

def valueless (short : Char) : ParsedOption := ⟨short, none⟩

def joinWith (separator : Str) : List Str → Str
  | [] => []
  | [piece] => piece
  | piece :: rest => piece ++ separator ++ joinWith separator rest

/-- A long name, exactly or as an unambiguous prefix. -/
def matchLong (program name : Str) (options : List OptionDef) : Except Str OptionDef :=
  match options.find? fun definition => definition.long == name with
  | some exact => .ok exact
  | none =>
    match options.filter fun definition => name.isPrefixOf definition.long with
    | [] => .error (program ++ ": unrecognized option '--".toList ++ name ++ "'".toList)
    | [definition] => .ok definition
    | many =>
      let possibilities := joinWith " ".toList (many.map fun definition =>
        "'--".toList ++ definition.long ++ "'".toList)
      .error (program ++ ": option '--".toList ++ name ++
        "' is ambiguous; possibilities: ".toList ++ possibilities)

/-- What one argument gives: its options, the last of which may take the next argument as
its value, or else fail with a message. -/
inductive Reading where
  | complete (parsed : List ParsedOption)
  | awaits (parsed : List ParsedOption) (short : Char) (missing : Str)
  deriving DecidableEq, Repr

def Reading.prepend (option : ParsedOption) : Reading → Reading
  | .complete parsed => .complete (option :: parsed)
  | .awaits parsed short missing => .awaits (option :: parsed) short missing

def readLong (program : Str) (options : List OptionDef) (body : Str) : Except Str Reading := do
  let (name, attached) := match cutAt ['='] body with
    | some (name, value) => (name, some value)
    | none => (body, none)
  let definition ← matchLong program name options
  match definition.value, attached with
  | false, some _ =>
    .error (program ++ ": option '--".toList ++ name ++ "' doesn't allow an argument".toList)
  | false, none => return .complete [valueless definition.short]
  | true, some value => return .complete [⟨definition.short, some value⟩]
  | true, none =>
    let missing := program ++ ": option '--".toList ++ name ++ "' requires an argument".toList
    return .awaits [] definition.short missing

/-- A short cluster; a value may ride attached after its option. -/
def readCluster (program : Str) (options : List OptionDef) : Str → Except Str Reading
  | [] => .ok (.complete [])
  | flag :: rest =>
    match options.find? fun definition => definition.short == flag with
    | none => .error (program ++ ": invalid option -- '".toList ++ [flag] ++ "'".toList)
    | some definition =>
      if definition.value then
        if rest = [] then .ok (.awaits [] flag
          (program ++ ": option requires an argument -- '".toList ++ [flag] ++ "'".toList))
        else .ok (.complete [⟨flag, some rest⟩])
      else (readCluster program options rest).map (·.prepend (valueless flag))

/-- No reading for a positional argument; a bare dash is one. -/
def readArgument (program : Str) (options : List OptionDef) : Str → Option (Except Str Reading)
  | '-' :: '-' :: body => some (readLong program options body)
  | '-' :: flag :: cluster => some (readCluster program options (flag :: cluster))
  | _ => none

def Arguments.prepend (parsed : List ParsedOption) (arguments : Arguments) : Arguments :=
  { arguments with options := parsed ++ arguments.options }

def parse (program : Str) (options : List OptionDef) : List Str → Except Str Arguments
  | [] => .ok ⟨[], []⟩
  | arg :: args =>
    if arg = "--".toList then .ok ⟨[], args⟩
    else match readArgument program options arg with
      | none => (parse program options args).map fun arguments =>
          { arguments with positional := arg :: arguments.positional }
      | some (.error message) => .error message
      | some (.ok (.complete parsed)) =>
        (parse program options args).map (Arguments.prepend parsed)
      | some (.ok (.awaits parsed short missing)) =>
        match args with
        | [] => .error missing
        | value :: args =>
          (parse program options args).map (Arguments.prepend (parsed ++ [⟨short, some value⟩]))

/-- The option is in the table, and has a value exactly when the table says so. -/
def OfTable (options : List OptionDef) (option : ParsedOption) : Prop :=
  ∃ definition ∈ options, definition.short = option.short ∧
    definition.value = option.value.isSome

def Reading.OfTable (options : List OptionDef) : Reading → Prop
  | .complete parsed => ∀ option ∈ parsed, Getopt.OfTable options option
  | .awaits parsed short _ => (∀ option ∈ parsed, Getopt.OfTable options option) ∧
      ∀ value, Getopt.OfTable options ⟨short, some value⟩

section Table
variable {program : Str} {options : List OptionDef}

theorem matchLong_mem {name : Str} {definition : OptionDef}
    (h : matchLong program name options = .ok definition) : definition ∈ options := by
  unfold matchLong at h
  split at h
  · rename_i found hfind
    cases h
    exact List.mem_of_find?_eq_some hfind
  · split at h
    · cases h
    · rename_i hfilter
      cases h
      have hmem : definition ∈ options.filter fun other => name.isPrefixOf other.long := by
        rw [hfilter]
        exact List.mem_singleton_self definition
      exact List.mem_of_mem_filter hmem
    · cases h

theorem readLong_ofTable {body : Str} {reading : Reading}
    (h : readLong program options body = .ok reading) : reading.OfTable options := by
  rw [readLong] at h
  generalize (match cutAt ['='] body with
    | some (name, value) => (name, some value)
    | none => (body, none)) = parts at h
  obtain ⟨name, attached⟩ := parts
  dsimp only at h
  cases hmatch : matchLong program name options with
  | error message =>
    rw [hmatch] at h
    cases h
  | ok definition =>
    have hmem := matchLong_mem hmatch
    rw [hmatch] at h
    change (match definition.value, attached with
      | false, some _ => _
      | false, none => _
      | true, some value => _
      | true, none => _) = Except.ok reading at h
    split at h
    · cases h
    all_goals
      rename_i hvalue
      cases h
    · rintro option (_ | ⟨_, hnone⟩)
      · exact ⟨definition, hmem, rfl, hvalue⟩
      · cases hnone
    · rintro option (_ | ⟨_, hnone⟩)
      · exact ⟨definition, hmem, rfl, hvalue⟩
      · cases hnone
    · exact ⟨nofun, fun value => ⟨definition, hmem, rfl, hvalue⟩⟩

theorem Reading.prepend_ofTable {option : ParsedOption} {reading : Reading}
    (hoption : Getopt.OfTable options option) (h : reading.OfTable options) :
    (reading.prepend option).OfTable options := by
  cases reading with
  | complete parsed => exact List.forall_mem_cons.mpr ⟨hoption, h⟩
  | awaits parsed short missing => exact ⟨List.forall_mem_cons.mpr ⟨hoption, h.1⟩, h.2⟩

theorem readCluster_ofTable {cluster : Str} {reading : Reading}
    (h : readCluster program options cluster = .ok reading) : reading.OfTable options := by
  induction cluster generalizing reading with
  | nil =>
    cases h
    exact nofun
  | cons flag rest ih =>
    unfold readCluster at h
    split at h
    · cases h
    · rename_i definition hfind
      have hmem := List.mem_of_find?_eq_some hfind
      have hfound := List.find?_some hfind
      have hshort : definition.short = flag := eq_of_beq hfound
      split at h
      · rename_i hvalue
        split at h
        · cases h
          exact ⟨nofun, fun value => ⟨definition, hmem, hshort, hvalue⟩⟩
        · cases h
          rintro option (_ | ⟨_, hnone⟩)
          · exact ⟨definition, hmem, hshort, hvalue⟩
          · cases hnone
      · rename_i hvalue
        obtain ⟨later, hlater, rfl⟩ := map_eq_ok.mp h
        have hplain : definition.value = false := eq_false_of_ne_true hvalue
        exact Reading.prepend_ofTable ⟨definition, hmem, hshort, hplain⟩ (ih hlater)

theorem readArgument_ofTable {arg : Str} {reading : Reading}
    (h : readArgument program options arg = some (.ok reading)) : reading.OfTable options := by
  unfold readArgument at h
  split at h
  · exact readLong_ofTable (Option.some.inj h)
  · exact readCluster_ofTable (Option.some.inj h)
  · cases h

/-- Every parsed option is one of the table. -/
theorem parse_ofTable {args : List Str} {arguments : Arguments}
    (h : parse program options args = .ok arguments) :
    ∀ option ∈ arguments.options, OfTable options option := by
  induction args using parse.induct program options generalizing arguments with
  | case1 =>
    cases h
    exact nofun
  | case2 args =>
    rw [parse, if_pos rfl] at h
    cases h
    exact nofun
  | case3 arg args hdashes hread ih =>
    rw [parse, if_neg hdashes, hread] at h
    obtain ⟨later, hlater, hadded⟩ := map_eq_ok.mp h
    have hsame : arguments.options = later.options := (congrArg Arguments.options hadded).symm
    rw [hsame]
    exact ih hlater
  | case4 arg args hdashes message hread =>
    rw [parse, if_neg hdashes, hread] at h
    cases h
  | case5 arg args hdashes parsed hread ih =>
    rw [parse, if_neg hdashes, hread] at h
    obtain ⟨later, hlater, rfl⟩ := map_eq_ok.mp h
    exact List.forall_mem_append.mpr ⟨readArgument_ofTable hread, ih hlater⟩
  | case6 arg hdashes parsed short missing hread =>
    rw [parse, if_neg hdashes, hread] at h
    cases h
  | case7 arg hdashes parsed short missing hread value args ih =>
    rw [parse, if_neg hdashes, hread] at h
    obtain ⟨later, hlater, rfl⟩ := map_eq_ok.mp h
    obtain ⟨hparsed, hvalue⟩ := readArgument_ofTable hread
    refine List.forall_mem_append.mpr ⟨List.forall_mem_append.mpr ⟨hparsed, ?_⟩, ih hlater⟩
    intro option hoption
    rw [List.mem_singleton.mp hoption]
    exact hvalue value

end Table

end Getopt

end Wrkrs
