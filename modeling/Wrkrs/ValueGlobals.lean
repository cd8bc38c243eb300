import Wrkrs.ValueCrossings

/-!
# Globals of a thread

Whatever values are set as globals of a Lua state, in whatever order, each name is read back as
what arrived of the last value that could be taken over.
-/

namespace Wrkrs

set_option autoImplicit false

open Text Unfolding Arenas Tables

namespace Transfer

variable {F : Type}

def nameKey (name : Str) : LuaValue F Nat := .string (encode name)

section Globals
variable [DecidableEq F] (numbers : LuaNumbers F) (globals : Nat)

/-- The value of a global, nil for none. Access is raw: a metatable that a script sets on the table
of globals is left out. -/
def LuaState.global (state : LuaState F) (name : Str) : LuaValue F Nat :=
  (state.tables[globals]?.bind fun table => table.get (nameKey name)).getD .nil

/-- A global set to a value, by raw access. What was made before a failure is out of reach. -/
def LuaState.setGlobal (state : LuaState F) (name : Str) (value : Value F) :
    Except EngineError Unit × LuaState F :=
  match (do
    let (made, later) ← valueToLua numbers value state
    later.rawSet numbers globals (nameKey name) made) with
  | .ok later => (.ok (), later)
  | .error error => (.error error, state)

def LuaState.setGlobals (state : LuaState F) (sets : List (Str × Value F)) : LuaState F :=
  sets.foldl (fun state set => (state.setGlobal numbers globals set.1 set.2).2) state

/-- The last value set under a name, among those that can be taken over. -/
def lastCarried (name : Str) : List (Str × Value F) → Option (Value F)
  | [] => none
  | set :: sets => (lastCarried name sets).or
      (if set.1 = name ∧ carriable numbers set.2 then some set.2 else none)

end Globals

section Setting
variable [DecidableEq F] {numbers : LuaNumbers F} {globals : Nat} {state later : LuaState F}

omit [DecidableEq F] in
theorem nameKey_inj {name other : Str} (h : (nameKey name : LuaValue F Nat) = nameKey other) :
    name = other := encode_inj (LuaValue.string.inj h)

/-- What one set leaves: the values of the others, and the new one when it can be taken over. -/
structure SetLeaves (numbers : LuaNumbers F) (globals : Nat) (name : Str) (value : Value F)
    (state later : LuaState F) : Prop where
  here : globals < later.tables.length
  carries : ∀ a v, Carries (state.above (globals + 1)) a v → Carries (later.above (globals + 1)) a v
  others : ∀ other, other ≠ name ∨ carriable numbers value = false →
    later.global globals other = state.global globals other
  own : carriable numbers value = true →
    Carries (later.above (globals + 1)) (later.global globals name)
      (asEntry numbers (arrived numbers value))

theorem global_modify (state : LuaState F) (hhere : globals < state.tables.length)
    (name sought : Str) (entry : LuaValue F Nat) :
    (⟨state.tables.modify globals fun table => table.set (nameKey name)
        (if entry = .nil then none else some (numbers.kept entry))⟩ : LuaState F).global globals
      sought = if name = sought then numbers.kept entry else state.global globals sought := by
  have htable : state.tables[globals]? = some state.tables[globals] :=
    List.getElem?_eq_getElem hhere
  have hiff : (nameKey name : LuaValue F Nat) = nameKey sought ↔ name = sought :=
    ⟨nameKey_inj, fun h => congrArg nameKey h⟩
  simp only [LuaState.global, node_update, htable, Option.map_some, Option.bind_some,
    Table.get_set, hiff]
  by_cases hname : name = sought
  · rw [if_pos hname, if_pos hname]
    by_cases hnil : entry = .nil
    · rw [if_pos hnil, hnil]
      rfl
    · rw [if_neg hnil]
      rfl
  · rw [if_neg hname, if_neg hname]

theorem setGlobal_leaves (numbers : LuaNumbers F) (hhere : globals < state.tables.length)
    (name : Str) (value : Value F) :
    SetLeaves numbers globals name value state (state.setGlobal numbers globals name value).2 := by
  have hsucceeds := valueToLua_succeeds numbers value state
  cases hmade : valueToLua numbers value state with
  | error error =>
    rw [hmade] at hsucceeds
    have hsame : (state.setGlobal numbers globals name value).2 = state := by
      rw [LuaState.setGlobal, hmade]
      rfl
    rw [hsame]
    refine ⟨hhere, fun _ _ h => h, fun _ _ => rfl, ?_⟩
    exact fun hcarriable => absurd hcarriable hsucceeds.1
  | ok made =>
    rw [hmade] at hsucceeds
    obtain ⟨hcarriable, hmade'⟩ := hsucceeds
    have hlater : (state.setGlobal numbers globals name value).2 =
        ⟨made.2.tables.modify globals fun table => table.set (nameKey name)
          (if made.1 = .nil then none else some (numbers.kept made.1))⟩ := by
      rw [LuaState.setGlobal, hmade]
      rfl
    have habove : ∀ f, LuaState.above (globals + 1)
        (⟨made.2.tables.modify globals f⟩ : LuaState F) = made.2.above (globals + 1) := by
      intro f
      funext x
      exact above_update (Nat.lt_succ_self globals)
    have hgrown := hhere.trans_le hmade'.grows.length_le
    rw [hlater]
    constructor
    · exact hgrown.trans_eq (List.length_modify _ _ _).symm
    · intro a v hcarries
      rw [habove]
      exact carries_grows hmade'.grows hcarries
    · intro sought hother
      have hne : name ≠ sought := by
        rcases hother with hne | hrefused
        · exact hne.symm
        · exact absurd hcarriable (ne_true_of_eq_false hrefused)
      rw [global_modify made.2 hgrown, if_neg hne, LuaState.global, LuaState.global,
        hmade'.grows.kept globals hhere]
    · intro _
      rw [global_modify made.2 hgrown, if_pos rfl, habove]
      apply Carries.kept
      exact hmade'.carries.mono fun _ _ hnode => above_le_of_le hhere hnode

theorem setGlobals_cons (set : Str × Value F) (sets : List (Str × Value F)) :
    state.setGlobals numbers globals (set :: sets) =
      (state.setGlobal numbers globals set.1 set.2).2.setGlobals numbers globals sets := rfl

/-- What all sets leave. -/
theorem setGlobals_leaves (numbers : LuaNumbers F) (hhere : globals < state.tables.length)
    (sets : List (Str × Value F)) (name : Str) :
    (∀ a v, Carries (state.above (globals + 1)) a v →
      Carries ((state.setGlobals numbers globals sets).above (globals + 1)) a v) ∧
    match lastCarried numbers name sets with
    | some value => Carries ((state.setGlobals numbers globals sets).above (globals + 1))
        ((state.setGlobals numbers globals sets).global globals name)
        (asEntry numbers (arrived numbers value))
    | none => (state.setGlobals numbers globals sets).global globals name =
        state.global globals name := by
  induction sets generalizing state with
  | nil => exact ⟨fun _ _ h => h, rfl⟩
  | cons set sets ih =>
    have hset := setGlobal_leaves numbers hhere set.1 set.2
    obtain ⟨hcarries, hlast⟩ := ih hset.here
    rw [setGlobals_cons, lastCarried]
    refine ⟨fun a v h => hcarries a v (hset.carries a v h), ?_⟩
    cases hlater : lastCarried numbers name sets with
    | some value =>
      rw [hlater] at hlast
      exact hlast
    | none =>
      rw [hlater] at hlast
      by_cases hown : set.1 = name ∧ carriable numbers set.2 = true
      · rw [if_pos hown]
        simp only [Option.none_or]
        rw [hlast, ← hown.1]
        exact hcarries _ _ (hset.own hown.2)
      · rw [if_neg hown]
        simp only [Option.none_or]
        rw [hlast]
        apply hset.others
        by_cases hname : set.1 = name
        · exact .inr (Bool.eq_false_iff.mpr fun h => hown ⟨hname, h⟩)
        · exact .inl (Ne.symm hname)

end Setting

/-- Whatever is set, a global is read back as what arrived of the last value set under its name
that could be taken over, and is the value that it was when there is none. -/
theorem globals_read [DecidableEq F] (numbers : LuaNumbers F) (globals : Nat)
    (state : LuaState F) (hhere : globals < state.tables.length) (traversal : Traversal F)
    (sets : List (Str × Value F)) (name : Str) :
    match lastCarried numbers name sets with
    | some value => ∃ depth read,
        (state.setGlobals numbers globals sets).read traversal depth
          ((state.setGlobals numbers globals sets).global globals name) = some (.ok read) ∧
        Same (asEntry numbers (arrived numbers value)) read
    | none => (state.setGlobals numbers globals sets).global globals name =
        state.global globals name := by
  obtain ⟨-, hlast⟩ := setGlobals_leaves numbers hhere sets name
  cases hvalue : lastCarried numbers name sets with
  | none =>
    rw [hvalue] at hlast
    exact hlast
  | some value =>
    rw [hvalue] at hlast
    exact hlast.reads traversal

def sampleSets : List (Str × Value Int) :=
  [("id".toList, .table [(.float 2, .float 3)]), ("gone".toList, .null),
    ("id".toList, .table [(.null, .int 1)])]

theorem globals_read_sample : ∃ depth read,
    ((⟨[.empty]⟩ : LuaState Int).setGlobals halves 0 sampleSets).read inOrder depth
      (((⟨[.empty]⟩ : LuaState Int).setGlobals halves 0 sampleSets).global 0 "id".toList) =
        some (.ok read) ∧ Same (.table [(.int 1, .float 3)]) read :=
  globals_read halves 0 ⟨[.empty]⟩ (by decide) inOrder sampleSets "id".toList

end Transfer

end Wrkrs
