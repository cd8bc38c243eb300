import Wrkrs.Library.Arenas
import Wrkrs.Library.Tables
import Wrkrs.ValueTrees

/-!
# Values in a Lua state

The conversion of values of the contract into Lua values. It creates a table for every table
of the value and sets the entries in order: a later entry replaces an earlier one with its
key, nil removes one, and a key that is nil or not a number is refused.
-/

namespace Wrkrs

set_option autoImplicit false

open Text Unfolding Arenas Tables

namespace Transfer

variable {F ι : Type}

deriving instance DecidableEq for LuaValue

inductive Numeral (F : Type) where
  | integer (value : Int64)
  | float (value : F)

def Numeral.lua : Numeral F → LuaValue F ι
  | .integer value => .integer value
  | .float value => .number value

def Numeral.value : Numeral F → Value F
  | .integer value => .int value
  | .float value => .float value

/-- How the tables of a Lua state keep numbers. Before Lua 5.3 every number is a float, later
there are two kinds and a float key without a fraction turns into an integer. -/
structure LuaNumbers (F : Type) where
  stored : Numeral F → Numeral F
  /-- None for a float that is not a number. -/
  key : Numeral F → Option (Numeral F)
  nilIndex : Str
  nanIndex : Str
  stored_stored : ∀ n, stored (stored n) = stored n
  key_key : ∀ n m, key n = some m → key m = some m

/-- The tables that exist, each with every key once. -/
structure LuaState (F : Type) where
  tables : List (Table (LuaValue F Nat) (LuaValue F Nat))

def LuaState.createTable (state : LuaState F) : Nat × LuaState F :=
  (state.tables.length, ⟨state.tables ++ [.empty]⟩)

section Setting
variable (numbers : LuaNumbers F)

/-- What a table gives back for an entry. -/
def LuaNumbers.kept : LuaValue F ι → LuaValue F ι
  | .integer value => (numbers.stored (.integer value)).lua
  | .number value => (numbers.stored (.float value)).lua
  | value => value

def LuaNumbers.index (n : Numeral F) : Except Str (LuaValue F ι) :=
  match numbers.key n with
  | some n => .ok n.lua
  | none => .error numbers.nanIndex

/-- The key under which a table keeps an entry. -/
def LuaNumbers.keyOf : LuaValue F ι → Except Str (LuaValue F ι)
  | .nil => .error numbers.nilIndex
  | .integer value => numbers.index (.integer value)
  | .number value => numbers.index (.float value)
  | value => .ok value

variable [DecidableEq F]

def LuaState.rawSet (state : LuaState F) (id : Nat) (key entry : LuaValue F Nat) :
    Except EngineError (LuaState F) :=
  match numbers.keyOf key with
  | .error message => .error (.runtime message)
  | .ok key =>
    let entry := if entry = .nil then none else some (numbers.kept entry)
    .ok ⟨state.tables.modify id fun table => table.set key entry⟩

mutual

def valueToLua : Value F → LuaState F → Except EngineError (LuaValue F Nat × LuaState F)
  | .null, state => .ok (.nil, state)
  | .bool value, state => .ok (.boolean value, state)
  | .int value, state => .ok (.integer value, state)
  | .float value, state => .ok (.number value, state)
  | .str text, state => .ok (.string (encode text), state)
  | .table entries, state => do
    let (id, state) := state.createTable
    let state ← setEntries id entries state
    return (.table id, state)

def setEntries (id : Nat) :
    List (Value F × Value F) → LuaState F → Except EngineError (LuaState F)
  | [], state => .ok state
  | (key, entry) :: entries, state => do
    let (key, state) ← valueToLua key state
    let (entry, state) ← valueToLua entry state
    let state ← state.rawSet numbers id key entry
    setEntries id entries state

end

end Setting

def placed (size x : Nat) : Option (Fin size) :=
  if h : x < size then some ⟨x, h⟩ else none

def renameLua {κ : Type} (place : ι → Option κ) : LuaValue F ι → LuaValue F κ
  | .nil => .nil
  | .boolean value => .boolean value
  | .lightUserData => .lightUserData
  | .integer value => .integer value
  | .number value => .number value
  | .string value => .string value
  | .table id =>
    match place id with
    | some id => .table id
    | none => .nil
  | .function => .function
  | .thread => .thread
  | .userData => .userData
  | .error => .error
  | .other => .other

/-- An order in which each table is gone through. -/
structure Traversal (F : Type) where
  order : Nat → List (LuaValue F Nat × LuaValue F Nat) → List (LuaValue F Nat × LuaValue F Nat)
  perm : ∀ id pairs, (order id pairs).Perm pairs

def LuaState.heap (state : LuaState F) (traversal : Traversal F) : LuaHeap F where
  size := state.tables.length
  pairs id := (traversal.order id.val (state.tables.get id).pairs).map fun p =>
    .ok (renameLua (placed state.tables.length) p.1, renameLua (placed state.tables.length) p.2)

def LuaState.read (state : LuaState F) (traversal : Traversal F) (depth : Nat)
    (value : LuaValue F Nat) : Bounded EngineError (Value F) :=
  luaToValue (state.heap traversal) depth (renameLua (placed (state.heap traversal).size) value)

/-- The same key of a table. Two tables are never one key. -/
def sameKey [DecidableEq F] : Value F → Value F → Bool
  | .null, .null => true
  | .bool a, .bool b => a == b
  | .int a, .int b => a == b
  | .float a, .float b => a == b
  | .str a, .str b => a == b
  | _, _ => false

def isNull : Value F → Bool
  | .null => true
  | _ => false

/-- The entries that no later entry replaces and that are not nil. -/
def settled [DecidableEq F] : List (Value F × Value F) → List (Value F × Value F)
  | [] => []
  | e :: entries =>
    if entries.any (fun later => sameKey e.1 later.1) || isNull e.2 then settled entries
    else e :: settled entries

section Arriving
variable (numbers : LuaNumbers F)

def asEntry : Value F → Value F
  | .int value => (numbers.stored (.integer value)).value
  | .float value => (numbers.stored (.float value)).value
  | value => value

def asKey : Value F → Value F
  | .int value => ((numbers.key (.integer value)).getD (.integer value)).value
  | .float value => ((numbers.key (.float value)).getD (.float value)).value
  | value => value

def accepted : Value F → Bool
  | .null => false
  | .int value => (numbers.key (.integer value)).isSome
  | .float value => (numbers.key (.float value)).isSome
  | _ => true

mutual

/-- Every key of a table is one that a table takes, at every depth. -/
def carriable : Value F → Bool
  | .table entries => carriableEntries entries
  | _ => true

def carriableEntries : List (Value F × Value F) → Bool
  | [] => true
  | (key, entry) :: entries =>
    carriable key && carriable entry && accepted numbers key && carriableEntries entries

end

variable [DecidableEq F]

mutual

/-- The value as a Lua state has it. -/
def arrived : Value F → Value F
  | .table entries => .table (settled (arrivedEntries entries))
  | value => value

def arrivedEntries : List (Value F × Value F) → List (Value F × Value F)
  | [] => []
  | (key, entry) :: entries =>
    (asKey numbers (arrived key), asEntry numbers (arrived entry)) :: arrivedEntries entries

end

end Arriving

def scalarLua : Value F → LuaValue F ι
  | .null => .nil
  | .bool value => .boolean value
  | .int value => .integer value
  | .float value => .number value
  | .str text => .string (encode text)
  | .table _ => .nil

inductive Shaped : LuaValue F ι → Value F → Prop where
  | scalar (value : Value F) (h : ∀ entries, value ≠ .table entries) :
      Shaped (scalarLua value) value
  | table (id : ι) (entries : List (Value F × Value F)) : Shaped (.table id) (.table entries)

@[simp] theorem luaCell_scalar (value : Value F) (h : ∀ entries, value ≠ .table entries) :
    luaCell (scalarLua value : LuaValue F ι) = .leaf value := by
  cases value with
  | table entries => exact absurd rfl (h entries)
  | str text => simp only [scalarLua, luaCell, fromUtf8Lossy_encode]
  | _ => rfl

theorem encode_inj {s t : Str} (h : encode s = encode t) : s = t := by
  rw [← fromUtf8Lossy_encode s, h, fromUtf8Lossy_encode]

section Keys
variable [DecidableEq F] {a b : LuaValue F ι} {k l : Value F}

/-- Keys that are not both tables are one key exactly when they are the same values. -/
theorem sameKey_iff (ha : Shaped a k) (hb : Shaped b l)
    (hfresh : ∀ x y, a = .table x → b = .table y → x ≠ y) : sameKey k l = true ↔ a = b := by
  cases ha with
  | scalar k hk =>
    cases hb with
    | scalar l hl =>
      have hstr : ∀ s t : Str, encode s = encode t ↔ s = t :=
        fun s t => ⟨encode_inj, fun h => congrArg encode h⟩
      cases k <;> cases l <;> simp_all [sameKey, scalarLua]
    | table y entries =>
      cases k <;> simp_all [sameKey, scalarLua]
  | table x entries =>
    cases hb with
    | scalar l hl => cases l <;> simp_all [sameKey, scalarLua]
    | table y others => simp_all [sameKey]

end Keys

def luaView (table : Table (LuaValue F Nat) (LuaValue F Nat)) :
    List (ValueCell F Nat × ValueCell F Nat) :=
  table.pairs.map fun p => (luaCell p.1, luaCell p.2)

/-- What the tables from a position on stand for. -/
def LuaState.above (base : Nat) (state : LuaState F) :
    Nat → Option (List (ValueCell F Nat × ValueCell F Nat)) :=
  Arenas.above base luaView state.tables

/-- A Lua value stands for a value, over some tables. -/
structure Carries (nodes : Nat → Option (List (ValueCell F Nat × ValueCell F Nat)))
    (a : LuaValue F Nat) (value : Value F) : Prop where
  shaped : Shaped a value
  holds : Holds nodes (luaCell a) value

section Carries
variable {numbers : LuaNumbers F} {a : LuaValue F Nat} {value : Value F}
  {nodes more : Nat → Option (List (ValueCell F Nat × ValueCell F Nat))}

theorem carries_scalar (value : Value F) (h : ∀ entries, value ≠ .table entries) :
    Carries nodes (scalarLua value) value := by
  constructor
  · exact .scalar value h
  · rw [luaCell_scalar value h]
    exact .leaf value

theorem carries_numeral (n : Numeral F) : Carries nodes n.lua n.value := by
  cases n with
  | integer value => exact carries_scalar (.int value) (fun _ h => nomatch h)
  | float value => exact carries_scalar (.float value) (fun _ h => nomatch h)

theorem Carries.mono (hmore : ∀ x pairs, nodes x = some pairs → more x = some pairs)
    (h : Carries nodes a value) : Carries more a value :=
  ⟨h.shaped, h.holds.mono hmore⟩

theorem Carries.kept (h : Carries nodes a value) :
    Carries nodes (numbers.kept a) (asEntry numbers value) := by
  cases h.shaped with
  | table id entries => exact h
  | scalar value hscalar =>
    cases value with
    | int value => exact carries_numeral _
    | float value => exact carries_numeral _
    | table entries => exact absurd rfl (hscalar entries)
    | _ => exact h

/-- A key that a table takes stands for the key it is read as, and a table stays itself. -/
theorem Carries.keyOf (h : Carries nodes a value) (haccepted : accepted numbers value = true) :
    ∃ key, numbers.keyOf a = .ok key ∧ Carries nodes key (asKey numbers value) ∧
      ∀ x, key = .table x → a = .table x := by
  have hindex : ∀ n : Numeral F, (numbers.key n).isSome = true →
      ∃ m, numbers.key n = some m ∧ numbers.index n = .ok (m.lua : LuaValue F Nat) := by
    intro n hn
    obtain ⟨m, hm⟩ := Option.isSome_iff_exists.mp hn
    refine ⟨m, hm, ?_⟩
    simp only [LuaNumbers.index, hm]
  have hlua : ∀ (m : Numeral F) (x : Nat), (m.lua : LuaValue F Nat) ≠ .table x := by
    intro m x hm
    cases m <;> cases hm
  cases h.shaped with
  | table id entries => exact ⟨.table id, rfl, h, fun x hx => hx⟩
  | scalar value hscalar =>
    cases value with
    | null => cases haccepted
    | int value =>
      obtain ⟨m, hm, hok⟩ := hindex _ haccepted
      refine ⟨m.lua, hok, ?_, fun x hx => absurd hx (hlua m x)⟩
      simp only [asKey, hm, Option.getD_some]
      exact carries_numeral m
    | float value =>
      obtain ⟨m, hm, hok⟩ := hindex _ haccepted
      refine ⟨m.lua, hok, ?_, fun x hx => absurd hx (hlua m x)⟩
      simp only [asKey, hm, Option.getD_some]
      exact carries_numeral m
    | table entries => exact absurd rfl (hscalar entries)
    | _ => exact ⟨_, rfl, h, fun x hx => hx⟩

theorem Carries.keyOf_refused (h : Carries nodes a value)
    (hrefused : accepted numbers value = false) : ∃ message, numbers.keyOf a = .error message := by
  have hindex : ∀ n : Numeral F, (numbers.key n).isSome = false →
      (numbers.index n : Except Str (LuaValue F Nat)) = .error numbers.nanIndex := by
    intro n hn
    simp only [LuaNumbers.index, Option.isNone_iff_eq_none.mp (Option.isSome_eq_false_iff.mp hn)]
  cases h.shaped with
  | table id entries => cases hrefused
  | scalar value hscalar =>
    cases value with
    | null => exact ⟨_, rfl⟩
    | int value => exact ⟨_, hindex _ hrefused⟩
    | float value => exact ⟨_, hindex _ hrefused⟩
    | table entries => exact absurd rfl (hscalar entries)
    | _ => cases hrefused

theorem isNull_asEntry (value : Value F) : isNull (asEntry numbers value) = isNull value := by
  have hnumeral : ∀ n : Numeral F, isNull n.value = false := by
    intro n
    cases n <;> rfl
  cases value with
  | int value => exact hnumeral _
  | float value => exact hnumeral _
  | _ => rfl

theorem Carries.nil_iff (h : Carries nodes a value) : a = .nil ↔ isNull value = true := by
  cases h.shaped with
  | table id entries => simp [isNull]
  | scalar value hscalar => cases value <;> simp_all [scalarLua, isNull]

end Carries

section Settled
variable [DecidableEq F]

theorem settled_concat (done : List (Value F × Value F)) (e : Value F × Value F) :
    settled (done ++ [e]) = (settled done).filter (fun f => !sameKey f.1 e.1) ++
      if isNull e.2 then [] else [e] := by
  induction done with
  | nil => cases h : isNull e.2 <;> simp [settled, h]
  | cons f done ih =>
    rw [List.cons_append, settled, settled, ih, List.any_append]
    cases hlater : done.any fun later => sameKey f.1 later.1 with
    | true => simp
    | false =>
      cases hnull : isNull f.2 with
      | true => simp
      | false => cases hsame : sameKey f.1 e.1 <;> simp [hsame]

end Settled

/-- A table holds what the entries done so far leave, under keys older than a bound. -/
structure Filled [DecidableEq F] (id bound : Nat) (state : LuaState F)
    (done : List (Value F × Value F)) (table : Table (LuaValue F Nat) (LuaValue F Nat)) :
    Prop where
  here : state.tables[id]? = some table
  older : ∀ p ∈ table.pairs, ∀ x, p.1 = .table x → x < bound
  holds : ∃ reordered, table.pairs.Perm reordered ∧
    List.Forall₂ (OnBoth (Carries (state.above (id + 1)))) reordered (settled done)

theorem carries_grows {base : Nat} {state later : LuaState F}
    (hgrows : Grows state.tables.length state.tables later.tables) {a : LuaValue F Nat}
    {value : Value F} (h : Carries (state.above base) a value) :
    Carries (later.above base) a value :=
  h.mono fun _ _ hnode => above_grows hgrows hnode

section Filling
variable [DecidableEq F] {numbers : LuaNumbers F} {id bound : Nat} {state later : LuaState F}
  {done : List (Value F × Value F)} {table : Table (LuaValue F Nat) (LuaValue F Nat)}

theorem Filled.lt_length (h : Filled id bound state done table) : id < state.tables.length := by
  obtain ⟨hlt, -⟩ := List.getElem?_eq_some_iff.mp h.here
  exact hlt

theorem filled_create (state : LuaState F) :
    Filled state.tables.length bound state.createTable.2 [] .empty := by
  constructor
  · exact List.getElem?_concat_length
  · intro p hp
    cases hp
  · exact ⟨[], .refl [], .nil⟩

theorem Filled.grows (h : Filled id bound state done table)
    (hgrows : Grows state.tables.length state.tables later.tables) :
    Filled id bound later done table := by
  obtain ⟨reordered, hperm, heach⟩ := h.holds
  constructor
  · rw [hgrows.kept id h.lt_length]
    exact h.here
  · exact h.older
  · refine ⟨reordered, hperm, heach.imp ?_⟩
    intro p e hboth
    exact hboth.imp (carries_grows hgrows) (carries_grows hgrows)

theorem filter_carried {nodes : Nat → Option (List (ValueCell F Nat × ValueCell F Nat))}
    {reordered : List (LuaValue F Nat × LuaValue F Nat)} {entries : List (Value F × Value F)}
    (heach : List.Forall₂ (OnBoth (Carries nodes)) reordered entries) {key : LuaValue F Nat}
    {k : Value F} (hkey : Shaped key k)
    (hfresh : ∀ p ∈ reordered, ∀ x y, p.1 = .table x → key = .table y → x ≠ y) :
    List.Forall₂ (OnBoth (Carries nodes)) (remove reordered key)
      (entries.filter fun e => !sameKey e.1 k) := by
  induction heach with
  | nil => exact .nil
  | @cons p e reordered entries hfirst hrest ih =>
    obtain ⟨hp, hrest⟩ := List.forall_mem_cons.mp hfresh
    have htail := ih hrest
    have hiff : sameKey e.1 k = true ↔ p.1 = key := by
      cases hfirst with
      | mk hheld _ => exact sameKey_iff hheld.shaped hkey hp
    rw [remove_cons]
    by_cases heq : p.1 = key
    · rw [if_pos heq, List.filter_cons_of_neg (by simp [hiff.mpr heq])]
      exact htail
    · have hsame : sameKey e.1 k = false := by
        rw [← Bool.not_eq_true, hiff]
        exact heq
      rw [if_neg heq, List.filter_cons_of_pos (by simp [hsame])]
      exact .cons hfirst htail

theorem set_older {key : LuaValue F Nat} {entry : Option (LuaValue F Nat)} {size : Nat}
    (hkey : ∀ x, key = .table x → x < size)
    (holder : ∀ p ∈ table.pairs, ∀ x, p.1 = .table x → x < size) :
    ∀ p ∈ (table.set key entry).pairs, ∀ x, p.1 = .table x → x < size := by
  intro p hp x hx
  rw [Table.pairs_set] at hp
  obtain hnew | hold := List.mem_append.mp ((put_perm entry table.nodup).subset hp)
  · obtain ⟨e, -, rfl⟩ := Option.map_eq_some_iff.mp (Option.mem_toList.mp hnew)
    exact hkey x hx
  · exact holder p (List.mem_filter.mp hold).1 x hx

theorem Filled.rawSet (h : Filled id bound state done table) {key entry : LuaValue F Nat}
    {k v : Value F} (hkey : Carries (state.above (id + 1)) key k)
    (hentry : Carries (state.above (id + 1)) entry v) (haccepted : accepted numbers k = true)
    (hfresh : ∀ x, key = .table x → bound ≤ x ∧ x < state.tables.length)
    (hbound : bound ≤ state.tables.length) :
    ∃ later table', state.rawSet numbers id key entry = .ok later ∧
      Grows id state.tables later.tables ∧ state.tables.length = later.tables.length ∧
      Filled id later.tables.length later (done ++ [(asKey numbers k, asEntry numbers v)])
        table' := by
  obtain ⟨key', hok, hkey', hsame⟩ := hkey.keyOf haccepted
  obtain ⟨reordered, hperm, heach⟩ := h.holds
  let entry' := if entry = .nil then none else some (numbers.kept entry)
  have hset : state.rawSet numbers id key entry =
      .ok ⟨state.tables.modify id fun table => table.set key' entry'⟩ := by
    simp only [LuaState.rawSet, hok, entry']
  have hlength : state.tables.length =
      (state.tables.modify id fun table => table.set key' entry').length :=
    (List.length_modify _ _ _).symm
  refine ⟨_, table.set key' entry', hset, grows_update _ _ _, hlength, ?_⟩
  constructor
  · rw [node_update, h.here]
    rfl
  · rw [← hlength]
    apply set_older
    · exact fun x hx => (hfresh x (hsame x hx)).2
    · exact fun p hp x hx => (h.older p hp x hx).trans_le hbound
  · have hothers := filter_carried heach hkey'.shaped fun p hp x y hx hy => by
      have hlt := h.older p (hperm.symm.subset hp) x hx
      have hge := (hfresh y (hsame y hy)).1
      omega
    have hnodes : ∀ f, LuaState.above (id + 1) (⟨state.tables.modify id f⟩ : LuaState F) =
        state.above (id + 1) := by
      intro f
      funext x
      exact above_update (Nat.lt_succ_self id)
    have hremoved : (remove table.pairs key').Perm (remove reordered key') := hperm.filter _
    refine ⟨remove reordered key' ++ (entry'.map fun e => (key', e)).toList, ?_, ?_⟩
    · rw [Table.pairs_set]
      have hput := put_perm (k := key') entry' table.nodup
      exact hput.trans (List.perm_append_comm.trans (hremoved.append_right _))
    · rw [hnodes, settled_concat]
      apply List.rel_append hothers
      simp only [isNull_asEntry, ← hentry.nil_iff, entry']
      by_cases hnil : entry = .nil
      · rw [if_pos hnil, if_pos hnil]
        exact .nil
      · rw [if_neg hnil, if_neg hnil]
        exact .cons (.mk hkey' hentry.kept) .nil

theorem rawSet_refused {base : Nat} {key : LuaValue F Nat} {k : Value F} (id : Nat)
    (entry : LuaValue F Nat) (hkey : Carries (state.above base) key k)
    (hrefused : accepted numbers k = false) :
    ∃ message, state.rawSet numbers id key entry = .error (.runtime message) := by
  obtain ⟨message, hmessage⟩ := hkey.keyOf_refused hrefused
  refine ⟨message, ?_⟩
  simp only [LuaState.rawSet, hmessage]

end Filling

def AtRunTime (error : EngineError) : Prop := ∃ message, error = .runtime message

structure Made (state : LuaState F) (value : Value F) (made : LuaValue F Nat × LuaState F) :
    Prop where
  grows : Grows state.tables.length state.tables made.2.tables
  carries : Carries (made.2.above state.tables.length) made.1 value
  fresh : ∀ x, made.1 = .table x → state.tables.length ≤ x ∧ x < made.2.tables.length

theorem made_scalar (value : Value F) (h : ∀ entries, value ≠ .table entries)
    (state : LuaState F) : Made state value (scalarLua value, state) := by
  constructor
  · exact Grows.refl _ _
  · exact carries_scalar value h
  · intro x hx
    cases value with
    | table entries => exact absurd rfl (h entries)
    | _ => cases hx

section Conversion
variable [DecidableEq F] (numbers : LuaNumbers F)

theorem accepted_arrived (value : Value F) :
    accepted numbers (arrived numbers value) = accepted numbers value := by
  cases value <;> rfl

theorem Filled.andEntry {id bound : Nat} {state : LuaState F} {done : List (Value F × Value F)}
    {table : Table (LuaValue F Nat) (LuaValue F Nat)} (h : Filled id bound state done table)
    (hbound : bound ≤ state.tables.length) {key entry : Value F}
    {madeKey madeEntry : LuaValue F Nat × LuaState F} (hkey : Made state key madeKey)
    (hentry : Made madeKey.2 entry madeEntry) :
    Succeeds (accepted numbers key = true) AtRunTime
      (fun later => Grows id state.tables later.tables ∧ ∃ table',
        Filled id later.tables.length later (done ++ [(asKey numbers key, asEntry numbers entry)])
          table')
      (madeEntry.2.rawSet numbers id madeKey.1 madeEntry.1) := by
  have hlt := h.lt_length
  have hgrown : Grows id state.tables madeEntry.2.tables := by
    have hfirst : Grows id state.tables madeKey.2.tables := ⟨hkey.grows.length_le,
      fun x hx => hkey.grows.kept x (hx.trans hlt)⟩
    exact hfirst.trans hentry.grows (hlt.le.trans hkey.grows.length_le)
  have hkeyCarries : Carries (madeEntry.2.above (id + 1)) madeKey.1 key := by
    apply carries_grows hentry.grows
    exact hkey.carries.mono fun _ _ hnode => above_le_of_le hlt hnode
  have hentryCarries : Carries (madeEntry.2.above (id + 1)) madeEntry.1 entry :=
    hentry.carries.mono fun _ _ hnode =>
      above_le_of_le (hlt.trans_le hkey.grows.length_le) hnode
  cases haccepted : accepted numbers key with
  | false =>
    obtain ⟨message, hmessage⟩ := rawSet_refused id madeEntry.1 hkeyCarries haccepted
    rw [hmessage]
    exact ⟨Bool.false_ne_true, message, rfl⟩
  | true =>
    have hfilled := (h.grows hkey.grows).grows hentry.grows
    obtain ⟨later, table', hok, hgrows, hlength, hlater⟩ :=
      hfilled.rawSet hkeyCarries hentryCarries haccepted
        (fun x hx => ⟨hbound.trans (hkey.fresh x hx).1,
          (hkey.fresh x hx).2.trans_le hentry.grows.length_le⟩)
        (hbound.trans (hkey.grows.length_le.trans hentry.grows.length_le))
    rw [hok]
    exact ⟨rfl, hgrown.trans hgrows le_rfl, table', hlater⟩

theorem valueToLua_table (entries : List (Value F × Value F)) (state : LuaState F) :
    valueToLua numbers (.table entries) state =
      setEntries numbers state.tables.length entries state.createTable.2 >>= fun later =>
        .ok (.table state.tables.length, later) := by
  simp only [valueToLua]
  rfl

theorem setEntries_cons (id : Nat) (key entry : Value F) (entries : List (Value F × Value F))
    (state : LuaState F) :
    setEntries numbers id ((key, entry) :: entries) state =
      valueToLua numbers key state >>= fun madeKey =>
        valueToLua numbers entry madeKey.2 >>= fun madeEntry =>
          madeEntry.2.rawSet numbers id madeKey.1 madeEntry.1 >>= fun later =>
            setEntries numbers id entries later := by
  simp only [setEntries]

/-- The table whose entries are all set stands for what they leave. -/
theorem Filled.made {state later : LuaState F} {bound : Nat} {entries : List (Value F × Value F)}
    {table : Table (LuaValue F Nat) (LuaValue F Nat)}
    (hgrows : Grows state.tables.length state.createTable.2.tables later.tables)
    (h : Filled state.tables.length bound later entries table) :
    Made state (.table (settled entries)) (.table state.tables.length, later) := by
  constructor
  · exact (grows_create state.tables .empty).trans hgrows le_rfl
  · obtain ⟨reordered, hperm, heach⟩ := h.holds
    refine ⟨.table _ _, .ref ?_ (hperm.map fun p => (luaCell p.1, luaCell p.2)) ?_⟩
    · exact above_eq_some.mpr ⟨le_rfl, congrArg (Option.map luaView) h.here⟩
    · rw [List.forall₂_map_left_iff]
      apply heach.imp
      intro p e hboth
      have hmono : ∀ x pairs, later.above (state.tables.length + 1) x = some pairs →
          later.above state.tables.length x = some pairs :=
        fun x pairs => above_le_of_le (Nat.le_succ _)
      cases hboth with
      | mk key entry => exact .mk (key.holds.mono hmono) (entry.holds.mono hmono)
  · intro x hx
    cases hx
    exact ⟨le_rfl, h.lt_length⟩

mutual

theorem valueToLua_succeeds (value : Value F) (state : LuaState F) :
    Succeeds (carriable numbers value = true) AtRunTime (Made state (arrived numbers value))
      (valueToLua numbers value state) := by
  match value with
  | .table entries =>
    have hfill := setEntries_succeeds entries state.tables.length 0 state.createTable.2 [] .empty
      (filled_create state) (Nat.zero_le _)
    rw [valueToLua_table]
    apply hfill.map
    intro later hlater
    obtain ⟨hgrows, bound, table, hfilled⟩ := hlater
    exact hfilled.made hgrows
  | .null => exact ⟨rfl, made_scalar .null (fun _ h => nomatch h) state⟩
  | .bool value => exact ⟨rfl, made_scalar (.bool value) (fun _ h => nomatch h) state⟩
  | .int value => exact ⟨rfl, made_scalar (.int value) (fun _ h => nomatch h) state⟩
  | .float value => exact ⟨rfl, made_scalar (.float value) (fun _ h => nomatch h) state⟩
  | .str text => exact ⟨rfl, made_scalar (.str text) (fun _ h => nomatch h) state⟩

theorem setEntries_succeeds (entries : List (Value F × Value F)) (id bound : Nat)
    (state : LuaState F) (done : List (Value F × Value F))
    (table : Table (LuaValue F Nat) (LuaValue F Nat)) (h : Filled id bound state done table)
    (hbound : bound ≤ state.tables.length) :
    Succeeds (carriableEntries numbers entries = true) AtRunTime
      (fun later => Grows id state.tables later.tables ∧ ∃ bound table,
        Filled id bound later (done ++ arrivedEntries numbers entries) table)
      (setEntries numbers id entries state) := by
  match entries with
  | [] =>
    refine ⟨rfl, Grows.refl _ _, bound, table, ?_⟩
    rw [arrivedEntries, List.append_nil]
    exact h
  | (key, entry) :: entries =>
    rw [setEntries_cons]
    have hiff : carriable numbers key = true ∧ carriable numbers entry = true ∧
        accepted numbers (arrived numbers key) = true ∧ carriableEntries numbers entries = true ↔
          carriableEntries numbers ((key, entry) :: entries) = true := by
      simp only [carriableEntries, Bool.and_eq_true, accepted_arrived, and_assoc]
    apply Succeeds.imp hiff fun _ h => h
    apply (valueToLua_succeeds key state).bind
    intro madeKey hkey
    apply (valueToLua_succeeds entry madeKey.2).bind
    intro madeEntry hentry
    apply (h.andEntry numbers hbound hkey hentry).bind
    intro later hlater
    obtain ⟨hgrows, table', hfilled⟩ := hlater
    apply (setEntries_succeeds entries id _ later _ table' hfilled le_rfl).imp Iff.rfl
    intro last hlast
    obtain ⟨hmore, bound', last', hlast⟩ := hlast
    rw [List.append_assoc, List.singleton_append] at hlast
    exact ⟨hgrows.trans hmore le_rfl, bound', last', hlast⟩

end

end Conversion

theorem luaCell_rename {κ : Type} (place : ι → Option κ) (a : LuaValue F ι) :
    luaCell (renameLua place a) = renameCell place (luaCell a) := by
  cases a with
  | table id =>
    simp only [renameLua, luaCell, renameCell]
    cases place id <;> rfl
  | _ => rfl

theorem heap_traversed (base : Nat) (state : LuaState F) (traversal : Traversal F) :
    Traversed (state.above base) (placed (state.heap traversal).size)
      (state.heap traversal).cells := by
  intro x pairs hnode
  obtain ⟨-, hnode⟩ := above_eq_some.mp hnode
  obtain ⟨table, htable, rfl⟩ := Option.map_eq_some_iff.mp hnode
  obtain ⟨hlt, rfl⟩ := List.getElem?_eq_some_iff.mp htable
  refine ⟨⟨x, hlt⟩, dif_pos hlt, (traversal.order x state.tables[x].pairs).map
    fun p => (luaCell p.1, luaCell p.2), (traversal.perm x _).map _, ?_⟩
  simp only [LuaHeap.cells, LuaState.heap, List.flatMap_map, luaPair, pairCells, luaCell_rename]
  rfl

theorem Carries.reads {base : Nat} {state : LuaState F} {a : LuaValue F Nat} {value : Value F}
    (h : Carries (state.above base) a value) (traversal : Traversal F) :
    ∃ depth read, state.read traversal depth a = some (.ok read) ∧ Same value read := by
  obtain ⟨depth, read, hread, hsame⟩ := h.holds.reads (heap_traversed _ state traversal)
  refine ⟨depth, read, ?_, hsame⟩
  rw [LuaState.read, luaToValue_eq_copy, luaCell_rename]
  exact hread

/-- A value of the contract is taken over into a Lua state exactly when no key of its tables is
nil or not a number. The tables that were there stay as they are, and whatever the order of the
traversals the new value is read back as what arrives of the first: the last entry of every
key, without the ones set to nil. -/
theorem lua_arrival [DecidableEq F] (numbers : LuaNumbers F) (traversal : Traversal F)
    (value : Value F) (state : LuaState F) :
    match valueToLua numbers value state with
    | .ok (made, later) => carriable numbers value = true ∧
        (∀ x < state.tables.length, later.tables[x]? = state.tables[x]?) ∧
        ∃ depth read, later.read traversal depth made = some (.ok read) ∧
          Same (arrived numbers value) read
    | .error error => carriable numbers value = false ∧ ∃ message, error = .runtime message := by
  have hsucceeds := valueToLua_succeeds numbers value state
  cases hmade : valueToLua numbers value state with
  | error error =>
    rw [hmade] at hsucceeds
    obtain ⟨hrefused, hmessage⟩ := hsucceeds
    exact ⟨Bool.not_eq_true _ ▸ hrefused, hmessage⟩
  | ok made =>
    rw [hmade] at hsucceeds
    obtain ⟨hcarriable, hmade⟩ := hsucceeds
    exact ⟨hcarriable, hmade.grows.kept, hmade.carries.reads traversal⟩

end Transfer

end Wrkrs
