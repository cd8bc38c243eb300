import Mathlib.Data.Fintype.EquivFin
import Wrkrs.Connection
import Wrkrs.Library.Unfolding

/-!
# Values between script environments

The conversions of script values into values of the contract, over a finite heap of tables
or objects. The recursion follows the references of the heap on a bound for its depth: a
structure that holds itself has no bound.
-/

namespace Wrkrs

set_option autoImplicit false

open Text Unfolding Relation

namespace Transfer

variable {F ι : Type}

/-- A value of the contract, over the floats of the machine. -/
inductive Value (F : Type) where
  | null
  | bool (value : Bool)
  | int (value : Int64)
  | float (value : F)
  | str (value : Str)
  | table (entries : List (Value F × Value F))

def unsupported (name : Str) : EngineError := .unsupportedValue ("'".toList ++ name ++ "'".toList)

/-- A Lua value. A table is known by its identity. -/
inductive LuaValue (F ι : Type) where
  | nil
  | boolean (value : Bool)
  | lightUserData
  | integer (value : Int64)
  | number (value : F)
  | string (value : Bytes)
  | table (id : ι)
  | function
  | thread
  | userData
  | error
  | other

def luaTypeName : LuaValue F ι → Str
  | .nil => "nil".toList
  | .boolean _ => "boolean".toList
  | .lightUserData => "userdata".toList
  | .integer _ => "number".toList
  | .number _ => "number".toList
  | .string _ => "string".toList
  | .table _ => "table".toList
  | .function => "function".toList
  | .thread => "thread".toList
  | .userData => "userdata".toList
  | .error => "error".toList
  | .other => "error".toList

/-- The tables of a Lua state, with their pairs in the order of a traversal. Reading a pair
may fail with a message. -/
structure LuaHeap (F : Type) where
  size : Nat
  pairs : Fin size → List (Except Str (LuaValue F (Fin size) × LuaValue F (Fin size)))

def luaEntries (convert : LuaValue F ι → Bounded EngineError (Value F)) :
    List (Except Str (LuaValue F ι × LuaValue F ι)) →
      Bounded EngineError (List (Value F × Value F))
  | [] => some (.ok [])
  | .error message :: _ => some (.error (.runtime message))
  | .ok (key, entry) :: pairs =>
    (convert key).andThen fun key =>
      (convert entry).andThen fun entry =>
        (luaEntries convert pairs).andThen fun entries => some (.ok ((key, entry) :: entries))

/-- The conversion within a bound on the depth of its recursion. -/
def luaToValue (heap : LuaHeap F) :
    (depth : Nat) → LuaValue F (Fin heap.size) → Bounded EngineError (Value F)
  | _, .nil => some (.ok .null)
  | _, .boolean value => some (.ok (.bool value))
  | _, .integer value => some (.ok (.int value))
  | _, .number value => some (.ok (.float value))
  | _, .string value => some (.ok (.str (fromUtf8Lossy value)))
  | 0, .table _ => none
  | depth + 1, .table id =>
    (luaEntries (luaToValue heap depth) (heap.pairs id)).andThen fun entries =>
      some (.ok (.table entries))
  | _, rejected => some (.error (unsupported (luaTypeName rejected)))

/-- A JavaScript value. An object is known by its identity; the text of a string may fail. -/
inductive JsValue (F ι : Type) where
  | null
  | undefined
  | function
  | symbol
  | bool (value : Bool)
  | int (value : Int32)
  | float (value : F)
  | string (text : Except Str Str)
  | object (id : ι)
  | other

def jsTypeName : JsValue F ι → Str
  | .function => "function".toList
  | .symbol => "symbol".toList
  | _ => "object".toList

/-- The objects of a context, with their keys in order and what reading each gives. -/
structure JsHeap (F : Type) where
  size : Nat
  keys : Fin size → List (Except Str (Str × Except Str (JsValue F (Fin size))))

def jsEntries (convert : JsValue F ι → Bounded EngineError (Value F)) :
    List (Except Str (Str × Except Str (JsValue F ι))) →
      Bounded EngineError (List (Value F × Value F))
  | [] => some (.ok [])
  | .error message :: _ => some (.error (.runtime message))
  | .ok (_, .error message) :: _ => some (.error (.runtime message))
  | .ok (key, .ok entry) :: keys =>
    (convert entry).andThen fun entry =>
      (jsEntries convert keys).andThen fun entries => some (.ok ((.str key, entry) :: entries))

def jsToValue (heap : JsHeap F) :
    (depth : Nat) → JsValue F (Fin heap.size) → Bounded EngineError (Value F)
  | _, .null => some (.ok .null)
  | _, .undefined => some (.ok .null)
  | _, .function => some (.error (unsupported (jsTypeName (.function : JsValue F (Fin heap.size)))))
  | _, .symbol => some (.error (unsupported (jsTypeName (.symbol : JsValue F (Fin heap.size)))))
  | _, .bool value => some (.ok (.bool value))
  | _, .int value => some (.ok (.int value.toInt64))
  | _, .float value => some (.ok (.float value))
  | _, .string (.ok text) => some (.ok (.str text))
  | _, .string (.error message) => some (.error (.runtime message))
  | 0, .object _ => none
  | depth + 1, .object id =>
    (jsEntries (jsToValue heap depth) (heap.keys id)).andThen fun entries =>
      some (.ok (.table entries))
  | _, .other => some (.error (unsupported (jsTypeName (.other : JsValue F (Fin heap.size)))))

abbrev ValueCell (F ι : Type) := Cell ι EngineError (Value F)

def pairUp {α : Type} : List α → List (α × α)
  | key :: entry :: rest => (key, entry) :: pairUp rest
  | _ => []

def tableOf (values : List (Value F)) : Value F := .table (pairUp values)

def luaCell : LuaValue F ι → ValueCell F ι
  | .nil => .leaf .null
  | .boolean value => .leaf (.bool value)
  | .integer value => .leaf (.int value)
  | .number value => .leaf (.float value)
  | .string value => .leaf (.str (fromUtf8Lossy value))
  | .table id => .ref id
  | rejected => .refused (unsupported (luaTypeName rejected))

def luaPair : Except Str (LuaValue F ι × LuaValue F ι) → List (ValueCell F ι)
  | .error message => [.refused (.runtime message)]
  | .ok (key, entry) => [luaCell key, luaCell entry]

def LuaHeap.cells (heap : LuaHeap F) (id : Fin heap.size) : List (ValueCell F (Fin heap.size)) :=
  (heap.pairs id).flatMap luaPair

def jsCell : JsValue F ι → ValueCell F ι
  | .null => .leaf .null
  | .undefined => .leaf .null
  | .bool value => .leaf (.bool value)
  | .int value => .leaf (.int value.toInt64)
  | .float value => .leaf (.float value)
  | .string (.ok text) => .leaf (.str text)
  | .string (.error message) => .refused (.runtime message)
  | .object id => .ref id
  | rejected => .refused (unsupported (jsTypeName rejected))

def jsKey : Except Str (Str × Except Str (JsValue F ι)) → List (ValueCell F ι)
  | .error message => [.refused (.runtime message)]
  | .ok (_, .error message) => [.refused (.runtime message)]
  | .ok (key, .ok entry) => [.leaf (.str key), jsCell entry]

def JsHeap.cells (heap : JsHeap F) (id : Fin heap.size) : List (ValueCell F (Fin heap.size)) :=
  (heap.keys id).flatMap jsKey

section Copies

def copyPairs (convert : ValueCell F ι → Bounded EngineError (Value F))
    (cs : List (ValueCell F ι)) : Bounded EngineError (List (Value F × Value F)) :=
  (copyAll convert cs).andThen fun values => some (.ok (pairUp values))

variable {convert : ValueCell F ι → Bounded EngineError (Value F)}

theorem copyPairs_refused (hrefused : ∀ error, convert (.refused error) = some (.error error))
    (error : EngineError) (rest : List (ValueCell F ι)) :
    copyPairs convert (.refused error :: rest) = some (.error error) := by
  simp only [copyPairs, copyAll, hrefused, Bounded.error_andThen]

theorem copyPairs_cons (key entry : ValueCell F ι) (rest : List (ValueCell F ι)) :
    copyPairs convert (key :: entry :: rest) =
      (convert key).andThen fun key =>
        (convert entry).andThen fun entry =>
          (copyPairs convert rest).andThen fun entries => some (.ok ((key, entry) :: entries)) := by
  simp only [copyPairs, copyAll, Bounded.andThen_assoc, Bounded.ok_andThen, pairUp]

theorem luaEntries_eq {luaConvert : LuaValue F ι → Bounded EngineError (Value F)}
    (hconvert : ∀ value, luaConvert value = convert (luaCell value))
    (hrefused : ∀ error, convert (.refused error) = some (.error error))
    (pairs : List (Except Str (LuaValue F ι × LuaValue F ι))) :
    luaEntries luaConvert pairs = copyPairs convert (pairs.flatMap luaPair) := by
  induction pairs with
  | nil => rfl
  | cons pair pairs ih =>
    rw [List.flatMap_cons]
    match pair with
    | .error message => exact (copyPairs_refused hrefused (.runtime message) _).symm
    | .ok (key, entry) =>
      simp only [luaEntries, luaPair, hconvert, ih]
      exact (copyPairs_cons (luaCell key) (luaCell entry) _).symm

theorem jsEntries_eq {jsConvert : JsValue F ι → Bounded EngineError (Value F)}
    (hconvert : ∀ value, jsConvert value = convert (jsCell value))
    (hleaf : ∀ value, convert (.leaf value) = some (.ok value))
    (hrefused : ∀ error, convert (.refused error) = some (.error error))
    (keys : List (Except Str (Str × Except Str (JsValue F ι)))) :
    jsEntries jsConvert keys = copyPairs convert (keys.flatMap jsKey) := by
  induction keys with
  | nil => rfl
  | cons key keys ih =>
    rw [List.flatMap_cons]
    match key with
    | .error message => exact (copyPairs_refused hrefused (.runtime message) _).symm
    | .ok (_, .error message) => exact (copyPairs_refused hrefused (.runtime message) _).symm
    | .ok (name, .ok entry) =>
      simp only [jsEntries, jsKey, hconvert, ih, List.cons_append, List.nil_append, copyPairs_cons,
        hleaf, Bounded.ok_andThen]

end Copies

theorem luaToValue_eq_copy (heap : LuaHeap F) (depth : Nat) (value : LuaValue F (Fin heap.size)) :
    luaToValue heap depth value = copy heap.cells tableOf depth (luaCell value) := by
  induction depth generalizing value with
  | zero => cases value <;> rfl
  | succ depth ih =>
    cases value with
    | table id =>
      have hentries := luaEntries_eq ih (copy_refused depth) (heap.pairs id)
      simp only [luaToValue, luaCell, copy, hentries, copyPairs, Bounded.andThen_assoc]
      rfl
    | _ => rfl

theorem jsToValue_eq_copy (heap : JsHeap F) (depth : Nat) (value : JsValue F (Fin heap.size)) :
    jsToValue heap depth value = copy heap.cells tableOf depth (jsCell value) := by
  induction depth generalizing value with
  | zero =>
    cases value with
    | string text => cases text <;> rfl
    | _ => rfl
  | succ depth ih =>
    cases value with
    | object id =>
      have hentries := jsEntries_eq ih (copy_leaf depth) (copy_refused depth) (heap.keys id)
      simp only [jsToValue, jsCell, copy, hentries, copyPairs, Bounded.andThen_assoc]
      rfl
    | string text => cases text <;> rfl
    | _ => rfl

/-- The conversion of a root returns: a value that unfolds it, or the error of a value it
refuses, on some bound for the depth. -/
def Answers (cells : ι → List (ValueCell F ι)) (root : ValueCell F ι)
    (run : Nat → Bounded EngineError (Value F)) : Prop :=
  ∃ depth, (∃ value, run depth = some (.ok value) ∧ Unfolds cells tableOf root value) ∨
    ∃ error, run depth = some (.error error) ∧ Refuses cells error root

theorem copy_answers_iff [Finite ι] {cells : ι → List (ValueCell F ι)} {root : ValueCell F ι} :
    Answers cells root (copy cells tableOf · root) ↔ NeverReenters cells root := by
  have hreturns : (∃ depth r, copy cells tableOf depth root = some r) ↔
      NeverReenters cells root := returns_iff_neverReenters
  rw [← hreturns]
  constructor
  · intro h
    obtain ⟨depth, ⟨value, hvalue, -⟩ | ⟨error, herror, -⟩⟩ := h
    · exact ⟨depth, .ok value, hvalue⟩
    · exact ⟨depth, .error error, herror⟩
  · intro h
    obtain ⟨depth, r, hr⟩ := h
    cases r with
    | ok value => exact ⟨depth, .inl ⟨value, hr, copy_unfolds hr⟩⟩
    | error error => exact ⟨depth, .inr ⟨error, hr, copy_refuses hr⟩⟩

/-- Sharing does no harm: without a cycle below the root the conversion returns. -/
theorem copy_answers_of_acyclic [Finite ι] {cells : ι → List (ValueCell F ι)} {x : ι}
    (hno : ∀ y, ReflTransGen (Refers cells) x y → ¬ TransGen (Refers cells) y y) :
    Answers cells (.ref x) (copy cells tableOf · (.ref x)) := by
  apply copy_answers_iff.mpr
  intro root heq y hreach hcycle
  cases heq
  have hle : Enters cells ≤ Refers cells := fun _ _ => Enters.refers
  exact hno y (ReflTransGen.mono hle x y hreach) (TransGen.mono hle y y hcycle)

/-- Both conversions return exactly when no table or object is met again within itself among
those they enter: in order, behind values that hold no refused value and no cycle. -/
theorem transfer_answers_iff :
    (∀ (heap : LuaHeap F) (root : LuaValue F (Fin heap.size)),
      Answers heap.cells (luaCell root) (luaToValue heap · root) ↔
        NeverReenters heap.cells (luaCell root)) ∧
      ∀ (heap : JsHeap F) (root : JsValue F (Fin heap.size)),
        Answers heap.cells (jsCell root) (jsToValue heap · root) ↔
          NeverReenters heap.cells (jsCell root) := by
  constructor
  · intro heap root
    simp only [luaToValue_eq_copy]
    exact copy_answers_iff
  · intro heap root
    simp only [jsToValue_eq_copy]
    exact copy_answers_iff

def selfTable : LuaHeap Unit := ⟨1, fun _ => [.ok (.integer 1, .table (0 : Fin 1))]⟩

def selfObject : JsHeap Unit := ⟨1, fun _ => [.ok ("self".toList, .ok (.object (0 : Fin 1)))]⟩

theorem self_never_answers :
    ¬ Answers selfTable.cells (luaCell (.table (0 : Fin 1)))
        (luaToValue selfTable · (.table (0 : Fin 1))) ∧
      ¬ Answers selfObject.cells (jsCell (.object (0 : Fin 1)))
        (jsToValue selfObject · (.object (0 : Fin 1))) := by
  have hlua : Enters selfTable.cells (0 : Fin 1) (0 : Fin 1) :=
    ⟨[.leaf (.int 1)], [], rfl, List.forall_mem_singleton.mpr trivial⟩
  have hjs : Enters selfObject.cells (0 : Fin 1) (0 : Fin 1) :=
    ⟨[.leaf (.str "self".toList)], [], rfl, List.forall_mem_singleton.mpr trivial⟩
  constructor
  · intro h
    simp only [luaToValue_eq_copy] at h
    exact copy_answers_iff.mp h (0 : Fin 1) rfl (0 : Fin 1) .refl (.single hlua)
  · intro h
    simp only [jsToValue_eq_copy] at h
    exact copy_answers_iff.mp h (0 : Fin 1) rfl (0 : Fin 1) .refl (.single hjs)

end Transfer

end Wrkrs
