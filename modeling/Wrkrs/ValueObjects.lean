import Wrkrs.ValueStores

/-!
# Values in a JavaScript context

The conversion of values of the contract into JavaScript values. Every table becomes a new
object whose properties are set in order under the texts of the keys. Setting `__proto__` meets
a setter as long as the object inherits it: the value becomes the prototype of the object, or
is lost.
-/

namespace Wrkrs

set_option autoImplicit false

open Text Unfolding Arenas Tables

namespace Transfer

variable {F ι : Type}

/-- How floats are written and kept: as a key, from an integer, and as an integer when the
context keeps them so. -/
structure JsNumbers (F : Type) where
  text : F → Str
  ofInt : Int64 → F
  asInt : F → Option Int32

inductive Proto where
  | base
  | null
  | object (id : Nat)

structure JsObject (F : Type) where
  own : Table Str (JsValue F Nat)
  proto : Proto

structure JsState (F : Type) where
  objects : List (JsObject F)

def JsState.newObject (state : JsState F) : Nat × JsState F :=
  (state.objects.length, ⟨state.objects ++ [⟨.empty, .base⟩]⟩)

def protoKey : Str := "__proto__".toList

/-- The setter of the common prototype is met from an object: no object on the way has an own
property of its name. The way takes no more steps than there are objects. -/
def JsState.inheritsSetter (state : JsState F) : (steps : Nat) → Nat → Bool
  | 0, _ => false
  | steps + 1, id =>
    match state.objects[id]? with
    | none => false
    | some object =>
      if (object.own.get protoKey).isSome then false
      else
        match object.proto with
        | .base => true
        | .null => false
        | .object next => state.inheritsSetter steps next

def JsState.update (state : JsState F) (id : Nat) (f : JsObject F → JsObject F) : JsState F :=
  ⟨state.objects.modify id f⟩

def JsObject.set (key : Str) (entry : JsValue F Nat) (object : JsObject F) : JsObject F :=
  { object with own := object.own.set key (some entry) }

def JsObject.setProto (proto : Proto) (object : JsObject F) : JsObject F :=
  { object with proto := proto }

def JsState.takeProto (state : JsState F) (id : Nat) : JsValue F Nat → JsState F
  | .null => state.update id (.setProto .null)
  | .object next => state.update id (.setProto (.object next))
  | _ => state

def JsState.setProperty (state : JsState F) (id : Nat) (key : Str) (entry : JsValue F Nat) :
    JsState F :=
  if key = protoKey ∧ state.inheritsSetter state.objects.length id then state.takeProto id entry
  else state.update id (.set key entry)

def Value.typeName : Value F → Str
  | .null => "nil".toList
  | .bool _ => "boolean".toList
  | .int _ => "number".toList
  | .float _ => "number".toList
  | .str _ => "string".toList
  | .table _ => "table".toList

/-- An error of the conversion, with what was to be converted into what. -/
structure FromJs where
  source : Str
  target : Str
  message : Str

section Conversion
variable (numbers : JsNumbers F)

def objectKey : Value F → Except FromJs Str
  | .str text => .ok text
  | .int value => .ok (toString value.toInt).toList
  | .float value => .ok (numbers.text value)
  | other => .error ⟨"table key".toList, "string".toList,
      other.typeName ++ " keys cannot transfer".toList⟩

def jsFloat (value : F) : JsValue F ι :=
  match numbers.asInt value with
  | some value => .int value
  | none => .float value

def jsInt (value : Int64) : JsValue F ι :=
  if value.toInt32.toInt64 = value then .int value.toInt32
  else jsFloat numbers (numbers.ofInt value)

mutual

def valueToJs : Value F → JsState F → Except FromJs (JsValue F Nat × JsState F)
  | .null, state => .ok (.null, state)
  | .bool value, state => .ok (.bool value, state)
  | .int value, state => .ok (jsInt numbers value, state)
  | .float value, state => .ok (jsFloat numbers value, state)
  | .str text, state => .ok (.string (.ok text), state)
  | .table entries, state => do
    let (id, state) := state.newObject
    let state ← setProperties id entries state
    return (.object id, state)

def setProperties (id : Nat) : List (Value F × Value F) → JsState F → Except FromJs (JsState F)
  | [], state => .ok state
  | (key, entry) :: entries, state => do
    let key ← objectKey numbers key
    let (entry, state) ← valueToJs entry state
    setProperties id entries (state.setProperty id key entry)

end

end Conversion

/-- An order in which the properties of each object are listed. -/
structure Listing (F : Type) where
  order : Nat → List (Str × JsValue F Nat) → List (Str × JsValue F Nat)
  perm : ∀ id own, (order id own).Perm own

def renameJs {κ : Type} (place : ι → Option κ) : JsValue F ι → JsValue F κ
  | .null => .null
  | .undefined => .undefined
  | .function => .function
  | .symbol => .symbol
  | .bool value => .bool value
  | .int value => .int value
  | .float value => .float value
  | .string text => .string text
  | .object id =>
    match place id with
    | some id => .object id
    | none => .null
  | .other => .other

def JsState.heap (state : JsState F) (listing : Listing F) : JsHeap F where
  size := state.objects.length
  keys id := (listing.order id.val (state.objects.get id).own.pairs).map fun p =>
    .ok (p.1, .ok (renameJs (placed state.objects.length) p.2))

def JsState.read (state : JsState F) (listing : Listing F) (depth : Nat)
    (value : JsValue F Nat) : Bounded EngineError (Value F) :=
  jsToValue (state.heap listing) depth (renameJs (placed (state.heap listing).size) value)

section Arriving
variable (numbers : JsNumbers F)

def isKey : Value F → Bool
  | .str _ => true
  | .int _ => true
  | .float _ => true
  | _ => false

def keyText (key : Value F) : Str :=
  match objectKey numbers key with
  | .ok text => text
  | .error _ => []

mutual

def keyed : Value F → Bool
  | .table entries => keyedEntries entries
  | _ => true

def keyedEntries : List (Value F × Value F) → Bool
  | [] => true
  | (key, entry) :: entries => isKey key && keyed entry && keyedEntries entries

end

mutual

/-- As a prototype the value cuts off the setter: it is null or an object without the setter. -/
def cutsOff : Value F → Bool
  | .null => true
  | .table entries => cutsOffEntries entries
  | _ => false

def cutsOffEntries : List (Value F × Value F) → Bool
  | [] => false
  | (key, entry) :: entries =>
    (decide (keyText numbers key = protoKey) && cutsOff entry) || cutsOffEntries entries

end

def keptFloat (value : F) : Value F :=
  match numbers.asInt value with
  | some value => .int value.toInt64
  | none => .float value

/-- An integer of 32 bits stays, a longer one turns into a float. -/
def keptInt (value : Int64) : Value F :=
  if value.toInt32.toInt64 = value then .int value else keptFloat numbers (numbers.ofInt value)

mutual

/-- The value as a JavaScript context has it. -/
def jsArrived : Value F → Value F
  | .int value => keptInt numbers value
  | .float value => keptFloat numbers value
  | .table entries =>
    .table ((lastWins (jsArrivedEntries true entries)).map fun e => (.str e.1, e.2))
  | value => value

/-- The properties set, without the `__proto__` that the setter takes. -/
def jsArrivedEntries (setter : Bool) : List (Value F × Value F) → List (Str × Value F)
  | [] => []
  | (key, entry) :: entries =>
    if setter && decide (keyText numbers key = protoKey) then
      jsArrivedEntries (!cutsOff numbers entry) entries
    else (keyText numbers key, jsArrived entry) :: jsArrivedEntries setter entries

end

end Arriving

/-- Whether the setter is met from an object, along prototypes that are younger objects. -/
inductive Chain (nodes : Nat → Option (JsObject F)) : Nat → Bool → Prop where
  | own {x : Nat} {object : JsObject F} (node : nodes x = some object)
      (own : protoKey ∈ keys object.own.pairs) : Chain nodes x false
  | base {x : Nat} {object : JsObject F} (node : nodes x = some object)
      (clear : protoKey ∉ keys object.own.pairs) (proto : object.proto = .base) : Chain nodes x true
  | null {x : Nat} {object : JsObject F} (node : nodes x = some object)
      (clear : protoKey ∉ keys object.own.pairs) (proto : object.proto = .null) :
      Chain nodes x false
  | next {x y : Nat} {object : JsObject F} {setter : Bool} (node : nodes x = some object)
      (clear : protoKey ∉ keys object.own.pairs) (proto : object.proto = .object y) (lt : x < y)
      (rest : Chain nodes y setter) : Chain nodes x setter

/-- What a value does to the setter when it is set as a prototype. -/
inductive Cuts (nodes : Nat → Option (JsObject F)) : JsValue F Nat → Bool → Prop where
  | null : Cuts nodes .null true
  | object {x : Nat} {setter : Bool} (chain : Chain nodes x setter) :
      Cuts nodes (.object x) (!setter)
  | lost (value : JsValue F Nat) (notNull : value ≠ .null) (notObject : ∀ x, value ≠ .object x) :
      Cuts nodes value false

def jsView (object : JsObject F) : List (ValueCell F Nat × ValueCell F Nat) :=
  object.own.pairs.map fun p => (.leaf (.str p.1), jsCell p.2)

/-- What the objects from a position on stand for. -/
def JsState.above (base : Nat) (state : JsState F) :
    Nat → Option (List (ValueCell F Nat × ValueCell F Nat)) :=
  Arenas.above base jsView state.objects

def JsState.objectsAbove (base : Nat) (state : JsState F) : Nat → Option (JsObject F) :=
  Arenas.above base id state.objects

section Chains
variable {nodes more : Nat → Option (JsObject F)} {x : Nat} {setter : Bool}

theorem Chain.mono (hmore : ∀ x object, nodes x = some object → more x = some object)
    (h : Chain nodes x setter) : Chain more x setter := by
  induction h with
  | own node own => exact .own (hmore _ _ node) own
  | base node clear proto => exact .base (hmore _ _ node) clear proto
  | null node clear proto => exact .null (hmore _ _ node) clear proto
  | next node clear proto lt _ ih => exact .next (hmore _ _ node) clear proto lt ih

theorem Cuts.mono (hmore : ∀ x object, nodes x = some object → more x = some object)
    {value : JsValue F Nat} {cut : Bool} (h : Cuts nodes value cut) : Cuts more value cut := by
  cases h with
  | null => exact .null
  | object chain => exact .object (chain.mono hmore)
  | lost value notNull notObject => exact .lost value notNull notObject

/-- The prototypes of an object are younger, so the way ends within the objects there are. -/
theorem Chain.inheritsSetter {state : JsState F} {base : Nat}
    (h : Chain (state.objectsAbove base) x setter) (steps : Nat)
    (hsteps : state.objects.length ≤ steps + x) : state.inheritsSetter steps x = setter := by
  have hhere : ∀ y object, state.objectsAbove base y = some object →
      state.objects[y]? = some object := by
    intro y object hnode
    obtain ⟨-, hnode⟩ := above_eq_some.mp hnode
    rw [Option.map_id_fun, id_eq] at hnode
    exact hnode
  have hlt : ∀ y object, state.objectsAbove base y = some object → y < state.objects.length := by
    intro y object hnode
    obtain ⟨hlt, -⟩ := List.getElem?_eq_some_iff.mp (hhere y object hnode)
    exact hlt
  induction h generalizing steps with
  | own node own =>
    have hx := hlt _ _ node
    obtain ⟨steps, rfl⟩ : ∃ n, steps = n + 1 := ⟨steps - 1, by omega⟩
    simp only [JsState.inheritsSetter, hhere _ _ node, if_pos (Table.get_isSome.mpr own)]
  | base node clear proto =>
    have hx := hlt _ _ node
    obtain ⟨steps, rfl⟩ : ∃ n, steps = n + 1 := ⟨steps - 1, by omega⟩
    simp only [JsState.inheritsSetter, hhere _ _ node, if_neg (mt Table.get_isSome.mp clear), proto]
  | null node clear proto =>
    have hx := hlt _ _ node
    obtain ⟨steps, rfl⟩ : ∃ n, steps = n + 1 := ⟨steps - 1, by omega⟩
    simp only [JsState.inheritsSetter, hhere _ _ node, if_neg (mt Table.get_isSome.mp clear), proto]
  | next node clear proto lt _ ih =>
    have hx := hlt _ _ node
    obtain ⟨steps, rfl⟩ : ∃ n, steps = n + 1 := ⟨steps - 1, by omega⟩
    simp only [JsState.inheritsSetter, hhere _ _ node, if_neg (mt Table.get_isSome.mp clear), proto]
    exact ih steps (by omega)

theorem Chain.above {state : JsState F} {base other : Nat}
    (h : Chain (state.objectsAbove base) x setter) (hle : other ≤ x) :
    Chain (state.objectsAbove other) x setter := by
  have hnode : ∀ y object, other ≤ y → state.objectsAbove base y = some object →
      state.objectsAbove other y = some object := by
    intro y object hy hnode
    exact above_eq_some.mpr ⟨hy, (above_eq_some.mp hnode).2⟩
  induction h with
  | own node own => exact .own (hnode _ _ hle node) own
  | base node clear proto => exact .base (hnode _ _ hle node) clear proto
  | null node clear proto => exact .null (hnode _ _ hle node) clear proto
  | next node clear proto lt _ ih =>
    exact .next (hnode _ _ hle node) clear proto lt (ih (hle.trans lt.le))

end Chains

/-- The JavaScript value stands for a value, over some objects. -/
structure JsCarries (state : JsState F) (base : Nat) (a : JsValue F Nat) (value : Value F)
    (cut : Bool) : Prop where
  holds : Holds (state.above base) (jsCell a) value
  cuts : Cuts (state.objectsAbove base) a cut
  fresh : ∀ x, a = .object x → base ≤ x

/-- An object has the properties set so far, and meets the setter or not. -/
structure Propertied (id : Nat) (setter : Bool) (done : List (Str × Value F)) (state : JsState F)
    (object : JsObject F) : Prop where
  here : state.objects[id]? = some object
  own : Related (fun a value => Holds (state.above (id + 1)) (jsCell a) value) object.own.pairs done
  chain : Chain (state.objectsAbove id) id setter

section Setting
variable {id : Nat} {setter : Bool} {done : List (Str × Value F)} {state later : JsState F}
  {object : JsObject F}

theorem objectsAbove_self (hhere : state.objects[id]? = some object) :
    state.objectsAbove id id = some object :=
  above_eq_some.mpr ⟨le_rfl, hhere.symm ▸ rfl⟩

theorem Propertied.inheritsSetter (h : Propertied id setter done state object) :
    state.inheritsSetter state.objects.length id = setter :=
  h.chain.inheritsSetter state.objects.length (Nat.le_add_right _ _)

theorem above_update_eq (f : JsObject F → JsObject F) :
    (state.update id f).above (id + 1) = state.above (id + 1) := by
  funext x
  exact above_update (Nat.lt_succ_self id)

theorem objectsAbove_update (f : JsObject F → JsObject F) {x : Nat} {other : JsObject F}
    (hnode : state.objectsAbove (id + 1) x = some other) :
    (state.update id f).objectsAbove id x = some other := by
  apply above_le_of_le (Nat.le_succ id)
  exact (above_update (Nat.lt_succ_self id)).trans hnode

theorem Propertied.update_here (h : Propertied id setter done state object)
    (f : JsObject F → JsObject F) : (state.update id f).objects[id]? = some (f object) := by
  rw [JsState.update, node_update, h.here]
  rfl

theorem Propertied.clear (h : Propertied id true done state object) :
    protoKey ∉ keys object.own.pairs := by
  have hnode := objectsAbove_self h.here
  cases h.chain with
  | base node clear proto =>
    cases node.symm.trans hnode
    exact clear
  | next node clear proto lt rest =>
    cases node.symm.trans hnode
    exact clear

theorem Propertied.setProto (h : Propertied id true done state object) (proto : Proto)
    {setter : Bool} (hchain : (state.update id (.setProto proto)).objectsAbove id id =
      some (object.setProto proto) →
        Chain ((state.update id (.setProto proto)).objectsAbove id) id setter) :
    Propertied id setter done (state.update id (.setProto proto)) (object.setProto proto) := by
  have hhere := h.update_here (.setProto proto)
  constructor
  · exact hhere
  · rw [above_update_eq]
    exact h.own
  · exact hchain (objectsAbove_self hhere)

/-- The setter takes the value: as the prototype, which may cut the setter off, or not at all. -/
theorem Propertied.takeProto (h : Propertied id true done state object)
    {entry : JsValue F Nat} {value : Value F} {cut : Bool}
    (hentry : JsCarries state (id + 1) entry value cut) :
    ∃ object', Propertied id (!cut) done (state.setProperty id protoKey entry) object' := by
  have hmet : protoKey = protoKey ∧ state.inheritsSetter state.objects.length id = true :=
    ⟨rfl, h.inheritsSetter⟩
  rw [JsState.setProperty, if_pos hmet]
  cases hentry.cuts with
  | null => exact ⟨_, h.setProto .null fun hnode => .null hnode h.clear rfl⟩
  | @object x setter chain =>
    rw [Bool.not_not]
    refine ⟨_, h.setProto (.object x) fun hnode =>
      .next hnode h.clear rfl (hentry.fresh x rfl) ?_⟩
    exact chain.mono fun _ _ => objectsAbove_update _
  | lost entry notNull notObject =>
    refine ⟨object, ?_⟩
    cases entry with
    | null => exact absurd rfl notNull
    | object x => exact absurd rfl (notObject x)
    | _ => exact h

theorem Propertied.setOwn (h : Propertied id setter done state object) {key : Str}
    (hkey : ¬ (key = protoKey ∧ setter = true)) {entry : JsValue F Nat} {value : Value F}
    {cut : Bool} (hentry : JsCarries state (id + 1) entry value cut) :
    ∃ object', Propertied id setter (assign done key value) (state.setProperty id key entry)
      object' := by
  have hown : ¬ (key = protoKey ∧ state.inheritsSetter state.objects.length id = true) := by
    rw [h.inheritsSetter]
    exact hkey
  have hhere := h.update_here (.set key entry)
  have hnode := objectsAbove_self hhere
  rw [JsState.setProperty, if_neg hown]
  refine ⟨object.set key entry, hhere, ?_, ?_⟩
  · rw [above_update_eq]
    exact h.own.assign hentry.holds
  · have hsame : key ≠ protoKey → (protoKey ∈ keys (object.set key entry).own.pairs ↔
        protoKey ∈ keys object.own.pairs) := by
      intro hne
      rw [JsObject.set, Table.pairs_set]
      exact mem_keys_put _ hne.symm
    have hold := objectsAbove_self h.here
    by_cases heq : key = protoKey
    · have hsetter : setter = false := Bool.eq_false_iff.mpr fun htrue => hkey ⟨heq, htrue⟩
      rw [hsetter]
      apply Chain.own hnode
      rw [JsObject.set, Table.pairs_set, put, keys_assign, mem_addKey, heq]
      exact .inr rfl
    · cases h.chain with
      | own node own =>
        cases node.symm.trans hold
        exact .own hnode ((hsame heq).mpr own)
      | base node clear proto =>
        cases node.symm.trans hold
        exact .base hnode (mt (hsame heq).mp clear) proto
      | null node clear proto =>
        cases node.symm.trans hold
        exact .null hnode (mt (hsame heq).mp clear) proto
      | next node clear proto lt rest =>
        cases node.symm.trans hold
        refine .next hnode (mt (hsame heq).mp clear) proto lt ?_
        exact (rest.above lt).mono fun _ _ => objectsAbove_update _

end Setting

def KeyRefused (F : Type) (error : FromJs) : Prop :=
  error.source = "table key".toList ∧ error.target = "string".toList ∧
    ∃ key : Value F, isKey key = false ∧
      error.message = key.typeName ++ " keys cannot transfer".toList

structure JsMade (numbers : JsNumbers F) (state : JsState F) (value : Value F)
    (made : JsValue F Nat × JsState F) : Prop where
  grows : Grows state.objects.length state.objects made.2.objects
  carries : JsCarries made.2 state.objects.length made.1 (jsArrived numbers value)
    (cutsOff numbers value)

section Making
variable {numbers : JsNumbers F} {id : Nat} {setter : Bool} {done : List (Str × Value F)}
  {state later : JsState F} {object : JsObject F}

theorem objectKey_succeeds (key : Value F) : Succeeds (isKey key = true) (KeyRefused F)
    (fun text => text = keyText numbers key) (objectKey numbers key) := by
  have hrefused : ∀ key : Value F, isKey key = false → Succeeds (isKey key = true) (KeyRefused F)
      (fun text : Str => text = keyText numbers key)
      (.error ⟨"table key".toList, "string".toList,
        key.typeName ++ " keys cannot transfer".toList⟩) := by
    intro key hkey
    exact ⟨ne_true_of_eq_false hkey, rfl, rfl, key, hkey, rfl⟩
  cases key with
  | str text => exact ⟨rfl, rfl⟩
  | int value => exact ⟨rfl, rfl⟩
  | float value => exact ⟨rfl, rfl⟩
  | null => exact hrefused .null rfl
  | bool value => exact hrefused (.bool value) rfl
  | table entries => exact hrefused (.table entries) rfl

theorem jsCarries_le {base other : Nat} (hle : base ≤ other) {a : JsValue F Nat}
    {value : Value F} {cut : Bool} (h : JsCarries state other a value cut) :
    JsCarries state base a value cut := by
  constructor
  · exact h.holds.mono fun _ _ hnode => above_le_of_le hle hnode
  · exact h.cuts.mono fun _ _ hnode => above_le_of_le hle hnode
  · exact fun x hx => hle.trans (h.fresh x hx)

theorem Propertied.grows (h : Propertied id setter done state object)
    (hgrows : Grows state.objects.length state.objects later.objects) :
    Propertied id setter done later object := by
  obtain ⟨hlt, -⟩ := List.getElem?_eq_some_iff.mp h.here
  constructor
  · rw [hgrows.kept id hlt]
    exact h.here
  · apply List.Forall₂.imp _ h.own
    intro p e hboth
    exact ⟨hboth.1, hboth.2.mono fun _ _ hnode => above_grows hgrows hnode⟩
  · exact h.chain.mono fun _ _ hnode => above_grows hgrows hnode

theorem propertied_new (state : JsState F) :
    Propertied state.objects.length true [] state.newObject.2 ⟨.empty, .base⟩ := by
  have hhere : state.newObject.2.objects[state.objects.length]? = some ⟨.empty, .base⟩ :=
    List.getElem?_concat_length
  constructor
  · exact hhere
  · exact .nil
  · exact .base (objectsAbove_self hhere) List.not_mem_nil rfl

theorem made_plain {value arrived : Value F} {a : JsValue F Nat}
    (harrived : jsArrived numbers value = arrived) (hcell : jsCell a = .leaf arrived)
    (hcut : cutsOff numbers value = false) (hnull : a ≠ .null) (hobject : ∀ x, a ≠ .object x) :
    JsMade numbers state value (a, state) := by
  constructor
  · exact Grows.refl _ _
  · constructor
    · rw [harrived, hcell]
      exact .leaf arrived
    · rw [hcut]
      exact .lost a hnull hobject
    · exact fun x hx => absurd hx (hobject x)

theorem made_float (numbers : JsNumbers F) (value : F) :
    jsCell (jsFloat numbers value : JsValue F Nat) =
    .leaf (keptFloat numbers value) ∧ (jsFloat numbers value : JsValue F Nat) ≠ .null ∧
      ∀ x, (jsFloat numbers value : JsValue F Nat) ≠ .object x := by
  unfold jsFloat keptFloat
  cases numbers.asInt value with
  | some value => exact ⟨rfl, (fun h => nomatch h), fun x h => nomatch h⟩
  | none => exact ⟨rfl, (fun h => nomatch h), fun x h => nomatch h⟩

theorem made_int (numbers : JsNumbers F) (value : Int64) :
    jsCell (jsInt numbers value : JsValue F Nat) =
    .leaf (keptInt numbers value) ∧ (jsInt numbers value : JsValue F Nat) ≠ .null ∧
      ∀ x, (jsInt numbers value : JsValue F Nat) ≠ .object x := by
  unfold jsInt keptInt
  by_cases hfits : value.toInt32.toInt64 = value
  · rw [if_pos hfits, if_pos hfits]
    exact ⟨congrArg (fun v => Cell.leaf (Value.int v)) hfits, (fun h => nomatch h),
      fun x h => nomatch h⟩
  · rw [if_neg hfits, if_neg hfits]
    exact made_float numbers _

theorem valueToJs_table (entries : List (Value F × Value F)) (state : JsState F) :
    valueToJs numbers (.table entries) state =
      setProperties numbers state.objects.length entries state.newObject.2 >>= fun later =>
        .ok (.object state.objects.length, later) := by
  simp only [valueToJs]
  rfl

theorem setProperties_cons (id : Nat) (key entry : Value F) (entries : List (Value F × Value F))
    (state : JsState F) :
    setProperties numbers id ((key, entry) :: entries) state =
      objectKey numbers key >>= fun text =>
        valueToJs numbers entry state >>= fun made =>
          setProperties numbers id entries (made.2.setProperty id text made.1) := by
  simp only [setProperties]

theorem setProperty_grows (state : JsState F) (id : Nat) (key : Str) (entry : JsValue F Nat) :
    Grows id state.objects (state.setProperty id key entry).objects := by
  unfold JsState.setProperty
  by_cases htaken : key = protoKey ∧ state.inheritsSetter state.objects.length id
  · rw [if_pos htaken]
    cases entry with
    | null => exact grows_update _ _ _
    | object next => exact grows_update _ _ _
    | _ => exact Grows.refl _ _
  · rw [if_neg htaken]
    exact grows_update _ _ _

/-- The object whose properties are all set stands for what they leave. -/
theorem Propertied.made {entries : List (Value F × Value F)}
    (hgrows : Grows state.objects.length state.newObject.2.objects later.objects)
    (h : Propertied state.objects.length (true && !cutsOffEntries numbers entries)
      (assignAll [] (jsArrivedEntries numbers true entries)) later object) :
    JsMade numbers state (.table entries) (.object state.objects.length, later) := by
  constructor
  · exact (grows_create state.objects _).trans hgrows le_rfl
  · constructor
    · refine .ref ?_ (.refl (jsView object)) ?_
      · exact above_eq_some.mpr ⟨le_rfl, congrArg (Option.map jsView) h.here⟩
      · rw [← assignAll_nil, jsView, List.forall₂_map_left_iff, List.forall₂_map_right_iff]
        apply List.Forall₂.imp _ h.own
        intro p e hboth
        have hheld := hboth.2.mono fun x pairs => above_le_of_le (Nat.le_succ _)
        rw [hboth.1]
        exact .mk (.leaf _) hheld
    · have hchain := Cuts.object h.chain
      rw [Bool.true_and, Bool.not_not] at hchain
      exact hchain
    · intro x hx
      cases hx
      exact le_rfl

section After
variable {key entry : Value F} {entries : List (Value F × Value F)}

theorem setterAfter_taken (h : keyText numbers key = protoKey) :
    (true && !cutsOffEntries numbers ((key, entry) :: entries)) =
      (!cutsOff numbers entry && !cutsOffEntries numbers entries) := by
  simp only [cutsOffEntries, h, decide_true, Bool.true_and, Bool.not_or]

theorem entriesAfter_taken (h : keyText numbers key = protoKey) :
    assignAll done (jsArrivedEntries numbers true ((key, entry) :: entries)) =
      assignAll done (jsArrivedEntries numbers (!cutsOff numbers entry) entries) := by
  simp only [jsArrivedEntries, h, decide_true, Bool.true_and, if_true]

theorem setterAfter_own (h : ¬ (keyText numbers key = protoKey ∧ setter = true)) :
    (setter && !cutsOffEntries numbers ((key, entry) :: entries)) =
      (setter && !cutsOffEntries numbers entries) := by
  cases setter with
  | false => rfl
  | true =>
    have hkey : keyText numbers key ≠ protoKey := fun heq => h ⟨heq, rfl⟩
    simp only [cutsOffEntries, hkey, decide_false, Bool.false_and, Bool.false_or]

theorem entriesAfter_own (h : ¬ (keyText numbers key = protoKey ∧ setter = true)) :
    assignAll done (jsArrivedEntries numbers setter ((key, entry) :: entries)) =
      assignAll (assign done (keyText numbers key) (jsArrived numbers entry))
        (jsArrivedEntries numbers setter entries) := by
  have htaken : (setter && decide (keyText numbers key = protoKey)) = false := by
    simp only [Bool.and_eq_false_iff, decide_eq_false_iff_not]
    by_cases hsetter : setter = true
    · exact .inr fun heq => h ⟨heq, hsetter⟩
    · exact .inl (Bool.eq_false_iff.mpr hsetter)
  simp only [jsArrivedEntries, htaken, Bool.false_eq_true, if_false]
  rfl

end After

mutual

theorem valueToJs_succeeds (value : Value F) (state : JsState F) :
    Succeeds (keyed value = true) (KeyRefused F) (JsMade numbers state value)
      (valueToJs numbers value state) := by
  match value with
  | .table entries =>
    have hset := setProperties_succeeds entries state.objects.length true [] state.newObject.2 _
      (propertied_new state)
    rw [valueToJs_table]
    apply hset.map
    intro later hlater
    obtain ⟨hgrows, object, hpropertied⟩ := hlater
    exact hpropertied.made hgrows
  | .null =>
    refine ⟨rfl, Grows.refl _ _, ?_, .null, ?_⟩
    · exact .leaf .null
    · exact fun x hx => nomatch hx
  | .bool value =>
    exact ⟨rfl, made_plain rfl rfl rfl (fun h => nomatch h) fun x h => nomatch h⟩
  | .str text =>
    exact ⟨rfl, made_plain rfl rfl rfl (fun h => nomatch h) fun x h => nomatch h⟩
  | .int value =>
    obtain ⟨hcell, hnull, hobject⟩ := made_int numbers value
    exact ⟨rfl, made_plain rfl hcell rfl hnull hobject⟩
  | .float value =>
    obtain ⟨hcell, hnull, hobject⟩ := made_float numbers value
    exact ⟨rfl, made_plain rfl hcell rfl hnull hobject⟩

theorem setProperties_succeeds (entries : List (Value F × Value F)) (id : Nat) (setter : Bool)
    (done : List (Str × Value F)) (state : JsState F) (object : JsObject F)
    (h : Propertied id setter done state object) :
    Succeeds (keyedEntries entries = true) (KeyRefused F)
      (fun later => Grows id state.objects later.objects ∧ ∃ object',
        Propertied id (setter && !cutsOffEntries numbers entries)
          (assignAll done (jsArrivedEntries numbers setter entries)) later object')
      (setProperties numbers id entries state) := by
  match entries with
  | [] =>
    refine ⟨rfl, Grows.refl _ _, object, ?_⟩
    simp only [cutsOffEntries, jsArrivedEntries, Bool.not_false, Bool.and_true]
    exact h
  | (key, entry) :: entries =>
    rw [setProperties_cons]
    have hiff : isKey key = true ∧ keyed entry = true ∧ keyedEntries entries = true ↔
        keyedEntries ((key, entry) :: entries) = true := by
      simp only [keyedEntries, Bool.and_eq_true, and_assoc]
    apply Succeeds.imp hiff fun _ h => h
    apply (objectKey_succeeds key).bind
    rintro text rfl
    apply (valueToJs_succeeds entry state).bind
    intro made hmade
    obtain ⟨hlt, -⟩ := List.getElem?_eq_some_iff.mp h.here
    have hgrown : Grows id state.objects
        (made.2.setProperty id (keyText numbers key) made.1).objects := by
      have hfirst : Grows id state.objects made.2.objects :=
        ⟨hmade.grows.length_le, fun x hx => hmade.grows.kept x (hx.trans hlt)⟩
      exact hfirst.trans (setProperty_grows _ _ _ _) le_rfl
    have hcarries := jsCarries_le (Nat.succ_le_of_lt hlt) hmade.carries
    have hheld := h.grows hmade.grows
    by_cases htaken : keyText numbers key = protoKey ∧ setter = true
    · obtain ⟨hproto, rfl⟩ := htaken
      rw [hproto] at hgrown ⊢
      obtain ⟨object', hset⟩ := hheld.takeProto hcarries
      apply (setProperties_succeeds entries id _ done _ object' hset).imp Iff.rfl
      intro later hlater
      rw [setterAfter_taken hproto, entriesAfter_taken hproto]
      exact ⟨hgrown.trans hlater.1 le_rfl, hlater.2⟩
    · obtain ⟨object', hset⟩ := hheld.setOwn htaken hcarries
      apply (setProperties_succeeds entries id setter _ _ object' hset).imp Iff.rfl
      intro later hlater
      rw [setterAfter_own htaken, entriesAfter_own htaken]
      exact ⟨hgrown.trans hlater.1 le_rfl, hlater.2⟩

end

end Making

theorem jsCell_rename {κ : Type} (place : ι → Option κ) (a : JsValue F ι) :
    jsCell (renameJs place a) = renameCell place (jsCell a) := by
  cases a with
  | object id =>
    simp only [renameJs, jsCell, renameCell]
    cases place id <;> rfl
  | string text => cases text <;> rfl
  | _ => rfl

theorem jsHeap_traversed (base : Nat) (state : JsState F) (listing : Listing F) :
    Traversed (state.above base) (placed (state.heap listing).size)
      (state.heap listing).cells := by
  intro x pairs hnode
  obtain ⟨-, hnode⟩ := above_eq_some.mp hnode
  obtain ⟨object, hobject, rfl⟩ := Option.map_eq_some_iff.mp hnode
  obtain ⟨hlt, rfl⟩ := List.getElem?_eq_some_iff.mp hobject
  refine ⟨⟨x, hlt⟩, dif_pos hlt, (listing.order x state.objects[x].own.pairs).map
    fun p => (.leaf (.str p.1), jsCell p.2), (listing.perm x _).map _, ?_⟩
  simp only [JsHeap.cells, JsState.heap, List.flatMap_map, jsKey, pairCells, jsCell_rename]
  rfl

theorem JsMade.reads {numbers : JsNumbers F} {state : JsState F} {value : Value F}
    {made : JsValue F Nat × JsState F} (h : JsMade numbers state value made)
    (listing : Listing F) :
    ∃ depth read, made.2.read listing depth made.1 = some (.ok read) ∧
      Same (jsArrived numbers value) read := by
  obtain ⟨depth, read, hread, hsame⟩ := h.carries.holds.reads (jsHeap_traversed _ made.2 listing)
  refine ⟨depth, read, ?_, hsame⟩
  rw [JsState.read, jsToValue_eq_copy, jsCell_rename]
  exact hread

/-- A value of the contract is taken over into a JavaScript context exactly when the keys of its
tables are strings and numbers, and an error names the kind of another key. The objects that
were there stay as they are, and in whatever order properties are listed the new value is read
back as what arrives of the first: the last value of every key by its text, without the ones
that the setter of `__proto__` takes until one of them cuts it off. -/
theorem js_arrival (numbers : JsNumbers F) (listing : Listing F) (value : Value F)
    (state : JsState F) :
    match valueToJs numbers value state with
    | .ok (made, later) => keyed value = true ∧
        (∀ x < state.objects.length, later.objects[x]? = state.objects[x]?) ∧
        ∃ depth read, later.read listing depth made = some (.ok read) ∧
          Same (jsArrived numbers value) read
    | .error error => keyed value = false ∧ KeyRefused F error := by
  have hsucceeds : Succeeds (keyed value = true) (KeyRefused F) (JsMade numbers state value) _ :=
    valueToJs_succeeds value state
  cases hmade : valueToJs numbers value state with
  | error error =>
    rw [hmade] at hsucceeds
    obtain ⟨hrefused, hkey⟩ := hsucceeds
    exact ⟨Bool.not_eq_true _ ▸ hrefused, hkey⟩
  | ok made =>
    rw [hmade] at hsucceeds
    obtain ⟨hkeyed, hmade⟩ := hsucceeds
    exact ⟨hkeyed, hmade.grows.kept, hmade.reads listing⟩

end Transfer

end Wrkrs
