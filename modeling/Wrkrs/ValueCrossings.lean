import Mathlib.Data.List.Pairwise
import Wrkrs.ValueObjects

/-!
# Values that cross again

A value that a script environment gave back is taken over into another one of its kind without a
change but for the order of the entries. For objects this holds as long as no key is
`__proto__`, since a property of that name is lost on the next way.
-/

namespace Wrkrs

set_option autoImplicit false

open Text Unfolding Arenas Tables

namespace Transfer

variable {F : Type}

theorem same_isNull {v w : Value F} (h : Same v w) : isNull v = isNull w := by
  cases h <;> rfl

theorem forall₂_source {α β : Type} {R : α → β → Prop} {as : List α} {bs : List β}
    (h : List.Forall₂ R as bs) {b : β} (hb : b ∈ bs) : ∃ a ∈ as, R a b := by
  induction h with
  | nil => cases hb
  | cons hfirst _ ih =>
    rcases List.mem_cons.mp hb with rfl | hb
    · exact ⟨_, List.mem_cons_self, hfirst⟩
    · obtain ⟨a, ha, hab⟩ := ih hb
      exact ⟨a, List.mem_cons_of_mem _ ha, hab⟩

theorem onBoth_source {α β : Type} {R : α → β → Prop} {as : List (α × α)} {bs : List (β × β)}
    (h : List.Forall₂ (OnBoth R) as bs) {b : β × β} (hb : b ∈ bs) :
    ∃ a ∈ as, R a.1 b.1 ∧ R a.2 b.2 := by
  obtain ⟨a, ha, hboth⟩ := forall₂_source h hb
  cases hboth with
  | mk key entry => exact ⟨_, ha, key, entry⟩

theorem onBoth_pairwise {α β : Type} {R : α → β → Prop} {P : α → α → Prop}
    {Q : β → β → Prop} {as : List (α × α)} {bs : List (β × β)}
    (h : List.Forall₂ (OnBoth R) as bs) (himp : ∀ a b a' b', R a b → R a' b' → P a a' → Q b b')
    (hall : as.Pairwise fun a a' => P a.1 a'.1) : bs.Pairwise fun b b' => Q b.1 b'.1 := by
  induction h with
  | nil => exact .nil
  | @cons a b as bs hfirst hrest ih =>
    obtain ⟨hhead, htail⟩ := List.pairwise_cons.mp hall
    apply List.Pairwise.cons
    · intro b' hb'
      obtain ⟨a', ha', hkey', -⟩ := onBoth_source hrest hb'
      cases hfirst with
      | mk key entry => exact himp _ _ _ _ key hkey' (hhead a' ha')
    · exact ih htail

/-- A value as a Lua state gives it back: every key once, no nil and every number as it is kept,
at every depth. -/
inductive LuaStable [DecidableEq F] (numbers : LuaNumbers F) : Value F → Prop where
  | scalar (value : Value F) (h : ∀ entries, value ≠ .table entries) : LuaStable numbers value
  | table {entries : List (Value F × Value F)} (keys : ∀ e ∈ entries, LuaStable numbers e.1)
      (values : ∀ e ∈ entries, LuaStable numbers e.2)
      (kept : ∀ e ∈ entries, accepted numbers e.1 = true ∧ asKey numbers e.1 = e.1 ∧
        asEntry numbers e.2 = e.2 ∧ isNull e.2 = false)
      (distinct : entries.Pairwise fun e f => sameKey e.1 f.1 = false) :
      LuaStable numbers (.table entries)

section Lua
variable [DecidableEq F] {numbers : LuaNumbers F}

theorem same_sameKey {v w v' w' : Value F} (h : Same v w) (h' : Same v' w') :
    sameKey v v' = sameKey w w' := by
  cases h with
  | scalar v =>
    cases h' with
    | scalar v' => rfl
    | table order each => cases v <;> rfl
  | table order each => cases h' <;> rfl

theorem sameKey_comm (v w : Value F) : sameKey v w = sameKey w v := by
  cases v <;> cases w <;> simp [sameKey, Bool.beq_comm]

theorem LuaStable.same {v w : Value F} (h : LuaStable numbers v) (hsame : Same v w) :
    LuaStable numbers w := by
  induction v using Value.tree_induct generalizing w with
  | scalar v hscalar =>
    cases hsame with
    | scalar v => exact h
    | table order each => exact absurd rfl (hscalar _)
  | table entries ih =>
    cases hsame with
    | scalar v => exact h
    | @table _ reordered others order each =>
      cases h with
      | scalar v hscalar => exact absurd rfl (hscalar _)
      | table hkeys hvalues hkept hdistinct =>
        have hsource : ∀ f ∈ others, ∃ e ∈ entries, Same e.1 f.1 ∧ Same e.2 f.2 := by
          intro f hf
          obtain ⟨e, he, hboth⟩ := onBoth_source each hf
          exact ⟨e, order.symm.subset he, hboth⟩
        apply LuaStable.table
        · intro f hf
          obtain ⟨e, he, hkey, -⟩ := hsource f hf
          exact (ih e he).1 (hkeys e he) hkey
        · intro f hf
          obtain ⟨e, he, -, hentry⟩ := hsource f hf
          exact (ih e he).2 (hvalues e he) hentry
        · intro f hf
          obtain ⟨e, he, hkey, hentry⟩ := hsource f hf
          obtain ⟨haccepted, hasKey, hasEntry, hnull⟩ := hkept e he
          rw [same_isNull hentry] at hnull
          have hkeyKept : accepted numbers f.1 = true ∧ asKey numbers f.1 = f.1 := by
            generalize e.1 = k at haccepted hasKey hkey
            generalize f.1 = l at hkey
            cases hkey with
            | scalar v => exact ⟨haccepted, hasKey⟩
            | table order each => exact ⟨rfl, rfl⟩
          have hentryKept : asEntry numbers f.2 = f.2 := by
            generalize e.2 = k at hasEntry hentry
            generalize f.2 = l at hentry
            cases hentry with
            | scalar v => exact hasEntry
            | table order each => rfl
          exact ⟨hkeyKept.1, hkeyKept.2, hentryKept, hnull⟩
        · apply onBoth_pairwise (P := fun k l => sameKey k l = false)
            (Q := fun k l => sameKey k l = false) each
          · intro a b a' b' hkey hkey' hdiffer
            rw [← same_sameKey hkey hkey']
            exact hdiffer
          · apply hdistinct.perm order
            intro e f hdiffer
            exact (sameKey_comm f.1 e.1).trans hdiffer

theorem arrivedEntries_eq_map (entries : List (Value F × Value F)) :
    arrivedEntries numbers entries =
      entries.map fun e => (asKey numbers (arrived numbers e.1),
        asEntry numbers (arrived numbers e.2)) := by
  induction entries with
  | nil => rfl
  | cons e entries ih => exact congrArg (List.cons _) ih

omit [DecidableEq F] in
theorem carriableEntries_iff (entries : List (Value F × Value F)) :
    carriableEntries numbers entries = true ↔ ∀ e ∈ entries, carriable numbers e.1 = true ∧
      carriable numbers e.2 = true ∧ accepted numbers e.1 = true := by
  induction entries with
  | nil => exact iff_of_true rfl (fun e he => nomatch he)
  | cons e entries ih =>
    rw [List.forall_mem_cons, ← ih, carriableEntries]
    simp only [Bool.and_eq_true, and_assoc]

theorem settled_sublist (entries : List (Value F × Value F)) :
    (settled entries).Sublist entries := by
  induction entries with
  | nil => exact .slnil
  | cons e entries ih =>
    rw [settled]
    split
    · exact ih.cons e
    · exact ih.cons_cons e

theorem settled_distinct (entries : List (Value F × Value F)) :
    (settled entries).Pairwise (fun e f => sameKey e.1 f.1 = false) ∧
      ∀ e ∈ settled entries, isNull e.2 = false := by
  induction entries with
  | nil => exact ⟨.nil, fun e he => nomatch he⟩
  | cons e entries ih =>
    obtain ⟨hdistinct, hnull⟩ := ih
    rw [settled]
    split
    · exact ⟨hdistinct, hnull⟩
    · next hkept =>
      rw [Bool.not_eq_true, Bool.or_eq_false_iff, List.any_eq_false] at hkept
      constructor
      · apply List.Pairwise.cons _ hdistinct
        intro f hf
        exact Bool.eq_false_iff.mpr (hkept.1 f ((settled_sublist entries).subset hf))
      · exact List.forall_mem_cons.mpr ⟨hkept.2, hnull⟩

theorem settled_eq_self {entries : List (Value F × Value F)}
    (hdistinct : entries.Pairwise fun e f => sameKey e.1 f.1 = false)
    (hnull : ∀ e ∈ entries, isNull e.2 = false) : settled entries = entries := by
  induction entries with
  | nil => rfl
  | cons e entries ih =>
    obtain ⟨hfirst, hrest⟩ := List.pairwise_cons.mp hdistinct
    obtain ⟨hhead, htail⟩ := List.forall_mem_cons.mp hnull
    have hnone : (entries.any fun later => sameKey e.1 later.1) = false := by
      rw [List.any_eq_false]
      exact fun f hf => ne_true_of_eq_false (hfirst f hf)
    rw [settled, hnone, hhead, Bool.or_false, if_neg Bool.false_ne_true, ih hrest htail]

/-- Nothing of a stable value is lost or changed on the way. -/
theorem LuaStable.arrived_eq {v : Value F} (h : LuaStable numbers v) :
    arrived numbers v = v ∧ carriable numbers v = true := by
  induction v using Value.tree_induct with
  | scalar v hscalar =>
    cases v with
    | table entries => exact absurd rfl (hscalar entries)
    | _ => exact ⟨rfl, rfl⟩
  | table entries ih =>
    cases h with
    | scalar v hscalar => exact absurd rfl (hscalar entries)
    | table hkeys hvalues hkept hdistinct =>
      have hmap : arrivedEntries numbers entries = entries := by
        rw [arrivedEntries_eq_map]
        conv_rhs => rw [← List.map_id entries]
        apply List.map_congr_left
        intro e he
        rw [((ih e he).1 (hkeys e he)).1, ((ih e he).2 (hvalues e he)).1, (hkept e he).2.1,
          (hkept e he).2.2.1]
        rfl
      constructor
      · rw [arrived, hmap, settled_eq_self hdistinct fun e he => (hkept e he).2.2.2]
      · rw [carriable, carriableEntries_iff]
        intro e he
        exact ⟨((ih e he).1 (hkeys e he)).2, ((ih e he).2 (hvalues e he)).2, (hkept e he).1⟩

theorem numeral_stable (n : Numeral F) : LuaStable numbers n.value := by
  apply LuaStable.scalar
  intro entries h
  cases n with
  | integer value => cases h
  | float value => cases h

theorem asEntry_stable {v : Value F} (h : LuaStable numbers v) :
    LuaStable numbers (asEntry numbers v) ∧
      asEntry numbers (asEntry numbers v) = asEntry numbers v := by
  have hnumeral : ∀ n : Numeral F, asEntry numbers (numbers.stored n).value =
      (numbers.stored n).value := by
    intro n
    have hagain := numbers.stored_stored n
    generalize numbers.stored n = m at hagain
    cases m <;> exact congrArg Numeral.value hagain
  cases v with
  | int value => exact ⟨numeral_stable _, hnumeral _⟩
  | float value => exact ⟨numeral_stable _, hnumeral _⟩
  | _ => exact ⟨h, rfl⟩

theorem asKey_stable {v : Value F} (h : LuaStable numbers v)
    (haccepted : accepted numbers v = true) :
    LuaStable numbers (asKey numbers v) ∧ accepted numbers (asKey numbers v) = true ∧
      asKey numbers (asKey numbers v) = asKey numbers v := by
  have hnumeral : ∀ n m : Numeral F, numbers.key n = some m →
      accepted numbers m.value = true ∧ asKey numbers m.value = m.value := by
    intro n m hkey
    have hagain := numbers.key_key n m hkey
    cases m with
    | integer value => exact ⟨by simp only [Numeral.value, accepted, hagain, Option.isSome_some],
        by simp only [Numeral.value, asKey, hagain, Option.getD_some]⟩
    | float value => exact ⟨by simp only [Numeral.value, accepted, hagain, Option.isSome_some],
        by simp only [Numeral.value, asKey, hagain, Option.getD_some]⟩
  cases v with
  | null => cases haccepted
  | int value =>
    obtain ⟨m, hm⟩ := Option.isSome_iff_exists.mp haccepted
    simp only [asKey, hm, Option.getD_some]
    exact ⟨numeral_stable m, hnumeral _ m hm⟩
  | float value =>
    obtain ⟨m, hm⟩ := Option.isSome_iff_exists.mp haccepted
    simp only [asKey, hm, Option.getD_some]
    exact ⟨numeral_stable m, hnumeral _ m hm⟩
  | _ => exact ⟨h, rfl, rfl⟩

theorem luaStable_arrived {v : Value F} (h : carriable numbers v = true) :
    LuaStable numbers (arrived numbers v) := by
  induction v using Value.tree_induct with
  | scalar v hscalar =>
    cases v with
    | table entries => exact absurd rfl (hscalar entries)
    | _ => exact .scalar _ hscalar
  | table entries ih =>
    have hentries := (carriableEntries_iff entries).mp h
    have hsource : ∀ f ∈ settled (arrivedEntries numbers entries), ∃ e ∈ entries,
        f = (asKey numbers (arrived numbers e.1), asEntry numbers (arrived numbers e.2)) := by
      intro f hf
      have hmem := (settled_sublist _).subset hf
      rw [arrivedEntries_eq_map] at hmem
      obtain ⟨e, he, heq⟩ := List.mem_map.mp hmem
      exact ⟨e, he, heq.symm⟩
    have hkey : ∀ e ∈ entries, LuaStable numbers (asKey numbers (arrived numbers e.1)) ∧
        accepted numbers (asKey numbers (arrived numbers e.1)) = true ∧
        asKey numbers (asKey numbers (arrived numbers e.1)) =
          asKey numbers (arrived numbers e.1) := by
      intro e he
      obtain ⟨hcarriable, -, haccepted⟩ := hentries e he
      apply asKey_stable ((ih e he).1 hcarriable)
      rw [accepted_arrived]
      exact haccepted
    have hentry : ∀ e ∈ entries, LuaStable numbers (asEntry numbers (arrived numbers e.2)) ∧
        asEntry numbers (asEntry numbers (arrived numbers e.2)) =
          asEntry numbers (arrived numbers e.2) :=
      fun e he => asEntry_stable ((ih e he).2 (hentries e he).2.1)
    obtain ⟨hdistinct, hnull⟩ := settled_distinct (arrivedEntries numbers entries)
    apply LuaStable.table
    · intro f hf
      obtain ⟨e, he, rfl⟩ := hsource f hf
      exact (hkey e he).1
    · intro f hf
      obtain ⟨e, he, rfl⟩ := hsource f hf
      exact (hentry e he).1
    · intro f hf
      have hkept := hnull f hf
      obtain ⟨e, he, rfl⟩ := hsource f hf
      exact ⟨(hkey e he).2.1, (hkey e he).2.2, (hentry e he).2, hkept⟩
    · exact hdistinct

omit [DecidableEq F] in
theorem luaRead_unique {state : LuaState F} {traversal : Traversal F} {depth other : Nat}
    {a : LuaValue F Nat} {v w : Value F} (h : state.read traversal depth a = some (.ok v))
    (h' : state.read traversal other a = some (.ok w)) : v = w := by
  rw [LuaState.read, luaToValue_eq_copy] at h h'
  exact Except.ok.inj (copy_unique h h')

/-- A value that came back from one Lua state is taken over into any other and read back there
as it is, but for the order of the entries. -/
theorem lua_crosses_again (numbers : LuaNumbers F) {value read : Value F}
    {state later : LuaState F} {made : LuaValue F Nat} {traversal : Traversal F} {depth : Nat}
    (hmade : valueToLua numbers value state = .ok (made, later))
    (hread : later.read traversal depth made = some (.ok read))
    (state' : LuaState F) (traversal' : Traversal F) :
    ∃ made' later', valueToLua numbers read state' = .ok (made', later') ∧
      ∃ depth' read', later'.read traversal' depth' made' = some (.ok read') ∧
        Same read read' := by
  have hfirst := valueToLua_succeeds numbers value state
  rw [hmade] at hfirst
  obtain ⟨hcarriable, hmade⟩ := hfirst
  obtain ⟨d, other, hother, hsame⟩ := hmade.carries.reads traversal
  obtain rfl := luaRead_unique hother hread
  have hstable := (luaStable_arrived hcarriable).same hsame
  obtain ⟨harrived, hagain⟩ := hstable.arrived_eq
  have hsecond := valueToLua_succeeds numbers other state'
  cases hmade' : valueToLua numbers other state' with
  | error error =>
    rw [hmade'] at hsecond
    exact absurd hagain hsecond.1
  | ok made' =>
    rw [hmade', harrived] at hsecond
    exact ⟨made'.1, made'.2, rfl, hsecond.2.carries.reads traversal'⟩

end Lua

def halves : LuaNumbers Int where
  stored n := n
  key
    | .integer value => some (.integer value)
    | .float value =>
      if value % 2 = 0 then some (.integer (Int64.ofInt (value / 2))) else some (.float value)
  nilIndex := "table index is nil".toList
  nanIndex := "table index is NaN".toList
  stored_stored _ := rfl
  key_key n m h := by
    cases n with
    | integer value =>
      cases h
      rfl
    | float value =>
      dsimp only at h
      split at h
      · cases h
        rfl
      · next hodd =>
        cases h
        exact if_neg hodd

def inOrder : Traversal Int := ⟨fun _ pairs => pairs, fun _ _ => .refl _⟩

/-- The keys 1.0 and 1 are one key. -/
def sampleTable : Value Int :=
  .table [(.str "id".toList, .int 7), (.float 2, .bool true), (.int 1, .float 3),
    (.str "id".toList, .null)]

def sampleStore : LuaState Int := ⟨[⟨[(.integer 1, .number 3)], by decide⟩]⟩

theorem lua_crosses_again_sample : ∃ made later,
    valueToLua halves (.table [(.int 1, .float 3)]) sampleStore = .ok (made, later) ∧
      ∃ depth read, later.read inOrder depth made = some (.ok read) ∧
        Same (.table [(.int 1, .float 3)]) read :=
  lua_crosses_again halves
    (rfl : valueToLua halves sampleTable ⟨[]⟩ = .ok (.table 0, sampleStore))
    (rfl : sampleStore.read inOrder 1 (.table 0) = some (.ok (.table [(.int 1, .float 3)])))
    sampleStore inOrder

/-- A value as a JavaScript context gives it back: every key a text and once, none of them
`__proto__`, and every number as the context keeps it, at every depth. -/
inductive JsStable (numbers : JsNumbers F) : Value F → Prop where
  | scalar (value : Value F) (h : ∀ entries, value ≠ .table entries)
      (kept : jsArrived numbers value = value) : JsStable numbers value
  | table {entries : List (Str × Value F)} (values : ∀ e ∈ entries, JsStable numbers e.2)
      (clear : protoKey ∉ keys entries) (distinct : (keys entries).Nodup) :
      JsStable numbers (.table (entries.map fun e => (.str e.1, e.2)))

mutual

/-- No key of a table is `__proto__`, at every depth. -/
def withoutProto (numbers : JsNumbers F) : Value F → Bool
  | .table entries => entriesWithoutProto numbers entries
  | _ => true

def entriesWithoutProto (numbers : JsNumbers F) : List (Value F × Value F) → Bool
  | [] => true
  | (key, entry) :: entries =>
    decide (keyText numbers key ≠ protoKey) && withoutProto numbers entry &&
      entriesWithoutProto numbers entries

end

section Js
variable {numbers : JsNumbers F}

theorem entriesWithoutProto_iff (entries : List (Value F × Value F)) :
    entriesWithoutProto numbers entries = true ↔ ∀ e ∈ entries,
      keyText numbers e.1 ≠ protoKey ∧ withoutProto numbers e.2 = true := by
  induction entries with
  | nil => exact iff_of_true rfl (fun e he => nomatch he)
  | cons e entries ih =>
    rw [List.forall_mem_cons, ← ih, entriesWithoutProto]
    simp only [Bool.and_eq_true, decide_eq_true_eq]

theorem jsArrivedEntries_eq_map {setter : Bool} {entries : List (Value F × Value F)}
    (h : ∀ e ∈ entries, keyText numbers e.1 ≠ protoKey) :
    jsArrivedEntries numbers setter entries =
      entries.map fun e => (keyText numbers e.1, jsArrived numbers e.2) := by
  induction entries with
  | nil => rfl
  | cons e entries ih =>
    obtain ⟨hhead, htail⟩ := List.forall_mem_cons.mp h
    simp only [jsArrivedEntries, hhead, decide_false, Bool.and_false, Bool.false_eq_true,
      if_false, ih htail, List.map_cons]

def textEntry (e : Str × Value F) : Value F × Value F := (.str e.1, e.2)

theorem sameEntries_keys {entries : List (Str × Value F)}
    {reordered others : List (Value F × Value F)}
    (hentries : List.Forall₂ (fun p e => p = textEntry e) reordered entries)
    (hothers : List.Forall₂ (OnBoth Same) reordered others) :
    ∃ others' : List (Str × Value F), others = others'.map textEntry ∧
      Related Same entries others' := by
  induction hentries generalizing others with
  | nil =>
    cases hothers
    exact ⟨[], rfl, .nil⟩
  | @cons p e reordered entries hfirst hrest ih =>
    cases hothers with
    | cons hsame hlater =>
      obtain ⟨others', rfl, hrelated⟩ := ih hlater
      cases hfirst
      cases hsame with
      | @mk _ _ _ w key entry =>
        cases key
        exact ⟨(e.1, w) :: others', rfl, .cons ⟨rfl, entry⟩ hrelated⟩

theorem JsStable.same {v w : Value F} (h : JsStable numbers v) (hsame : Same v w) :
    JsStable numbers w := by
  induction v using Value.tree_induct generalizing w with
  | scalar v hscalar =>
    cases hsame with
    | scalar v => exact h
    | table order each => exact absurd rfl (hscalar _)
  | table _ ih =>
    cases hsame with
    | scalar v => exact h
    | @table _ reordered others order each =>
      cases h with
      | scalar v hscalar => exact absurd rfl (hscalar _)
      | @table entries hvalues hclear hdistinct =>
        have hmapped : List.Forall₂ (fun p e => p = textEntry e) (entries.map textEntry) entries :=
          List.forall₂_map_left_iff.mpr (List.forall₂_same.mpr fun _ _ => rfl)
        obtain ⟨entries', hentries', hperm⟩ := List.perm_comp_forall₂ order.symm hmapped
        obtain ⟨others', rfl, hrelated⟩ := sameEntries_keys hentries' each
        have hkeys : (keys entries).Perm (keys others') := by
          rw [← hrelated.keys_eq]
          exact (hperm.map Prod.fst).symm
        apply JsStable.table
        · intro f hf
          obtain ⟨e, he, hboth⟩ := forall₂_source hrelated hf
          have hmem := hperm.subset he
          exact (ih (textEntry e) (List.mem_map_of_mem hmem)).2 (hvalues e hmem) hboth.2
        · exact fun hmem => hclear (hkeys.mem_iff.mpr hmem)
        · exact hkeys.nodup_iff.mp hdistinct

theorem keyedEntries_iff (entries : List (Value F × Value F)) :
    keyedEntries entries = true ↔ ∀ e ∈ entries, isKey e.1 = true ∧ keyed e.2 = true := by
  induction entries with
  | nil => exact iff_of_true rfl (fun e he => nomatch he)
  | cons e entries ih =>
    rw [List.forall_mem_cons, ← ih, keyedEntries]
    simp only [Bool.and_eq_true]

/-- Nothing of a stable value is lost or changed on the way. -/
theorem JsStable.arrived_eq {v : Value F} (h : JsStable numbers v) :
    jsArrived numbers v = v ∧ keyed v = true := by
  induction v using Value.tree_induct with
  | scalar v hscalar =>
    cases h with
    | scalar v _ kept =>
      refine ⟨kept, ?_⟩
      cases v with
      | table entries => exact absurd rfl (hscalar entries)
      | _ => rfl
    | table hvalues hclear hdistinct => exact absurd rfl (hscalar _)
  | table _ ih =>
    cases h with
    | scalar v hscalar => exact absurd rfl (hscalar _)
    | @table entries hvalues hclear hdistinct =>
      have hvalue : ∀ e ∈ entries, jsArrived numbers e.2 = e.2 ∧ keyed e.2 = true :=
        fun e he => (ih (textEntry e) (List.mem_map_of_mem he)).2 (hvalues e he)
      have hnone : ∀ f ∈ entries.map textEntry, keyText numbers f.1 ≠ protoKey := by
        intro f hf hkey
        obtain ⟨e, he, rfl⟩ := List.mem_map.mp hf
        exact hclear (hkey ▸ List.mem_map_of_mem he)
      have hmap : jsArrivedEntries numbers true (entries.map textEntry) = entries := by
        rw [jsArrivedEntries_eq_map hnone, List.map_map]
        conv_rhs => rw [← List.map_id entries]
        apply List.map_congr_left
        intro e he
        exact congrArg (Prod.mk e.1) (hvalue e he).1
      constructor
      · rw [jsArrived]
        change Value.table ((lastWins (jsArrivedEntries numbers true
          (entries.map textEntry))).map textEntry) = _
        rw [hmap, lastWins_of_nodup hdistinct]
        rfl
      · rw [keyed, keyedEntries_iff]
        intro f hf
        obtain ⟨e, he, rfl⟩ := List.mem_map.mp hf
        exact ⟨rfl, (hvalue e he).2⟩

theorem keptFloat_stable (value : F) : JsStable numbers (keptFloat numbers value) := by
  unfold keptFloat
  cases hint : numbers.asInt value with
  | some n =>
    apply JsStable.scalar
    · intro entries h
      cases h
    · simp only [jsArrived, keptInt, Int32.toInt32_toInt64, if_true]
  | none =>
    apply JsStable.scalar
    · intro entries h
      cases h
    · simp only [jsArrived, keptFloat, hint]

theorem jsStable_arrived {v : Value F} (h : withoutProto numbers v = true) :
    JsStable numbers (jsArrived numbers v) := by
  induction v using Value.tree_induct with
  | scalar v hscalar =>
    cases v with
    | table entries => exact absurd rfl (hscalar entries)
    | int value =>
      rw [jsArrived, keptInt]
      split
      · next hfits =>
        refine .scalar (.int value) (fun _ h => nomatch h) ?_
        rw [jsArrived, keptInt, if_pos hfits]
      · exact keptFloat_stable _
    | float value => exact keptFloat_stable value
    | _ => exact .scalar _ hscalar rfl
  | table entries ih =>
    rw [withoutProto, entriesWithoutProto_iff] at h
    have hmap : jsArrivedEntries numbers true entries =
        entries.map fun e => (keyText numbers e.1, jsArrived numbers e.2) :=
      jsArrivedEntries_eq_map fun e he => (h e he).1
    have hsource : ∀ f ∈ lastWins (jsArrivedEntries numbers true entries), ∃ e ∈ entries,
        f = (keyText numbers e.1, jsArrived numbers e.2) := by
      intro f hf
      have hmem := mem_lastWins hf
      rw [hmap] at hmem
      obtain ⟨e, he, heq⟩ := List.mem_map.mp hmem
      exact ⟨e, he, heq.symm⟩
    rw [jsArrived]
    apply JsStable.table
    · intro f hf
      obtain ⟨e, he, rfl⟩ := hsource f hf
      exact (ih e he).2 (h e he).2
    · intro hmem
      obtain ⟨f, hf, hkey⟩ := List.mem_map.mp hmem
      obtain ⟨e, he, rfl⟩ := hsource f hf
      exact (h e he).1 hkey
    · rw [← assignAll_nil]
      exact nodup_assignAll List.nodup_nil

theorem jsRead_unique {state : JsState F} {listing : Listing F} {depth other : Nat}
    {a : JsValue F Nat} {v w : Value F} (h : state.read listing depth a = some (.ok v))
    (h' : state.read listing other a = some (.ok w)) : v = w := by
  rw [JsState.read, jsToValue_eq_copy] at h h'
  exact Except.ok.inj (copy_unique h h')

/-- A value without the key `__proto__` that came back from one context is taken over into any
other and read back there as it is, but for the order of the entries. -/
theorem js_crosses_again (numbers : JsNumbers F) {value read : Value F}
    {state later : JsState F} {made : JsValue F Nat} {listing : Listing F} {depth : Nat}
    (hmade : valueToJs numbers value state = .ok (made, later))
    (hread : later.read listing depth made = some (.ok read))
    (hproto : withoutProto numbers value = true) (state' : JsState F) (listing' : Listing F) :
    ∃ made' later', valueToJs numbers read state' = .ok (made', later') ∧
      ∃ depth' read', later'.read listing' depth' made' = some (.ok read') ∧
        Same read read' := by
  have hfirst : Succeeds (keyed value = true) (KeyRefused F) (JsMade numbers state value) _ :=
    valueToJs_succeeds value state
  rw [hmade] at hfirst
  obtain ⟨d, other, hother, hsame⟩ := hfirst.2.reads listing
  obtain rfl := jsRead_unique hother hread
  have hstable := (jsStable_arrived hproto).same hsame
  obtain ⟨harrived, hagain⟩ := hstable.arrived_eq
  have hsecond : Succeeds (keyed other = true) (KeyRefused F) (JsMade numbers state' other) _ :=
    valueToJs_succeeds other state'
  cases hmade' : valueToJs numbers other state' with
  | error error =>
    rw [hmade'] at hsecond
    exact absurd hagain hsecond.1
  | ok made' =>
    rw [hmade'] at hsecond
    obtain ⟨depth', read', hread', hsame'⟩ := hsecond.2.reads listing'
    rw [harrived] at hsame'
    exact ⟨made'.1, made'.2, rfl, depth', read', hread', hsame'⟩

end Js

def jsHalves : JsNumbers Int where
  text value := (toString value).toList
  ofInt value := 2 * value.toInt
  asInt value := if value % 2 = 0 ∧ value.natAbs < 100 then some (Int32.ofInt (value / 2)) else none

def asListed : Listing Int := ⟨fun _ own => own, fun _ _ => .refl _⟩

def sampleEntries : Value Int :=
  .table [(.int 1, .float 4), (.str "1".toList, .null), (.str "a".toList, .int 5000000000)]

def sampleObjects : JsState Int :=
  ⟨[⟨⟨[("1".toList, .null), ("a".toList, .float 10000000000)], by decide⟩, .base⟩]⟩

theorem js_crosses_again_sample : ∃ made later,
    valueToJs jsHalves (.table [(.str "1".toList, .null), (.str "a".toList, .float 10000000000)])
        sampleObjects = .ok (made, later) ∧
      ∃ depth read, later.read asListed depth made = some (.ok read) ∧
        Same (.table [(.str "1".toList, .null), (.str "a".toList, .float 10000000000)]) read :=
  js_crosses_again jsHalves
    (rfl : valueToJs jsHalves sampleEntries ⟨[]⟩ = .ok (.object 0, sampleObjects))
    (rfl : sampleObjects.read asListed 1 (.object 0) = some (.ok (.table
      [(.str "1".toList, .null), (.str "a".toList, .float 10000000000)])))
    (by decide) sampleObjects asListed

end Transfer

end Wrkrs
