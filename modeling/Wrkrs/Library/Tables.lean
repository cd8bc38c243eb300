import Mathlib.Data.List.Induction
import Mathlib.Data.List.Nodup

/-!
# Ordered tables

Lists of pairs read as tables in the order of their keys. An assignment replaces the
value of the first entry with its key or adds an entry at the end. Without repeated keys
a table is its keys and its values.
-/

namespace Tables

set_option autoImplicit false

universe u v
variable {α : Type u} {β : Type v} [DecidableEq α]

def keys (t : List (α × β)) : List α := t.map Prod.fst

def value : List (α × β) → α → Option β
  | [], _ => none
  | e :: t, k => if e.1 = k then some e.2 else value t k

def assign : List (α × β) → α → β → List (α × β)
  | [], k, v => [(k, v)]
  | e :: t, k, v => if e.1 = k then (k, v) :: t else e :: assign t k v

def assignAll (t es : List (α × β)) : List (α × β) :=
  es.foldl (fun t e => assign t e.1 e.2) t

/-- An assignment that keeps what is there. -/
def assignNew (t : List (α × β)) (k : α) (v : β) : List (α × β) :=
  if k ∈ keys t then t else assign t k v

def remove (t : List (α × β)) (k : α) : List (α × β) := t.filter fun e => decide (e.1 ≠ k)

def addKey (ks : List α) (k : α) : List α := if k ∈ ks then ks else ks ++ [k]

section Lemmas
variable {t t' es : List (α × β)} {k k' : α} {v : β}

omit [DecidableEq α] in
@[simp] theorem keys_cons (e : α × β) (t : List (α × β)) : keys (e :: t) = e.1 :: keys t := rfl

omit [DecidableEq α] in
@[simp] theorem keys_append (t t' : List (α × β)) : keys (t ++ t') = keys t ++ keys t' :=
  List.map_append

omit [DecidableEq α] in
theorem mem_keys_reverse : k ∈ keys t.reverse ↔ k ∈ keys t := by
  rw [keys, List.map_reverse, List.mem_reverse]
  rfl

theorem keys_assign : keys (assign t k v) = addKey (keys t) k := by
  induction t with
  | nil => rfl
  | cons e t ih =>
    rw [assign]
    by_cases he : e.1 = k
    · rw [if_pos he, addKey, if_pos (by rw [keys_cons, he]; exact List.mem_cons_self), keys_cons,
        keys_cons, he]
    · rw [if_neg he, keys_cons, ih, addKey, addKey, keys_cons]
      by_cases hk : k ∈ keys t
      · rw [if_pos hk, if_pos (List.mem_cons_of_mem _ hk)]
      · have hk' : k ∉ e.1 :: keys t := by
          rintro (_ | ⟨_, hmem⟩)
          · exact he rfl
          · exact hk hmem
        rw [if_neg hk, if_neg hk', List.cons_append]

theorem value_assign : value (assign t k v) k' = if k = k' then some v else value t k' := by
  induction t with
  | nil => rfl
  | cons e t ih =>
    rw [assign]
    by_cases he : e.1 = k
    · rw [if_pos he]
      by_cases hk : k = k'
      · rw [value, if_pos hk, if_pos hk]
      · rw [value, if_neg hk, if_neg hk, value, if_neg (he ▸ hk)]
    · rw [if_neg he]
      by_cases hk : e.1 = k'
      · rw [value, if_pos hk, value, if_pos hk, if_neg fun h => he (hk.trans h.symm)]
      · rw [value, if_neg hk, value, if_neg hk, ih]

theorem value_append : value (t ++ t') k = (value t k).or (value t' k) := by
  induction t with
  | nil => rfl
  | cons e t ih =>
    rw [List.cons_append, value, value]
    by_cases he : e.1 = k
    · rw [if_pos he, if_pos he]
      rfl
    · rw [if_neg he, if_neg he, ih]

theorem value_isSome : (value t k).isSome = true ↔ k ∈ keys t := by
  induction t with
  | nil => simp [value, keys]
  | cons e t ih =>
    rw [value, keys_cons, List.mem_cons]
    by_cases he : e.1 = k
    · simp [he]
    · rw [if_neg he, ih]
      exact ⟨.inr, fun h => h.resolve_left fun heq => he heq.symm⟩

theorem value_none : value t k = none ↔ k ∉ keys t := by
  rw [← value_isSome, Bool.not_eq_true, Option.isSome_eq_false_iff, Option.isNone_iff_eq_none]

theorem mem_of_value (h : value t k = some v) : (k, v) ∈ t := by
  induction t with
  | nil => cases h
  | cons e t ih =>
    rw [value] at h
    by_cases he : e.1 = k
    · rw [if_pos he] at h
      obtain rfl := Option.some.inj h
      rw [← he]
      exact List.mem_cons_self
    · rw [if_neg he] at h
      exact List.mem_cons_of_mem _ (ih h)

omit [DecidableEq α] in
theorem keys_filter_sublist (p : α × β → Bool) : (keys (t.filter p)).Sublist (keys t) :=
  List.Sublist.map Prod.fst List.filter_sublist

theorem keys_remove : keys (remove t k) = (keys t).filter fun key => decide (key ≠ k) := by
  rw [remove, keys, keys, List.filter_map]
  rfl

theorem remove_cons (e : α × β) (t : List (α × β)) :
    remove (e :: t) k = if e.1 = k then remove t k else e :: remove t k := by
  rw [remove, List.filter_cons]
  by_cases he : e.1 = k
  · rw [if_neg (by simp [he]), if_pos he]
    rfl
  · rw [if_pos (decide_eq_true he), if_neg he]
    rfl

theorem value_remove : value (remove t k) k' = if k = k' then none else value t k' := by
  induction t with
  | nil => simp [remove, value]
  | cons e t ih =>
    rw [remove_cons]
    by_cases he : e.1 = k
    · rw [if_pos he, ih, value, he]
      by_cases hk : k = k'
      · rw [if_pos hk, if_pos hk]
      · rw [if_neg hk, if_neg hk, if_neg hk]
    · rw [if_neg he, value, value, ih]
      by_cases hk : e.1 = k'
      · rw [if_pos hk, if_pos hk, if_neg fun h => he (hk.trans h.symm)]
      · rw [if_neg hk, if_neg hk]

theorem remove_of_not_mem (h : k ∉ keys t) : remove t k = t := by
  refine List.filter_eq_self.mpr ?_
  intro e he
  exact decide_eq_true fun heq => h (heq ▸ List.mem_map_of_mem he)

theorem find?_keys (p : α → Bool) :
    t.find? (fun e => p e.1) = ((keys t).find? p).bind fun k => (value t k).map fun v => (k, v) := by
  induction t with
  | nil => rfl
  | cons e t ih =>
    cases hp : p e.1 with
    | true => simp [hp, value]
    | false =>
      simp only [List.find?_cons, keys_cons, hp, ih]
      cases hfind : (keys t).find? p with
      | none => rfl
      | some k =>
        have hne : e.1 ≠ k := by
          rintro rfl
          rw [List.find?_some hfind] at hp
          cases hp
        rw [Option.bind_some, Option.bind_some, value, if_neg hne]

theorem mem_assign {e : α × β} (h : e ∈ assign t k v) : e = (k, v) ∨ e ∈ t := by
  induction t with
  | nil => exact .inl (List.mem_singleton.mp h)
  | cons e' t ih =>
    rw [assign] at h
    by_cases he : e'.1 = k
    · rw [if_pos he] at h
      exact (List.mem_cons.mp h).imp id fun hmem => List.mem_cons_of_mem _ hmem
    · rw [if_neg he] at h
      rcases List.mem_cons.mp h with rfl | hmem
      · exact .inr List.mem_cons_self
      · exact (ih hmem).imp id fun hold => List.mem_cons_of_mem _ hold

theorem nodup_addKey {ks : List α} (h : ks.Nodup) : (addKey ks k).Nodup := by
  rw [addKey]
  by_cases hk : k ∈ ks
  · rw [if_pos hk]
    exact h
  · rw [if_neg hk]
    exact List.nodup_append.mpr ⟨h, List.nodup_singleton k, by
      intro a ha b hb heq
      exact hk ((List.mem_singleton.mp hb) ▸ heq ▸ ha)⟩

theorem nodup_assign (h : (keys t).Nodup) : (keys (assign t k v)).Nodup := by
  rw [keys_assign]
  exact nodup_addKey h

theorem nodup_assignNew (h : (keys t).Nodup) : (keys (assignNew t k v)).Nodup := by
  rw [assignNew]
  split
  · exact h
  · exact nodup_assign h

theorem mem_keys_assignNew : k ∈ keys (assignNew t k v) := by
  rw [assignNew]
  by_cases hk : k ∈ keys t
  · rw [if_pos hk]
    exact hk
  · rw [if_neg hk, keys_assign, addKey, if_neg hk]
    exact List.mem_append_right _ List.mem_cons_self

theorem keys_assignAll : keys (assignAll t es) = (keys es).foldl addKey (keys t) := by
  induction es generalizing t with
  | nil => rfl
  | cons e es ih =>
    rw [assignAll, List.foldl_cons, ← assignAll, ih, keys_assign]
    rfl

theorem nodup_assignAll (h : (keys t).Nodup) : (keys (assignAll t es)).Nodup := by
  induction es generalizing t with
  | nil => exact h
  | cons e es ih => exact ih (nodup_assign h)

/-- The last assignment of a key counts. -/
theorem value_assignAll : value (assignAll t es) k = (value es.reverse k).or (value t k) := by
  induction es generalizing t with
  | nil => rfl
  | cons e es ih =>
    rw [assignAll, List.foldl_cons, ← assignAll, ih, value_assign, List.reverse_cons, value_append,
      Option.or_assoc]
    by_cases he : e.1 = k
    · simp [value, he]
    · simp [value, he]

theorem mem_addKey {ks : List α} : k' ∈ addKey ks k ↔ k' ∈ ks ∨ k' = k := by
  rw [addKey]
  by_cases hk : k ∈ ks
  · rw [if_pos hk]
    exact ⟨.inl, fun h => h.elim id fun heq => heq ▸ hk⟩
  · rw [if_neg hk, List.mem_append, List.mem_singleton]

theorem mem_foldl_addKey {ks ns : List α} : k ∈ ns.foldl addKey ks ↔ k ∈ ks ∨ k ∈ ns := by
  induction ns generalizing ks with
  | nil => simp
  | cons n ns ih =>
    rw [List.foldl_cons, ih, mem_addKey, List.mem_cons, or_assoc]

theorem mem_keys_assignAll : k ∈ keys (assignAll t es) ↔ k ∈ keys t ∨ k ∈ keys es := by
  rw [keys_assignAll, mem_foldl_addKey]

theorem eq_filterMap_value (h : (keys t).Nodup) :
    t = (keys t).filterMap fun k => (value t k).map fun v => (k, v) := by
  induction t with
  | nil => rfl
  | cons e t ih =>
    obtain ⟨hnew, hrest⟩ := List.nodup_cons.mp h
    have htail : ((keys t).filterMap fun k => (value (e :: t) k).map fun v => (k, v)) = t := by
      rw [List.filterMap_congr (g := fun k => (value t k).map fun v => (k, v))]
      · exact (ih hrest).symm
      · intro k hk
        have hne : e.1 ≠ k := fun heq => hnew (heq ▸ hk)
        rw [value, if_neg hne]
    rw [keys_cons, List.filterMap_cons, htail, value, if_pos rfl]
    rfl

end Lemmas

/-- Every key once, in the order of first occurrence, with its last value. -/
def lastWins (es : List (α × β)) : List (α × β) :=
  ((keys es).foldl addKey []).filterMap fun k => (value es.reverse k).map fun v => (k, v)

theorem mem_lastWins {es : List (α × β)} {e : α × β} (h : e ∈ lastWins es) : e ∈ es := by
  obtain ⟨k, _, hk⟩ := List.mem_filterMap.mp h
  obtain ⟨v, hv, rfl⟩ := Option.map_eq_some_iff.mp hk
  exact List.mem_reverse.mp (mem_of_value hv)

theorem assignAll_nil (es : List (α × β)) : assignAll [] es = lastWins es := by
  have hn : (keys (assignAll [] es)).Nodup := nodup_assignAll List.nodup_nil
  refine (eq_filterMap_value hn).trans ?_
  rw [lastWins, keys_assignAll]
  refine List.filterMap_congr fun k _ => ?_
  rw [value_assignAll]
  cases value es.reverse k <;> rfl

theorem keys_lastWins (es : List (α × β)) : keys (lastWins es) = (keys es).foldl addKey [] := by
  have h : keys (assignAll [] es) = _ := keys_assignAll
  rw [assignAll_nil] at h
  exact h

theorem value_lastWins (es : List (α × β)) (k : α) : value (lastWins es) k = value es.reverse k := by
  rw [← assignAll_nil, value_assignAll]
  cases value es.reverse k <;> rfl

theorem assign_of_not_mem {t : List (α × β)} {k : α} {v : β} (h : k ∉ keys t) :
    assign t k v = t ++ [(k, v)] := by
  induction t with
  | nil => rfl
  | cons e t ih =>
    obtain ⟨hne, hrest⟩ := not_or.mp (mt List.mem_cons.mpr h)
    rw [assign, if_neg fun heq => hne heq.symm, ih hrest, List.cons_append]

theorem lastWins_of_nodup {es : List (α × β)} (h : (keys es).Nodup) : lastWins es = es := by
  rw [← assignAll_nil]
  induction es using List.reverseRecOn with
  | nil => rfl
  | append_singleton es e ih =>
    rw [keys_append] at h
    obtain ⟨hfirst, -, hnew⟩ := List.nodup_append.mp h
    have he : e.1 ∉ keys es := fun hmem => hnew e.1 hmem e.1 List.mem_cons_self rfl
    have hrest : es.foldl (fun t e => assign t e.1 e.2) [] = es := ih hfirst
    rw [assignAll, List.foldl_append, hrest]
    exact assign_of_not_mem he

def entries (t : List (α × β)) (k : α) : List (α × β) := t.filter fun e => decide (e.1 = k)

/-- The entries of a key that repeated assignments leave as they are. -/
def leftover (t es : List (α × β)) (k : α) : List (α × β) :=
  if k ∈ keys es then (entries t k).tail else entries t k

section Entries
variable {t t' es : List (α × β)} {k k' : α} {v : β}

theorem mem_entries {e : α × β} : e ∈ entries t k ↔ e ∈ t ∧ e.1 = k := by
  rw [entries, List.mem_filter, decide_eq_true_eq]

theorem entries_eq_nil : entries t k = [] ↔ k ∉ keys t := by
  rw [entries, List.filter_eq_nil_iff]
  constructor
  · intro h hmem
    obtain ⟨e, he, rfl⟩ := List.mem_map.mp hmem
    exact h e he (decide_eq_true rfl)
  · intro h e he heq
    exact h (of_decide_eq_true heq ▸ List.mem_map_of_mem he)

theorem entries_cons (e : α × β) (t : List (α × β)) :
    entries (e :: t) k = if e.1 = k then e :: entries t k else entries t k := by
  rw [entries, List.filter_cons]
  by_cases he : e.1 = k
  · rw [if_pos (decide_eq_true he), if_pos he]
    rfl
  · rw [if_neg (by simp [he]), if_neg he]
    rfl

/-- An assignment replaces the first entry of its key and no other. -/
theorem entries_assign :
    entries (assign t k v) k' = if k = k' then (k, v) :: (entries t k).tail else entries t k' := by
  induction t with
  | nil => exact entries_cons _ _
  | cons e t ih =>
    rw [assign]
    by_cases he : e.1 = k
    · rw [if_pos he, entries_cons, entries_cons, entries_cons, he, if_pos rfl]
      by_cases hk : k = k'
      · rw [if_pos hk, if_pos hk, hk]
        rfl
      · rw [if_neg hk, if_neg hk, if_neg hk]
    · rw [if_neg he, entries_cons, entries_cons, entries_cons, if_neg he, ih]
      by_cases hk : k = k'
      · rw [if_pos hk, if_pos hk, if_neg fun h => he (h.trans hk.symm)]
      · rw [if_neg hk, if_neg hk]

theorem entries_remove : entries (remove t k) k' = if k = k' then [] else entries t k' := by
  by_cases hk : k = k'
  · rw [if_pos hk, entries_eq_nil, keys_remove, List.mem_filter]
    rintro ⟨_, hne⟩
    exact of_decide_eq_true hne hk.symm
  · rw [if_neg hk, entries, entries, remove, List.filter_filter]
    refine List.filter_congr fun e _ => ?_
    by_cases he : e.1 = k'
    · simp [he, Ne.symm hk]
    · simp [he]

theorem entries_assignAll : entries (assignAll t es) k =
    match value es.reverse k with
    | some v => (k, v) :: (entries t k).tail
    | none => entries t k := by
  induction es generalizing t with
  | nil => rfl
  | cons e es ih =>
    rw [assignAll, List.foldl_cons, ← assignAll, ih, List.reverse_cons, value_append]
    cases value es.reverse k with
    | some v =>
      simp only [Option.some_or]
      rw [entries_assign]
      by_cases he : e.1 = k
      · rw [if_pos he, he, List.tail_cons]
      · rw [if_neg he]
    | none =>
      simp only [Option.none_or]
      rw [entries_assign, value]
      by_cases he : e.1 = k
      · rw [if_pos he, if_pos he, he]
      · rw [if_neg he, if_neg he]
        rfl

theorem entries_assignNew : entries (assignNew t k v) k' =
    if k' = k ∧ entries t k' = [] then [(k, v)] else entries t k' := by
  rw [assignNew]
  by_cases hmem : k ∈ keys t
  · rw [if_pos hmem, if_neg]
    rintro ⟨rfl, hnil⟩
    exact entries_eq_nil.mp hnil hmem
  · have hnil := entries_eq_nil.mpr hmem
    rw [if_neg hmem, entries_assign]
    by_cases hk : k = k'
    · rw [if_pos hk, hnil, ← hk, if_pos ⟨rfl, hnil⟩]
      rfl
    · rw [if_neg hk, if_neg fun h => hk h.1.symm]

end Entries

/-- No value removes the entry. -/
def put (t : List (α × β)) (k : α) : Option β → List (α × β)
  | some v => assign t k v
  | none => remove t k

section Put
variable {t : List (α × β)} {k k' : α} {v w : β}

theorem remove_assign : remove (assign t k v) k = remove t k := by
  induction t with
  | nil => exact (remove_cons _ _).trans (if_pos rfl)
  | cons e t ih =>
    rw [assign]
    by_cases he : e.1 = k
    · rw [if_pos he, remove_cons, remove_cons, if_pos rfl, if_pos he]
    · rw [if_neg he, remove_cons, remove_cons, if_neg he, if_neg he, ih]

theorem remove_put (v : Option β) : remove (put t k v) k = remove t k := by
  cases v with
  | some v => exact remove_assign
  | none =>
    apply remove_of_not_mem
    rw [put, keys_remove, List.mem_filter]
    rintro ⟨_, hne⟩
    exact of_decide_eq_true hne rfl

theorem mem_keys_put (v : Option β) (h : k' ≠ k) : k' ∈ keys (put t k v) ↔ k' ∈ keys t := by
  cases v with
  | some v =>
    rw [put, keys_assign, mem_addKey]
    exact or_iff_left h
  | none =>
    rw [put, keys_remove, List.mem_filter]
    exact and_iff_left (decide_eq_true h)

theorem value_put (v : Option β) (h : k ≠ k') : value (put t k v) k' = value t k' := by
  cases v with
  | some v => rw [put, value_assign, if_neg h]
  | none => rw [put, value_remove, if_neg h]

theorem assign_perm (h : (keys t).Nodup) : (assign t k v).Perm ((k, v) :: remove t k) := by
  induction t with
  | nil => exact .refl _
  | cons e t ih =>
    obtain ⟨hnew, hrest⟩ := List.nodup_cons.mp h
    rw [assign, remove_cons]
    by_cases he : e.1 = k
    · rw [if_pos he, if_pos he, remove_of_not_mem (he ▸ hnew)]
    · rw [if_neg he, if_neg he]
      exact ((ih hrest).cons e).trans (.swap _ _ _)

theorem value_put_self (v : Option β) : value (put t k v) k = v := by
  cases v with
  | some v => rw [put, value_assign, if_pos rfl]
  | none => rw [put, value_remove, if_pos rfl]

theorem put_perm (v : Option β) (h : (keys t).Nodup) :
    (put t k v).Perm ((v.map fun v => (k, v)).toList ++ remove t k) := by
  cases v with
  | some v => exact assign_perm h
  | none => exact .refl _

end Put

theorem mem_iff_value {t : List (α × β)} (h : (keys t).Nodup) {e : α × β} :
    e ∈ t ↔ value t e.1 = some e.2 := by
  constructor
  · intro hmem
    induction t with
    | nil => cases hmem
    | cons first t ih =>
      obtain ⟨hnew, hrest⟩ := List.nodup_cons.mp h
      rw [value]
      rcases List.mem_cons.mp hmem with rfl | hmem
      · exact if_pos rfl
      · have hkey : first.1 ≠ e.1 := fun heq => hnew (heq ▸ List.mem_map_of_mem hmem)
        rw [if_neg hkey]
        exact ih hrest hmem
  · exact mem_of_value

/-- Tables that read alike have the same entries. -/
theorem perm_of_value {t t' : List (α × β)} (h : (keys t).Nodup) (h' : (keys t').Nodup)
    (hvalue : ∀ k, value t k = value t' k) : t.Perm t' := by
  apply (List.perm_ext_iff_of_nodup (List.Nodup.of_map _ h) (List.Nodup.of_map _ h')).mpr
  intro e
  rw [mem_iff_value h, mem_iff_value h', hvalue]

universe w
variable {γ : Type w}

def Related (R : β → γ → Prop) (t : List (α × β)) (t' : List (α × γ)) : Prop :=
  List.Forall₂ (fun e e' => e.1 = e'.1 ∧ R e.2 e'.2) t t'

section Related
variable {R : β → γ → Prop} {t : List (α × β)} {t' : List (α × γ)} {k : α}

omit [DecidableEq α] in
theorem Related.keys_eq (h : Related R t t') : keys t = keys t' := by
  induction h with
  | nil => rfl
  | cons he _ ih => rw [keys_cons, keys_cons, he.1, ih]

theorem Related.value (h : Related R t t') (k : α) :
    Option.Rel R (value t k) (value t' k) := by
  induction h with
  | nil => exact .none
  | @cons e e' t t' he _ ih =>
    rw [Tables.value, Tables.value, ← he.1]
    by_cases hk : e.1 = k
    · rw [if_pos hk, if_pos hk]
      exact .some he.2
    · rw [if_neg hk, if_neg hk]
      exact ih

theorem Related.assign {v : β} {v' : γ} (h : Related R t t') (hv : R v v') :
    Related R (assign t k v) (assign t' k v') := by
  induction h with
  | nil => exact .cons ⟨rfl, hv⟩ .nil
  | @cons e e' t t' he ht ih =>
    rw [Tables.assign, Tables.assign, ← he.1]
    by_cases hk : e.1 = k
    · rw [if_pos hk, if_pos hk]
      exact .cons ⟨rfl, hv⟩ ht
    · rw [if_neg hk, if_neg hk]
      exact .cons he ih

theorem Related.remove (h : Related R t t') : Related R (remove t k) (remove t' k) := by
  induction h with
  | nil => exact .nil
  | @cons e e' t t' he ht ih =>
    rw [remove_cons, remove_cons, ← he.1]
    by_cases hk : e.1 = k
    · rw [if_pos hk, if_pos hk]
      exact ih
    · rw [if_neg hk, if_neg hk]
      exact .cons he ih

theorem Related.put {v : Option β} {v' : Option γ} (h : Related R t t') (hv : Option.Rel R v v') :
    Related R (put t k v) (put t' k v') := by
  cases hv with
  | some hv => exact h.assign hv
  | none => exact h.remove

end Related

/-- A table holds every key once. -/
structure Table (α : Type u) (β : Type v) where
  pairs : List (α × β)
  nodup : (keys pairs).Nodup

namespace Table

def empty : Table α β := ⟨[], List.nodup_nil⟩

def get (t : Table α β) (k : α) : Option β := value t.pairs k

theorem get_isSome {t : Table α β} {k : α} : (t.get k).isSome = true ↔ k ∈ keys t.pairs :=
  value_isSome

/-- An assignment of no value removes the entry. -/
def set (t : Table α β) (k : α) : Option β → Table α β
  | some v => ⟨assign t.pairs k v, nodup_assign t.nodup⟩
  | none => ⟨remove t.pairs k, t.nodup.sublist (keys_filter_sublist _)⟩

theorem pairs_set (t : Table α β) (k : α) (v : Option β) : (t.set k v).pairs = put t.pairs k v := by
  cases v <;> rfl

theorem get_set (t : Table α β) (k k' : α) (v : Option β) :
    (t.set k v).get k' = if k = k' then v else t.get k' := by
  rw [get, pairs_set]
  split
  · next hkey => rw [← hkey, value_put_self]
  · next hkey => exact value_put v hkey

def setAll (t : Table α β) (es : List (α × β)) : Table α β :=
  es.foldl (fun t e => t.set e.1 (some e.2)) t

theorem pairs_setAll (t : Table α β) (es : List (α × β)) :
    (t.setAll es).pairs = assignAll t.pairs es := by
  induction es generalizing t with
  | nil => rfl
  | cons e es ih => exact ih (t.set e.1 (some e.2))

end Table

end Tables
