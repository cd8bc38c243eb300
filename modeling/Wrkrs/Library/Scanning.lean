import Mathlib.Data.List.Basic

/-!
# Scans

A scan reads a list from left to right with a state and the index of the element at
hand, and may give up at any element. What holds of the part read so far is shown by one
element at a time; a stretch on which the state only moves along is read at once.
-/

namespace Scanning

set_option autoImplicit false

universe u v
variable {β : Type u} {σ : Type v} {step : Nat → σ → β → Option σ}

def scan (step : Nat → σ → β → Option σ) : Nat → σ → List β → Option σ
  | _, s, [] => some s
  | index, s, b :: bs => (step index s b).bind fun s => scan step (index + 1) s bs

@[simp] theorem scan_nil (index : Nat) (s : σ) : scan step index s [] = some s := rfl

@[simp] theorem scan_cons (index : Nat) (s : σ) (b : β) (bs : List β) :
    scan step index s (b :: bs) =
      (step index s b).bind fun s => scan step (index + 1) s bs := rfl

theorem scan_append (index : Nat) (s : σ) (as bs : List β) :
    scan step index s (as ++ bs) =
      (scan step index s as).bind fun s => scan step (index + as.length) s bs := by
  induction as generalizing index s with
  | nil => rfl
  | cons a as ih =>
    simp only [List.cons_append, scan_cons, Option.bind_assoc, List.length_cons]
    refine congrArg _ (funext fun s => ?_)
    rw [ih, Nat.add_assoc, Nat.add_comm 1]

theorem scan_map {α : Type u} (f : α → β) (index : Nat) (s : σ) (as : List α) :
    scan step index s (as.map f) = scan (fun index s a => step index s (f a)) index s as := by
  induction as generalizing index s with
  | nil => rfl
  | cons a as ih => simp only [List.map_cons, scan_cons, ih]

/-- What one element keeps of the part read so far, the scan keeps. -/
theorem scan_history {I : List β → σ → Prop} (base : Nat) {past bs : List β} {s t : σ}
    (hstart : I past s)
    (hstep : ∀ {past : List β} {s : σ} {b : β} {t : σ}, b ∈ bs → I past s →
      step (base + past.length) s b = some t → I (past ++ [b]) t)
    (h : scan step (base + past.length) s bs = some t) : I (past ++ bs) t := by
  induction bs generalizing past s with
  | nil =>
    rw [scan_nil] at h
    rw [List.append_nil, ← Option.some.inj h]
    exact hstart
  | cons b bs ih =>
    obtain ⟨m, hm, hrest⟩ := Option.bind_eq_some_iff.mp h
    have hnext : I (past ++ [b] ++ bs) t :=
      ih (hstep List.mem_cons_self hstart hm) (fun hc => hstep (List.mem_cons_of_mem _ hc))
        (by rw [List.length_append]; exact hrest)
    rwa [List.append_assoc] at hnext

theorem scan_forall {P : β → Prop} (hP : ∀ {index s b t}, step index s b = some t → P b)
    {index : Nat} {s t : σ} {bs : List β} (h : scan step index s bs = some t) : ∀ b ∈ bs, P b := by
  induction bs generalizing index s with
  | nil =>
    intro b hb
    cases hb
  | cons c bs ih =>
    obtain ⟨m, hm, hrest⟩ := Option.bind_eq_some_iff.mp h
    exact List.forall_mem_cons.mpr ⟨hP hm, ih hrest⟩

theorem scan_along (P : β → Prop) (state : Nat → σ) {bs : List β} (index : Nat)
    (hstep : ∀ index b, P b → step index (state index) b = some (state (index + 1)))
    (hP : ∀ b ∈ bs, P b) :
    scan step index (state index) bs = some (state (index + bs.length)) := by
  induction bs generalizing index with
  | nil => rfl
  | cons b bs ih =>
    obtain ⟨hb, hbs⟩ := List.forall_mem_cons.mp hP
    rw [scan_cons, hstep index b hb, Option.bind_some, ih (index + 1) hbs, List.length_cons,
      Nat.add_assoc, Nat.add_comm 1]

theorem scan_enter (P : β → Prop) {s : σ} (state : Nat → σ) {bs : List β} (index : Nat)
    (hfirst : ∀ b, P b → step index s b = some (state (index + 1)))
    (hstep : ∀ index b, P b → step index (state index) b = some (state (index + 1)))
    (hne : bs ≠ []) (hP : ∀ b ∈ bs, P b) :
    scan step index s bs = some (state (index + bs.length)) := by
  obtain ⟨b, bs, rfl⟩ := List.exists_cons_of_ne_nil hne
  obtain ⟨hb, hbs⟩ := List.forall_mem_cons.mp hP
  rw [scan_cons, hfirst b hb, Option.bind_some, scan_along P state (index + 1) hstep hbs,
    List.length_cons, Nat.add_assoc, Nat.add_comm 1]

end Scanning
