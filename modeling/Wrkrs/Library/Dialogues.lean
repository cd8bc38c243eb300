import Wrkrs.Library.Runs

/-!
# Dialogues with a server

A computation that asks a server questions, each with answers of a type of its own, and
goes on with every answer. The server answers from a state that questions may change. What
the server keeps at every answer holds after the whole dialogue, and what it answers under
it holds of every exchange.
-/

namespace Dialogues

set_option autoImplicit false

open Runs

universe u v w x
variable {Q : Type u} {A : Q → Type v} {ρ τ : Type w} {σ : Type x}

/-- A computation that ends or asks a question. -/
inductive Dialogue (Q : Type u) (A : Q → Type v) (ρ : Type w) where
  | ends (result : ρ)
  | asks (question : Q) (next : A question → Dialogue Q A ρ)

/-- An answered question. -/
abbrev Exchange (Q : Type u) (A : Q → Type v) := (q : Q) × A q

abbrev Server (Q : Type u) (A : Q → Type v) (σ : Type x) := σ → (q : Q) → A q × σ

namespace Dialogue

def run (serve : Server Q A σ) : Dialogue Q A ρ → σ → ρ × σ
  | ends result, s => (result, s)
  | asks q next, s => (next (serve s q).1).run serve (serve s q).2

def log (serve : Server Q A σ) : Dialogue Q A ρ → σ → List (Exchange Q A)
  | ends _, _ => []
  | asks q next, s => ⟨q, (serve s q).1⟩ :: (next (serve s q).1).log serve (serve s q).2

def bind (d : Dialogue Q A ρ) (f : ρ → Dialogue Q A τ) : Dialogue Q A τ :=
  match d with
  | ends result => f result
  | asks q next => asks q fun a => (next a).bind f

def map (f : ρ → τ) (d : Dialogue Q A ρ) : Dialogue Q A τ := d.bind fun result => ends (f result)

variable {serve : Server Q A σ}

@[simp] theorem run_ends (result : ρ) (s : σ) :
    (ends result : Dialogue Q A ρ).run serve s = (result, s) := rfl

@[simp] theorem run_asks (q : Q) (next : A q → Dialogue Q A ρ) (s : σ) :
    (asks q next).run serve s = (next (serve s q).1).run serve (serve s q).2 := rfl

@[simp] theorem log_ends (result : ρ) (s : σ) :
    (ends result : Dialogue Q A ρ).log serve s = [] := rfl

@[simp] theorem log_asks (q : Q) (next : A q → Dialogue Q A ρ) (s : σ) :
    (asks q next).log serve s =
      ⟨q, (serve s q).1⟩ :: (next (serve s q).1).log serve (serve s q).2 := rfl

theorem run_bind (d : Dialogue Q A ρ) (f : ρ → Dialogue Q A τ) (s : σ) :
    (d.bind f).run serve s = (f (d.run serve s).1).run serve (d.run serve s).2 := by
  induction d generalizing s with
  | ends result => rfl
  | asks q next ih => exact ih _ _

theorem log_bind (d : Dialogue Q A ρ) (f : ρ → Dialogue Q A τ) (s : σ) :
    (d.bind f).log serve s =
      d.log serve s ++ (f (d.run serve s).1).log serve (d.run serve s).2 := by
  induction d generalizing s with
  | ends result => rfl
  | asks q next ih => exact congrArg (_ :: ·) (ih _ _)

@[simp] theorem run_map (f : ρ → τ) (d : Dialogue Q A ρ) (s : σ) :
    (d.map f).run serve s = (f (d.run serve s).1, (d.run serve s).2) := run_bind _ _ _

/-- What every answer keeps, a dialogue keeps. -/
theorem run_kept {I : σ → Prop} (hserve : ∀ s q, I s → I (serve s q).2) (d : Dialogue Q A ρ)
    {s : σ} (hs : I s) : I (d.run serve s).2 := by
  induction d generalizing s with
  | ends result => exact hs
  | asks q next ih => exact ih _ (hserve s q hs)

/-- A server that answers from an image of another's state as that one does serves every
dialogue as that one does. -/
theorem run_simulated {σ' : Type x} {serve' : Server Q A σ'} (f : σ' → σ)
    (hserve : ∀ s q, serve (f s) q = ((serve' s q).1, f (serve' s q).2)) (d : Dialogue Q A ρ)
    (s : σ') : d.run serve (f s) = ((d.run serve' s).1, f (d.run serve' s).2) := by
  induction d generalizing s with
  | ends result => rfl
  | asks q next ih =>
    rw [run_asks, run_asks, hserve]
    exact ih _ _

/-- What holds of every exchange with a server, given those before it. -/
theorem log_each {I : List (Exchange Q A) → σ → Prop}
    {P : List (Exchange Q A) → Exchange Q A → Prop}
    (hserve : ∀ past s q, I past s →
      P past ⟨q, (serve s q).1⟩ ∧ I (past ++ [⟨q, (serve s q).1⟩]) (serve s q).2)
    (d : Dialogue Q A ρ) {past : List (Exchange Q A)} {s : σ} (hpast : Each P past)
    (hs : I past s) :
    Each P (past ++ d.log serve s) ∧ I (past ++ d.log serve s) (d.run serve s).2 := by
  induction d generalizing past s with
  | ends result =>
    rw [log_ends, List.append_nil]
    exact ⟨hpast, hs⟩
  | asks q next ih =>
    obtain ⟨hexchange, hnext⟩ := hserve past s q hs
    have hrest := ih (serve s q).1 (each_append hpast hexchange) hnext
    rw [List.append_assoc, List.singleton_append] at hrest
    exact hrest

end Dialogue

end Dialogues
