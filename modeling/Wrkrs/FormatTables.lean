import Wrkrs.Config
import Wrkrs.Library.Tables

/-!
# Header rules as table operations

Overlays, the default Host and the rule for Content-Length are assignments and removals.
-/

namespace Wrkrs

set_option autoImplicit false

open Text Machine Tables

section Rules
variable {headers : Headers} {name value : Str}

theorem findIdx_name : (headers.findIdx? fun entry => entry.1 == name) = none ↔
    name ∉ keys headers := by
  rw [List.findIdx?_eq_none_iff]
  constructor
  · intro h hmem
    obtain ⟨entry, hentry, rfl⟩ := List.mem_map.mp hmem
    have hother := h entry hentry
    rw [beq_self_eq_true] at hother
    cases hother
  · intro h entry hentry
    exact beq_eq_false_iff_ne.mpr fun heq => h (heq ▸ List.mem_map_of_mem hentry)

theorem assign_first :
    (match headers.findIdx? (fun entry => entry.1 == name) with
      | some index => headers.modify index fun entry => (entry.1, value)
      | none => headers ++ [(name, value)]) = assign headers name value := by
  induction headers with
  | nil => rfl
  | cons entry headers ih =>
    rw [assign, List.findIdx?_cons]
    by_cases hname : entry.1 = name
    · rw [if_pos (beq_iff_eq.mpr hname), if_pos hname]
      simp [hname]
    · rw [if_neg fun h => hname (eq_of_beq h), if_neg hname, ← ih]
      cases headers.findIdx? (fun entry => entry.1 == name) <;> rfl

theorem setHeader_eq (headers : Headers) (entry : Str × Str) :
    setHeader headers entry = assign headers entry.1 entry.2 := assign_first

theorem overlay_eq (base layer : Headers) : overlay base layer = assignAll base layer := by
  rw [overlay, assignAll]
  congr 1
  funext headers entry
  exact setHeader_eq headers entry

theorem applyContentLength_some (headers : Headers) (length : Nat) :
    applyContentLength headers (some length) =
      assign headers contentLengthName (decimal length) := by
  rw [← assign_first]
  unfold applyContentLength
  cases headers.findIdx? (fun entry => entry.1 == contentLengthName) <;> rfl

theorem applyContentLength_none (headers : Headers) :
    applyContentLength headers none = remove headers contentLengthName := by
  unfold applyContentLength
  cases h : headers.findIdx? (fun entry => entry.1 == contentLengthName) with
  | none => exact (remove_of_not_mem (findIdx_name.mp h)).symm
  | some index =>
    refine List.filter_congr fun entry _ => ?_
    rw [bne, Bool.eq_iff_iff]
    simp

theorem any_name :
    (headers.any fun entry => entry.1 == name) = decide (name ∈ keys headers) := by
  rw [Bool.eq_iff_iff, List.any_eq_true, decide_eq_true_eq]
  constructor
  · rintro ⟨entry, hentry, hname⟩
    exact eq_of_beq hname ▸ List.mem_map_of_mem hentry
  · intro hmem
    obtain ⟨entry, hentry, hname⟩ := List.mem_map.mp hmem
    exact ⟨entry, hentry, beq_iff_eq.mpr hname⟩

theorem addHost_some (headers : Headers) (host : Str) :
    addHost headers (some host) = assignNew headers hostName host := by
  rw [addHost, any_name, assignNew]
  by_cases hmem : hostName ∈ keys headers
  · rw [decide_eq_true hmem, if_pos rfl, if_pos hmem]
  · rw [decide_eq_false hmem, if_neg Bool.false_ne_true, if_neg hmem, ← assign_first,
      findIdx_name.mpr hmem]

/-- What a formatter does to headers, for a body or none. -/
def withLength (headers : Headers) : Option Bytes → Headers
  | some body => assign headers contentLengthName (decimal body.length)
  | none => remove headers contentLengthName

theorem effectiveHeaders_put (headers : Headers) (body : Option Bytes) (host : Option Str) :
    effectiveHeaders headers body host =
      put (addHost headers host) contentLengthName
        (body.map fun bytes => decimal bytes.length) := by
  cases body with
  | none => exact applyContentLength_none _
  | some body => exact applyContentLength_some _ body.length

theorem effectiveHeaders_eq (headers : Headers) (body : Option Bytes) (host : Str) :
    effectiveHeaders headers body (some host) =
      withLength (assignNew headers hostName host) body := by
  rw [effectiveHeaders_put, addHost_some]
  cases body <;> rfl

end Rules

end Wrkrs
