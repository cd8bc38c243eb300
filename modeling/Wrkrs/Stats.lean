import Wrkrs.Library.Machine

/-!
# The latency histogram

Buckets over the values below a limit, as one thread sees them. The counters are
machine words and wrap; the floating point rank of a percentile is an argument.
-/

namespace Wrkrs

set_option autoImplicit false

open Machine

/-- A histogram has one bucket for every value below its limit. -/
structure Histogram where
  count : UInt64
  min : Nat
  max : Nat
  limit : Nat
  data : List UInt64
  buckets : data.length = limit
  deriving DecidableEq

namespace Histogram

def new (max : Nat) : Histogram where
  count := 0
  min := word - 1
  max := 0
  limit := (max + 1) % word
  data := List.replicate ((max + 1) % word) 0
  buckets := List.length_replicate

def alloc (max : Nat) : Except Fault Histogram :=
  if 8 * ((max + 1) % word) ≤ vecMax then .ok (new max) else .error .capacity

def record (h : Histogram) (value : Nat) : Bool × Histogram :=
  if h.limit ≤ value then (false, h)
  else
    (true,
      { h with
        count := h.count + 1
        min := if value < h.min then value else h.min
        max := if h.max < value then value else h.max
        data := h.data.modify value (· + 1)
        buckets := by rw [List.length_modify, h.buckets] })

def bucket (h : Histogram) (index : Nat) : Except Fault UInt64 :=
  match h.data[index]? with
  | some count => .ok count
  | none => .error .slice

def range (h : Histogram) : List Nat := List.range' h.min (h.max + 1 - h.min)

def percentileFrom (h : Histogram) (build : Build) (rank : Nat) :
    Nat → List Nat → Except Fault Nat
  | _, [] => .ok 0
  | total, index :: rest => do
    let count ← h.bucket index
    let total ← build.add total count.toNat
    if rank ≤ total then return index else percentileFrom h build rank total rest

/-- The value at a rank, zero when the rank never fills. -/
def percentile (h : Histogram) (build : Build) (rank : Nat) : Except Fault Nat :=
  h.percentileFrom build rank 0 h.range

def popcountFrom (h : Histogram) : Nat → List Nat → Except Fault Nat
  | count, [] => .ok count
  | count, index :: rest => do
    let held ← h.bucket index
    popcountFrom h (if held ≠ 0 then count + 1 else count) rest

def popcount (h : Histogram) : Except Fault Nat := h.popcountFrom 0 h.range

def valueAtFrom (h : Histogram) (index : Nat) : Nat → List Nat → Except Fault (Nat × Nat)
  | count, [] => .ok (0, count)
  | count, slot :: rest => do
    let held ← h.bucket slot
    if held ≠ 0 then
      if count = index then return (slot, held.toNat)
      else valueAtFrom h index (count + 1) rest
    else valueAtFrom h index count rest

/-- The value and its count at an occupied slot; past the last one zero and the number
of occupied slots. -/
def valueAt (h : Histogram) (index : Nat) : Except Fault (Nat × Nat) :=
  h.valueAtFrom index 0 h.range

def add (h : Histogram) (index : Nat) (count : UInt64) : Except Fault Histogram :=
  if index < h.limit then
    .ok { h with
      count := h.count + count
      data := h.data.modify index (· + count)
      buckets := by rw [List.length_modify, h.buckets] }
  else .error .slice

/-- Mirrors a count down in steps while above the step. -/
def mirror (step : Nat) (count : UInt64) : Nat → Nat → Histogram → Except Fault Histogram
  | 0, _, h => .ok h
  | fuel + 1, index, h =>
    if step < index then do
      let h ← h.add index count
      mirror step count fuel (index - step) h
    else .ok h

def correctFrom (step : Nat) : List Nat → Histogram → Except Fault Histogram
  | [], h => .ok h
  | value :: rest, h => do
    let count ← h.bucket value
    let h ← if count ≠ 0 then mirror step count value (value - step) h else .ok h
    correctFrom step rest h

/-- The coordinated omission correction; a nonpositive interval is a no-op. -/
def correct (h : Histogram) (expected : Int64) : Except Fault Histogram :=
  if expected ≤ 0 then .ok h
  else
    let step := expected.toInt.toNat
    correctFrom step (List.range' (2 * step) (h.max + 1 - 2 * step)) h

end Histogram

end Wrkrs
