import ForkJoin.Calling

/-!
# Cutting two runs for merging

Two runs can be merged in two parts that have nothing to do with each other: the longer run is cut
in the middle, and the other where the element there belongs in it. An element of the right run
that equals one of the left belongs behind it, so a cut of the left run puts equal elements of the
right one behind the cut, and a cut of the right run puts equal elements of the left one before it.

The place is found by halving an interval, with a probe at each step. The probes need not be
consistent with each other; a place within the run is found whatever they answer, so what is cut
off is not everything, and `Cut.shrinks` bounds the number of cuts.
-/
namespace ForkJoin.Sorting

variable {α β : Type}

/-- Halves the interval of `size` positions from `base` on until one is left: goes to the upper
part if the probe at its start holds. -/
def halve (probe : Nat → Calling α β Bool) (base size : Nat) (h : 0 < size) :
    Calling α β { k : Nat // k < base + size } :=
  if hs : size ≤ 1 then .done ⟨base, by omega⟩
  else do
    if ← probe (base + size / 2) then
      let ⟨k, hk⟩ ← halve probe (base + size / 2) (size - size / 2) (by omega)
      return ⟨k, by omega⟩
    else
      let ⟨k, hk⟩ ← halve probe base (size - size / 2) (by omega)
      return ⟨k, by omega⟩
termination_by size

/-- The number of leading positions of `n` at which the probe holds, if it holds at no later one
(`partition_point`). -/
def partitionPoint (probe : Nat → Calling α β Bool) (n : Nat) :
    Calling α β { k : Nat // k ≤ n } :=
  if h : n = 0 then .done ⟨0, by omega⟩
  else do
    let ⟨k, hk⟩ ← halve probe 0 n (by omega)
    if ← probe k then return ⟨k + 1, by omega⟩ else return ⟨k, by omega⟩

/-- Where two runs of `ln` and `rn` elements are cut: the lengths of what stays before the cut. -/
structure Cut (ln rn : Nat) where
  left : Nat
  right : Nat
  left_le : left ≤ ln
  right_le : right ≤ rn
  /-- The part before the cut is shorter than the whole. -/
  shrinks : left + right < ln + rn

/-- What is longer than the granularity is not empty, and loses something where it is cut. -/
theorem Cut.half_add_lt {granularity ln rn k : Nat} (h : ¬ ln ≤ granularity) (hk : k ≤ rn) :
    ln / 2 + k < ln + rn := by
  omega

theorem Cut.add_half_lt {granularity ln rn k : Nat} (h : ¬ rn ≤ granularity) (hk : k ≤ ln) :
    k + rn / 2 < ln + rn := by
  omega

/-- Compares an element with the one at a position. -/
def compareAt (item : α) (run : Array α) (i : Nat) : Calling α Ordering Ordering :=
  match run[i]? with
  | some x => Calling.ask item x
  | none => .fault .outOfBounds

/-- Where to cut the first `ln` and `rn` elements of two runs; nowhere if the longer of them is no
longer than the granularity. This is one turn of the loop of `Merger`. -/
def cut? (granularity : Nat) (left right : Array α) (ln rn : Nat) :
    Calling α Ordering (Option (Cut ln rn)) :=
  if rn ≤ ln then
    if hg : ln ≤ granularity then .done none
    else match left[ln / 2]? with
      | none => .fault .outOfBounds
      | some item => do
        let ⟨k, hk⟩ ← partitionPoint (fun i => (· == .gt) <$> compareAt item right i) rn
        return some ⟨ln / 2, k, Nat.div_le_self ln 2, hk, Cut.half_add_lt hg hk⟩
  else
    if hg : rn ≤ granularity then .done none
    else match right[rn / 2]? with
      | none => .fault .outOfBounds
      | some item => do
        let ⟨k, hk⟩ ← partitionPoint (fun i => (· != .lt) <$> compareAt item left i) ln
        return some ⟨k, rn / 2, hk, Nat.div_le_self rn 2, Cut.add_half_lt hg hk⟩

end ForkJoin.Sorting
