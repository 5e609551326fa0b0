/-!
# Tuning

How finely work is cut is set by three positive 64-bit numbers. From them and the length of the
window follow the two sizes the kernels use: the length up to which a scan leaves a span whole,
and the length up to which a sort does. Both shrink with the number of workers, and the number of
pieces that the work of all of them is cut into is a product that stops at the largest 64-bit
number.
-/
namespace ForkJoin

/-- A positive number of 64 bits. -/
structure Count where
  val : Nat
  pos : 0 < val := by decide
  lt : val < UInt64.size := by decide
  deriving DecidableEq

namespace Count

/-- The largest number of 64 bits, at which products stop. -/
def limit : Nat := UInt64.size - 1

/-- Reads a number, unless it is zero or too large. -/
def ofNat? (n : Nat) : Option Count :=
  if h : 0 < n ∧ n < UInt64.size then some ⟨n, h.1, h.2⟩ else none

theorem ofNat?_val (c : Count) : ofNat? c.val = some c := by
  rw [ofNat?, dif_pos ⟨c.pos, c.lt⟩]

/-- A count `k` times over, or the limit if that is less (`saturating_mul`). -/
def times (c : Count) (k : Nat) : Nat := min (c.val * k) limit

theorem times_pos (c : Count) {k : Nat} (h : 0 < k) : 0 < c.times k := by
  have := Nat.mul_pos c.pos h
  unfold times limit UInt64.size
  omega

end Count

/-- The knobs of the kernels (`Config`). -/
structure Tuning where
  /-- The number of workers that the work is cut for. -/
  parallelism : Count
  /-- A scan never cuts a span of at most this length. -/
  minPartition : Count
  /-- A sort never cuts a span of at most this length. -/
  minSortGranularity : Count
  deriving DecidableEq

namespace Tuning

/-! ## Knobs -/

/-- The name of a knob. -/
inductive Knob where
  | parallelism
  | minPartition
  | minSortGranularity
  deriving DecidableEq

def get (c : Tuning) : Knob → Count
  | .parallelism => c.parallelism
  | .minPartition => c.minPartition
  | .minSortGranularity => c.minSortGranularity

/-- Turns one knob and leaves the others (`with_parallelism` and its like). -/
def set (c : Tuning) (knob : Knob) (n : Count) : Tuning :=
  match knob with
  | .parallelism => { c with parallelism := n }
  | .minPartition => { c with minPartition := n }
  | .minSortGranularity => { c with minSortGranularity := n }

theorem get_set (c : Tuning) (knob other : Knob) (n : Count) :
    (c.set knob n).get other = if other = knob then n else c.get other := by
  cases knob <;> cases other <;> rfl

/-- Turns knobs one after another. -/
def setAll (c : Tuning) (settings : List (Knob × Count)) : Tuning :=
  settings.foldl (fun c (knob, n) => c.set knob n) c

/-- The tunings that turning knobs one after another passes through, from `c` on. -/
def course (c : Tuning) : List (Knob × Count) → List Tuning
  | [] => [c]
  | (knob, n) :: settings => c :: (c.set knob n).course settings

theorem getLast?_course (c : Tuning) (settings : List (Knob × Count)) :
    (c.course settings).getLast? = some (c.setAll settings) := by
  induction settings generalizing c with
  | nil => rfl
  | cons setting settings ih =>
    obtain ⟨knob, n⟩ := setting
    rw [course, List.getLast?_cons, ih]
    rfl

/-- The tuning for a pool of `threads` workers (`default`). -/
def ofThreads (threads : Count) : Tuning where
  parallelism := threads
  minPartition := { val := 16 }
  minSortGranularity := { val := 8192 }

/-! ## Sizes -/

/-- The length up to which a scan of `len` elements leaves a span whole: an eighth of a worker's
share, but at least the minimum (`prefix_threshold`). -/
def scanThreshold (c : Tuning) (len : Nat) : Nat :=
  max (len / c.parallelism.times 8) c.minPartition.val

theorem scanThreshold_pos (c : Tuning) (len : Nat) : 0 < c.scanThreshold len := by
  have := c.minPartition.pos
  unfold scanThreshold
  omega

/-- The length up to which a sort of `len` elements leaves a span whole: a quarter of a worker's
share, but at least the minimum. A window of at most the minimum is not cut at all, and neither
is any window if there is one worker only (`sort_granularity`). -/
def sortGranularity? (c : Tuning) (len : Nat) : Option Nat :=
  if len ≤ c.minSortGranularity.val ∨ c.parallelism.val = 1 then none
  else some (max (len / c.parallelism.times 4) c.minSortGranularity.val)

theorem sortGranularity?_pos {c : Tuning} {len g : Nat} (h : c.sortGranularity? len = some g) :
    0 < g := by
  have := c.minSortGranularity.pos
  unfold sortGranularity? at h
  split at h
  · cases h
  · cases h; omega

end Tuning

end ForkJoin
