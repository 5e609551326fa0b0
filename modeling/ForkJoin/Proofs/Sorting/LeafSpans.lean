import Mathlib.Tactic.Ring
import ForkJoin.Span
import ForkJoin.Tuning

/-!
# The leaves of a parallel sort

A span longer than the granularity `g` is cut in quarters, and so is every quarter that is still too
long. Quarters are not equal, and of a very short span some are empty, but the longest has at most two
elements more than the shortest. So a leaf has a quarter of `g + 1` elements at least, and where one
quarter is cut again the others have nearly `g` elements themselves: of `n` elements there are no more
than `4 * n / (g + 1)` leaves, unless `g` is 1.
-/
namespace ForkJoin

namespace Tuning

/-- What is cut is longer than the granularity. -/
theorem sortGranularity?_lt {c : Tuning} {len g : Nat}
    (h : c.sortGranularity? len = some g) : g < len := by
  unfold sortGranularity? at h
  split at h
  · cases h
  · rename_i hcut
    obtain ⟨hlen, hworkers⟩ := not_or.1 hcut
    cases h
    have := c.parallelism.pos
    have htimes : 1 < c.parallelism.times 4 := by
      unfold Count.times Count.limit UInt64.size
      omega
    have := Nat.div_lt_self (by omega : 0 < len) htimes
    omega

/-- A quarter of a worker's share is at most the granularity. -/
theorem lt_times_mul_of_sortGranularity? {c : Tuning} {len g : Nat}
    (h : c.sortGranularity? len = some g) : len < c.parallelism.times 4 * (g + 1) := by
  have htimes := c.parallelism.times_pos (by decide : 0 < 4)
  unfold sortGranularity? at h
  split at h
  · cases h
  · cases h
    calc len < c.parallelism.times 4 * (len / c.parallelism.times 4 + 1) :=
        Nat.lt_mul_div_succ len htimes
      _ ≤ _ := Nat.mul_le_mul_left _ (Nat.succ_le_succ (Nat.le_max_left _ _))

end Tuning

namespace Sorting

/-- The spans lie one behind the other, from `a` on and up to `b`; some may be empty. -/
def Tiles (a : Nat) : List Span → Nat → Prop
  | [], b => a = b
  | l :: ls, b => l.start = a ∧ Tiles l.stop ls b

theorem Tiles.append {a b c : Nat} {ls ls' : List Span} (h : Tiles a ls b) (h' : Tiles b ls' c) :
    Tiles a (ls ++ ls') c := by
  induction ls generalizing a with
  | nil =>
    obtain rfl := h
    exact h'
  | cons l ls ih => exact ⟨h.1, ih h.2⟩

/-- The spans that are sorted by one worker each, in the array and in the workspace, for the sort of
`len` elements from `start` and `scratch` on. -/
def leafJobs (g : Nat) (hg : 0 < g) (start scratch len : Nat) : List (Span × Span) :=
  if g < len then
    let half := len / 2
    let quarter := half / 2
    let high := half + quarter
    leafJobs g hg start scratch quarter ++
      leafJobs g hg (start + quarter) (scratch + quarter) (half - quarter) ++
      (leafJobs g hg (start + half) (scratch + half) quarter ++
        leafJobs g hg (start + high) (scratch + high) (len - high))
  else [(⟨start, len⟩, ⟨scratch, len⟩)]
termination_by len

variable {g start scratch len : Nat} {hg : 0 < g}

/-- **The leaves cover the array without gaps and without overlaps.** -/
theorem tiles_leafJobs (g : Nat) (hg : 0 < g) (start scratch len : Nat) :
    Tiles start ((leafJobs g hg start scratch len).map Prod.fst) (start + len) := by
  fun_induction leafJobs g hg start scratch len with
  | case1 start scratch len hlong half quarter high ih₁ ih₂ ih₃ ih₄ =>
    rw [Nat.add_assoc] at ih₃
    have hlower := ih₁.append ih₂
    have hupper := ih₃.append ih₄
    rw [show start + quarter + (half - quarter) = start + half by omega] at hlower
    rw [show start + high + (len - high) = start + len by omega] at hupper
    simp only [List.map_append]
    exact hlower.append hupper
  | case2 start scratch len hshort => exact ⟨rfl, rfl⟩

/-- Of each leaf, the span of the workspace is as long as that of the array, and as far from the start. -/
theorem scratch_of_mem_leafJobs {job : Span × Span} (h : job ∈ leafJobs g hg start scratch len) :
    job.2.len = job.1.len ∧ job.2.start + start = job.1.start + scratch := by
  fun_induction leafJobs g hg start scratch len with
  | case1 start scratch len hlong half quarter high ih₁ ih₂ ih₃ ih₄ =>
    simp only [List.mem_append] at h
    rcases h with (h | h) | h | h
    · exact ih₁ h
    · have := ih₂ h
      omega
    · have := ih₃ h
      omega
    · have := ih₄ h
      omega
  | case2 start scratch len hshort =>
    obtain rfl := List.mem_singleton.1 h
    exact ⟨rfl, Nat.add_comm scratch start⟩

/-- **A leaf is no longer than the granularity**, and no shorter than a quarter of what is. -/
theorem len_of_mem_leafJobs {job : Span × Span} (h : job ∈ leafJobs g hg start scratch len) :
    min len ((g + 1) / 4) ≤ job.1.len ∧ job.1.len ≤ g := by
  fun_induction leafJobs g hg start scratch len with
  | case1 start scratch len hlong half quarter high ih₁ ih₂ ih₃ ih₄ =>
    simp only [List.mem_append] at h
    rcases h with (h | h) | h | h
    · have := ih₁ h
      omega
    · have := ih₂ h
      omega
    · have := ih₃ h
      omega
    · have := ih₄ h
      omega
  | case2 start scratch len hshort =>
    obtain rfl := List.mem_singleton.1 h
    exact ⟨Nat.min_le_left _ _, Nat.le_of_not_lt hshort⟩

theorem length_leafJobs_of_le (h : len ≤ g) : (leafJobs g hg start scratch len).length = 1 := by
  rw [leafJobs, if_neg (Nat.not_lt.2 h), List.length_singleton]

theorem length_leafJobs_pos (g : Nat) (hg : 0 < g) (start scratch len : Nat) :
    0 < (leafJobs g hg start scratch len).length := by
  fun_induction leafJobs g hg start scratch len with
  | case1 start scratch len hlong half quarter high ih₁ ih₂ ih₃ ih₄ =>
    rw [List.length_append, List.length_append]
    omega
  | case2 start scratch len hshort => exact Nat.one_pos

/-- What is cut has at least four leaves. -/
theorem four_le_length_leafJobs (hlong : g < len) :
    4 ≤ (leafJobs g hg start scratch len).length := by
  rw [leafJobs, if_pos hlong]
  simp only [List.length_append]
  have h₁ := length_leafJobs_pos g hg start scratch (len / 2 / 2)
  have h₂ := length_leafJobs_pos g hg (start + len / 2 / 2) (scratch + len / 2 / 2)
    (len / 2 - len / 2 / 2)
  have h₃ := length_leafJobs_pos g hg (start + len / 2) (scratch + len / 2) (len / 2 / 2)
  have h₄ := length_leafJobs_pos g hg (start + (len / 2 + len / 2 / 2))
    (scratch + (len / 2 + len / 2 / 2)) (len - (len / 2 + len / 2 / 2))
  omega

/-- A quarter is cut again, or it is a leaf. -/
theorem leafJobs_share (h : g < len → (leafJobs g hg start scratch len).length * (g + 1) ≤ 4 * len) :
    g < len ∧ (leafJobs g hg start scratch len).length * (g + 1) ≤ 4 * len ∨
      len ≤ g ∧ (leafJobs g hg start scratch len).length * (g + 1) = g + 1 := by
  by_cases hlong : g < len
  · exact .inl ⟨hlong, h hlong⟩
  · have hshort := Nat.le_of_not_lt hlong
    exact .inr ⟨hshort, by rw [length_leafJobs_of_le hshort, Nat.one_mul]⟩

/-- **There are few leaves.** If no quarter is cut again there are four. If one is, the others are at
most two elements shorter, so a quarter that is a leaf has its share of them. -/
theorem length_leafJobs_mul_le (hg₂ : 2 ≤ g) (h : g < len) :
    (leafJobs g hg start scratch len).length * (g + 1) ≤ 4 * len := by
  fun_induction leafJobs g hg start scratch len with
  | case1 start scratch len hlong half quarter high ih₁ ih₂ ih₃ ih₄ =>
    have h₁ := leafJobs_share ih₁
    have h₂ := leafJobs_share ih₂
    have h₃ := leafJobs_share ih₃
    have h₄ := leafJobs_share ih₄
    -- next to a quarter of more than `g` elements, a leaf has `g - 1`: four times that is `g + 1`
    simp only [List.length_append, Nat.add_mul]
    omega
  | case2 start scratch len hshort => exact absurd h hshort

/-! ## All leaves -/

/-- The leaves of `n` elements. -/
def leaves (g : Nat) (hg : 0 < g) (n : Nat) : List Span := (leafJobs g hg 0 0 n).map Prod.fst

/-- What is said of the leaves of `n` elements that are cut. -/
structure Quartered (g n : Nat) (leaves : List Span) : Prop where
  /-- They are cut once at least. -/
  cut : 4 ≤ leaves.length
  tiles : Tiles 0 leaves n
  lower : ∀ l ∈ leaves, (g + 1) / 4 ≤ l.len
  upper : ∀ l ∈ leaves, l.len ≤ g
  few : 2 ≤ g → leaves.length * (g + 1) ≤ 4 * n

theorem quartered_leaves {n : Nat} (hg : 0 < g) (h : g < n) : Quartered g n (leaves g hg n) where
  cut := by
    rw [leaves, List.length_map]
    exact four_le_length_leafJobs h
  tiles := by
    have htiles := tiles_leafJobs g hg 0 0 n
    rwa [Nat.zero_add] at htiles
  lower l hl := by
    obtain ⟨job, hjob, rfl⟩ := List.mem_map.1 hl
    have := (len_of_mem_leafJobs hjob).1
    omega
  upper l hl := by
    obtain ⟨job, hjob, rfl⟩ := List.mem_map.1 hl
    exact (len_of_mem_leafJobs hjob).2
  few hg₂ := by
    rw [leaves, List.length_map]
    exact length_leafJobs_mul_le hg₂ h

/-- Leaves are the same spans in the array and in the workspace. -/
theorem map_leaves (g : Nat) (hg : 0 < g) (n : Nat) :
    ((leaves g hg n).map fun l => (l, l)) = leafJobs g hg 0 0 n := by
  rw [leaves, List.map_map]
  refine (List.map_congr_left fun job hjob => ?_).trans (List.map_id _)
  obtain ⟨⟨a, k⟩, ⟨b, k'⟩⟩ := job
  obtain ⟨hlen, hstart⟩ := scratch_of_mem_leafJobs hjob
  obtain rfl : k' = k := hlen
  obtain rfl : b = a := hstart
  rfl

/-- **The number of leaves is bounded by the number of workers**, also where four times that number
is too large. -/
theorem length_leaves_lt {tuning : Tuning} {n : Nat} (hg : 0 < g)
    (h : tuning.sortGranularity? n = some g) (hg₂ : 2 ≤ g) :
    (leaves g hg n).length < 16 * tuning.parallelism.val := by
  have hfew := (quartered_leaves hg (Tuning.sortGranularity?_lt h)).few hg₂
  have htimes : tuning.parallelism.times 4 ≤ tuning.parallelism.val * 4 := Nat.min_le_left _ _
  refine Nat.lt_of_mul_lt_mul_right (a := g + 1) ?_
  calc (leaves g hg n).length * (g + 1) ≤ 4 * n := hfew
    _ < 4 * (tuning.parallelism.times 4 * (g + 1)) :=
      Nat.mul_lt_mul_of_pos_left (Tuning.lt_times_mul_of_sortGranularity? h) (by decide)
    _ ≤ 4 * (tuning.parallelism.val * 4 * (g + 1)) :=
      Nat.mul_le_mul_left _ (Nat.mul_le_mul_right _ htimes)
    _ = _ := by ring

end Sorting

end ForkJoin
