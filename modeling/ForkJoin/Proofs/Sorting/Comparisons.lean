import Mathlib.Data.Nat.Choose.Basic
import Mathlib.Data.Nat.Log
import Mathlib.Tactic.Ring
import ForkJoin.Proofs.Sorting.Duties

/-!
# How many comparisons the sort of one worker makes

The number of comparisons is bounded by the lengths alone, so a comparator that contradicts itself
cannot raise it. Insertion compares at most each pair of elements, and short lists only are sorted
so. A merge settles the place of one element by each comparison and leaves at least one that needs
none, which pays for the look at the ends of the halves: a level of the recursion takes no more
comparisons than there are elements. Each half needs one level less: `sortShort_atMost`.
-/
namespace ForkJoin

namespace Calling

variable {α β γ δ : Type} {x : Calling α β γ} {k m : Nat}

/-- Makes at most so many calls, whatever the answers are. -/
def AtMost : Calling α β γ → Nat → Prop
  | .done _, _ => True
  | .fault _, _ => True
  | .call _ _ _, 0 => False
  | .call _ _ next, k + 1 => ∀ r, (next r).AtMost k

@[simp] theorem atMost_done {c : γ} : (Calling.done c : Calling α β γ).AtMost k := trivial

@[simp] theorem atMost_call {a b : α} {next : β → Calling α β γ} :
    (Calling.call a b next).AtMost (k + 1) ↔ ∀ r, (next r).AtMost k := Iff.rfl

theorem AtMost.mono (h : x.AtMost k) (hkm : k ≤ m) : x.AtMost m := by
  induction x generalizing k m with
  | done c => trivial
  | fault why => trivial
  | call a b next ih =>
    cases k with
    | zero => exact h.elim
    | succ k =>
      obtain ⟨m, rfl⟩ : ∃ n, m = n + 1 := ⟨m - 1, by omega⟩
      exact fun r => ih r (h r) (by omega)

/-- A sequence makes the calls of its parts. What the first part ensures of its result may be used
for the second. -/
theorem AtMost.bind {Q : γ → Prop} {f : γ → Calling α β δ} (h : x.AtMost k)
    (hQ : x.Ensures .any Q) (hf : ∀ c, Q c → (f c).AtMost m) : (x >>= f).AtMost (k + m) := by
  induction x generalizing k with
  | done c => exact (hf c hQ).mono (Nat.le_add_left m k)
  | fault why => trivial
  | call a b next ih =>
    cases k with
    | zero => exact h.elim
    | succ k =>
      rw [call_bind, Nat.add_right_comm, atMost_call]
      exact fun r => ih r (h r) (hQ.2 r trivial)

theorem AtMost.map {f : γ → δ} (h : x.AtMost k) : (f <$> x).AtMost k := by
  induction x generalizing k with
  | done c => trivial
  | fault why => trivial
  | call a b next ih =>
    cases k with
    | zero => exact h.elim
    | succ k => exact fun r => ih r (h r)

theorem Returns.length_le {f : α → α → β} {c : γ} {calls : List (α × α)}
    (h : Returns f x c calls) (hx : x.AtMost k) : calls.length ≤ k := by
  induction h generalizing k with
  | done => exact Nat.zero_le k
  | call _ ih =>
    cases k with
    | zero => exact hx.elim
    | succ k => exact Nat.succ_le_succ (ih (hx _))

end Calling

namespace Sorting

open Calling

variable {α ε : Type}

/-! ## Insertion -/

theorem insert_atMost (item : α) (ys : List α) : (insert item ys).AtMost ys.length := by
  induction ys with
  | nil => trivial
  | cons y ys ih =>
    rw [insert, List.length_cons, atMost_call]
    intro o
    split
    · exact ih.map
    · trivial

/-- Each element is compared with those that were sorted before it, once at most. -/
theorem insertAll_atMost (sorted xs : List α) :
    (insertAll sorted xs).AtMost (xs.length * sorted.length + xs.length.choose 2) := by
  induction xs generalizing sorted with
  | nil => trivial
  | cons x xs ih =>
    have hrest : ∀ zs, zs.Perm (x :: sorted) → (insertAll zs xs).AtMost
        (xs.length * (sorted.length + 1) + xs.length.choose 2) := by
      intro zs hzs
      rw [← List.length_cons, ← hzs.length_eq]
      exact ih zs
    refine ((insert_atMost x sorted).bind (insert_perm x sorted) hrest).mono (Nat.le_of_eq ?_)
    rw [List.length_cons, Nat.choose_succ_succ' xs.length 1, Nat.choose_one_right]
    ring

theorem insertionSort_atMost (xs : List α) :
    (insertionSort xs).AtMost (xs.length.choose 2) := by
  refine (insertAll_atMost [] xs).mono (Nat.le_of_eq ?_)
  rw [List.length_nil, Nat.mul_zero, Nat.zero_add]

/-! ## Merging -/

/-- The last element needs no comparison. -/
theorem mergeInto_atMost (out left right : List α) :
    (mergeInto out left right).AtMost (left.length + right.length - 1) := by
  fun_induction mergeInto out left right with
  | case1 out right => trivial
  | case2 out left _ => trivial
  | case3 out x xs y ys ihr ihl =>
    rw [show (x :: xs).length + (y :: ys).length - 1 = xs.length + ys.length + 1 by
      simp only [List.length_cons]; omega, atMost_call]
    intro o
    split
    · exact ihr.mono (by simp only [List.length_cons]; omega)
    · exact ihl.mono (by simp only [List.length_cons]; omega)

theorem merge_atMost (left right : List α) :
    (merge left right).AtMost (left.length + right.length - 1) :=
  mergeInto_atMost [] left right

/-! ## Sorting -/

/-- Short lists have few pairs of elements. -/
theorem two_mul_choose_le {n : Nat} (h : n ≤ insertionLimit) : 2 * n.choose 2 ≤ n * 15 := by
  rw [Nat.choose_two_right]
  calc 2 * (n * (n - 1) / 2) ≤ n * (n - 1) := Nat.mul_div_le _ 2
    _ ≤ n * 15 := Nat.mul_le_mul_left n (by unfold insertionLimit at h; omega)

/-- One level of the recursion: the two halves, and as many comparisons as there are elements. -/
theorem level_le (a b l : Nat) :
    a * (15 + 2 * l) / 2 + (b * (15 + 2 * l) / 2 + (a + b)) ≤
      (a + b) * (15 + 2 * (l + 1)) / 2 := by
  rw [show (a + b) * (15 + 2 * (l + 1)) =
    a * (15 + 2 * l) + b * (15 + 2 * l) + 2 * (a + b) by ring]
  omega

/-- **A list of at most `2 ^ L` elements is sorted with at most `L - 4 + 15 / 2` comparisons for each
of them.** -/
theorem sortShort_atMost {xs : List α} {L : Nat} (h : xs.length ≤ 2 ^ L) :
    (sortShort xs).AtMost (xs.length * (15 + 2 * (L - 4)) / 2) := by
  induction hlen : xs.length using Nat.strongRecOn generalizing xs L with
  | ind len ih =>
    subst hlen
    rw [sortShort]
    by_cases hshort : xs.length ≤ insertionLimit
    · rw [dif_pos hshort]
      refine (insertionSort_atMost xs).mono ?_
      have hpairs := two_mul_choose_le hshort
      rw [Nat.mul_add]
      omega
    · have hlong : 16 < xs.length := Nat.lt_of_not_le hshort
      -- a list that is cut has more than `2 ^ 4` elements
      obtain ⟨l, rfl⟩ : ∃ l, L = l + 5 := by
        refine ⟨L - 5, (Nat.sub_add_cancel (Nat.le_of_not_lt fun hL => ?_)).symm⟩
        have := Nat.pow_le_pow_right Nat.two_pos (Nat.le_of_lt_succ hL)
        omega
      rw [Nat.pow_succ] at h
      have hlow : (xs.take (xs.length / 2)).length = xs.length / 2 := by
        rw [List.length_take]; omega
      have hhigh : (xs.drop (xs.length / 2)).length = xs.length - xs.length / 2 := List.length_drop
      have hleft := ih _ (by omega) (L := l + 4) (by omega) hlow
      have hright := ih _ (by omega) (L := l + 4) (by omega) hhigh
      have hlevel := level_le (xs.length / 2) (xs.length - xs.length / 2) l
      rw [Nat.add_sub_cancel' (Nat.div_le_self _ _)] at hlevel
      rw [dif_neg hshort]
      refine (hleft.bind (sortShort_perm _) fun left hl => ?_).mono hlevel
      refine hright.bind (sortShort_perm _) fun right hr => ?_
      have hl := hl.length_eq.trans hlow
      have hr := hr.length_eq.trans hhigh
      have hlne : left ≠ [] := by
        rw [← List.length_pos_iff]
        omega
      have hrne : right ≠ [] := by
        rw [← List.length_pos_iff]
        omega
      rw [List.getLast?_eq_some_getLast hlne, List.head?_eq_some_head hrne]
      simp only [ask_bind]
      rw [show xs.length = left.length + right.length - 1 + 1 by omega, atMost_call]
      intro o
      split
      · exact merge_atMost left right
      · trivial

/-- **The sort of one worker makes about `n` times the logarithm of `n` comparisons at most**,
whatever the comparator. The logarithm is rounded up: it is the least number to which two has to be
raised for `n`. -/
theorem mergeSort_linearithmic (cmp : α → α → Ordering) {xs scratch : List α}
    (hscratch : xs.length ≤ scratch.length) : ∃ out calls,
      (mergeSort xs scratch).run (fun a b => (.ok (cmp a b) : Except ε Ordering)) =
        .ok ⟨out, calls⟩ ∧
      2 * calls.size ≤ xs.length * (15 + 2 * (Nat.clog 2 xs.length - 4)) := by
  obtain ⟨ys, calls, hsort, -⟩ := (sortShort_perm xs).returns (f := cmp) fun _ _ _ => trivial
  obtain ⟨out, hreturns, -⟩ := returns_of_follows hsort (follows_mergeSort hscratch)
  have hcalls := hsort.length_le (sortShort_atMost (Nat.le_pow_clog (by decide) xs.length))
  refine ⟨out, calls.toArray, hreturns.run, ?_⟩
  rw [List.size_toArray]
  omega

/-- A comparator that contradicts itself: the least logarithm for 40 elements is 6. -/
theorem mergeSort_forty_linearithmic : ∃ out calls,
    (mergeSort (List.range 40) (List.replicate 40 0)).run
      (fun _ _ => (.ok .gt : Except Empty Ordering)) = .ok ⟨out, calls⟩ ∧
      2 * calls.size ≤ 760 := by
  obtain ⟨out, calls, hrun, hcalls⟩ :=
    mergeSort_linearithmic (ε := Empty) (fun _ _ => .gt)
      (by decide : (List.range 40).length ≤ (List.replicate 40 0).length)
  exact ⟨out, calls, hrun, hcalls⟩

end Sorting

end ForkJoin
