import Mathlib.Data.Multiset.AddSub
import Mathlib.Data.Multiset.MapFold
import ForkJoin.Proofs.Sorting.Paths
import ForkJoin.Proofs.Spans
import ForkJoin.Sorting.Store

/-!
# Which pieces of work may meet

A deed is a piece of work together with the latch that hears of its end. It reads and writes
positions of the buffers. Two deeds are compatible if neither writes where the other reads or
writes, or else the latches put one of them before the other; only then may they be done at the
same time, or in either order.
-/
namespace ForkJoin

/-- The positions of a span. -/
instance : Membership Nat Span := ⟨fun span i => span.start ≤ i ∧ i < span.stop⟩

theorem Span.mem_iff {span : Span} {i : Nat} : i ∈ span ↔ span.start ≤ i ∧ i < span.stop := Iff.rfl

namespace Sorting

namespace Job

/-- The positions that a piece of work reads. -/
def reads : Job → Buffer → Nat → Prop
  | sort span _, .array, i => i ∈ span
  | sort _ scratch, .workspace, i => i ∈ scratch
  | search source left right, b, i => b = source ∧ (i ∈ left ∨ i ∈ right)
  | merge m, b, i => b = m.source ∧ (i ∈ m.left ∨ i ∈ m.right)

/-- The positions that it writes. -/
def writes : Job → Buffer → Nat → Prop
  | sort span _, .array, i => i ∈ span
  | sort _ scratch, .workspace, i => i ∈ scratch
  | search _ _ _, _, _ => False
  | merge m, b, i => b = m.source.other ∧ i ∈ m.target

/-- All spans lie within buffers of `n` elements. -/
def Within (n : Nat) : Job → Prop
  | sort span scratch => span.stop ≤ n ∧ scratch.stop ≤ n
  | search _ left right => left.stop ≤ n ∧ right.stop ≤ n
  | merge m => m.left.stop ≤ n ∧ m.right.stop ≤ n ∧ m.target.stop ≤ n

/-- It belongs to a merge, and reads what others have written. -/
def Merges : Job → Prop
  | sort _ _ => False
  | search _ _ _ => True
  | merge _ => True

theorem merges_of_eq {j : Job} {m : Sorting.Merge} (h : j = merge m) : j.Merges := h ▸ trivial

/-- The one reads and writes at no other positions than the other. -/
structure Inside (j j' : Job) : Prop where
  reads : ∀ b i, j.reads b i → j'.reads b i
  writes : ∀ b i, j.writes b i → j'.writes b i

theorem Inside.refl (j : Job) : j.Inside j := ⟨fun _ _ => id, fun _ _ => id⟩

/-- Neither writes where the other reads or writes. -/
structure Apart (j j' : Job) : Prop where
  left : ∀ b i, j.writes b i → ¬ (j'.reads b i ∨ j'.writes b i)
  right : ∀ b i, j'.writes b i → ¬ (j.reads b i ∨ j.writes b i)

variable {j j' k : Job}

theorem Apart.symm (h : j.Apart j') : j'.Apart j := ⟨h.right, h.left⟩

theorem Apart.inside (h : j.Apart k) (hj : j'.Inside j) : j'.Apart k where
  left b i hi := h.left b i (hj.writes b i hi)
  right b i hi hi' := h.right b i hi (hi'.imp (hj.reads b i) (hj.writes b i))

end Job

/-- A piece of work, and the latch to which its end is reported. -/
structure Deed where
  latch : Latch
  job : Job
  deriving DecidableEq

namespace Deed

/-- They do not meet, or the latches put one before the other. -/
def Compatible (d e : Deed) : Prop :=
  d.job.Apart e.job ∨ d.latch.Precedes e.latch ∨ e.latch.Precedes d.latch

variable {d d' e : Deed}

theorem Compatible.symm (h : d.Compatible e) : e.Compatible d :=
  h.elim (fun h => .inl h.symm) fun h => .inr h.symm

instance : Std.Symm Compatible := ⟨fun _ _ h => h.symm⟩

theorem Compatible.apart (h : d.Compatible e) (hde : ¬ d.latch.Precedes e.latch)
    (hed : ¬ e.latch.Precedes d.latch) : d.job.Apart e.job :=
  h.resolve_right fun h => h.elim hde hed

end Deed

/-! ## All the deeds of a run -/

/-- In a collection every two of which are related, the members are related to each other and to
those of another. -/
theorem pairwise_cons {β : Type} {R : β → β → Prop} [Std.Symm R] {b : β} {M : Multiset β} :
    (b ::ₘ M).Pairwise R ↔ (∀ c ∈ M, R b c) ∧ M.Pairwise R := by
  induction M using Quotient.inductionOn with
  | h l =>
    rw [Multiset.quot_mk_to_coe, Multiset.cons_coe, Multiset.pairwise_coe_iff_pairwise,
      Multiset.pairwise_coe_iff_pairwise, List.pairwise_cons]
    rfl

theorem pairwise_add {β : Type} {R : β → β → Prop} [Std.Symm R] {M N : Multiset β} :
    (M + N).Pairwise R ↔ M.Pairwise R ∧ N.Pairwise R ∧ ∀ b ∈ M, ∀ c ∈ N, R b c := by
  induction M using Multiset.induction_on with
  | empty => simp [Multiset.pairwise_zero]
  | cons b M ih =>
    rw [Multiset.cons_add, pairwise_cons, pairwise_cons, ih]
    simp only [Multiset.mem_add, Multiset.mem_cons]
    grind

end Sorting

end ForkJoin
