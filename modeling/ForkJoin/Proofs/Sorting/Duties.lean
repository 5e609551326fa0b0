import Mathlib.Algebra.BigOperators.Group.Multiset.Basic
import ForkJoin.Proofs.Interleaving
import ForkJoin.Proofs.Sorting.Deeds
import ForkJoin.Proofs.Sorting.Quarters

/-!
# What is left to be done

At any time the rest of a sort is a collection of duties: those of the live tasks, and the merges
that hang on triggers. Each duty takes elements from spans of a buffer and gives as many to another
span, and which ones it gives and which comparisons it makes for them is settled from the start:
it is what the recursive sort does with the elements that it takes.
-/
namespace ForkJoin.Sorting

open Calling

variable {α : Type}

/-! ## Lists at a position -/

/-- The list, laid down from `start` on, has `v` at position `i`. -/
def Lays (start : Nat) (xs : List α) (i : Nat) (v : α) : Prop :=
  start ≤ i ∧ xs[i - start]? = some v

theorem Lays.lt {start i : Nat} {xs : List α} {v : α} (h : Lays start xs i v) :
    i < start + xs.length := by
  have := (List.getElem?_eq_some_iff.1 h.2).1
  have := h.1
  omega

theorem exists_lays {start i : Nat} {xs : List α} (h : start ≤ i) (h' : i < start + xs.length) :
    ∃ v, Lays start xs i v :=
  ⟨xs.get ⟨i - start, by omega⟩, h, List.getElem?_eq_getElem _⟩

theorem lays_append {start i : Nat} {xs ys : List α} {v : α} :
    Lays start (xs ++ ys) i v ↔ Lays start xs i v ∨ Lays (start + xs.length) ys i v := by
  simp only [Lays, List.getElem?_append, ← Nat.sub_sub]
  by_cases h : i - start < xs.length
  · rw [if_pos h]
    exact ⟨.inl, fun h' => h'.elim id fun h' => absurd h'.1 (by omega)⟩
  · rw [if_neg h]
    constructor
    · exact fun h' => .inr ⟨by omega, h'.2⟩
    · rintro (h' | h')
      · exact absurd (List.getElem?_eq_some_iff.1 h'.2).1 h
      · exact ⟨by omega, h'.2⟩

theorem Lays.of_take {start i k : Nat} {xs : List α} {v : α} (h : Lays start (xs.take k) i v) :
    Lays start xs i v := by
  refine ⟨h.1, ?_⟩
  have hv := h.2
  rw [List.getElem?_take] at hv
  split at hv
  · exact hv
  · cases hv

theorem Lays.of_drop {start i k : Nat} {xs : List α} {v : α} (h : Lays (start + k) (xs.drop k) i v) :
    Lays start xs i v := by
  have hle := h.1
  refine ⟨by omega, ?_⟩
  have hv := h.2
  rw [List.getElem?_drop] at hv
  rwa [← Nat.sub_sub, Nat.add_sub_cancel' (by omega)] at hv

/-! ## Duties -/

/-- What is to be done. -/
inductive Plan where
  /-- A span is to be sorted. -/
  | sort (start len scratch : Nat)
  /-- Two neighbouring spans are to be sorted, and merged into the workspace. -/
  | pair (start scratch p r : Nat)
  /-- Two runs are to be merged. -/
  | merge (m : Merge)

namespace Plan

/-- All that may be read and written on the way. -/
def job : Plan → Job
  | sort start len scratch => .sort ⟨start, len⟩ ⟨scratch, len⟩
  | pair start scratch p r => .sort ⟨start, p + r⟩ ⟨scratch, p + r⟩
  | merge m => .merge m

/-- From where the elements are taken. -/
def source : Plan → Buffer
  | sort _ _ _ => .array
  | pair _ _ _ _ => .array
  | merge m => m.source

def left : Plan → Span
  | sort start len _ => ⟨start, len⟩
  | pair start _ p _ => ⟨start, p⟩
  | merge m => m.left

/-- A second span; what is only sorted has none. -/
def right : Plan → Span
  | sort start len _ => ⟨start + len, 0⟩
  | pair start _ p r => ⟨start + p, r⟩
  | merge m => m.right

/-- To where they are given. -/
def dest : Plan → Buffer
  | sort _ _ _ => .array
  | pair _ _ _ _ => .workspace
  | merge m => m.source.other

def target : Plan → Span
  | sort start len _ => ⟨start, len⟩
  | pair _ scratch p r => ⟨scratch, p + r⟩
  | merge m => m.target

/-- What the recursive sort does with the elements. -/
def script (g : Nat) (hg : 0 < g) : Plan → List α → List α → Calling α Ordering (List α)
  | sort _ _ _, xs, _ => sortQuarters g hg xs
  | pair _ _ _ _, xs, ys => sortPair g hg xs ys
  | merge _, xs, ys => splitMerge g xs ys

/-- The number of tasks that will be forked, or more. -/
def forks (g : Nat) (hg : 0 < g) : Plan → Nat
  | sort _ len _ => Sorting.forks g hg len
  | pair _ _ p r => Sorting.forks g hg p + Sorting.forks g hg r + (p + r)
  | merge m => m.left.len + m.right.len - 1

end Plan

/-- A plan, the latch to which its end is reported, the elements that it takes and those that it
gives, and the comparisons that it makes. -/
structure Duty (α : Type) where
  latch : Latch
  plan : Plan
  left : List α
  right : List α
  out : List α
  calls : List (α × α)

namespace Duty

/-- All that a duty may read and write. -/
def deed (d : Duty α) : Deed := ⟨d.latch, d.plan.job⟩

/-- The element that is expected at a position. -/
def takes (d : Duty α) (b : Buffer) (i : Nat) (v : α) : Prop :=
  b = d.plan.source ∧ (Lays d.plan.left.start d.left i v ∨ Lays d.plan.right.start d.right i v)

/-- The element that is to be at a position in the end. -/
def gives (d : Duty α) (b : Buffer) (i : Nat) (v : α) : Prop :=
  b = d.plan.dest ∧ Lays d.plan.target.start d.out i v

/-- It does as the recursive sort. -/
structure Valid (g : Nat) (hg : 0 < g) (cmp : α → α → Ordering) (d : Duty α) : Prop where
  left : d.left.length = d.plan.left.len
  right : d.right.length = d.plan.right.len
  script : Returns cmp (d.plan.script g hg d.left d.right) d.out d.calls

end Duty

theorem sortPair_perm {g : Nat} (hg : 0 < g) (xs ys : List α) :
    (sortPair g hg xs ys).Ensures .any fun zs => zs.Perm (xs ++ ys) := by
  rw [sortPair]
  refine (sortQuarters_perm hg xs).bind fun first hfirst => ?_
  refine (sortQuarters_perm hg ys).bind fun second hsecond => ?_
  exact splitMerge_perm_of_perm hg hfirst hsecond

/-- What is ensured of the result holds of what is returned. -/
theorem returns_of_ensures {β γ : Type} {f : α → α → β} {x : Calling α β γ} {c : γ}
    {calls : List (α × α)} {Q : γ → Prop} (h : Returns f x c calls) (hQ : x.Ensures .any Q) :
    Q c := by
  obtain ⟨c', calls', hreturns, hc'⟩ := hQ.returns fun _ _ _ => trivial
  obtain ⟨rfl, -⟩ := h.unique hreturns
  exact hc'

/-- What follows a script that returns does so too. -/
theorem returns_of_follows {β γ ρ : Type} {f : α → α → β} {x : Calling α β γ} {script : Calling α β ρ}
    {R : γ → ρ → Prop} {c : ρ} {calls : List (α × α)} (h : Returns f script c calls)
    (hx : Follows (Follows.Ends R) x script) : ∃ e, Returns f x e calls ∧ R e c := by
  induction hx generalizing calls with
  | done hQ =>
    obtain ⟨e, rfl, hR⟩ := hQ
    obtain ⟨rfl, rfl⟩ := h.unique .done
    exact ⟨e, .done, hR⟩
  | call _ ih =>
    cases h with
    | call h =>
      obtain ⟨e, he, hR⟩ := ih _ h
      exact ⟨e, .call he, hR⟩

namespace Duty

variable {g : Nat} {hg : 0 < g} {cmp : α → α → Ordering} {d : Duty α} {b : Buffer} {i : Nat} {v : α}

theorem Valid.length_out (h : d.Valid g hg cmp) : d.out.length = d.plan.target.len := by
  have hl := h.left
  have hr := h.right
  have hscript := h.script
  cases hplan : d.plan with
  | sort start len scratch =>
    rw [hplan] at hl hscript
    exact (returns_of_ensures hscript (sortQuarters_perm hg _)).length_eq.trans hl
  | pair start scratch p r =>
    rw [hplan] at hl hr hscript
    rw [(returns_of_ensures hscript (sortPair_perm hg _ _)).length_eq, List.length_append, hl, hr]
    rfl
  | merge m =>
    rw [hplan] at hl hr hscript
    rw [(returns_of_ensures hscript (splitMerge_perm hg _ _)).length_eq, List.length_append, hl, hr]
    rfl

/-- What is taken is read. -/
theorem Valid.reads (h : d.Valid g hg cmp) (ht : d.takes b i v) : d.deed.job.reads b i := by
  obtain ⟨rfl, ht⟩ := ht
  have hl := h.left
  have hr := h.right
  rw [deed]
  cases hplan : d.plan with
  | sort start len scratch =>
    rw [hplan] at ht hl hr
    simp only [Plan.left, Plan.right] at ht hl hr
    rcases ht with ht | ht
    · exact ⟨ht.1, by have := ht.lt; simp only [Span.stop]; omega⟩
    · exact absurd ht.lt (by have := ht.1; omega)
  | pair start scratch p r =>
    rw [hplan] at ht hl hr
    simp only [Plan.left, Plan.right] at ht hl hr
    simp only [Plan.job, Plan.source, Job.reads, Span.mem_iff, Span.stop]
    rcases ht with ht | ht
    · have := ht.lt
      have := ht.1
      omega
    · have := ht.lt
      have := ht.1
      omega
  | merge m =>
    rw [hplan] at ht hl hr
    simp only [Plan.left, Plan.right] at ht hl hr
    refine ⟨rfl, ?_⟩
    rcases ht with ht | ht
    · exact .inl ⟨ht.1, by rw [Span.stop, ← hl]; exact ht.lt⟩
    · exact .inr ⟨ht.1, by rw [Span.stop, ← hr]; exact ht.lt⟩

/-- What a merge reads it takes. -/
theorem Valid.exists_takes (h : d.Valid g hg cmp) (hm : d.plan.job.Merges)
    (hr : d.deed.job.reads b i) : ∃ v, d.takes b i v := by
  have hleft := h.left
  have hright := h.right
  rw [deed] at hr
  cases hplan : d.plan with
  | sort start len scratch =>
    rw [hplan] at hm
    exact hm.elim
  | pair start scratch p r =>
    rw [hplan] at hm
    exact hm.elim
  | merge m =>
    rw [hplan] at hr hleft hright
    obtain ⟨rfl, hi⟩ := hr
    simp only [takes, hplan]
    rcases hi with hi | hi
    · obtain ⟨v, hv⟩ := exists_lays hi.1 (hi.2.trans_eq (congrArg _ hleft.symm))
      exact ⟨v, rfl, .inl hv⟩
    · obtain ⟨v, hv⟩ := exists_lays hi.1 (hi.2.trans_eq (congrArg _ hright.symm))
      exact ⟨v, rfl, .inr hv⟩

/-- What is given is written. -/
theorem Valid.writes (h : d.Valid g hg cmp) (hgives : d.gives b i v) : d.deed.job.writes b i := by
  obtain ⟨rfl, hlays⟩ := hgives
  have hlen := h.length_out
  have hlt := hlays.lt
  have hle := hlays.1
  rw [deed]
  cases hplan : d.plan with
  | sort start len scratch =>
    rw [hplan] at hlen hlt hle
    exact ⟨hle, hlt.trans_eq (congrArg _ hlen)⟩
  | pair start scratch p r =>
    rw [hplan] at hlen hlt hle
    exact ⟨hle, hlt.trans_eq (congrArg _ hlen)⟩
  | merge m =>
    rw [hplan] at hlen hlt hle
    exact ⟨rfl, hle, hlt.trans_eq (congrArg _ hlen)⟩

end Duty

end ForkJoin.Sorting
