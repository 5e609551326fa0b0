import Mathlib.Data.List.Rotate
import ForkJoin.Proofs.Interleaving

/-!
# One task at a time

A single worker stays with a task until nothing is left of it, and only then takes one of the tasks
that wait; the policy says which. Here, unlike in an interleaving, the order of the live tasks
counts: the first of them is the one that is being worked on. Depth first is such a run, in which
the task forked last is taken next.
-/
namespace ForkJoin.Work

open Calling

variable {σ τ α β : Type} {work : Work σ τ α β} {f : α → α → β}

/-- The worker goes on with what is left of a task, or takes the waiting task at position `i`,
counted around. -/
def resume (i : Nat) (left waiting : List τ) : List τ :=
  if left.isEmpty then waiting.rotate i else left ++ waiting

/-- One worker takes so many steps, or fewer if no task is left, and returns the tasks that are live
then. -/
def serial (work : Work σ τ α β) (policy : Policy) : Nat → List τ → Action σ α β (List τ)
  | 0, pool => pure pool
  | _ + 1, [] => pure []
  | k + 1, task :: waiting => do
    let left ← work task
    serial work policy k (resume (policy k) left waiting)

theorem resume_perm (i : Nat) (left waiting : List τ) :
    (resume i left waiting).Perm (left ++ waiting) := by
  cases left with
  | nil => exact waiting.rotate_perm i
  | cons next forked => exact .refl _

/-- The first task is one that is left, or none is left. -/
theorem mem_tail_resume {i : Nat} {left waiting : List τ} {task : τ}
    (h : task ∈ (resume i left waiting).tail) : task ∈ left.tail ∨ task ∈ waiting := by
  cases left with
  | nil => exact .inr (List.mem_rotate.1 (List.mem_of_mem_tail h))
  | cons next forked => exact List.mem_append.1 h

theorem mem_head?_resume {i : Nat} {left waiting : List τ} {task : τ}
    (h : task ∈ (resume i left waiting).head?) : task ∈ left ∨ task ∈ waiting := by
  cases left with
  | nil => exact .inr (List.mem_rotate.1 (List.mem_of_mem_head? h))
  | cons next forked => exact .inl (List.mem_of_mem_head? h)

/-- Depth first is one task at a time. -/
theorem serial_depthFirst (work : Work σ τ α β) (k : Nat) (pool : List τ) :
    serial work .depthFirst k pool = steps work .depthFirst k pool := by
  induction k generalizing pool with
  | zero => rfl
  | succ k ih =>
    cases pool with
    | nil => rw [steps_nil, serial]
    | cons task waiting =>
      have hresume (left : List τ) :
          resume (Policy.depthFirst k) left waiting = left ++ waiting := by
        cases left with
        | nil => exact waiting.rotate_zero
        | cons next forked => rfl
      rw [steps_depthFirst, serial]
      simp only [hresume, ih]

/-- **What every step keeps, every run of one worker keeps**; `I k` is to hold when so many more
steps may follow. A run stops early only if no task is left. -/
theorem serial_keep (work : Work σ τ α β) (policy : Policy)
    {I : Nat → List τ → σ → List (α × α) → Prop}
    (hstep : ∀ k task waiting s calls, I (k + 1) (task :: waiting) s calls → ∃ left s' made,
      Returns f ((work task).run s) (left, s') made ∧
        I k (resume (policy k) left waiting) s' (calls ++ made))
    (k : Nat) {pool : List τ} {s : σ} {calls : List (α × α)} (h : I k pool s calls) :
    ∃ k' pool' s' made, Returns f ((serial work policy k pool).run s) (pool', s') made ∧
      I k' pool' s' (calls ++ made) ∧ (k' = 0 ∨ pool' = []) := by
  induction k generalizing pool s calls with
  | zero => exact ⟨0, pool, s, [], .done, by rwa [List.append_nil], .inl rfl⟩
  | succ k ih =>
    cases pool with
    | nil => exact ⟨k + 1, [], s, [], .done, by rwa [List.append_nil], .inr rfl⟩
    | cons task waiting =>
      obtain ⟨left, s₁, made, hreturns, h₁⟩ := hstep k task waiting s calls h
      obtain ⟨k', pool', s', more, hmore, h', hend⟩ := ih h₁
      refine ⟨k', pool', s', made ++ more, ?_, by rwa [← List.append_assoc], hend⟩
      rw [serial, StateT.run_bind]
      exact hreturns.bind hmore

end ForkJoin.Work
