import ForkJoin.Pool
import ForkJoin.Proofs.Contract

/-!
# Following a script

What the tasks of a run do together, one step after the other on the shared state, is to be the
same as what one recursive function does: the same calls in the same order, whatever the answers.
The function is the script. A computation follows it if it makes the calls of the script and if,
wherever the script is done with a result, what is left to be done is as expected.

`Follows.bind` splits a script in parts, `Follows.eq` says that a computation which follows a
script to the end is the script, and the rules for pools say what a single worker does with its
first task.
-/
namespace ForkJoin

namespace Calling

variable {α β γ δ ρ ρ' : Type}

/-- The computation makes the calls of the script, and wherever the script is done with `c`, `Q c`
holds of what is left of the computation. -/
inductive Follows (Q : ρ → Calling α β γ → Prop) : Calling α β γ → Calling α β ρ → Prop
  | done {c : ρ} {x : Calling α β γ} : Q c x → Follows Q x (.done c)
  | call {a b : α} {next : β → Calling α β γ} {script : β → Calling α β ρ} :
    (∀ r, Follows Q (next r) (script r)) → Follows Q (.call a b next) (.call a b script)

namespace Follows

variable {Q S : ρ → Calling α β γ → Prop} {x : Calling α β γ} {p : Calling α β ρ}

theorem mono (h : Follows Q x p) (hQS : ∀ c y, Q c y → S c y) : Follows S x p := by
  induction h with
  | done hQ => exact .done (hQS _ _ hQ)
  | call _ ih => exact .call ih

/-- After the first part of a script comes the second. -/
theorem bind {T : ρ' → Calling α β γ → Prop} {f : ρ → Calling α β ρ'} (h : Follows Q x p)
    (hf : ∀ c y, Q c y → Follows T y (f c)) : Follows T x (p >>= f) := by
  induction h with
  | done hQ => exact hf _ _ hQ
  | call _ ih => exact .call ih

/-- A computation that follows a script to its end is the script. -/
theorem eq {x p : Calling α β ρ} (h : Follows (fun c y => y = .done c) x p) : x = p := by
  induction p generalizing x with
  | done c => cases h with | done h => exact h
  | fault why => cases h
  | call a b next ih =>
    cases h with
    | call h => rw [funext fun r => ih r (h r)]

/-- What the first part of a computation is done with, where it has followed its script. -/
def Ends (R : γ → ρ → Prop) (c : ρ) (y : Calling α β γ) : Prop := ∃ d, y = .done d ∧ R d c

/-- A sequence follows a sequence of scripts. -/
theorem seq {R : γ → ρ → Prop} {T : ρ' → Calling α β δ → Prop} {k : γ → Calling α β δ}
    {f : ρ → Calling α β ρ'} (h : Follows (Ends R) x p)
    (hk : ∀ d c, R d c → Follows T (k d) (f c)) : Follows T (x >>= k) (p >>= f) := by
  induction h with
  | done hQ =>
    obtain ⟨d, rfl, hd⟩ := hQ
    exact hk d _ hd
  | call _ ih => exact .call ih

end Follows

/-- A computation follows itself, and what it ensures of its result may be used then. -/
theorem Ensures.follows {Q : ρ → Prop} {p : Calling α β ρ} (h : p.Ensures .any Q) :
    Follows (Follows.Ends fun d c => d = c ∧ Q c) p p := by
  induction p with
  | done c => exact .done ⟨c, rfl, rfl, h⟩
  | fault why => exact h.elim
  | call a b next ih => exact .call fun r => ih r (h.2 r trivial)

end Calling

/-! ## A single worker -/

namespace Work

open Calling

variable {σ τ α β ρ : Type} {work : Work σ τ α β} {s s' : σ} {task : τ} {left later : List τ}
  {K : Nat} {Q : ρ → Calling α β (List τ × σ) → Prop} {p : Calling α β ρ}

/-- What a single worker does with a pool, within so many steps. -/
abbrev alone (work : Work σ τ α β) (K : Nat) (pool : List τ) (s : σ) : Calling α β (List τ × σ) :=
  (work.steps .depthFirst K pool).run s

/-- A single worker goes on with this pool, with `k` steps to go or more. -/
abbrev Resumes (work : Work σ τ α β) (k : Nat) (pool : List τ) (R : ρ → σ → Prop) (c : ρ)
    (x : Calling α β (List τ × σ)) : Prop :=
  ∃ k' s', k ≤ k' ∧ x = alone work k' pool s' ∧ R c s'

theorem alone_nil (K : Nat) (s : σ) : alone work K [] s = .done ([], s) := by
  simp [alone]

theorem alone_cons (hK : 0 < K) : alone work K (task :: later) s =
    (work task).run s >>= fun (left, s') => alone work (K - 1) (left ++ later) s' := by
  obtain ⟨k, rfl⟩ : ∃ k, K = k + 1 := ⟨K - 1, by omega⟩
  simp only [alone, steps_depthFirst, StateT.run_bind, Nat.add_sub_cancel]

/-- A task that makes no call. -/
theorem follows_silent (hK : 0 < K) (h : (work task).run s = .done (left, s'))
    (hp : Follows Q (alone work (K - 1) (left ++ later) s') p) :
    Follows Q (alone work K (task :: later) s) p := by
  rw [alone_cons hK, h]
  exact hp

/-- A task that makes one call. -/
theorem follows_call {a b : α} {next : β → List τ × σ} {script : β → Calling α β ρ} (hK : 0 < K)
    (h : (work task).run s = .call a b fun r => .done (next r))
    (hp : ∀ r, Follows Q (alone work (K - 1) ((next r).1 ++ later) (next r).2) (script r)) :
    Follows Q (alone work K (task :: later) s) (.call a b script) := by
  rw [alone_cons hK, h]
  exact .call hp

end Work

end ForkJoin
