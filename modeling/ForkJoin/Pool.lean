import ForkJoin.Calling

/-!
# Actions and pools of live tasks

The tasks of one run share its state: the array, and what they use to find each other. An action
reads and changes that state on its way through a computation that calls the caller's function.
Each action comes with the lemma that says what its run on a state is.

A pool is the list of the live tasks of a run. A step takes any one of them and puts in its place
what its work leaves to be done: the same task further on, and the tasks that it forked. Steps are
taken one after the other and each may change the shared state, so a policy that says which task
is next is an interleaving, and every interleaving is a policy. Depth first, the policy of a single
worker, stays with a task to its end and then takes the one forked last.
-/
namespace ForkJoin

/-! ## Actions on shared state -/

/-- A computation on a shared state of type `σ` that calls a function `α → α → β`. -/
abbrev Action (σ α β : Type) := StateT σ (Calling α β)

namespace Action

variable {σ α β γ : Type}

/-- Calls the caller's function. -/
def ask (a b : α) : Action σ α β β := fun s => .call a b fun r => .done (r, s)

@[simp] theorem run_ask (a b : α) (s : σ) :
    (ask a b : Action σ α β β).run s = .call a b fun r => .done (r, s) := rfl

/-- Stops the run: a check of the library failed. -/
def fail (why : Fault) : Action σ α β γ := fun _ => .fault why

@[simp] theorem run_fail (why : Fault) (s : σ) :
    (fail why : Action σ α β γ).run s = .fault why := rfl

/-- Goes on with the value that is there, and stops the run where there is none. -/
def demand (why : Fault) : Option γ → Action σ α β γ
  | some c => pure c
  | none => fail why

@[simp] theorem run_demand_some (why : Fault) (c : γ) (s : σ) :
    (demand why (some c) : Action σ α β γ).run s = .done (c, s) := rfl

@[simp] theorem run_demand_none (why : Fault) (s : σ) :
    (demand why none : Action σ α β γ).run s = .fault why := rfl

/-- Embeds a computation that leaves the shared state alone. -/
def ofCalling (x : Calling α β γ) : Action σ α β γ := fun s => x >>= fun c => .done (c, s)

@[simp] theorem run_ofCalling (x : Calling α β γ) (s : σ) :
    (ofCalling x : Action σ α β γ).run s = x >>= fun c => .done (c, s) := rfl

end Action

/-! ## Pools -/

/-- What a task does when it is taken (`compute`); it returns the tasks that take its place, those
that it hands to `fork` among them. -/
abbrev Work (σ τ α β : Type) := τ → Action σ α β (List τ)

/-- Which of the live tasks is next when `k` more steps may follow, counted around the pool. -/
abbrev Policy := Nat → Nat

/-- Always the first task of the pool. -/
def Policy.depthFirst : Policy := fun _ => 0

namespace Work

variable {σ τ α β : Type}

/-- Takes so many steps, or fewer if no task is left, and returns the tasks that are live then. -/
def steps (work : Work σ τ α β) (policy : Policy) : Nat → List τ → Action σ α β (List τ)
  | 0, pool => pure pool
  | k + 1, pool =>
    let i := policy k % pool.length
    match pool.drop i with
    | [] => pure []
    | task :: later => do
      let left ← work task
      steps work policy k (pool.take i ++ (left ++ later))

@[simp] theorem steps_nil (work : Work σ τ α β) (policy : Policy) (k : Nat) :
    steps work policy k [] = pure [] := by
  cases k <;> simp [steps]

/-- A single worker takes the first task. -/
theorem steps_depthFirst (work : Work σ τ α β) (k : Nat) (task : τ) (later : List τ) :
    steps work .depthFirst (k + 1) (task :: later) =
      work task >>= fun left => steps work .depthFirst k (left ++ later) := by
  simp [steps, Policy.depthFirst]

/-- Runs one task and all that it forks, within so many steps (`invoke`). -/
def drain (work : Work σ τ α β) (policy : Policy) (budget : Nat) (first : τ) :
    Action σ α β Unit := do
  let left ← work.steps policy budget [first]
  if left.isEmpty then pure () else Action.fail .unfinished

end Work

end ForkJoin
