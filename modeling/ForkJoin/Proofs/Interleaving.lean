import Mathlib.Data.Multiset.AddSub
import ForkJoin.Pool
import ForkJoin.Proofs.Contract

/-!
# Runs under every policy

With a function that answers all it is asked, a computation that does not fail has one result, and
makes the same calls in each run: `Returns` relates it to both. A pool of tasks has as many runs
as there are policies. What holds of the live tasks and the state at the start, and is kept by a
step of any one of the tasks, holds after any number of steps under any policy: `steps_keep`. With
`steps_lead` it may speak of the number of steps that are still to follow, and of several states in
which the same is done. Of the order in which the live tasks are listed nothing is known, so they
are a multiset there.
-/
namespace ForkJoin

namespace Calling

variable {α β γ δ ε : Type} {f : α → α → β}

/-- The computation ends with `c`, after these calls. -/
inductive Returns (f : α → α → β) : Calling α β γ → γ → List (α × α) → Prop
  | done {c : γ} : Returns f (.done c) c []
  | call {a b : α} {next : β → Calling α β γ} {c : γ} {calls : List (α × α)} :
    Returns f (next (f a b)) c calls → Returns f (.call a b next) c ((a, b) :: calls)

namespace Returns

variable {x : Calling α β γ} {c d : γ} {calls more : List (α × α)}

/-- What has come to its end makes no calls. -/
theorem of_done (h : x = .done c) : Returns f x c [] := h ▸ .done

theorem bind {k : γ → Calling α β δ} {e : δ} (h : Returns f x c calls)
    (hk : Returns f (k c) e more) : Returns f (x >>= k) e (calls ++ more) := by
  induction h with
  | done => exact hk
  | call _ ih => exact .call (ih hk)

/-- What follows makes no more calls. -/
theorem bind_done {k : γ → Calling α β δ} {e : δ} (h : Returns f x c calls)
    (hk : k c = .done e) : Returns f (x >>= k) e calls := by
  have hall := h.bind (hk ▸ Returns.done : Returns f (k c) e [])
  rwa [List.append_nil] at hall

/-- A sequence that returns has two parts that return. -/
theorem of_bind {k : γ → Calling α β δ} {e : δ} (h : Returns f (x >>= k) e calls) :
    ∃ c before after, Returns f x c before ∧ Returns f (k c) e after ∧ calls = before ++ after := by
  induction x generalizing calls with
  | done c => exact ⟨c, [], calls, .done, h, rfl⟩
  | fault why => cases h
  | call a b next ih =>
    cases h with
    | call h =>
      obtain ⟨c, before, after, hbefore, hafter, rfl⟩ := ih _ h
      exact ⟨c, _, after, .call hbefore, hafter, rfl⟩

theorem map {g : γ → δ} (h : Returns f x c calls) : Returns f (g <$> x) (g c) calls := by
  rw [← bind_pure_comp]
  exact h.bind_done rfl

/-- There is one result, and one list of calls. -/
theorem unique (h : Returns f x c calls) (h' : Returns f x d more) : c = d ∧ calls = more := by
  induction h generalizing more with
  | done => cases h' with | done => exact ⟨rfl, rfl⟩
  | call _ ih =>
    cases h' with
    | call h' =>
      obtain ⟨rfl, rfl⟩ := ih h'
      exact ⟨rfl, rfl⟩

/-- A run under a function that answers these calls alike makes them, and ends with `c`. -/
theorem runFrom_of_calls {f' : α → α → Except ε β} (h : Returns f x c calls)
    (hcalls : ∀ call ∈ calls, f' call.1 call.2 = .ok (f call.1 call.2)) (before : Array (α × α)) :
    x.runFrom f' before = .ok ⟨c, before ++ calls.toArray⟩ := by
  induction h generalizing before with
  | done => simp [Calling.runFrom]
  | @call a b next c calls _ ih =>
    have hrest := ih (fun call hcall => hcalls call (List.mem_cons_of_mem _ hcall))
      (before.push (a, b))
    simp only [Calling.runFrom, hcalls (a, b) List.mem_cons_self]
    rw [hrest]
    simp

theorem run_of_calls {f' : α → α → Except ε β} (h : Returns f x c calls)
    (hcalls : ∀ call ∈ calls, f' call.1 call.2 = .ok (f call.1 call.2)) :
    x.run f' = .ok ⟨c, calls.toArray⟩ := by
  rw [Calling.run, h.runFrom_of_calls hcalls, Array.empty_append]

/-- What `Returns` says is what a run reports. -/
theorem run (h : Returns f x c calls) :
    x.run (fun a b => (.ok (f a b) : Except ε β)) = .ok ⟨c, calls.toArray⟩ :=
  h.run_of_calls fun _ _ => rfl

end Returns

/-- A computation that keeps to a contract on all operands has a result. -/
theorem Ensures.returns {K : Contract α β} {x : Calling α β γ} {Q : γ → Prop} (h : x.Ensures K Q)
    (hK : ∀ a b, K.asks a b → K.answers a b (f a b)) : ∃ c calls, Returns f x c calls ∧ Q c := by
  induction x with
  | done c => exact ⟨c, [], .done, h⟩
  | fault why => exact h.elim
  | call a b next ih =>
    obtain ⟨c, calls, hc, hQ⟩ := ih (f a b) (h.2 _ (hK a b h.1))
    exact ⟨c, _, .call hc, hQ⟩

/-- With a function that answers as the contract says, every call is one that the contract allows. -/
theorem Ensures.asks_of_returns {K : Contract α β} {x : Calling α β γ} {Q : γ → Prop} {c : γ}
    {calls : List (α × α)} (h : x.Ensures K Q)
    (hK : ∀ a b, K.asks a b → K.answers a b (f a b)) (hx : Returns f x c calls) :
    ∀ call ∈ calls, K.asks call.1 call.2 := by
  induction hx with
  | done => exact fun call hcall => absurd hcall List.not_mem_nil
  | call _ ih =>
    intro call hcall
    rcases List.mem_cons.1 hcall with rfl | hcall
    · exact h.1
    · exact ih (h.2 _ (hK _ _ h.1)) call hcall

/-- What is known of the report of a run holds of a report. -/
theorem exists_report {x : Except (Failure ε) (Report α γ)} {g : Report α γ → δ} {d : δ}
    (h : x.toOption.map g = some d) : ∃ report, x = .ok report ∧ g report = d := by
  cases x with
  | ok report => exact ⟨report, rfl, Option.some.inj h⟩
  | error why => cases h

end Calling

namespace Work

open Calling

variable {σ τ α β ι : Type} {work : Work σ τ α β} {f : α → α → β}

/-- A pool that has tasks has one at any position counted around it. -/
theorem eq_nil_of_drop_mod {pool : List τ} {k : Nat} (h : pool.drop (k % pool.length) = []) :
    pool = [] := by
  have hle := List.drop_eq_nil_iff.1 h
  by_contra hne
  exact absurd (Nat.mod_lt k (List.length_pos_iff.2 hne)) (Nat.not_lt.2 hle)

/-- A step of one of the live tasks leads from `I` to `J`, in all states of a family, with the same
calls and the same tasks left. -/
def Leads (work : Work σ τ α β) (f : α → α → β) (I J : Multiset τ → (ι → σ) → List (α × α) → Prop) :
    Prop :=
  ∀ task rest S calls, I (task ::ₘ rest) S calls → ∃ left S' made,
    (∀ j, Returns f ((work task).run (S j)) (left, S' j) made) ∧
      J ((left : Multiset τ) + rest) S' (calls ++ made)

/-- **What every step leads on to, every run leads on to**, whatever the policy: `I k` is to hold
when so many more steps may follow. A run stops early only if no task is left. -/
theorem steps_lead {I : Nat → Multiset τ → (ι → σ) → List (α × α) → Prop}
    (hstep : ∀ k, work.Leads f (I (k + 1)) (I k)) (policy : Policy) (k : Nat) {pool : List τ}
    {S : ι → σ} {calls : List (α × α)} (h : I k pool S calls) : ∃ k' pool' S' made,
      (∀ j, Returns f ((work.steps policy k pool).run (S j)) (pool', S' j) made) ∧
        I k' pool' S' (calls ++ made) ∧ (k' = 0 ∨ pool' = []) := by
  induction k generalizing pool S calls with
  | zero => exact ⟨0, pool, S, [], fun _ => .done, by rwa [List.append_nil], .inl rfl⟩
  | succ k ih =>
    have hsplit := List.take_append_drop (policy k % pool.length) pool
    rw [steps]
    cases hdrop : pool.drop (policy k % pool.length) with
    | nil =>
      obtain rfl := eq_nil_of_drop_mod hdrop
      exact ⟨k + 1, [], S, [], fun _ => .done, by rwa [List.append_nil], .inr rfl⟩
    | cons task later =>
      rw [hdrop] at hsplit
      generalize pool.take (policy k % pool.length) = earlier at hsplit ⊢
      subst hsplit
      have htask : ((earlier ++ task :: later : List τ) : Multiset τ) =
          task ::ₘ ((earlier ++ later : List τ) : Multiset τ) :=
        Multiset.coe_eq_coe.2 List.perm_middle
      rw [htask] at h
      obtain ⟨left, S₁, made, hreturns, h₁⟩ := hstep k _ _ _ _ h
      have hleft : (left : Multiset τ) + ((earlier ++ later : List τ) : Multiset τ) =
          ((earlier ++ (left ++ later) : List τ) : Multiset τ) := by
        rw [Multiset.coe_add, Multiset.coe_eq_coe, ← List.append_assoc, ← List.append_assoc]
        exact List.perm_append_comm.append_right later
      rw [hleft] at h₁
      obtain ⟨k', pool', S', more, hmore, h', hend⟩ := ih h₁
      refine ⟨k', pool', S', made ++ more, fun j => ?_, by rwa [← List.append_assoc], hend⟩
      rw [StateT.run_bind]
      exact (hreturns j).bind (hmore j)

/-- A step of one of the live tasks keeps `I`. -/
def Keeps (work : Work σ τ α β) (f : α → α → β) (I : Multiset τ → σ → List (α × α) → Prop) : Prop :=
  ∀ task rest s calls, I (task ::ₘ rest) s calls → ∃ left s' made,
    Returns f ((work task).run s) (left, s') made ∧ I ((left : Multiset τ) + rest) s' (calls ++ made)

/-- **What every step keeps, every run keeps**, whatever the policy. -/
theorem steps_keep {I : Multiset τ → σ → List (α × α) → Prop} (hstep : work.Keeps f I)
    (policy : Policy) (k : Nat) {pool : List τ} {s : σ} {calls : List (α × α)}
    (h : I pool s calls) : ∃ pool' s' made,
      Returns f ((work.steps policy k pool).run s) (pool', s') made ∧
        I pool' s' (calls ++ made) := by
  have hlead : work.Leads f (fun pool (S : Unit → σ) calls => I pool (S ()) calls)
      (fun pool S calls => I pool (S ()) calls) := by
    intro task rest S calls h
    obtain ⟨left, s', made, hreturns, h'⟩ := hstep task rest (S ()) calls h
    exact ⟨left, fun _ => s', made, fun _ => hreturns, h'⟩
  obtain ⟨_, pool', S', made, hreturns, h', _⟩ :=
    steps_lead (I := fun _ pool (S : Unit → σ) calls => I pool (S ()) calls) (fun _ => hlead) policy k
      (S := fun _ => s) h
  exact ⟨pool', S' (), made, hreturns (), h'⟩

end Work

end ForkJoin
