import ForkJoin.Calling

/-!
# Contracts between a computation and the function it calls

A contract says on which operands the function may be called and what it may answer there. A
computation keeps to it if it calls on such operands only and, as long as the answers are such
answers, comes to its end without a fault; `Ensures` adds what then holds of the result. The
answers need not come from one function: `Contract.any` allows all of them.

`exists_run` is what a contract is good for: a function that keeps its side of it gets a report.
-/
namespace ForkJoin

/-- What a computation may ask a function `α → α → β`, and what it may be told. -/
structure Contract (α β : Type) where
  asks : α → α → Prop
  answers : α → α → β → Prop

namespace Contract

variable {α β : Type}

/-- Nothing is promised by either side. -/
def any : Contract α β := ⟨fun _ _ => True, fun _ _ _ => True⟩

/-- The function is `f`, on operands that satisfy `P`. -/
def on (P : α → Prop) (f : α → α → β) : Contract α β :=
  ⟨fun a b => P a ∧ P b, fun a b r => r = f a b⟩

/-- The operands are different and satisfy `P`; any answer will do. -/
def distinct (P : α → Prop) : Contract α β :=
  ⟨fun a b => a ≠ b ∧ P a ∧ P b, fun _ _ _ => True⟩

end Contract

namespace Calling

variable {α β γ δ ε : Type} {K : Contract α β} {P Q : γ → Prop} {x : Calling α β γ}

/-- The computation keeps to the contract, and its result satisfies `Q`. -/
def Ensures (K : Contract α β) (Q : γ → Prop) : Calling α β γ → Prop
  | .done c => Q c
  | .fault _ => False
  | .call a b next => K.asks a b ∧ ∀ r, K.answers a b r → (next r).Ensures K Q

@[simp] theorem ensures_done {c : γ} : (Calling.done c : Calling α β γ).Ensures K Q ↔ Q c := Iff.rfl

@[simp] theorem ensures_call {a b : α} {next : β → Calling α β γ} :
    (Calling.call a b next).Ensures K Q ↔
      K.asks a b ∧ ∀ r, K.answers a b r → (next r).Ensures K Q := Iff.rfl

theorem Ensures.mono (h : x.Ensures K P) (hPQ : ∀ c, P c → Q c) : x.Ensures K Q := by
  induction x with
  | done c => exact hPQ c h
  | fault why => exact h
  | call a b next ih => exact ⟨h.1, fun r hr => ih r (h.2 r hr)⟩

/-- What holds whatever the answers are holds besides. -/
theorem Ensures.and_any (hP : x.Ensures K P) (hQ : x.Ensures .any Q) :
    x.Ensures K fun c => P c ∧ Q c := by
  induction x with
  | done c => exact ⟨hP, hQ⟩
  | fault why => exact hP
  | call a b next ih => exact ⟨hP.1, fun r hr => ih r (hP.2 r hr) (hQ.2 r trivial)⟩

theorem Ensures.of_any (h : x.Ensures K fun _ => True) (hQ : x.Ensures .any Q) : x.Ensures K Q :=
  (h.and_any hQ).mono fun _ hc => hc.2

/-- A sequence keeps to a contract if its parts do. -/
theorem Ensures.bind {S : δ → Prop} {k : γ → Calling α β δ} (h : x.Ensures K Q)
    (hk : ∀ c, Q c → (k c).Ensures K S) : (x >>= k).Ensures K S := by
  induction x with
  | done c => exact hk c h
  | fault why => exact h
  | call a b next ih => exact ⟨h.1, fun r hr => ih r (h.2 r hr)⟩

theorem Ensures.map {S : δ → Prop} {f : γ → δ} (h : x.Ensures K fun c => S (f c)) :
    (f <$> x).Ensures K S := by
  rw [← bind_pure_comp]
  exact h.bind fun c hc => hc

/-! ## Running under a contract -/

theorem exists_runFrom {f : α → α → Except ε β}
    (hf : ∀ a b, K.asks a b → ∃ r, f a b = .ok r ∧ K.answers a b r) (h : x.Ensures K Q)
    (calls : Array (α × α)) :
    ∃ report, x.runFrom f calls = .ok report ∧ Q report.result := by
  induction x generalizing calls with
  | done c => exact ⟨⟨c, calls⟩, rfl, h⟩
  | fault why => exact h.elim
  | call a b next ih =>
    obtain ⟨r, hr, ha⟩ := hf a b h.1
    simp only [runFrom, hr]
    exact ih r (h.2 r ha) _

/-- A function that answers as the contract says gets a result as it says. -/
theorem exists_run {f : α → α → Except ε β}
    (hf : ∀ a b, K.asks a b → ∃ r, f a b = .ok r ∧ K.answers a b r) (h : x.Ensures K Q) :
    ∃ report, x.run f = .ok report ∧ Q report.result :=
  exists_runFrom hf h #[]

end Calling

end ForkJoin
