import ForkJoin.Pool
import ForkJoin.Proofs.Interleaving

/-!
# Computations on images

A computation that only hands elements on, without looking at them but through the caller's function,
does the same on other elements in their place. So what it does with the values of some tokens is told
by what it does with the tokens: `Images f` relates a computation on tokens to one on their images
under `f` that makes the image of each call, and by `Images.returns` the run on images is the image of
the run on tokens, with the function that compares tokens by their images.
-/
namespace ForkJoin

namespace Calling

variable {α α' β γ γ' δ δ' : Type} {f : α → α'}

/-- The second computation makes the images of the calls of the first one, whatever the answers, and
the two end in the same way, with related results. -/
inductive Images (f : α → α') (R : γ → γ' → Prop) : Calling α β γ → Calling α' β γ' → Prop
  | done {c : γ} {c' : γ'} : R c c' → Images f R (.done c) (.done c')
  | fault (why : Fault) : Images f R (.fault why) (.fault why)
  | call {a b : α} {next : β → Calling α β γ} {next' : β → Calling α' β γ'} :
    (∀ r, Images f R (next r) (next' r)) → Images f R (.call a b next) (.call (f a) (f b) next')

namespace Images

variable {R : γ → γ' → Prop} {S : δ → δ' → Prop} {x : Calling α β γ} {x' : Calling α' β γ'}

theorem mono {T : γ → γ' → Prop} (h : Images f R x x') (hRT : ∀ c c', R c c' → T c c') :
    Images f T x x' := by
  induction h with
  | done hR => exact .done (hRT _ _ hR)
  | fault why => exact .fault why
  | call _ ih => exact .call ih

theorem bind {k : γ → Calling α β δ} {k' : γ' → Calling α' β δ'} (h : Images f R x x')
    (hk : ∀ c c', R c c' → Images f S (k c) (k' c')) : Images f S (x >>= k) (x' >>= k') := by
  induction h with
  | done hR => exact hk _ _ hR
  | fault why => exact .fault why
  | call _ ih => exact .call ih

theorem map {k : γ → δ} {k' : γ' → δ'} (h : Images f R x x')
    (hk : ∀ c c', R c c' → S (k c) (k' c')) : Images f S (k <$> x) (k' <$> x') := by
  rw [← bind_pure_comp, ← bind_pure_comp]
  exact h.bind fun c c' hR => .done (hk c c' hR)

theorem ask (a b : α) : Images f Eq (Calling.ask a b : Calling α β β) (Calling.ask (f a) (f b)) :=
  .call fun _ => .done rfl

/-- **The run on the images is the image of the run.** -/
theorem returns {cmp : α' → α' → β} {c : γ} {calls : List (α × α)} (h : Images f R x x')
    (hx : Returns (fun a b => cmp (f a) (f b)) x c calls) :
    ∃ c', R c c' ∧ Returns cmp x' c' (calls.map (Prod.map f f)) := by
  induction h generalizing calls with
  | done hR =>
    cases hx
    exact ⟨_, hR, .done⟩
  | fault why => cases hx
  | call _ ih =>
    cases hx with
    | call hx =>
      obtain ⟨c', hR, hreturns⟩ := ih _ hx
      exact ⟨c', hR, .call hreturns⟩

end Images

end Calling

end ForkJoin
