import ForkJoin.Span

/-!
# Computations that call the caller's function

A scan calls its operator and a sort its comparator, and both promise a caller how often and on
which operands. A kernel is therefore written as a `Calling` computation: a tree whose inner
nodes are calls `f a b` still to be answered. Nothing is assumed about the function, which may
refuse an answer; `Calling.run` supplies it and notes every call it answered.

`runFrom_bind` is the rule by which a run of a sequence is a run of its parts.
-/
namespace ForkJoin

/-- A check of the library itself failed; the caller's function has no part in it. -/
inductive Fault where
  /-- A position outside its array, or a piece that does not fit into its span. -/
  | outOfBounds
  /-- A hand-over slot was read before anything was left in it. -/
  | emptySlot
  /-- Work was left, or nobody announced the end of it. -/
  | unfinished
  deriving DecidableEq

/-- Why a request has no answer. -/
inductive Failure (ε : Type) where
  /-- The window is no part of the array; nothing was called. -/
  | window (why : WindowError)
  /-- The caller's function refused an answer. -/
  | raised (why : ε)
  | fault (why : Fault)
  deriving DecidableEq

/-- What a run gives back: its result, and the operand pairs of its calls in the order in which
they were made. -/
structure Report (α γ : Type) where
  result : γ
  calls : Array (α × α)

/-- A computation that calls a function `α → α → β` on its way to a result of type `γ`. -/
inductive Calling (α β γ : Type) where
  | done (result : γ)
  | fault (why : Fault)
  | call (a b : α) (next : β → Calling α β γ)

namespace Calling

variable {α β γ δ ε : Type}

/-- One call, whose answer is the result. -/
def ask (a b : α) : Calling α β β := .call a b .done

/-- Goes on with `k` where `x` is done. -/
def bind (x : Calling α β γ) (k : γ → Calling α β δ) : Calling α β δ :=
  match x with
  | .done c => k c
  | .fault why => .fault why
  | .call a b next => .call a b fun r => (next r).bind k

instance : Monad (Calling α β) where
  pure := .done
  bind := bind

@[simp] theorem pure_eq (c : γ) : (pure c : Calling α β γ) = .done c := rfl

@[simp] theorem done_bind (c : γ) (k : γ → Calling α β δ) : (Calling.done c >>= k) = k c := rfl

@[simp] theorem fault_bind (why : Fault) (k : γ → Calling α β δ) :
    ((Calling.fault why : Calling α β γ) >>= k) = .fault why := rfl

@[simp] theorem call_bind (a b : α) (next : β → Calling α β γ) (k : γ → Calling α β δ) :
    (Calling.call a b next >>= k) = .call a b fun r => next r >>= k := rfl

@[simp] theorem ask_bind (a b : α) (k : β → Calling α β δ) :
    ((ask a b : Calling α β β) >>= k) = .call a b k := rfl

theorem bind_done (x : Calling α β γ) : (x >>= fun c => Calling.done c) = x := by
  induction x with
  | done c => rfl
  | fault why => rfl
  | call a b next ih => simp only [call_bind, ih]

theorem bind_bind {ζ : Type} (x : Calling α β γ) (k : γ → Calling α β δ)
    (l : δ → Calling α β ζ) : (x >>= k) >>= l = x >>= fun c => k c >>= l := by
  induction x with
  | done c => rfl
  | fault why => rfl
  | call a b next ih => simp only [call_bind, ih]

instance : LawfulMonad (Calling α β) :=
  LawfulMonad.mk' _ bind_done (fun _ _ => rfl) fun x k l => bind_bind x k l

/-! ## Running -/

/-- Answers every call by `f`, up to the first that `f` refuses; `calls` are those made before. -/
def runFrom (f : α → α → Except ε β) (calls : Array (α × α)) :
    Calling α β γ → Except (Failure ε) (Report α γ)
  | .done c => .ok ⟨c, calls⟩
  | .fault why => .error (.fault why)
  | .call a b next =>
    match f a b with
    | .ok r => runFrom f (calls.push (a, b)) (next r)
    | .error why => .error (.raised why)

/-- Runs a computation from the start. -/
def run (f : α → α → Except ε β) (x : Calling α β γ) : Except (Failure ε) (Report α γ) :=
  runFrom f #[] x

/-- A run of a sequence runs the first part, then the second on its result. -/
theorem runFrom_bind (f : α → α → Except ε β) (calls : Array (α × α)) (x : Calling α β γ)
    (k : γ → Calling α β δ) :
    runFrom f calls (x >>= k) = runFrom f calls x >>= fun r => runFrom f r.calls (k r.result) := by
  induction x generalizing calls with
  | done c => rfl
  | fault why => rfl
  | call a b next ih =>
    simp only [call_bind, runFrom]
    cases f a b with
    | ok r => exact ih r _
    | error why => rfl

end Calling

end ForkJoin
