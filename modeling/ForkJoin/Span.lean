/-!
# Spans and windows

A span is a run of consecutive positions, given by where it starts and how many there are. Every
piece of work reads and writes whole spans: `Span.read?` copies one out, or refuses one that does
not lie within the array, and `overwrite` puts a list down from a position on. `toList_overwrite`
is the view of a write: what was before and what comes after stays.

A window names the part of an array that a kernel works on, as `start .. stop`. Its two ends are
given by the caller, so they are checked before anything else happens: an inverted window is
reported as such wherever it lies, and only then is the array's size looked at.
`Window.check_eq_ok_iff` is the exact condition under which a window is accepted.
-/
namespace ForkJoin

/-! ## Spans -/

/-- The `len` positions from `start` on. -/
structure Span where
  start : Nat
  len : Nat
  deriving DecidableEq

namespace Span

/-- The position after the last one. -/
def stop (s : Span) : Nat := s.start + s.len

/-- The lower half; of an odd number of positions, the smaller part (`split_at_half`). -/
def lower (s : Span) : Span := ⟨s.start, s.len / 2⟩

/-- The rest above the lower half. -/
def upper (s : Span) : Span := ⟨s.start + s.len / 2, s.len - s.len / 2⟩

@[simp] theorem start_lower (s : Span) : s.lower.start = s.start := rfl

@[simp] theorem stop_lower (s : Span) : s.lower.stop = s.upper.start := rfl

@[simp] theorem stop_upper (s : Span) : s.upper.stop = s.stop := by
  simp only [stop, upper]; omega

theorem len_halves (s : Span) : s.lower.len + s.upper.len = s.len := by
  simp only [lower, upper]; omega

/-- The elements of `xs` on the span, if it lies within `xs` (`slice`). -/
def read? {α : Type} (s : Span) (xs : Array α) : Option (Array α) :=
  if s.stop ≤ xs.size then some (xs.extract s.start s.stop) else none

theorem read?_eq_some_iff {α : Type} {s : Span} {xs ys : Array α} :
    s.read? xs = some ys ↔ s.stop ≤ xs.size ∧ ys = xs.extract s.start s.stop := by
  unfold read?
  split
  · rename_i h; simp [h, eq_comm]
  · rename_i h; simp [h]

end Span

/-- Lays `ys` over `xs` from position `i` on (`slice_mut`); what would fall outside is dropped. -/
def overwrite {α : Type} (xs : Array α) (i : Nat) : List α → Array α
  | [] => xs
  | y :: ys => overwrite (xs.setIfInBounds i y) (i + 1) ys

@[simp] theorem size_overwrite {α : Type} (xs : Array α) (i : Nat) (ys : List α) :
    (overwrite xs i ys).size = xs.size := by
  induction ys generalizing xs i with
  | nil => rfl
  | cons y ys ih => rw [overwrite, ih, Array.size_setIfInBounds]

theorem toList_overwrite {α : Type} (xs : Array α) (i : Nat) (ys : List α)
    (h : i + ys.length ≤ xs.size) :
    (overwrite xs i ys).toList = xs.toList.take i ++ ys ++ xs.toList.drop (i + ys.length) := by
  induction ys generalizing xs i with
  | nil => simp [overwrite]
  | cons y ys ih =>
    have hy : i < xs.toList.length := by
      simp only [List.length_cons, Array.length_toList] at h ⊢; omega
    have take_y : (xs.toList.set i y).take (i + 1) = xs.toList.take i ++ [y] := by
      rw [List.set_eq_take_append_cons_drop, if_pos hy, List.take_append, List.length_take,
        Nat.min_eq_left (Nat.le_of_lt hy), List.take_take, Nat.min_eq_right (Nat.le_succ i),
        Nat.add_sub_cancel_left, List.take_succ_cons, List.take_zero]
    have drop_y : (xs.toList.set i y).drop (i + 1 + ys.length) =
        xs.toList.drop (i + 1 + ys.length) := List.drop_set_of_lt (by omega)
    have hys : i + 1 + ys.length ≤ (xs.setIfInBounds i y).size := by
      rw [Array.size_setIfInBounds]; simp only [List.length_cons] at h; omega
    have rest : i + 1 + ys.length = i + (y :: ys).length := by
      simp only [List.length_cons]; omega
    rw [overwrite, ih _ _ hys, Array.toList_setIfInBounds, take_y, drop_y, rest]
    simp only [List.append_assoc, List.cons_append, List.nil_append]

/-! ## Windows -/

/-- The positions from `start` up to `stop`, without `stop`. -/
structure Window where
  start : Nat
  stop : Nat
  deriving DecidableEq

/-- Why a window is refused (`RangeError`). -/
inductive WindowError where
  /-- It starts after its end. -/
  | inverted (start stop : Nat)
  /-- It ends after the array does. -/
  | outOfBounds (stop size : Nat)
  deriving DecidableEq

/-- The text shown to the caller. -/
def WindowError.message : WindowError → String
  | .inverted start stop => s!"range start {start} is greater than range end {stop}"
  | .outOfBounds stop size =>
    s!"range end {stop} is out of bounds for slice of length {size}"

namespace Window

/-- The window that is the whole of an array of `size` elements. -/
def all (size : Nat) : Window := ⟨0, size⟩

/-- Refuses a window that is no part of an array of `size` elements (`check_range`). -/
def check (w : Window) (size : Nat) : Except WindowError Unit :=
  if w.stop < w.start then .error (.inverted w.start w.stop)
  else if size < w.stop then .error (.outOfBounds w.stop size)
  else .ok ()

theorem check_eq_ok_iff {w : Window} {size : Nat} :
    w.check size = .ok () ↔ w.start ≤ w.stop ∧ w.stop ≤ size := by
  unfold check
  split
  · simp; omega
  · split <;> simp <;> omega

end Window

end ForkJoin
