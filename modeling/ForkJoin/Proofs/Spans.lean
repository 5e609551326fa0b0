import ForkJoin.Span

/-!
# Reading and writing spans

When one span lies inside another, and what is read back from where something was written: inside,
what was written; outside, what was there before.
-/
namespace ForkJoin

namespace Span

variable {α : Type} {a b c : Span}

def Inside (a b : Span) : Prop := b.start ≤ a.start ∧ a.stop ≤ b.stop

theorem Inside.refl (a : Span) : a.Inside a := ⟨Nat.le_refl _, Nat.le_refl _⟩

theorem Inside.trans (h : a.Inside b) (h' : b.Inside c) : a.Inside c :=
  ⟨Nat.le_trans h'.1 h.1, Nat.le_trans h.2 h'.2⟩

theorem lower_inside (a : Span) : a.lower.Inside a := by
  simp only [Inside, lower, stop]; omega

theorem upper_inside (a : Span) : a.upper.Inside a := by
  simp only [Inside, upper, stop]; omega

/-- What is longer does not lie inside. -/
theorem not_inside_of_len (h : b.len < a.len) : ¬ a.Inside b := by
  simp only [Inside, stop]; omega

theorem upper_not_inside_lower (h : 0 < a.upper.len) : ¬ a.upper.Inside a.lower := by
  simp only [Inside, upper, lower, stop] at *; omega

theorem lower_not_inside_upper (h : 0 < a.lower.len) : ¬ a.lower.Inside a.upper := by
  simp only [Inside, upper, lower, stop] at *; omega

/-- The positions of a span, from left to right. -/
def positions (s : Span) : List Nat := List.range' s.start s.len

theorem positions_halves (s : Span) : s.lower.positions ++ s.upper.positions = s.positions := by
  unfold positions
  rw [← s.len_halves, ← List.range'_append_1]
  rfl

theorem read?_of_le {xs : Array α} (h : a.stop ≤ xs.size) :
    a.read? xs = some (xs.extract a.start a.stop) := if_pos h

end Span

/-! ## Overwriting -/

theorem getElem?_overwrite_outside {α : Type} (xs : Array α) {i j : Nat} (ys : List α)
    (h : j < i ∨ i + ys.length ≤ j) : (overwrite xs i ys)[j]? = xs[j]? := by
  induction ys generalizing xs i with
  | nil => rfl
  | cons y ys ih =>
    rw [List.length_cons] at h
    rw [overwrite, ih _ (by omega), Array.getElem?_setIfInBounds_ne (by omega)]

theorem extract_overwrite {α : Type} (xs : Array α) (i : Nat) (ys : List α)
    (h : i + ys.length ≤ xs.size) :
    ((overwrite xs i ys).extract i (i + ys.length)).toList = ys := by
  have hi : (xs.toList.take i).length = i := by
    rw [List.length_take, Array.length_toList]; omega
  rw [Array.toList_extract, List.extract, toList_overwrite xs i ys h, List.append_assoc,
    List.drop_append_of_le_length (by omega), List.drop_of_length_le (by omega), List.nil_append,
    Nat.add_sub_cancel_left, List.take_left]

end ForkJoin
