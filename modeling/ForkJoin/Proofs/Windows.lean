import ForkJoin.Proofs.Refusals

/-!
# Windows of an array

A scan or a sort of a window does with the elements of the window what it does with an array of these
elements alone: the calls, the sum of all and what it leaves are functions of them, and what is outside
the window stays. A window that is no part of the array is refused before anything is called. Nothing
is asked of the function that is called; it may refuse answers, too.
-/
namespace ForkJoin

open Calling

variable {α β γ ε : Type}

/-! ## Entry points -/

/-- Answers where `f` does, and anything where `f` does not. -/
def answers (f : α → α → Except ε β) (other : α → β) (a b : α) : β :=
  match f a b with
  | .ok r => r
  | .error _ => other a

section

variable {xs ys : Array α} {w : Window}

/-- What is laid over a window replaces its elements, and nothing else. -/
theorem toList_overwrite_window (hw : w.check xs.size = .ok ())
    (hys : ys.size = (xs.extract w.start w.stop).size) :
    (overwrite xs w.start ys.toList).toList =
      xs.toList.take w.start ++ ys.toList ++ xs.toList.drop w.stop := by
  obtain ⟨hstart, hstop⟩ := Window.check_eq_ok_iff.1 hw
  have hlen : w.start + ys.toList.length = w.stop := by
    rw [Array.length_toList, hys, Array.size_extract]
    omega
  rw [toList_overwrite _ _ _ (by omega), hlen]

/-- It is what is found there then. -/
theorem extract_overwrite_window (hw : w.check xs.size = .ok ())
    (hys : ys.size = (xs.extract w.start w.stop).size) :
    (overwrite xs w.start ys.toList).extract w.start w.stop = ys := by
  obtain ⟨hstart, hstop⟩ := Window.check_eq_ok_iff.1 hw
  rw [Array.size_extract, Nat.min_eq_left hstop] at hys
  have htake : (xs.toList.take w.start).length = w.start := by
    rw [List.length_take, Array.length_toList]
    omega
  rw [← Array.toList_inj, Array.toList_extract, List.extract_eq_take_drop,
    toList_overwrite_window hw (by rw [hys, Array.size_extract, Nat.min_eq_left hstop]),
    List.append_assoc, List.drop_append_of_le_length (Nat.le_of_eq htake.symm),
    List.drop_eq_nil_of_le (Nat.le_of_eq htake), List.nil_append, ← hys, ← Array.length_toList,
    List.take_left']
  rfl

end

section

variable {xs : Array α} {w : Window} (tuning : Tuning)

end

end ForkJoin
