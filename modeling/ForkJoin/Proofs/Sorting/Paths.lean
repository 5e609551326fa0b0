import ForkJoin.Sorting.Latch

/-!
# The way of a report

The last report to a latch is passed on, or goes on as the report of the merge that it triggers.
The path of a latch is this way, up to the root. Two pieces of work are ordered by the latches if
one goes into a merge that the other is a part of: on its path there is the trigger of the merge,
and the path of the other reaches what the merge reports to, but not by way of the trigger.
-/
namespace ForkJoin.Sorting

namespace Latch

/-- What hears of the last report to a latch, at once or after the merge that it triggers. -/
def up : Latch → Option Latch
  | root _ => none
  | part _ whole => some whole
  | trigger _ _ next => some next

/-- The latch, and all that its last report leads to. -/
def path : Latch → List Latch
  | root id => [root id]
  | part id whole => part id whole :: whole.path
  | trigger id m next => trigger id m next :: next.path

/-- The first on the path that is not a part: the merge, or the end of the sort, that waits for
it. -/
def gate : Latch → Latch
  | part _ whole => whole.gate
  | latch => latch

/-- What is reported to the first latch goes into a merge that is reported to the second. -/
def Precedes (first second : Latch) : Prop :=
  ∃ id m next, trigger id m next ∈ first.path ∧ next ∈ second.path ∧
    trigger id m next ∉ second.path

variable {L X Y : Latch}

/-! ## Paths -/

@[simp] theorem self_mem_path (L : Latch) : L ∈ L.path := by
  cases L <;> exact List.mem_cons_self

theorem path_of_up (h : L.up = some X) : L.path = L :: X.path := by
  cases L with
  | root id => cases h
  | part id whole => cases h; rfl
  | trigger id m next => cases h; rfl

theorem mem_path_of_up (h : L.up = some X) (hY : Y ∈ X.path) : Y ∈ L.path := by
  rw [path_of_up h]
  exact List.mem_cons_of_mem L hY

theorem mem_path_part {id : Nat} : Y ∈ (part id X).path ↔ Y = part id X ∨ Y ∈ X.path :=
  List.mem_cons

theorem mem_path_trigger {id : Nat} {m : Merge} :
    Y ∈ (trigger id m X).path ↔ Y = trigger id m X ∨ Y ∈ X.path :=
  List.mem_cons

/-- The path of what is on a path is the rest of it. -/
theorem path_suffix (h : X ∈ L.path) : X.path <:+ L.path := by
  induction L with
  | root id =>
    obtain rfl := List.mem_singleton.1 h
    exact List.suffix_refl _
  | part id whole ih =>
    rcases mem_path_part.1 h with rfl | h
    · exact List.suffix_refl _
    · exact (ih h).trans (List.suffix_cons _ _)
  | trigger id m next ih =>
    rcases mem_path_trigger.1 h with rfl | h
    · exact List.suffix_refl _
    · exact (ih h).trans (List.suffix_cons _ _)

/-- A path goes up only: what is above a latch does not lead back to it. -/
theorem not_mem_path_of_up (h : L.up = some X) (hY : Y ∈ X.path) : L ∉ Y.path := by
  intro hL
  have hYX := (path_suffix hY).length_le
  have hLY := (path_suffix hL).length_le
  rw [path_of_up h, List.length_cons] at hLY
  omega

/-- What is on a path is its start, or is told by another on the path. -/
theorem eq_or_exists_below (h : X ∈ L.path) : X = L ∨ ∃ Y ∈ L.path, Y.up = some X := by
  induction L with
  | root id => exact .inl (List.mem_singleton.1 h)
  | part id whole ih =>
    rcases mem_path_part.1 h with rfl | h
    · exact .inl rfl
    · rcases ih h with rfl | ⟨Y, hY, hup⟩
      · exact .inr ⟨_, List.mem_cons_self, rfl⟩
      · exact .inr ⟨Y, List.mem_cons_of_mem _ hY, hup⟩
  | trigger id m next ih =>
    rcases mem_path_trigger.1 h with rfl | h
    · exact .inl rfl
    · rcases ih h with rfl | ⟨Y, hY, hup⟩
      · exact .inr ⟨_, List.mem_cons_self, rfl⟩
      · exact .inr ⟨Y, List.mem_cons_of_mem _ hY, hup⟩

/-! ## Gates -/

theorem gate_mem_path (L : Latch) : L.gate ∈ L.path := by
  induction L with
  | root id => exact self_mem_path _
  | part id whole ih => exact List.mem_cons_of_mem _ ih
  | trigger id m next _ => exact self_mem_path _

/-- A path has no trigger before its gate. -/
theorem mem_path_gate {id : Nat} {m : Merge} (h : trigger id m X ∈ L.path) :
    trigger id m X ∈ L.gate.path := by
  induction L with
  | root id => exact h
  | part id whole ih =>
    rcases mem_path_part.1 h with h | h
    · cases h
    · exact ih h
  | trigger id m next _ => exact h

/-- What a merge behind the gate is reported to does not lead to the gate. -/
theorem gate_not_mem_path {id : Nat} {m : Merge} (h : trigger id m X ∈ L.path) :
    L.gate ∉ X.path := fun hgate =>
  not_mem_path_of_up (L := trigger id m X) rfl hgate (mem_path_gate h)

end Latch

end ForkJoin.Sorting
