import Mathlib.Data.List.Nodup
import ForkJoin.Proofs.Sorting.Balance
import ForkJoin.Proofs.Sorting.Deeds

/-!
# What the log tells of the latches

From the log one reads which latches were made, what was done, and what came to a latch. A latch
gets as many reports as it waits for from the start, with those announced since, and one more; only
that one is the last. `Chronicle` is how much of it has come true so far.
-/
namespace ForkJoin.Sorting

/-- The number of reports that a new latch waits for before the last one. -/
def Latch.expects : Latch → Nat
  | root _ => 0
  | part _ _ => 0
  | trigger _ _ _ => 1

/-- The latches that were made. -/
def opened (log : List Event) : List Latch :=
  log.filterMap fun
    | .opened X => some X
    | _ => none

/-- What was done. -/
def deeds (log : List Event) : List Deed :=
  log.filterMap fun
    | .did latch job => some ⟨latch, job⟩
    | _ => none

/-- The reports that came to a latch: of each, whether it was the last one. -/
def arrivals (X : Latch) (log : List Event) : List Bool :=
  log.filterMap fun
    | .arrived Y last => if Y = X then some last else none
    | _ => none

/-- The number of reports to a latch that were announced. -/
def raises (X : Latch) (log : List Event) : Nat :=
  log.count (.raised X)

section

variable (log : List Event) (e : Event) (X Y : Latch)

theorem opened_concat : opened (log ++ [e]) = opened log ++ opened [e] := List.filterMap_append

theorem deeds_concat : deeds (log ++ [e]) = deeds log ++ deeds [e] := List.filterMap_append

theorem arrivals_concat : arrivals X (log ++ [e]) = arrivals X log ++ arrivals X [e] :=
  List.filterMap_append

theorem raises_concat : raises X (log ++ [e]) = raises X log + raises X [e] := List.count_append

@[simp] theorem opened_opened : opened [.opened X] = [X] := rfl

@[simp] theorem opened_raised : opened [.raised X] = [] := rfl

@[simp] theorem opened_arrived (last : Bool) : opened [.arrived X last] = [] := rfl

@[simp] theorem deeds_did (job : Job) : deeds [.did X job] = [⟨X, job⟩] := rfl

@[simp] theorem arrivals_opened : arrivals X [.opened Y] = [] := rfl

@[simp] theorem arrivals_raised : arrivals X [.raised Y] = [] := rfl

theorem arrivals_arrived (last : Bool) :
    arrivals X [.arrived Y last] = if Y = X then [last] else [] := by
  simp only [arrivals, List.filterMap_cons, List.filterMap_nil]
  split <;> rename_i h
  · rw [if_neg fun hYX => by rw [if_pos hYX] at h; cases h]
  · rw [if_pos (by by_contra hYX; rw [if_neg hYX] at h; cases h)]
    split at h <;> simp_all

@[simp] theorem raises_opened : raises X [.opened Y] = 0 := by
  simp [raises]

@[simp] theorem raises_arrived (last : Bool) : raises X [.arrived Y last] = 0 := by
  simp [raises]

theorem raises_raised : raises X [.raised Y] = if Y = X then 1 else 0 := by
  simp [raises, List.count_singleton]

end

/-- The reports that a latch gets, up to the one before the last. -/
abbrev expected (X : Latch) (log : List Event) : Nat := X.expects + raises X log

/-- What has come to each latch so far. -/
structure Chronicle (log : List Event) (waiting : Multiset Latch) (pending : Array UInt32) :
    Prop where
  ids : (opened log).map Latch.id = List.range pending.size
  known : ∀ X ∈ waiting, X ∈ opened log
  /-- Nothing is told of a latch before it is made. -/
  after : ∀ X, X ∉ opened log → arrivals X log = [] ∧ raises X log = 0
  paths : ∀ X ∈ opened log, ∀ Y ∈ X.path, Y ∈ opened log
  due : ∀ X ∈ waiting, ∀ p, pending[X.id]? = some p →
    ∃ k, arrivals X log = List.replicate k false ∧ k + p.toNat = expected X log
  gone : ∀ X ∈ opened log, X ∉ waiting →
    arrivals X log = List.replicate (expected X log) false ++ [true]
  /-- No count goes below zero. -/
  solvent : ∀ before, before <+: log → ∀ X,
    (arrivals X before).count false ≤ expected X before
  rooted : .root 0 ∈ opened log

namespace Chronicle

variable {log : List Event} {waiting : Multiset Latch} {pending : Array UInt32} {X Y : Latch}
  {p : UInt32}

section

variable (h : Chronicle log waiting pending)

include h

theorem id_lt (hX : X ∈ opened log) : X.id < pending.size := by
  rw [← List.mem_range, ← h.ids]
  exact List.mem_map_of_mem hX

theorem not_opened (hX : pending.size ≤ X.id) : X ∉ opened log := fun hmem =>
  Nat.not_lt.2 hX (h.id_lt hmem)

theorem eq_of_id (hX : X ∈ opened log) (hY : Y ∈ opened log) (hid : X.id = Y.id) : X = Y :=
  List.inj_on_of_nodup_map (h.ids ▸ List.nodup_range) hX hY hid

/-- A counter that changes is that of one latch only. -/
theorem pending_set (hX : X ∈ opened log) (hY : Y ∈ opened log) (q : UInt32) :
    (pending.setIfInBounds X.id q)[Y.id]? = if Y = X then some q else pending[Y.id]? :=
  Latch.getElem?_set (h.id_lt hY) (h.eq_of_id hX hY) q

/-- What holds of the log so far and of the log with one more event holds of all its parts. -/
theorem solvent_concat {e : Event}
    (he : ∀ X, (arrivals X (log ++ [e])).count false ≤ expected X (log ++ [e])) :
    ∀ before, before <+: log ++ [e] → ∀ X, (arrivals X before).count false ≤ expected X before := by
  intro before hbefore X
  rcases List.prefix_concat_iff.1 hbefore with rfl | hbefore
  · exact he X
  · exact h.solvent before hbefore X

end

/-! ## Events -/

/-- An event that tells nothing of a latch. -/
structure Quiet (e : Event) : Prop where
  opened : opened [e] = []
  arrivals : ∀ X, arrivals X [e] = []
  raises : ∀ X, raises X [e] = 0

theorem quiet_did (L : Latch) (job : Job) : Quiet (.did L job) :=
  ⟨rfl, fun _ => rfl, fun X => by simp [Sorting.raises]⟩

theorem quiet_completed : Quiet .completed :=
  ⟨rfl, fun _ => rfl, fun X => by simp [Sorting.raises]⟩

theorem quiet (h : Chronicle log waiting pending) {e : Event} (he : Quiet e) :
    Chronicle (log ++ [e]) waiting pending := by
  have hopened : opened (log ++ [e]) = opened log := by
    rw [opened_concat, he.opened, List.append_nil]
  have harrivals : ∀ X, arrivals X (log ++ [e]) = arrivals X log := fun X => by
    rw [arrivals_concat, he.arrivals, List.append_nil]
  have hraises : ∀ X, raises X (log ++ [e]) = raises X log := fun X => by
    rw [raises_concat, he.raises, Nat.add_zero]
  constructor
  case ids => rw [hopened, h.ids]
  case known =>
    rw [hopened]
    exact h.known
  case after =>
    simp only [hopened, harrivals, hraises]
    exact h.after
  case paths =>
    rw [hopened]
    exact h.paths
  case due =>
    simp only [harrivals, expected, hraises]
    exact h.due
  case gone =>
    simp only [hopened, harrivals, expected, hraises]
    exact h.gone
  case solvent =>
    refine h.solvent_concat ?_
    simp only [harrivals, expected, hraises]
    exact h.solvent log (List.prefix_refl log)
  case rooted => exact hopened ▸ h.rooted

/-- An event that makes no latch, and tells nothing of any latch but one. -/
structure Concerns (X : Latch) (e : Event) : Prop where
  opened : opened [e] = []
  arrivals : ∀ Y, Y ≠ X → arrivals Y [e] = []
  raises : ∀ Y, Y ≠ X → raises Y [e] = 0

theorem concerns_raised (X : Latch) : Concerns X (.raised X) :=
  ⟨opened_raised X, fun Y _ => arrivals_raised Y X, fun _ hY => by
    rw [raises_raised, if_neg hY.symm]⟩

theorem concerns_arrived (X : Latch) (last : Bool) : Concerns X (.arrived X last) :=
  ⟨opened_arrived X last, fun _ hY => by rw [arrivals_arrived, if_neg hY.symm],
    fun Y _ => raises_arrived Y X last⟩

/-- A latch is made. -/
theorem opened (h : Chronicle log waiting pending) (hid : Y.id = pending.size) (hup : Y.up = some X)
    (hX : X ∈ opened log) (hp : p.toNat = Y.expects) :
    Chronicle (log ++ [.opened Y]) (Y ::ₘ waiting) (pending.push p) := by
  have hY : Y ∉ Sorting.opened log := h.not_opened hid.ge
  have hopened : Sorting.opened (log ++ [.opened Y]) = Sorting.opened log ++ [Y] := by
    rw [opened_concat, opened_opened]
  have harrivals : ∀ Z, arrivals Z (log ++ [.opened Y]) = arrivals Z log := fun Z => by
    rw [arrivals_concat, arrivals_opened, List.append_nil]
  have hraises : ∀ Z, raises Z (log ++ [.opened Y]) = raises Z log := fun Z => by
    rw [raises_concat, raises_opened, Nat.add_zero]
  constructor
  case ids =>
    rw [hopened, List.map_append, h.ids, Array.size_push, List.range_succ, List.map_singleton, hid]
  case known =>
    intro Z hZ
    rw [hopened, List.mem_append, List.mem_singleton]
    exact (Multiset.mem_cons.1 hZ).symm.imp_left (h.known Z)
  case after =>
    intro Z hZ
    rw [hopened, List.mem_append, not_or] at hZ
    rw [harrivals, hraises]
    exact h.after Z hZ.1
  case paths =>
    intro Z hZ W hW
    rw [hopened, List.mem_append, List.mem_singleton] at hZ ⊢
    rcases hZ with hZ | rfl
    · exact .inl (h.paths Z hZ W hW)
    · rw [Latch.path_of_up hup, List.mem_cons] at hW
      exact hW.symm.imp_left (h.paths X hX W)
  case due =>
    intro Z hZ q hq
    simp only [harrivals, expected, hraises]
    rcases Multiset.mem_cons.1 hZ with rfl | hZ
    · obtain ⟨hnone, hzero⟩ := h.after Z hY
      rw [hid, Array.getElem?_push_size] at hq
      obtain rfl := Option.some.inj hq
      exact ⟨0, by rw [hnone, List.replicate_zero], by rw [hzero]; omega⟩
    · rw [Array.getElem?_push, if_neg (h.id_lt (h.known Z hZ)).ne] at hq
      exact h.due Z hZ q hq
  case gone =>
    intro Z hZ hwaiting
    simp only [harrivals, expected, hraises]
    rw [Multiset.mem_cons, not_or] at hwaiting
    rw [hopened, List.mem_append, List.mem_singleton] at hZ
    exact h.gone Z (hZ.resolve_right hwaiting.1) hwaiting.2
  case solvent =>
    refine h.solvent_concat ?_
    simp only [harrivals, expected, hraises]
    exact h.solvent log (List.prefix_refl log)
  case rooted => exact hopened ▸ List.mem_append_left _ h.rooted

/-- **What concerns one latch** leaves the others as they are. That one may stop waiting. -/
theorem concerning (h : Chronicle log waiting pending) (hX : X ∈ waiting) {e : Event}
    (he : Concerns X e) {waiting' : Multiset Latch} (hsub : ∀ Z ∈ waiting', Z ∈ waiting)
    (hrest : ∀ Z ∈ waiting, Z ≠ X → Z ∈ waiting') {q : UInt32}
    (hdue : X ∈ waiting' → ∃ k, arrivals X (log ++ [e]) = List.replicate k false ∧
      k + q.toNat = expected X (log ++ [e]))
    (hgone : X ∉ waiting' →
      arrivals X (log ++ [e]) = List.replicate (expected X (log ++ [e])) false ++ [true])
    (hcount : (arrivals X (log ++ [e])).count false ≤ expected X (log ++ [e])) :
    Chronicle (log ++ [e]) waiting' (pending.setIfInBounds X.id q) := by
  have hopened : Sorting.opened (log ++ [e]) = Sorting.opened log := by
    rw [opened_concat, he.opened, List.append_nil]
  have harrivals : ∀ Z, Z ≠ X → arrivals Z (log ++ [e]) = arrivals Z log := fun Z hZ => by
    rw [arrivals_concat, he.arrivals Z hZ, List.append_nil]
  have hraises : ∀ Z, Z ≠ X → raises Z (log ++ [e]) = raises Z log := fun Z hZ => by
    rw [raises_concat, he.raises Z hZ, Nat.add_zero]
  constructor
  case ids => rw [hopened, h.ids, Array.size_setIfInBounds]
  case known =>
    rw [hopened]
    exact fun Z hZ => h.known Z (hsub Z hZ)
  case after =>
    intro Z hZ
    rw [hopened] at hZ
    have hZX : Z ≠ X := fun heq => hZ (heq ▸ h.known X hX)
    rw [harrivals Z hZX, hraises Z hZX]
    exact h.after Z hZ
  case paths =>
    rw [hopened]
    exact h.paths
  case due =>
    intro Z hZ r hr
    rw [h.pending_set (h.known X hX) (h.known Z (hsub Z hZ))] at hr
    by_cases hZX : Z = X
    · subst hZX
      rw [if_pos rfl] at hr
      obtain rfl := Option.some.inj hr
      exact hdue hZ
    · rw [if_neg hZX] at hr
      rw [expected, harrivals Z hZX, hraises Z hZX]
      exact h.due Z (hsub Z hZ) r hr
  case gone =>
    intro Z hZ hwaiting
    rw [hopened] at hZ
    by_cases hZX : Z = X
    · subst hZX
      exact hgone hwaiting
    · rw [expected, harrivals Z hZX, hraises Z hZX]
      exact h.gone Z hZ fun hmem => hwaiting (hrest Z hmem hZX)
  case solvent =>
    refine h.solvent_concat fun Z => ?_
    by_cases hZX : Z = X
    · subst hZX
      exact hcount
    · rw [expected, harrivals Z hZX, hraises Z hZX]
      exact h.solvent log (List.prefix_refl log) Z
  case rooted => exact hopened ▸ h.rooted

/-- One more report is announced. -/
theorem raised (h : Chronicle log waiting pending) (hX : X ∈ waiting)
    (hp : pending[X.id]? = some p) (hlt : p.toNat + 1 < 2 ^ 32) :
    Chronicle (log ++ [.raised X]) waiting (pending.setIfInBounds X.id (p + 1)) := by
  have harrivals : arrivals X (log ++ [.raised X]) = arrivals X log := by
    rw [arrivals_concat, arrivals_raised, List.append_nil]
  have hexpected : expected X (log ++ [.raised X]) = expected X log + 1 := by
    rw [expected, raises_concat, raises_raised, if_pos rfl, ← Nat.add_assoc]
  obtain ⟨k, hk, hsum⟩ := h.due X hX p hp
  refine h.concerning hX (concerns_raised X) (fun _ hZ => hZ) (fun _ hZ _ => hZ) (fun _ => ?_)
    (absurd hX) ?_
  · refine ⟨k, harrivals.trans hk, ?_⟩
    rw [hexpected, UInt32.toNat_add, UInt32.toNat_one, Nat.mod_eq_of_lt hlt]
    omega
  · rw [harrivals, hexpected]
    exact Nat.le_succ_of_le (h.solvent log (List.prefix_refl log) X)

section

variable (X log) (last : Bool)

theorem arrivals_told : arrivals X (log ++ [.arrived X last]) = arrivals X log ++ [last] := by
  rw [arrivals_concat, arrivals_arrived, if_pos rfl]

theorem expected_told : expected X (log ++ [.arrived X last]) = expected X log := by
  rw [expected, raises_concat, raises_arrived, Nat.add_zero]

end

/-- A report comes that is not the last one. -/
theorem told_early (h : Chronicle log waiting pending) (hX : X ∈ waiting)
    (hp : pending[X.id]? = some p) (h0 : p ≠ 0) :
    Chronicle (log ++ [.arrived X false]) waiting (pending.setIfInBounds X.id (p - 1)) := by
  have hsub := toNat_sub_one h0
  obtain ⟨k, hk, hsum⟩ := h.due X hX p hp
  refine h.concerning hX (concerns_arrived X false) (fun _ hZ => hZ) (fun _ hZ _ => hZ)
    (fun _ => ?_) (absurd hX) ?_
  · exact ⟨k + 1, by rw [arrivals_told, hk, ← List.replicate_succ'], by rw [expected_told]; omega⟩
  · rw [arrivals_told, expected_told, hk, List.count_append, List.count_replicate_self,
      List.count_singleton_self]
    omega

/-- The last report comes. -/
theorem told_last (h : Chronicle log (X ::ₘ waiting) pending) (hX : X ∉ waiting)
    (hp : pending[X.id]? = some 0) (q : UInt32) :
    Chronicle (log ++ [.arrived X true]) waiting (pending.setIfInBounds X.id q) := by
  have hmem := Multiset.mem_cons_self X waiting
  obtain ⟨k, hk, hsum⟩ := h.due X hmem 0 hp
  rw [UInt32.toNat_zero, Nat.add_zero] at hsum
  refine h.concerning hmem (concerns_arrived X true) (fun _ => Multiset.mem_cons_of_mem)
    (fun Z hZ hZX => (Multiset.mem_cons.1 hZ).resolve_left hZX) (fun hwaiting => absurd hwaiting hX)
    (fun _ => ?_) ?_
  · rw [arrivals_told, expected_told, hk, hsum]
  · rw [arrivals_told, expected_told, List.count_append]
    exact h.solvent log (List.prefix_refl log) X

end Chronicle

end ForkJoin.Sorting
