import Mathlib.Data.Finset.Max
import Mathlib.Data.Multiset.Count
import Mathlib.Data.Multiset.Filter
import Mathlib.Data.Multiset.MapFold
import Mathlib.Data.Multiset.Replicate
import ForkJoin.Proofs.Sorting.Paths

/-!
# Supply and demand of reports

A latch is waiting until its last report has come. What still has a report to make to it is who is
under way to it, and each other waiting latch that it is told by. Their number is what the counter
of the latch says, at any time and for all latches; and what a merge reports to waits for nothing
but the trigger as long as that is waiting. From this it follows that nobody is under way to a
latch whose last report has come, nor to a part of it.
-/
namespace ForkJoin.Sorting

/-- All the reports still to come, by the latches to which they are made. Who is under way makes
one, and each waiting latch makes one in the end. -/
def reports (walking waiting : Multiset Latch) : Multiset Latch :=
  walking + waiting.filterMap Latch.up

/-- The counters say how many reports are still to come. -/
structure Balanced (walking waiting : Multiset Latch) (pending : Array UInt32) : Prop where
  ids : (waiting.map Latch.id).Nodup
  known : ∀ X ∈ reports walking waiting, X ∈ waiting
  counts : ∀ X ∈ waiting, ∃ p, pending[X.id]? = some p ∧
    p.toNat + 1 = (reports walking waiting).count X
  /-- What a merge reports to is told by nobody before the merge. -/
  alone : ∀ id m next, Latch.trigger id m next ∈ waiting →
    (reports walking waiting).count next = 1
  rooted : ∀ X ∈ waiting, Latch.root 0 ∈ X.path

theorem toNat_sub_one {p : UInt32} (h : p ≠ 0) : (p - 1).toNat + 1 = p.toNat := by
  have hpos : 0 < p.toNat := Nat.pos_of_ne_zero fun hzero => h (UInt32.toNat_inj.1 hzero)
  have hle : (1 : UInt32) ≤ p := UInt32.le_iff_toNat_le.2 hpos
  rw [UInt32.toNat_sub_of_le _ _ hle, UInt32.toNat_one, Nat.sub_add_cancel hpos]

/-- A counter that changes is that of one latch only, if no other latch has its number. -/
theorem Latch.getElem?_set {pending : Array UInt32} {X Y : Latch} (hY : Y.id < pending.size)
    (hid : X.id = Y.id → X = Y) (q : UInt32) :
    (pending.setIfInBounds X.id q)[Y.id]? = if Y = X then some q else pending[Y.id]? := by
  by_cases hYX : Y = X
  · subst hYX
    rw [Array.getElem?_setIfInBounds_self_of_lt hY, if_pos rfl]
  · rw [Array.getElem?_setIfInBounds_ne fun heq => hYX (hid heq).symm, if_neg hYX]

namespace Balanced

open Latch

variable {walking waiting : Multiset Latch} {pending : Array UInt32} {X Y : Latch} {p : UInt32}

theorem mem_reports_of_up (hY : Y ∈ waiting) (hup : Y.up = some X) : X ∈ reports walking waiting :=
  Multiset.mem_add.2 (.inr ((Multiset.mem_filterMap _ _).2 ⟨Y, hY, hup⟩))

theorem mem_reports_of_walking (hX : X ∈ walking) : X ∈ reports walking waiting :=
  Multiset.mem_add.2 (.inl hX)

/-! ## Who is waiting -/

section

variable (h : Balanced walking waiting pending)

include h

theorem id_lt (hX : X ∈ waiting) : X.id < pending.size := by
  obtain ⟨p, hp, _⟩ := h.counts X hX
  exact (Array.getElem?_eq_some_iff.1 hp).1

theorem eq_of_id (hX : X ∈ waiting) (hY : Y ∈ waiting) (hid : X.id = Y.id) : X = Y :=
  Multiset.inj_on_of_nodup_map h.ids X hX Y hY hid

/-- What is not waiting gets no reports. -/
theorem count_eq_zero (hX : X ∉ waiting) : (reports walking waiting).count X = 0 :=
  Multiset.count_eq_zero.2 fun hmem => hX (h.known X hmem)

theorem not_waiting (hX : pending.size ≤ X.id) : X ∉ waiting := fun hmem =>
  Nat.not_lt.2 hX (h.id_lt hmem)

/-- All that a waiting latch leads to is waiting. -/
theorem path_waiting (hX : X ∈ waiting) (hY : Y ∈ X.path) : Y ∈ waiting := by
  induction X with
  | root id => rwa [List.mem_singleton.1 hY]
  | part id whole ih =>
    rcases mem_path_part.1 hY with rfl | hY
    · exact hX
    · exact ih (h.known whole (mem_reports_of_up hX rfl)) hY
  | trigger id m next ih =>
    rcases mem_path_trigger.1 hY with rfl | hY
    · exact hX
    · exact ih (h.known next (mem_reports_of_up hX rfl)) hY

theorem walking_waiting (hX : X ∈ walking) : X ∈ waiting :=
  h.known X (mem_reports_of_walking hX)

/-- While a trigger is waiting, no other waiting latch tells what its merge reports to. -/
theorem eq_trigger {id : Nat} {m : Merge} {next : Latch} (hT : trigger id m next ∈ waiting)
    (hY : Y ∈ waiting) (hup : Y.up = some next) : Y = trigger id m next := by
  by_contra hne
  obtain ⟨rest, hrest⟩ := Multiset.exists_cons_of_mem hT
  obtain ⟨rest', hrest'⟩ := Multiset.exists_cons_of_mem <|
    (Multiset.mem_cons.1 (hrest ▸ hY)).resolve_left hne
  have halone := h.alone id m next hT
  rw [reports, hrest, hrest', Multiset.filterMap_cons_some _ _ _ (by rfl),
    Multiset.filterMap_cons_some _ _ _ hup] at halone
  simp only [Multiset.count_add, Multiset.count_cons_self] at halone
  omega

/-- While a trigger is waiting, what its merge reports to is reached by way of the trigger only. -/
theorem eq_next {id : Nat} {m : Merge} {next : Latch} (hT : trigger id m next ∈ waiting)
    (hX : X ∈ waiting) (hnext : next ∈ X.path) (hmem : trigger id m next ∉ X.path) : X = next := by
  refine ((eq_or_exists_below hnext).resolve_right ?_).symm
  rintro ⟨Y, hY, hup⟩
  exact hmem (h.eq_trigger hT (h.path_waiting hX hY) hup ▸ hY)

/-- Who is under way to where a merge reports, while the trigger is waiting, comes by the
trigger. -/
theorem trigger_mem_path {id : Nat} {m : Merge} {next : Latch} (hX : X ∈ walking)
    (hT : trigger id m next ∈ waiting) (hnext : next ∈ X.path) : trigger id m next ∈ X.path := by
  by_contra hmem
  obtain rfl := h.eq_next hT (h.walking_waiting hX) hnext hmem
  obtain ⟨rest, rfl⟩ := Multiset.exists_cons_of_mem hX
  obtain ⟨rest', hrest'⟩ := Multiset.exists_cons_of_mem hT
  have halone := h.alone id m X hT
  rw [reports, hrest', Multiset.filterMap_cons_some _ _ _ (by rfl)] at halone
  simp only [Multiset.count_add, Multiset.count_cons_self] at halone
  omega

/-- Nobody is under way right to where a merge reports while the trigger is waiting. -/
theorem next_ne {id : Nat} {m : Merge} {next : Latch} (hX : X ∈ walking)
    (hT : trigger id m next ∈ waiting) : next ≠ X := by
  rintro rfl
  have hpath := h.trigger_mem_path hX hT (self_mem_path next)
  exact not_mem_path_of_up (L := trigger id m next) rfl (self_mem_path next) hpath

end

/-- No latch waits twice. -/
theorem not_mem_rest (h : Balanced walking (X ::ₘ waiting) pending) : X ∉ waiting := by
  have hids := h.ids
  rw [Multiset.map_cons, Multiset.nodup_cons] at hids
  exact fun hX => hids.1 (Multiset.mem_map_of_mem _ hX)

/-- If nobody is under way, no latch is waiting. -/
theorem waiting_eq_zero (h : Balanced 0 waiting pending) : waiting = 0 := by
  -- the one with the longest path would wait for another
  by_contra hne
  obtain ⟨Z, hZ⟩ := Multiset.exists_mem_of_ne_zero hne
  obtain ⟨X, hX, hmax⟩ := waiting.toFinset.exists_max_image (fun X => X.path.length)
    ⟨Z, Multiset.mem_toFinset.2 hZ⟩
  rw [Multiset.mem_toFinset] at hX
  obtain ⟨p, _, hcount⟩ := h.counts X hX
  have hmem : X ∈ reports 0 waiting := Multiset.count_pos.1 (by omega)
  rw [reports, zero_add] at hmem
  obtain ⟨Y, hY, hup⟩ := (Multiset.mem_filterMap _ _).1 hmem
  have hlong := hmax Y (Multiset.mem_toFinset.2 hY)
  rw [path_of_up hup, List.length_cons] at hlong
  omega

/-! ## What a step does to the balance -/

/-- A new latch is told by those who were to tell an old one, and tells the old one itself. -/
theorem opened (h : Balanced (X ::ₘ walking) waiting pending) {k : Nat} (hid : Y.id = pending.size)
    (hup : Y.up = some X) (hp : p.toNat + 1 = k)
    (halone : ∀ id m, Y = trigger id m X → (reports (X ::ₘ walking) waiting).count X = 1) :
    Balanced (Multiset.replicate k Y + walking) (Y ::ₘ waiting) (pending.push p) := by
  have hreports : reports (Multiset.replicate k Y + walking) (Y ::ₘ waiting) =
      Multiset.replicate k Y + reports (X ::ₘ walking) waiting := by
    rw [reports, reports, Multiset.filterMap_cons_some _ _ _ hup, Multiset.add_cons,
      Multiset.cons_add, Multiset.add_cons, add_assoc]
  have hY : Y ∉ waiting := h.not_waiting hid.ge
  have hX : X ∈ waiting := h.walking_waiting (Multiset.mem_cons_self X walking)
  have hcount : ∀ Z ∈ waiting, (Multiset.replicate k Y + reports (X ::ₘ walking) waiting).count Z =
      (reports (X ::ₘ walking) waiting).count Z := by
    intro Z hZ
    have hne : Y ≠ Z := fun heq => hY (heq ▸ hZ)
    rw [Multiset.count_add, Multiset.count_replicate, if_neg hne, Nat.zero_add]
  constructor
  case ids =>
    rw [Multiset.map_cons, Multiset.nodup_cons]
    refine ⟨fun hmem => ?_, h.ids⟩
    obtain ⟨Z, hZ, hZid⟩ := Multiset.mem_map.1 hmem
    exact absurd (h.id_lt hZ) (by omega)
  case known =>
    intro Z hZ
    rw [hreports, Multiset.mem_add] at hZ
    rcases hZ with hZ | hZ
    · exact Multiset.mem_cons.2 (.inl (Multiset.eq_of_mem_replicate hZ))
    · exact Multiset.mem_cons_of_mem (h.known Z hZ)
  case counts =>
    intro Z hZ
    rw [hreports]
    rcases Multiset.mem_cons.1 hZ with rfl | hZ
    · refine ⟨p, by rw [hid, Array.getElem?_push_size], ?_⟩
      rw [Multiset.count_add, Multiset.count_replicate_self, h.count_eq_zero hY, hp, Nat.add_zero]
    · obtain ⟨q, hq, hqcount⟩ := h.counts Z hZ
      exact ⟨q, by rw [Array.getElem?_push, if_neg (h.id_lt hZ).ne, hq],
        by rw [hcount Z hZ, hqcount]⟩
  case alone =>
    intro id m next hT
    rw [hreports]
    rcases Multiset.mem_cons.1 hT with rfl | hT
    · cases hup
      rw [hcount X hX, halone id m rfl]
    · rw [hcount next (h.known next (mem_reports_of_up hT rfl)), h.alone id m next hT]
  case rooted =>
    intro Z hZ
    rcases Multiset.mem_cons.1 hZ with rfl | hZ
    · exact mem_path_of_up hup (h.rooted X hX)
    · exact h.rooted Z hZ

/-- A counter that changes is that of one latch only. -/
theorem pending_set (h : Balanced walking waiting pending) (hX : X ∈ waiting) (hY : Y ∈ waiting)
    (q : UInt32) :
    (pending.setIfInBounds X.id q)[Y.id]? = if Y = X then some q else pending[Y.id]? :=
  getElem?_set (h.id_lt hY) (h.eq_of_id hX hY) q

/-- One more report is announced by somebody who is under way. -/
theorem raised (h : Balanced (X ::ₘ walking) waiting pending) (hp : pending[X.id]? = some p)
    (hlt : p.toNat + 1 < 2 ^ 32) :
    Balanced (X ::ₘ X ::ₘ walking) waiting (pending.setIfInBounds X.id (p + 1)) := by
  have hreports : reports (X ::ₘ X ::ₘ walking) waiting =
      X ::ₘ reports (X ::ₘ walking) waiting := by
    rw [reports, reports, Multiset.cons_add]
  have hX : X ∈ waiting := h.walking_waiting (Multiset.mem_cons_self X walking)
  refine ⟨h.ids, ?_, ?_, ?_, h.rooted⟩
  · intro Z hZ
    rw [hreports, Multiset.mem_cons] at hZ
    exact hZ.elim (fun hZ => hZ ▸ hX) (h.known Z)
  · intro Z hZ
    obtain ⟨q, hq, hqcount⟩ := h.counts Z hZ
    rw [hreports, h.pending_set hX hZ]
    by_cases hZX : Z = X
    · subst hZX
      obtain rfl : p = q := Option.some.inj (hp.symm.trans hq)
      refine ⟨p + 1, if_pos rfl, ?_⟩
      rw [Multiset.count_cons_self, ← hqcount, UInt32.toNat_add, UInt32.toNat_one,
        Nat.mod_eq_of_lt hlt]
    · exact ⟨q, by rw [if_neg hZX, hq], by rw [Multiset.count_cons_of_ne hZX, hqcount]⟩
  · intro id m next hT
    have hne := h.next_ne (Multiset.mem_cons_self X walking) hT
    rw [hreports, Multiset.count_cons_of_ne hne, h.alone id m next hT]

/-- A report that is not the last one. -/
theorem told_early (h : Balanced (X ::ₘ walking) waiting pending) (hp : pending[X.id]? = some p)
    (h0 : p ≠ 0) : Balanced walking waiting (pending.setIfInBounds X.id (p - 1)) := by
  have hreports : reports (X ::ₘ walking) waiting = X ::ₘ reports walking waiting := by
    rw [reports, reports, Multiset.cons_add]
  have hX : X ∈ waiting := h.walking_waiting (Multiset.mem_cons_self X walking)
  refine ⟨h.ids, ?_, ?_, ?_, h.rooted⟩
  · intro Z hZ
    exact h.known Z (hreports ▸ Multiset.mem_cons_of_mem hZ)
  · intro Z hZ
    obtain ⟨q, hq, hqcount⟩ := h.counts Z hZ
    rw [h.pending_set hX hZ]
    rw [hreports] at hqcount
    by_cases hZX : Z = X
    · subst hZX
      obtain rfl : p = q := Option.some.inj (hp.symm.trans hq)
      have hsub := toNat_sub_one h0
      rw [Multiset.count_cons_self] at hqcount
      exact ⟨p - 1, if_pos rfl, by omega⟩
    · rw [Multiset.count_cons_of_ne hZX] at hqcount
      exact ⟨q, by rw [if_neg hZX, hq], hqcount⟩
  · intro id m next hT
    have hne := h.next_ne (Multiset.mem_cons_self X walking) hT
    have halone := h.alone id m next hT
    rwa [hreports, Multiset.count_cons_of_ne hne] at halone

/-- After the last report nobody is left who would tell the latch. -/
theorem not_mem_of_last (h : Balanced (X ::ₘ walking) (X ::ₘ waiting) pending)
    (hp : pending[X.id]? = some 0) : X ∉ walking ∧ X ∉ waiting.filterMap up := by
  obtain ⟨q, hq, hqcount⟩ := h.counts X (Multiset.mem_cons_self X waiting)
  obtain rfl : 0 = q := Option.some.inj (hp.symm.trans hq)
  rw [reports, Multiset.cons_add, Multiset.count_cons_self, UInt32.toNat_zero] at hqcount
  have hzero : (walking + (X ::ₘ waiting).filterMap up).count X = 0 := by omega
  rw [Multiset.count_eq_zero, Multiset.mem_add, not_or] at hzero
  refine ⟨hzero.1, fun hmem => hzero.2 ?_⟩
  obtain ⟨Y, hY, hup⟩ := (Multiset.mem_filterMap _ _).1 hmem
  exact (Multiset.mem_filterMap _ _).2 ⟨Y, Multiset.mem_cons_of_mem hY, hup⟩

/-- The last report to a latch goes on to the one that is told by it. -/
theorem told_last (h : Balanced (X ::ₘ walking) (X ::ₘ waiting) pending)
    (hp : pending[X.id]? = some 0) (hup : X.up = some Y) (q : UInt32) :
    Balanced (Y ::ₘ walking) waiting (pending.setIfInBounds X.id q) := by
  have hreports : reports (X ::ₘ walking) (X ::ₘ waiting) =
      X ::ₘ reports (Y ::ₘ walking) waiting := by
    rw [reports, reports, Multiset.filterMap_cons_some _ _ _ hup, Multiset.cons_add,
      Multiset.add_cons, Multiset.cons_add]
  have hX := h.not_mem_rest
  have hrest : X ∉ reports (Y ::ₘ walking) waiting := by
    obtain ⟨hwalking, hups⟩ := h.not_mem_of_last hp
    have hYX : X ≠ Y := by
      rintro rfl
      exact not_mem_path_of_up hup (self_mem_path _) (self_mem_path _)
    rw [reports, Multiset.mem_add, Multiset.mem_cons]
    rintro ((hXY | hX) | hX)
    · exact hYX hXY
    · exact hwalking hX
    · exact hups hX
  constructor
  case ids =>
    have hids := h.ids
    rw [Multiset.map_cons, Multiset.nodup_cons] at hids
    exact hids.2
  case known =>
    intro Z hZ
    have hZ' := h.known Z (hreports ▸ Multiset.mem_cons_of_mem hZ)
    refine (Multiset.mem_cons.1 hZ').resolve_left ?_
    rintro rfl
    exact hrest hZ
  case counts =>
    intro Z hZ
    have hne : Z ≠ X := fun heq => hX (heq ▸ hZ)
    obtain ⟨q', hq', hcount⟩ := h.counts Z (Multiset.mem_cons_of_mem hZ)
    rw [hreports, Multiset.count_cons_of_ne hne] at hcount
    refine ⟨q', ?_, hcount⟩
    rw [h.pending_set (Multiset.mem_cons_self X waiting) (Multiset.mem_cons_of_mem hZ),
      if_neg hne, hq']
  case alone =>
    intro id m next hT
    have halone := h.alone id m next (Multiset.mem_cons_of_mem hT)
    have hne : next ≠ X := by
      rintro rfl
      exact hrest (mem_reports_of_up hT rfl)
    rwa [hreports, Multiset.count_cons_of_ne hne] at halone
  case rooted =>
    intro Z hZ
    exact h.rooted Z (Multiset.mem_cons_of_mem hZ)

/-- When the last report comes to the root, nothing else is left. -/
theorem told_root (h : Balanced (root 0 ::ₘ walking) (root 0 ::ₘ waiting) pending)
    (hp : pending[(root 0).id]? = some 0) : walking = 0 ∧ waiting = 0 := by
  obtain ⟨hwalking, hups⟩ := h.not_mem_of_last hp
  have hroot := h.not_mem_rest
  have hwaiting : waiting = 0 := by
    refine Multiset.eq_zero_of_forall_notMem fun X hX => ?_
    have hX' := Multiset.mem_cons_of_mem (a := X) (b := root 0) hX
    rcases eq_or_exists_below (h.rooted X hX') with rfl | ⟨Y, hY, hup⟩
    · exact hroot hX
    · refine hups ((Multiset.mem_filterMap _ _).2 ⟨Y, ?_, hup⟩)
      refine (Multiset.mem_cons.1 (h.path_waiting hX' hY)).resolve_left ?_
      rintro rfl
      cases hup
  refine ⟨Multiset.eq_zero_of_forall_notMem fun X hX => ?_, hwaiting⟩
  have hX' := h.walking_waiting (Multiset.mem_cons_of_mem hX)
  rw [hwaiting, Multiset.mem_cons] at hX'
  obtain rfl := hX'.resolve_right (Multiset.notMem_zero X)
  exact hwalking hX

end Balanced

end ForkJoin.Sorting
