import ForkJoin.Proofs.Scan.HandSteps
import ForkJoin.Proofs.Scan.LeafSteps
import ForkJoin.Proofs.Scan.SweepSteps

/-!
# Every step of a scan keeps its invariant

A live visit is a walker in the first pass of some node, a walker in the second pass of some node, or
comes to a first leaf that is swept already. `Inv.keeps` puts the lemmas about the kinds of steps
together: whatever the policy, all that can be reached from the start is covered by `Inv`.
-/
namespace ForkJoin.Scan

open Calling Store

variable {α : Type}

namespace Inv

variable {S : Setting α} {c : Nat → Stage} {s : Store α} {pool rest : Multiset (Visit α)}
  {calls : List (α × α)} {t : Nat} {v : Visit α}

/-! ## Where a walker stands -/

/-- A node at a stage that only leaves come to in the first pass is a leaf. -/
theorem leaf_of_up (h : Inv S c pool s calls) (ht : t < S.plan.nodes.size)
    (hup : (c t).up.atLeaf = true) : S.plan.IsLeaf t := by
  by_contra hleaf
  have := ((h.node t ht).cut hleaf).linked.up
  rw [hup] at this
  cases this

theorem leaf_of_down (h : Inv S c pool s calls) (ht : t < S.plan.nodes.size)
    (hdown : (c t).down.atLeaf = true) : S.plan.IsLeaf t := by
  by_contra hleaf
  have := ((h.node t ht).cut hleaf).linked.down
  rw [hdown] at this
  cases this

theorem cut_of_down (h : Inv S c pool s calls) (ht : t < S.plan.nodes.size)
    (hdown : (c t).down.atCut = true) : ∃ l r, S.plan.Cut t l r := by
  refine S.family.exists_cut ht fun hleaf => ?_
  have := ((h.node t ht).leaf hleaf).stage.down
  rw [hdown] at this
  cases this

/-- A walker that has looked at the parent of its node is not at the root. -/
theorem parent_of_aloft (h : Inv S c pool s calls) (ht : t < S.plan.nodes.size)
    (hup : (c t).up.aloft = true) : ∃ p l r, S.plan.Cut p l r ∧ (t = l ∨ t = r) := by
  refine S.family.exists_parent ht ?_
  rintro rfl
  have := ((h.node 0 ht).root rfl).up
  rw [hup] at this
  cases this

/-! ## The steps -/

/-- A walker in the first pass of a node takes its step. -/
theorem up_goes (h : Inv S c (v ::ₘ rest) s calls) (ht : t < S.plan.nodes.size)
    (hv : v ∈ S.upWalker t (c t).up) : Goes S c v rest s calls := by
  cases hup : (c t).up with
  | idle | below | told => simp [hup, Setting.upWalker] at hv
  | enter =>
    obtain rfl : v = .enter t := by simpa [hup, Setting.upWalker] using hv
    by_cases hleaf : S.plan.IsLeaf t
    · exact h.up_enter_leaf ht hleaf hup
    · obtain ⟨l, r, hcut⟩ := S.family.exists_cut ht hleaf
      exact h.up_enter_cut hcut hup
  | takeOn =>
    obtain rfl : v = .takeOn t {} := by simpa [hup, Setting.upWalker] using hv
    exact h.up_takeOn ht (h.leaf_of_up ht (by rw [hup]; rfl)) hup
  | total =>
    obtain rfl : v = .total t := by simpa [hup, Setting.upWalker] using hv
    exact h.up_total ht (h.leaf_of_up ht (by rw [hup]; rfl)) hup
  | sweep =>
    obtain rfl : v = .sweep t .both none := by simpa [hup, Setting.upWalker] using hv
    exact h.up_sweep ht (h.leaf_of_up ht (by rw [hup]; rfl)) hup
  | leave =>
    obtain rfl : v = .leave t (S.gain t) (S.slot t) := by simpa [hup, Setting.upWalker] using hv
    exact h.up_leave ht (h.leaf_of_up ht (by rw [hup]; rfl)) hup
  | climb =>
    obtain rfl : v = .climb t (S.gain t) := by simpa [hup, Setting.upWalker] using hv
    by_cases h0 : t = 0
    · subst h0
      exact h.up_climb_root hup
    · obtain ⟨p, l, r, hcut, htlr⟩ := S.family.exists_parent ht h0
      exact h.up_climb hcut htlr hup
  | deliver seen =>
    obtain rfl : v = .deliver t (S.gain t) seen := by simpa [hup, Setting.upWalker] using hv
    obtain ⟨p, l, r, hcut, htlr⟩ := h.parent_of_aloft ht (by rw [hup]; rfl)
    exact h.up_deliver hcut htlr hup
  | addLeft seen =>
    obtain rfl : v = .addLeft t (S.gain t) seen := by simpa [hup, Setting.upWalker] using hv
    obtain ⟨p, l, r, hcut, htlr⟩ := h.parent_of_aloft ht (by rw [hup]; rfl)
    exact h.up_addLeft hcut htlr hup
  | addRight seen =>
    obtain rfl : v = .addRight t (S.gain t) seen (S.sum (S.plan.kids (S.plan.parentOf t)).1) := by
      simpa [hup, Setting.upWalker] using hv
    obtain ⟨p, l, r, hcut, htlr⟩ := h.parent_of_aloft ht (by rw [hup]; rfl)
    exact h.up_addRight hcut htlr hup
  | leaveSum seen =>
    obtain rfl : v = .leaveSum t (S.gain t) seen (S.joint (S.plan.parentOf t)) := by
      simpa [hup, Setting.upWalker] using hv
    obtain ⟨p, l, r, hcut, htlr⟩ := h.parent_of_aloft ht (by rw [hup]; rfl)
    exact h.up_leaveSum hcut htlr hup
  | publish seen =>
    obtain rfl : v = .publish t (S.gain t) seen := by simpa [hup, Setting.upWalker] using hv
    obtain ⟨p, l, r, hcut, htlr⟩ := h.parent_of_aloft ht (by rw [hup]; rfl)
    exact h.up_publish hcut htlr hup

/-- A walker in the second pass of a node takes its step. -/
theorem down_goes (h : Inv S c (v ::ₘ rest) s calls) (ht : t < S.plan.nodes.size)
    (hv : v ∈ S.downWalker t (c t).down) : Goes S c v rest s calls := by
  cases hdown : (c t).down with
  | idle | called | below | told => simp [hdown, Setting.downWalker] at hv
  | enter =>
    obtain rfl : v = .enter t := by simpa [hdown, Setting.downWalker] using hv
    by_cases hleaf : S.plan.IsLeaf t
    · exact h.down_enter_leaf ht hleaf hdown
    · obtain ⟨l, r, hcut⟩ := S.family.exists_cut ht hleaf
      exact h.down_enter_cut hcut hdown
  | takeOn =>
    obtain rfl : v = .takeOn t { awake := true, summed := true } := by
      simpa [hdown, Setting.downWalker] using hv
    exact h.down_takeOn ht (h.leaf_of_down ht (by rw [hdown]; rfl)) hdown
  | fetch =>
    obtain rfl : v = .fetch t .finished := by simpa [hdown, Setting.downWalker] using hv
    exact h.down_fetch ht (h.leaf_of_down ht (by rw [hdown]; rfl)) hdown
  | sweep =>
    obtain rfl : v = .sweep t .finished (some (S.carry t)) := by
      simpa [hdown, Setting.downWalker] using hv
    exact h.down_sweep ht (h.leaf_of_down ht (by rw [hdown]; rfl)) hdown
  | leave =>
    obtain rfl : v = .leave t .finished (S.swept t).getLast? := by
      simpa [hdown, Setting.downWalker] using hv
    exact h.down_leave ht (h.leaf_of_down ht (by rw [hdown]; rfl)) hdown
  | handDown =>
    obtain rfl : v = .handDown t := by simpa [hdown, Setting.downWalker] using hv
    obtain ⟨l, r, hcut⟩ := h.cut_of_down ht (by rw [hdown]; rfl)
    exact h.down_handDown hcut hdown
  | addCarry =>
    obtain rfl : v = .addCarry t (S.sum (S.plan.kids t).1) := by
      simpa [hdown, Setting.downWalker] using hv
    obtain ⟨l, r, hcut⟩ := h.cut_of_down ht (by rw [hdown]; rfl)
    exact h.down_addCarry hcut hdown
  | giveLeft =>
    obtain rfl : v = .giveLeft t (S.carry t) (S.carry (S.plan.kids t).2) := by
      simpa [hdown, Setting.downWalker] using hv
    obtain ⟨l, r, hcut⟩ := h.cut_of_down ht (by rw [hdown]; rfl)
    exact h.down_giveLeft hcut hdown
  | giveRight =>
    obtain rfl : v = .giveRight t (S.carry (S.plan.kids t).2) := by
      simpa [hdown, Setting.downWalker] using hv
    obtain ⟨l, r, hcut⟩ := h.cut_of_down ht (by rw [hdown]; rfl)
    exact h.down_giveRight hcut hdown
  | wakeRight =>
    obtain rfl : v = .wakeRight t := by simpa [hdown, Setting.downWalker] using hv
    obtain ⟨l, r, hcut⟩ := h.cut_of_down ht (by rw [hdown]; rfl)
    exact h.down_wakeRight hcut hdown
  | wakeLeft =>
    obtain rfl : v = .wakeLeft t true := by simpa [hdown, Setting.downWalker] using hv
    obtain ⟨l, r, hcut⟩ := h.cut_of_down ht (by rw [hdown]; rfl)
    exact h.down_wakeLeft hcut hdown
  | climb =>
    obtain rfl : v = .climb t .finished := by simpa [hdown, Setting.downWalker] using hv
    by_cases h0 : t = 0
    · subst h0
      exact h.down_climb_root hdown
    · obtain ⟨p, l, r, hcut, htlr⟩ := S.family.exists_parent ht h0
      exact h.down_climb hcut htlr hdown
  | deliver seen =>
    obtain rfl : v = .deliver t .finished seen := by simpa [hdown, Setting.downWalker] using hv
    have h0 : t ≠ 0 := by
      rintro rfl
      exact ((h.node 0 ht).root rfl).down.2 seen hdown
    obtain ⟨p, l, r, hcut, htlr⟩ := S.family.exists_parent ht h0
    exact h.down_deliver hcut htlr hdown

/-- A visit that finds a first leaf swept is gone. -/
theorem idler_goes {idlers : Multiset (Visit α)} (h : Inv S c (v ::ₘ rest) s calls)
    (hidlers : ∀ w ∈ v ::ₘ idlers, S.Idler c w)
    (hpool : v ::ₘ rest =
      v ::ₘ idlers + ∑ t ∈ Finset.range S.plan.nodes.size, S.walkers t (c t)) :
    Goes S c v rest s calls := by
  obtain ⟨t, ht, rfl, hleaf, hfirst, hup⟩ := hidlers v (Multiset.mem_cons_self v idlers)
  obtain ⟨n, hn, hspan⟩ := Plan.exists_node ht
  obtain ⟨ph, hph, hphase⟩ := ((h.node t ht).leaf hleaf).phase
  rw [LeafPhase, if_pos hfirst, hup, if_neg (by rintro ⟨⟩)] at hphase
  have hstep : (Visit.step S.plan (.enter t)).run s = .done ([], s) := by
    rw [Visit.step_enter_leaf hn (hspan ▸ hleaf) hph, hphase.2]
    rfl
  refine ⟨[], s, [], .of_done hstep, c, ⟨h.fits, h.node, ⟨idlers, ?_, ?_⟩, ?_⟩,
    fun _ u => .refl (c u), .inl le_rfl⟩
  · exact fun w hw => hidlers w (Multiset.mem_cons_of_mem hw)
  · rw [Multiset.cons_add] at hpool
    rw [Multiset.coe_nil, zero_add, (Multiset.cons_inj_right _).1 hpool]
  · rw [List.append_nil]
    exact h.calls

/-- A live visit takes its step. -/
theorem goes (h : Inv S c (v ::ₘ rest) s calls) : Goes S c v rest s calls := by
  obtain ⟨idlers, hidlers, hpool⟩ := h.pool
  have hmem : v ∈ idlers + ∑ t ∈ Finset.range S.plan.nodes.size, S.walkers t (c t) :=
    hpool ▸ Multiset.mem_cons_self v rest
  rcases Multiset.mem_add.1 hmem with hv | hv
  · obtain ⟨others, rfl⟩ := Multiset.exists_cons_of_mem hv
    exact h.idler_goes hidlers hpool
  · obtain ⟨t, ht, hv⟩ := Multiset.mem_sum.1 hv
    have ht' := Finset.mem_range.1 ht
    rcases Multiset.mem_add.1 hv with hv | hv
    · exact h.up_goes ht' hv
    · exact h.down_goes ht' hv

end Inv

/-- **Whichever live visit takes a step, the invariant is kept.** -/
theorem Inv.keeps (S : Setting α) :
    Work.Keeps (Visit.step S.plan) S.op fun pool s calls => ∃ c, Inv S c pool s calls := by
  rintro v rest s calls ⟨c, h⟩
  obtain ⟨left, s', made, hstep, c', hnext, _⟩ := h.goes
  exact ⟨left, s', made, hstep, c', hnext⟩

end ForkJoin.Scan
