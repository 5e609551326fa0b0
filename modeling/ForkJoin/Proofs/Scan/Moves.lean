import Mathlib.Algebra.Order.BigOperators.Group.Finset
import Mathlib.Tactic.Abel
import Mathlib.Tactic.Set
import ForkJoin.Proofs.Scan.Invariant

/-!
# Steps by the nodes that they move

A step moves a few nodes and leaves the others and what is known of them alone, so to show that it
keeps the invariant it is enough to look at these few: `Inv.next`. They are one node, a node and its
parent, or a node and its children.
-/
namespace ForkJoin.Scan

open Calling Store

variable {α : Type}

/-- From these stages to those, the nodes outside of `D` and what is known of them stay. If a node
of `D` shows another face, or another carry, its parent is in `D`. -/
structure Moves (S : Setting α) (c c' : Nat → Stage) (s s' : Store α) (D : Finset Nat) : Prop where
  sub : ∀ t ∈ D, t < S.plan.nodes.size
  stages : ∀ t ∉ D, c' t = c t
  near : ∀ t < S.plan.nodes.size, t ∉ D → Near S s s' t
  faces : ∀ t ∈ D, S.plan.face c' t = S.plan.face c t ∧ s'.carries[t]? = s.carries[t]? ∨
    ∀ p l r, S.plan.Cut p l r → t = l ∨ t = r → p ∈ D

namespace Moves

variable {S : Setting α} {c c' : Nat → Stage} {s s' : Store α} {D : Finset Nat}

/-- What a parent knows of its children is the same, unless the parent moves as well. -/
theorem face_eq (h : Moves S c c' s s' D) {p l r t : Nat} (hcut : S.plan.Cut p l r)
    (hp : p ∉ D) (ht : t = l ∨ t = r) :
    S.plan.face c' t = S.plan.face c t ∧ s'.carries[t]? = s.carries[t]? := by
  by_cases htD : t ∈ D
  · exact (h.faces t htD).resolve_right fun hparent => hp (hparent p l r hcut ht)
  · exact ⟨Plan.face_of_stage_eq (h.stages t htD),
      (h.near t (hcut.child_lt_size ht) htD).carries⟩

theorem holdsAt (h : Moves S c c' s s' D) (hold : ∀ t < S.plan.nodes.size, S.HoldsAt c s t)
    (hnew : ∀ t ∈ D, S.HoldsAt c' s' t) : ∀ t < S.plan.nodes.size, S.HoldsAt c' s' t := by
  intro t ht
  by_cases htD : t ∈ D
  · exact hnew t htD
  · have hsame := hold t ht
    unfold Setting.HoldsAt at hsame ⊢
    rw [h.stages t htD]
    refine hsame.near (h.near t ht htD) fun hleaf => ?_
    obtain ⟨l, r, hcut⟩ := S.family.exists_cut ht hleaf
    rw [hcut.kids_eq]
    exact ⟨h.face_eq hcut htD (.inl rfl), h.face_eq hcut htD (.inr rfl)⟩

/-- Sums over all nodes change by what they change at the nodes that move. -/
theorem sum_eq {M : Type} [AddCommMonoid M] (h : Moves S c c' s s' D) (F : Nat → Stage → M) :
    ∑ t ∈ Finset.range S.plan.nodes.size, F t (c' t) + ∑ t ∈ D, F t (c t) =
      ∑ t ∈ Finset.range S.plan.nodes.size, F t (c t) + ∑ t ∈ D, F t (c' t) := by
  have hsub : D ⊆ Finset.range S.plan.nodes.size := fun t ht => Finset.mem_range.2 (h.sub t ht)
  have hrest : ∑ t ∈ Finset.range S.plan.nodes.size \ D, F t (c' t) =
      ∑ t ∈ Finset.range S.plan.nodes.size \ D, F t (c t) :=
    Finset.sum_congr rfl fun t ht => by rw [h.stages t (Finset.mem_sdiff.1 ht).2]
  rw [← Finset.sum_sdiff hsub, ← Finset.sum_sdiff hsub, hrest, add_assoc, add_assoc,
    add_comm (∑ t ∈ D, F t (c' t))]

end Moves

/-- What a node holds it still holds while its children do not move. -/
theorem Holds.of_kids {S : Setting α} {c c' : Nat → Stage} {s : Store α} {t : Nat} {a : Stage}
    (h : Holds S s t a (S.plan.face c (S.plan.kids t).1) (S.plan.face c (S.plan.kids t).2))
    (ht : t < S.plan.nodes.size)
    (hkids : ∀ l r, S.plan.Cut t l r → ∀ k, k = l ∨ k = r → c' k = c k) :
    Holds S s t a (S.plan.face c' (S.plan.kids t).1) (S.plan.face c' (S.plan.kids t).2) := by
  refine h.near (.refl _ _) fun hleaf => ?_
  obtain ⟨l, r, hcut⟩ := S.family.exists_cut ht hleaf
  rw [hcut.kids_eq]
  exact ⟨⟨Plan.face_of_stage_eq (hkids l r hcut l (.inl rfl)), rfl⟩,
    Plan.face_of_stage_eq (hkids l r hcut r (.inr rfl)), rfl⟩

/-! ## What a step does -/

/-- The node from which a visit reports, and the phase of its parent that it has in hand. -/
def Visit.seen? : Visit α → Option (Nat × Phase)
  | deliver t _ seen | addLeft t _ seen | addRight t _ seen _ | leaveSum t _ seen _
  | publish t _ seen => some (t, seen)
  | _ => none

/-- No visit has come in between since this one has looked at the phase of the parent. -/
def Visit.Timely (plan : Plan) (s : Store α) (v : Visit α) : Prop :=
  ∀ t seen, v.seen? = some (t, seen) → s.phases[plan.parentOf t]? = some seen

/-- A bound for the steps still to be made from all nodes. -/
def Setting.ahead (S : Setting α) (c : Nat → Stage) : Nat :=
  ∑ t ∈ Finset.range S.plan.nodes.size, (c t).ahead

theorem Setting.ahead_le (S : Setting α) (c : Nat → Stage) :
    S.ahead c ≤ 22 * S.plan.nodes.size := by
  have hnode : ∀ t ∈ Finset.range S.plan.nodes.size, (c t).ahead ≤ 22 := fun t _ =>
    Nat.add_le_add (c t).up.ahead_le (c t).down.ahead_le
  have hsum := Finset.sum_le_card_nsmul _ _ _ hnode
  rwa [Finset.card_range, Nat.nsmul_eq_mul, Nat.mul_comm] at hsum

/-- A step brings the run nearer to its end: of the steps still to be made, `n` before it and `n'`
after it, it is one, and each visit in its place has one to make. A visit that is too late looks
again, and then has up to five more steps to make. -/
def Visit.Nears (plan : Plan) (s : Store α) (v : Visit α) (left : List (Visit α)) (n n' : Nat) :
    Prop :=
  n' + left.length ≤ n ∨
    ¬ v.Timely plan s ∧ (∀ w ∈ left, w.seen? = none) ∧ n' + left.length ≤ n + 5

/-- The steps to be made elsewhere do not matter. -/
theorem Visit.Nears.add {plan : Plan} {s : Store α} {v : Visit α} {left : List (Visit α)}
    {n n' m m' : Nat} (h : v.Nears plan s left n n') (hsum : m' + n = m + n') :
    v.Nears plan s left m m' := by
  rcases h with hless | ⟨hlate, hnone, hless⟩
  · exact .inl (by omega)
  · exact .inr ⟨hlate, hnone, by omega⟩

/-- From a stage to another, no sums were added up in vain. -/
def Stage.Straight (a a' : Stage) : Prop := a'.again = true → a.again = true

theorem Stage.Straight.refl (a : Stage) : a.Straight a := id

namespace Inv

variable {S : Setting α} {c : Nat → Stage} {s s' : Store α} {v : Visit α}
  {rest : Multiset (Visit α)} {left : List (Visit α)} {calls made : List (α × α)}

/-- A step from the walker `v` keeps the invariant, and brings the run nearer to its end. If the
walker is not too late, nothing is done in vain. -/
def Goes (S : Setting α) (c : Nat → Stage) (v : Visit α) (rest : Multiset (Visit α)) (s : Store α)
    (calls : List (α × α)) : Prop :=
  ∃ left s' made, Returns S.op ((Visit.step S.plan v).run s) (left, s') made ∧
    ∃ c', Inv S c' ((left : Multiset (Visit α)) + rest) s' (calls ++ made) ∧
      (v.Timely S.plan s → ∀ t, (c t).Straight (c' t)) ∧
      v.Nears S.plan s left (S.ahead c) (S.ahead c')

/-- A step that moves a few nodes keeps the invariant if it does there. -/
theorem next (h : Inv S c (v ::ₘ rest) s calls) (D : Finset Nat) (c' : Nat → Stage)
    (new : Multiset (Visit α))
    (hstep : Returns S.op ((Visit.step S.plan v).run s) (left, s') made)
    (hmoves : Moves S c c' s s' D) (hfits : s'.Fits S.plan)
    (hnode : ∀ t ∈ D, S.HoldsAt c' s' t)
    (htold : ∀ t ∈ D, (c t).up = .told → (c' t).up = .told) (hnew : ∀ v ∈ new, S.Idler c' v)
    (hwalk : (left : Multiset (Visit α)) + ∑ t ∈ D, S.walkers t (c t) =
      v ::ₘ (new + ∑ t ∈ D, S.walkers t (c' t)))
    (hcalls : ∑ t ∈ D, S.calls t (c' t) = ∑ t ∈ D, S.calls t (c t) + made)
    (hstraight : v.Timely S.plan s → ∀ t ∈ D, (c t).Straight (c' t))
    (hnears : v.Nears S.plan s left (∑ t ∈ D, (c t).ahead) (∑ t ∈ D, (c' t).ahead)) :
    Goes S c v rest s calls := by
  refine ⟨left, s', made, hstep, c', ⟨hfits, hmoves.holdsAt h.node hnode, ?pool, ?calls⟩,
    fun htimely t => ?straight, hnears.add (hmoves.sum_eq fun _ => Stage.ahead)⟩
  case pool =>
    obtain ⟨idlers, hidlers, hpool⟩ := h.pool
    refine ⟨idlers + new, fun w hw => ?_, ?_⟩
    · rcases Multiset.mem_add.1 hw with hw | hw
      · obtain ⟨t, ht, rfl, hleaf, hfirst, hup⟩ := hidlers w hw
        refine ⟨t, ht, rfl, hleaf, hfirst, ?_⟩
        by_cases htD : t ∈ D
        · exact htold t htD hup
        · rw [hmoves.stages t htD, hup]
      · exact hnew w hw
    · have hsum := hmoves.sum_eq S.walkers
      apply Multiset.cons_inj_right v |>.1
      apply add_right_cancel (b := ∑ t ∈ D, S.walkers t (c t))
      calc v ::ₘ ((left : Multiset (Visit α)) + rest) + ∑ t ∈ D, S.walkers t (c t)
          = (v ::ₘ rest) + (left + ∑ t ∈ D, S.walkers t (c t)) := by
            rw [← Multiset.singleton_add, ← Multiset.singleton_add]; abel
        _ = idlers + ∑ t ∈ Finset.range S.plan.nodes.size, S.walkers t (c t) +
              v ::ₘ (new + ∑ t ∈ D, S.walkers t (c' t)) := by rw [hpool, hwalk]
        _ = v ::ₘ (idlers + new) + (∑ t ∈ Finset.range S.plan.nodes.size, S.walkers t (c t) +
              ∑ t ∈ D, S.walkers t (c' t)) := by
            rw [← Multiset.singleton_add, ← Multiset.singleton_add]; abel
        _ = _ := by
            rw [← hsum, ← Multiset.singleton_add, ← Multiset.singleton_add]; abel
  case calls =>
    have hsum := hmoves.sum_eq S.calls
    rw [hcalls, ← add_assoc, add_right_comm] at hsum
    rw [← Multiset.coe_add, h.calls]
    exact (add_right_cancel hsum).symm
  case straight =>
    by_cases htD : t ∈ D
    · exact hstraight htimely t htD
    · rw [hmoves.stages t htD]
      exact .refl _

end Inv

namespace Setting

variable (S : Setting α) (t : Nat) (a : Stage)

/-- Where a node moves in its first pass, its walker in the second pass stays. -/
theorem walkers_toUp (up : Up) :
    S.upWalker t up + S.walkers t a = S.upWalker t a.up + S.walkers t (a.toUp up) := by
  rw [walkers, walkers, Stage.toUp_up, Stage.toUp_down, add_left_comm]

/-- Where a node moves in its second pass, its walker in the first pass stays. -/
theorem walkers_toDown (down : Down) :
    S.downWalker t down + S.walkers t a = S.downWalker t a.down + S.walkers t (a.toDown down) := by
  rw [walkers, walkers, Stage.toDown_up, Stage.toDown_down]
  abel

variable {S t a} {v w : Visit α}

/-- In the first pass, a walker goes on at its node. -/
theorem walkers_up_on (up : Up) (hv : S.upWalker t a.up = {v}) (hw : S.upWalker t up = {w}) :
    w ::ₘ S.walkers t a = v ::ₘ S.walkers t (a.toUp up) := by
  rw [← Multiset.singleton_add w, ← hw, walkers_toUp, hv, Multiset.singleton_add]

/-- In the second pass, a walker goes on at its node. -/
theorem walkers_down_on (down : Down) (hv : S.downWalker t a.down = {v})
    (hw : S.downWalker t down = {w}) :
    w ::ₘ S.walkers t a = v ::ₘ S.walkers t (a.toDown down) := by
  rw [← Multiset.singleton_add w, ← hw, walkers_toDown, hv, Multiset.singleton_add]

/-- In the first pass, a walker leaves its node. -/
theorem walkers_up_gone (up : Up) (hv : S.upWalker t a.up = {v}) (hnone : S.upWalker t up = 0) :
    S.walkers t a = v ::ₘ S.walkers t (a.toUp up) := by
  rw [← zero_add (S.walkers t a), ← hnone, walkers_toUp, hv, Multiset.singleton_add]

/-- In the second pass, a walker leaves its node. -/
theorem walkers_down_gone (down : Down) (hv : S.downWalker t a.down = {v})
    (hnone : S.downWalker t down = 0) : S.walkers t a = v ::ₘ S.walkers t (a.toDown down) := by
  rw [← zero_add (S.walkers t a), ← hnone, walkers_toDown, hv, Multiset.singleton_add]

/-- In the first pass, a walker comes to a node. -/
theorem walkers_up_new (up : Up) (hnone : S.upWalker t a.up = 0) (hw : S.upWalker t up = {w}) :
    S.walkers t (a.toUp up) = w ::ₘ S.walkers t a := by
  rw [← Multiset.singleton_add w, ← hw, walkers_toUp, hnone, zero_add]

/-- In the second pass, a walker comes to a node. -/
theorem walkers_down_new (down : Down) (hnone : S.downWalker t a.down = 0)
    (hw : S.downWalker t down = {w}) : S.walkers t (a.toDown down) = w ::ₘ S.walkers t a := by
  rw [← Multiset.singleton_add w, ← hw, walkers_toDown, hnone, zero_add]

end Setting

namespace Inv

variable {S : Setting α} {c : Nat → Stage} {s s' : Store α} {v : Visit α}
  {rest : Multiset (Visit α)} {left : List (Visit α)} {calls made : List (α × α)} {p l r t : Nat}

/-! ### One node, which shows the same face -/

/-- One node moves, and its parent does not see it. -/
theorem next_one (h : Inv S c (v ::ₘ rest) s calls) (ht : t < S.plan.nodes.size) (a : Stage)
    (hstep : Returns S.op ((Visit.step S.plan v).run s) (left, s') made)
    (hface : a.up.face = (c t).up.face ∧ a.down.face = (c t).down.face)
    (hcarries : s'.carries[t]? = s.carries[t]?)
    (hnear : ∀ u < S.plan.nodes.size, u ≠ t → Near S s s' u) (hfits : s'.Fits S.plan)
    (hnode : Holds S s' t a (S.plan.face c (S.plan.kids t).1) (S.plan.face c (S.plan.kids t).2))
    (htold : (c t).up = .told → a.up = .told)
    (hwalk : (left : Multiset (Visit α)) + S.walkers t (c t) = v ::ₘ S.walkers t a)
    (hcalls : S.calls t a = S.calls t (c t) + made)
    (hstraight : v.Timely S.plan s → (c t).Straight a)
    (hnears : v.Nears S.plan s left (c t).ahead a.ahead) : Goes S c v rest s calls := by
  have hself : Function.update c t a t = a := Function.update_self ..
  have hfaces : ∀ u, S.plan.face (Function.update c t a) u = S.plan.face c u := by
    intro u
    by_cases hu : u = t
    · rw [hu]
      exact Plan.face_congr (by rw [hself, hface.1]) (by rw [hself, hface.2])
    · exact Plan.face_of_stage_eq (Function.update_of_ne hu ..)
  refine h.next {t} (Function.update c t a) 0 hstep ⟨?sub, ?stages, ?near, ?faces⟩ hfits ?node ?told
    (by simp) ?walk ?calls ?straight ?nears
  case sub => simpa using ht
  case stages => exact fun u hu => Function.update_of_ne (by simpa using hu) ..
  case near => exact fun u hu hne => hnear u hu (by simpa using hne)
  case faces => simpa only [Finset.mem_singleton, forall_eq] using .inl ⟨hfaces t, hcarries⟩
  case node =>
    simp only [Finset.mem_singleton, forall_eq, Setting.HoldsAt, hfaces]
    rwa [hself]
  case told => simpa only [Finset.mem_singleton, forall_eq, hself] using htold
  case walk => simpa only [Finset.sum_singleton, hself, zero_add] using hwalk
  case calls => simpa only [Finset.sum_singleton, hself] using hcalls
  case straight => simpa only [Finset.mem_singleton, forall_eq, hself] using hstraight
  case nears => simpa only [Finset.sum_singleton, hself] using hnears

/-- A walker in the first pass of a node moves. -/
theorem next_up (h : Inv S c (v ::ₘ rest) s calls) (ht : t < S.plan.nodes.size) (up : Up)
    (hv : S.upWalker t (c t).up = {v}) (hleft : S.upWalker t up = left)
    (hstep : Returns S.op ((Visit.step S.plan v).run s) (left, s') made)
    (hface : up.face = (c t).up.face) (hcarries : s'.carries = s.carries)
    (hnear : ∀ u < S.plan.nodes.size, u ≠ t → Near S s s' u) (hfits : s'.Fits S.plan)
    (hnode : Holds S s' t ((c t).toUp up) (S.plan.face c (S.plan.kids t).1)
      (S.plan.face c (S.plan.kids t).2))
    (hcalls : S.calls t ((c t).toUp up) = S.calls t (c t) + made)
    (hnears : v.Nears S.plan s left (c t).up.ahead up.ahead) : Goes S c v rest s calls := by
  refine h.next_one ht ((c t).toUp up) hstep ⟨hface, rfl⟩ (by rw [hcarries]) hnear hfits
    hnode (fun htold => ?_) ?_ hcalls (fun _ => .refl _) (hnears.add ?_)
  · rw [htold] at hv
    exact absurd hv.symm (Multiset.singleton_ne_zero v)
  · rw [← hleft, S.walkers_toUp, hv, Multiset.singleton_add]
  · simp only [Stage.ahead, Stage.toUp_up, Stage.toUp_down]
    omega

/-- A walker in the second pass of a node moves. -/
theorem next_down (h : Inv S c (v ::ₘ rest) s calls) (ht : t < S.plan.nodes.size) (down : Down)
    (hv : S.downWalker t (c t).down = {v}) (hleft : S.downWalker t down = left)
    (hstep : Returns S.op ((Visit.step S.plan v).run s) (left, s') made)
    (hface : down.face = (c t).down.face) (hcarries : s'.carries[t]? = s.carries[t]?)
    (hnear : ∀ u < S.plan.nodes.size, u ≠ t → Near S s s' u) (hfits : s'.Fits S.plan)
    (hnode : Holds S s' t ((c t).toDown down) (S.plan.face c (S.plan.kids t).1)
      (S.plan.face c (S.plan.kids t).2))
    (hcalls : S.calls t ((c t).toDown down) = S.calls t (c t) + made)
    (hnears : v.Nears S.plan s left (c t).down.ahead down.ahead) : Goes S c v rest s calls := by
  refine h.next_one ht ((c t).toDown down) hstep ⟨rfl, hface⟩ hcarries hnear hfits
    hnode id ?_ hcalls (fun _ => .refl _) (hnears.add ?_)
  · rw [← hleft, S.walkers_toDown, hv, Multiset.singleton_add]
  · simp only [Stage.ahead, Stage.toDown_up, Stage.toDown_down]
    omega

/-- The root moves, whose face nobody sees. -/
theorem next_root (h : Inv S c (v ::ₘ rest) s calls) (a : Stage)
    (hstep : Returns S.op ((Visit.step S.plan v).run s) (left, s') made)
    (hnear : ∀ u, u ≠ 0 → Near S s s' u) (hfits : s'.Fits S.plan)
    (hnode : Holds S s' 0 a (S.plan.face c (S.plan.kids 0).1) (S.plan.face c (S.plan.kids 0).2))
    (htold : (c 0).up = .told → a.up = .told)
    (hwalk : (left : Multiset (Visit α)) + S.walkers 0 (c 0) = v ::ₘ S.walkers 0 a)
    (hcalls : S.calls 0 a = S.calls 0 (c 0) + made)
    (hstraight : v.Timely S.plan s → (c 0).Straight a)
    (hnears : v.Nears S.plan s left (c 0).ahead a.ahead) : Goes S c v rest s calls := by
  have hself : Function.update c 0 a 0 = a := Function.update_self ..
  refine h.next {0} (Function.update c 0 a) 0 hstep ⟨?sub, ?stages, ?near, ?faces⟩ hfits ?node ?told
    (by simp) ?walk ?calls ?straight ?nears
  case sub => simpa using S.family.size_pos
  case stages => exact fun u hu => Function.update_of_ne (by simpa using hu) ..
  case near => exact fun u _ hne => hnear u (by simpa using hne)
  case faces =>
    intro u hu
    obtain rfl := Finset.mem_singleton.1 hu
    exact .inr fun p' l' r' hcut ht => absurd (hcut.lt_child S.family ht) (Nat.not_lt_zero _)
  case node =>
    simp only [Finset.mem_singleton, forall_eq, Setting.HoldsAt, hself]
    exact hnode.of_kids S.family.size_pos fun l' r' hcut k hk =>
      Function.update_of_ne (hcut.lt_child S.family hk).ne' ..
  case told => simpa only [Finset.mem_singleton, forall_eq, hself] using htold
  case walk => simpa only [Finset.sum_singleton, hself, zero_add] using hwalk
  case calls => simpa only [Finset.sum_singleton, hself] using hcalls
  case straight => simpa only [Finset.mem_singleton, forall_eq, hself] using hstraight
  case nears => simpa only [Finset.sum_singleton, hself] using hnears

/-! ### A node and its parent -/

/-- A node and its parent move, and the parent shows the same face. -/
theorem next_two (h : Inv S c (v ::ₘ rest) s calls) (hcut : S.plan.Cut p l r) (ht : t = l ∨ t = r)
    (a b : Stage) (hstep : Returns S.op ((Visit.step S.plan v).run s) (left, s') made)
    (hface : b.up.face = (c p).up.face ∧
      b.down.face.shown (S.plan.isFirst p) = (c p).down.face.shown (S.plan.isFirst p))
    (hcarries : s'.carries[p]? = s.carries[p]?)
    (hnear : ∀ u < S.plan.nodes.size, u ≠ t → u ≠ p → Near S s s' u) (hfits : s'.Fits S.plan)
    (hchild : Holds S s' t a (S.plan.face c (S.plan.kids t).1) (S.plan.face c (S.plan.kids t).2))
    (hparent : Holds S s' p b (S.plan.face (Function.update c t a) l)
      (S.plan.face (Function.update c t a) r))
    (htold : (c t).up = .told → a.up = .told) (htold' : (c p).up = .told → b.up = .told)
    (hwalk : (left : Multiset (Visit α)) + (S.walkers t (c t) + S.walkers p (c p)) =
      v ::ₘ (S.walkers t a + S.walkers p b))
    (hcalls : S.calls t a + S.calls p b = S.calls t (c t) + S.calls p (c p) + made)
    (hstraight : v.Timely S.plan s → (c t).Straight a ∧ (c p).Straight b)
    (hnears : v.Nears S.plan s left ((c t).ahead + (c p).ahead) (a.ahead + b.ahead)) :
    Goes S c v rest s calls := by
  have hlt := hcut.lt_child S.family ht
  have hne : t ≠ p := by omega
  set c' := Function.update (Function.update c p b) t a with hc'
  have hself : c' t = a := Function.update_self ..
  have hup : c' p = b := by rw [hc', Function.update_of_ne hne.symm, Function.update_self]
  have hrest : ∀ u, u ≠ t → u ≠ p → c' u = c u := fun u hu hu' => by
    rw [hc', Function.update_of_ne hu, Function.update_of_ne hu']
  -- away from the parent, the two ways to write the new stages agree
  have hfaces : ∀ u, u ≠ p → S.plan.face c' u = S.plan.face (Function.update c t a) u := by
    intro u hu
    have : c' u = Function.update c t a u := by
      by_cases hut : u = t
      · rw [hut, hself, Function.update_self]
      · rw [hrest u hut hu, Function.update_of_ne hut]
    exact Plan.face_of_stage_eq this
  have hl := hcut.lt_child S.family (.inl rfl)
  have hr := hcut.lt_child S.family (.inr rfl)
  refine h.next {t, p} c' 0 hstep ⟨?sub, ?stages, ?near, ?faces⟩ hfits ?node ?told (by simp) ?walk
    ?calls ?straight ?nears
  case sub =>
    intro u hu
    rcases Finset.mem_insert.1 hu with rfl | hu
    · exact hcut.child_lt_size ht
    · exact Finset.mem_singleton.1 hu ▸ hcut.lt_size
  case stages =>
    intro u hu
    simp only [Finset.mem_insert, Finset.mem_singleton, not_or] at hu
    exact hrest u hu.1 hu.2
  case near =>
    intro u hu hnot
    simp only [Finset.mem_insert, Finset.mem_singleton, not_or] at hnot
    exact hnear u hu hnot.1 hnot.2
  case faces =>
    intro u hu
    rcases Finset.mem_insert.1 hu with rfl | hu
    · refine .inr fun p' l' r' hcut' ht' => ?_
      rw [hcut'.parent_unique hcut ht' ht]
      exact Finset.mem_insert_of_mem (Finset.mem_singleton_self p)
    · obtain rfl := Finset.mem_singleton.1 hu
      exact .inl ⟨by rw [Plan.face, Plan.face, hup, hface.1, hface.2], hcarries⟩
  case node =>
    intro u hu
    rcases Finset.mem_insert.1 hu with rfl | hu
    · rw [Setting.HoldsAt, hself]
      refine hchild.of_kids (hcut.child_lt_size ht) fun l' r' hcut' k hk => ?_
      have hlt' := hcut'.lt_child S.family hk
      exact hrest k (by omega) (by omega)
    · obtain rfl := Finset.mem_singleton.1 hu
      rw [Setting.HoldsAt, hup, hcut.kids_eq, hfaces l (by omega), hfaces r (by omega)]
      exact hparent
  case told =>
    intro u hu
    rcases Finset.mem_insert.1 hu with rfl | hu
    · rwa [hself]
    · obtain rfl := Finset.mem_singleton.1 hu
      rwa [hup]
  case walk => rwa [Finset.sum_pair hne, Finset.sum_pair hne, hself, hup, zero_add]
  case calls => rwa [Finset.sum_pair hne, Finset.sum_pair hne, hself, hup]
  case straight =>
    simpa only [Finset.mem_insert, Finset.mem_singleton, forall_eq_or_imp, forall_eq, hself,
      hup] using hstraight
  case nears => rwa [Finset.sum_pair hne, Finset.sum_pair hne, hself, hup]

/-! ### A node and its children -/

/-- A node and both its children move, and the node shows the same face. -/
theorem next_kids (h : Inv S c (v ::ₘ rest) s calls) (hcut : S.plan.Cut t l r) (a b d : Stage)
    (new : Multiset (Visit α))
    (hstep : Returns S.op ((Visit.step S.plan v).run s) (left, s') made)
    (hface : a.up.face = (c t).up.face ∧ a.down.face = (c t).down.face)
    (hcarries : s'.carries[t]? = s.carries[t]?)
    (hnear : ∀ u < S.plan.nodes.size, u ≠ t → u ≠ l → u ≠ r → Near S s s' u)
    (hfits : s'.Fits S.plan)
    (hnode : Holds S s' t a ⟨b.up.face, b.down.face.shown (S.plan.isFirst l)⟩
      ⟨d.up.face, d.down.face.shown (S.plan.isFirst r)⟩)
    (hleft : Holds S s' l b (S.plan.face c (S.plan.kids l).1) (S.plan.face c (S.plan.kids l).2))
    (hright : Holds S s' r d (S.plan.face c (S.plan.kids r).1) (S.plan.face c (S.plan.kids r).2))
    (htold : ((c t).up = .told → a.up = .told) ∧ ((c l).up = .told → b.up = .told) ∧
      ((c r).up = .told → d.up = .told))
    (hnew : ∀ w ∈ new, w = .enter l ∧ S.plan.IsLeaf l ∧ S.plan.isFirst l = true ∧ b.up = .told)
    (hwalk : (left : Multiset (Visit α)) +
        (S.walkers t (c t) + (S.walkers l (c l) + S.walkers r (c r))) =
      v ::ₘ (new + (S.walkers t a + (S.walkers l b + S.walkers r d))))
    (hcalls : S.calls t a + (S.calls l b + S.calls r d) =
      S.calls t (c t) + (S.calls l (c l) + S.calls r (c r)) + made)
    (hstraight : v.Timely S.plan s → (c t).Straight a ∧ (c l).Straight b ∧ (c r).Straight d)
    (hnears : v.Nears S.plan s left ((c t).ahead + ((c l).ahead + (c r).ahead))
      (a.ahead + (b.ahead + d.ahead))) : Goes S c v rest s calls := by
  have hl := hcut.lt_child S.family (.inl rfl)
  have hr := hcut.lt_child S.family (.inr rfl)
  have hlr := hcut.left_ne_right S.family
  set c' := Function.update (Function.update (Function.update c r d) l b) t a with hc'
  have hself : c' t = a := Function.update_self ..
  have hleft' : c' l = b := by rw [hc', Function.update_of_ne (by omega), Function.update_self]
  have hright' : c' r = d := by
    rw [hc', Function.update_of_ne (by omega), Function.update_of_ne hlr.symm,
      Function.update_self]
  have hrest : ∀ u, u ≠ t → u ≠ l → u ≠ r → c' u = c u := fun u hu hul hur => by
    rw [hc', Function.update_of_ne hu, Function.update_of_ne hul, Function.update_of_ne hur]
  -- the children of a child are none of the three
  have hkids : ∀ u, u = l ∨ u = r → ∀ l' r', S.plan.Cut u l' r' → ∀ k, k = l' ∨ k = r' →
      c' k = c k := by
    intro u hu l' r' hcut' k hk
    have hku := hcut'.lt_child S.family hk
    have hut := hcut.lt_child S.family hu
    have hother : k ≠ l ∧ k ≠ r := by
      constructor <;> rintro rfl
      · exact absurd (hcut'.parent_unique hcut hk (.inl rfl)) (by omega)
      · exact absurd (hcut'.parent_unique hcut hk (.inr rfl)) (by omega)
    exact hrest k (by omega) hother.1 hother.2
  have htlr : t ∉ ({l, r} : Finset Nat) := by
    simp only [Finset.mem_insert, Finset.mem_singleton]; omega
  refine h.next {t, l, r} c' new hstep ⟨?sub, ?stages, ?near, ?faces⟩ hfits ?node ?told ?new ?walk
    ?calls ?straight ?nears
  case sub =>
    simpa only [Finset.mem_insert, Finset.mem_singleton, forall_eq_or_imp, forall_eq] using
      ⟨hcut.lt_size, hcut.left_lt_size, hcut.right_lt_size⟩
  case stages =>
    intro u hu
    simp only [Finset.mem_insert, Finset.mem_singleton, not_or] at hu
    exact hrest u hu.1 hu.2.1 hu.2.2
  case near =>
    intro u hu hnot
    simp only [Finset.mem_insert, Finset.mem_singleton, not_or] at hnot
    exact hnear u hu hnot.1 hnot.2.1 hnot.2.2
  case faces =>
    simp only [Finset.mem_insert, Finset.mem_singleton, forall_eq_or_imp, forall_eq]
    have hparent : ∀ k, k = l ∨ k = r → ∀ p' l' r', S.plan.Cut p' l' r' → k = l' ∨ k = r' →
        p' = t ∨ p' = l ∨ p' = r :=
      fun k hk p' l' r' hcut' hk' => .inl (hcut'.parent_unique hcut hk' hk)
    exact ⟨.inl ⟨Plan.face_congr (by rw [hself, hface.1]) (by rw [hself, hface.2]), hcarries⟩,
      .inr (hparent l (.inl rfl)), .inr (hparent r (.inr rfl))⟩
  case node =>
    simp only [Finset.mem_insert, Finset.mem_singleton, forall_eq_or_imp, forall_eq,
      Setting.HoldsAt, hself, hleft', hright']
    refine ⟨?_, hleft.of_kids hcut.left_lt_size (hkids l (.inl rfl)),
      hright.of_kids hcut.right_lt_size (hkids r (.inr rfl))⟩
    rw [hcut.kids_eq, Plan.face, Plan.face, hleft', hright']
    exact hnode
  case told =>
    simpa only [Finset.mem_insert, Finset.mem_singleton, forall_eq_or_imp, forall_eq, hself,
      hleft', hright'] using htold
  case new =>
    intro w hw
    obtain ⟨rfl, hleaf, hfirst, hup⟩ := hnew w hw
    exact ⟨l, hcut.left_lt_size, rfl, hleaf, hfirst, by rw [hleft', hup]⟩
  case walk =>
    rw [Finset.sum_insert htlr, Finset.sum_pair hlr, Finset.sum_insert htlr, Finset.sum_pair hlr,
      hself, hleft', hright']
    exact hwalk
  case calls =>
    rw [Finset.sum_insert htlr, Finset.sum_pair hlr, Finset.sum_insert htlr, Finset.sum_pair hlr,
      hself, hleft', hright']
    exact hcalls
  case straight =>
    simpa only [Finset.mem_insert, Finset.mem_singleton, forall_eq_or_imp, forall_eq, hself,
      hleft', hright'] using hstraight
  case nears =>
    rw [Finset.sum_insert htlr, Finset.sum_pair hlr, Finset.sum_insert htlr, Finset.sum_pair hlr,
      hself, hleft', hright']
    exact hnears

end Inv

end ForkJoin.Scan
