import ForkJoin.Proofs.Scan.Moves
import ForkJoin.Proofs.Scan.Reporting

/-!
# Steps of a report in the first pass

A visit that has summed a node looks at the phase of its parent. If it is the first of the two, it
leaves a mark there; if it is the second, it adds up the sums of both, which are there, and goes on
from the parent. Another visit may change the phase in between: then the visit looks again, and may
have to add up again.
-/
namespace ForkJoin.Scan

open Calling Store

variable {α : Type}

/-! ## What the parent sees -/

namespace Plan

variable {plan : Plan} {c : Nat → Stage} {t u : Nat} {a : Stage}

theorem face_update_self : plan.face (Function.update c t a) t =
    ⟨a.up.face, a.down.face.shown (plan.isFirst t)⟩ := by
  rw [face, Function.update_self]

theorem face_update_of_ne (h : u ≠ t) :
    plan.face (Function.update c t a) u = plan.face c u := by
  rw [face, face, Function.update_of_ne h]

theorem face_up_told (h : (plan.face c t).up = .told) : (c t).up = .told := Up.face_eq_told.1 h

/-- A parent sees of a node that is not a first one where it stands idle. -/
theorem face_down_idle (hf : plan.isFirst t = false) (h : (plan.face c t).down = .idle) :
    (c t).down = .idle := by
  rw [face, hf, Down.Face.shown_false] at h
  exact Down.face_eq_idle.1 h

theorem face_down_told (h : (plan.face c t).down = .told) : (c t).down = .told :=
  Down.face_eq_told.1 (Down.Face.shown_eq_told.1 h)

end Plan

namespace Setting

variable {S : Setting α} {c : Nat → Stage} {t : Nat}

/-- The face of a node whose report was received. -/
theorem face_tell (t : Nat) :
    S.gain t = .summed ∧ S.plan.face (Function.update c t (S.tell t (c t))) t =
      ⟨.told, (S.plan.face c t).down⟩ ∨
    S.gain t = .both ∧ S.plan.isFirst t = true ∧
      S.plan.face (Function.update c t (S.tell t (c t))) t = ⟨.told, .told⟩ := by
  by_cases hboth : S.plan.IsLeaf t ∧ S.plan.isFirst t = true
  · have hgain := S.gain_of_first_leaf hboth.1 hboth.2
    exact .inr ⟨hgain, hboth.2, by rw [Plan.face_update_self, S.tell_of_both hgain]; rfl⟩
  · have hgain : S.gain t = .summed := by rw [gain, if_neg hboth]
    exact .inl ⟨hgain, by rw [Plan.face_update_self, S.tell_of_summed hgain]; rfl⟩

theorem cutCalls_succ (S : Setting α) (t : Nat) (added : Bool) (joins : Nat) :
    S.cutCalls t added (joins + 1) =
      S.cutCalls t added joins + {(S.sum (S.plan.kids t).1, S.sum (S.plan.kids t).2)} := by
  rw [cutCalls, cutCalls, Multiset.replicate_succ, ← Multiset.singleton_add, add_assoc,
    add_comm (Multiset.replicate _ _)]

/-! ### Where both children are summed -/

section

variable {a : Stage}

/-- The walker that comes from below goes on with the report; at a first node the second pass has a
walker as well. -/
theorem walkers_joinUp (hcut : ¬ S.plan.IsLeaf t) (hup : a.up = .below) (hidle : a.down = .idle) :
    S.walkers t (a.joinUp (S.plan.isFirst t)) =
      (.climb t .summed ::ₘ if S.plan.isFirst t then {.enter t} else 0) + S.walkers t a := by
  have hnone : S.walkers t a = 0 := by
    rw [walkers, hup, hidle]
    rfl
  rw [hnone, add_zero, Stage.joinUp_eq hidle, walkers, ← S.gain_of_cut hcut,
    ← Multiset.singleton_add]
  cases S.plan.isFirst t <;> rfl

theorem calls_joinUp (hcut : ¬ S.plan.IsLeaf t) (hidle : a.down = .idle) (first : Bool) :
    S.calls t (a.joinUp first) = S.calls t a + ([] : List (α × α)) := by
  refine S.calls_cut_eq hcut ?_ rfl
  rw [Stage.joinUp_eq hidle, hidle]
  cases first <;> rfl

end

end Setting

/-- A node where both passes go on has more steps behind it than visits are forked. -/
theorem Stage.ahead_joinUp {a : Stage} (hup : a.up = .below) (hidle : a.down = .idle)
    (first : Bool) : (a.joinUp first).ahead + (if first then 2 else 1) ≤ a.ahead := by
  rw [Stage.joinUp_eq hidle, Stage.ahead, Stage.ahead, hup, hidle]
  cases first <;> simp [Up.ahead, Down.ahead]

namespace Holds

variable {S : Setting α} {s s' : Store α} {t : Nat} {a : Stage} {l r l' r' : Face} {v : Visit α}

/-- A node that is cut stays at its stage. -/
theorem of_cut (h : Holds S s t a l r) (hcut : ¬ S.plan.IsLeaf t)
    (hcompleted : s'.completed = s.completed) (hcarries : s'.carries = s.carries)
    (hc : HoldsCut S s' t a l' r') : Holds S s' t a l' r' where
  sound := h.sound
  root h0 := by rw [hcompleted]; exact h.root h0
  carry := by rw [hcarries]; exact h.carry
  leaf hleaf := absurd hleaf hcut
  cut _ := hc

/-- The walker that has reported is gone. -/
theorem walkers_tell (h : Holds S s t a l r) (hup : a.up ≠ .told) (hv : S.upWalker t a.up = {v}) :
    S.walkers t a = v ::ₘ S.walkers t (S.tell t a) := by
  have hdown : S.downWalker t (S.tell t a).down = S.downWalker t a.down := by
    by_cases hboth : S.plan.IsLeaf t ∧ S.plan.isFirst t = true
    · rw [S.tell_of_both (S.gain_of_first_leaf hboth.1 hboth.2), (h.leaf hboth.1).down_idle hup]
      rfl
    · rw [S.tell_of_summed (by rw [Setting.gain, if_neg hboth])]
      rfl
  rw [Setting.walkers, Setting.walkers, hv, hdown, show S.upWalker t (S.tell t a).up = 0 from rfl,
    zero_add, Multiset.singleton_add]

end Holds

namespace Inv

variable {S : Setting α} {c : Nat → Stage} {s : Store α} {pool rest : Multiset (Visit α)}
  {calls : List (α × α)} {p l r t : Nat} {seen : Phase}

theorem cut (h : Inv S c pool s calls) (hcut : S.plan.Cut p l r) :
    HoldsCut S s p (c p) (S.plan.face c l) (S.plan.face c r) := by
  have := (h.node p hcut.lt_size).cut hcut.not_leaf
  rwa [hcut.kids_eq] at this

/-- The sum of a node is in its slot once the node is ready to be reported, until it is swept. -/
theorem sum_ready (h : Inv S c pool s calls) (ht : t < S.plan.nodes.size)
    (hlast : S.plan.isLast (S.plan.span t) = false) (hready : (c t).up.ready = true)
    (hdown : S.plan.isFirst t = true ∨ (c t).down = .idle) :
    s.sums[t]? = some (some (S.sum t)) := by
  have hnode := h.node t ht
  by_cases hleaf : S.plan.IsLeaf t
  · exact (hnode.leaf hleaf).sum hlast hready (hdown.imp_right fun hd => by rw [hd]; rfl)
  · exact (hnode.cut hleaf).sum hlast (.inl hready)

/-- The parent after the mark of the first of two reports. -/
theorem cut_deliver {s' : Store α} (h : Inv S c pool s calls) (hcut : S.plan.Cut p l r)
    (ht : t = l ∨ t = r) (hbusy : (S.plan.face c t).up = .busy)
    (hsummed : (cutPhase (c p) (S.plan.face c l) (S.plan.face c r)).summed = false)
    (hphase : s'.phases[p]? =
      some ((cutPhase (c p) (S.plan.face c l) (S.plan.face c r)).add (S.gain t))) :
    HoldsCut S s' p (c p) (S.plan.face (Function.update c t (S.tell t (c t))) l)
      (S.plan.face (Function.update c t (S.tell t (c t))) r) := by
  have hp := h.cut hcut
  rw [cutPhase, Bool.or_eq_false_iff, beq_eq_false_iff_ne, beq_eq_false_iff_ne] at hsummed
  rcases ht with rfl | rfl
  · rw [Plan.face_update_of_ne (hcut.left_ne_right S.family).symm]
    rcases S.face_tell (c := c) t with ⟨hgain, hface⟩ | ⟨hgain, hfirst, hface⟩
    · rw [hface]
      exact hp.deliver_left hbusy hsummed.2 (.inl ⟨hgain, rfl⟩) hphase
    · rw [hface]
      exact hp.deliver_left hbusy hsummed.2
        (.inr ⟨hgain, hcut.isFirst_left ▸ hfirst, rfl⟩) hphase
  · have hgain := S.gain_of_not_first (hcut.isFirst_right S.family)
    rw [Plan.face_update_of_ne (hcut.left_ne_right S.family), Plan.face_update_self,
      S.tell_of_summed hgain]
    exact hp.deliver_right hbusy hsummed.1 (hgain ▸ hphase)

/-- The first of two reports leaves a mark, unless another visit has come in between. -/
theorem up_deliver (h : Inv S c (.deliver t (S.gain t) seen ::ₘ rest) s calls)
    (hcut : S.plan.Cut p l r) (ht : t = l ∨ t = r) (hup : (c t).up = .deliver seen) :
    Goes S c (.deliver t (S.gain t) seen) rest s calls := by
  obtain ⟨n, hn, hparent⟩ := hcut.parent ht
  obtain ⟨m, hm, _⟩ := hcut.node
  have hsize := hcut.child_lt_size ht
  have hlt := hcut.lt_child S.family ht
  have hnode := h.node t hsize
  have hp := h.cut hcut
  have hready : (c t).up.ready = true := by rw [hup]; rfl
  have hne : (c t).up ≠ .told := by simp [hup]
  by_cases hseen : cutPhase (c p) (S.plan.face c l) (S.plan.face c r) = seen
  · have hsummed := hnode.sound.summed seen hup
    have hbusy : (S.plan.face c t).up = .busy := by rw [Plan.face, hup]; rfl
    have hnear : ∀ u, u ≠ p → Near S s (s.withPhase p (seen.add (S.gain t))) u :=
      fun u hu => .withPhase _ hu
    have hphase : (s.withPhase p (seen.add (S.gain t))).phases[p]? =
        some ((cutPhase (c p) (S.plan.face c l) (S.plan.face c r)).add (S.gain t)) := by
      rw [phase_withPhase h.fits hm, hseen]
    refine h.next_two hcut ht (S.tell t (c t)) (c p)
      (.of_done (Visit.step_deliver hn hparent (hp.phase.trans (congrArg some hseen)))) ⟨rfl, rfl⟩
      rfl (fun u _ _ hu => hnear u hu) ((Frame.withPhase hm (.refl m.span) _).fits h.fits)
      (hnode.tell hready hne (hnear t (by omega)).toAlike rfl (by omega))
      ((h.node p hcut.lt_size).of_cut hcut.not_leaf rfl rfl
        (h.cut_deliver hcut ht hbusy (hseen ▸ hsummed) hphase))
      (fun _ => rfl) id ?walk ?calls (fun _ => ⟨id, id⟩) (.inl ?ahead)
    case walk =>
      rw [hnode.walkers_tell hne (by rw [hup]; rfl), Multiset.coe_nil, zero_add,
        Multiset.cons_add]
    case calls => rw [S.calls_tell hready, Multiset.coe_nil, add_zero, add_zero]
    case ahead =>
      have hless := S.ahead_tell_le t (c t)
      simp only [Stage.ahead, List.length_nil] at hless ⊢
      omega
  · have hlate : ¬ (Visit.deliver t (S.gain t) seen).Timely S.plan s := fun htimely => hseen <| by
      have hsame := htimely t seen rfl
      rw [hcut.parentOf_eq ht, hp.phase] at hsame
      exact Option.some.inj hsame
    exact h.next_up hsize .climb (by rw [hup]; rfl) rfl
      (.of_done (Visit.step_deliver_late hn hparent hp.phase hseen)) (by rw [hup]; rfl) rfl
      (fun u _ _ => .refl s u) h.fits
      (hnode.rise (by omega) hready hne rfl (by simp) (by simp) (by simp)) (S.calls_rise hready rfl)
      (.inr ⟨hlate, by simp [Visit.seen?], by simp [hup, Up.ahead]⟩)

/-- What the second of two reports sees of the phase of the parent. -/
theorem seen_second (h : Inv S c pool s calls) (hcut : S.plan.Cut p l r) (ht : t = l ∨ t = r)
    (hup : (S.plan.face c t).up ≠ .told)
    (hsummed : (cutPhase (c p) (S.plan.face c l) (S.plan.face c r)).summed = true) :
    Seen (S.plan.isFirst p) (S.plan.IsLeaf (S.plan.kids p).1) (t == l) (c p).again
      (S.plan.face c l).down (S.plan.face c r).down
      (cutPhase (c p) (S.plan.face c l) (S.plan.face c r)) := by
  have hlinked := (h.cut hcut).linked
  have htold : (S.plan.face c l).up ≠ .told ∨ (S.plan.face c r).up ≠ .told :=
    ht.imp (fun ht => by rwa [← ht]) (fun ht => by rwa [← ht])
  have hidle := hlinked.down_idle htold
  have hright : (S.plan.face c r).down = .idle := (hlinked.downs_idle htold).1
  refine ⟨hsummed, fun _ => by rw [cutPhase, hidle]; rfl, fun _ hf => ?_, fun ha => ?_,
    fun hfirst hleaf => ?_⟩
  · rwa [cutPhase, Bool.or_eq_true, beq_iff_eq, beq_iff_eq] at hf
  · rw [cutPhase, (hlinked.again ha).2.2]
    rfl
  · -- a first leaf tells of both passes at once, so the right child sees it swept
    have hleaf' : S.plan.IsLeaf l := by
      rw [hcut.kids_eq] at hleaf
      exact of_decide_eq_true hleaf
    have hfirst' : S.plan.isFirst l = true := hcut.isFirst_left ▸ hfirst
    have hl := ((h.node l hcut.left_lt_size).leaf hleaf').stage.down_first hfirst'
    simp only [cutPhase, hright]
    rcases ht with rfl | rfl
    · have hdown : (c t).down = .idle :=
        (hl.resolve_right fun hd => hup (by rw [Plan.face, hd.2]; rfl)).1
      simp [Plan.face, hdown, Down.face, Down.Face.shown, hfirst']
    · have hother : (S.plan.face c l).up = .told := by
        simpa [cutPhase, hup] using hsummed
      have hdown : (c l).down = .told := by
        have := Plan.face_up_told hother
        exact (hl.resolve_left fun hd => hd.2 this).1
      simp [Plan.face, hdown, Down.face, Down.Face.shown,
        (hcut.left_ne_right S.family).symm]

/-- The parent while the second of two reports is about to add up. -/
theorem cut_add (h : Inv S c pool s calls) (hcut : S.plan.Cut p l r) (ht : t = l ∨ t = r)
    (hbusy : (S.plan.face c t).up = .busy)
    (hsummed : (cutPhase (c p) (S.plan.face c l) (S.plan.face c r)).summed = true) :
    HoldsCut S s p (c p)
      (S.plan.face (Function.update c t ((c t).toUp
        (.addLeft (cutPhase (c p) (S.plan.face c l) (S.plan.face c r))))) l)
      (S.plan.face (Function.update c t ((c t).toUp
        (.addLeft (cutPhase (c p) (S.plan.face c l) (S.plan.face c r))))) r) := by
  have hp := h.cut hcut
  have hseen := h.seen_second hcut ht (by simp [hbusy]) hsummed
  have hother : (S.plan.face c l).up = .told ∨ (S.plan.face c r).up = .told := by
    simpa [cutPhase] using hsummed
  rcases ht with rfl | rfl
  · rw [beq_self_eq_true] at hseen
    rw [Plan.face_update_of_ne (hcut.left_ne_right S.family).symm, Plan.face_update_self]
    exact hp.add_left hbusy (hother.resolve_left (by simp [hbusy])) hseen
  · rw [beq_eq_false_iff_ne.2 (hcut.left_ne_right S.family).symm] at hseen
    rw [Plan.face_update_of_ne (hcut.left_ne_right S.family), Plan.face_update_self]
    exact hp.add_right hbusy (hother.resolve_right (by simp [hbusy])) hseen

/-- Only the first leaf has a sweep to report in the first pass, and it has no sibling that is swept
before it. -/
theorem unfinished (h : Inv S c pool s calls) (hcut : S.plan.Cut p l r) (ht : t = l ∨ t = r)
    (hne : (c t).up ≠ .told) (hbusy : (S.plan.face c t).up = .busy) :
    ((cutPhase (c p) (S.plan.face c l) (S.plan.face c r)).finished && (S.gain t).hasFinished) =
      false := by
  by_cases hboth : S.plan.IsLeaf t ∧ S.plan.isFirst t = true
  · have htl : t = l := ht.resolve_right fun htr => by
      rw [htr, hcut.isFirst_right S.family] at hboth
      cases hboth.2
    have hdown := ((h.node t (hcut.child_lt_size ht)).leaf hboth.1).down_idle hne
    have hright := ((h.cut hcut).linked.downs_idle (.inl (by rw [← htl, hbusy]; rintro ⟨⟩))).1
    rw [cutPhase, hright, ← htl]
    simp [Plan.face, hdown, Down.face, Down.Face.shown, hboth.2]
  · rw [Setting.gain, if_neg hboth, Gain.hasFinished, Bool.and_false]

/-- A report of the first pass looks at the phase of the parent. -/
theorem up_climb (h : Inv S c (.climb t (S.gain t) ::ₘ rest) s calls)
    (hcut : S.plan.Cut p l r) (ht : t = l ∨ t = r) (hup : (c t).up = .climb) :
    Goes S c (.climb t (S.gain t)) rest s calls := by
  obtain ⟨n, hn, hparent⟩ := hcut.parent ht
  have hsize := hcut.child_lt_size ht
  have hlt := hcut.lt_child S.family ht
  have hnode := h.node t hsize
  have hp := h.cut hcut
  have hready : (c t).up.ready = true := by rw [hup]; rfl
  have hne : (c t).up ≠ .told := by simp [hup]
  have hbusy : (S.plan.face c t).up = .busy := by rw [Plan.face, hup]; rfl
  have hstep : (Visit.step S.plan (.climb t (S.gain t))).run s = _ :=
    Visit.step_climb hn hparent hp.phase
  rw [h.unfinished hcut ht hne hbusy, if_neg (by simp), S.gain_hasSummed, Bool.and_true] at hstep
  cases hsummed : (cutPhase (c p) (S.plan.face c l) (S.plan.face c r)).summed with
  | true =>
    rw [hsummed, if_pos rfl] at hstep
    refine h.next_two hcut ht
      ((c t).toUp (.addLeft (cutPhase (c p) (S.plan.face c l) (S.plan.face c r)))) (c p)
      (.of_done hstep) ⟨rfl, rfl⟩ rfl
      (fun u _ _ _ => .refl s u) h.fits
      (hnode.rise (by omega) hready hne rfl (by simp) (by simp) (by simp))
      ((h.node p hcut.lt_size).of_cut hcut.not_leaf rfl rfl (h.cut_add hcut ht hbusy hsummed))
      (fun htold => absurd htold hne) id ?walk ?calls (fun _ => ⟨id, id⟩)
      (.inl (by simp +arith [Stage.ahead, hup, Up.ahead]))
    case walk =>
      rw [Multiset.coe_singleton, Multiset.singleton_add, ← Multiset.cons_add,
        S.walkers_up_on (.addLeft _) (by rw [hup]; rfl) rfl, Multiset.cons_add]
    case calls =>
      rw [S.calls_rise hready rfl]
      abel
  | false =>
    rw [hsummed, if_neg (by simp)] at hstep
    refine h.next_up hsize (.deliver _) (by rw [hup]; rfl) rfl (.of_done hstep) (by rw [hup]; rfl)
      rfl (fun u _ _ => .refl s u) h.fits
      (hnode.rise (by omega) hready hne rfl (by simp) (fun seen hs => ?_) (by simp))
      (S.calls_rise hready rfl) (.inl (by simp [hup, Up.ahead]))
    rw [← Up.deliver.inj hs, hsummed]

/-- The report of the first pass at the root; if the root is a leaf, this is the end. -/
theorem up_climb_root (h : Inv S c (.climb 0 (S.gain 0) ::ₘ rest) s calls)
    (hup : (c 0).up = .climb) : Goes S c (.climb 0 (S.gain 0)) rest s calls := by
  obtain ⟨n, hn, _, hparent⟩ := S.family.grown.root
  have hnode := h.node 0 S.family.size_pos
  have hready : (c 0).up.ready = true := by rw [hup]; rfl
  have hne : (c 0).up ≠ .told := by simp [hup]
  have hroot := hnode.root rfl
  have hstep : (Visit.step S.plan (.climb 0 (S.gain 0))).run s = _ :=
    Visit.step_climb_root hn hparent
  have hwalk : (([] : List (Visit α)) : Multiset (Visit α)) + S.walkers 0 (c 0) =
      .climb 0 (S.gain 0) ::ₘ S.walkers 0 (S.tell 0 (c 0)) := by
    rw [hnode.walkers_tell hne (by rw [hup]; rfl), Multiset.coe_nil, zero_add]
  have hnears : (Visit.climb 0 (S.gain 0)).Nears S.plan s [] (c 0).ahead (S.tell 0 (c 0)).ahead :=
    .inl ((S.ahead_tell_le 0 (c 0)).trans (Nat.le_add_left ..))
  cases hgain : (S.gain 0).hasFinished with
  | true =>
    rw [hgain, if_pos rfl] at hstep
    refine h.next_root (S.tell 0 (c 0)) (.of_done hstep)
      (fun u hu => ⟨.withEnd s u, fun h0 => absurd h0 hu⟩)
      ⟨h.fits.cells, h.fits.phases, h.fits.carries, h.fits.sums⟩
      (hnode.tell hready hne (.withEnd s 0) rfl fun _ => ?_) (fun _ => rfl) hwalk
      (S.calls_tell hready) (fun _ => id) hnears
    rw [Setting.tell, hgain]
    exact ⟨by simp, rfl, ⟨by simp, by simp⟩, rfl⟩
  | false =>
    rw [hgain, if_neg (by simp)] at hstep
    refine h.next_root (S.tell 0 (c 0)) (.of_done hstep) (fun u _ => .refl s u) h.fits
      (hnode.tell hready hne (Near.refl s 0).toAlike rfl fun _ => ?_) (fun _ => rfl) hwalk
      (S.calls_tell hready) (fun _ => id) hnears
    rw [Setting.tell, hgain]
    exact ⟨by simp, rfl, hroot.down, hroot.done⟩

/-- While the first pass is below a node, the sum of a child that is ready has not been touched
since. -/
theorem sum_child (h : Inv S c pool s calls) (hcut : S.plan.Cut p l r) (ht : t = l ∨ t = r)
    (hidle : (c p).down.fresh = true) (hready : (c t).up.ready = true)
    (hlast : S.plan.isLast (S.plan.span t) = false) : s.sums[t]? = some (some (S.sum t)) := by
  have hfresh := (h.cut hcut).linked.fresh hidle
  refine h.sum_ready (hcut.child_lt_size ht) hlast hready ?_
  rcases ht with rfl | rfl
  · cases hf : S.plan.isFirst p with
    | true => exact .inl (hcut.isFirst_left.trans hf)
    | false => exact .inr (Plan.face_down_idle (hcut.isFirst_left.trans hf) (hfresh.2 hf))
  · exact .inr (Plan.face_down_idle (hcut.isFirst_right S.family) hfresh.1)

/-- A child that adds up stands below its parent, and both are ready. -/
theorem adding (h : Inv S c pool s calls) (hcut : S.plan.Cut p l r) (ht : t = l ∨ t = r)
    {j k : Bool} (hface : (S.plan.face c t).up = .adding seen j k) (hready : (c t).up.ready = true) :
    ((S.plan.face c l).up ≠ .told ∨ (S.plan.face c r).up ≠ .told) ∧ (c p).down = .idle ∧
      (c l).up.ready = true ∧ (c r).up.ready = true := by
  have hlinked := (h.cut hcut).linked
  rcases ht with rfl | rfl
  · have htold : (S.plan.face c t).up ≠ .told := by simp [hface]
    have hother := Plan.face_up_told (hlinked.left seen (by rw [hface]; rfl)).1
    exact ⟨.inl htold, hlinked.down_idle (.inl htold), hready, by rw [hother]; rfl⟩
  · have htold : (S.plan.face c t).up ≠ .told := by simp [hface]
    have hother := Plan.face_up_told (hlinked.right seen (by rw [hface]; rfl)).1
    exact ⟨.inr htold, hlinked.down_idle (.inr htold), by rw [hother]; rfl, hready⟩

/-- The parent takes note of how far a child that adds up has come. -/
theorem cut_move {s' : Store α} {up : Up} {j k again : Bool} (h : Inv S c pool s calls)
    (hcut : S.plan.Cut p l r) (ht : t = l ∨ t = r)
    (hface : (S.plan.face c t).up = .adding seen j k) (hup : up.face ≠ .idle ∧ up.face ≠ .told)
    (hseen : up.face.seen? = some seen ∧ again = (c p).again ∨ up.face.seen? = none ∧
      (again = true → S.plan.isFirst p = true ∧ ¬ S.plan.IsLeaf l ∧
        (S.plan.face c l).down = .told))
    (hphase : s'.phases[p]? = s.phases[p]?)
    (hsum : up.face.leaves = true → S.plan.isLast (S.plan.span p) = false →
      s'.sums[p]? = some (some (S.sum p))) :
    HoldsCut S s' p ((c p).toJoined up.face.joins again)
      (S.plan.face (Function.update c t ((c t).toUp up)) l)
      (S.plan.face (Function.update c t ((c t).toUp up)) r) := by
  have hp := h.cut hcut
  have hleaf : ¬ S.plan.IsLeaf l ↔ decide (S.plan.IsLeaf (S.plan.kids p).1) = false := by
    rw [hcut.kids_eq, decide_eq_false_iff_not]
  rw [hleaf] at hseen
  rcases ht with rfl | rfl
  · rw [Plan.face_update_of_ne (hcut.left_ne_right S.family).symm, Plan.face_update_self]
    exact hp.move_left hface hup.1 hup.2 hseen hphase hsum
  · rw [Plan.face_update_of_ne (hcut.left_ne_right S.family), Plan.face_update_self]
    exact hp.move_right hface hup.1 hup.2 hseen hphase hsum

/-- A child that adds up goes on, and its parent takes note of how far it has come. -/
theorem next_adding {s' : Store α} {v w : Visit α} {made : List (α × α)} {j k again : Bool}
    (h : Inv S c (v ::ₘ rest) s calls) (hcut : S.plan.Cut p l r) (ht : t = l ∨ t = r) (up : Up)
    (hv : S.upWalker t (c t).up = {v}) (hw : S.upWalker t up = {w})
    (hstep : Returns S.op ((Visit.step S.plan v).run s) ([w], s') made)
    (hface : (S.plan.face c t).up = .adding seen j k) (hready : (c t).up.ready = true)
    (hready' : up.ready = true)
    (hup : up.face.seen? = some seen ∧ up.face.joins = true ∧ again = (c p).again ∨
      up = .climb ∧ (again = true → S.plan.isFirst p = true ∧ ¬ S.plan.IsLeaf l ∧
        (S.plan.face c l).down = .told))
    (hnear : ∀ u, u ≠ p → Near S s s' u) (hfits : s'.Fits S.plan)
    (hcompleted : s'.completed = s.completed) (hcarries : s'.carries = s.carries)
    (hphase : s'.phases[p]? = s.phases[p]?)
    (hsum : up.face.leaves = true → S.plan.isLast (S.plan.span p) = false →
      s'.sums[p]? = some (some (S.sum p)))
    (hcalls : S.calls p ((c p).toJoined up.face.joins again) = S.calls p (c p) + made)
    (hstraight : v.Timely S.plan s → again = (c p).again)
    (hnears : v.Nears S.plan s [w] (c t).up.ahead up.ahead) : Goes S c v rest s calls := by
  have hlt := hcut.lt_child S.family ht
  have hnode := h.node t (hcut.child_lt_size ht)
  have hne : (c t).up ≠ .told := fun htold => by
    rw [Plan.face, htold] at hface
    cases hface
  have hface' : up.face ≠ .idle ∧ up.face ≠ .told ∧ (∀ seen, up ≠ .deliver seen) ∧
      ∀ seen, up ≠ .addRight seen := by
    rcases hup with ⟨hseen, hjoins, _⟩ | ⟨rfl, _⟩
    · cases up <;> simp_all [Up.face, Up.Face.seen?, Up.Face.joins]
    · exact ⟨by rintro ⟨⟩, by rintro ⟨⟩, by rintro _ ⟨⟩, by rintro _ ⟨⟩⟩
  obtain ⟨hidle, htold, hdeliver, hright⟩ := hface'
  have hseen : up.face.seen? = some seen ∧ again = (c p).again ∨ up.face.seen? = none ∧
      (again = true → S.plan.isFirst p = true ∧ ¬ S.plan.IsLeaf l ∧
        (S.plan.face c l).down = .told) := by
    rcases hup with ⟨hsome, _, hagain⟩ | ⟨rfl, hagain⟩
    · exact .inl ⟨hsome, hagain⟩
    · exact .inr ⟨rfl, hagain⟩
  refine h.next_two hcut ht ((c t).toUp up) ((c p).toJoined up.face.joins again) hstep ⟨rfl, rfl⟩
    (by rw [hcarries]) (fun u _ _ hu => hnear u hu) hfits
    ((hnode.rise (by omega) hready hne hready' (fun htold' => htold (htold' ▸ rfl))
      (fun seen hs => absurd hs (hdeliver seen)) (fun seen hs => absurd hs (hright seen))).near_same
        (hnear t (by omega)) hcarries)
    ((h.node p hcut.lt_size).cut_joined hcut.not_leaf hcompleted hcarries
      (h.cut_move hcut ht hface ⟨hidle, htold⟩ hseen hphase hsum))
    (fun htold' => absurd htold' hne) id ?walk ?calls
    (fun htimely => ⟨id, hstraight htimely ▸ id⟩) (hnears.add ?ahead)
  case walk =>
    rw [Multiset.coe_singleton, Multiset.singleton_add, ← Multiset.cons_add,
      S.walkers_up_on up hv hw, Multiset.cons_add]
    rfl
  case calls =>
    rw [S.calls_rise hready hready', hcalls, Multiset.coe_nil]
    abel
  case ahead =>
    change up.ahead + (c t).down.ahead + (c p).ahead + (c t).up.ahead =
      (c t).up.ahead + (c t).down.ahead + (c p).ahead + up.ahead
    omega

/-- The second of two reports fetches the sum of the left child; at the end of the window it is not
added to anything. -/
theorem up_addLeft (h : Inv S c (.addLeft t (S.gain t) seen ::ₘ rest) s calls)
    (hcut : S.plan.Cut p l r) (ht : t = l ∨ t = r) (hup : (c t).up = .addLeft seen) :
    Goes S c (.addLeft t (S.gain t) seen) rest s calls := by
  obtain ⟨n, hn, hparent⟩ := hcut.parent ht
  obtain ⟨m, hm, _, hc, _⟩ := hcut.node
  obtain ⟨nr, hnr, hspan⟩ := Plan.exists_node hcut.right_lt_size
  have hsize := hcut.child_lt_size ht
  have hlt := hcut.lt_child S.family ht
  have hnode := h.node t hsize
  have hready : (c t).up.ready = true := by rw [hup]; rfl
  have hface : (S.plan.face c t).up = .adding seen false false := by rw [Plan.face, hup]; rfl
  obtain ⟨htold, hidle, hl, hr⟩ := h.adding hcut ht hface hready
  have hx := h.sum_child hcut (.inl rfl) (by rw [hidle]; rfl) hl (hcut.isLast_left S.family)
  have hstep : (Visit.step S.plan (.addLeft t (S.gain t) seen)).run s = _ :=
    Visit.step_addLeft hn hparent hm hc hx hnr
  rw [hspan, hcut.isLast_right] at hstep
  cases hlast : S.plan.isLast (S.plan.span p) with
  | true =>
    have hjoint : S.joint (S.plan.parentOf t) = S.sum l := by
      rw [hcut.parentOf_eq ht, Setting.joint, if_pos hlast, hcut.kids_eq]
    rw [hlast, if_pos rfl, ← hjoint] at hstep
    exact h.next_adding hcut ht (.leaveSum seen) (by rw [hup]; rfl) rfl (.of_done hstep) hface
      hready rfl (.inl ⟨rfl, rfl, rfl⟩) (fun u _ => .refl s u) h.fits rfl rfl rfl (by rintro ⟨⟩)
      (S.calls_cut_eq hcut.not_leaf rfl (by simp [Setting.joins, hlast]))
      (fun _ => rfl) (.inl (by simp [hup, Up.ahead]))
  | false =>
    have hkids : S.sum (S.plan.kids (S.plan.parentOf t)).1 = S.sum l := by
      rw [hcut.parentOf_eq ht, hcut.kids_eq]
    rw [hlast, if_neg (by simp), ← hkids] at hstep
    refine h.next_up hsize (.addRight seen) (by rw [hup]; rfl) rfl (.of_done hstep)
      (by rw [hup]; rfl) rfl (fun u _ _ => .refl s u) h.fits
      (hnode.rise (by omega) hready (by simp [hup]) rfl (by simp) (by simp) fun _ _ => ?_)
      (S.calls_rise hready rfl) (.inl (by simp [hup, Up.ahead]))
    rwa [hcut.parentOf_eq ht]

/-- The sums of both children are added up. -/
theorem up_addRight (h : Inv S c (.addRight t (S.gain t) seen
      (S.sum (S.plan.kids (S.plan.parentOf t)).1) ::ₘ rest) s calls)
    (hcut : S.plan.Cut p l r) (ht : t = l ∨ t = r) (hup : (c t).up = .addRight seen) :
    Goes S c (.addRight t (S.gain t) seen (S.sum (S.plan.kids (S.plan.parentOf t)).1)) rest s
      calls := by
  obtain ⟨n, hn, hparent⟩ := hcut.parent ht
  obtain ⟨m, hm, _, hc, _⟩ := hcut.node
  have hnode := h.node t (hcut.child_lt_size ht)
  have hready : (c t).up.ready = true := by rw [hup]; rfl
  have hface : (S.plan.face c t).up = .adding seen false false := by rw [Plan.face, hup]; rfl
  obtain ⟨htold, hidle, hl, hr⟩ := h.adding hcut ht hface hready
  have hlast := hnode.sound.right seen hup
  rw [hcut.parentOf_eq ht] at hlast
  have hy := h.sum_child hcut (.inr rfl) (by rw [hidle]; rfl) hr (hcut.isLast_right.trans hlast)
  have hkids : (S.plan.kids (S.plan.parentOf t)).1 = l := by
    rw [hcut.parentOf_eq ht, hcut.kids_eq]
  have hjoint : S.joint (S.plan.parentOf t) = S.op (S.sum l) (S.sum r) := by
    rw [hcut.parentOf_eq ht, Setting.joint, if_neg (by simp [hlast]), S.sum_cut hcut]
  have hstep : Returns S.op ((Visit.step S.plan (.addRight t (S.gain t) seen
        (S.sum (S.plan.kids (S.plan.parentOf t)).1))).run s)
      ([.leaveSum t (S.gain t) seen (S.joint (S.plan.parentOf t))], s) [(S.sum l, S.sum r)] := by
    rw [Visit.step_addRight hn hparent hm hc hy, hjoint, hkids]
    exact .call .done
  have hjoined : (c p).joined = false := by
    have hlinked := (h.cut hcut).linked
    rw [hlinked.joined_below htold]
    rcases ht with rfl | rfl
    · rw [hface, (hlinked.left seen (by rw [hface]; rfl)).1]
      rfl
    · rw [hface, (hlinked.right seen (by rw [hface]; rfl)).1]
      rfl
  refine h.next_adding hcut ht (.leaveSum seen) (by rw [hup]; rfl) rfl hstep hface
    hready rfl (.inl ⟨rfl, rfl, rfl⟩) (fun u _ => .refl s u) h.fits rfl rfl rfl (by rintro ⟨⟩) ?_
    (fun _ => rfl) (.inl (by simp [hup, Up.ahead]))
  have hjoins : S.joins p ((c p).toJoined true (c p).again) = S.joins p (c p) + 1 := by
    simp [Setting.joins, hlast, Stage.toJoined, hjoined, Nat.add_comm]
  rw [Setting.calls, Setting.calls, if_neg hcut.not_leaf, if_neg hcut.not_leaf,
    Multiset.coe_singleton]
  refine Eq.trans ?_ ((S.cutCalls_succ p _ _).trans (by rw [hcut.kids_eq]))
  rw [← hjoins]
  rfl

/-- The sum of the parent is left in its slot. -/
theorem up_leaveSum (h : Inv S c (.leaveSum t (S.gain t) seen (S.joint (S.plan.parentOf t)) ::ₘ rest)
      s calls)
    (hcut : S.plan.Cut p l r) (ht : t = l ∨ t = r) (hup : (c t).up = .leaveSum seen) :
    Goes S c (.leaveSum t (S.gain t) seen (S.joint (S.plan.parentOf t))) rest s calls := by
  obtain ⟨n, hn, hparent⟩ := hcut.parent ht
  obtain ⟨m, hm, _⟩ := hcut.node
  have hready : (c t).up.ready = true := by rw [hup]; rfl
  have hface : (S.plan.face c t).up = .adding seen true false := by rw [Plan.face, hup]; rfl
  obtain ⟨htold, _⟩ := h.adding hcut ht hface hready
  have hjoined : (c p).joined = true := by
    rw [(h.cut hcut).linked.joined_below htold]
    rcases ht with rfl | rfl <;> rw [hface] <;> simp [Up.Face.joins]
  refine h.next_adding hcut ht (.publish seen) (by rw [hup]; rfl) rfl
    (.of_done (Visit.step_leaveSum hn hparent)) hface hready rfl (.inl ⟨rfl, rfl, rfl⟩)
    (fun u hu => .withSum _ hu) ((Frame.withSum hm (.refl m.span) _).fits h.fits) rfl rfl rfl
    (fun _ hlast => ?_) (S.calls_cut_eq hcut.not_leaf rfl ?_)
    (fun _ => rfl) (.inl (by simp [hup, Up.ahead]))
  · rw [sum_withSum h.fits hm, hcut.parentOf_eq ht, Setting.joint, if_neg (by simp [hlast])]
  · simp [Setting.joins, Stage.toJoined, hjoined, Up.face, Up.Face.joins]

/-- Both children have told. The one that did so before stays as it is, and the other one shows it
from now on. -/
theorem cut_tell {s' : Store α} (h : Inv S c pool s calls) (hcut : S.plan.Cut p l r)
    (ht : t = l ∨ t = r) (hface : (S.plan.face c t).up = .adding seen true true)
    (hready : (c t).up.ready = true)
    (hphase : s'.phases[p]? = some
      { awake := S.plan.isFirst p
        summed := true
        finished := (S.plan.face c l).down == .told || (S.plan.face c r).down == .told ||
          (S.gain t).hasFinished })
    (hsum : S.plan.isLast (S.plan.span p) = false → s'.sums[p]? = some (some (S.sum p))) :
    HoldsCut S s' p ((c p).joinUp (S.plan.isFirst p))
      (S.plan.face (Function.update c t (S.tell t (c t))) l)
      (S.plan.face (Function.update c t (S.tell t (c t))) r) := by
  have hp := h.cut hcut
  obtain ⟨htold, hidle, _⟩ := h.adding hcut ht hface hready
  have hdown : ((c p).joinUp (S.plan.isFirst p)).down =
      if S.plan.isFirst p then .enter else .idle := by
    rw [Stage.joinUp_eq hidle, Stage.toDown_down]
  have hadding : (S.plan.face c t).up ≠ .idle ∧
      ((S.plan.face c t).up = .told ∨ (S.plan.face c t).up.joins = true) := by
    rw [hface]
    exact ⟨by simp, .inr rfl⟩
  have hboth : ∀ u, (S.plan.face c u).up = .told → (S.plan.face c u).up ≠ .idle ∧
      ((S.plan.face c u).up = .told ∨ (S.plan.face c u).up.joins = true) := fun u hu =>
    ⟨by simp [hu], .inl hu⟩
  rcases ht with rfl | rfl
  · have hother := (hp.linked.left seen (by rw [hface]; rfl)).1
    have hright : S.plan.face c r = { S.plan.face c r with up := .told } := by rw [← hother]
    rw [Plan.face_update_of_ne (hcut.left_ne_right S.family).symm, hright]
    rcases S.face_tell (c := c) t with ⟨hgain, htell⟩ | ⟨hgain, hfirst, htell⟩
    · rw [htell]
      refine hp.tell hadding (hboth r hother) htold (.inl rfl) ?_ hsum
      rw [hphase, hgain, cutPhase, hdown]
      cases S.plan.isFirst p <;> simp [Gain.hasFinished]
    · rw [htell]
      refine hp.tell hadding (hboth r hother) htold (.inr ⟨hcut.isFirst_left ▸ hfirst, rfl⟩) ?_ hsum
      rw [hphase, hgain, cutPhase, hdown]
      cases S.plan.isFirst p <;> simp [Gain.hasFinished]
  · have hother := (hp.linked.right seen (by rw [hface]; rfl)).1
    have hleft : S.plan.face c l = ⟨.told, (S.plan.face c l).down⟩ := by rw [← hother]
    have hgain := S.gain_of_not_first (hcut.isFirst_right S.family)
    rw [Plan.face_update_of_ne (hcut.left_ne_right S.family), Plan.face_update_self,
      S.tell_of_summed hgain, hleft]
    refine hp.tell (hboth l hother) hadding htold (.inl rfl) ?_ hsum
    rw [hphase, hgain, cutPhase, hdown]
    cases S.plan.isFirst p <;> simp [Gain.hasFinished]

/-- Both reports have been received, and the walker goes on from the parent. -/
theorem next_join {s' : Store α} {left : List (Visit α)}
    (h : Inv S c (.publish t (S.gain t) seen ::ₘ rest) s calls)
    (hcut : S.plan.Cut p l r) (ht : t = l ∨ t = r) (hup : (c t).up = .publish seen)
    (hstep : (Visit.step S.plan (.publish t (S.gain t) seen)).run s = .done (left, s'))
    (hleft : (left : Multiset (Visit α)) =
      .climb p .summed ::ₘ if S.plan.isFirst p then {.enter p} else 0)
    (hnear : ∀ u, u ≠ p → Near S s s' u) (hfits : s'.Fits S.plan)
    (hcompleted : s'.completed = s.completed) (hcarries : s'.carries = s.carries)
    (hsums : s'.sums = s.sums)
    (hphase : s'.phases[p]? = some
      { awake := S.plan.isFirst p
        summed := true
        finished := (S.plan.face c l).down == .told || (S.plan.face c r).down == .told ||
          (S.gain t).hasFinished }) : Goes S c (.publish t (S.gain t) seen) rest s calls := by
  have hlt := hcut.lt_child S.family ht
  have hnode := h.node t (hcut.child_lt_size ht)
  have hp := h.cut hcut
  have hready : (c t).up.ready = true := by rw [hup]; rfl
  have hne : (c t).up ≠ .told := by simp [hup]
  have hface : (S.plan.face c t).up = .adding seen true true := by rw [Plan.face, hup]; rfl
  obtain ⟨htold, hidle, _⟩ := h.adding hcut ht hface hready
  have hnotidle : (S.plan.face c l).up ≠ .idle ∨ (S.plan.face c r).up ≠ .idle :=
    ht.imp (fun ht => by rw [← ht, hface]; rintro ⟨⟩) (fun ht => by rw [← ht, hface]; rintro ⟨⟩)
  have hbelow := hp.linked.up_below hnotidle htold
  have hsum : S.plan.isLast (S.plan.span p) = false → s'.sums[p]? = some (some (S.sum p)) :=
    fun hlast => by
      rw [hsums]
      refine hp.sum hlast (.inr ?_)
      exact ht.imp (fun ht => by rw [← ht, hface]; rfl) (fun ht => by rw [← ht, hface]; rfl)
  refine h.next_two hcut ht (S.tell t (c t)) ((c p).joinUp (S.plan.isFirst p)) (.of_done hstep)
    ⟨by rw [hbelow]; rfl, ?face⟩ (by rw [hcarries]) (fun u _ _ hu => hnear u hu) hfits
    (hnode.tell hready hne (hnear t (by omega)).toAlike hcarries (by omega))
    ((h.node p hcut.lt_size).cut_joinUp hcut.not_leaf hidle hcompleted
      (h.cut_tell hcut ht hface hready hphase hsum))
    (fun _ => rfl) (fun htold' => ?told) ?walk ?calls (fun _ => ⟨id, id⟩) (.inl ?ahead)
  case face =>
    rw [Stage.joinUp_eq hidle, Stage.toDown_down, hidle]
    cases S.plan.isFirst p <;> rfl
  case told =>
    rw [hbelow] at htold'
    cases htold'
  case walk =>
    rw [S.walkers_joinUp hcut.not_leaf hbelow hidle, ← hleft,
      hnode.walkers_tell hne (by rw [hup]; rfl), Multiset.cons_add, Multiset.add_cons,
      add_left_comm]
  case calls =>
    rw [S.calls_tell hready, S.calls_joinUp hcut.not_leaf hidle, Multiset.coe_nil]
    abel
  case ahead =>
    have hless : (S.tell t (c t)).ahead ≤ (c t).ahead :=
      (S.ahead_tell_le t (c t)).trans (Nat.le_add_left ..)
    have hparent := Stage.ahead_joinUp hbelow hidle (S.plan.isFirst p)
    have hlength : left.length = if S.plan.isFirst p then 2 else 1 := by
      rw [← Multiset.coe_card, hleft]
      split <;> rfl
    omega

/-- What is seen of the phase of a node before the sums of its children are added up, and the phase
that it has afterwards. -/
theorem seen_adding {j k : Bool} (h : Inv S c pool s calls) (hcut : S.plan.Cut p l r)
    (ht : t = l ∨ t = r) (hface : (S.plan.face c t).up = .adding seen j k)
    (hready : (c t).up.ready = true) :
    (∃ isLeft, (isLeft = true → t = l) ∧ Seen (S.plan.isFirst p) (S.plan.IsLeaf l) isLeft
      (c p).again (S.plan.face c l).down (S.plan.face c r).down seen) ∧
    s.phases[p]? = some
      { awake := false
        summed := true
        finished := (S.plan.face c l).down == .told || (S.plan.face c r).down == .told } := by
  have hp := h.cut hcut
  have hlinked := hp.linked
  rw [hcut.kids_eq] at hlinked
  have hidle := (h.adding hcut ht hface hready).2.1
  rw [hp.phase, cutPhase, hidle]
  rcases ht with rfl | rfl
  · obtain ⟨hother, hseen⟩ := hlinked.left seen (by rw [hface]; rfl)
    refine ⟨⟨true, fun _ => rfl, hseen⟩, ?_⟩
    rw [hother, beq_self_eq_true, Bool.or_true]
    rfl
  · obtain ⟨hother, hseen⟩ := hlinked.right seen (by rw [hface]; rfl)
    refine ⟨⟨false, by simp, hseen⟩, ?_⟩
    rw [hother, beq_self_eq_true, Bool.true_or]
    rfl

/-- Only the sweep of a left child that is cut can be reported to a first node before both of its
children are summed, and only once. -/
theorem swept_between {j k : Bool} (h : Inv S c pool s calls) (hcut : S.plan.Cut p l r)
    (ht : t = l ∨ t = r) (hface : (S.plan.face c t).up = .adding seen j k)
    (hready : (c t).up.ready = true) (hfirst : S.plan.isFirst p = true)
    (hlate : s.phases[p]? ≠ some seen) :
    ¬ S.plan.IsLeaf l ∧ (S.plan.face c l).down = .told ∧ (c p).again = false := by
  obtain ⟨⟨isLeft, hisLeft, hseen⟩, hphase⟩ := h.seen_adding hcut ht hface hready
  obtain ⟨htold, _⟩ := h.adding hcut ht hface hready
  have hright := ((h.cut hcut).linked.downs_idle htold).1
  have heta : seen = { awake := false, summed := true, finished := seen.finished } := by
    rw [← hseen.asleep hfirst, ← hseen.summed]
  have hunfinished : seen.finished = false := by
    by_contra hfinished
    rw [Bool.not_eq_false] at hfinished
    refine hlate (hphase.trans (congrArg some ?_))
    rw [heta, hfinished]
    simpa using hseen.finished hfirst hfinished
  have hleft : (S.plan.face c l).down = .told := by
    by_contra hnot
    refine hlate (hphase.trans (congrArg some ?_))
    rw [heta, hunfinished, hright, beq_eq_false_iff_ne.2 hnot]
    rfl
  refine ⟨fun hleaf => ?_, hleft, ?_⟩
  · -- a first leaf is swept when it is summed, and so the right child would have seen it swept
    have hisleft := hseen.leaf hfirst (decide_eq_true hleaf)
    rw [hunfinished] at hisleft
    obtain rfl := hisLeft (by simpa using hisleft.symm)
    have hne : (c t).up ≠ .told := fun htold' => by
      rw [Plan.face, htold'] at hface
      cases hface
    have hdown := ((h.node t hcut.left_lt_size).leaf hleaf).down_idle hne
    rw [Plan.face_down_told hleft] at hdown
    cases hdown
  · cases ha : (c p).again with
    | false => rfl
    | true =>
      rw [hseen.again ha] at hunfinished
      cases hunfinished

/-- The parent is not a first node, so it has nothing to make known. -/
theorem publish_later (h : Inv S c (.publish t (S.gain t) seen ::ₘ rest) s calls)
    (hcut : S.plan.Cut p l r) (ht : t = l ∨ t = r) (hup : (c t).up = .publish seen)
    (hf : S.plan.isFirst p = false) : Goes S c (.publish t (S.gain t) seen) rest s calls := by
  obtain ⟨n, hn, hparent⟩ := hcut.parent ht
  obtain ⟨m, hm, _, _, hspan⟩ := hcut.node
  have hready : (c t).up.ready = true := by rw [hup]; rfl
  have hface : (S.plan.face c t).up = .adding seen true true := by rw [Plan.face, hup]; rfl
  obtain ⟨⟨_, _, hseen⟩, hphase⟩ := h.seen_adding hcut ht hface hready
  have hgain : S.gain t = .summed := S.gain_of_not_first (by
    rcases ht with rfl | rfl
    · exact hcut.isFirst_left.trans hf
    · exact hcut.isFirst_right S.family)
  have hstart : m.span.start ≠ 0 := by
    rw [hspan]
    simpa [Plan.isFirst] using hf
  have hknown : seen.join (S.gain t) m.span.start = seen := by
    rw [hgain, Phase.join, Phase.add, beq_eq_false_iff_ne.2 hstart, Bool.or_false,
      Gain.hasSummed, Bool.or_true, Gain.hasFinished, Bool.or_false, ← hseen.summed]
  refine h.next_join hcut ht hup (Visit.step_publish_known hn hparent hm hknown)
    (by rw [hf]; rfl) (fun u _ => .refl s u) h.fits rfl rfl rfl ?_
  rw [hphase, hf, hgain, Gain.hasFinished, Bool.or_false]

/-- Another visit has come in between, so the parent is looked at again. -/
theorem publish_late (h : Inv S c (.publish t (S.gain t) seen ::ₘ rest) s calls)
    (hcut : S.plan.Cut p l r) (ht : t = l ∨ t = r) (hup : (c t).up = .publish seen)
    (hf : S.plan.isFirst p = true) (hlate : s.phases[p]? ≠ some seen)
    (hstep : (Visit.step S.plan (.publish t (S.gain t) seen)).run s =
      .done ([.climb t (S.gain t)], s)) :
    Goes S c (.publish t (S.gain t) seen) rest s calls := by
  have hready : (c t).up.ready = true := by rw [hup]; rfl
  have hface : (S.plan.face c t).up = .adding seen true true := by rw [Plan.face, hup]; rfl
  obtain ⟨htold, _⟩ := h.adding hcut ht hface hready
  obtain ⟨hleaf, hleft, hagain⟩ := h.swept_between hcut ht hface hready hf hlate
  have hjoined : (c p).joined = true := by
    rw [(h.cut hcut).linked.joined_below htold]
    rcases ht with rfl | rfl <;> rw [hface] <;> simp [Up.Face.joins]
  have hjoins : S.joins p ((c p).toJoined false true) = S.joins p (c p) := by
    simp [Setting.joins, Stage.toJoined, hjoined, hagain]
  have hvisit : ¬ (Visit.publish t (S.gain t) seen).Timely S.plan s := fun htimely =>
    hlate (hcut.parentOf_eq ht ▸ htimely t seen rfl)
  exact h.next_adding hcut ht .climb (by rw [hup]; rfl) rfl (.of_done hstep) hface hready rfl
    (.inr ⟨rfl, fun _ => ⟨hf, hleaf, hleft⟩⟩) (fun u _ => .refl s u) h.fits rfl rfl rfl
    (by rintro ⟨⟩) (S.calls_cut_eq hcut.not_leaf rfl hjoins)
    (fun htimely => absurd htimely hvisit)
    (.inr ⟨hvisit, by simp [Visit.seen?], by simp [hup, Up.ahead]⟩)

/-- It is made known that both children are summed, unless another visit has come in between. -/
theorem up_publish (h : Inv S c (.publish t (S.gain t) seen ::ₘ rest) s calls)
    (hcut : S.plan.Cut p l r) (ht : t = l ∨ t = r) (hup : (c t).up = .publish seen) :
    Goes S c (.publish t (S.gain t) seen) rest s calls := by
  obtain ⟨n, hn, hparent⟩ := hcut.parent ht
  obtain ⟨m, hm, _, _, hspan⟩ := hcut.node
  have hready : (c t).up.ready = true := by rw [hup]; rfl
  have hface : (S.plan.face c t).up = .adding seen true true := by rw [Plan.face, hup]; rfl
  obtain ⟨⟨_, _, hseen⟩, hphase⟩ := h.seen_adding hcut ht hface hready
  cases hf : S.plan.isFirst p with
  | false => exact h.publish_later hcut ht hup hf
  | true =>
    have hstart : m.span.start = 0 := by
      rw [hspan]
      simpa [Plan.isFirst] using hf
    have hnext : seen.join (S.gain t) m.span.start =
        { awake := true, summed := true, finished := seen.finished || (S.gain t).hasFinished } := by
      rw [Phase.join, Phase.add, hseen.summed, hstart, Bool.true_or, beq_self_eq_true, Bool.or_true]
    have hasleep := hseen.asleep hf
    have hne : seen.join (S.gain t) m.span.start ≠ seen := by
      rw [hnext]
      intro heq
      rw [← heq] at hasleep
      cases hasleep
    by_cases hsame : s.phases[p]? = some seen
    · have hstep : (Visit.step S.plan (.publish t (S.gain t) seen)).run s =
          .done ([.climb p .summed, .enter p], s.withPhase p
            { awake := true
              summed := true
              finished := seen.finished || (S.gain t).hasFinished }) := by
        rw [Visit.step_publish hn hparent hm hsame hne, hasleep, hnext]
        rfl
      refine h.next_join hcut ht hup hstep (by rw [hf]; rfl) (fun u hu => .withPhase _ hu)
        ((Frame.withPhase hm (.refl m.span) _).fits h.fits) rfl rfl rfl ?_
      rw [hphase, Option.some.injEq] at hsame
      rw [phase_withPhase h.fits hm, hf, ← hsame]
    · exact h.publish_late hcut ht hup hf hsame
        (Visit.step_publish_late hn hparent hm hphase (fun heq => hsame (heq ▸ hphase)) hne)

end Inv

end ForkJoin.Scan
