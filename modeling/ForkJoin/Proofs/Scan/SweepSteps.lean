import ForkJoin.Proofs.Scan.ClimbSteps

/-!
# Steps of a report in the second pass

A visit below whose node all leaves are swept looks at the phase of the parent. If it is the first of
the two, it leaves a mark there, or looks again if another visit came in between; if it is the second,
all leaves below the parent are swept, and it goes on from there. At the root it announces the end.
-/
namespace ForkJoin.Scan

open Calling Store

variable {α : Type}

/-! ## The node that is told -/

namespace HoldsCut

variable {S : Setting α} {s s' : Store α} {p : Nat} {b : Stage} {l r : Face}

/-- All leaves below both children are swept. -/
theorem finish (h : HoldsCut S s p b l r) (hdown : b.down = .below)
    (htold : l.down = .told ∨ r.down = .told) :
    HoldsCut S s p (b.toDown .climb) { l with down := .told } { r with down := .told } where
  linked := h.linked.finish hdown
  phase := by
    rw [h.phase, cutPhase, cutPhase, hdown]
    rcases htold with htold | htold <;> simp [htold] <;> rfl
  sum := h.sum
  left_carry _ := by rintro ⟨⟩
  right_carry := by simp

/-- A child is the first to report that it is swept. -/
theorem finish_one {l' r' : Face} (h : HoldsCut S s p b l r)
    (hlinked : Linked (S.plan.isFirst p) (S.plan.IsLeaf (S.plan.kids p).1) b l' r')
    (hups : l'.up = l.up ∧ r'.up = r.up)
    (hphase : s'.phases[p]? = some (cutPhase b l' r')) (hsums : s'.sums = s.sums)
    (hcarries : s'.carries = s.carries) : HoldsCut S s' p b l' r' where
  linked := hlinked
  phase := hphase
  sum := by rw [hups.1, hups.2, hsums]; exact h.sum
  left_carry := by rw [hcarries]; exact h.left_carry
  right_carry := by rw [hcarries]; exact h.right_carry

end HoldsCut

namespace Holds

variable {S : Setting α} {s : Store α} {p : Nat} {b : Stage} {l r : Face}

/-- A node goes on to report that all leaves below it are swept. -/
theorem finish (h : Holds S s p b l r) (hcut : ¬ S.plan.IsLeaf p) (hdown : b.down = .below)
    (htold : l.down = .told ∨ r.down = .told) :
    Holds S s p (b.toDown .climb) { l with down := .told } { r with down := .told } :=
  h.cut_down hcut (by simp [hdown]) (by simp [hdown]) (by simp) (by simp) (by simp) rfl rfl
    ((h.cut hcut).finish hdown htold)

end Holds

namespace Inv

variable {S : Setting α} {c : Nat → Stage} {s : Store α} {pool rest : Multiset (Visit α)}
  {calls : List (α × α)} {p l r t : Nat} {seen : Phase}

/-- What the parent sees of a node that is reporting its sweep, and will see once it is told. -/
theorem face_sink (hready : (c t).down.ready = true) (hne : (c t).down ≠ .told) :
    (S.plan.face c t).down = .busy ∧
      S.plan.face (Function.update c t ((c t).toDown .told)) t =
        { S.plan.face c t with down := .told } := by
  refine ⟨?_, by rw [Plan.face_update_self]; rfl⟩
  rw [Plan.face]
  cases hdown : (c t).down <;> simp_all [Down.ready, Down.face, Down.Face.shown]

/-- The other child has told as well, so this report is the second one. -/
theorem other_finished (hbusy : (S.plan.face c t).down = .busy) (ht : t = l ∨ t = r)
    (htold : (S.plan.face c l).down = .told ∨ (S.plan.face c r).down = .told) :
    t = l ∧ (S.plan.face c r).down = .told ∨ t = r ∧ (S.plan.face c l).down = .told := by
  rcases ht with rfl | rfl
  · exact .inl ⟨rfl, htold.resolve_left (by simp [hbusy])⟩
  · exact .inr ⟨rfl, htold.resolve_right (by simp [hbusy])⟩

/-- The second of two reports goes on from the parent, as all leaves below it are swept. -/
theorem down_climb_second (h : Inv S c (.climb t .finished ::ₘ rest) s calls)
    (hcut : S.plan.Cut p l r) (ht : t = l ∨ t = r) (hdown : (c t).down = .climb)
    (htold : (S.plan.face c l).down = .told ∨ (S.plan.face c r).down = .told)
    (hstep : (Visit.step S.plan (.climb t .finished)).run s =
      .done ([.climb p .finished], s)) : Goes S c (.climb t .finished) rest s calls := by
  have hlt := hcut.lt_child S.family ht
  have hlr := hcut.left_ne_right S.family
  have hready : (c t).down.ready = true := by rw [hdown]; rfl
  have hne : (c t).down ≠ .told := by simp [hdown]
  obtain ⟨hbusy, hface⟩ := face_sink (S := S) hready hne
  have hother := other_finished hbusy ht htold
  have hbelow : (c p).down = .below := by
    refine (h.cut hcut).linked.down_below ?_
    rcases hother with ⟨rfl, hr⟩ | ⟨rfl, hl⟩
    · exact .inl ⟨hbusy, hr⟩
    · exact .inr ⟨hl, hbusy⟩
  have hfaces : S.plan.face (Function.update c t ((c t).toDown .told)) l =
        { S.plan.face c l with down := .told } ∧
      S.plan.face (Function.update c t ((c t).toDown .told)) r =
        { S.plan.face c r with down := .told } := by
    rcases hother with ⟨rfl, hr⟩ | ⟨rfl, hl⟩
    · exact ⟨hface, by rw [Plan.face_update_of_ne hlr.symm, ← hr]⟩
    · exact ⟨by rw [Plan.face_update_of_ne hlr, ← hl], hface⟩
  have hparent := h.node p hcut.lt_size
  rw [Setting.HoldsAt, hcut.kids_eq] at hparent
  refine h.next_two hcut ht ((c t).toDown .told) ((c p).toDown .climb) (.of_done hstep)
    ⟨rfl, by rw [hbelow]; rfl⟩ rfl (fun u _ _ _ => .refl s u) h.fits
    ((h.node t (hcut.child_lt_size ht)).sink hready hne rfl (by simp) (Near.refl s t).toAlike rfl
      (by omega)) ?parent id id ?walk ?calls
    (fun _ => ⟨id, id⟩) (.inl (by simp +arith [Stage.ahead, Down.ahead, hdown, hbelow]))
  case parent =>
    rw [hfaces.1, hfaces.2]
    exact hparent.finish hcut.not_leaf hbelow htold
  case walk =>
    rw [S.walkers_down_new .climb (by rw [hbelow]; rfl) rfl,
      S.walkers_down_gone (t := t) .told (by rw [hdown]; rfl) rfl, Multiset.coe_singleton,
      Multiset.singleton_add, Multiset.add_cons, Multiset.cons_add, Multiset.cons_swap]
  case calls =>
    rw [S.calls_sink hready rfl, S.calls_toDown_cut hcut.not_leaf (by rw [hbelow]; rfl),
      Multiset.coe_nil]
    abel

/-- A report of the second pass looks at the phase of the parent. -/
theorem down_climb (h : Inv S c (.climb t .finished ::ₘ rest) s calls) (hcut : S.plan.Cut p l r)
    (ht : t = l ∨ t = r) (hdown : (c t).down = .climb) :
    Goes S c (.climb t .finished) rest s calls := by
  obtain ⟨n, hn, hparent⟩ := hcut.parent ht
  have hsize := hcut.child_lt_size ht
  have hlt := hcut.lt_child S.family ht
  have hp := h.cut hcut
  have hready : (c t).down.ready = true := by rw [hdown]; rfl
  have hne : (c t).down ≠ .told := by simp [hdown]
  have hstep : (Visit.step S.plan (.climb t .finished)).run s = _ :=
    Visit.step_climb hn hparent hp.phase
  rw [show Gain.finished.hasFinished = true from rfl, show Gain.finished.hasSummed = false from rfl,
    Bool.and_true, Bool.and_false, if_neg Bool.false_ne_true] at hstep
  cases hfinished : (cutPhase (c p) (S.plan.face c l) (S.plan.face c r)).finished with
  | true =>
    rw [hfinished, if_pos rfl] at hstep
    exact h.down_climb_second hcut ht hdown (by simpa [cutPhase] using hfinished) hstep
  | false =>
    rw [hfinished, if_neg Bool.false_ne_true] at hstep
    refine h.next_down hsize (.deliver _) (by rw [hdown]; rfl) rfl (.of_done hstep)
      (by rw [hdown]; rfl) rfl (fun u _ _ => .refl s u) h.fits
      ((h.node t hsize).sink hready hne rfl (fun seen hs => ?_) (Near.refl s t).toAlike rfl
        (by omega))
      (S.calls_sink hready rfl) (.inl (by simp [hdown, Down.ahead]))
    rw [← Down.deliver.inj hs, hfinished]

/-- The parent after the mark of the first of two reports. -/
theorem cut_finish {s' : Store α} (h : Inv S c pool s calls) (hcut : S.plan.Cut p l r)
    (ht : t = l ∨ t = r) (hready : (c t).down.ready = true) (hne : (c t).down ≠ .told)
    (hfinished : (cutPhase (c p) (S.plan.face c l) (S.plan.face c r)).finished = false)
    (hphase : s'.phases[p]? =
      some ((cutPhase (c p) (S.plan.face c l) (S.plan.face c r)).add .finished))
    (hsums : s'.sums = s.sums) (hcarries : s'.carries = s.carries) :
    HoldsCut S s' p (c p) (S.plan.face (Function.update c t ((c t).toDown .told)) l)
      (S.plan.face (Function.update c t ((c t).toDown .told)) r) := by
  have hp := h.cut hcut
  have hlr := hcut.left_ne_right S.family
  obtain ⟨hbusy, hface⟩ := face_sink (S := S) hready hne
  rw [cutPhase, Bool.or_eq_false_iff, beq_eq_false_iff_ne, beq_eq_false_iff_ne] at hfinished
  rcases ht with rfl | rfl
  · rw [hface, Plan.face_update_of_ne hlr.symm]
    refine hp.finish_one (hp.linked.finish_left hbusy hfinished.2) ⟨rfl, rfl⟩ ?_ hsums hcarries
    rw [hphase, cutPhase, cutPhase, Phase.add]
    simp [Gain.hasSummed, Gain.hasFinished]
  · rw [hface, Plan.face_update_of_ne hlr]
    refine hp.finish_one (hp.linked.finish_right hbusy hfinished.1) ⟨rfl, rfl⟩ ?_ hsums hcarries
    rw [hphase, cutPhase, cutPhase, Phase.add]
    simp [Gain.hasSummed, Gain.hasFinished]

/-- The first of two reports leaves a mark, unless another visit has come in between. -/
theorem down_deliver (h : Inv S c (.deliver t .finished seen ::ₘ rest) s calls)
    (hcut : S.plan.Cut p l r) (ht : t = l ∨ t = r) (hdown : (c t).down = .deliver seen) :
    Goes S c (.deliver t .finished seen) rest s calls := by
  obtain ⟨n, hn, hparent⟩ := hcut.parent ht
  obtain ⟨m, hm, _⟩ := hcut.node
  have hsize := hcut.child_lt_size ht
  have hlt := hcut.lt_child S.family ht
  have hnode := h.node t hsize
  have hp := h.cut hcut
  have hready : (c t).down.ready = true := by rw [hdown]; rfl
  have hne : (c t).down ≠ .told := by simp [hdown]
  by_cases hseen : cutPhase (c p) (S.plan.face c l) (S.plan.face c r) = seen
  · have hfinished := hnode.sound.finished seen hdown
    have hnear : ∀ u, u ≠ p → Near S s (s.withPhase p (seen.add .finished)) u :=
      fun u hu => .withPhase _ hu
    have hphase : (s.withPhase p (seen.add .finished)).phases[p]? =
        some ((cutPhase (c p) (S.plan.face c l) (S.plan.face c r)).add .finished) := by
      rw [phase_withPhase h.fits hm, hseen]
    refine h.next_two hcut ht ((c t).toDown .told) (c p)
      (.of_done (Visit.step_deliver hn hparent (hp.phase.trans (congrArg some hseen)))) ⟨rfl, rfl⟩
      rfl (fun u _ _ hu => hnear u hu) ((Frame.withPhase hm (.refl m.span) _).fits h.fits)
      (hnode.sink hready hne rfl (by simp) (hnear t (by omega)).toAlike rfl (by omega))
      ((h.node p hcut.lt_size).of_cut hcut.not_leaf rfl rfl
        (h.cut_finish hcut ht hready hne (hseen ▸ hfinished) hphase rfl rfl)) id id ?walk ?calls
      (fun _ => ⟨id, id⟩) (.inl (by simp [hdown, Stage.ahead, Down.ahead]))
    case walk =>
      rw [S.walkers_down_gone (t := t) .told (by rw [hdown]; rfl) rfl, Multiset.coe_nil, zero_add,
        Multiset.cons_add]
    case calls => rw [S.calls_sink hready rfl, Multiset.coe_nil, add_zero, add_zero]
  · have hlate : ¬ (Visit.deliver t .finished seen).Timely (α := α) S.plan s := fun htimely =>
      hseen <| by
        have hsame := htimely t seen rfl
        rw [hcut.parentOf_eq ht, hp.phase] at hsame
        exact Option.some.inj hsame
    exact h.next_down hsize .climb (by rw [hdown]; rfl) rfl
      (.of_done (Visit.step_deliver_late hn hparent hp.phase hseen)) (by rw [hdown]; rfl) rfl
      (fun u _ _ => .refl s u) h.fits
      (hnode.sink hready hne rfl (by simp) (Near.refl s t).toAlike rfl (by omega))
      (S.calls_sink hready rfl)
      (.inr ⟨hlate, by simp [Visit.seen?], by simp [hdown, Down.ahead]⟩)

/-- All leaves are swept, and the end is announced. -/
theorem down_climb_root (h : Inv S c (.climb 0 .finished ::ₘ rest) s calls)
    (hdown : (c 0).down = .climb) : Goes S c (.climb 0 .finished) rest s calls := by
  obtain ⟨n, hn, _, hparent⟩ := S.family.grown.root
  have hnode := h.node 0 S.family.size_pos
  have hready : (c 0).down.ready = true := by rw [hdown]; rfl
  have hne : (c 0).down ≠ .told := by simp [hdown]
  have hroot := hnode.root rfl
  have hstep : (Visit.step S.plan (.climb 0 .finished)).run s = .done ([], s.withEnd) :=
    Visit.step_climb_root hn hparent
  refine h.next_root ((c 0).toDown .told) (.of_done hstep)
    (fun u hu => ⟨.withEnd s u, fun h0 => absurd h0 hu⟩)
    ⟨h.fits.cells, h.fits.phases, h.fits.carries, h.fits.sums⟩
    (hnode.sink hready hne rfl (by simp) (.withEnd s 0) rfl fun _ =>
      ⟨hroot.started, hroot.up, by simp, rfl⟩) id ?_ (S.calls_sink hready rfl)
      (fun _ => id) (.inl (by simp [Stage.ahead, Down.ahead]))
  rw [S.walkers_down_gone .told (by rw [hdown]; rfl) rfl, Multiset.coe_nil, zero_add]

end Inv

end ForkJoin.Scan
