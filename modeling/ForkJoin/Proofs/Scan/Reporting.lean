import ForkJoin.Proofs.Scan.Invariant

/-!
# What reports do to a node

A node that is summed or swept comes to its parent with a report. At the node itself only its stage
changes: `Holds.rise`, `Holds.tell`, `Holds.sink`. What they do to the parent is said for each kind
of report and each side from which it may come.
-/
namespace ForkJoin.Scan

open Store

variable {α : Type}

/-! ## The node that reports -/

namespace Up

variable {up : Up}

/-- Who is about to report has taken on and has worked. -/
theorem of_ready (h : up.ready = true) : up.worked = true ∧ up.early = false ∧
    up.atLeaf = false ∧ up ≠ .idle ∧ up ≠ .below ∧ up ≠ .total ∧ up ≠ .sweep := by
  cases up <;> simp_all [ready, worked, early, atLeaf]

end Up

theorem Down.of_ready {down : Down} (h : down.ready = true) :
    down.worked = true ∧ down.early = false ∧ down.atCut = false ∧ down.added = true := by
  cases down <;> simp_all [ready, worked, early, atCut, added]

theorem Down.gaveLeft_of_ready {down : Down} (h : down.ready = true) : down.gaveLeft = false := by
  cases down <;> simp_all [ready, gaveLeft]

namespace Setting

variable (S : Setting α)

/-- The first pass of the node has told, and with it the second if both were reported. -/
def tell (t : Nat) (a : Stage) : Stage :=
  { a with up := .told, down := if (S.gain t).hasFinished then .told else a.down }

variable {S} {t : Nat} {a : Stage} {up : Up} {down : Down}

theorem gain_hasSummed : (S.gain t).hasSummed = true := by
  rw [gain]
  split <;> rfl

theorem tell_of_summed (h : S.gain t = .summed) : S.tell t a = a.toUp .told := by
  rw [tell, h]
  rfl

theorem tell_of_both (h : S.gain t = .both) : S.tell t a = { a with up := .told, down := .told } := by
  rw [tell, h]
  rfl

theorem ahead_tell_le (S : Setting α) (t : Nat) (a : Stage) :
    (S.tell t a).ahead ≤ a.down.ahead := by
  rw [tell]
  split <;> simp [Stage.ahead, Up.ahead, Down.ahead]

theorem calls_rise (hready : a.up.ready = true) (hready' : up.ready = true) :
    S.calls t (a.toUp up) = S.calls t a + ([] : List (α × α)) :=
  S.calls_toUp ((Up.of_ready hready').1.trans (Up.of_ready hready).1.symm)

theorem calls_sink (hready : a.down.ready = true) (hready' : down.ready = true) :
    S.calls t (a.toDown down) = S.calls t a + ([] : List (α × α)) :=
  S.calls_toDown ((Down.of_ready hready').1.trans (Down.of_ready hready).1.symm)
    ((Down.of_ready hready').2.2.2.trans (Down.of_ready hready).2.2.2.symm)

theorem calls_tell (hready : a.up.ready = true) :
    S.calls t (S.tell t a) = S.calls t a + ([] : List (α × α)) := by
  by_cases hboth : S.plan.IsLeaf t ∧ S.plan.isFirst t = true
  · rw [S.tell_of_both (S.gain_of_first_leaf hboth.1 hboth.2)]
    refine S.calls_leaf_eq hboth.1 ?_ ?_
    · simp [Plan.summed, hboth.2]
    · rw [Plan.swept, Plan.swept, if_pos hboth.2, if_pos hboth.2, (Up.of_ready hready).1]
      rfl
  · rw [S.tell_of_summed (by rw [gain, if_neg hboth])]
    exact S.calls_rise hready rfl

end Setting

theorem Sound.tell {S : Setting α} {t : Nat} {a : Stage} (h : Sound S t a) :
    Sound S t (S.tell t a) where
  summed := by rintro _ ⟨⟩
  right := by rintro _ ⟨⟩
  finished seen hd := by
    rw [Setting.tell] at hd
    split at hd
    · cases hd
    · exact h.finished seen hd
  later hd := by
    rw [Setting.tell] at hd
    split at hd
    · rcases hd with hd | hd <;> cases hd
    · exact h.later hd

/-- The report of the first leaf tells of both passes, that of any other one leaves the second pass
where it was. -/
theorem HoldsLeaf.tell {S : Setting α} {s : Store α} {t : Nat} {a : Stage}
    (h : HoldsLeaf S s t a) (hleaf : S.plan.IsLeaf t) (hready : a.up.ready = true) :
    HoldsLeaf S s t (S.tell t a) := by
  obtain ⟨hworked, hearly, _⟩ := Up.of_ready hready
  cases hf : S.plan.isFirst t with
  | true =>
    rw [S.tell_of_both (S.gain_of_first_leaf hleaf hf)]
    have hsummed : S.plan.summed t { a with up := .told, down := .told } = S.plan.summed t a := by
      simp [Plan.summed, hf]
    have hswept : S.plan.swept t { a with up := .told, down := .told } = S.plan.swept t a := by
      rw [Plan.swept, Plan.swept, if_pos hf, if_pos hf, hworked]
      rfl
    exact
      { stage := by simpa only [hf, if_true] using h.stage.tell
        phase := by
          obtain ⟨ph, hph, hphase⟩ := h.phase
          rw [LeafPhase, if_pos hf, hearly] at hphase
          exact ⟨ph, hph, by rw [LeafPhase, if_pos hf]; exact hphase⟩
        sum := fun hlast _ _ => h.sum hlast hready (.inl hf)
        work := by rw [hsummed, hswept]; exact h.work }
  | false =>
    rw [S.tell_of_summed (S.gain_of_not_first hf)]
    exact
      { stage := by simpa only [hf, Bool.false_eq_true, if_false, Stage.toUp] using h.stage.tell
        phase := h.phase_up hearly.symm
        sum := fun hlast _ => h.sum hlast hready
        work := h.work_up hworked.symm }

namespace Holds

variable {S : Setting α} {s : Store α} {t : Nat} {a : Stage} {l r : Face} {up : Up} {down : Down}

/-- A node that is not the root goes on with its report. -/
theorem rise (h : Holds S s t a l r) (ht : t ≠ 0) (hready : a.up.ready = true)
    (hne : a.up ≠ .told) (hready' : up.ready = true) (hne' : up ≠ .told)
    (hsound : ∀ seen, up = .deliver seen → seen.summed = false)
    (hright : ∀ seen, up = .addRight seen →
      S.plan.isLast (S.plan.span (S.plan.parentOf t)) = false) : Holds S s t (a.toUp up) l r := by
  obtain ⟨hworked, hearly, _⟩ := Up.of_ready hready
  obtain ⟨hworked', hearly', hleaf', hidle', hbelow', htotal', hsweep'⟩ := Up.of_ready hready'
  exact
    { sound := ⟨hsound, h.sound.finished, hright, h.sound.later⟩
      root := fun h0 => absurd h0 ht
      carry := h.carry
      leaf := fun hleaf =>
        have hl := h.leaf hleaf
        { stage := hl.stage.rise hne hbelow' (fun _ => htotal') (fun _ => hsweep') hne'
          phase := hl.phase_up (hearly'.trans hearly.symm)
          sum := fun hlast _ => hl.sum hlast hready
          work := hl.work_up (hworked'.trans hworked.symm) }
      cut := fun hcut =>
        have hc := h.cut hcut
        { linked := hc.linked.rise hready hne hready' hleaf'
          phase := hc.phase
          sum := fun hlast _ => hc.sum hlast (.inl hready)
          left_carry := hc.left_carry
          right_carry := hc.right_carry } }

/-- What holds once the report was received. -/
theorem tell {s' : Store α} (h : Holds S s t a l r) (hready : a.up.ready = true)
    (hne : a.up ≠ .told) (halike : Alike S s s' t)
    (hcarries : s'.carries = s.carries) (hroot : t = 0 → Rooted (S.tell t a) s'.completed) :
    Holds S s' t (S.tell t a) l r where
  sound := h.sound.tell
  root := hroot
  carry hf := by
    rw [S.tell_of_summed (S.gain_of_not_first hf), hcarries]
    exact h.carry hf
  leaf hleaf := ((h.leaf hleaf).alike hleaf halike).tell hleaf hready
  cut hcut := by
    have hc := (h.cut hcut).alike halike (by rw [hcarries]) (by rw [hcarries])
    rw [S.tell_of_summed (S.gain_of_cut hcut)]
    exact
      { linked := hc.linked.rise hready hne rfl rfl
        phase := hc.phase
        sum := fun hlast _ => hc.sum hlast (.inl hready)
        left_carry := hc.left_carry
        right_carry := hc.right_carry }

/-- A node goes on to report that all leaves below it are swept. -/
theorem sink {s' : Store α} (h : Holds S s t a l r) (hready : a.down.ready = true)
    (hne : a.down ≠ .told) (hready' : down.ready = true)
    (hsound : ∀ seen, down = .deliver seen → seen.finished = false) (halike : Alike S s s' t)
    (hcarries : s'.carries = s.carries) (hroot : t = 0 → Rooted (a.toDown down) s'.completed) :
    Holds S s' t (a.toDown down) l r := by
  obtain ⟨hworked, hearly, _⟩ := Down.of_ready hready
  obtain ⟨hworked', hearly', hcut', _⟩ := Down.of_ready hready'
  have hidle := (Down.ne_called_of_ready hready).2
  have hidle' := (Down.ne_called_of_ready hready').2
  exact
    { sound :=
        { h.sound with
          finished := hsound
          later := fun hd => by rcases hd with rfl | rfl <;> cases hready' }
      root := hroot
      carry := fun hf _ => by rw [hcarries]; exact h.carry hf hidle
      leaf := fun hleaf =>
        have hl := (h.leaf hleaf).alike hleaf halike
        have hlater := hl.later hidle hne
        { stage := hl.stage.sink hlater.1 hlater.2 hcut'
          phase := hl.phase_down hidle hidle' (hearly'.trans hearly.symm)
          sum := fun _ _ hor => by
            rw [hlater.1, Stage.toDown_down, hready'] at hor
            simp at hor
          work := hl.work_down (hworked'.trans hworked.symm) }
      cut := fun hcut =>
        have hc := (h.cut hcut).alike halike (by rw [hcarries]) (by rw [hcarries])
        { linked := hc.linked.sink hready hready'
          phase := by
            rw [hc.phase, cutPhase, cutPhase, Stage.toDown_down, bne_iff_ne.2 hidle,
              bne_iff_ne.2 hidle']
          sum := hc.sum
          left_carry := fun _ hg => by
            rw [Stage.toDown_down, Down.gaveLeft_of_ready hready'] at hg
            cases hg
          right_carry := fun hd => by
            rw [Stage.toDown_down] at hd
            rw [hd] at hready'
            cases hready' } }

end Holds

/-! ## The node that is told -/

namespace HoldsCut

variable {S : Setting α} {s s' : Store α} {p : Nat} {b : Stage} {l r : Face}

/-! ### The first pass -/

/-- While a child has not told, little is left at a node. -/
theorem of_below {b' : Stage} {l' r' : Face} (h : HoldsCut S s p b l r)
    (hidle : l.up ≠ .idle ∨ r.up ≠ .idle) (htold : l.up ≠ .told ∨ r.up ≠ .told)
    (hup : b'.up = b.up) (hdown : b'.down = b.down)
    (hlinked : Linked (S.plan.isFirst p) (S.plan.IsLeaf (S.plan.kids p).1) b' l' r')
    (hphase : s'.phases[p]? = some (cutPhase b' l' r'))
    (hsum : S.plan.isLast (S.plan.span p) = false → l'.up.leaves = true ∨ r'.up.leaves = true →
      s'.sums[p]? = some (some (S.sum p))) : HoldsCut S s' p b' l' r' where
  linked := hlinked
  phase := hphase
  sum hlast hor := hsum hlast <| hor.resolve_left fun hready => by
    rw [hup, h.linked.up_below hidle htold] at hready
    cases hready
  left_carry _ hg := by
    rw [hdown, h.linked.down_idle htold] at hg
    cases hg
  right_carry hd := by
    rw [hdown, h.linked.down_idle htold] at hd
    cases hd

theorem leaves_of_seen {face : Up.Face} (h : face.seen? = none) : face.leaves = false := by
  cases face <;> simp_all [Up.Face.seen?, Up.Face.leaves]

/-- The left child is the first to report. -/
theorem deliver_left {down : Down.Face} {g : Gain} (h : HoldsCut S s p b l r)
    (hl : l.up = .busy) (hr : r.up ≠ .told)
    (hg : g = .summed ∧ down = l.down ∨ g = .both ∧ S.plan.isFirst p = true ∧ down = .told)
    (hphase : s'.phases[p]? = some ((cutPhase b l r).add g)) :
    HoldsCut S s' p b ⟨.told, down⟩ r := by
  have hleaves := leaves_of_seen (h.linked.other_told.1 (by simp [hl]))
  refine h.of_below (.inl (by simp [hl])) (.inr hr) rfl rfl
    (h.linked.deliver_left hl hr (hg.imp And.right And.right)) ?_ fun _ hor => ?_
  · rw [hphase, cutPhase, cutPhase, Phase.add]
    rcases hg with ⟨rfl, rfl⟩ | ⟨rfl, _, rfl⟩ <;> simp [Gain.hasSummed, Gain.hasFinished]
  · rw [hleaves] at hor
    rcases hor with h | h <;> cases h

/-- The right child is the first to report. -/
theorem deliver_right (h : HoldsCut S s p b l r) (hr : r.up = .busy) (hl : l.up ≠ .told)
    (hphase : s'.phases[p]? = some ((cutPhase b l r).add .summed)) :
    HoldsCut S s' p b l { r with up := .told } := by
  have hleaves := leaves_of_seen (h.linked.other_told.2 (by simp [hr]))
  refine h.of_below (.inr (by simp [hr])) (.inl hl) rfl rfl
    (h.linked.deliver_right hr hl) ?_ fun _ hor => ?_
  · rw [hphase, cutPhase, cutPhase, Phase.add]
    simp [Gain.hasSummed, Gain.hasFinished]
  · rw [hleaves] at hor
    rcases hor with h | h <;> cases h

/-- The left child is the second to report, and is about to add up. -/
theorem add_left {seen : Phase} (h : HoldsCut S s p b l r) (hl : l.up = .busy) (hr : r.up = .told)
    (hseen : Seen (S.plan.isFirst p) (S.plan.IsLeaf (S.plan.kids p).1) true b.again l.down r.down
      seen) : HoldsCut S s p b { l with up := .adding seen false false } r := by
  refine h.of_below (.inl (by simp [hl])) (.inl (by simp [hl])) rfl rfl
    (h.linked.add_left hl hr hseen) ?_ fun _ hor => ?_
  · rw [h.phase, cutPhase, cutPhase, hl]
    rfl
  · rw [hr] at hor
    rcases hor with h | h <;> cases h

theorem add_right {seen : Phase} (h : HoldsCut S s p b l r) (hr : r.up = .busy) (hl : l.up = .told)
    (hseen : Seen (S.plan.isFirst p) (S.plan.IsLeaf (S.plan.kids p).1) false b.again l.down r.down
      seen) : HoldsCut S s p b l { r with up := .adding seen false false } := by
  refine h.of_below (.inr (by simp [hr])) (.inr (by simp [hr])) rfl rfl
    (h.linked.add_right hr hl hseen) ?_ fun _ hor => ?_
  · rw [h.phase, cutPhase, cutPhase, hr]
    rfl
  · rw [hl] at hor
    rcases hor with h | h <;> cases h

section

variable {seen : Phase} {j k again : Bool} {up : Up.Face}

/-- A child that adds up goes on, or gives up to look again. -/
theorem move_left (h : HoldsCut S s p b l r) (hl : l.up = .adding seen j k) (hidle : up ≠ .idle)
    (htold : up ≠ .told)
    (hseen : up.seen? = some seen ∧ again = b.again ∨ up.seen? = none ∧ (again = true →
      S.plan.isFirst p = true ∧ decide (S.plan.IsLeaf (S.plan.kids p).1) = false ∧ l.down = .told))
    (hphase : s'.phases[p]? = s.phases[p]?)
    (hsum : up.leaves = true → S.plan.isLast (S.plan.span p) = false →
      s'.sums[p]? = some (some (S.sum p))) :
    HoldsCut S s' p (b.toJoined up.joins again) { l with up := up } r := by
  have hr := (h.linked.left seen (by rw [hl]; rfl)).1
  refine h.of_below (.inl (by simp [hl])) (.inl (by simp [hl])) rfl rfl
    (h.linked.move_left hl hidle htold hseen) ?_ fun hlast hor => ?_
  · have hup : (up == .told) = false := beq_eq_false_iff_ne.2 htold
    rw [hphase, h.phase, cutPhase, cutPhase, hl, hup]
    rfl
  · rw [hr] at hor
    exact hsum (hor.resolve_right (by rintro ⟨⟩)) hlast

theorem move_right (h : HoldsCut S s p b l r) (hr : r.up = .adding seen j k) (hidle : up ≠ .idle)
    (htold : up ≠ .told)
    (hseen : up.seen? = some seen ∧ again = b.again ∨ up.seen? = none ∧ (again = true →
      S.plan.isFirst p = true ∧ decide (S.plan.IsLeaf (S.plan.kids p).1) = false ∧ l.down = .told))
    (hphase : s'.phases[p]? = s.phases[p]?)
    (hsum : up.leaves = true → S.plan.isLast (S.plan.span p) = false →
      s'.sums[p]? = some (some (S.sum p))) :
    HoldsCut S s' p (b.toJoined up.joins again) l { r with up := up } := by
  have hl := (h.linked.right seen (by rw [hr]; rfl)).1
  refine h.of_below (.inr (by simp [hr])) (.inr (by simp [hr])) rfl rfl
    (h.linked.move_right hr hidle htold hseen) ?_ fun hlast hor => ?_
  · have hup : (up == .told) = false := beq_eq_false_iff_ne.2 htold
    rw [hphase, h.phase, cutPhase, cutPhase, hr, hup]
    rfl
  · rw [hl] at hor
    exact hsum (hor.resolve_left (by rintro ⟨⟩)) hlast

end

/-- The sum is known, and the node is about to be reported itself. -/
theorem tell {down : Down.Face} (h : HoldsCut S s p b l r)
    (hl : l.up ≠ .idle ∧ (l.up = .told ∨ l.up.joins = true))
    (hr : r.up ≠ .idle ∧ (r.up = .told ∨ r.up.joins = true))
    (htold : l.up ≠ .told ∨ r.up ≠ .told)
    (hdown : down = l.down ∨ S.plan.isFirst p = true ∧ down = .told)
    (hphase : s'.phases[p]? =
      some (cutPhase (b.joinUp (S.plan.isFirst p)) ⟨.told, down⟩ { r with up := .told }))
    (hsum : S.plan.isLast (S.plan.span p) = false → s'.sums[p]? = some (some (S.sum p))) :
    HoldsCut S s' p (b.joinUp (S.plan.isFirst p)) ⟨.told, down⟩ { r with up := .told } where
  linked := h.linked.tell hl hr htold hdown
  phase := hphase
  sum hlast _ := hsum hlast
  left_carry hf hg := by
    simp only [Stage.joinUp, hf, Bool.false_eq_true, if_false, h.linked.down_idle htold] at hg
    cases hg
  right_carry hd := by
    rw [Stage.joinUp, h.linked.down_idle htold] at hd
    simp only at hd
    split at hd <;> cases hd

end HoldsCut

end ForkJoin.Scan
