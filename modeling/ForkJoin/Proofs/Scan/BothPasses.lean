import ForkJoin.Proofs.Scan.SecondPass

/-!
# Both passes at the start of the window

Nothing precedes a node at the very start, so its second pass begins as soon as both its halves are
summed: the visit that adds them up reports the sum and forks a visit to the node again. The left
half has been through both passes by then. `Halfway` is what such a node is like between its
passes, and `follows_scanFirst` goes over its span up to the second report to its parent.
-/
namespace ForkJoin.Scan

open Calling Work Store Visit

variable {α : Type} {plan : Plan}

/-- The phase of a node at the start, or of its parent, once it has been told of a sum and of a
sweep. -/
def Phase.told : Phase := { summed := true, finished := true }

/-- All below the node `t` is swept, and a visit that came to it again would turn back. -/
def Settled (plan : Plan) (s : Store α) (t : Nat) (n : Node) : Prop :=
  ∃ p, s.phases[t]? = some p ∧ p.finished = true ∧ (p.awake = true ∨ n.span.len ≤ plan.threshold)

/-- A node at the start between its passes: its left half is done with, and nothing but the second
pass over its right half is left. -/
structure Halfway (plan : Plan) (s : Store α) (t l : Nat) (nl : Node) (r : Nat) (left : List α)
    (x : α) (right : Summed α) : Prop where
  phase : s.phases[t]? = some (Phase.called.add .finished)
  settled : Settled plan s l nl
  sum : s.sums[l]? = some (some x)
  right_phase : s.phases[r]? = some { summed := true }
  below : Below plan s r right
  segment : s.segment nl.span = left

/-- The node `t` at the start has been through both passes, and its parent `p` has been told. -/
structure FirstScanned (plan : Plan) (p t : Nat) (n : Node) (ys : List α) (x : α)
    (s s' : Store α) : Prop where
  frame : Frame plan n.span (s.withPhase p .told) s'
  settled : Settled plan s' t n
  sum : s'.sums[t]? = some (some x)
  segment : s'.segment n.span = ys

theorem withPhase_withPhase (s : Store α) (p : Nat) (q q' : Phase) :
    (s.withPhase p q).withPhase p q' = s.withPhase p q' := by
  simp only [Store.withPhase, Array.setIfInBounds_setIfInBounds]

/-- If the phase of a node is changed in both states alike, the one is still the other changed within
the span. -/
theorem Frame.withPhase_both {s s' : Store α} {span : Span} (hs : s.Fits plan)
    (h : Frame plan span s s') (p : Nat) (q : Phase) :
    Frame plan span (s.withPhase p q) (s'.withPhase p q) where
  fits _ := ⟨(h.fits hs).cells,
    by rw [Store.withPhase, Array.size_setIfInBounds, (h.fits hs).phases], (h.fits hs).carries,
    (h.fits hs).sums⟩
  size := h.size
  cells := h.cells
  nodes u n hn hu := by
    have := h.nodes u n hn hu
    refine ⟨?_, this.carries, this.sums⟩
    simp only [Store.withPhase, Array.getElem?_setIfInBounds, hs.phases, (h.fits hs).phases,
      this.phases]
  completed := h.completed

section

variable {ρ : Type} {Q : ρ → Calling α α (List (Visit α) × Store α) → Prop}
  {later : List (Visit α)} {t l r k K : Nat} {n nl nr : Node} {s s₁ : Store α} {left : List α}
  {x : α}

theorem FirstScanned.fits {p : Nat} {m : Node} (hm : plan.nodes[p]? = some m) (hs : s.Fits plan)
    (h : FirstScanned plan p t n left x s s₁) : s₁.Fits plan :=
  h.frame.fits ((Frame.withPhase hm (Span.Inside.refl _) .told).fits hs)

/-- The left half of a node has reported twice. -/
theorem FirstScanned.told (hT : plan.IsTree) (hs : s.Fits plan) (H : plan.Halves t n l nl r nr)
    (hl : FirstScanned plan t l nl left x s s₁) : s₁.phases[t]? = some .told :=
  (hl.frame.nodes t n H.node (H.not_inside_left hT)).phases.trans (phase_withPhase hs H.node _)

/-- The left half of a node at the start has been gone through, and its right one summed. -/
theorem FirstScanned.halfway {right : Summed α} {s₂ : Store α} {z : Option α} (hT : plan.IsTree)
    (hs : s.Fits plan) (H : plan.Halves t n l nl r nr) (hl : FirstScanned plan t l nl left x s s₁)
    (hr : FirstPassed plan r nr right s₁ s₂) :
    Halfway plan ((s₂.withSum t z).withPhase t (Phase.called.add .finished)) t l nl r left x right ∧
      Frame plan n.span s ((s₂.withSum t z).withPhase t (Phase.called.add .finished)) := by
  have frame₀ : Frame plan n.span s (s.withPhase t .told) :=
    Frame.withPhase H.node (Span.Inside.refl _) _
  have hs₂ := hr.frame.fits (hl.fits H.node hs)
  have frame₃ : Frame plan n.span s₂ (s₂.withSum t z) :=
    Frame.withSum H.node (Span.Inside.refl _) z
  have hs₃ := frame₃.fits hs₂
  have near : ∀ u, u ≠ t →
      Same s₂ ((s₂.withSum t z).withPhase t (Phase.called.add .finished)) u := fun u hu =>
    (same_withSum z hu).trans (same_withPhase _ hu)
  have hlt := H.ne_of_left hT H.left (Span.Inside.refl _)
  have hrt := H.ne_of_right hT H.right (Span.Inside.refl _)
  have keepl := (hr.frame.nodes l nl H.left (H.left_not_inside_right hT)).trans (near l hlt)
  obtain ⟨p, hp, hfin, hawake⟩ := hl.settled
  refine ⟨⟨phase_withPhase hs₃ H.node _, ⟨p, keepl.phases.trans hp, hfin, hawake⟩,
    keepl.sums.trans hl.sum, (near r hrt).phases.trans hr.phase, ?_, ?_⟩, ?_⟩
  · exact hr.below.congr hT H.right (fun u m hm hin _ => near u (H.ne_of_right hT hm hin))
      fun _ _ => rfl
  · exact (hr.frame.segment_eq (.inl (Nat.le_of_eq H.meet))).trans hl.segment
  · exact frame₀.trans <| (hl.frame.mono H.left_inside).trans <|
      (hr.frame.mono H.right_inside).trans <| frame₃.trans <|
      Frame.withPhase H.node (Span.Inside.refl _) _

/-- What the second pass has to go over has not changed when another node has. -/
theorem Halfway.withPhase {right : Summed α} {p : Nat} {m : Node} (hT : plan.IsTree)
    (H : plan.Halves t n l nl r nr) (h : Halfway plan s t l nl r left x right)
    (hm : plan.nodes[p]? = some m) (hout : ¬ m.span.Inside n.span) (q : Phase) :
    Halfway plan (s.withPhase p q) t l nl r left x right := by
  have near : ∀ (u : Nat) (k : Node), plan.nodes[u]? = some k → k.span.Inside n.span →
      Same s (s.withPhase p q) u := by
    intro u k hk hin
    exact same_withPhase q (Plan.ne_of_inside hk hin hm hout)
  have hl := near l nl H.left H.left_inside
  obtain ⟨ph, hph, hfin, hawake⟩ := h.settled
  exact ⟨(near t n H.node (Span.Inside.refl _)).phases.trans h.phase,
    ⟨ph, hl.phases.trans hph, hfin, hawake⟩, hl.sums.trans h.sum,
    (near r nr H.right H.right_inside).phases.trans h.right_phase,
    h.below.congr hT H.right (fun u k hk hin _ => near u k hk (hin.trans H.right_inside))
      fun _ _ => rfl, h.segment⟩

/-! ## The two passes of one node -/

/-- The right half, when the left one has been gone through and has reported. -/
theorem FirstScanned.fresh_right {s₁ : Store α} (hT : plan.IsTree)
    (H : plan.Halves t n l nl r nr) (hfresh : Fresh plan s n.span)
    (hl : FirstScanned plan t l nl left x s s₁) : Fresh plan s₁ nr.span := by
  intro u m hm hin
  have hout := H.not_left_of_right (hT.grown.nonempty u m hm) hin
  rw [(hl.frame.nodes u m hm hout).phases,
    (same_withPhase .told (H.ne_of_right hT hm hin)).phases]
  exact hfresh u m hm (hin.trans H.right_inside)

theorem join_start (start : Nat) (h : start = 0) :
    Phase.join .told .summed start = Phase.called.add .finished := by
  subst h; rfl

/-- After the left half: the first pass over the right one, and the sum of both. -/
theorem follows_rightUp {f : Summed α × α → α → Calling α α ρ} (hT : plan.IsTree) (hs : s.Fits plan)
    (H : plan.Halves t n l nl r nr) (hl : FirstScanned plan t l nl left x s s₁)
    (hstart : n.span.start = 0) (hlast : plan.isLast n.span = false)
    (hfresh : Fresh plan s n.span)
    (hK : k + 5 + 8 * Layout.count plan.threshold hT.pos nr.span.len ≤ K)
    (h : ∀ summed z k' s', k ≤ k' → Halfway plan s' t l nl r left x summed.1 →
      Frame plan n.span s s' → s'.sums[t]? = some (some z) →
      Follows Q (alone (step plan) k' (climb t .summed :: enter t :: later) s') (f summed z)) :
    Follows Q (alone (step plan) K (enter r :: later) s₁)
      (sumUp plan.threshold hT.pos (s₁.segment nr.span) >>= fun summed =>
        Calling.ask x summed.2 >>= f summed) := by
  have hs₁ := hl.fits H.node hs
  refine (follows_sumUp hT (k := k + 5) (K := K) H.right hs₁ (H.start_right_pos hT)
    (H.right_last.trans hlast) (hl.fresh_right hT H hfresh) (by omega)).bind ?_
  rintro ⟨right, y⟩ _ ⟨k₂, s₂, hk₂, rfl, hr, hy⟩
  have hp₂ := hr.keeps_phase hT H (hl.told hT hs H)
  have hx₂ := hr.keeps_sum hT H hl.sum
  refine follows_addUp H hp₂ rfl hx₂ hy hlast (by omega) fun z => ?_
  refine follows_silent (by omega) (step_publish H.right H.right_parent H.node
    hp₂ (by rw [join_start _ hstart]; decide)) ?_
  rw [join_start _ hstart]
  obtain ⟨hhalf, hframe⟩ := hl.halfway (z := some z) hT hs H hr
  exact h (right, y) z _ _ (by omega) hhalf hframe (sum_withSum (hr.frame.fits hs₁) H.node _)

/-- Both passes over a first node that ends where the window does: the sum of its right half is not
taken. -/
theorem follows_rightLast {f : Summed α → Calling α α ρ} (hT : plan.IsTree) (hs : s.Fits plan)
    (H : plan.Halves t n l nl r nr) (hl : FirstScanned plan t l nl left x s s₁)
    (hstart : n.span.start = 0) (hlast : plan.isLast n.span = true)
    (hfresh : Fresh plan s n.span)
    (hK : k + 4 + 8 * Layout.count plan.threshold hT.pos nr.span.len ≤ K)
    (h : ∀ right k' s', k ≤ k' → Halfway plan s' t l nl r left x right → Frame plan n.span s s' →
      Follows Q (alone (step plan) k' (climb t .summed :: enter t :: later) s') (f right)) :
    Follows Q (alone (step plan) K (enter r :: later) s₁)
      (sumLast plan.threshold hT.pos (s₁.segment nr.span) >>= f) := by
  have hs₁ := hl.fits H.node hs
  refine (follows_sumLast hT (k := k + 4) (K := K) H.right hs₁ (H.start_right_pos hT)
    (H.right_last.trans hlast) (hl.fresh_right hT H hfresh) (by omega)).bind ?_
  rintro right _ ⟨k₂, s₂, hk₂, rfl, hr⟩
  have hp₂ := hr.keeps_phase hT H (hl.told hT hs H)
  have hx₂ := hr.keeps_sum hT H hl.sum
  refine follows_addUp_last H hp₂ rfl hx₂ hlast (by omega) ?_
  refine follows_silent (by omega) (step_publish H.right H.right_parent H.node
    hp₂ (by rw [join_start _ hstart]; decide)) ?_
  rw [join_start _ hstart]
  obtain ⟨hhalf, hframe⟩ := hl.halfway (z := some x) hT hs H hr
  exact h right _ _ (by omega) hhalf hframe

/-- To wake a half that is done with does nothing more: it is awake, or it is a leaf, which the
visit that comes to it leaves alone. -/
theorem follows_wakeSettled {p : Calling α α ρ} (H : plan.Halves t n l nl r nr) (hs : s.Fits plan)
    (hsettled : Settled plan s l nl) (hK : 2 ≤ K)
    (h : ∀ k' s', K - 2 ≤ k' → Frame plan nl.span s s' → s'.cells = s.cells →
      (∀ u, u ≠ l → Same s s' u) → Follows Q (alone (step plan) k' (enter r :: later) s') p) :
    Follows Q (alone (step plan) K (wakeLeft t true :: later) s) p := by
  obtain ⟨ph, hph, hfin, hawake⟩ := hsettled
  have hstep : (step plan (wakeLeft t true)).run s = _ := step_wakeLeft H.node H.children hph
  by_cases ha : ph.awake = true
  · rw [if_pos ha] at hstep
    exact follows_silent (by omega) hstep
      (h (K - 1) s (by omega) (Frame.refl ..) rfl fun u _ => Same.refl s u)
  · rw [if_neg ha] at hstep
    have hle : nl.span.len ≤ plan.threshold := hawake.resolve_left ha
    refine follows_silent (by omega) hstep ?_
    have hph' := phase_withPhase hs H.left { ph with awake := true }
    have henter := step_enter_leaf H.left hle hph'
    rw [if_pos hfin] at henter
    exact follows_silent (by omega) henter
      (h (K - 1 - 1) _ (by omega) (Frame.withPhase H.left (Span.Inside.refl _) _) rfl
        fun u hu => same_withPhase _ hu)

/-- From halfway on: the second pass over the right half. -/
theorem follows_rightDown {right : Summed α} (hT : plan.IsTree) (hs : s.Fits plan)
    (H : plan.Halves t n l nl r nr) (h : Halfway plan s t l nl r left x right)
    (hstart : n.span.start = 0)
    (hK : k + 7 + 10 * Layout.count plan.threshold hT.pos nr.span.len ≤ K) :
    Follows (Resumes (step plan) k (climb t .finished :: later) fun ys s' =>
        SecondPassed plan n (left ++ ys) s s' ∧ Same s s' t)
      (alone (step plan) K (enter t :: later) s) (sweepDown x right) := by
  have hlr := Ne.symm (H.right_ne_left hT)
  have hlt := H.ne_of_left hT H.left (Span.Inside.refl _)
  have hrt := H.ne_of_right hT H.right (Span.Inside.refl _)
  refine follows_silent (by omega) (step_enter_split H.node H.lt H.children h.phase) ?_
  refine follows_silent (by omega) (step_handDown H.node H.children h.sum) ?_
  rw [if_pos hstart]
  refine follows_silent (by omega) (step_giveRight H.node H.children) ?_
  have hpr : (s.withCarry r x).phases[r]? = some { summed := true } := h.right_phase
  refine follows_silent (by omega) (step_wakeRight H.node H.children hpr) ?_
  have frame₁ : Frame plan nr.span s (s.withCarry r x) :=
    Frame.withCarry H.right (Span.Inside.refl _) x
  have hs₁ := frame₁.fits hs
  have frame₂ : Frame plan nr.span (s.withCarry r x) ((s.withCarry r x).withPhase r .called) :=
    Frame.withPhase H.right (Span.Inside.refl _) _
  have same₂ : ∀ u, u ≠ r → Same s ((s.withCarry r x).withPhase r .called) u := fun u hu =>
    (same_withCarry x hu).trans (same_withPhase _ hu)
  obtain ⟨ph, hph, hsettled⟩ := h.settled
  refine follows_wakeSettled H (frame₂.fits hs₁) ⟨ph, (same₂ l hlr).phases.trans hph, hsettled⟩
    (by omega) fun k₃ s₃ hk₃ frame₃ hcells₃ same₃ => ?_
  -- the right half
  have hr₃ := same₃ r (Ne.symm hlr)
  have hbelow : Below plan s₃ r right := by
    refine h.below.congr hT H.right (fun u m hm hin hu => ?_)
      fun span _ => segment_congr (congrArg Array.size hcells₃) fun i _ _ => by rw [hcells₃]; rfl
    exact (same₂ u hu).trans (same₃ u (H.ne_left_of_right hT hm hin))
  rw [← Calling.bind_done (sweepDown x right)]
  refine (follows_sweepDown hT (k := k + 1) (K := k₃) H.right
    (frame₃.fits (frame₂.fits hs₁)) (H.start_right_pos hT)
    (hr₃.phases.trans (phase_withPhase hs₁ H.right _))
    (hr₃.carries.trans (carry_withCarry hs H.right x)) hbelow (by omega)).bind ?_
  rintro ys _ ⟨k₄, s₄, hk₄, rfl, hr⟩
  -- the second report
  have same₄ : Same s s₄ t := ((same₂ t (Ne.symm hrt)).trans (same₃ t (Ne.symm hlt))).trans
    (hr.frame.nodes t n H.node (H.not_inside_right hT))
  refine follows_silent (by omega)
    (step_climb H.right H.right_parent (same₄.phases.trans h.phase)) (.done ?_)
  refine ⟨k₄ - 1, s₄, by omega, rfl, ⟨?_, ?_⟩, same₄⟩
  · exact ((frame₁.trans frame₂).mono H.right_inside).trans <|
      (frame₃.mono H.left_inside).trans (hr.frame.mono H.right_inside)
  · have hleft : s₄.segment nl.span = s.segment nl.span :=
      (hr.frame.segment_eq (.inl (Nat.le_of_eq H.meet))).trans <|
        segment_congr (congrArg Array.size hcells₃) fun i _ _ => by rw [hcells₃]; rfl
    rw [H.segment_append, hr.segment, hleft, h.segment]

/-- From halfway on to the end of the second pass, and to the second report. Of the parent only the
phase changes. -/
theorem Halfway.scanned {right : Summed α} {p : Nat} {m : Node} {ys : List α} {z : α}
    {s₂ s₄ : Store α} (hn : plan.nodes[t]? = some n) (hm : plan.nodes[p]? = some m)
    (hout : ¬ m.span.Inside n.span) (hs : s.Fits plan)
    (h : Halfway plan s₂ t l nl r left x right) (hframe : Frame plan n.span s s₂)
    (hz : s₂.sums[t]? = some (some z))
    (hpassed : SecondPassed plan n ys (s₂.withPhase p { summed := true }) s₄)
    (hsame : Same (s₂.withPhase p { summed := true }) s₄ t) :
    FirstScanned plan p t n ys z s (s₄.withPhase p .told) := by
  have hpt := Plan.ne_of_inside hn (Span.Inside.refl _) hm hout
  have hs₃ := (Frame.withPhase hm (Span.Inside.refl _) { summed := true }).fits hs
  have frame₃ := (hframe.withPhase_both hs p { summed := true }).trans hpassed.frame
  have frame₄ := frame₃.withPhase_both hs₃ p .told
  rw [withPhase_withPhase] at frame₄
  have hsame₄ : Same s₂ (s₄.withPhase p .told) t :=
    ((same_withPhase _ hpt).trans hsame).trans (same_withPhase _ hpt)
  exact ⟨frame₄, ⟨_, hsame₄.phases.trans h.phase, rfl, .inl rfl⟩, hsame₄.sums.trans hz,
    hpassed.segment⟩

/-! ## The passes over a span -/

/-- A leaf at the start goes through both passes at once. -/
theorem follows_firstLeaf {f : List α → Calling α α ρ} (hT : plan.IsTree)
    (hn : plan.nodes[t]? = some n) (hs : s.Fits plan) (hstart : n.span.start = 0)
    (hle : n.span.len ≤ plan.threshold) (hself : s.phases[t]? = some {}) (hK : 4 ≤ K)
    (h : ∀ ys s', ys ≠ [] → SecondPassed plan n ys s s' → s'.phases[t]? = some .told →
      s'.sums[t]? = some ys.getLast? →
      Follows Q (alone (step plan) (K - 4) (climb t .both :: later) s') (f ys)) :
    Follows Q (alone (step plan) K (enter t :: later) s)
      (Scan.sweep none (s.segment n.span) >>= f) := by
  refine follows_silent (by omega) (step_enter_leaf hn hle hself) ?_
  refine follows_silent (by omega) (step_takeOn hn hself) ?_
  have hgain : Gain.ofLeaf {} n.span.start = .both := by simp [Gain.ofLeaf, hstart]
  rw [hgain, if_neg (by decide), if_pos hstart]
  have frame₁ : Frame plan n.span s (s.withPhase t .told) :=
    Frame.withPhase hn (Span.Inside.refl _) _
  have hs₁ := frame₁.fits hs
  refine follows_sweep hT hn hs₁ (by omega) fun ys hys => ?_
  have hswept : Frame plan n.span _ ((s.withPhase t .told).withSwept t n.span.start ys) :=
    Frame.withSwept hys
  have hpassed := SecondPassed.leaf hT hn hs₁ hys
  refine h ys _ ?_ ⟨frame₁.trans hpassed.frame, hpassed.segment⟩ (phase_withPhase hs hn _)
    (sum_withSum (hswept.fits hs₁) hn _)
  have := hT.grown.nonempty t n hn
  exact List.ne_nil_of_length_pos (by omega)

/-- **Both passes over a span at the start of the window, but not at its end,** up to the report to
the parent `p` that all of it is swept. -/
theorem follows_scanFirst {p : Nat} {m : Node} (hT : plan.IsTree) (hn : plan.nodes[t]? = some n)
    (hparent : n.parent = some p) (hm : plan.nodes[p]? = some m) (hout : ¬ m.span.Inside n.span)
    (hs : s.Fits plan) (hstart : n.span.start = 0) (hlast : plan.isLast n.span = false)
    (hfresh : Fresh plan s n.span) (hp : s.phases[p]? = some {})
    (hK : k + 18 * Layout.count plan.threshold hT.pos n.span.len ≤ K) :
    Follows (Resumes (step plan) k later fun r s' => FirstScanned plan p t n r.1 r.2 s s')
      (alone (step plan) K (enter t :: later) s)
      (scanFirst plan.threshold hT.pos (s.segment n.span)) := by
  induction hlen : n.span.len using Nat.strongRecOn generalizing t n p m s k K later with
  | ind len ih =>
  subst hlen
  have hself := hfresh t n hn (Span.Inside.refl _)
  by_cases hlt : plan.threshold < n.span.len
  · obtain ⟨l, nl, r, nr, H⟩ := hT.exists_halves hn hlt
    have hl0 := Layout.count_pos hT.pos nl.span.len
    have hr0 := Layout.count_pos hT.pos nr.span.len
    rw [H.count hT.pos] at hK
    rw [scanFirst, if_pos (by rwa [hT.length_segment hs hn]), ← H.segment_left hT hs,
      ← H.segment_right hT hs]
    refine follows_silent (by omega) (step_enter_split hn hlt H.children hself) ?_
    -- the left half goes through both passes
    refine (ih _ (H.len_left hT).2
      (k := k + 16 + 18 * Layout.count plan.threshold hT.pos nr.span.len) (K := K - 1)
      H.left H.left_parent hn (H.not_inside_left hT) hs (H.start_left.trans hstart)
      (H.left_not_last hT) (hfresh.mono H.left_inside) hself (by omega) rfl).bind ?_
    rintro ⟨left, x⟩ _ ⟨k₁, s₁, hk₁, rfl, hl⟩
    have hsegr : s.segment nr.span = s₁.segment nr.span :=
      (hl.frame.segment_eq (.inr (Nat.le_of_eq H.meet))).symm
    rw [hsegr]
    dsimp only
    refine follows_rightUp hT hs H hl hstart hlast hfresh
      (k := k + 11 + 10 * Layout.count plan.threshold hT.pos nr.span.len) (K := k₁) (by omega) ?_
    rintro ⟨right, y⟩ z k₂ s₂ hk₂ hhalf hframe hz
    -- the sum is reported, and the second pass begins
    have hp₂ : s₂.phases[p]? = some {} := (hframe.nodes p m hm hout).phases.trans hp
    refine follows_deliver hn hparent hp₂ rfl rfl (by omega) ?_
    have hs₂ := hframe.fits hs
    have hs₃ := (Frame.withPhase hm (Span.Inside.refl _) { summed := true }).fits hs₂
    refine (follows_rightDown hT (k := k + 2) (K := k₂ - 2) hs₃ H
      (hhalf.withPhase hT H hm hout { summed := true }) hstart (by omega)).bind ?_
    rintro ys _ ⟨k₄, s₄, hk₄, rfl, hpassed, hsame⟩
    have hp₄ : s₄.phases[p]? = some { summed := true } :=
      (hpassed.frame.nodes p m hm hout).phases.trans (phase_withPhase hs₂ hm _)
    refine follows_deliver hn hparent hp₄ rfl rfl (by omega) (.done ?_)
    exact ⟨k₄ - 2, _, by omega, rfl, hhalf.scanned hn hm hout hs hframe hz hpassed hsame⟩
  · rw [scanFirst, if_neg (by rwa [hT.length_segment hs hn])]
    rw [Layout.count_of_le hT.pos (Nat.le_of_not_lt hlt)] at hK
    refine follows_firstLeaf hT hn hs hstart (Nat.le_of_not_lt hlt) hself (by omega)
      fun ys s₁ hne hpassed hphase hsum => ?_
    have hx := List.getLast?_eq_some_getLast hne
    rw [hx] at hsum ⊢
    have hp₁ := (hpassed.frame.nodes p m hm hout).phases.trans hp
    refine follows_deliver hn hparent hp₁ rfl rfl (by omega) (.done ?_)
    have hpt := Plan.ne_of_inside hn (Span.Inside.refl _) hm hout
    exact ⟨K - 4 - 2, _, by omega, rfl, hpassed.frame.withPhase_both hs p _,
      ⟨.told, (same_withPhase _ hpt).phases.trans hphase, rfl, .inr (Nat.le_of_not_lt hlt)⟩,
      (same_withPhase _ hpt).sums.trans hsum, hpassed.segment⟩

end

end ForkJoin.Scan
