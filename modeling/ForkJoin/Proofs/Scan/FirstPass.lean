import ForkJoin.Proofs.Script
import ForkJoin.Proofs.Scan.Halves
import ForkJoin.Proofs.Scan.TwoPass

/-!
# The first pass of a single worker

A single worker stays with the visit it has taken, so it goes through all that is below a node
before it turns to anything else. Away from the start of the window that is the first pass over
the span of the node: `follows_sumUp` and `follows_sumLast`. The visit that came to the node goes
down, and a visit leaves the node upwards to report its sum; in between, nothing outside the span
is changed, and `Below` says what is left there for the second pass.
-/
namespace ForkJoin.Scan

open Calling Work Store Visit

variable {α : Type}

/-! ## What the first pass finds and leaves -/

variable {plan : Plan}

/-- No visit has come to a node on the span. -/
def Fresh (plan : Plan) (s : Store α) (span : Span) : Prop :=
  ∀ (u : Nat) (n : Node), plan.nodes[u]? = some n → n.span.Inside span → s.phases[u]? = some {}

theorem Fresh.mono {s : Store α} {inner span : Span} (h : Fresh plan s span)
    (hin : inner.Inside span) : Fresh plan s inner :=
  fun u n hn hu => h u n hn (hu.trans hin)

/-- What lies below a node when its first pass has gone by and its second has not begun. -/
inductive Below (plan : Plan) (s : Store α) : Nat → Summed α → Prop
  | leaf {t : Nat} {n : Node} : plan.nodes[t]? = some n → n.span.len ≤ plan.threshold →
    Below plan s t (.leaf (s.segment n.span))
  | node {t l r : Nat} {n nl nr : Node} {left right : Summed α} {x : α} :
    plan.Halves t n l nl r nr → s.phases[l]? = some { summed := true } →
    s.phases[r]? = some { summed := true } → s.sums[l]? = some (some x) →
    Below plan s l left → Below plan s r right → Below plan s t (.node left x right)

/-- It stays while nothing changes below the node; the node itself may change. -/
theorem Below.congr {s s' : Store α} {t : Nat} {n : Node} {T : Summed α} (hT : plan.IsTree)
    (h : Below plan s t T) (hn : plan.nodes[t]? = some n)
    (hsame : ∀ (u : Nat) (m : Node), plan.nodes[u]? = some m → m.span.Inside n.span → u ≠ t →
      Same s s' u)
    (hseg : ∀ span : Span, span.Inside n.span → s'.segment span = s.segment span) :
    Below plan s' t T := by
  induction h generalizing n with
  | @leaf t m hm hle =>
    obtain rfl : m = n := Option.some.inj (hm.symm.trans hn)
    rw [← hseg m.span (Span.Inside.refl _)]
    exact .leaf hm hle
  | @node t l r m nl nr left right x H hpl hpr hx _ _ ihl ihr =>
    obtain rfl : m = n := Option.some.inj (H.node.symm.trans hn)
    have hl := hsame l nl H.left H.left_inside (H.ne_of_left hT H.left (Span.Inside.refl _))
    have hr := hsame r nr H.right H.right_inside (H.ne_of_right hT H.right (Span.Inside.refl _))
    refine .node H (hl.phases.trans hpl) (hr.phases.trans hpr) (hl.sums.trans hx)
      (ihl H.left (fun u k hk hin _ => ?_) fun span hin => hseg span (hin.trans H.left_inside))
      (ihr H.right (fun u k hk hin _ => ?_) fun span hin => hseg span (hin.trans H.right_inside))
    · exact hsame u k hk (hin.trans H.left_inside) (H.ne_of_left hT hk hin)
    · exact hsame u k hk (hin.trans H.right_inside) (H.ne_of_right hT hk hin)

/-- The first pass has been over the span of the node `t`. -/
structure FirstPassed (plan : Plan) (t : Nat) (n : Node) (T : Summed α) (s s' : Store α) :
    Prop where
  phase : s'.phases[t]? = some { summed := true }
  below : Below plan s' t T
  frame : Frame plan n.span s s'
  cells : s'.cells = s.cells

theorem FirstPassed.keeps_sum {t l r : Nat} {n nl nr : Node} {T : Summed α} {s s' : Store α}
    {x : Option (Option α)} (hT : plan.IsTree) (H : plan.Halves t n l nl r nr)
    (hr : FirstPassed plan r nr T s s') (hx : s.sums[l]? = x) : s'.sums[l]? = x :=
  (hr.frame.nodes l nl H.left (H.left_not_inside_right hT)).sums.trans hx

theorem FirstPassed.keeps_phase {t l r : Nat} {n nl nr : Node} {T : Summed α} {s s' : Store α}
    {p : Option Phase} (hT : plan.IsTree) (H : plan.Halves t n l nl r nr)
    (hr : FirstPassed plan r nr T s s') (hp : s.phases[t]? = p) : s'.phases[t]? = p :=
  (hr.frame.nodes t n H.node (H.not_inside_right hT)).phases.trans hp

/-- The left half was gone over and has reported to the node, and for the right one nothing has
changed. -/
theorem FirstPassed.right_ready (hT : plan.IsTree) {t l r : Nat} {n nl nr : Node} {s s₁ : Store α}
    {left : Summed α} (hs : s.Fits plan) (H : plan.Halves t n l nl r nr)
    (hfresh : Fresh plan s n.span) (hl : FirstPassed plan l nl left s s₁) (p : Phase) :
    (s₁.withPhase t p).Fits plan ∧ Fresh plan (s₁.withPhase t p) nr.span ∧
      s.segment nr.span = (s₁.withPhase t p).segment nr.span := by
  refine ⟨(Frame.withPhase H.node (Span.Inside.refl _) p).fits (hl.frame.fits hs),
    fun u m hm hin => ?_, ?_⟩
  · have hout := H.not_left_of_right (hT.grown.nonempty u m hm) hin
    rw [(same_withPhase p (H.ne_of_right hT hm hin)).phases, (hl.frame.nodes u m hm hout).phases]
    exact hfresh u m hm (hin.trans H.right_inside)
  · simp only [Store.segment, Store.withPhase, hl.cells]

/-- Both halves were gone over, one after the other, and the node was left a sum. -/
theorem FirstPassed.node (hT : plan.IsTree) {t l r : Nat} {n nl nr : Node} {left right : Summed α}
    {x : α} {s s₁ s₃ : Store α} (hs : s.Fits plan) (H : plan.Halves t n l nl r nr)
    (hl : FirstPassed plan l nl left s s₁) (hx : s₁.sums[l]? = some (some x))
    (hr : FirstPassed plan r nr right (s₁.withPhase t { summed := true }) s₃) (z : Option α) :
    FirstPassed plan t n (.node left x right) s (s₃.withSum t z) := by
  have hs₁ := hl.frame.fits hs
  have ht₃ := hr.keeps_phase hT H (phase_withPhase hs₁ H.node _)
  have keepl : ∀ (u : Nat) (m : Node), plan.nodes[u]? = some m → m.span.Inside nl.span →
      Same s₁ (s₃.withSum t z) u := by
    intro u m hm hin
    have hut := H.ne_of_left hT hm hin
    have hur := H.not_right_of_left (hT.grown.nonempty u m hm) hin
    exact ((same_withPhase _ hut).trans (hr.frame.nodes u m hm hur)).trans (same_withSum z hut)
  have keepr : ∀ (u : Nat) (m : Node), plan.nodes[u]? = some m → m.span.Inside nr.span →
      Same s₃ (s₃.withSum t z) u := fun u m hm hin => same_withSum z (H.ne_of_right hT hm hin)
  have hl' := keepl l nl H.left (Span.Inside.refl _)
  have hcells₁ : (s₃.withSum t z).cells = s₁.cells := hr.cells
  refine ⟨ht₃, .node H (hl'.phases.trans hl.phase) ?_ (hl'.sums.trans hx) ?_ ?_, ?_,
    hcells₁.trans hl.cells⟩
  · exact (keepr r nr H.right (Span.Inside.refl _)).phases.trans hr.phase
  · exact hl.below.congr hT H.left (fun u m hm hin _ => keepl u m hm hin)
      fun span _ => segment_congr (congrArg Array.size hcells₁) fun i _ _ => by rw [hcells₁]
  · exact hr.below.congr hT H.right (fun u m hm hin _ => keepr u m hm hin) fun span _ => rfl
  · exact (hl.frame.mono H.left_inside).trans <|
      (Frame.withPhase H.node (Span.Inside.refl _) _).trans <|
      (hr.frame.mono H.right_inside).trans (Frame.withSum H.node (Span.Inside.refl _) z)

/-! ## Reports -/

section

variable {ρ : Type} {Q : ρ → Calling α α (List (Visit α) × Store α) → Prop} {p : Calling α α ρ}
  {later : List (Visit α)} {s : Store α} {K : Nat}

/-- The first report of its kind to a parent ends the visit. -/
theorem follows_deliver {c t : Nat} {m : Node} {gain : Gain} {seen : Phase}
    (hm : plan.nodes[c]? = some m) (hparent : m.parent = some t) (hp : s.phases[t]? = some seen)
    (hf : (seen.finished && gain.hasFinished) = false)
    (hsum : (seen.summed && gain.hasSummed) = false) (hK : 2 ≤ K)
    (h : Follows Q (alone (step plan) (K - 2) later (s.withPhase t (seen.add gain))) p) :
    Follows Q (alone (step plan) K (climb c gain :: later) s) p := by
  refine follows_silent (by omega) (step_climb hm hparent hp) ?_
  simp only [hf, hsum, Bool.false_eq_true, if_false]
  exact follows_silent (by omega) (step_deliver hm hparent hp) h

variable {t l r : Nat} {n nl nr : Node} {x y : α} {seen : Phase}

/-- The second sum is reported to a node, which gets the sum of both unless it is the last. -/
theorem follows_addUp {f : α → Calling α α ρ} (H : plan.Halves t n l nl r nr)
    (hp : s.phases[t]? = some seen) (hsum : seen.summed = true)
    (hx : s.sums[l]? = some (some x)) (hy : s.sums[r]? = some (some y))
    (hlast : plan.isLast n.span = false) (hK : 4 ≤ K)
    (h : ∀ z, Follows Q (alone (step plan) (K - 4) (publish r .summed seen :: later)
      (s.withSum t (some z))) (f z)) :
    Follows Q (alone (step plan) K (climb r .summed :: later) s) (Calling.ask x y >>= f) := by
  refine follows_silent (by omega) (step_climb H.right H.right_parent hp) ?_
  simp only [hsum, Gain.hasFinished, Gain.hasSummed, Bool.and_false, Bool.and_true,
    Bool.false_eq_true, if_false, if_true]
  refine follows_silent (by omega)
    (step_addLeft H.right H.right_parent H.node H.children hx H.right) ?_
  simp only [H.right_last, hlast, Bool.false_eq_true, if_false]
  refine follows_call (by omega)
    (step_addRight H.right H.right_parent H.node H.children hy) fun z => ?_
  exact follows_silent (by omega) (step_leaveSum H.right H.right_parent) (h z)

theorem follows_addUp_last (H : plan.Halves t n l nl r nr)
    (hp : s.phases[t]? = some seen) (hsum : seen.summed = true)
    (hx : s.sums[l]? = some (some x)) (hlast : plan.isLast n.span = true) (hK : 3 ≤ K)
    (h : Follows Q (alone (step plan) (K - 3) (publish r .summed seen :: later)
      (s.withSum t (some x))) p) :
    Follows Q (alone (step plan) K (climb r .summed :: later) s) p := by
  refine follows_silent (by omega) (step_climb H.right H.right_parent hp) ?_
  simp only [hsum, Gain.hasFinished, Gain.hasSummed, Bool.and_false, Bool.and_true,
    Bool.false_eq_true, if_false, if_true]
  refine follows_silent (by omega)
    (step_addLeft H.right H.right_parent H.node H.children hx H.right) ?_
  simp only [H.right_last, hlast, if_true]
  exact follows_silent (by omega) (step_leaveSum H.right H.right_parent) h

end

/-! ## The pass -/

/-- Away from the start of the window, that both children are summed does not show in the phase. -/
theorem join_known {start : Nat} (h : 0 < start) :
    Phase.join { summed := true } .summed start = { summed := true } := by
  simp [Phase.join, Phase.add, Gain.hasSummed, Gain.hasFinished, Nat.ne_of_gt h]

theorem fold_ensures {xs : List α} (h : xs ≠ []) :
    (fold xs).Ensures .any fun sum => ∃ x, sum = some x := by
  have from_acc : ∀ (rest : List α) (acc : α), (foldFrom acc rest).Ensures .any fun _ => True := by
    intro rest
    induction rest with
    | nil => exact fun _ => trivial
    | cons x rest ih => exact fun acc => ⟨trivial, fun r _ => ih r⟩
  cases xs with
  | nil => exact absurd rfl h
  | cons x rest => exact ((from_acc rest x).mono fun c _ => ⟨c, rfl⟩).map

/-- The first pass over a leaf that is not the last takes its sum. -/
theorem follows_total {ρ : Type} {Q : ρ → Calling α α (List (Visit α) × Store α) → Prop}
    {f : α → Calling α α ρ} (hT : plan.IsTree) {t K : Nat} {n : Node} {s : Store α}
    {later : List (Visit α)} (hn : plan.nodes[t]? = some n) (hs : s.Fits plan)
    (hlast : plan.isLast n.span = false) (hK : 2 ≤ K)
    (h : ∀ x, Follows Q (alone (step plan) (K - 2) (climb t .summed :: later)
      ((s.withEvent (.summed t)).withSum t (some x))) (f x)) :
    Follows Q (alone (step plan) K (total t :: later) s)
      (fold (s.segment n.span) >>= fun sum => orEmpty sum >>= f) := by
  have hne : s.segment n.span ≠ [] := by
    intro h0
    have := hT.length_segment hs hn
    have := hT.grown.nonempty t n hn
    rw [h0, List.length_nil] at *
    omega
  have hrun := step_total hn hlast (hT.read? hs hn)
  rw [alone_cons (by omega), hrun, Calling.bind_bind]
  refine ((fold_ensures hne).follows).seq ?_
  rintro _ _ ⟨rfl, x, rfl⟩
  exact follows_silent (by omega) (step_leave (some x)) (h x)

/-- **The first pass over a span that lies neither at the start nor at the end of the window.** -/
theorem follows_sumUp (hT : plan.IsTree) {t k K : Nat} {n : Node} {s : Store α}
    {later : List (Visit α)} (hn : plan.nodes[t]? = some n) (hs : s.Fits plan)
    (hstart : 0 < n.span.start) (hlast : plan.isLast n.span = false) (hfresh : Fresh plan s n.span)
    (hK : k + 8 * Layout.count plan.threshold hT.pos n.span.len ≤ K) :
    Follows (Resumes (step plan) k (climb t .summed :: later) fun r s' =>
        FirstPassed plan t n r.1 s s' ∧ s'.sums[t]? = some (some r.2))
      (alone (step plan) K (enter t :: later) s)
      (sumUp plan.threshold hT.pos (s.segment n.span)) := by
  induction hlen : n.span.len using Nat.strongRecOn generalizing t n s k K later with
  | ind len ih =>
  subst hlen
  have hself := hfresh t n hn (Span.Inside.refl _)
  have hcount := Layout.count_pos hT.pos n.span.len
  by_cases hlt : plan.threshold < n.span.len
  · obtain ⟨l, nl, r, nr, H⟩ := hT.exists_halves hn hlt
    rw [H.count hT.pos] at hK
    rw [sumUp, if_pos (by rwa [hT.length_segment hs hn]), ← H.segment_left hT hs,
      ← H.segment_right hT hs]
    refine follows_silent (by omega) (step_enter_split hn hlt H.children hself) ?_
    -- the left half
    refine (ih _ (H.len_left hT).2 (k := k + 7 + 8 * Layout.count plan.threshold hT.pos nr.span.len)
      (K := K - 1) H.left hs (H.start_left ▸ hstart) (H.left_not_last hT)
      (hfresh.mono H.left_inside) (by omega) rfl).bind ?_
    rintro ⟨left, x⟩ _ ⟨k₁, s₁, hk₁, rfl, hl, hx⟩
    have ht₁ : s₁.phases[t]? = some {} :=
      ((hl.frame.nodes t n hn (H.not_inside_left hT)).phases).trans hself
    refine follows_deliver H.left H.left_parent ht₁ rfl rfl (by omega) ?_
    -- the right half
    obtain ⟨hs₂, hfresh₂, hsegr⟩ := hl.right_ready hT hs H hfresh { summed := true }
    rw [hsegr]
    refine (ih _ (H.len_right hT).2 (k := k + 5) (K := k₁ - 2) H.right hs₂
      (H.start_right_pos hT) (H.right_last.trans hlast) hfresh₂ (by omega) rfl).bind ?_
    rintro ⟨right, y⟩ _ ⟨k₃, s₃, hk₃, rfl, hr, hy⟩
    have ht₃ := hr.keeps_phase hT H (phase_withPhase (hl.frame.fits hs) hn _)
    have hx₃ := hr.keeps_sum hT H hx
    -- the sum of both
    refine follows_addUp H ht₃ rfl hx₃ hy hlast (by omega) fun z => ?_
    refine follows_silent (by omega)
      (step_publish_known H.right H.right_parent hn (join_known hstart)) ?_
    exact .done ⟨k₃ - 4 - 1, _, by omega, rfl, hl.node hT hs H hx hr _,
      sum_withSum (hr.frame.fits hs₂) hn _⟩
  · rw [sumUp, if_neg (by rwa [hT.length_segment hs hn])]
    have hgain : Gain.ofLeaf {} n.span.start = .summed := by simp [Gain.ofLeaf, hstart]
    refine follows_silent (by omega) (step_enter_leaf hn (Nat.le_of_not_lt hlt) hself) ?_
    refine follows_silent (by omega) (step_takeOn hn hself) ?_
    simp only [hgain, if_true]
    have frame₁ : Frame plan n.span s (s.withPhase t { summed := true }) :=
      Frame.withPhase hn (Span.Inside.refl _) _
    have hs₁ := frame₁.fits hs
    refine follows_total hT hn hs₁ hlast (by omega) fun x => .done ?_
    refine ⟨K - 1 - 1 - 2, _, by omega, rfl, ⟨phase_withPhase hs hn _,
      .leaf hn (Nat.le_of_not_lt hlt), ?_, rfl⟩, ?_⟩
    · exact frame₁.trans ((Frame.withEvent _).trans (Frame.withSum hn (Span.Inside.refl _) _))
    · exact sum_withSum ((frame₁.trans (Frame.withEvent (.summed t))).fits hs) hn _

/-- **The first pass over a span that ends with the window, and does not start with it.** -/
theorem follows_sumLast (hT : plan.IsTree) {t k K : Nat} {n : Node} {s : Store α}
    {later : List (Visit α)} (hn : plan.nodes[t]? = some n) (hs : s.Fits plan)
    (hstart : 0 < n.span.start) (hlast : plan.isLast n.span = true) (hfresh : Fresh plan s n.span)
    (hK : k + 8 * Layout.count plan.threshold hT.pos n.span.len ≤ K) :
    Follows (Resumes (step plan) k (climb t .summed :: later) fun T s' =>
        FirstPassed plan t n T s s')
      (alone (step plan) K (enter t :: later) s)
      (sumLast plan.threshold hT.pos (s.segment n.span)) := by
  induction hlen : n.span.len using Nat.strongRecOn generalizing t n s k K later with
  | ind len ih =>
  subst hlen
  have hself := hfresh t n hn (Span.Inside.refl _)
  have hcount := Layout.count_pos hT.pos n.span.len
  by_cases hlt : plan.threshold < n.span.len
  · obtain ⟨l, nl, r, nr, H⟩ := hT.exists_halves hn hlt
    rw [H.count hT.pos] at hK
    rw [sumLast, if_pos (by rwa [hT.length_segment hs hn]), ← H.segment_left hT hs,
      ← H.segment_right hT hs]
    refine follows_silent (by omega) (step_enter_split hn hlt H.children hself) ?_
    -- the left half, which is not the last
    refine (follows_sumUp hT (k := k + 6 + 8 * Layout.count plan.threshold hT.pos nr.span.len)
      (K := K - 1) H.left hs (H.start_left ▸ hstart) (H.left_not_last hT)
      (hfresh.mono H.left_inside) (by omega)).bind ?_
    rintro ⟨left, x⟩ _ ⟨k₁, s₁, hk₁, rfl, hl, hx⟩
    have ht₁ : s₁.phases[t]? = some {} :=
      ((hl.frame.nodes t n hn (H.not_inside_left hT)).phases).trans hself
    refine follows_deliver H.left H.left_parent ht₁ rfl rfl (by omega) ?_
    -- the right half, which is
    obtain ⟨hs₂, hfresh₂, hsegr⟩ := hl.right_ready hT hs H hfresh { summed := true }
    rw [hsegr]
    refine (ih _ (H.len_right hT).2 (k := k + 4) (K := k₁ - 2) H.right hs₂
      (H.start_right_pos hT) (H.right_last.trans hlast) hfresh₂ (by omega) rfl).bind ?_
    rintro right _ ⟨k₃, s₃, hk₃, rfl, hr⟩
    have ht₃ := hr.keeps_phase hT H (phase_withPhase (hl.frame.fits hs) hn _)
    have hx₃ := hr.keeps_sum hT H hx
    refine follows_addUp_last H ht₃ rfl hx₃ hlast (by omega) ?_
    refine follows_silent (by omega)
      (step_publish_known H.right H.right_parent hn (join_known hstart)) ?_
    exact .done ⟨k₃ - 3 - 1, _, by omega, rfl, hl.node hT hs H hx hr _⟩
  · rw [sumLast, if_neg (by rwa [hT.length_segment hs hn])]
    have hgain : Gain.ofLeaf {} n.span.start = .summed := by simp [Gain.ofLeaf, hstart]
    refine follows_silent (by omega) (step_enter_leaf hn (Nat.le_of_not_lt hlt) hself) ?_
    refine follows_silent (by omega) (step_takeOn hn hself) ?_
    simp only [hgain, if_true]
    refine follows_silent (by omega) (step_total_last hn hlast) ?_
    refine follows_silent (by omega) (step_leave none) (.done ?_)
    refine ⟨K - 1 - 1 - 1 - 1, _, by omega, rfl, phase_withPhase hs hn _,
      .leaf hn (Nat.le_of_not_lt hlt), ?_, rfl⟩
    exact (Frame.withPhase hn (Span.Inside.refl _) _).trans
      (Frame.withSum hn (Span.Inside.refl _) _)

end ForkJoin.Scan
