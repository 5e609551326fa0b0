import ForkJoin.Proofs.Scan.FirstPass

/-!
# The second pass of a single worker

A node that has been woken, with what precedes it in its slot, hands that down to its halves. The
worker goes through the left one and then through the right one, and leaves the node upwards with
the report that all below it is swept: `follows_sweepDown`.
-/
namespace ForkJoin.Scan

open Calling Work Store Visit

variable {α : Type} {plan : Plan}

/-! ## Sweeping a leaf -/

theorem length_sweepFrom (swept xs : List α) (last : α) : (sweepFrom swept last xs).Ensures .any
    fun ys => ys.length = swept.length + xs.length := by
  induction xs generalizing swept last with
  | nil => exact List.length_reverse
  | cons x xs ih =>
    refine ⟨trivial, fun sum _ => (ih (sum :: swept) sum).mono fun ys hys => ?_⟩
    rw [hys, List.length_cons, List.length_cons]
    omega

theorem length_sweep (carry : Option α) (xs : List α) : (Scan.sweep carry xs).Ensures .any
    fun ys => ys.length = xs.length := by
  cases xs with
  | nil => exact rfl
  | cons x xs =>
    cases carry with
    | none => exact (length_sweepFrom [x] xs x).mono fun ys hys => by simp [hys]; omega
    | some c =>
      exact ⟨trivial, fun sum _ => (length_sweepFrom [sum] xs sum).mono fun ys hys => by
        simp [hys]; omega⟩

/-- The state after the leaf `t` was swept. -/
def leftBySweep (s : Store α) (t : Nat) (n : Node) (ys : List α) : Store α :=
  (s.withSwept t n.span.start ys).withSum t ys.getLast?

theorem follows_sweep {ρ : Type} {Q : ρ → Calling α α (List (Visit α) × Store α) → Prop}
    {f : List α → Calling α α ρ} (hT : plan.IsTree) {t K : Nat} {n : Node} {s : Store α}
    {later : List (Visit α)} {gain : Gain} {carry : Option α} (hn : plan.nodes[t]? = some n)
    (hs : s.Fits plan) (hK : 2 ≤ K)
    (h : ∀ ys : List α, ys.length = n.span.len →
      Follows Q (alone (step plan) (K - 2) (climb t gain :: later) (leftBySweep s t n ys)) (f ys)) :
    Follows Q (alone (step plan) K (Visit.sweep t gain carry :: later) s)
      (Scan.sweep carry (s.segment n.span) >>= f) := by
  rw [alone_cons (by omega), step_sweep hn (hT.read? hs hn), Calling.bind_bind]
  refine ((length_sweep carry (s.segment n.span)).follows).seq ?_
  rintro ys _ ⟨rfl, hlen⟩
  rw [hT.length_segment hs hn] at hlen
  exact follows_silent (by omega) (step_leave _) (h ys hlen)

/-- The second pass has been over the span of a node, and left `ys` there. -/
structure SecondPassed (plan : Plan) (n : Node) (ys : List α) (s s' : Store α) : Prop where
  frame : Frame plan n.span s s'
  segment : s'.segment n.span = ys

theorem SecondPassed.leaf (hT : plan.IsTree) {t : Nat} {n : Node} {s : Store α} {ys : List α}
    (hn : plan.nodes[t]? = some n) (hs : s.Fits plan) (hlen : ys.length = n.span.len) :
    SecondPassed plan n ys s (leftBySweep s t n ys) where
  frame := (Frame.withSwept hlen).trans (Frame.withSum hn (Span.Inside.refl _) _)
  segment := segment_withSwept (t := t) hlen (hs.cells ▸ hT.grown.bounded t n hn)

/-! ## Handing down -/

/-- The phase of a node that was summed and then woken. -/
def Phase.called : Phase := { awake := true, summed := true }

/-- Both halves have been told what precedes them, and woken. -/
def Store.handed (s : Store α) (l r : Nat) (c z : α) : Store α :=
  (((s.withCarry l c).withCarry r z).withPhase r .called).withPhase l .called

section

variable {t l r : Nat} {n nl nr : Node} {s : Store α} {c x z : α}

theorem same_handed {u : Nat} (hl : u ≠ l) (hr : u ≠ r) : Same s (s.handed l r c z) u :=
  (same_withCarry c hl).trans <| (same_withCarry z hr).trans <|
    (same_withPhase _ hr).trans (same_withPhase _ hl)

theorem frame_handed (H : plan.Halves t n l nl r nr) : Frame plan n.span s (s.handed l r c z) :=
  (Frame.withCarry H.left H.left_inside c).trans <|
    (Frame.withCarry H.right H.right_inside z).trans <|
    (Frame.withPhase H.right H.right_inside _).trans (Frame.withPhase H.left H.left_inside _)

theorem handed_left (hT : plan.IsTree) (hs : s.Fits plan) (H : plan.Halves t n l nl r nr) :
    (s.handed l r c z).phases[l]? = some .called ∧
      (s.handed l r c z).carries[l]? = some (some c) := by
  have hlr := Ne.symm (H.right_ne_left hT)
  have hs₁ := (Frame.withCarry H.left H.left_inside c).fits hs
  have hs₂ := (Frame.withCarry H.right H.right_inside z).fits hs₁
  have hs₃ := (Frame.withPhase H.right H.right_inside .called).fits hs₂
  exact ⟨phase_withPhase hs₃ H.left _,
    (same_withCarry z hlr).carries.trans (carry_withCarry hs H.left c)⟩

theorem handed_right (hT : plan.IsTree) (hs : s.Fits plan) (H : plan.Halves t n l nl r nr) :
    (s.handed l r c z).phases[r]? = some .called ∧
      (s.handed l r c z).carries[r]? = some (some z) := by
  have hs₁ := (Frame.withCarry H.left H.left_inside c).fits hs
  have hs₂ := (Frame.withCarry H.right H.right_inside z).fits hs₁
  exact ⟨(same_withPhase _ (H.right_ne_left hT)).phases.trans (phase_withPhase hs₂ H.right _),
    carry_withCarry hs₁ H.right z⟩

/-- A node that does not lie at the start hands down what precedes it. -/
theorem follows_handDown {ρ : Type} {Q : ρ → Calling α α (List (Visit α) × Store α) → Prop}
    {f : α → Calling α α ρ} {K : Nat} {later : List (Visit α)} (hT : plan.IsTree)
    (H : plan.Halves t n l nl r nr) (hstart : 0 < n.span.start) (hp : s.phases[t]? = some .called)
    (hc : s.carries[t]? = some (some c)) (hx : s.sums[l]? = some (some x))
    (hpl : s.phases[l]? = some { summed := true }) (hpr : s.phases[r]? = some { summed := true })
    (hK : 7 ≤ K)
    (h : ∀ z, Follows Q (alone (step plan) (K - 7) (enter l :: enter r :: later)
      (s.handed l r c z)) (f z)) :
    Follows Q (alone (step plan) K (enter t :: later) s) (Calling.ask c x >>= f) := by
  have hpr' : ∀ z, ((s.withCarry l c).withCarry r z).phases[r]? = some { summed := true } :=
    fun _ => hpr
  have hpl' : ∀ z, (((s.withCarry l c).withCarry r z).withPhase r .called).phases[l]? =
      some { summed := true } := fun z =>
    (same_withPhase .called (Ne.symm (H.right_ne_left hT))).phases.trans hpl
  refine follows_silent (by omega) (step_enter_split H.node H.lt H.children hp) ?_
  refine follows_silent (by omega) (step_handDown H.node H.children hx) ?_
  rw [if_neg (Nat.ne_of_gt hstart)]
  refine follows_call (by omega) (step_addCarry hc) fun z => ?_
  refine follows_silent (by omega) (step_giveLeft H.node H.children) ?_
  refine follows_silent (by omega) (step_giveRight H.node H.children) ?_
  refine follows_silent (by omega) (step_wakeRight H.node H.children (hpr' z)) ?_
  exact follows_silent (by omega) (step_wakeLeft H.node H.children (hpl' z)) (h z)

end

/-! ## The pass -/

/-- A leaf that has been told what precedes it is swept. -/
theorem follows_lastLeaf {ρ : Type} {Q : ρ → Calling α α (List (Visit α) × Store α) → Prop}
    {f : List α → Calling α α ρ} (hT : plan.IsTree) {t K : Nat} {n : Node} {s : Store α} {c : α}
    {later : List (Visit α)} (hn : plan.nodes[t]? = some n) (hs : s.Fits plan)
    (hle : n.span.len ≤ plan.threshold) (hstart : 0 < n.span.start)
    (hp : s.phases[t]? = some .called) (hc : s.carries[t]? = some (some c)) (hK : 5 ≤ K)
    (h : ∀ ys s', SecondPassed plan n ys s s' →
      Follows Q (alone (step plan) (K - 5) (climb t .finished :: later) s') (f ys)) :
    Follows Q (alone (step plan) K (enter t :: later) s)
      (Scan.sweep (some c) (s.segment n.span) >>= f) := by
  refine follows_silent (by omega) (step_enter_leaf hn hle hp) ?_
  refine follows_silent (by omega) (step_takeOn hn hp) ?_
  have hgain : Gain.ofLeaf .called n.span.start = .finished := rfl
  rw [hgain, if_neg (by decide), if_neg (Nat.ne_of_gt hstart)]
  refine follows_silent (by omega) (step_fetch hc) ?_
  have frame₁ : Frame plan n.span s (s.withPhase t (Phase.called.add .finished)) :=
    Frame.withPhase hn (Span.Inside.refl _) _
  have hs₁ := frame₁.fits hs
  refine follows_sweep hT hn hs₁ (by omega) fun ys hlen => ?_
  have hpassed := SecondPassed.leaf hT hn hs₁ hlen
  exact h ys _ ⟨frame₁.trans hpassed.frame, hpassed.segment⟩

/-- The left half has been swept since a node handed down, and for the right one nothing has
changed. -/
theorem SecondPassed.right_ready {t l r : Nat} {n nl nr : Node} {s s₂ : Store α} {c z : α}
    {ls : List α} {right : Summed α} (hT : plan.IsTree) (hs : s.Fits plan)
    (H : plan.Halves t n l nl r nr) (hl : SecondPassed plan nl ls (s.handed l r c z) s₂)
    (hbr : Below plan s r right) (q : Phase) :
    (s₂.withPhase t q).phases[r]? = some .called ∧
      (s₂.withPhase t q).carries[r]? = some (some z) ∧ Below plan (s₂.withPhase t q) r right := by
  have keep : ∀ (u : Nat) (k : Node), plan.nodes[u]? = some k → k.span.Inside nr.span →
      Same (s.handed l r c z) (s₂.withPhase t q) u := fun u k hk hin =>
    (hl.frame.nodes u k hk (H.not_left_of_right (hT.grown.nonempty u k hk) hin)).trans
      (same_withPhase _ (H.ne_of_right hT hk hin))
  have keepr := keep r nr H.right (Span.Inside.refl _)
  obtain ⟨hpr, hcr⟩ := handed_right (c := c) (z := z) hT hs H
  refine ⟨keepr.phases.trans hpr, keepr.carries.trans hcr, ?_⟩
  refine hbr.congr hT H.right (fun u k hk hin hu => ?_)
    fun span hin => hl.frame.segment_eq (.inr (Nat.le_trans (Nat.le_of_eq H.meet) hin.1))
  exact (same_handed (H.ne_left_of_right hT hk hin) hu).trans (keep u k hk hin)

/-- **The second pass over a span that does not lie at the start of the window.** -/
theorem follows_sweepDown (hT : plan.IsTree) {t k K : Nat} {n : Node} {s : Store α} {c : α}
    {T : Summed α} {later : List (Visit α)} (hn : plan.nodes[t]? = some n) (hs : s.Fits plan)
    (hstart : 0 < n.span.start) (hp : s.phases[t]? = some .called)
    (hc : s.carries[t]? = some (some c)) (hb : Below plan s t T)
    (hK : k + 10 * Layout.count plan.threshold hT.pos n.span.len ≤ K) :
    Follows (Resumes (step plan) k (climb t .finished :: later) fun ys s' =>
        SecondPassed plan n ys s s')
      (alone (step plan) K (enter t :: later) s) (sweepDown c T) := by
  induction T generalizing t n s k K c later with
  | leaf xs =>
    cases hb with
    | @leaf _ m hm hle =>
    obtain rfl : m = n := Option.some.inj (hm.symm.trans hn)
    rw [Layout.count_of_le hT.pos hle] at hK
    rw [sweepDown, ← Calling.bind_done (Scan.sweep _ _)]
    refine follows_lastLeaf hT hn hs hle hstart hp hc (by omega) fun ys s' hpassed => .done ?_
    exact ⟨K - 5, s', by omega, rfl, hpassed⟩
  | node left x right ihl ihr =>
    cases hb with
    | @node _ l r m nl nr _ _ _ H hpl hpr hx hbl hbr =>
    obtain rfl : m = n := Option.some.inj (H.node.symm.trans hn)
    rw [H.count hT.pos] at hK
    refine follows_handDown hT H hstart hp hc hx hpl hpr (by omega) fun z => ?_
    -- the left half
    have frame₁ : Frame plan m.span s (s.handed l r c z) := frame_handed H
    have hs₁ := frame₁.fits hs
    obtain ⟨hpl₁, hcl₁⟩ := handed_left (c := c) (z := z) hT hs H
    have hbl₁ : Below plan (s.handed l r c z) l left := hbl.congr hT H.left
      (fun u k hk hin hu => same_handed hu (H.ne_right_of_left hT hk hin)) fun _ _ => rfl
    refine (ihl (k := k + 3 + 10 * Layout.count plan.threshold hT.pos nr.span.len) (K := K - 7)
      H.left hs₁ (H.start_left ▸ hstart) hpl₁ hcl₁ hbl₁ (by omega)).bind ?_
    rintro ls _ ⟨k₂, s₂, hk₂, rfl, hl⟩
    have htl : t ≠ l := Ne.symm (H.ne_of_left hT H.left (Span.Inside.refl _))
    have htr : t ≠ r := Ne.symm (H.ne_of_right hT H.right (Span.Inside.refl _))
    have hp₂ : s₂.phases[t]? = some .called :=
      ((same_handed htl htr).trans (hl.frame.nodes t m hn (H.not_inside_left hT))).phases.trans hp
    refine follows_deliver H.left H.left_parent hp₂ rfl rfl (by omega) ?_
    -- the right half
    have hs₂ := hl.frame.fits hs₁
    have frame₃ : Frame plan m.span s₂ (s₂.withPhase t (Phase.called.add .finished)) :=
      Frame.withPhase hn (Span.Inside.refl _) _
    obtain ⟨hpr₃, hcr₃, hbr₃⟩ := hl.right_ready hT hs H hbr (Phase.called.add .finished)
    refine (ihr (k := k + 1) (K := k₂ - 2) H.right (frame₃.fits hs₂) (H.start_right_pos hT) hpr₃
      hcr₃ hbr₃ (by omega)).bind ?_
    rintro rs _ ⟨k₄, s₄, hk₄, rfl, hr⟩
    -- the second report
    have hp₄ : s₄.phases[t]? = some (Phase.called.add .finished) :=
      (hr.frame.nodes t m hn (H.not_inside_right hT)).phases.trans (phase_withPhase hs₂ hn _)
    refine follows_silent (by omega) (step_climb H.right H.right_parent hp₄) (.done ?_)
    refine ⟨k₄ - 1, s₄, by omega, rfl, ?_, ?_⟩
    · exact frame₁.trans <| (hl.frame.mono H.left_inside).trans <|
        frame₃.trans (hr.frame.mono H.right_inside)
    · rw [H.segment_append, hr.segment, hr.frame.segment_eq (.inl (Nat.le_of_eq H.meet))]
      exact congrArg (· ++ rs) hl.segment

end ForkJoin.Scan
