import ForkJoin.Proofs.Scan.Moves

/-!
# Steps at a leaf

The visits of a leaf keep the invariant: in the first pass it is taken on and summed, in the second
it is taken on again and swept; the first leaf is swept at once. What is read is there: the elements
as they were before the scan, and in the second pass what precedes the leaf.
-/
namespace ForkJoin.Scan

open Calling Store

variable {α : Type}

/-! ## Leaves -/

namespace Holds

variable {S : Setting α} {s s' : Store α} {t : Nat} {a : Stage} {l r : Face}

/-- The first pass of a leaf goes on. -/
theorem leaf_up (h : Holds S s t a l r) (hleaf : S.plan.IsLeaf t) {up : Up} (hidle : up ≠ .idle)
    (haloft : up.aloft = false) (hcompleted : s'.completed = s.completed)
    (hcarries : s'.carries = s.carries) (hl : HoldsLeaf S s' t (a.toUp up)) :
    Holds S s' t (a.toUp up) l r where
  sound :=
    { h.sound with
      summed := fun seen hs => by rw [show up = _ from hs] at haloft; cases haloft
      right := fun seen hs => by rw [show up = _ from hs] at haloft; cases haloft }
  root h0 := by rw [hcompleted]; exact (h.root h0).rise hidle haloft
  carry := by rw [hcarries]; exact h.carry
  leaf _ := hl
  cut hcut := absurd hleaf hcut

/-- The second pass of a leaf goes on; it is not the first leaf then. -/
theorem leaf_down (h : Holds S s t a l r) (hleaf : S.plan.IsLeaf t) (hidle : a.down ≠ .idle)
    {down : Down} (hfirst : S.plan.isFirst t = false) (hdeliver : ∀ seen, down ≠ .deliver seen)
    (hcarries : s'.carries = s.carries) (hl : HoldsLeaf S s' t (a.toDown down)) :
    Holds S s' t (a.toDown down) l r where
  sound :=
    { h.sound with
      finished := fun seen hs => absurd hs (hdeliver seen)
      later := fun _ => hfirst }
  root h0 := by
    rw [h0, Plan.isFirst, S.family.span_root] at hfirst
    cases hfirst
  carry hf _ := by rw [hcarries]; exact h.carry hf hidle
  leaf _ := hl
  cut hcut := absurd hleaf hcut

end Holds

/-! ## Steps -/

namespace Inv

variable {S : Setting α} {c : Nat → Stage} {s : Store α} {rest : Multiset (Visit α)}
  {calls : List (α × α)} {t : Nat}

/-! ### The first pass -/

theorem up_enter_leaf (h : Inv S c (.enter t ::ₘ rest) s calls) (ht : t < S.plan.nodes.size)
    (hleaf : S.plan.IsLeaf t) (hup : (c t).up = .enter) : Goes S c (.enter t) rest s calls := by
  obtain ⟨n, hn, hspan⟩ := Plan.exists_node ht
  have hnode := h.node t ht
  have hl := hnode.leaf hleaf
  have hstep := Visit.step_enter_leaf hn (hspan ▸ hleaf) (hl.phase_early (by rw [hup]; rfl))
  have hworked : Up.takeOn.worked = (c t).up.worked := by rw [hup]; rfl
  refine h.next_up ht .takeOn (by rw [hup]; rfl) rfl (.of_done hstep) (by rw [hup]; rfl) rfl
    (fun u _ _ => .refl s u) h.fits (hnode.leaf_up hleaf (by simp) rfl rfl rfl ?_)
    (S.calls_toUp hworked) (.inl (by simp [hup, Up.ahead]))
  exact
    { stage := hl.stage.rise (by simp [hup]) (by simp) (by simp) (by simp) (by simp)
      phase := hl.phase_up (by rw [hup]; rfl)
      sum := fun _ => by rintro ⟨⟩
      work := hl.work_up hworked }

/-- The first leaf is taken on for both passes, any other one for the first. -/
theorem up_takeOn (h : Inv S c (.takeOn t {} ::ₘ rest) s calls) (ht : t < S.plan.nodes.size)
    (hleaf : S.plan.IsLeaf t) (hup : (c t).up = .takeOn) :
    Goes S c (.takeOn t {}) rest s calls := by
  obtain ⟨n, hn, hspan⟩ := Plan.exists_node ht
  have hnode := h.node t ht
  have hl := hnode.leaf hleaf
  have hdown := hl.down_idle (by simp [hup])
  have hstep := Visit.step_takeOn hn (hl.phase_early (by rw [hup]; rfl))
  have hphase := fun p => phase_withPhase h.fits hn p
  have hfits := fun p => (Frame.withPhase hn (.refl n.span) p).fits h.fits
  cases hf : S.plan.isFirst t with
  | true =>
    have hstart : n.span.start = 0 := by simpa [Plan.isFirst, hspan] using hf
    have hworked : Up.sweep.worked = (c t).up.worked := by rw [hup]; rfl
    rw [hstart] at hstep
    refine h.next_up ht .sweep (by rw [hup]; rfl) rfl (.of_done hstep) (by rw [hup]; rfl) rfl
      (fun u _ hne => .withPhase _ hne) (hfits _) (hnode.leaf_up hleaf (by simp) rfl rfl rfl ?_)
      (S.calls_toUp hworked) (.inl (by simp [hup, Up.ahead]))
    exact
      { stage := hl.stage.rise (by simp [hup]) (by simp) (by simp)
          (fun hf' => by rw [hf] at hf'; cases hf') (by simp)
        phase := ⟨_, hphase _, by simp [LeafPhase, hf, Up.early, Gain.ofLeaf, Phase.add,
          Gain.hasSummed, Gain.hasFinished]⟩
        sum := fun _ => by rintro ⟨⟩
        work := (hl.work_up hworked).frame rfl rfl }
  | false =>
    have hstart : 0 < n.span.start := by
      simpa [Plan.isFirst, hspan, Nat.pos_iff_ne_zero] using hf
    have hgain : Gain.ofLeaf {} n.span.start = .summed := by simp [Gain.ofLeaf, hstart]
    have hworked : Up.total.worked = (c t).up.worked := by rw [hup]; rfl
    rw [hgain] at hstep
    refine h.next_up ht .total (by rw [hup]; rfl) rfl (.of_done hstep) (by rw [hup]; rfl) rfl
      (fun u _ hne => .withPhase _ hne) (hfits _) (hnode.leaf_up hleaf (by simp) rfl rfl rfl ?_)
      (S.calls_toUp hworked) (.inl (by simp [hup, Up.ahead]))
    exact
      { stage := hl.stage.rise (by simp [hup]) (by simp)
          (fun hf' => by rw [hf] at hf'; cases hf') (by simp) (by simp)
        phase := ⟨_, hphase _, by simp [LeafPhase, hf, hdown, Up.early, Down.early, Phase.add,
          Gain.hasSummed, Gain.hasFinished]⟩
        sum := fun _ => by rintro ⟨⟩
        work := (hl.work_up hworked).frame rfl rfl }

/-- The sum of a leaf is taken, unless nobody needs it. -/
theorem up_total (h : Inv S c (.total t ::ₘ rest) s calls) (ht : t < S.plan.nodes.size)
    (hleaf : S.plan.IsLeaf t) (hup : (c t).up = .total) : Goes S c (.total t) rest s calls := by
  obtain ⟨n, hn, hspan⟩ := Plan.exists_node ht
  have hnode := h.node t ht
  have hl := hnode.leaf hleaf
  have hf : S.plan.isFirst t = false := by
    cases hf : S.plan.isFirst t with
    | true => exact absurd hup (hl.stage.total hf)
    | false => rfl
  have hdown := hl.down_idle (by simp [hup])
  have hswept : S.plan.swept t ((c t).toUp .leave) = S.plan.swept t (c t) := by
    rw [Plan.swept, Plan.swept, hf]; rfl
  have hunswept : S.plan.swept t (c t) = false := by rw [Plan.swept, hf, hdown]; rfl
  have hunsummed : S.plan.summed t (c t) = false := by simp [Plan.summed, hup, Up.worked]
  have hstage : AtLeaf (S.plan.isFirst t) ((c t).toUp .leave) :=
    hl.stage.rise (by simp [hup]) (by simp) (by simp) (by simp) (by simp)
  have hphase := hl.phase_up (by rw [hup]; rfl : Up.leave.early = (c t).up.early)
  obtain ⟨xs, hread, hxs⟩ := hl.read h.fits hn hspan hunswept
  cases hlast : S.plan.isLast (S.plan.span t) with
  | true =>
    have hsummed : S.plan.summed t ((c t).toUp .leave) = S.plan.summed t (c t) := by
      simp [Plan.summed, hlast]
    have hwalker : S.upWalker t .leave = ([.leave t .summed none] : List (Visit α)) := by
      simp [Setting.upWalker, S.gain_of_not_first hf, Setting.slot, hlast, hf]
    refine h.next_up ht .leave (by rw [hup]; rfl) hwalker
      (.of_done (Visit.step_total_last hn (hspan ▸ hlast))) (by rw [hup]; rfl) rfl
      (fun u _ _ => .refl s u) h.fits (hnode.leaf_up hleaf (by simp) rfl rfl rfl ?_)
      (S.calls_leaf_eq hleaf hsummed hswept) (.inl (by simp [hup, Up.ahead]))
    exact
      { stage := hstage
        phase := hphase
        sum := fun _ => by rintro ⟨⟩
        work := by rw [hsummed, hswept]; exact hl.work }
  | false =>
    have hsummed : S.plan.summed t ((c t).toUp .leave) = true := by
      simp [Plan.summed, hf, hlast, Up.worked]
    have hwalker : S.upWalker t .leave =
        ([.leave t .summed (some (S.sum t))] : List (Visit α)) := by
      simp [Setting.upWalker, S.gain_of_not_first hf, Setting.slot, hlast]
    have hfold : Returns S.op (fold xs.toList) (some (S.sum t)) (S.foldCalls t) :=
      hxs ▸ S.returns_fold_leaf ht hleaf
    have hstep : Returns S.op ((Visit.step S.plan (.total t)).run s)
        ([.leave t .summed (some (S.sum t))], s.withEvent (.summed t)) (S.foldCalls t) := by
      rw [Visit.step_total hn (hspan ▸ hlast) hread]
      exact hfold.bind_done rfl
    refine h.next_up ht .leave (by rw [hup]; rfl) hwalker hstep (by rw [hup]; rfl) rfl
      (fun u _ hne => .summed hne) ⟨h.fits.cells, h.fits.phases, h.fits.carries, h.fits.sums⟩
      (hnode.leaf_up hleaf (by simp) rfl rfl rfl ?_) ?_ (.inl (by simp [hup, Up.ahead]))
    · exact
        { stage := hstage
          phase := hphase
          sum := fun _ => by rintro ⟨⟩
          work := by
            rw [hsummed, hswept, hunswept]
            refine ⟨hunswept ▸ hl.work.segment, ?_⟩
            rw [events_push, hl.work.log, hunsummed, hunswept]
            simp [Event.concerns] }
    · rw [Setting.calls, Setting.calls, if_pos hleaf, if_pos hleaf, hsummed, hunsummed, hswept,
        hunswept]
      simp [Setting.leafCalls]

/-- The first leaf is swept, with nothing before it. -/
theorem up_sweep (h : Inv S c (.sweep t .both none ::ₘ rest) s calls)
    (ht : t < S.plan.nodes.size) (hleaf : S.plan.IsLeaf t) (hup : (c t).up = .sweep) :
    Goes S c (.sweep t .both none) rest s calls := by
  obtain ⟨n, hn, hspan⟩ := Plan.exists_node ht
  have hnode := h.node t ht
  have hl := hnode.leaf hleaf
  have hf : S.plan.isFirst t = true := by
    cases hf : S.plan.isFirst t with
    | true => rfl
    | false => exact absurd hup (hl.stage.sweep hf)
  have hunswept : S.plan.swept t (c t) = false := by rw [Plan.swept, hf, hup]; rfl
  have hswept : S.plan.swept t ((c t).toUp .leave) = true := by rw [Plan.swept, hf]; rfl
  have hsummed : S.plan.summed t ((c t).toUp .leave) = S.plan.summed t (c t) := by
    simp [Plan.summed, hf]
  obtain ⟨xs, hread, hxs⟩ := hl.read h.fits hn hspan hunswept
  have hsweep : Returns S.op (Scan.sweep none xs.toList) (S.swept t) (S.sweepCalls t) := by
    have := S.returns_sweep_leaf ht hleaf
    rwa [S.before_of_first hf, Option.map_none, ← hxs] at this
  have hlen : (S.swept t).length = (S.plan.span t).len := S.length_swept
  have hwalker : S.upWalker t .leave =
      ([.leave t .both (S.swept t).getLast?] : List (Visit α)) := by
    simp [Setting.upWalker, S.gain_of_first_leaf hleaf hf, Setting.slot, hf,
      S.getLast?_swept_first ht hleaf hf]
  have hstep : Returns S.op ((Visit.step S.plan (.sweep t .both none)).run s)
      ([.leave t .both (S.swept t).getLast?],
        s.withSwept t (S.plan.span t).start (S.swept t)) (S.sweepCalls t) := by
    rw [Visit.step_sweep hn hread, hspan]
    exact hsweep.bind_done rfl
  have hbounds : (S.plan.span t).stop ≤ s.cells.size := h.fits.cells ▸ S.family.stop_le ht
  refine h.next_up ht .leave (by rw [hup]; rfl) hwalker hstep (by rw [hup]; rfl) rfl
    (fun u hu hne => .swept ht hleaf hu hlen hne) ((Frame.withSwept hlen).fits h.fits)
    (hnode.leaf_up hleaf (by simp) rfl rfl rfl ?_) ?_ (.inl (by simp [hup, Up.ahead]))
  · exact
      { stage := hl.stage.rise (by simp [hup]) (by simp) (by simp) (by simp) (by simp)
        phase := hl.phase_up (by rw [hup]; rfl)
        sum := fun _ => by rintro ⟨⟩
        work := by
          rw [hsummed, hswept]
          refine ⟨segment_withSwept hlen hbounds, ?_⟩
          rw [events_withSwept, hl.work.log, hunswept, if_pos rfl]
          simp }
  · rw [Setting.calls, Setting.calls, if_pos hleaf, if_pos hleaf, hsummed, hswept, hunswept]
    simp [Setting.leafCalls]

/-- What the first pass has to report of a leaf is left in its slot. -/
theorem up_leave (h : Inv S c (.leave t (S.gain t) (S.slot t) ::ₘ rest) s calls)
    (ht : t < S.plan.nodes.size) (hleaf : S.plan.IsLeaf t) (hup : (c t).up = .leave) :
    Goes S c (.leave t (S.gain t) (S.slot t)) rest s calls := by
  obtain ⟨n, hn, hspan⟩ := Plan.exists_node ht
  have hnode := h.node t ht
  have hl := hnode.leaf hleaf
  have hworked : Up.climb.worked = (c t).up.worked := by rw [hup]; rfl
  refine h.next_up ht .climb (by rw [hup]; rfl) rfl (.of_done (Visit.step_leave _))
    (by rw [hup]; rfl) rfl (fun u _ hne => .withSum _ hne)
    ((Frame.withSum hn (.refl n.span) _).fits h.fits) (hnode.leaf_up hleaf (by simp) rfl rfl rfl ?_)
    (S.calls_toUp hworked) (.inl (by simp [hup, Up.ahead]))
  exact
    { stage := hl.stage.rise (by simp [hup]) (by simp) (by simp) (by simp) (by simp)
      phase := hl.phase_up (by rw [hup]; rfl)
      sum := fun hlast _ _ => by
        rw [sum_withSum h.fits hn, Setting.slot, if_neg (fun hb => by rw [hlast] at hb; cases hb.1)]
      work := (hl.work_up hworked).frame rfl rfl }

/-! ### The second pass -/

theorem down_enter_leaf (h : Inv S c (.enter t ::ₘ rest) s calls) (ht : t < S.plan.nodes.size)
    (hleaf : S.plan.IsLeaf t) (hdown : (c t).down = .enter) : Goes S c (.enter t) rest s calls := by
  obtain ⟨n, hn, hspan⟩ := Plan.exists_node ht
  have hnode := h.node t ht
  have hl := hnode.leaf hleaf
  have hidle : (c t).down ≠ .idle := by simp [hdown]
  obtain ⟨hf, hup⟩ := hl.later hidle (by simp [hdown])
  have hph := hl.phase_later hf
  rw [hdown, hup] at hph
  have hstep := Visit.step_enter_leaf hn (hspan ▸ hleaf) hph
  have hworked : Down.takeOn.worked = (c t).down.worked := by rw [hdown]; rfl
  refine h.next_down ht .takeOn (by rw [hdown]; rfl) rfl (.of_done hstep) (by rw [hdown]; rfl) rfl
    (fun u _ _ => .refl s u) h.fits (hnode.leaf_down hleaf hidle hf (by simp) rfl ?_)
    (S.calls_toDown hworked (by rw [hdown]; rfl)) (.inl (by simp [hdown, Down.ahead]))
  exact
    { stage := hl.stage.sink hf hup rfl
      phase := hl.phase_down hidle (by simp) (by rw [hdown]; rfl)
      sum := fun hlast hr _ => hl.sum hlast hr (.inr (by rw [hdown]; rfl))
      work := hl.work_down hworked }

theorem down_takeOn (h : Inv S c (.takeOn t { awake := true, summed := true } ::ₘ rest) s calls)
    (ht : t < S.plan.nodes.size) (hleaf : S.plan.IsLeaf t) (hdown : (c t).down = .takeOn) :
    Goes S c (.takeOn t { awake := true, summed := true }) rest s calls := by
  obtain ⟨n, hn, hspan⟩ := Plan.exists_node ht
  have hnode := h.node t ht
  have hl := hnode.leaf hleaf
  have hidle : (c t).down ≠ .idle := by simp [hdown]
  obtain ⟨hf, hup⟩ := hl.later hidle (by simp [hdown])
  have hph := hl.phase_later hf
  rw [hdown, hup] at hph
  have hstart : n.span.start ≠ 0 := by simpa [Plan.isFirst, hspan] using hf
  have hstep : (Visit.step S.plan (.takeOn t { awake := true, summed := true })).run s =
      .done ([.fetch t .finished],
        s.withPhase t { awake := true, summed := true, finished := true }) := by
    refine (Visit.step_takeOn hn hph).trans ?_
    rw [if_neg (by rintro ⟨⟩), if_neg hstart]
    rfl
  have hworked : Down.fetch.worked = (c t).down.worked := by rw [hdown]; rfl
  refine h.next_down ht .fetch (by rw [hdown]; rfl) rfl (.of_done hstep)
    (by rw [hdown]; rfl) rfl (fun u _ hne => .withPhase _ hne)
    ((Frame.withPhase hn (.refl n.span) _).fits h.fits)
    (hnode.leaf_down hleaf hidle hf (by simp) rfl ?_) (S.calls_toDown hworked (by rw [hdown]; rfl))
    (.inl (by simp [hdown, Down.ahead]))
  exact
    { stage := hl.stage.sink hf hup rfl
      phase := ⟨_, phase_withPhase h.fits hn _, by simp [LeafPhase, hf, hup, Up.early, Down.early]⟩
      sum := fun hlast hr _ => hl.sum hlast hr (.inr (by rw [hdown]; rfl))
      work := (hl.work_down hworked).frame rfl rfl }

/-- What precedes the leaf has been left in its slot. -/
theorem down_fetch (h : Inv S c (.fetch t .finished ::ₘ rest) s calls)
    (ht : t < S.plan.nodes.size) (hleaf : S.plan.IsLeaf t) (hdown : (c t).down = .fetch) :
    Goes S c (.fetch t .finished) rest s calls := by
  have hnode := h.node t ht
  have hl := hnode.leaf hleaf
  have hidle : (c t).down ≠ .idle := by simp [hdown]
  obtain ⟨hf, hup⟩ := hl.later hidle (by simp [hdown])
  have hworked : Down.sweep.worked = (c t).down.worked := by rw [hdown]; rfl
  refine h.next_down ht .sweep (by rw [hdown]; rfl) rfl
    (.of_done (Visit.step_fetch (hnode.carry hf hidle))) (by rw [hdown]; rfl) rfl
    (fun u _ _ => .refl s u) h.fits (hnode.leaf_down hleaf hidle hf (by simp) rfl ?_)
    (S.calls_toDown hworked (by rw [hdown]; rfl)) (.inl (by simp [hdown, Down.ahead]))
  exact
    { stage := hl.stage.sink hf hup rfl
      phase := hl.phase_down hidle (by simp) (by rw [hdown]; rfl)
      sum := fun hlast hr _ => hl.sum hlast hr (.inr (by rw [hdown]; rfl))
      work := hl.work_down hworked }

theorem down_sweep (h : Inv S c (.sweep t .finished (some (S.carry t)) ::ₘ rest) s calls)
    (ht : t < S.plan.nodes.size) (hleaf : S.plan.IsLeaf t) (hdown : (c t).down = .sweep) :
    Goes S c (.sweep t .finished (some (S.carry t))) rest s calls := by
  obtain ⟨n, hn, hspan⟩ := Plan.exists_node ht
  have hnode := h.node t ht
  have hl := hnode.leaf hleaf
  have hidle : (c t).down ≠ .idle := by simp [hdown]
  obtain ⟨hf, hup⟩ := hl.later hidle (by simp [hdown])
  have hunswept : S.plan.swept t (c t) = false := by rw [Plan.swept, hf, hdown]; rfl
  have hswept : S.plan.swept t ((c t).toDown .leave) = true := by rw [Plan.swept, hf]; rfl
  obtain ⟨xs, hread, hxs⟩ := hl.read h.fits hn hspan hunswept
  have hsweep : Returns S.op (Scan.sweep (some (S.carry t)) xs.toList) (S.swept t)
      (S.sweepCalls t) := by
    obtain ⟨g, hg, hcarry⟩ := S.before_of_not_first ht hf
    have := S.returns_sweep_leaf ht hleaf
    rwa [hg, Option.map_some, ← hcarry, ← hxs] at this
  have hlen : (S.swept t).length = (S.plan.span t).len := S.length_swept
  have hstep : Returns S.op ((Visit.step S.plan (.sweep t .finished (some (S.carry t)))).run s)
      ([.leave t .finished (S.swept t).getLast?],
        s.withSwept t (S.plan.span t).start (S.swept t)) (S.sweepCalls t) := by
    rw [Visit.step_sweep hn hread, hspan]
    exact hsweep.bind_done rfl
  have hbounds : (S.plan.span t).stop ≤ s.cells.size := h.fits.cells ▸ S.family.stop_le ht
  refine h.next_down ht .leave (by rw [hdown]; rfl) rfl hstep (by rw [hdown]; rfl) rfl
    (fun u hu hne => .swept ht hleaf hu hlen hne) ((Frame.withSwept hlen).fits h.fits)
    (hnode.leaf_down hleaf hidle hf (by simp) rfl ?_) ?_ (.inl (by simp [hdown, Down.ahead]))
  · exact
      { stage := hl.stage.sink hf hup rfl
        phase := hl.phase_down hidle (by simp) (by rw [hdown]; rfl)
        sum := fun hlast hr _ => hl.sum hlast hr (.inr (by rw [hdown]; rfl))
        work := by
          rw [hswept]
          refine ⟨segment_withSwept hlen hbounds, ?_⟩
          rw [events_withSwept, hl.work.log, hunswept, if_pos rfl]
          simp [Plan.summed] }
  · rw [Setting.calls, Setting.calls, if_pos hleaf, if_pos hleaf, hswept, hunswept]
    simp [Setting.leafCalls, Plan.summed]

/-- The slot of the sum is written once more; nobody reads it now. -/
theorem down_leave (h : Inv S c (.leave t .finished (S.swept t).getLast? ::ₘ rest) s calls)
    (ht : t < S.plan.nodes.size) (hleaf : S.plan.IsLeaf t) (hdown : (c t).down = .leave) :
    Goes S c (.leave t .finished (S.swept t).getLast?) rest s calls := by
  obtain ⟨n, hn, hspan⟩ := Plan.exists_node ht
  have hnode := h.node t ht
  have hl := hnode.leaf hleaf
  have hidle : (c t).down ≠ .idle := by simp [hdown]
  obtain ⟨hf, hup⟩ := hl.later hidle (by simp [hdown])
  have hworked : Down.climb.worked = (c t).down.worked := by rw [hdown]; rfl
  refine h.next_down ht .climb (by rw [hdown]; rfl) rfl (.of_done (Visit.step_leave _))
    (by rw [hdown]; rfl) rfl (fun u _ hne => .withSum _ hne)
    ((Frame.withSum hn (.refl n.span) _).fits h.fits)
    (hnode.leaf_down hleaf hidle hf (by simp) rfl ?_)
    (S.calls_leaf_eq hleaf rfl (Plan.swept_toDown hworked)) (.inl (by simp [hdown, Down.ahead]))
  exact
    { stage := hl.stage.sink hf hup rfl
      phase := hl.phase_down hidle (by simp) (by rw [hdown]; rfl)
      sum := fun _ _ hor => by
        rw [hf] at hor
        rcases hor with h | h <;> cases h
      work := (hl.work_down hworked).frame rfl rfl }

end Inv

end ForkJoin.Scan
