import ForkJoin.Proofs.Scan.ClimbSteps

/-!
# Steps on the way down

In the first pass a visit goes down to both halves of a node. In the second one it leaves with each
half what precedes it, and then wakes both; a half at the very start was woken before, when its
children were summed. What a visit needs on its way is there: the sum of the left half, which stays
until the half is swept, and what precedes the node.
-/
namespace ForkJoin.Scan

open Calling Store

variable {α : Type}

namespace Holds

variable {S : Setting α} {s s' : Store α} {t : Nat} {a : Stage} {l r : Face}

/-- The first pass comes to a node that is not the root. -/
theorem arrive (h : Holds S s t a l r) (ht : t ≠ 0) (hup : a.up = .idle) :
    Holds S s t (a.toUp .enter) l r where
  sound := ⟨by simp, h.sound.finished, by simp, h.sound.later⟩
  root h0 := absurd h0 ht
  carry := h.carry
  leaf hleaf :=
    have hl := h.leaf hleaf
    { stage := hl.stage.rise (by simp [hup]) (by simp) (by simp) (by simp) (by simp)
      phase := hl.phase_up (by rw [hup]; rfl)
      sum := fun _ => by rintro ⟨⟩
      work := hl.work_up (by rw [hup]; rfl) }
  cut hcut :=
    have hc := h.cut hcut
    { linked := hc.linked.arrive hup
      phase := hc.phase
      sum := fun hlast hor => hc.sum hlast (.inr (hor.resolve_left (by rintro ⟨⟩)))
      left_carry := hc.left_carry
      right_carry := hc.right_carry }

/-- The slot of what precedes a node can be filled before the second pass comes to it. -/
theorem spare (h : Holds S s t a l r) (hdown : S.plan.isFirst t = false → a.down = .idle)
    (hsame : ∀ u, u ≠ t → s'.carries[u]? = s.carries[u]?) (hkids : ¬ S.plan.IsLeaf t →
      (S.plan.kids t).1 ≠ t ∧ (S.plan.kids t).2 ≠ t) (hphases : s'.phases = s.phases)
    (hsums : s'.sums = s.sums) (hcells : s'.cells = s.cells) (hlog : s'.log = s.log)
    (hcompleted : s'.completed = s.completed) : Holds S s' t a l r where
  sound := h.sound
  root h0 := by rw [hcompleted]; exact h.root h0
  carry hf hne := absurd (hdown hf) hne
  leaf hleaf :=
    have hl := h.leaf hleaf
    { stage := hl.stage
      phase := by rw [hphases]; exact hl.phase
      sum := by rw [hsums]; exact hl.sum
      work := hl.work.frame hcells hlog }
  cut hcut :=
    have hc := h.cut hcut
    { linked := hc.linked
      phase := by rw [hphases]; exact hc.phase
      sum := by rw [hsums]; exact hc.sum
      left_carry := by rw [hsame _ (hkids hcut).1]; exact hc.left_carry
      right_carry := by rw [hsame _ (hkids hcut).2]; exact hc.right_carry }

/-- The first pass goes down from a node to both children. -/
theorem descend (h : Holds S s t a l r) (hcut : ¬ S.plan.IsLeaf t) (hup : a.up = .enter) :
    Holds S s t (a.toUp .below) { l with up := .busy } { r with up := .busy } where
  sound := { h.sound with summed := by simp, right := by simp }
  root h0 := (h.root h0).rise (by simp) rfl
  carry := h.carry
  leaf hleaf := absurd hleaf hcut
  cut hcut :=
    have hc := h.cut hcut
    have hidle := hc.linked.before (.inr hup)
    { linked := hc.linked.descend hup
      phase := by
        rw [hc.phase, cutPhase, cutPhase, hidle.1, hidle.2]
        rfl
      sum := by rintro _ (h | h | h) <;> cases h
      left_carry := hc.left_carry
      right_carry := hc.right_carry }

/-- The second pass tells the children of a node what precedes them. -/
theorem hand {down : Down} (h : Holds S s t a l r) (hcut : ¬ S.plan.IsLeaf t)
    (hfresh : a.down.fresh = true) (hidle : a.down ≠ .idle) (hfresh' : down.fresh = true)
    (hnext : down ≠ .idle ∧ down ≠ .called)
    (hlater : down = .addCarry ∨ down = .giveLeft → S.plan.isFirst t = false)
    (hcompleted : s'.completed = s.completed) (hphase : s'.phases[t]? = s.phases[t]?)
    (hsum : s'.sums[t]? = s.sums[t]?) (hcarry : s'.carries[t]? = s.carries[t]?)
    (hleft : S.plan.isFirst t = false → down.gaveLeft = true →
      s'.carries[(S.plan.kids t).1]? = some (some (S.carry (S.plan.kids t).1)))
    (hright : down = .wakeRight →
      s'.carries[(S.plan.kids t).2]? = some (some (S.carry (S.plan.kids t).2))) :
    Holds S s' t (a.toDown down) l r := by
  have hc := h.cut hcut
  obtain ⟨htold, hdeliver⟩ := Down.ne_told_of_fresh hfresh'
  refine h.cut_down hcut hidle (Down.ne_told_of_fresh hfresh).1 ⟨hnext.2, htold⟩ hdeliver hlater
    hcompleted hcarry ?_
  exact
    { linked := hc.linked.hand hfresh hfresh' hnext.1 (fun hf => hc.linked.awake_later hf hidle)
        fun _ => ⟨hidle, hnext.2⟩
      phase := by
        rw [hphase, hc.phase, cutPhase, cutPhase, Stage.toDown_down, bne_iff_ne.2 hidle,
          bne_iff_ne.2 hnext.1]
      sum := by rw [hsum]; exact hc.sum
      left_carry := hleft
      right_carry := hright }

end Holds

namespace Inv

variable {S : Setting α} {c : Nat → Stage} {s : Store α} {pool rest : Multiset (Visit α)}
  {calls : List (α × α)} {p l r t : Nat}

/-! ## The first pass -/

theorem up_enter_cut (h : Inv S c (.enter t ::ₘ rest) s calls) (hcut : S.plan.Cut t l r)
    (hup : (c t).up = .enter) : Goes S c (.enter t) rest s calls := by
  obtain ⟨n, hn, hlong, hc, _⟩ := hcut.node
  have hnode := h.node t hcut.lt_size
  rw [Setting.HoldsAt, hcut.kids_eq] at hnode
  have hp := h.cut hcut
  have hlt := hcut.lt_child S.family (.inl rfl)
  have hrt := hcut.lt_child S.family (.inr rfl)
  obtain ⟨hl, hr⟩ := hp.linked.before (.inr hup)
  have hidle : (c t).down = .idle := hp.linked.down_idle (.inl (by simp [hl]))
  have hl' : (c l).up = .idle := Up.face_eq_idle.1 hl
  have hr' : (c r).up = .idle := Up.face_eq_idle.1 hr
  have hstep : (Visit.step S.plan (.enter t)).run s = .done ([.enter l, .enter r], s) := by
    rw [Visit.step_enter_split hn hlong hc hp.phase, cutPhase, hidle]
    rfl
  refine h.next_kids hcut ((c t).toUp .below) ((c l).toUp .enter) ((c r).toUp .enter) 0
    (.of_done hstep) ⟨by rw [hup]; rfl, rfl⟩ rfl (fun u _ _ _ _ => .refl s u) h.fits
    (hnode.descend hcut.not_leaf hup)
    ((h.node l hcut.left_lt_size).arrive (by omega) hl')
    ((h.node r hcut.right_lt_size).arrive (by omega) hr')
    ⟨by simp [hup], by simp [hl'], by simp [hr']⟩ (by simp) ?walk ?calls
    (fun _ => ⟨id, id, id⟩) (.inl (by simp +arith [Stage.ahead, Up.ahead, hup, hl', hr']))
  case walk =>
    rw [S.walkers_up_gone .below (by rw [hup]; rfl) rfl,
      S.walkers_up_new .enter (by rw [hl']; rfl) rfl,
      S.walkers_up_new .enter (by rw [hr']; rfl) rfl]
    simp only [← Multiset.cons_coe, Multiset.coe_nil, ← Multiset.singleton_add]
    abel
  case calls =>
    rw [S.calls_toUp (by rw [hup]; rfl), S.calls_toUp (by rw [hl']; rfl),
      S.calls_toUp (by rw [hr']; rfl), Multiset.coe_nil]
    abel

/-! ## The second pass -/

theorem down_enter_cut (h : Inv S c (.enter t ::ₘ rest) s calls) (hcut : S.plan.Cut t l r)
    (hdown : (c t).down = .enter) : Goes S c (.enter t) rest s calls := by
  obtain ⟨n, hn, hlong, hc, _⟩ := hcut.node
  have hstep : (Visit.step S.plan (.enter t)).run s = .done ([.handDown t], s) := by
    rw [Visit.step_enter_split hn hlong hc (h.cut hcut).phase, cutPhase, hdown]
    rfl
  exact h.next_down hcut.lt_size .handDown (by rw [hdown]; rfl) rfl (.of_done hstep)
    (by rw [hdown]; rfl) rfl (fun u _ _ => .refl s u) h.fits
    ((h.node t hcut.lt_size).hand hcut.not_leaf (by rw [hdown]; rfl) (by simp [hdown]) rfl
      (by simp) (by simp) rfl rfl rfl rfl (by rintro _ ⟨⟩) (by simp))
    (S.calls_toDown_cut hcut.not_leaf (by rw [hdown]; rfl)) (.inl (by simp [hdown, Down.ahead]))

/-- The sum of the left half is there. It is what precedes the right half of a first node. -/
theorem down_handDown (h : Inv S c (.handDown t ::ₘ rest) s calls) (hcut : S.plan.Cut t l r)
    (hdown : (c t).down = .handDown) : Goes S c (.handDown t) rest s calls := by
  obtain ⟨n, hn, _, hc, hspan⟩ := hcut.node
  have hnode := h.node t hcut.lt_size
  have hfresh : (c t).down.fresh = true := by rw [hdown]; rfl
  have hidle : (c t).down ≠ .idle := by simp [hdown]
  have hl : (c l).up = .told := Plan.face_up_told ((h.cut hcut).linked.both_told hidle).1
  have hx := h.sum_child hcut (.inl rfl) hfresh (by rw [hl]; rfl) (hcut.isLast_left S.family)
  have hstep := Visit.step_handDown hn hc hx
  cases hf : S.plan.isFirst t with
  | true =>
    have hstart : n.span.start = 0 := by
      rw [hspan]
      simpa [Plan.isFirst] using hf
    have hcarry : S.carry (S.plan.kids t).2 = S.sum l := by
      rw [hcut.kids_eq, S.carry_right_of_first hcut hf]
    rw [if_pos hstart, ← hcarry] at hstep
    refine h.next_down hcut.lt_size .giveRight (by rw [hdown]; rfl) rfl (.of_done hstep)
      (by rw [hdown]; rfl) rfl (fun u _ _ => .refl s u) h.fits
      (hnode.hand hcut.not_leaf hfresh hidle rfl (by simp) (by simp) rfl rfl rfl rfl
        (fun hf' => by rw [hf] at hf'; cases hf') (by simp)) ?_ (.inl (by simp [hdown, Down.ahead]))
    rw [Setting.calls, Setting.calls, if_neg hcut.not_leaf, if_neg hcut.not_leaf, hf,
      Multiset.coe_nil, add_zero]
    rfl
  | false =>
    have hstart : n.span.start ≠ 0 := by
      rw [hspan]
      simpa [Plan.isFirst] using hf
    have hsum : S.sum (S.plan.kids t).1 = S.sum l := by rw [hcut.kids_eq]
    rw [if_neg hstart, ← hsum] at hstep
    exact h.next_down hcut.lt_size .addCarry (by rw [hdown]; rfl) rfl (.of_done hstep)
      (by rw [hdown]; rfl) rfl (fun u _ _ => .refl s u) h.fits
      (hnode.hand hcut.not_leaf hfresh hidle rfl (by simp) (fun _ => hf) rfl rfl rfl rfl
        (fun _ => by rintro ⟨⟩) (by rintro ⟨⟩))
      (S.calls_toDown_cut hcut.not_leaf (by rw [hdown]; rfl)) (.inl (by simp [hdown, Down.ahead]))

/-- What precedes the node and the sum of its left half are added up. -/
theorem down_addCarry (h : Inv S c (.addCarry t (S.sum (S.plan.kids t).1) ::ₘ rest) s calls)
    (hcut : S.plan.Cut t l r) (hdown : (c t).down = .addCarry) :
    Goes S c (.addCarry t (S.sum (S.plan.kids t).1)) rest s calls := by
  have hnode := h.node t hcut.lt_size
  have hidle : (c t).down ≠ .idle := by simp [hdown]
  have hf := hnode.sound.later (.inl hdown)
  have hstep : Returns S.op ((Visit.step S.plan (.addCarry t (S.sum (S.plan.kids t).1))).run s)
      ([.giveLeft t (S.carry t) (S.carry (S.plan.kids t).2)], s)
      [(S.carry t, S.sum (S.plan.kids t).1)] := by
    rw [Visit.step_addCarry (hnode.carry hf hidle), hcut.kids_eq, S.carry_right hcut hf]
    exact .call .done
  refine h.next_down hcut.lt_size .giveLeft (by rw [hdown]; rfl) rfl hstep (by rw [hdown]; rfl) rfl
    (fun u _ _ => .refl s u) h.fits
    (hnode.hand hcut.not_leaf (by rw [hdown]; rfl) hidle rfl (by simp) (fun _ => hf) rfl rfl
      rfl rfl (fun _ => by rintro ⟨⟩) (by rintro ⟨⟩)) ?_ (.inl (by simp [hdown, Down.ahead]))
  rw [Setting.calls, Setting.calls, if_neg hcut.not_leaf, if_neg hcut.not_leaf, Setting.cutCalls,
    Setting.cutCalls, hdown, hf]
  simp only [Stage.toDown_down, Down.added, Bool.not_false, Bool.and_true, Bool.and_false, if_true,
    Bool.false_eq_true, if_false, zero_add, Multiset.coe_singleton]
  rw [add_comm]
  rfl

/-- A child into whose slot something is put stays as it is. -/
theorem spare_child {x : α} (h : Inv S c pool s calls) (hcut : S.plan.Cut p l r)
    (ht : t = l ∨ t = r) (hfresh : (c p).down.fresh = true) :
    Holds S (s.withCarry t x) t (c t) (S.plan.face c (S.plan.kids t).1)
      (S.plan.face c (S.plan.kids t).2) := by
  have hold := (h.cut hcut).linked.fresh hfresh
  refine (h.node t (hcut.child_lt_size ht)).spare (fun hf => ?_)
    (fun u hu => (same_withCarry x hu).carries) (fun hleaf => ?_) rfl rfl rfl rfl rfl
  · refine Plan.face_down_idle hf ?_
    rcases ht with rfl | rfl
    · exact hold.2 (hcut.isFirst_left ▸ hf)
    · exact hold.1
  · obtain ⟨l', r', hcut'⟩ := S.family.exists_cut (hcut.child_lt_size ht) hleaf
    have hl := hcut'.lt_child S.family (.inl rfl)
    have hr := hcut'.lt_child S.family (.inr rfl)
    rw [hcut'.kids_eq]
    exact ⟨by omega, by omega⟩

/-- Something is put into the slot of a child. -/
theorem next_give {x : α} {v w : Visit α} (h : Inv S c (v ::ₘ rest) s calls)
    (hcut : S.plan.Cut p l r) (ht : t = l ∨ t = r) (down : Down)
    (hdown : (c p).down = .giveLeft ∨ (c p).down = .giveRight)
    (hdown' : down = .giveRight ∨ down = .wakeRight) (hless : down.ahead < (c p).down.ahead)
    (hv : S.downWalker p (c p).down = {v}) (hw : S.downWalker p down = {w})
    (hstep : (Visit.step S.plan v).run s = .done ([w], s.withCarry t x))
    (hleft : S.plan.isFirst p = false →
      (s.withCarry t x).carries[l]? = some (some (S.carry l)))
    (hright : down = .wakeRight → (s.withCarry t x).carries[r]? = some (some (S.carry r))) :
    Goes S c v rest s calls := by
  obtain ⟨n, hn, _⟩ := Plan.exists_node (hcut.child_lt_size ht)
  have hlt := hcut.lt_child S.family ht
  have hold : (c p).down.fresh = true ∧ (c p).down ≠ .idle ∧ (c p).down.face = .busy ∧
      (c p).down.added = true := by
    rcases hdown with hdown | hdown <;> rw [hdown] <;> exact ⟨rfl, by simp, rfl, rfl⟩
  have hnew : down.fresh = true ∧ (down ≠ .idle ∧ down ≠ .called) ∧ down.face = .busy ∧
      down.added = true ∧ ¬ (down = .addCarry ∨ down = .giveLeft) := by
    rcases hdown' with rfl | rfl <;>
      exact ⟨rfl, ⟨by simp, by simp⟩, rfl, rfl, by simp⟩
  obtain ⟨hfresh, hidle, hface, hadded⟩ := hold
  obtain ⟨hfresh', hnext, hface', hadded', hnot⟩ := hnew
  have hsame : ∀ u, u ≠ t → Near S s (s.withCarry t x) u := fun u hu => .withCarry x hu
  have hparent := h.node p hcut.lt_size
  rw [Setting.HoldsAt, hcut.kids_eq] at hparent
  refine h.next_two hcut ht (c t) ((c p).toDown down) (.of_done hstep)
    ⟨rfl, by rw [Stage.toDown_down, hface, hface']⟩ (hsame p (by omega)).carries
    (fun u _ hu _ => hsame u hu) ((Frame.withCarry hn (.refl n.span) x).fits h.fits)
    (h.spare_child hcut ht hfresh) ?parent id id ?walk ?calls (fun _ => ⟨id, id⟩) (.inl ?ahead)
  case parent =>
    rw [Function.update_eq_self]
    exact hparent.hand hcut.not_leaf hfresh hidle hfresh' hnext (fun hor => absurd hor hnot) rfl
      rfl rfl (hsame p (by omega)).carries (by rw [hcut.kids_eq]; exact fun hf _ => hleft hf)
      (by rw [hcut.kids_eq]; exact hright)
  case walk =>
    rw [Multiset.coe_singleton, Multiset.singleton_add, ← Multiset.add_cons,
      S.walkers_down_on down hv hw, Multiset.add_cons]
  case calls =>
    rw [S.calls_toDown_cut hcut.not_leaf (hadded'.trans hadded.symm), Multiset.coe_nil]
    abel
  case ahead =>
    change (c t).ahead + ((c p).up.ahead + down.ahead) + 1 ≤
      (c t).ahead + ((c p).up.ahead + (c p).down.ahead)
    omega

/-- What precedes a node precedes its left half. -/
theorem down_giveLeft
    (h : Inv S c (.giveLeft t (S.carry t) (S.carry (S.plan.kids t).2) ::ₘ rest) s calls)
    (hcut : S.plan.Cut t l r) (hdown : (c t).down = .giveLeft) :
    Goes S c (.giveLeft t (S.carry t) (S.carry (S.plan.kids t).2)) rest s calls := by
  obtain ⟨n, hn, _, hc, _⟩ := hcut.node
  obtain ⟨nl, hnl, _⟩ := Plan.exists_node hcut.left_lt_size
  refine h.next_give hcut (.inl rfl) .giveRight (.inl hdown) (.inl rfl)
    (by simp [hdown, Down.ahead]) (by rw [hdown]; rfl) rfl (Visit.step_giveLeft hn hc)
    (fun _ => ?_) (by simp)
  rw [carry_withCarry h.fits hnl, S.carry_left hcut]

/-- What precedes the right half has been added up. -/
theorem down_giveRight (h : Inv S c (.giveRight t (S.carry (S.plan.kids t).2) ::ₘ rest) s calls)
    (hcut : S.plan.Cut t l r) (hdown : (c t).down = .giveRight) :
    Goes S c (.giveRight t (S.carry (S.plan.kids t).2)) rest s calls := by
  obtain ⟨n, hn, _, hc, _⟩ := hcut.node
  obtain ⟨nr, hnr, _⟩ := Plan.exists_node hcut.right_lt_size
  have hp := (h.node t hcut.lt_size).cut hcut.not_leaf
  refine h.next_give hcut (.inr rfl) .wakeRight (.inr hdown) (.inr rfl)
    (by simp [hdown, Down.ahead]) (by rw [hdown]; rfl) rfl (Visit.step_giveRight hn hc)
    (fun hf => ?_) (fun _ => ?_)
  · have := hp.left_carry hf (by rw [hdown]; rfl)
    rwa [hcut.kids_eq, ← (same_withCarry _ (hcut.left_ne_right S.family)).carries] at this
  · rw [carry_withCarry h.fits hnr, hcut.kids_eq]

end Inv

/-! ## Waking -/

namespace Holds

variable {S : Setting α} {s : Store α} {t : Nat} {a : Stage} {l r : Face}

/-- A node that is not a first one is woken, once it has been left what precedes it. -/
theorem wake {down : Down} (h : Holds S s t a l r) (ht : t < S.plan.nodes.size) (ht0 : t ≠ 0)
    (hf : S.plan.isFirst t = false) (hup : a.up = .told) (hidle : a.down = .idle)
    (hcarry : s.carries[t]? = some (some (S.carry t)))
    (hdown : down = .called ∨ down = .enter) (hfits : s.Fits S.plan) :
    ∃ ph, s.phases[t]? = some ph ∧ ph.awake = false ∧
      Holds S (s.withPhase t { ph with awake := true }) t (a.toDown down) l r := by
  obtain ⟨n, hn, _⟩ := Plan.exists_node ht
  have hnew : down ≠ .idle ∧ down.fresh = true ∧ down.early = true ∧ down.atCut = false ∧
      down.gaveLeft = false ∧ down.worked = false ∧ down ≠ .wakeRight ∧
      ¬ (down = .addCarry ∨ down = .giveLeft) := by
    rcases hdown with rfl | rfl <;> exact ⟨by simp, rfl, rfl, rfl, rfl, rfl, by simp, by simp⟩
  obtain ⟨hne, hfresh, hearly, hcutd, hgave, hworked, hwake, hnot⟩ := hnew
  have hold : ∃ ph, s.phases[t]? = some ph ∧ ph.awake = false ∧
      (S.plan.IsLeaf t → LeafPhase (S.plan.isFirst t) (a.toDown down) { ph with awake := true }) ∧
      (¬ S.plan.IsLeaf t → { ph with awake := true } = cutPhase (a.toDown down) l r) := by
    by_cases hleaf : S.plan.IsLeaf t
    · refine ⟨_, (h.leaf hleaf).phase_later hf, by rw [hidle]; rfl, fun _ => ?_,
        fun hcut => absurd hleaf hcut⟩
      rw [LeafPhase, if_neg (by simp [hf]), Stage.toDown_up, Stage.toDown_down, hidle, hearly,
        bne_iff_ne.2 hne]
      rfl
    · refine ⟨_, (h.cut hleaf).phase, by rw [cutPhase, hidle]; rfl, fun hl => absurd hl hleaf,
        fun _ => ?_⟩
      rw [cutPhase, cutPhase, Stage.toDown_down, bne_iff_ne.2 hne]
  obtain ⟨ph, hph, hasleep, hleafph, hcutph⟩ := hold
  refine ⟨ph, hph, hasleep, ?_⟩
  exact
    { sound :=
        { h.sound with
          finished := fun seen hd => absurd hd ((Down.ne_told_of_fresh hfresh).2 seen)
          later := fun hd => absurd hd hnot }
      root := fun h0 => absurd h0 ht0
      carry := fun _ _ => hcarry
      leaf := fun hleaf =>
        have hl := h.leaf hleaf
        { stage := hl.stage.sink hf hup hcutd
          phase := ⟨_, phase_withPhase hfits hn _, hleafph hleaf⟩
          sum := fun hlast hr _ => hl.sum hlast hr (.inr (by rw [hidle]; rfl))
          work := (hl.work_down (by rw [hidle, hworked]; rfl)).frame rfl rfl }
      cut := fun hcut =>
        have hc := h.cut hcut
        { linked := hc.linked.hand (by rw [hidle]; rfl) hfresh hne (fun _ => hup)
            (fun hf' => by rw [hf] at hf'; cases hf')
          phase := by rw [phase_withPhase hfits hn, hcutph hcut]
          sum := hc.sum
          left_carry := fun _ hg => by
            rw [Stage.toDown_down, hgave] at hg
            cases hg
          right_carry := fun hd => absurd hd hwake } }

/-- The visit of a node that was woken is forked. -/
theorem start (h : Holds S s t a l r) (ht0 : t ≠ 0) (hf : S.plan.isFirst t = false)
    (hdown : a.down = .called) : Holds S s t (a.toDown .enter) l r :=
  have hidle : a.down ≠ .idle := by simp [hdown]
  { sound := { h.sound with finished := by simp, later := by simp }
    root := fun h0 => absurd h0 ht0
    carry := fun hf _ => h.carry hf hidle
    leaf := fun hleaf =>
      have hl := h.leaf hleaf
      { stage := hl.stage.sink hf (hl.stage.down_later hf hidle) rfl
        phase := hl.phase_down hidle (by simp) (by rw [hdown]; rfl)
        sum := fun hlast hr _ => hl.sum hlast hr (.inr (by rw [hdown]; rfl))
        work := hl.work_down (by rw [hdown]; rfl) }
    cut := fun hcut =>
      have hc := h.cut hcut
      { linked := hc.linked.hand (by rw [hdown]; rfl) rfl (by simp)
          (fun hf => hc.linked.awake_later hf hidle) (fun hf' => by rw [hf] at hf'; cases hf')
        phase := by
          rw [hc.phase, cutPhase, cutPhase, hdown]
          rfl
        sum := hc.sum
        left_carry := fun _ => by rintro ⟨⟩
        right_carry := by rintro ⟨⟩ } }

/-- A node wakes its right half. -/
theorem wake_right (h : Holds S s t a l r) (hcut : ¬ S.plan.IsLeaf t)
    (hdown : a.down = .wakeRight) :
    Holds S s t (a.toDown .wakeLeft) l { r with down := .called } := by
  have hc := h.cut hcut
  have hidle : r.down = .idle := (hc.linked.fresh (by rw [hdown]; rfl)).1
  refine h.cut_down hcut (by simp [hdown]) (by simp [hdown]) (by simp) (by simp) (by simp) rfl rfl
    ?_
  exact
    { linked := hc.linked.wake_right hdown
      phase := by
        rw [hc.phase, cutPhase, cutPhase, hdown, hidle]
        rfl
      sum := hc.sum
      left_carry := fun hf _ => hc.left_carry hf (by rw [hdown]; rfl)
      right_carry := by simp }

/-- A node wakes its left half as well, if it did not wake by itself, and both visits are forked. -/
theorem wake_left {down : Down.Face} (h : Holds S s t a l r) (hcut : ¬ S.plan.IsLeaf t)
    (hdown : a.down = .wakeLeft) (hshown : down = .busy ∨ down = .told)
    (hfirst : S.plan.isFirst t = true → down = l.down)
    (htold : (down == .told) = (l.down == .told)) :
    Holds S s t (a.toDown .below) { l with down := down } { r with down := .busy } := by
  have hc := h.cut hcut
  have hcalled : r.down = .called := (hc.linked.waking hdown).1
  refine h.cut_down hcut (by simp [hdown]) (by simp [hdown]) (by simp) (by simp) (by simp) rfl rfl
    ?_
  exact
    { linked := hc.linked.wake_left hdown hshown hfirst
      phase := by
        rw [hc.phase, cutPhase, cutPhase, hdown, hcalled, htold]
        rfl
      sum := hc.sum
      left_carry := by rintro _ ⟨⟩
      right_carry := by rintro ⟨⟩ }

end Holds

namespace Inv

variable {S : Setting α} {c : Nat → Stage} {s : Store α} {rest : Multiset (Visit α)}
  {calls : List (α × α)} {l r t : Nat}

theorem down_wakeRight (h : Inv S c (.wakeRight t ::ₘ rest) s calls) (hcut : S.plan.Cut t l r)
    (hdown : (c t).down = .wakeRight) : Goes S c (.wakeRight t) rest s calls := by
  obtain ⟨n, hn, _, hc, _⟩ := hcut.node
  obtain ⟨nr, hnr, _⟩ := Plan.exists_node hcut.right_lt_size
  have hlt := hcut.lt_child S.family (.inr rfl)
  have hnode := h.node t hcut.lt_size
  have hp := h.cut hcut
  have hf := hcut.isFirst_right S.family
  have hr : (c r).up = .told :=
    Plan.face_up_told (hp.linked.both_told (by simp [hdown])).2
  have hidle : (c r).down = .idle :=
    Plan.face_down_idle hf (hp.linked.fresh (by rw [hdown]; rfl)).1
  have hcarry : s.carries[r]? = some (some (S.carry r)) := by
    have := (hnode.cut hcut.not_leaf).right_carry hdown
    rwa [hcut.kids_eq] at this
  obtain ⟨ph, hph, hasleep, hwoken⟩ := (h.node r hcut.right_lt_size).wake hcut.right_lt_size
    (by omega) hf hr hidle hcarry (.inl rfl) h.fits
  have hstep : (Visit.step S.plan (.wakeRight t)).run s =
      .done ([.wakeLeft t true], s.withPhase r { ph with awake := true }) := by
    rw [Visit.step_wakeRight hn hc hph, hasleep]
    rfl
  have hsame : ∀ u, u ≠ r → Near S s (s.withPhase r { ph with awake := true }) u :=
    fun u hu => .withPhase _ hu
  refine h.next_two hcut (.inr rfl) ((c r).toDown .called) ((c t).toDown .wakeLeft) (.of_done hstep)
    ⟨rfl, by rw [hdown]; rfl⟩ rfl (fun u _ hu _ => hsame u hu)
    ((Frame.withPhase hnr (.refl nr.span) _).fits h.fits) hwoken ?parent id id ?walk ?calls
    (fun _ => ⟨id, id⟩) (.inl (by simp +arith [Stage.ahead, Down.ahead, hdown, hidle]))
  case parent =>
    have hright : S.plan.face (Function.update c r ((c r).toDown .called)) r =
        { S.plan.face c r with down := .called } := by
      rw [Plan.face_update_self, hf]
      rfl
    rw [Plan.face_update_of_ne (hcut.left_ne_right S.family), hright]
    rw [Setting.HoldsAt, hcut.kids_eq] at hnode
    exact (hnode.wake_right hcut.not_leaf hdown).near_same (hsame t (by omega)) rfl
  case walk =>
    have hwalkers : S.walkers r ((c r).toDown .called) = S.walkers r (c r) := by
      rw [Setting.walkers, Setting.walkers, hidle]
      rfl
    rw [hwalkers, Multiset.coe_singleton, Multiset.singleton_add, ← Multiset.add_cons,
      S.walkers_down_on .wakeLeft (by rw [hdown]; rfl) rfl, Multiset.add_cons]
  case calls =>
    rw [S.calls_toDown (by rw [hidle]; rfl) (by rw [hidle]; rfl),
      S.calls_toDown (by rw [hdown]; rfl) (by rw [hdown]; rfl), Multiset.coe_nil]
    abel

/-- Both children are awake, and the visit of the right one is forked; `extra` is forked besides. -/
theorem next_wakeLeft {s' : Store α} {b : Stage} {left : List (Visit α)}
    (extra new : Multiset (Visit α)) (h : Inv S c (.wakeLeft t true ::ₘ rest) s calls)
    (hcut : S.plan.Cut t l r) (hdown : (c t).down = .wakeLeft)
    (hstep : (Visit.step S.plan (.wakeLeft t true)).run s = .done (left, s'))
    (hleft : (left : Multiset (Visit α)) = extra + {.enter r}) (hextra : extra.card ≤ 1)
    (hnear : ∀ u, u ≠ l → Near S s s' u) (hfits : s'.Fits S.plan) (hcarries : s'.carries = s.carries)
    (hb : S.plan.isFirst t = true ∧ b = c l ∧
        ((S.plan.face c l).down = .busy ∨ (S.plan.face c l).down = .told) ∨
      S.plan.isFirst t = false ∧ b = (c l).toDown .enter)
    (hchild : Holds S s' l b (S.plan.face c (S.plan.kids l).1) (S.plan.face c (S.plan.kids l).2))
    (hnew : ∀ w ∈ new, w = .enter l ∧ S.plan.IsLeaf l ∧ S.plan.isFirst l = true ∧ b.up = .told)
    (hwalk : extra + S.walkers l (c l) = new + S.walkers l b)
    (hcalls : S.calls l b = S.calls l (c l) + ([] : List (α × α))) :
    Goes S c (.wakeLeft t true) rest s calls := by
  have hlt := hcut.lt_child S.family (.inl rfl)
  have hrt := hcut.lt_child S.family (.inr rfl)
  have hne := hcut.left_ne_right S.family
  have hnode := h.node t hcut.lt_size
  rw [Setting.HoldsAt, hcut.kids_eq] at hnode
  have hwaking := (h.cut hcut).linked.waking hdown
  have hf := hcut.isFirst_right S.family
  have hcalled : (c r).down = .called := by
    have := hwaking.1
    rw [Plan.face, hf, Down.Face.shown_false] at this
    exact Down.face_eq_called.1 this
  have hidle : S.plan.isFirst t = false → (c l).down = .idle := fun hlater =>
    Plan.face_down_idle (hcut.isFirst_left.trans hlater) (hwaking.2 hlater)
  have hb' : b.up = (c l).up ∧ (c l).Straight b ∧ b.ahead ≤ (c l).ahead := by
    rcases hb with ⟨_, rfl, _⟩ | ⟨hlater, rfl⟩
    · exact ⟨rfl, id, le_rfl⟩
    · exact ⟨rfl, id, by simp [Stage.ahead, Down.ahead, hidle hlater]⟩
  obtain ⟨hup, hstraight, hless⟩ := hb'
  refine h.next_kids hcut ((c t).toDown .below) b ((c r).toDown .enter) new (.of_done hstep)
    ⟨rfl, by rw [hdown]; rfl⟩ (by rw [hcarries]) (fun u _ _ hu _ => hnear u hu) hfits ?node hchild
    (((h.node r hcut.right_lt_size).start (by omega) hf hcalled).near_same (hnear r hne.symm)
      hcarries)
    ⟨id, fun htold => hup.trans htold, id⟩ hnew ?walk ?calls (fun _ => ⟨id, hstraight, id⟩)
    (.inl ?ahead)
  case node =>
    have hface : b.up.face = (S.plan.face c l).up := by rw [Plan.face, hup]
    rw [hface, hf]
    refine (hnode.wake_left hcut.not_leaf hdown ?_ ?_ ?_).near_same (hnear t (by omega)) hcarries
    · rcases hb with ⟨_, rfl, hshown⟩ | ⟨_, rfl⟩
      · exact hshown
      · exact .inl rfl
    · intro hfirst
      rcases hb with ⟨_, rfl, _⟩ | ⟨hlater, _⟩
      · rfl
      · rw [hlater] at hfirst
        cases hfirst
    · rcases hb with ⟨_, rfl, _⟩ | ⟨hlater, rfl⟩
      · rfl
      · rw [hwaking.2 hlater]
        rfl
  case walk =>
    calc (left : Multiset (Visit α)) + (S.walkers t (c t) + (S.walkers l (c l) + S.walkers r (c r)))
        = extra + S.walkers l (c l) + ({.enter r} + (S.walkers t (c t) + S.walkers r (c r))) := by
          rw [hleft]; abel
      _ = _ := by
          rw [hwalk, S.walkers_down_new .enter (by rw [hcalled]; rfl) rfl,
            S.walkers_down_gone (t := t) (a := c t) .below (by rw [hdown]; rfl) rfl]
          simp only [← Multiset.singleton_add]
          abel
  case calls =>
    rw [hcalls, S.calls_toDown (by rw [hdown]; rfl) (by rw [hdown]; rfl),
      S.calls_toDown (by rw [hcalled]; rfl) (by rw [hcalled]; rfl), Multiset.coe_nil]
    abel
  case ahead =>
    have hlength : left.length ≤ 2 := by
      rw [← Multiset.coe_card, hleft, Multiset.card_add, Multiset.card_singleton]
      omega
    have hnow : ((c t).toDown .below).ahead + 1 = (c t).ahead ∧
        ((c r).toDown .enter).ahead + 1 = (c r).ahead := by
      simp [Stage.ahead, Down.ahead, hdown, hcalled]
    omega

/-- The left child slept, as what precedes it was not known before. -/
theorem wakeLeft_later (h : Inv S c (.wakeLeft t true ::ₘ rest) s calls) (hcut : S.plan.Cut t l r)
    (hdown : (c t).down = .wakeLeft) (hl : (c l).up = .told) (hf : S.plan.isFirst t = false) :
    Goes S c (.wakeLeft t true) rest s calls := by
  obtain ⟨n, hn, _, hc, _⟩ := hcut.node
  obtain ⟨nl, hnl, _⟩ := Plan.exists_node hcut.left_lt_size
  have hlt := hcut.lt_child S.family (.inl rfl)
  have hf' : S.plan.isFirst l = false := hcut.isFirst_left.trans hf
  have hidle : (c l).down = .idle :=
    Plan.face_down_idle hf' (((h.cut hcut).linked.waking hdown).2 hf)
  have hcarry : s.carries[l]? = some (some (S.carry l)) := by
    have := ((h.node t hcut.lt_size).cut hcut.not_leaf).left_carry hf (by rw [hdown]; rfl)
    rwa [hcut.kids_eq] at this
  obtain ⟨ph, hph, hasleep, hwoken⟩ := (h.node l hcut.left_lt_size).wake hcut.left_lt_size
    (by omega) hf' hl hidle hcarry (.inr rfl) h.fits
  have hstep : (Visit.step S.plan (.wakeLeft t true)).run s =
      .done ([.enter l, .enter r], s.withPhase l { ph with awake := true }) := by
    rw [Visit.step_wakeLeft hn hc hph, hasleep]
    rfl
  refine h.next_wakeLeft {.enter l} 0 hcut hdown hstep rfl le_rfl (fun u hu => .withPhase _ hu)
    ((Frame.withPhase hnl (.refl nl.span) _).fits h.fits) rfl (.inr ⟨hf, rfl⟩) hwoken
    (fun w hw => absurd hw (Multiset.notMem_zero w)) ?_
    (S.calls_toDown (by rw [hidle]; rfl) (by rw [hidle]; rfl))
  rw [zero_add, S.walkers_down_new .enter (by rw [hidle]; rfl) rfl, Multiset.singleton_add]

/-- The left child is awake, so no visit of it is forked. -/
theorem wakeLeft_awake {ph : Phase} (h : Inv S c (.wakeLeft t true ::ₘ rest) s calls)
    (hcut : S.plan.Cut t l r) (hdown : (c t).down = .wakeLeft) (hf : S.plan.isFirst t = true)
    (hph : s.phases[l]? = some ph) (hawake : ph.awake = true)
    (hshown : (S.plan.face c l).down = .busy ∨ (S.plan.face c l).down = .told) :
    Goes S c (.wakeLeft t true) rest s calls := by
  obtain ⟨n, hn, _, hc, _⟩ := hcut.node
  have hstep : (Visit.step S.plan (.wakeLeft t true)).run s = .done ([.enter r], s) := by
    rw [Visit.step_wakeLeft hn hc hph, hawake]
    rfl
  exact h.next_wakeLeft 0 0 hcut hdown hstep (zero_add _).symm zero_le_one
    (fun u _ => .refl s u) h.fits rfl (.inl ⟨hf, rfl, hshown⟩) (h.node l hcut.left_lt_size)
    (fun w hw => absurd hw (Multiset.notMem_zero w)) rfl (by rw [Multiset.coe_nil, add_zero])

/-- The left child is the first leaf, which was swept with its sum taken. If it sleeps, it is
visited in vain. -/
theorem wakeLeft_leaf (h : Inv S c (.wakeLeft t true ::ₘ rest) s calls) (hcut : S.plan.Cut t l r)
    (hdown : (c t).down = .wakeLeft) (hl : (c l).up = .told) (hf : S.plan.isFirst t = true)
    (hleaf : S.plan.IsLeaf l) : Goes S c (.wakeLeft t true) rest s calls := by
  obtain ⟨n, hn, _, hc, _⟩ := hcut.node
  obtain ⟨nl, hnl, _⟩ := Plan.exists_node hcut.left_lt_size
  have hf' : S.plan.isFirst l = true := hcut.isFirst_left.trans hf
  have hchild := h.node l hcut.left_lt_size
  have hl' := hchild.leaf hleaf
  have htold : (c l).down = .told :=
    ((hl'.stage.down_first hf').resolve_left fun hd => hd.2 hl).1
  have hshown : (S.plan.face c l).down = .told := by
    rw [Plan.face, htold]
    rfl
  obtain ⟨ph, hph, hphase⟩ := hl'.phase
  cases hawake : ph.awake with
  | true => exact h.wakeLeft_awake hcut hdown hf hph hawake (.inr hshown)
  | false =>
    have hstep : (Visit.step S.plan (.wakeLeft t true)).run s =
        .done ([.enter l, .enter r], s.withPhase l { ph with awake := true }) := by
      rw [Visit.step_wakeLeft hn hc hph, hawake]
      rfl
    have hwoken : Holds S (s.withPhase l { ph with awake := true }) l (c l)
        (S.plan.face c (S.plan.kids l).1) (S.plan.face c (S.plan.kids l).2) :=
      { hchild with
        leaf := fun _ =>
          { hl' with
            phase := ⟨_, phase_withPhase h.fits hnl _, by
              rw [LeafPhase, if_pos hf', hl] at hphase ⊢
              exact hphase⟩
            work := hl'.work.frame rfl rfl }
        cut := fun hcut => absurd hleaf hcut }
    refine h.next_wakeLeft {.enter l} {.enter l} hcut hdown hstep rfl le_rfl
      (fun u hu => .withPhase _ hu) ((Frame.withPhase hnl (.refl nl.span) _).fits h.fits) rfl
      (.inl ⟨hf, rfl, .inr hshown⟩) hwoken (fun w hw => ?_) rfl
      (by rw [Multiset.coe_nil, add_zero])
    exact ⟨Multiset.mem_singleton.1 hw, hleaf, hf', hl⟩

/-- The left child is woken, unless it woke by itself; at the first leaf nothing is left to do. -/
theorem down_wakeLeft (h : Inv S c (.wakeLeft t true ::ₘ rest) s calls) (hcut : S.plan.Cut t l r)
    (hdown : (c t).down = .wakeLeft) : Goes S c (.wakeLeft t true) rest s calls := by
  have hidle : (c t).down ≠ .idle := by simp [hdown]
  have hl : (c l).up = .told := Plan.face_up_told ((h.cut hcut).linked.both_told hidle).1
  cases hf : S.plan.isFirst t with
  | false => exact h.wakeLeft_later hcut hdown hl hf
  | true =>
    by_cases hleaf : S.plan.IsLeaf l
    · exact h.wakeLeft_leaf hcut hdown hl hf hleaf
    · -- what was told of its sum woke it
      have hf' : S.plan.isFirst l = true := hcut.isFirst_left.trans hf
      obtain ⟨l', r', hcut'⟩ := S.family.exists_cut hcut.left_lt_size hleaf
      have hpl := h.cut hcut'
      have hawake := hpl.linked.awake_first hf'
      have hidle' : (c l).down ≠ .idle := hawake.2.2 (hpl.linked.ready (by rw [hl]; rfl))
      refine h.wakeLeft_awake hcut hdown hf hpl.phase (bne_iff_ne.2 hidle') ?_
      rw [Plan.face, hf']
      cases hd : (c l).down <;> simp_all [Down.face, Down.Face.shown]

end Inv

end ForkJoin.Scan
