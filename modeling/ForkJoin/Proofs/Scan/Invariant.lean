import Mathlib.Algebra.BigOperators.Group.Finset.Basic
import ForkJoin.Proofs.Interleaving
import ForkJoin.Proofs.Scan.Frame
import ForkJoin.Proofs.Scan.Links

/-!
# The invariant of the visits of a scan

What the shared state says of a node is determined by the stage of the node and by the faces of its
children: `Holds`. The pool is the walkers of all nodes, and the calls made are those of all nodes;
this is `Inv`. `Near` says of two states that they agree on what is known of a node.
-/
namespace ForkJoin.Scan

open Calling Store

variable {α : Type}

/-! ## The log of one leaf -/

/-- The event is about this node. -/
def Event.concerns (t : Nat) : Event → Bool
  | summed u | swept u => u == t
  | completed => false

/-- What the log tells of a node. -/
def Store.events (s : Store α) (t : Nat) : List Event := s.log.toList.filter (·.concerns t)

/-! ## What holds at a node -/

/-- What a walker knows of the node that it looked at last. -/
structure Sound (S : Setting α) (t : Nat) (a : Stage) : Prop where
  summed : ∀ seen, a.up = .deliver seen → seen.summed = false
  finished : ∀ seen, a.down = .deliver seen → seen.finished = false
  right : ∀ seen, a.up = .addRight seen →
    S.plan.isLast (S.plan.span (S.plan.parentOf t)) = false
  later : a.down = .addCarry ∨ a.down = .giveLeft → S.plan.isFirst t = false

/-- The root reports to nobody, and who comes from it announces the end. -/
structure Rooted (a : Stage) (done : Bool) : Prop where
  started : a.up ≠ .idle
  up : a.up.aloft = false
  down : a.down ≠ .called ∧ ∀ seen, a.down ≠ .deliver seen
  done : done = (a.down == .told)

namespace Rooted

variable {a : Stage} {done : Bool}

theorem rise (h : Rooted a done) {up : Up} (hidle : up ≠ .idle) (haloft : up.aloft = false) :
    Rooted (a.toUp up) done :=
  { h with started := hidle, up := haloft }

/-- Until the root is told, the end is not announced. -/
theorem sink (h : Rooted a done) (htold : a.down ≠ .told) {down : Down} (hcalled : down ≠ .called)
    (hdeliver : ∀ seen, down ≠ .deliver seen) (htold' : down ≠ .told) :
    Rooted (a.toDown down) done where
  started := h.started
  up := h.up
  down := ⟨hcalled, hdeliver⟩
  done := by
    rw [h.done, beq_eq_false_iff_ne.2 htold, Stage.toDown_down, beq_eq_false_iff_ne.2 htold']

end Rooted

/-- What was done at a leaf. -/
structure LeafWork (S : Setting α) (s : Store α) (t : Nat) (summed swept : Bool) : Prop where
  segment : s.segment (S.plan.span t) = if swept then S.swept t else S.original t
  log : s.events t = (if summed then [.summed t] else []) ++ if swept then [.swept t] else []

theorem LeafWork.frame {S : Setting α} {s s' : Store α} {t : Nat} {summed swept : Bool}
    (h : LeafWork S s t summed swept) (hcells : s'.cells = s.cells) (hlog : s'.log = s.log) :
    LeafWork S s' t summed swept where
  segment := by rw [Store.segment, hcells]; exact h.segment
  log := by rw [Store.events, hlog]; exact h.log

/-- What the shared state says of a leaf at a stage. -/
structure HoldsLeaf (S : Setting α) (s : Store α) (t : Nat) (a : Stage) : Prop where
  stage : AtLeaf (S.plan.isFirst t) a
  phase : ∃ ph, s.phases[t]? = some ph ∧ LeafPhase (S.plan.isFirst t) a ph
  sum : S.plan.isLast (S.plan.span t) = false → a.up.ready = true →
    S.plan.isFirst t = true ∨ a.down.ready = false → s.sums[t]? = some (some (S.sum t))
  work : LeafWork S s t (S.plan.summed t a) (S.plan.swept t a)

/-- What the shared state says of a node that is cut, if it and its children are at these stages. -/
structure HoldsCut (S : Setting α) (s : Store α) (t : Nat) (a : Stage) (l r : Face) : Prop where
  linked : Linked (S.plan.isFirst t) (S.plan.IsLeaf (S.plan.kids t).1) a l r
  phase : s.phases[t]? = some (cutPhase a l r)
  sum : S.plan.isLast (S.plan.span t) = false →
    a.up.ready = true ∨ l.up.leaves = true ∨ r.up.leaves = true →
      s.sums[t]? = some (some (S.sum t))
  left_carry : S.plan.isFirst t = false → a.down.gaveLeft = true →
    s.carries[(S.plan.kids t).1]? = some (some (S.carry (S.plan.kids t).1))
  right_carry : a.down = .wakeRight →
    s.carries[(S.plan.kids t).2]? = some (some (S.carry (S.plan.kids t).2))

/-- What the shared state says of a node. -/
structure Holds (S : Setting α) (s : Store α) (t : Nat) (a : Stage) (l r : Face) : Prop where
  sound : Sound S t a
  root : t = 0 → Rooted a s.completed
  carry : S.plan.isFirst t = false → a.down ≠ .idle → s.carries[t]? = some (some (S.carry t))
  leaf : S.plan.IsLeaf t → HoldsLeaf S s t a
  cut : ¬ S.plan.IsLeaf t → HoldsCut S s t a l r

/-! ## Where nothing has happened -/

/-- The two states agree on what lies at a node. -/
structure Alike (S : Setting α) (s s' : Store α) (t : Nat) : Prop extends Same s s' t where
  segment : S.plan.IsLeaf t → s'.segment (S.plan.span t) = s.segment (S.plan.span t)
  events : s'.events t = s.events t

/-- The two states agree on all that is known of a node; of the root it is known whether the end was
announced. -/
structure Near (S : Setting α) (s s' : Store α) (t : Nat) : Prop extends Alike S s s' t where
  completed : t = 0 → s'.completed = s.completed

namespace Near

variable {S : Setting α} {s s' : Store α} {t u : Nat}

theorem refl (s : Store α) (t : Nat) : Near S s s t :=
  ⟨⟨.refl s t, fun _ => rfl, rfl⟩, fun _ => rfl⟩

theorem withPhase (p : Phase) (h : t ≠ u) : Near S s (s.withPhase u p) t :=
  ⟨⟨same_withPhase p h, fun _ => rfl, rfl⟩, fun _ => rfl⟩

theorem withCarry (c : α) (h : t ≠ u) : Near S s (s.withCarry u c) t :=
  ⟨⟨same_withCarry c h, fun _ => rfl, rfl⟩, fun _ => rfl⟩

theorem withSum (x : Option α) (h : t ≠ u) : Near S s (s.withSum u x) t :=
  ⟨⟨same_withSum x h, fun _ => rfl, rfl⟩, fun _ => rfl⟩

end Near

section

variable {S : Setting α} {s s' : Store α} {t : Nat} {a : Stage} {l r l' r' : Face}

theorem HoldsLeaf.alike (h : HoldsLeaf S s t a) (hleaf : S.plan.IsLeaf t)
    (halike : Alike S s s' t) : HoldsLeaf S s' t a where
  stage := h.stage
  phase := by rw [halike.phases]; exact h.phase
  sum := by rw [halike.sums]; exact h.sum
  work := ⟨(halike.segment hleaf).trans h.work.segment, halike.events.trans h.work.log⟩

theorem HoldsCut.alike (h : HoldsCut S s t a l r) (halike : Alike S s s' t)
    (hleft : s'.carries[(S.plan.kids t).1]? = s.carries[(S.plan.kids t).1]?)
    (hright : s'.carries[(S.plan.kids t).2]? = s.carries[(S.plan.kids t).2]?) :
    HoldsCut S s' t a l r where
  linked := h.linked
  phase := by rw [halike.phases]; exact h.phase
  sum := by rw [halike.sums]; exact h.sum
  left_carry := by rw [hleft]; exact h.left_carry
  right_carry := by rw [hright]; exact h.right_carry

/-- What holds at a node still holds if its children, if it has any, show the same faces. -/
theorem Holds.near (h : Holds S s t a l r) (hnear : Near S s s' t)
    (hkids : ¬ S.plan.IsLeaf t → (l' = l ∧ s'.carries[(S.plan.kids t).1]? =
        s.carries[(S.plan.kids t).1]?) ∧
      r' = r ∧ s'.carries[(S.plan.kids t).2]? = s.carries[(S.plan.kids t).2]?) :
    Holds S s' t a l' r' where
  sound := h.sound
  root h0 := by rw [hnear.completed h0]; exact h.root h0
  carry := by rw [hnear.carries]; exact h.carry
  leaf hleaf := (h.leaf hleaf).alike hleaf hnear.toAlike
  cut hcut := by
    obtain ⟨⟨rfl, hleft⟩, rfl, hright⟩ := hkids hcut
    exact (h.cut hcut).alike hnear.toAlike hleft hright

theorem Holds.near_same (h : Holds S s t a l r) (hnear : Near S s s' t)
    (hcarries : s'.carries = s.carries) : Holds S s' t a l r :=
  h.near hnear fun _ => ⟨⟨rfl, by rw [hcarries]⟩, rfl, by rw [hcarries]⟩

/-! ## What is known of a node that is cut -/

/-- It stays at its stage, but takes note of how far a child has come. -/
theorem Holds.cut_joined (h : Holds S s t a l r) (hcut : ¬ S.plan.IsLeaf t) {joined again : Bool}
    (hcompleted : s'.completed = s.completed) (hcarries : s'.carries = s.carries)
    (hc : HoldsCut S s' t (a.toJoined joined again) l' r') :
    Holds S s' t (a.toJoined joined again) l' r' where
  sound := { h.sound with }
  root h0 := by rw [hcompleted]; exact { h.root h0 with }
  carry := by rw [hcarries]; exact h.carry
  leaf hleaf := absurd hleaf hcut
  cut _ := hc

/-- It goes on in its second pass. -/
theorem Holds.cut_down (h : Holds S s t a l r) (hcut : ¬ S.plan.IsLeaf t) (hidle : a.down ≠ .idle)
    (htold : a.down ≠ .told) {down : Down} (hdown : down ≠ .called ∧ down ≠ .told)
    (hdeliver : ∀ seen, down ≠ .deliver seen)
    (hlater : down = .addCarry ∨ down = .giveLeft → S.plan.isFirst t = false)
    (hcompleted : s'.completed = s.completed) (hcarry : s'.carries[t]? = s.carries[t]?)
    (hc : HoldsCut S s' t (a.toDown down) l' r') : Holds S s' t (a.toDown down) l' r' where
  sound :=
    { h.sound with
      finished := fun seen hd => absurd hd (hdeliver seen)
      later := hlater }
  root h0 := by rw [hcompleted]; exact (h.root h0).sink htold hdown.1 hdeliver hdown.2
  carry hf _ := by rw [hcarry]; exact h.carry hf hidle
  leaf hleaf := absurd hleaf hcut
  cut _ := hc

/-- Both children are summed, and its first pass goes on; nothing precedes a first node, so its
second pass starts. -/
theorem Holds.cut_joinUp (h : Holds S s t a l r) (hcut : ¬ S.plan.IsLeaf t) (hidle : a.down = .idle)
    (hcompleted : s'.completed = s.completed)
    (hc : HoldsCut S s' t (a.joinUp (S.plan.isFirst t)) l' r') :
    Holds S s' t (a.joinUp (S.plan.isFirst t)) l' r' := by
  have hdown : (if S.plan.isFirst t then Down.enter else .idle) = .enter ∨
      (if S.plan.isFirst t then Down.enter else .idle) = .idle := by
    split
    · exact .inl rfl
    · exact .inr rfl
  rw [Stage.joinUp_eq hidle] at hc ⊢
  exact
    { sound :=
        { summed := by rintro _ ⟨⟩
          finished := fun seen hd => by
            rw [Stage.toDown_down] at hd
            rw [hd] at hdown
            simp at hdown
          right := by rintro _ ⟨⟩
          later := fun hd => by
            rw [Stage.toDown_down] at hd
            rcases hdown with h | h <;> rw [h] at hd <;> simp at hd }
      root := fun h0 => by
        rw [hcompleted]
        refine ((h.root h0).rise (by simp) rfl).sink (by simp [hidle]) ?_ (fun seen => ?_) ?_ <;>
          rcases hdown with h | h <;> simp [h]
      carry := fun hf hne => absurd (by simp [hf]) hne
      leaf := fun hleaf => absurd hleaf hcut
      cut := fun _ => hc }

end

/-! ## What the log tells after an event -/

namespace Store

variable {s : Store α} {t u : Nat}

theorem events_push (s : Store α) (e : Event) (t : Nat) :
    (s.withEvent e).events t = s.events t ++ if e.concerns t then [e] else [] := by
  simp only [events, withEvent, Array.toList_push, List.filter_append]
  cases he : e.concerns t <;> simp [he]

theorem events_withSwept (s : Store α) (i : Nat) (xs : List α) :
    (s.withSwept t i xs).events u = s.events u ++ if t = u then [.swept t] else [] := by
  refine (events_push s (.swept t) u).trans ?_
  simp only [Event.concerns, beq_iff_eq]

end Store

/-- The announcement of the end concerns no node. -/
theorem Alike.withEnd {S : Setting α} (s : Store α) (t : Nat) : Alike S s s.withEnd t where
  toSame := ⟨rfl, rfl, rfl⟩
  segment _ := rfl
  events := (Store.events_push s .completed t).trans (List.append_nil _)

namespace Near

variable {S : Setting α} {s : Store α} {t u : Nat}

theorem summed (h : u ≠ t) : Near S s (s.withEvent (.summed t)) u :=
  ⟨⟨⟨rfl, rfl, rfl⟩, fun _ => rfl, by
    rw [Store.events_push, Event.concerns, beq_eq_false_iff_ne.2 h.symm]
    exact List.append_nil _⟩, fun _ => rfl⟩

/-- Sweeping one leaf leaves the others alone. -/
theorem swept (ht : t < S.plan.nodes.size) (hleaf : S.plan.IsLeaf t)
    (hu : u < S.plan.nodes.size) {xs : List α} (hlen : xs.length = (S.plan.span t).len)
    (h : u ≠ t) : Near S s (s.withSwept t (S.plan.span t).start xs) u where
  toSame := ⟨rfl, rfl, rfl⟩
  completed _ := rfl
  segment huleaf := by
    refine segment_congr (size_overwrite ..) fun i hi hi' => ?_
    refine getElem?_overwrite_outside _ _ ?_
    have hdisjoint := S.family.leaf_disjoint ht hu hleaf huleaf h.symm
    rw [hlen]
    simp only [Span.stop] at *
    omega
  events := by rw [events_withSwept, if_neg h.symm, List.append_nil]

end Near

/-! ## What is known of a leaf -/

namespace HoldsLeaf

variable {S : Setting α} {s : Store α} {t : Nat} {a : Stage}

/-- Before the first pass has told, the second one has not come to a leaf. -/
theorem down_idle (h : HoldsLeaf S s t a) (hup : a.up ≠ .told) : a.down = .idle := by
  cases hf : S.plan.isFirst t with
  | true => exact ((h.stage.down_first hf).resolve_right fun hd => hup hd.2).1
  | false => exact Decidable.byContradiction fun hne => hup (h.stage.down_later hf hne)

/-- The second pass of a leaf that is not the first is under way. -/
theorem later (h : HoldsLeaf S s t a) (hidle : a.down ≠ .idle) (htold : a.down ≠ .told) :
    S.plan.isFirst t = false ∧ a.up = .told := by
  cases hf : S.plan.isFirst t with
  | true => exact ((h.stage.down_first hf).elim (hidle ·.1) (htold ·.1)).elim
  | false => exact ⟨rfl, h.stage.down_later hf hidle⟩

theorem phase_later (h : HoldsLeaf S s t a) (hf : S.plan.isFirst t = false) : s.phases[t]? =
    some { awake := a.down != .idle, summed := !a.up.early, finished := !a.down.early } := by
  obtain ⟨ph, hph, hphase⟩ := h.phase
  rw [LeafPhase, if_neg (by simp [hf])] at hphase
  rw [hph, hphase]

/-- A leaf that is not taken on has its first phase. -/
theorem phase_early (h : HoldsLeaf S s t a) (hup : a.up.early = true) : s.phases[t]? = some {} := by
  cases hf : S.plan.isFirst t with
  | true =>
    obtain ⟨ph, hph, hphase⟩ := h.phase
    rw [hph, (by simpa [LeafPhase, hf, hup] using hphase : ph = {})]
  | false =>
    have hdown := h.down_idle (by rintro htold; rw [htold] at hup; cases hup)
    rw [h.phase_later hf, hup, hdown]
    rfl

/-- The phase stays if the leaf is still as little, or as much, taken on. -/
theorem phase_up (h : HoldsLeaf S s t a) {up : Up} (hearly : up.early = a.up.early) :
    ∃ ph, s.phases[t]? = some ph ∧ LeafPhase (S.plan.isFirst t) (a.toUp up) ph := by
  simpa only [LeafPhase, Stage.toUp_up, Stage.toUp_down, hearly] using h.phase

theorem phase_down (h : HoldsLeaf S s t a) {down : Down} (hidle : a.down ≠ .idle)
    (hidle' : down ≠ .idle) (hearly : down.early = a.down.early) :
    ∃ ph, s.phases[t]? = some ph ∧ LeafPhase (S.plan.isFirst t) (a.toDown down) ph := by
  have hawake : (down != .idle) = (a.down != .idle) := by
    rw [bne_iff_ne.2 hidle, bne_iff_ne.2 hidle']
  obtain ⟨ph, hph, hphase⟩ := h.phase
  refine ⟨ph, hph, ?_⟩
  unfold LeafPhase at hphase ⊢
  rwa [Stage.toDown_up, Stage.toDown_down, hearly, hawake]

/-- What was done at a leaf stays where it only moves on. -/
theorem work_up (h : HoldsLeaf S s t a) {up : Up} (hworked : up.worked = a.up.worked) :
    LeafWork S s t (S.plan.summed t (a.toUp up)) (S.plan.swept t (a.toUp up)) := by
  rw [Plan.summed_toUp hworked, Plan.swept_toUp hworked]
  exact h.work

theorem work_down (h : HoldsLeaf S s t a) {down : Down} (hworked : down.worked = a.down.worked) :
    LeafWork S s t (S.plan.summed t (a.toDown down)) (S.plan.swept t (a.toDown down)) := by
  rw [Plan.swept_toDown hworked]
  exact h.work

/-- The elements of a leaf can be read. -/
theorem read (h : HoldsLeaf S s t a) (hfits : s.Fits S.plan) {n : Node}
    (hn : S.plan.nodes[t]? = some n) (hspan : n.span = S.plan.span t)
    (hswept : S.plan.swept t a = false) :
    ∃ xs, n.span.read? s.cells = some xs ∧ xs.toList = S.original t := by
  refine ⟨_, S.family.read? hfits hn, ?_⟩
  have := h.work.segment
  rw [hswept] at this
  rw [hspan]
  exact this

end HoldsLeaf

/-! ## The invariant -/

namespace Setting

variable (S : Setting α)

/-- What the state says of the node `t`, if all nodes are at these stages. -/
def HoldsAt (c : Nat → Stage) (s : Store α) (t : Nat) : Prop :=
  Holds S s t (c t) (S.plan.face c (S.plan.kids t).1) (S.plan.face c (S.plan.kids t).2)

/-- A visit that finds a first leaf swept already. -/
def Idler (c : Nat → Stage) (v : Visit α) : Prop :=
  ∃ t < S.plan.nodes.size, v = .enter t ∧ S.plan.IsLeaf t ∧ S.plan.isFirst t = true ∧
    (c t).up = .told

end Setting

/-- All nodes are at these stages. -/
structure Inv (S : Setting α) (c : Nat → Stage) (pool : Multiset (Visit α)) (s : Store α)
    (calls : List (α × α)) : Prop where
  fits : s.Fits S.plan
  node : ∀ t < S.plan.nodes.size, S.HoldsAt c s t
  pool : ∃ idlers : Multiset (Visit α), (∀ v ∈ idlers, S.Idler c v) ∧
    pool = idlers + ∑ t ∈ Finset.range S.plan.nodes.size, S.walkers t (c t)
  calls : (calls : Multiset (α × α)) =
    ∑ t ∈ Finset.range S.plan.nodes.size, S.calls t (c t)

end ForkJoin.Scan
