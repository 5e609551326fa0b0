import ForkJoin.Proofs.Scan.Steps
import ForkJoin.Proofs.Spans

/-!
# Where the state of a scan changes

The visits below a node work on the nodes and on the elements within its span. `Frame` says of two
states that they differ there only, so that what is known of the other half of a span is still
known after one half was worked on.
-/
namespace ForkJoin

namespace Scan

variable {α : Type}

namespace Store

variable {plan : Plan} {s s' : Store α} {t u : Nat} {span : Span}

/-- There is an element for each position, and a phase and two slots for each node. -/
structure Fits (s : Store α) (plan : Plan) : Prop where
  cells : s.cells.size = plan.len
  phases : s.phases.size = plan.nodes.size
  carries : s.carries.size = plan.nodes.size
  sums : s.sums.size = plan.nodes.size

/-- What is known about a node is the same. -/
structure Same (s s' : Store α) (u : Nat) : Prop where
  phases : s'.phases[u]? = s.phases[u]?
  carries : s'.carries[u]? = s.carries[u]?
  sums : s'.sums[u]? = s.sums[u]?

theorem Same.refl (s : Store α) (u : Nat) : Same s s u := ⟨rfl, rfl, rfl⟩

theorem Same.trans {s'' : Store α} (h : Same s s' u) (h' : Same s' s'' u) : Same s s'' u :=
  ⟨h'.phases.trans h.phases, h'.carries.trans h.carries, h'.sums.trans h.sums⟩

theorem same_withPhase (p : Phase) (h : u ≠ t) : Same s (s.withPhase t p) u :=
  ⟨Array.getElem?_setIfInBounds_ne (Ne.symm h), rfl, rfl⟩

theorem same_withCarry (c : α) (h : u ≠ t) : Same s (s.withCarry t c) u :=
  ⟨rfl, Array.getElem?_setIfInBounds_ne (Ne.symm h), rfl⟩

theorem same_withSum (x : Option α) (h : u ≠ t) : Same s (s.withSum t x) u :=
  ⟨rfl, rfl, Array.getElem?_setIfInBounds_ne (Ne.symm h)⟩

theorem phase_withPhase (hs : s.Fits plan) {n : Node} (hn : plan.nodes[t]? = some n) (p : Phase) :
    (s.withPhase t p).phases[t]? = some p := by
  have := (Array.getElem?_eq_some_iff.1 hn).1
  rw [withPhase, Array.getElem?_setIfInBounds_self_of_lt (hs.phases ▸ this)]

theorem carry_withCarry (hs : s.Fits plan) {n : Node} (hn : plan.nodes[t]? = some n) (c : α) :
    (s.withCarry t c).carries[t]? = some (some c) := by
  have := (Array.getElem?_eq_some_iff.1 hn).1
  rw [withCarry, Array.getElem?_setIfInBounds_self_of_lt (hs.carries ▸ this)]

theorem sum_withSum (hs : s.Fits plan) {n : Node} (hn : plan.nodes[t]? = some n) (x : Option α) :
    (s.withSum t x).sums[t]? = some x := by
  have := (Array.getElem?_eq_some_iff.1 hn).1
  rw [withSum, Array.getElem?_setIfInBounds_self_of_lt (hs.sums ▸ this)]

/-! ## Segments -/

/-- The elements on a span. -/
def segment (s : Store α) (span : Span) : List α := (s.cells.extract span.start span.stop).toList

theorem length_segment (h : span.stop ≤ s.cells.size) : (s.segment span).length = span.len := by
  simp only [segment, Array.length_toList, Array.size_extract, Span.stop] at *
  omega

theorem segment_halves (s : Store α) (span : Span) :
    s.segment span = s.segment span.lower ++ s.segment span.upper := by
  simp only [segment, ← Array.toList_append, Span.stop_lower, Span.stop_upper, Span.start_lower]
  rw [Array.extract_append_extract]
  simp only [Span.upper, Span.stop, Nat.min_def, Nat.max_def]
  congr 2 <;> split <;> omega

theorem segment_lower (h : span.stop ≤ s.cells.size) :
    s.segment span.lower = (s.segment span).take ((s.segment span).length / 2) := by
  have hl : (s.segment span.lower).length = span.len / 2 :=
    length_segment (Nat.le_trans span.lower_inside.2 h)
  rw [length_segment h, segment_halves s span, ← hl, List.take_left]

theorem segment_upper (h : span.stop ≤ s.cells.size) :
    s.segment span.upper = (s.segment span).drop ((s.segment span).length / 2) := by
  have hl : (s.segment span.lower).length = span.len / 2 :=
    length_segment (Nat.le_trans span.lower_inside.2 h)
  rw [length_segment h, segment_halves s span, ← hl, List.drop_left]

theorem segment_congr (hsize : s'.cells.size = s.cells.size)
    (h : ∀ i, span.start ≤ i → i < span.stop → s'.cells[i]? = s.cells[i]?) :
    s'.segment span = s.segment span := by
  unfold segment
  congr 1
  apply Array.ext_getElem?
  intro i
  simp only [Array.getElem?_extract, hsize]
  split
  · exact h _ (by omega) (by omega)
  · rfl

theorem segment_withSwept {ys : List α} (hlen : ys.length = span.len)
    (h : span.stop ≤ s.cells.size) : (s.withSwept t span.start ys).segment span = ys := by
  simp only [segment, withSwept, Span.stop, ← hlen] at *
  exact extract_overwrite _ _ _ h

end Store

open Store

/-- Two nodes of which one lies on a span, and the other does not, are not the same. -/
theorem Plan.ne_of_inside {plan : Plan} {t u : Nat} {n m : Node} {span : Span}
    (hm : plan.nodes[u]? = some m) (hin : m.span.Inside span) (hn : plan.nodes[t]? = some n)
    (hout : ¬ n.span.Inside span) : u ≠ t := by
  rintro rfl
  obtain rfl : m = n := Option.some.inj (hm.symm.trans hn)
  exact hout hin

/-- Nothing has changed but nodes and elements on the span. -/
structure Frame (plan : Plan) (span : Span) (s s' : Store α) : Prop where
  fits : s.Fits plan → s'.Fits plan
  size : s'.cells.size = s.cells.size
  cells : ∀ i, i < span.start ∨ span.stop ≤ i → s'.cells[i]? = s.cells[i]?
  nodes : ∀ (u : Nat) (n : Node), plan.nodes[u]? = some n → ¬ n.span.Inside span → Same s s' u
  completed : s'.completed = s.completed

namespace Frame

variable {plan : Plan} {s s' s'' : Store α} {t u : Nat} {n m : Node} {span inner : Span}

theorem refl (plan : Plan) (span : Span) (s : Store α) : Frame plan span s s :=
  ⟨id, rfl, fun _ _ => rfl, fun u _ _ _ => Same.refl s u, rfl⟩

theorem trans (h : Frame plan span s s') (h' : Frame plan span s' s'') : Frame plan span s s'' where
  fits hs := h'.fits (h.fits hs)
  size := h'.size.trans h.size
  cells i hi := (h'.cells i hi).trans (h.cells i hi)
  nodes u n hn hu := (h.nodes u n hn hu).trans (h'.nodes u n hn hu)
  completed := h'.completed.trans h.completed

theorem mono (h : Frame plan inner s s') (hin : inner.Inside span) : Frame plan span s s' where
  fits := h.fits
  size := h.size
  cells i hi := h.cells i (by have := hin.1; have := hin.2; omega)
  nodes u n hn hu := h.nodes u n hn fun hui => hu (hui.trans hin)
  completed := h.completed

/-- A change of one node. -/
theorem of_same (hn : plan.nodes[t]? = some n) (hin : n.span.Inside span)
    (hfits : s.Fits plan → s'.Fits plan) (hcells : s'.cells = s.cells)
    (hsame : ∀ u, u ≠ t → Same s s' u) (hcompleted : s'.completed = s.completed) :
    Frame plan span s s' where
  fits := hfits
  size := by rw [hcells]
  cells i _ := by rw [hcells]
  nodes u m hm hu := hsame u (Plan.ne_of_inside hn hin hm hu).symm
  completed := hcompleted

theorem withPhase (hn : plan.nodes[t]? = some n) (hin : n.span.Inside span) (p : Phase) :
    Frame plan span s (s.withPhase t p) :=
  of_same hn hin
    (fun hs => ⟨hs.cells, by rw [Store.withPhase, Array.size_setIfInBounds, hs.phases], hs.carries,
      hs.sums⟩)
    rfl (fun _ hu => same_withPhase p hu) rfl

theorem withCarry (hn : plan.nodes[t]? = some n) (hin : n.span.Inside span) (c : α) :
    Frame plan span s (s.withCarry t c) :=
  of_same hn hin
    (fun hs => ⟨hs.cells, hs.phases, by rw [Store.withCarry, Array.size_setIfInBounds, hs.carries],
      hs.sums⟩)
    rfl (fun _ hu => same_withCarry c hu) rfl

theorem withSum (hn : plan.nodes[t]? = some n) (hin : n.span.Inside span) (x : Option α) :
    Frame plan span s (s.withSum t x) :=
  of_same hn hin
    (fun hs => ⟨hs.cells, hs.phases, hs.carries,
      by rw [Store.withSum, Array.size_setIfInBounds, hs.sums]⟩)
    rfl (fun _ hu => same_withSum x hu) rfl

theorem withEvent (e : Event) : Frame plan span s (s.withEvent e) :=
  ⟨fun hs => ⟨hs.cells, hs.phases, hs.carries, hs.sums⟩, rfl, fun _ _ => rfl,
    fun _ _ _ _ => ⟨rfl, rfl, rfl⟩, rfl⟩

theorem withSwept {ys : List α} (hlen : ys.length = span.len) :
    Frame plan span s (s.withSwept t span.start ys) where
  fits hs := ⟨by rw [Store.withSwept, size_overwrite, hs.cells], hs.phases, hs.carries, hs.sums⟩
  size := size_overwrite ..
  cells i hi := getElem?_overwrite_outside _ _ (by rw [hlen]; exact hi)
  nodes _ _ _ _ := ⟨rfl, rfl, rfl⟩
  completed := rfl

/-- The elements next to the span are as before. -/
theorem segment_eq (h : Frame plan inner s s')
    (hout : span.stop ≤ inner.start ∨ inner.stop ≤ span.start) :
    s'.segment span = s.segment span :=
  segment_congr h.size fun i h1 h2 => h.cells i (by omega)

end Frame

end Scan

end ForkJoin
