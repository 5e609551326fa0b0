import ForkJoin.Proofs.Spans
import ForkJoin.Sorting.Tasks

/-!
# Where the state of a sort changes

Each piece of work changes the elements it sorts or merges, and counters of latches that it made
itself. `Store.Frame` says what it has left as it was: elements by buffer and position, and all
counters that were there before.
-/
namespace ForkJoin.Sorting

variable {α : Type}

theorem Buffer.ne_other (b : Buffer) : b ≠ b.other := by
  cases b <;> exact Buffer.noConfusion

namespace Store

/-- A report came to a latch, whose counter is `p` then. -/
def told (s : Store α) (latch : Latch) (p : UInt32) (last : Bool) : Store α :=
  { s with
    pending := s.pending.setIfInBounds latch.id p
    log := s.log.push (.arrived latch last) }

/-- A cut was found, one more report announced to a latch, and a latch made for it. -/
def cutOff (s : Store α) (latch : Latch) (m : Merge) (ln rn : Nat) (p : UInt32) : Store α :=
  { s with
    pending := (s.pending.setIfInBounds latch.id (p + 1)).push 0
    log := ((s.log.push (.did latch (.search m.source ⟨m.left.start, ln⟩ ⟨m.right.start, rn⟩))).push
      (.raised latch)).push (.opened (.part s.pending.size latch)) }

/-- `xs` were written to a buffer from position `i` on. -/
def put (s : Store α) (b : Buffer) (i : Nat) (xs : List α) : Store α :=
  match b with
  | .array => { s with array := overwrite s.array i xs }
  | .workspace => { s with workspace := overwrite s.workspace i xs }

/-- One more event was noted. -/
def noted (s : Store α) (e : Event) : Store α := { s with log := s.log.push e }

/-- The elements of a buffer on a span. -/
def segment (s : Store α) (b : Buffer) (span : Span) : List α :=
  ((s.buffer b).extract span.start span.stop).toList

/-! ## What stays -/

/-- Only touched elements have changed, and no counter that was there before. -/
structure Frame (touched : Buffer → Nat → Prop) (s s' : Store α) : Prop where
  size : ∀ b, (s'.buffer b).size = (s.buffer b).size
  cells : ∀ b i, ¬ touched b i → (s'.buffer b)[i]? = (s.buffer b)[i]?
  pending : ∀ i < s.pending.size, s'.pending[i]? = s.pending[i]?
  completed : s'.completed = s.completed

variable {touched touched' : Buffer → Nat → Prop} {s s' s'' : Store α}

theorem Frame.size_pending_le (h : Frame touched s s') : s.pending.size ≤ s'.pending.size := by
  refine Nat.le_of_not_lt fun hlt => ?_
  have hend := h.pending s'.pending.size hlt
  rw [Array.getElem?_eq_none (Nat.le_refl _), Array.getElem?_eq_getElem hlt] at hend
  cases hend

theorem Frame.trans (h : Frame touched s s') (h' : Frame touched s' s'') :
    Frame touched s s'' where
  size b := (h'.size b).trans (h.size b)
  cells b i hi := (h'.cells b i hi).trans (h.cells b i hi)
  pending i hi := (h'.pending i (Nat.lt_of_lt_of_le hi h.size_pending_le)).trans (h.pending i hi)
  completed := h'.completed.trans h.completed

theorem Frame.mono (h : Frame touched s s') (htouched : ∀ b i, touched b i → touched' b i) :
    Frame touched' s s' :=
  ⟨h.size, fun b i hi => h.cells b i fun hi' => hi (htouched b i hi'), h.pending, h.completed⟩

theorem Frame.pending_eq (h : Frame touched s s') {i : Nat} {p : UInt32}
    (hp : s.pending[i]? = some p) : s'.pending[i]? = some p := by
  rw [h.pending i (Array.getElem?_eq_some_iff.1 hp).1, hp]

theorem Frame.segment_eq (h : Frame touched s s') {b : Buffer} {span : Span}
    (hspan : ∀ i, span.start ≤ i → i < span.stop → ¬ touched b i) :
    s'.segment b span = s.segment b span := by
  rw [segment, segment, Array.toList_inj]
  refine Array.ext_getElem? fun i => ?_
  rw [Array.getElem?_extract, Array.getElem?_extract, h.size]
  split
  · exact h.cells b _ (hspan _ (by omega) (by omega))
  · rfl

/-- Noting an event changes nothing else. -/
theorem Frame.noted (e : Event) : Frame touched s (s.noted e) :=
  ⟨fun b => by cases b <;> rfl, fun b _ _ => by cases b <;> rfl, fun _ _ => rfl, rfl⟩

theorem segment_noted (s : Store α) (e : Event) (b : Buffer) (span : Span) :
    (s.noted e).segment b span = s.segment b span := by
  cases b <;> rfl

theorem buffer_told (s : Store α) (latch : Latch) (p : UInt32) (last : Bool) (b : Buffer) :
    (s.told latch p last).buffer b = s.buffer b := by
  cases b <;> rfl

theorem buffer_cutOff (s : Store α) (latch : Latch) (m : Merge) (ln rn : Nat) (p : UInt32)
    (b : Buffer) : (s.cutOff latch m ln rn p).buffer b = s.buffer b := by
  cases b <;> rfl

theorem segment_told (s : Store α) (latch : Latch) (p : UInt32) (last : Bool) (b : Buffer)
    (span : Span) : (s.told latch p last).segment b span = s.segment b span := by
  rw [segment, segment, buffer_told]

theorem segment_cutOff (s : Store α) (latch : Latch) (m : Merge) (ln rn : Nat) (p : UInt32)
    (b : Buffer) (span : Span) : (s.cutOff latch m ln rn p).segment b span = s.segment b span := by
  rw [segment, segment, buffer_cutOff]

/-- One more report is expected. -/
theorem pending_cutOff_self {latch : Latch} {m : Merge} {ln rn : Nat} {p : UInt32}
    (hp : s.pending[latch.id]? = some p) :
    (s.cutOff latch m ln rn p).pending[latch.id]? = some (p + 1) := by
  have hid := (Array.getElem?_eq_some_iff.1 hp).1
  rw [cutOff, Array.getElem?_push_lt (by simpa using hid), Array.getElem_setIfInBounds_self]

/-- The latch for what lies behind the cut waits for one report. -/
theorem pending_cutOff_new {latch : Latch} {m : Merge} {ln rn : Nat} {p : UInt32} :
    (s.cutOff latch m ln rn p).pending[s.pending.size]? = some 0 := by
  rw [cutOff]
  have hsize : (s.pending.setIfInBounds latch.id (p + 1)).size = s.pending.size :=
    Array.size_setIfInBounds
  rw [← hsize, Array.getElem?_push_size]

theorem pending_told {latch : Latch} {p : UInt32} {last : Bool} {i : Nat} :
    (s.told latch p last).pending[i]? =
      if i = latch.id ∧ i < s.pending.size then some p else s.pending[i]? := by
  simp only [told, Array.getElem?_setIfInBounds]
  grind

theorem pending_told_self {latch : Latch} {p q : UInt32} {last : Bool}
    (hq : s.pending[latch.id]? = some q) :
    (s.told latch p last).pending[latch.id]? = some p := by
  rw [pending_told, if_pos ⟨rfl, (Array.getElem?_eq_some_iff.1 hq).1⟩]

theorem pending_told_of_ne {latch : Latch} {p : UInt32} {last : Bool} {i : Nat} (h : i ≠ latch.id) :
    (s.told latch p last).pending[i]? = s.pending[i]? := by
  rw [pending_told, if_neg fun hi => h hi.1]

/-- A report that leaves the counter as it is. -/
theorem Frame.told {latch : Latch} {p : UInt32} (last : Bool)
    (hp : s.pending[latch.id]? = some p) : Frame touched s (s.told latch p last) where
  size b := by rw [buffer_told]
  cells b i _ := by rw [buffer_told]
  pending i hi := by
    rw [pending_told]
    by_cases hid : i = latch.id
    · rw [if_pos ⟨hid, hid ▸ hi⟩, hid, hp]
    · rw [if_neg fun h => hid h.1]
  completed := rfl

/-- Two states that differ in touched elements only still do after the same report to the same latch. -/
theorem Frame.told_told {latch : Latch} {p : UInt32} {last last' : Bool} (h : Frame touched s s') :
    Frame touched (s.told latch p last) (s'.told latch p last') where
  size b := by rw [buffer_told, buffer_told, h.size]
  cells b i hi := by rw [buffer_told, buffer_told, h.cells b i hi]
  pending i hi := by
    have hle := h.size_pending_le
    rw [Store.told, Array.size_setIfInBounds] at hi
    rw [pending_told, pending_told, h.pending i hi]
    by_cases hid : i = latch.id
    · rw [if_pos ⟨hid, by omega⟩, if_pos ⟨hid, by omega⟩]
    · rw [if_neg fun h => hid h.1, if_neg fun h => hid h.1]
  completed := h.completed

/-- A report to a latch that was not there before. -/
theorem Frame.told_new {latch : Latch} {p : UInt32} {last : Bool} (h : Frame touched s s')
    (hnew : s.pending.size ≤ latch.id) : Frame touched s (s'.told latch p last) where
  size b := by rw [buffer_told, h.size]
  cells b i hi := by rw [buffer_told, h.cells b i hi]
  pending i hi := by rw [pending_told, if_neg (by omega), h.pending i hi]
  completed := h.completed

/-- The report that was announced with a cut has come. -/
theorem Frame.undo {latch : Latch} {m : Merge} {ln rn : Nat} {p : UInt32} (last : Bool)
    (hp : s.pending[latch.id]? = some p) (h : Frame touched (s.cutOff latch m ln rn p) s') :
    Frame touched s (s'.told latch p last) where
  size b := by rw [buffer_told, h.size, buffer_cutOff]
  cells b i hi := by rw [buffer_told, h.cells b i hi, buffer_cutOff]
  pending i hi := by
    have hsize : (s.cutOff latch m ln rn p).pending.size = s.pending.size + 1 := by
      simp [cutOff]
    have hle := h.size_pending_le
    rw [pending_told]
    by_cases hid : i = latch.id
    · rw [if_pos ⟨hid, by omega⟩, hid, hp]
    · rw [if_neg fun h => hid h.1, h.pending i (by omega), cutOff,
        Array.getElem?_push_lt (by simpa using hi),
        Array.getElem_setIfInBounds_ne (by simpa using hi) (by omega), Array.getElem?_eq_getElem hi]
  completed := h.completed

theorem buffer_put_self (s : Store α) (b : Buffer) (i : Nat) (xs : List α) :
    (s.put b i xs).buffer b = overwrite (s.buffer b) i xs := by
  cases b <;> rfl

theorem buffer_put_of_ne (s : Store α) {b b' : Buffer} (h : b' ≠ b) (i : Nat) (xs : List α) :
    (s.put b i xs).buffer b' = s.buffer b' := by
  cases b <;> cases b' <;> first | rfl | exact absurd rfl h

theorem Frame.put (b : Buffer) {i : Nat} (xs : List α)
    (hi : ∀ j, i ≤ j → j < i + xs.length → touched b j) : Frame touched s (s.put b i xs) where
  size b' := by
    by_cases h : b' = b
    · subst h
      rw [buffer_put_self, size_overwrite]
    · rw [buffer_put_of_ne _ h]
  cells b' j hj := by
    by_cases h : b' = b
    · subst h
      rw [buffer_put_self, getElem?_overwrite_outside]
      refine (Nat.lt_or_ge j i).imp_right fun hij => Nat.le_of_not_lt fun hlt => ?_
      exact hj (hi j hij hlt)
    · rw [buffer_put_of_ne _ h]
  pending _ _ := by cases b <;> rfl
  completed := by cases b <;> rfl

theorem segment_put (s : Store α) (b : Buffer) {i n : Nat} {xs : List α} (hn : xs.length = n)
    (h : i + n ≤ (s.buffer b).size) : (s.put b i xs).segment b ⟨i, n⟩ = xs := by
  subst hn
  rw [segment, buffer_put_self]
  exact extract_overwrite _ _ _ h

theorem run_write {b : Buffer} {span : Span} {xs : List α} (h : span.stop ≤ (s.buffer b).size)
    (hx : xs.length = span.len) :
    (Access.write b span xs).run s = .done ((), s.put b span.start xs) := by
  cases b with
  | array => exact Access.run_write_array h hx
  | workspace => exact Access.run_write_workspace h hx

/-! ## Segments -/

theorem length_segment {b : Buffer} {span : Span} (h : span.stop ≤ (s.buffer b).size) :
    (s.segment b span).length = span.len := by
  simp only [segment, Span.stop, Array.length_toList, Array.size_extract] at h ⊢
  omega

theorem getElem?_segment {b : Buffer} {a n : Nat} (h : a + n ≤ (s.buffer b).size) (i : Nat) :
    (s.segment b ⟨a, n⟩)[i]? = if i < n then (s.buffer b)[a + i]? else none := by
  rw [segment, Array.getElem?_toList, Array.getElem?_extract, Span.stop, Nat.min_eq_left h,
    Nat.add_sub_cancel_left]

theorem take_segment {b : Buffer} {span : Span} (h : span.stop ≤ (s.buffer b).size) :
    ((s.buffer b).extract span.start span.stop).toList.take span.len = s.segment b span :=
  List.take_of_length_le (Nat.le_of_eq (length_segment h))

theorem segment_take {b : Buffer} {a n k : Nat} (h : a + n ≤ (s.buffer b).size) (hk : k ≤ n) :
    (s.segment b ⟨a, n⟩).take k = s.segment b ⟨a, k⟩ := by
  refine List.ext_getElem? fun i => ?_
  rw [List.getElem?_take, getElem?_segment h,
    getElem?_segment (Nat.le_trans (Nat.add_le_add_left hk a) h)]
  by_cases hi : i < k
  · rw [if_pos hi, if_pos (Nat.lt_of_lt_of_le hi hk), if_pos hi]
  · rw [if_neg hi, if_neg hi]

theorem segment_drop {b : Buffer} {a n k : Nat} (h : a + n ≤ (s.buffer b).size) (hk : k ≤ n) :
    (s.segment b ⟨a, n⟩).drop k = s.segment b ⟨a + k, n - k⟩ := by
  refine List.ext_getElem? fun i => ?_
  rw [List.getElem?_drop, getElem?_segment h, getElem?_segment (by omega), Nat.add_assoc]
  by_cases hi : k + i < n
  · rw [if_pos hi, if_pos (by omega)]
  · rw [if_neg hi, if_neg (by omega)]

theorem segment_append {b : Buffer} {a m n : Nat} (h : a + (m + n) ≤ (s.buffer b).size) :
    s.segment b ⟨a, m⟩ ++ s.segment b ⟨a + m, n⟩ = s.segment b ⟨a, m + n⟩ := by
  have hd := segment_drop h (Nat.le_add_right m n)
  rw [Nat.add_sub_cancel_left] at hd
  rw [← segment_take h (Nat.le_add_right m n), ← hd, List.take_append_drop]

end Store

end ForkJoin.Sorting
