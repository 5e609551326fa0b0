import ForkJoin.Proofs.Sorting.Permutation
import ForkJoin.Proofs.Sorting.Reports
import Mathlib.Algebra.Ring.Nat

/-!
# A merge by tasks is the recursive merge

A single worker that is about to merge two runs cuts them as often as they are too long, merges
what is before the first cut, and then takes the tasks that merge what lies behind the cuts, the
last cut first. Each of them reports to the latch of the merge, and as many reports were announced
to it as cuts were made, so the last of them is the one that the merge was to make.
-/
namespace ForkJoin.Sorting

open Calling Work Access

variable {α : Type}

/-! ## Merges and the state -/

/-- The elements that a merge writes. -/
def Merge.touches (m : Merge) (b : Buffer) (i : Nat) : Prop :=
  b = m.source.other ∧ m.target.start ≤ i ∧ i < m.target.stop

/-- The runs lie within their buffer and the target within the other, and the numbers of elements
are numbers of 64 bits. -/
structure Merge.Fits (m : Merge) (s : Store α) : Prop where
  left : m.left.stop ≤ (s.buffer m.source).size
  right : m.right.stop ≤ (s.buffer m.source).size
  target : m.target.stop ≤ (s.buffer m.source.other).size
  left_lt : m.left.len < 2 ^ 64
  right_lt : m.right.len < 2 ^ 64

/-- The merge has been done, and has left `ys`. -/
structure Merged (m : Merge) (ys : List α) (s s' : Store α) : Prop where
  frame : Store.Frame m.touches s s'
  segment : s'.segment m.source.other m.target = ys

variable {m : Merge} {s s' : Store α} {ln rn lh rh : Nat} {touched : Buffer → Nat → Prop}

/-- The source of a merge stays as it is. -/
theorem Merge.segment_source {m' : Merge} (h : Store.Frame m.touches s s')
    (hm : m'.source = m.source) (span : Span) :
    s'.segment m'.source span = s.segment m'.source span := by
  refine h.segment_eq fun i _ _ hi => ?_
  rw [hm] at hi
  exact m.source.ne_other hi.1

theorem Merge.Fits.frame (h : m.Fits s) (hs : Store.Frame touched s s') : m.Fits s' :=
  ⟨by rw [hs.size]; exact h.left, by rw [hs.size]; exact h.right, by rw [hs.size]; exact h.target,
    h.left_lt, h.right_lt⟩

theorem Merge.Fits.cutOff (h : m.Fits s) (latch : Latch) (m' : Merge) (ln rn : Nat) (p : UInt32) :
    m.Fits (s.cutOff latch m' ln rn p) := by
  refine ⟨?_, ?_, ?_, h.left_lt, h.right_lt⟩ <;> rw [Store.buffer_cutOff]
  · exact h.left
  · exact h.right
  · exact h.target

theorem Merge.Fits.head (h : (m.head ln rn).Fits s) (hl : lh ≤ ln) (hr : rh ≤ rn) :
    (m.head lh rh).Fits s := by
  obtain ⟨h₁, h₂, h₃, h₄, h₅⟩ := h
  simp only [Merge.head, Merge.target, Span.stop] at h₁ h₂ h₃ h₄ h₅
  constructor <;> simp only [Merge.head, Merge.target, Span.stop] <;> omega

theorem Merge.Fits.tail (h : (m.head ln rn).Fits s) (hl : lh ≤ ln) (hr : rh ≤ rn) :
    (m.tail ln rn lh rh).Fits s := by
  obtain ⟨h₁, h₂, h₃, h₄, h₅⟩ := h
  simp only [Merge.head, Merge.target, Span.stop] at h₁ h₂ h₃ h₄ h₅
  constructor <;> simp only [Merge.tail, Merge.target, Span.stop] <;> omega

theorem Merge.touches_head (hl : lh ≤ ln) (hr : rh ≤ rn) (b : Buffer) (i : Nat)
    (h : (m.head lh rh).touches b i) : (m.head ln rn).touches b i := by
  simp only [Merge.touches, Merge.head, Merge.target, Span.stop] at h ⊢
  exact ⟨h.1, h.2.1, by omega⟩

theorem Merge.touches_tail (hl : lh ≤ ln) (hr : rh ≤ rn) (b : Buffer) (i : Nat)
    (h : (m.tail ln rn lh rh).touches b i) : (m.head ln rn).touches b i := by
  simp only [Merge.touches, Merge.head, Merge.tail, Merge.target, Span.stop] at h ⊢
  exact ⟨h.1, by omega, by omega⟩

/-- A merge is done if the merges before and behind a cut are. -/
theorem Merged.append {s₁ s₂ s₃ : Store α} {head tail : List α}
    (hfits : (m.head ln rn).Fits s) (hl : lh ≤ ln) (hr : rh ≤ rn)
    (hhead : Store.Frame (m.head lh rh).touches s s₁)
    (hys : s₁.segment m.source.other (m.head lh rh).target = head)
    (htail : Merged (m.tail ln rn lh rh) tail s₁ s₂)
    (hlast : Store.Frame (fun _ _ => False) s₂ s₃) :
    Merged (m.head ln rn) (head ++ tail) s s₃ := by
  have hframe : Store.Frame (m.head ln rn).touches s s₃ :=
    (hhead.mono (Merge.touches_head hl hr)).trans <|
      (htail.frame.mono (Merge.touches_tail hl hr)).trans (hlast.mono fun _ _ => False.elim)
  refine ⟨hframe, ?_⟩
  have hsize := hframe.size m.source.other
  have htarget := hfits.target
  have hkeep : s₂.segment m.source.other (m.head lh rh).target = head := by
    rw [htail.frame.segment_eq, hys]
    intro i _ hi hi'
    simp only [Merge.touches, Merge.tail, Merge.head, Merge.target, Span.stop] at hi hi'
    omega
  have hall := Store.segment_append (s := s₃) (b := m.source.other) (a := m.dest) (m := lh + rh)
    (n := (ln - lh) + (rn - rh)) (by
      simp only [Merge.head, Merge.target, Span.stop] at htarget hsize ⊢
      omega)
  rw [hlast.segment_eq fun _ _ _ => id, hlast.segment_eq fun _ _ _ => id] at hall
  have htailseg := htail.segment
  simp only [Merge.head, Merge.tail, Merge.target, Nat.add_assoc] at hkeep htailseg hall ⊢
  rw [hkeep, htailseg] at hall
  rw [hall]
  congr 2
  omega

/-! ## Cuts -/

theorem splitMerge_eq {g : Nat} {left right : List α} (hl : left.length = ln)
    (hr : right.length = rn) :
    splitMerge g left right = cut? g left.toArray right.toArray ln rn >>= fun c? =>
      match c? with
      | none => Sorting.merge left right
      | some c =>
        if 0 < c.left + c.right then do
          let head ← splitMerge g (left.take c.left) (right.take c.right)
          let tail ← splitMerge g (left.drop c.left) (right.drop c.right)
          return head ++ tail
        else .fault .unfinished := by
  subst hl hr
  rw [splitMerge]
  congr 1
  funext c?
  cases c? with
  | none => rfl
  | some c => simp only [dite_eq_ite]

/-- A counter that is not the largest number can be raised. -/
theorem toNat_raise {p : UInt32} (h : p.toNat + 1 < 2 ^ 32) : (p + 1).toNat = p.toNat + 1 := by
  rw [UInt32.toNat_add]
  exact Nat.mod_eq_of_lt h

theorem raise_ne_zero {p : UInt32} (h : p.toNat + 1 < 2 ^ 32) : p + 1 ≠ 0 := by
  intro h0
  have hnat := toNat_raise h
  rw [h0] at hnat
  exact Nat.succ_ne_zero _ hnat.symm

/-- Before the cut, the numbers of elements have one binary digit less. -/
theorem Cut.Halves.digits {g a b : Nat} {c : Cut ln rn} (h : c.Halves g) (ha : ln < 2 ^ a)
    (hb : rn < 2 ^ b) : ∃ a' b', a' + b' + 1 = a + b ∧ c.left < 2 ^ a' ∧ c.right < 2 ^ b' := by
  have hlonger := h.longer
  have hl := c.left_le
  have hr := c.right_le
  rcases h.middle with ⟨hle, hc⟩ | ⟨hlt, hc⟩
  · cases a with
    | zero => omega
    | succ a => exact ⟨a, b, by omega, by rw [Nat.pow_succ] at ha; omega, by omega⟩
  · cases b with
    | zero => omega
    | succ b => exact ⟨a, b, by omega, by omega, by rw [Nat.pow_succ] at hb; omega⟩

/-- A merge whose runs are cut no more. -/
theorem follows_mergeShort {g K : Nat} {latch : Latch} {later : List Task} {left right : Array α}
    (hfits : (m.head ln rn).Fits s)
    (hleft : left.toList.take ln = s.segment m.source ⟨m.left.start, ln⟩)
    (hright : right.toList.take rn = s.segment m.source ⟨m.right.start, rn⟩) :
    Follows (fun ys y => ∃ s', y = reporting g K latch later s' ∧ Merged (m.head ln rn) ys s s')
      (mergeShort g K latch later s m left right ln rn)
      (Sorting.merge (left.toList.take ln) (right.toList.take rn)) := by
  rw [mergeShort, ← Calling.bind_done (Sorting.merge _ _), Calling.bind_bind]
  refine (merge_perm _ _).follows.seq ?_
  rintro ys _ ⟨rfl, hperm⟩
  have hlen : ys.length = (m.head ln rn).target.len := by
    have hll := Store.length_segment hfits.left
    have hlr := Store.length_segment hfits.right
    rw [hperm.length_eq, List.length_append, hleft, hright]
    exact congr (congrArg _ hll) hlr
  have hwrite := Store.run_write (b := m.source.other) hfits.target hlen
  rw [Calling.done_bind, hwrite]
  refine .done ⟨_, rfl, ?_, ?_⟩
  · refine (Store.Frame.put _ ys fun j hj hj' => ⟨rfl, hj, ?_⟩).trans (.noted _)
    rwa [hlen] at hj'
  · exact Store.segment_put s _ hlen hfits.target

/-- The merge by tasks of `n` elements, in runs that were fetched before, is the recursive merge, up
to the last report to the latch. -/
def CutsAs (α : Type) (g n : Nat) : Prop :=
  ∀ (m : Merge) (ln rn : Nat) (latch : Latch) (later forked : List Task) {s : Store α}
    {K k a b : Nat} {p : UInt32} {left right : Array α}, ln + rn = n → (m.head ln rn).Fits s →
    left.toList.take ln = s.segment m.source ⟨m.left.start, ln⟩ →
    right.toList.take rn = s.segment m.source ⟨m.right.start, rn⟩ →
    s.pending[latch.id]? = some p → ln < 2 ^ a → rn < 2 ^ b → p.toNat + a + b < 2 ^ 32 →
    k + (n - 1) ≤ K →
    Follows (Reports g k latch (forked ++ later) fun ys s' => Merged (m.head ln rn) ys s s')
      (cutting g K latch later s m left right ln rn forked)
      (splitMerge g (left.toList.take ln) (right.toList.take rn))

/-- What lies behind a cut is merged once what lies before it was: the latch has had the first of
its reports. -/
theorem follows_behind {g K k : Nat} {latch : Latch} {later : List Task} {p : UInt32}
    {s₁ : Store α} {head : List α} {c : Cut ln rn} (ih : CutsAs α g (ln + rn - (c.left + c.right)))
    (hfits : (m.head ln rn).Fits s) (hp : s.pending[latch.id]? = some p)
    (hp1 : p.toNat + 1 < 2 ^ 32)
    (hhead : Merged (m.head c.left c.right) head (s.cutOff latch m ln rn p) s₁)
    (hshrinks : c.left + c.right < ln + rn) (hK : k + (ln + rn - (c.left + c.right)) ≤ K) :
    Follows (Reports g k latch later fun tail s' => Merged (m.head ln rn) (head ++ tail) s s')
      (reporting g K latch
        (.merge (.part s.pending.size latch) (m.tail ln rn c.left c.right) :: later) s₁)
      (splitMerge g (s.segment m.source ⟨m.left.start + c.left, ln - c.left⟩)
        (s.segment m.source ⟨m.right.start + c.right, rn - c.right⟩)) := by
  have hl := c.left_le
  have hr := c.right_le
  have hp₁ := hhead.frame.pending_eq (Store.pending_cutOff_self hp)
  rw [reporting_early hp₁ (raise_ne_zero hp1), UInt32.add_sub_cancel, alone_merge (by omega)]
  -- the counters are as before the cut, and there is a new one
  have frame₂ := hhead.frame.undo false hp
  have hfits₂ := (hfits.tail hl hr).frame frame₂
  have hnew₂ : (s₁.told latch p false).pending[s.pending.size]? = some 0 := by
    have hid := (Array.getElem?_eq_some_iff.1 hp).1
    rw [Store.pending_told, if_neg (by omega)]
    exact hhead.frame.pending_eq Store.pending_cutOff_new
  rw [merging_eq hfits₂.left hfits₂.right]
  have htail := ih (m.tail ln rn c.left c.right) (ln - c.left) (rn - c.right)
    (.part s.pending.size latch) later [] (K := K - 1) (k := k) (a := 64) (b := 64) (by omega)
    hfits₂ (Store.take_segment hfits₂.left) (Store.take_segment hfits₂.right) hnew₂ hfits₂.left_lt
    hfits₂.right_lt (by decide) (by omega)
  have hdropl := (Store.take_segment hfits₂.left).trans (Merge.segment_source frame₂ rfl _)
  have hdropr := (Store.take_segment hfits₂.right).trans (Merge.segment_source frame₂ rfl _)
  simp only [Merge.tail] at hdropl hdropr htail
  rw [hdropl, hdropr] at htail
  refine htail.mono ?_
  rintro tail _ ⟨K₂, s₃, hk₂, rfl, hmerged₂⟩
  have hnew₃ := hmerged₂.frame.pending_eq hnew₂
  refine ⟨K₂, _, hk₂, reporting_part hnew₃, ?_⟩
  exact Merged.append hfits hl hr frame₂ hhead.segment hmerged₂ (.told true hnew₃)

/-- **Two runs that were fetched before are merged as the recursive merge does it**, up to the last
report to the latch. -/
theorem follows_cutting {g : Nat} (hg : 0 < g) (n : Nat) : CutsAs α g n := by
  induction n using Nat.strongRecOn with
  | ind n ih =>
    intro m ln rn latch later forked s K k a b p left right hn hfits hleft hright hp ha hb hpab hK
    have hfl : m.left.start + ln ≤ (s.buffer m.source).size := hfits.left
    have hfr : m.right.start + rn ≤ (s.buffer m.source).size := hfits.right
    have hll : (left.toList.take ln).length = ln := by
      rw [hleft]
      exact Store.length_segment hfl
    have hlr : (right.toList.take rn).length = rn := by
      rw [hright]
      exact Store.length_segment hfr
    rw [cutting_eq hp, splitMerge_eq hll hlr, cut?_take]
    refine (cut?_halves g ?_ ?_).follows.seq ?_
    · rw [List.length_take, Array.length_toList] at hll
      omega
    · rw [List.length_take, Array.length_toList] at hlr
      omega
    rintro (_ | c) _ ⟨rfl, hc⟩
    · refine (follows_mergeShort hfits hleft hright).mono ?_
      rintro ys _ ⟨s', rfl, hmerged⟩
      exact ⟨K, s', by omega, rfl, hmerged⟩
    · have hhalves := hc c rfl
      have hpos := hhalves.pos hg
      have hl := c.left_le
      have hr := c.right_le
      have hshrinks := c.shrinks
      obtain ⟨a', b', hab, ha', hb'⟩ := hhalves.digits ha hb
      simp only [if_pos hpos]
      rw [hleft, hright, Store.segment_take hfl hl, Store.segment_take hfr hr,
        Store.segment_drop hfl hl, Store.segment_drop hfr hr]
      have hp1 : p.toNat + 1 < 2 ^ 32 := by omega
      have hnat := toNat_raise hp1
      have htakel : left.toList.take c.left = s.segment m.source ⟨m.left.start, c.left⟩ := by
        rw [← Store.segment_take hfl hl, ← hleft, List.take_take, Nat.min_eq_left hl]
      have htaker : right.toList.take c.right = s.segment m.source ⟨m.right.start, c.right⟩ := by
        rw [← Store.segment_take hfr hr, ← hright, List.take_take, Nat.min_eq_left hr]
      have hhead := ih (c.left + c.right) (by omega) m c.left c.right latch later
        (.merge (.part s.pending.size latch) (m.tail ln rn c.left c.right) :: forked) (K := K)
        (k := k + (n - (c.left + c.right))) rfl ((hfits.head hl hr).cutOff latch m ln rn p)
        (by rw [htakel, Store.segment_cutOff]) (by rw [htaker, Store.segment_cutOff])
        (Store.pending_cutOff_self hp) ha' hb' (by omega) (by omega)
      rw [htakel, htaker] at hhead
      refine hhead.bind ?_
      rintro head _ ⟨K₁, s₁, hk₁, rfl, hmerged₁⟩
      rw [List.cons_append]
      refine (follows_behind (k := k) (ih _ (by omega)) hfits hp hp1 hmerged₁ (by omega)
        (by omega)).bind ?_
      rintro tail _ ⟨K₂, s₂, hk₂, rfl, hmerged₂⟩
      exact .done ⟨K₂, s₂, hk₂, rfl, hmerged₂⟩

/-- **A merge by tasks is the recursive merge**, up to the report to its latch. -/
theorem follows_merging {g : Nat} (hg : 0 < g) {K k : Nat} (latch : Latch) {later : List Task}
    (hfits : m.Fits s) (hp : s.pending[latch.id]? = some 0)
    (hK : k + (m.left.len + m.right.len - 1) ≤ K) :
    Follows (Reports g k latch later fun ys s' => Merged m ys s s')
      (merging g K latch later s m)
      (splitMerge g (s.segment m.source m.left) (s.segment m.source m.right)) := by
  have hcutting := follows_cutting hg _ m m.left.len m.right.len latch later [] (a := 64) (b := 64)
    rfl hfits (Store.take_segment hfits.left) (Store.take_segment hfits.right) hp hfits.left_lt
    hfits.right_lt (by decide) hK
  rw [Store.take_segment hfits.left, Store.take_segment hfits.right] at hcutting
  rw [merging_eq hfits.left hfits.right]
  exact hcutting

end ForkJoin.Sorting
