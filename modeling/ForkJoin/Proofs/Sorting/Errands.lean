import Mathlib.Data.Multiset.Bind
import ForkJoin.Proofs.Sorting.Pieces
import ForkJoin.Proofs.Sorting.StableSort
import ForkJoin.Proofs.Sorting.Working

/-!
# A merge with all that it forks

A merge that stands alone reports to latches that trigger nothing, and all that its tasks ever fork
are merges of what lies behind the cuts. So each live task has an errand: some of the pieces of the
merge. A task makes the first piece of its errand and forks tasks that have the others, whatever
was done before, and no task is left when every piece has been made once. This holds for every
comparator and every policy. For runs in order the outcome is that of the linear merge.
-/
namespace ForkJoin.Sorting

open Calling Access

variable {α : Type}

/-! ## Latches that trigger nothing -/

/-- One of the first `n` latches, and a part of a root. -/
def Latch.Plain (n : Nat) : Latch → Prop
  | root id => id < n
  | part id whole => id < n ∧ whole.Plain n
  | trigger _ _ _ => False

theorem Latch.Plain.id_lt {n : Nat} {X : Latch} (h : X.Plain n) : X.id < n := by
  cases X with
  | root id => exact h
  | part id whole => exact h.1
  | trigger id m next => exact h.elim

theorem Latch.Plain.mono {n n' : Nat} {X : Latch} (h : X.Plain n) (hn : n ≤ n') : X.Plain n' := by
  induction X with
  | root id => exact h.trans_le hn
  | part id whole ih => exact ⟨h.1.trans_le hn, ih h.2⟩
  | trigger id m next => exact h.elim

/-- The merges that were noted. -/
def merges (log : List Event) : List Merge :=
  log.filterMap fun
    | .did _ (.merge m) => some m
    | _ => none

namespace Store

/-- There may be more latches, but nothing was merged, and no element has changed. -/
structure Unmoved (s s' : Store α) : Prop where
  buffer : s'.buffer = s.buffer
  pending : s.pending.size ≤ s'.pending.size
  merges : merges s'.log.toList = merges s.log.toList

/-- A piece was made. -/
structure Made (p : Piece α) (s s' : Store α) : Prop where
  buffer : s'.buffer = (s.put p.merge.source.other p.merge.dest p.out).buffer
  pending : s.pending.size ≤ s'.pending.size
  merges : merges s'.log.toList = merges s.log.toList ++ [p.merge]

variable {s s' s'' : Store α} {p : Piece α} {X : Latch}

theorem Unmoved.refl (s : Store α) : Unmoved s s := ⟨rfl, le_rfl, rfl⟩

theorem Unmoved.trans (h : Unmoved s s') (h' : Unmoved s' s'') : Unmoved s s'' :=
  ⟨h'.buffer.trans h.buffer, h.pending.trans h'.pending, h'.merges.trans h.merges⟩

theorem Unmoved.told (s : Store α) (X : Latch) (q : UInt32) (last : Bool) :
    Unmoved s (s.told X q last) where
  buffer := funext (buffer_told s X q last)
  pending := Array.size_setIfInBounds.ge
  merges := by simp [Store.told, Sorting.merges]

theorem Unmoved.cutOff (s : Store α) (X : Latch) (m : Merge) (ln rn : Nat) (q : UInt32) :
    Unmoved s (s.cutOff X m ln rn q) where
  buffer := funext (buffer_cutOff s X m ln rn q)
  pending := by simp [Store.cutOff]
  merges := by simp [Store.cutOff, Sorting.merges]

theorem Unmoved.ended (s : Store α) :
    Unmoved s { s.noted .completed with completed := true } where
  buffer := by
    funext b
    cases b <;> rfl
  pending := le_rfl
  merges := by simp [noted, Sorting.merges]

theorem buffer_put_congr (h : s'.buffer = s.buffer) (b : Buffer) (i : Nat) (xs : List α) :
    (s'.put b i xs).buffer = (s.put b i xs).buffer := by
  funext b'
  by_cases hb : b' = b
  · subst hb
    rw [buffer_put_self, buffer_put_self, h]
  · rw [buffer_put_of_ne _ hb, buffer_put_of_ne _ hb, h]

theorem Made.after (h : Made p s' s'') (h' : Unmoved s s') : Made p s s'' :=
  ⟨h.buffer.trans (buffer_put_congr h'.buffer _ _ _), h'.pending.trans h.pending,
    h.merges.trans (congrArg (· ++ [p.merge]) h'.merges)⟩

theorem Made.before (h : Made p s s') (h' : Unmoved s' s'') : Made p s s'' :=
  ⟨h'.buffer.trans h.buffer, h.pending.trans h'.pending, h'.merges.trans h.merges⟩

/-- What a short merge leaves. -/
theorem Made.put (p : Piece α) (s : Store α) (X : Latch) :
    Made p s ((s.put p.merge.source.other p.merge.dest p.out).noted (.did X (.merge p.merge))) where
  buffer := buffer_noted _ _
  pending := (congrArg Array.size (pending_put s _ _ _)).ge
  merges := by simp [noted, log_put, Sorting.merges]

end Store

/-- **A report triggers nothing.** -/
theorem run_report_plain (g : Nat) {X : Latch} {s : Store α} (h : X.Plain s.pending.size) :
    ∃ s', (Task.report g X).run s = .done ([], s') ∧ Store.Unmoved s s' := by
  induction X generalizing s with
  | root id =>
    obtain ⟨q, hq⟩ : ∃ q, s.pending[(Latch.root id).id]? = some q := ⟨_, Array.getElem?_eq_getElem h⟩
    by_cases h0 : q = 0
    · exact ⟨_, run_report_root (h0 ▸ hq), (Store.Unmoved.told s _ _ _).trans (.ended _)⟩
    · exact ⟨_, run_report_early hq h0, .told s _ _ _⟩
  | part id whole ih =>
    obtain ⟨q, hq⟩ : ∃ q, s.pending[(Latch.part id whole).id]? = some q :=
      ⟨_, Array.getElem?_eq_getElem h.1⟩
    by_cases h0 : q = 0
    · have htold := Store.Unmoved.told s (.part id whole) 0 true
      obtain ⟨s', hrun, hs'⟩ := ih (h.2.mono htold.pending)
      exact ⟨s', (run_report_part (h0 ▸ hq)).trans hrun, htold.trans hs'⟩
    · exact ⟨_, run_report_early hq h0, .told s _ _ _⟩
  | trigger id m next => exact h.elim

/-! ## Errands -/

/-- What a task is to do: the pieces of its merge. -/
structure Errand (α : Type) where
  latch : Latch
  merge : Merge
  pieces : List (Piece α)

def Errand.task (e : Errand α) : Task := .merge e.latch e.merge

/-- The pieces are those of the merge, as it was at the start, and there are `n` latches now. -/
structure Errand.Sound (g : Nat) (cmp : α → α → Ordering) (s₀ : Store α) (source : Buffer) (n : Nat)
    (e : Errand α) : Prop where
  latch : e.latch.Plain n
  source : e.merge.source = source
  lies : e.merge.Lies s₀
  splits : Splits g cmp s₀ e.merge e.pieces

variable {g n : Nat} {cmp : α → α → Ordering} {s₀ s : Store α} {m : Merge} {source : Buffer}
  {pieces : List (Piece α)} {e : Errand α}

theorem Errand.Sound.mono {n' : Nat} (h : e.Sound g cmp s₀ source n) (hn : n ≤ n') :
    e.Sound g cmp s₀ source n' :=
  ⟨h.latch.mono hn, h.source, h.lies, h.splits⟩

/-- What is read of a run is what the first elements of it were at the start. -/
theorem take_of_take {run : Array α} {b : Buffer} {a k : Nat} (ha : a + n ≤ (s₀.buffer b).size)
    (hk : k ≤ n) (hrun : run.toList.take n = s₀.segment b ⟨a, n⟩) :
    run.toList.take k = s₀.segment b ⟨a, k⟩ := by
  rw [← Store.segment_take ha hk, ← hrun, List.take_take, Nat.min_eq_left hk]

/-- **The tails of a merge are forked**, and leave its first piece. -/
theorem Splits.forkTails {left right : Array α} {ln rn : Nat} {forked : List Task} {X : Latch}
    (h : Splits g cmp s₀ (m.head ln rn) pieces) (hm : (m.head ln rn).Lies s₀)
    (hleft : left.toList.take ln = s₀.segment m.source ⟨m.left.start, ln⟩)
    (hright : right.toList.take rn = s₀.segment m.source ⟨m.right.start, rn⟩)
    (hX : X.Plain s.pending.size) :
    ∃ (ln' rn' : Nat) (out : List α) (es : List (Errand α)) (s' : Store α)
        (made calls : List (α × α)),
      Returns cmp ((Task.forkTails g X m left right ln rn forked).run s)
        ((ln', rn', es.map Errand.task ++ forked), s') made ∧
      Returns cmp (Sorting.merge (left.toList.take ln') (right.toList.take rn')) out calls ∧
      pieces = ⟨m.head ln' rn', out⟩ :: es.flatMap Errand.pieces ∧
      (∀ e ∈ es, e.Sound g cmp s₀ m.source s'.pending.size) ∧ Store.Unmoved s s' := by
  generalize hwhole : m.head ln rn = whole at h
  induction h generalizing ln rn forked s with
  | @short _ out calls hshort hout =>
    subst hwhole
    refine ⟨ln, rn, out, [], s, [], calls, ?_, ?_, rfl, fun e he => ?_, .refl s⟩
    · have hnone : cut? g left right ln rn = .done none := cut?_short _ _ hshort
      rw [run_forkTails (Array.getElem?_eq_getElem hX.id_lt), hnone]
      exact .done
    · rw [hleft, hright]
      exact hout
    · exact absurd he List.not_mem_nil
  | @cut _ before behind made c hc hcut _ hbehind ihbefore _ =>
    subst hwhole
    have hl : c.left ≤ ln := c.left_le
    have hr : c.right ≤ rn := c.right_le
    obtain ⟨q, hq⟩ : ∃ q, s.pending[X.id]? = some q := ⟨_, Array.getElem?_eq_getElem hX.id_lt⟩
    have hcutOff := Store.Unmoved.cutOff s X m ln rn q
    have hsize : s.pending.size < (s.cutOff X m ln rn q).pending.size := by simp [Store.cutOff]
    -- what lies before the cut is cut in its turn
    obtain ⟨ln', rn', out, es, s', more, calls, hrun, hout, rfl, hes, hs'⟩ :=
      ihbefore (hm.head hl hr) (take_of_take hm.left hl hleft) (take_of_take hm.right hr hright)
        (hX.mono hcutOff.pending) rfl
    refine ⟨ln', rn', out, es ++ [⟨.part s.pending.size X, m.tail ln rn c.left c.right, behind⟩],
      s', made ++ more, calls, ?_, hout, ?_, ?_, hcutOff.trans hs'⟩
    · rw [run_forkTails hq, ← cut?_take left right, hleft, hright, List.map_append,
        List.append_assoc]
      exact hcut.bind hrun
    · rw [List.flatMap_append, List.flatMap_singleton, List.cons_append]
    · intro e he
      rcases List.mem_append.1 he with he | he
      · exact hes e he
      · obtain rfl := List.mem_singleton.1 he
        have hlt := hsize.trans_le hs'.pending
        exact ⟨⟨hlt, hX.mono hlt.le⟩, rfl, hm.tail hl hr, hbehind⟩

/-- **A merge is made but for what it forks**: the first piece is. -/
theorem Errand.Sound.mergeHead (h : e.Sound g cmp s₀ source s.pending.size)
    (hsource : s.buffer source = s₀.buffer source)
    (hsize : ∀ b, (s.buffer b).size = (s₀.buffer b).size) :
    ∃ (p : Piece α) (es : List (Errand α)) (s' : Store α) (made : List (α × α)),
      Returns cmp ((Task.mergeHead g e.latch e.merge).run s) (es.map Errand.task, s') made ∧
      e.pieces = p :: es.flatMap Errand.pieces ∧
      (∀ e' ∈ es, e'.Sound g cmp s₀ source s'.pending.size) ∧ Store.Made p s s' := by
  obtain ⟨X, m, pieces⟩ := e
  obtain ⟨hX, rfl, hm, hsplits⟩ := h
  dsimp only at hX hsource hm hsplits ⊢
  obtain ⟨ln, rn, out, es, s₁, made, calls, hrun, hout, hpieces, hes, hs₁⟩ :=
    hsplits.forkTails (m := m) hm (Store.take_segment hm.left) (Store.take_segment hm.right) hX
  have hof := hsplits.of_mem hm _ (hpieces ▸ List.mem_cons_self)
  have hwrite : (write m.source.other (m.head ln rn).target out).run s₁ =
      .done ((), s₁.put m.source.other m.dest out) := by
    refine Store.run_write ?_ hof.length_out
    rw [hs₁.buffer, hsize]
    exact hof.lies.target
  have hput := Store.Made.put ⟨m.head ln rn, out⟩ s₁ X
  refine ⟨⟨m.head ln rn, out⟩, es, _, made ++ calls, ?_, hpieces,
    fun e he => (hes e he).mono hput.pending, hput.after hs₁⟩
  rw [← hsource] at hrun hout
  simp only [Task.mergeHead, StateT.run_bind,
    run_read (Span.read?_of_le ((hsize m.source).symm ▸ hm.left)),
    run_read (Span.read?_of_le ((hsize m.source).symm ▸ hm.right)), Calling.done_bind,
    Action.run_ofCalling, Calling.bind_bind]
  refine hrun.bind (hout.bind_done ?_)
  dsimp only
  rw [hwrite, List.append_nil]
  rfl

/-- **A task makes the first piece of its errand**, and forks tasks that have the others. -/
theorem Errand.Sound.run (h : e.Sound g cmp s₀ source s.pending.size)
    (hsource : s.buffer source = s₀.buffer source)
    (hsize : ∀ b, (s.buffer b).size = (s₀.buffer b).size) :
    ∃ (p : Piece α) (es : List (Errand α)) (s' : Store α) (made : List (α × α)),
      Returns cmp ((Task.run g e.task).run s) (es.map Errand.task, s') made ∧
      e.pieces = p :: es.flatMap Errand.pieces ∧
      (∀ e' ∈ es, e'.Sound g cmp s₀ source s'.pending.size) ∧ Store.Made p s s' := by
  obtain ⟨p, es, s₁, made, hrun, hpieces, hes, hs₁⟩ := h.mergeHead hsource hsize
  obtain ⟨s₂, hreport, hs₂⟩ := run_report_plain g (h.latch.mono hs₁.pending)
  refine ⟨p, es, s₂, made, ?_, hpieces, fun e' he' => (hes e' he').mono hs₂.pending,
    hs₁.before hs₂⟩
  simp only [Errand.task, Task.run, StateT.run_bind]
  refine hrun.bind_done ?_
  rw [hreport]
  rfl

/-! ## All errands -/

/-- A merge is under way: these of its pieces were made, and these errands are still to be done. -/
structure Underway (g : Nat) (cmp : α → α → Ordering) (s₀ : Store α) (m : Merge)
    (pieces : List (Piece α)) (made : Multiset (Piece α)) (errands : Multiset (Errand α))
    (s : Store α) : Prop where
  sound : ∀ e ∈ errands, e.Sound g cmp s₀ m.source s.pending.size
  pieces : made + errands.bind (fun e => (e.pieces : Multiset (Piece α))) = pieces
  size : ∀ b, (s.buffer b).size = (s₀.buffer b).size
  frame : ∀ b i, ¬ m.touches b i → (s.buffer b)[i]? = (s₀.buffer b)[i]?
  written : ∀ p ∈ made, ∀ i v, Lays p.merge.dest p.out i v →
    (s.buffer m.source.other)[i]? = some v
  merges : (merges s.log.toList : Multiset Merge) =
    (merges s₀.log.toList : Multiset Merge) + made.map Piece.merge

namespace Underway

variable {made : Multiset (Piece α)} {errands : Multiset (Errand α)}

theorem start {X : Latch} (h : Splits g cmp s m pieces) (hm : m.Lies s)
    (hX : X.Plain s.pending.size) : Underway g cmp s m pieces 0 {⟨X, m, pieces⟩} s where
  sound e he := by
    obtain rfl := Multiset.mem_singleton.1 he
    exact ⟨hX, rfl, hm, h⟩
  pieces := by rw [zero_add, Multiset.singleton_bind]
  size _ := rfl
  frame _ _ _ := rfl
  written p hp := absurd hp (Multiset.notMem_zero p)
  merges := by rw [Multiset.map_zero, add_zero]

/-- The runs stay as they are. -/
theorem buffer_source (h : Underway g cmp s₀ m pieces made errands s) :
    s.buffer m.source = s₀.buffer m.source :=
  Array.ext_getElem? fun i => h.frame _ i fun hi => m.source.ne_other hi.1

/-- **One more piece is made.** What it writes is what the others have written there, if any has. -/
theorem step (h : Underway g cmp s₀ m pieces made (e ::ₘ errands) s)
    (hsplits : Splits g cmp s₀ m pieces) (hm : m.Lies s₀) :
    ∃ (p : Piece α) (es : List (Errand α)) (s' : Store α) (calls : List (α × α)),
      Returns cmp ((Task.run g e.task).run s) (es.map Errand.task, s') calls ∧
      Underway g cmp s₀ m pieces (p ::ₘ made) ((es : Multiset (Errand α)) + errands) s' := by
  obtain ⟨p, es, s', calls, hrun, hpieces, hes, hmade⟩ :=
    (h.sound e (Multiset.mem_cons_self _ _)).run h.buffer_source h.size
  have hall : p ::ₘ made + ((es : Multiset (Errand α)) + errands).bind
      (fun e => (e.pieces : Multiset (Piece α))) = pieces := by
    rw [← h.pieces, Multiset.cons_bind, hpieces, Multiset.add_bind, Multiset.coe_bind,
      ← Multiset.cons_coe, Multiset.cons_add, Multiset.cons_add, Multiset.add_cons]
  have hmem : ∀ p' ∈ p ::ₘ made, p' ∈ pieces := fun p' hp' => by
    rw [← Multiset.mem_coe, ← hall]
    exact Multiset.mem_add.2 (.inl hp')
  have hof := hsplits.of_mem hm p (hmem p (Multiset.mem_cons_self _ _))
  have hput : Store.Frame p.merge.touches s
      (s.put p.merge.source.other p.merge.dest p.out) :=
    .put _ _ fun i hi hi' => ⟨rfl, hi, by rwa [hof.length_out] at hi'⟩
  refine ⟨p, es, s', calls, hrun, ?_, hall, fun b => ?_, fun b i hi => ?_, fun p' hp' i v hv => ?_,
    ?_⟩
  · intro e' he'
    rcases Multiset.mem_add.1 he' with he' | he'
    · exact hes e' he'
    · exact (h.sound e' (Multiset.mem_cons_of_mem he')).mono hmade.pending
  · rw [hmade.buffer, hput.size, h.size]
  · rw [hmade.buffer, hput.cells b i fun hi' => hi (hof.touches b i hi'), h.frame b i hi]
  · rw [hmade.buffer]
    by_cases hi : p.merge.touches m.source.other i
    · obtain ⟨w, hw⟩ := exists_lays hi.2.1 (hi.2.2.trans_eq (congrArg _ hof.length_out.symm))
      have hv' := (hsplits.lays_iff hm).2 ⟨p', hmem p' hp', hv⟩
      have hw' := (hsplits.lays_iff hm).2 ⟨p, hmem p (Multiset.mem_cons_self _ _), hw⟩
      obtain rfl := hv'.unique hw'
      rw [hof.source]
      refine Store.getElem?_put ?_ hw
      rw [hof.length_out, h.size, ← hof.source]
      exact hof.lies.target
    · rw [hput.cells _ i hi]
      rcases Multiset.mem_cons.1 hp' with rfl | hp'
      · exact absurd ⟨congrArg Buffer.other hof.source.symm, hv.1,
          hv.lt.trans_eq (congrArg _ hof.length_out)⟩ hi
      · exact h.written p' hp' i v hv
  · rw [hmade.merges, ← Multiset.coe_add, h.merges, Multiset.map_cons, Multiset.coe_singleton,
      add_assoc, ← Multiset.singleton_add, add_comm (Multiset.map _ _)]

/-- Where all pieces were made, nobody has anything to do. -/
theorem eq_zero (h : Underway g cmp s₀ m pieces made errands s)
    (hcard : pieces.length ≤ made.card) : errands = 0 := by
  refine Multiset.eq_zero_of_forall_notMem fun e he => ?_
  have hsum := congrArg Multiset.card h.pieces
  rw [Multiset.card_add, Multiset.coe_card] at hsum
  have hnone : errands.bind (fun e => (e.pieces : Multiset (Piece α))) = 0 :=
    Multiset.card_eq_zero.1 (by omega)
  obtain ⟨p, hp⟩ := List.exists_mem_of_ne_nil _ (h.sound e he).splits.ne_nil
  exact Multiset.notMem_zero p (hnone ▸ Multiset.mem_bind.2 ⟨e, he, hp⟩)

/-- **Where nobody has anything to do, all is written.** -/
theorem segment (h : Underway g cmp s₀ m pieces made 0 s) (hsplits : Splits g cmp s₀ m pieces)
    (hm : m.Lies s₀) : s.segment m.source.other m.target = pieces.flatMap Piece.out := by
  refine Store.segment_of_lays (h.size _ ▸ hm.target) (hsplits.length_out hm) fun i v hv => ?_
  obtain ⟨p, hp, hv⟩ := (hsplits.lays_iff hm).1 hv
  have hall := h.pieces
  rw [Multiset.zero_bind, add_zero] at hall
  exact h.written p (hall ▸ hp) i v hv

end Underway

/-- The live tasks have the errands, and no more pieces are still to be made than steps may
follow. -/
def Attended (g : Nat) (cmp : α → α → Ordering) (s₀ : Store α) (m : Merge) (pieces : List (Piece α))
    (k : Nat) (pool : Multiset Task) (S : Unit → Store α) (_ : List (α × α)) : Prop :=
  ∃ made errands, errands.map Errand.task = pool ∧ pieces.length ≤ Multiset.card made + k ∧
    Underway g cmp s₀ m pieces made errands (S ())

theorem Splits.leads (h : Splits g cmp s m pieces) (hm : m.Lies s) (k : Nat) :
    Work.Leads (Task.run g) cmp (Attended g cmp s m pieces (k + 1)) (Attended g cmp s m pieces k) := by
  rintro task rest S calls ⟨made, errands, hpool, hk, hunder⟩
  obtain ⟨e, he, rfl⟩ := Multiset.mem_map.1 (hpool ▸ Multiset.mem_cons_self task rest)
  obtain ⟨others, rfl⟩ := Multiset.exists_cons_of_mem he
  rw [Multiset.map_cons, Multiset.cons_inj_right] at hpool
  obtain ⟨p, es, s', more, hrun, hunder'⟩ := hunder.step h hm
  refine ⟨es.map Errand.task, fun _ => s', more, fun _ => hrun, p ::ₘ made, es + others, ?_, ?_,
    hunder'⟩
  · rw [Multiset.map_add, Multiset.map_coe, hpool]
  · rw [Multiset.card_cons]
    omega

/-- **A merge with all that it forks makes each of its pieces once**, whatever the comparator and
the policy; its target is written and nothing else, and no task is left. -/
theorem Splits.steps {X : Latch} {k : Nat} (h : Splits g cmp s m pieces) (hm : m.Lies s)
    (hX : X.Plain s.pending.size) (policy : Policy) (hk : pieces.length ≤ k) :
    ∃ (s' : Store α) (calls : List (α × α)),
      Returns cmp ((Work.steps (Task.run g) policy k [.merge X m]).run s) ([], s') calls ∧
      s'.segment m.source.other m.target = pieces.flatMap Piece.out ∧
      (∀ b, (s'.buffer b).size = (s.buffer b).size) ∧
      (∀ b i, ¬ m.touches b i → (s'.buffer b)[i]? = (s.buffer b)[i]?) ∧
      (merges s'.log.toList).Perm (merges s.log.toList ++ pieces.map Piece.merge) := by
  have hstart : Attended g cmp s m pieces k ([.merge X m] : List Task) (fun _ => s) [] :=
    ⟨0, {⟨X, m, pieces⟩}, rfl, by rwa [Multiset.card_zero, zero_add], .start h hm hX⟩
  obtain ⟨k', pool, S, calls, hrun, ⟨made, errands, hpool, hk', hunder⟩, hend⟩ :=
    Work.steps_lead (h.leads hm) policy k hstart
  obtain rfl : errands = 0 := by
    rcases hend with rfl | rfl
    · exact hunder.eq_zero hk'
    · exact Multiset.map_eq_zero.1 hpool
  obtain rfl : pool = [] := (Multiset.coe_eq_zero pool).1 (hpool.symm.trans (Multiset.map_zero _))
  have hall := hunder.pieces
  have hmerges := hunder.merges
  rw [Multiset.zero_bind, add_zero] at hall
  rw [hall, Multiset.map_coe, Multiset.coe_add] at hmerges
  exact ⟨S (), calls, hrun (), hunder.segment h hm, hunder.size, hunder.frame,
    Multiset.coe_eq_coe.1 hmerges⟩

/-! ## Runs in order -/

/-- The recursive merge of two runs in order is their stable arrangement, and so is the linear
merge. -/
theorem exists_merged {left right : List α} (hcmp : TotalPreorderOn cmp (· ∈ left ++ right))
    (hg : 0 < g) (hleft : left.Pairwise fun a b => cmp a b ≠ .gt)
    (hright : right.Pairwise fun a b => cmp a b ≠ .gt) : ∃ (merged : List α)
      (made calls : List (α × α)), StableArrangement cmp (left ++ right) merged ∧
        Returns cmp (Sorting.merge left right) merged made ∧
        Returns cmp (splitMerge g left right) merged calls := by
  have hl : OrderedRun cmp (· ∈ left ++ right) left :=
    ⟨fun _ => List.mem_append_left right, hleft⟩
  have hr : OrderedRun cmp (· ∈ left ++ right) right :=
    ⟨fun _ => List.mem_append_right left, hright⟩
  obtain ⟨merged, made, hmerge, hmerged⟩ :=
    (merge_on hcmp hl hr).returns (f := cmp) fun _ _ _ => rfl
  obtain ⟨split, calls, hsplit, hsplits⟩ :=
    (splitMerge_on hcmp hg hl hr).returns (f := cmp) fun _ _ _ => rfl
  have hstable := hmerged.moved.stableArrangement (fun _ h => h) hmerged.sorted
  obtain rfl : split = merged :=
    (hsplits.moved.stableArrangement (fun _ h => h) hsplits.sorted).unique hcmp hstable
  exact ⟨split, made, calls, hstable, hmerge, hsplit⟩

/-- **A merge with all that it forks leaves what the linear merge returns**: for runs in the order
of a total preorder, any granularity and any policy, as soon as one step can be made for each
element. Elements that compare equal stand in the order of the runs. -/
theorem merge_forked {ε : Type} (cmp : α → α → Ordering) (left right : List α)
    (hcmp : TotalPreorderOn cmp (· ∈ left ++ right))
    (hleft : left.Pairwise fun a b => cmp a b ≠ .gt)
    (hright : right.Pairwise fun a b => cmp a b ≠ .gt) {g : Nat} (hg : 0 < g) :
    ∃ merged : List α, StableArrangement cmp (left ++ right) merged ∧
      (∃ calls, (Sorting.merge left right).run (fun a b => (.ok (cmp a b) : Except ε Ordering)) =
        .ok ⟨merged, calls⟩) ∧
      ∀ (m : Merge) (X : Latch) (s : Store α), m.Lies s → X.Plain s.pending.size →
        s.segment m.source m.left = left → s.segment m.source m.right = right →
        ∀ (policy : Policy) (k : Nat), max 1 (left.length + right.length) ≤ k →
          ∃ s' calls,
            ((Work.steps (Task.run g) policy k [.merge X m]).run s).run
              (fun a b => (.ok (cmp a b) : Except ε Ordering)) = .ok ⟨([], s'), calls⟩ ∧
            s'.segment m.source.other m.target = merged ∧
            (∀ b, (s'.buffer b).size = (s.buffer b).size) ∧
            ∀ b i, ¬ m.touches b i → (s'.buffer b)[i]? = (s.buffer b)[i]? := by
  obtain ⟨merged, made, split, hstable, hmerge, hsplit⟩ := exists_merged hcmp hg hleft hright
  refine ⟨merged, hstable, ⟨_, hmerge.run⟩, ?_⟩
  rintro m X s hm hX rfl rfl policy k hk
  obtain ⟨pieces, hpieces⟩ := hm.exists_splits hg cmp
  rw [Store.length_segment hm.left, Store.length_segment hm.right] at hk
  obtain ⟨s', calls, hrun, hsegment, hsize, hframe, -⟩ :=
    hpieces.steps hm hX policy ((hpieces.length_le hg).trans hk)
  obtain ⟨_, hreturns⟩ := hpieces.returns hm hg
  refine ⟨s', _, hrun.run, ?_, hsize, hframe⟩
  rw [hsegment, (hreturns.unique hsplit).1]

/-- Pairs are merged by their first part, cut at every turn, by tasks in a changing order. -/
theorem merge_forked_pairs : ∃ (s : Store (Nat × Nat)) (calls : Array ((Nat × Nat) × (Nat × Nat))),
    ((Work.steps (Task.run 1) (fun k => k / 2) 7
        [.merge (.root 0) ⟨.array, ⟨0, 4⟩, ⟨4, 3⟩, 0⟩]).run
      (Store.start #[(0, 0), (1, 1), (1, 2), (2, 3), (1, 4), (1, 5), (2, 6)]
        (Array.replicate 7 (9, 9)))).run
      (fun a b => (.ok (compare a.1 b.1) : Except String Ordering)) = .ok ⟨([], s), calls⟩ ∧
    s.segment .workspace ⟨0, 7⟩ = [(0, 0), (1, 1), (1, 2), (1, 4), (1, 5), (2, 3), (2, 6)] := by
  obtain ⟨merged, hstable, -, hrun⟩ := merge_forked (ε := String)
    (fun a b : Nat × Nat => compare a.1 b.1) [(0, 0), (1, 1), (1, 2), (2, 3)]
    [(1, 4), (1, 5), (2, 6)] (.comparing Prod.fst _) (by decide) (by decide) (g := 1) Nat.one_pos
  obtain rfl : [(0, 0), (1, 1), (1, 2), (1, 4), (1, 5), (2, 3), (2, 6)] = merged :=
    StableArrangement.unique (.comparing Prod.fst _) ⟨by decide, by decide, by decide⟩ hstable
  obtain ⟨s, calls, hreport, hsegment, -, -⟩ := hrun ⟨.array, ⟨0, 4⟩, ⟨4, 3⟩, 0⟩ (.root 0)
    (Store.start #[(0, 0), (1, 1), (1, 2), (2, 3), (1, 4), (1, 5), (2, 6)]
      (Array.replicate 7 (9, 9)))
    ⟨by decide, by decide, by decide⟩ Nat.one_pos rfl rfl (fun k => k / 2) 7 (by decide)
  exact ⟨s, calls, hreport, hsegment⟩

end ForkJoin.Sorting
