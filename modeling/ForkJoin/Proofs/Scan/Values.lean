import ForkJoin.Proofs.Interleaving
import ForkJoin.Proofs.Scan.ClosedForm
import ForkJoin.Proofs.Scan.Family

/-!
# What the nodes of a scan are worth

With an operator that answers all it is asked, all that the visits of a scan leave anywhere is
known beforehand: the sum of each node, what precedes it, and the elements that its leaves have in
the end. They are values of the groupings of `Grouping`, and so is every operand of a call.
`Setting` gathers what a run is determined by, and the equations at a node that is cut say what
its visits make of the values of its halves.
-/
namespace ForkJoin.Scan

open Calling

variable {α γ δ : Type}

/-! ## Additions -/

/-- The operand pairs on the way to a left fold. -/
def additions (op : γ → γ → γ) : List γ → List (γ × γ)
  | x :: y :: zs => (x, y) :: additions op (op x y :: zs)
  | _ => []
termination_by xs => xs.length

@[simp] theorem additions_nil (op : γ → γ → γ) : additions op [] = [] := by
  simp [additions]

@[simp] theorem additions_singleton (op : γ → γ → γ) (x : γ) : additions op [x] = [] := by
  simp [additions]

theorem additions_cons_cons (op : γ → γ → γ) (x y : γ) (zs : List γ) :
    additions op (x :: y :: zs) = (x, y) :: additions op (op x y :: zs) := by
  rw [additions]

theorem additions_map {op : γ → γ → γ} {op' : δ → δ → δ} {f : γ → δ}
    (hf : ∀ x y, f (op x y) = op' (f x) (f y)) (x : γ) (xs : List γ) :
    additions op' ((x :: xs).map f) = (additions op (x :: xs)).map (Prod.map f f) := by
  induction xs generalizing x with
  | nil => simp
  | cons y ys ih =>
    rw [List.map_cons, List.map_cons, additions_cons_cons, additions_cons_cons, List.map_cons,
      ← hf, ← List.map_cons, ih]
    rfl

variable {op : α → α → α}

theorem returns_foldFrom (acc : α) (xs : List α) :
    Returns op (foldFrom acc xs) (xs.foldl op acc) (additions op (acc :: xs)) := by
  induction xs generalizing acc with
  | nil => rw [additions_singleton]; exact .done
  | cons x xs ih => rw [additions_cons_cons]; exact .call (ih _)

theorem returns_fold (xs : List α) :
    Returns op (fold xs) (leftFold op xs) (additions op xs) := by
  cases xs with
  | nil => rw [additions_nil]; exact .done
  | cons x xs => exact (returns_foldFrom x xs).map

theorem sweepFrom_calls {swept xs ys : List α} {last : α} {calls : List (α × α)}
    (h : Returns op (sweepFrom swept last xs) ys calls) : calls = additions op (last :: xs) := by
  induction xs generalizing swept last calls with
  | nil => cases h; rw [additions_singleton]
  | cons x xs ih =>
    cases h with
    | call h => rw [additions_cons_cons, ih h]

theorem sweep_calls {carry : Option α} {xs ys : List α} {calls : List (α × α)}
    (h : Returns op (sweep carry xs) ys calls) : calls = additions op (carry.toList ++ xs) := by
  cases xs with
  | nil => cases h; cases carry <;> simp
  | cons x xs =>
    cases carry with
    | none => exact sweepFrom_calls h
    | some c =>
      cases h with
      | call h => rw [sweepFrom_calls h, Option.toList_some, List.singleton_append,
          additions_cons_cons]

/-- A sweep leaves the left folds of what precedes and the elements up to each. -/
theorem returns_sweep (carry : Option α) {xs ys : List α} (hlen : ys.length = xs.length)
    (hys : ∀ i < xs.length, ys[i]? = leftFold op (carry.toList ++ xs.take (i + 1))) :
    Returns op (sweep carry xs) ys (additions op (carry.toList ++ xs)) := by
  have hsweep : (Scan.sweep carry xs).Ensures (.on (fun _ => True) op) fun ys =>
      ys.length = xs.length ∧
        ∀ i < xs.length, ys[i]? = leftFold op (carry.toList ++ xs.take (i + 1)) :=
    sweep_on (fun _ _ _ _ => trivial) (fun _ _ => trivial) fun _ _ => trivial
  obtain ⟨zs, calls, hreturns, hzlen, hzs⟩ := hsweep.returns fun _ _ _ => rfl
  obtain rfl : zs = ys := by
    refine List.ext_getElem? fun i => ?_
    by_cases hi : i < xs.length
    · rw [hzs i hi, hys i hi]
    · rw [List.getElem?_eq_none (by omega), List.getElem?_eq_none (by omega)]
  rwa [sweep_calls hreturns] at hreturns

/-! ## Groupings -/

namespace Grouping

/-- What a grouping is worth, if the elements are known by their positions. -/
def eval (op : α → α → α) (x : Nat → α) : Grouping → α
  | .elem i => x i
  | .join left right => op (left.eval op x) (right.eval op x)

variable {x : Nat → α} {threshold : Nat} {ht : 0 < threshold} {root s : Span} {i : Nat}

theorem value_eq_eval {xs : List α} {g : Grouping} (h : ∀ i ∈ g.indices, xs[i]? = some (x i)) :
    g.value op xs = some (g.eval op x) := by
  induction g with
  | elem i => exact h i List.mem_cons_self
  | join left right ihl ihr =>
    exact value_join (ihl fun i hi => h i (List.mem_append_left _ hi))
      (ihr fun i hi => h i (List.mem_append_right _ hi))

theorem eval_foldl (g : Grouping) (gs : List Grouping) :
    (gs.foldl join g).eval op x = (gs.map (eval op x)).foldl op (g.eval op x) := by
  induction gs generalizing g with
  | nil => rfl
  | cons h gs ih => rw [List.foldl_cons, ih, List.map_cons, List.foldl_cons, eval]

theorem leftFold_map_eval (gs : List Grouping) :
    leftFold op (gs.map (eval op x)) = (leftFold join gs).map (eval op x) := by
  cases gs with
  | nil => rfl
  | cons g gs => rw [List.map_cons, leftFold, leftFold, Option.map_some, eval_foldl]

theorem additions_map_eval (gs : List Grouping) : additions op (gs.map (eval op x)) =
    (additions join gs).map (Prod.map (eval op x) (eval op x)) := by
  cases gs with
  | nil => simp
  | cons g gs => exact additions_map (fun _ _ => rfl) g gs

theorem map_eval_elems (s : Span) :
    (elems s).map (eval op x) = (List.range' s.start s.len).map x := by
  simp only [elems, List.map_map]
  rfl

/-- A sum that begins with what is before is a sum of what is before and the rest. -/
theorem leftFold_append_of_some {op : γ → γ → γ} {xs : List γ} {z : γ}
    (h : leftFold op xs = some z) (ys : List γ) :
    leftFold op (xs ++ ys) = leftFold op (z :: ys) := by
  cases xs with
  | nil => cases h
  | cons x xs =>
    obtain rfl := Option.some.inj h
    rw [List.cons_append, leftFold, leftFold, List.foldl_append]

/-! ### Descending the tree -/

/-- The span is reached by halving spans that are longer than the threshold. -/
inductive Descends (threshold : Nat) (root : Span) : Span → Prop
  | refl : Descends threshold root root
  | lower {s : Span} : Descends threshold root s → threshold < s.len →
    Descends threshold root s.lower
  | upper {s : Span} : Descends threshold root s → threshold < s.len →
    Descends threshold root s.upper

theorem start_lt_upper (ht : 0 < threshold) (h : threshold < s.len) :
    s.start < s.upper.start := by
  simp only [Span.upper]
  omega

theorem turns_lower (h : threshold < s.len) (hi : i < s.upper.start) :
    turns threshold ht s i = turns threshold ht s.lower i := by
  rw [turns, if_pos h, if_pos hi]

theorem turns_upper (h : threshold < s.len) (hi : s.upper.start ≤ i) :
    turns threshold ht s i = s.lower :: turns threshold ht s.upper i := by
  rw [turns, if_pos h, if_neg (Nat.not_lt.2 hi)]

/-- The path to the first index of a span never turns right. -/
theorem turns_start (s : Span) : turns threshold ht s s.start = [] := by
  induction hlen : s.len using Nat.strongRecOn generalizing s with
  | ind len ih =>
    by_cases h : threshold < s.len
    · rw [turns_lower h (start_lt_upper ht h)]
      exact ih s.lower.len (by simp only [Span.lower]; omega) s.lower rfl
    · rw [turns, if_neg h]

/-- A path that comes by a span goes to its first index first. -/
theorem Descends.turns_eq (hd : Descends threshold root s) (hi : s.start ≤ i) (hi' : i < s.stop) :
    turns threshold ht root i = turns threshold ht root s.start ++ turns threshold ht s i := by
  induction hd generalizing i with
  | refl => rw [turns_start, List.nil_append]
  | @lower s _ h ih =>
    have hstop : s.lower.stop ≤ s.stop := s.lower_inside.2
    rw [ih hi (by omega), turns_lower h hi']
    rfl
  | @upper s _ h ih =>
    have hstart := start_lt_upper ht h
    rw [Span.stop_upper] at hi'
    rw [ih (by omega) hi', ih (i := s.upper.start) (by omega) (by omega), turns_upper h hi,
      turns_upper h (Nat.le_refl _), turns_start, List.append_assoc, List.singleton_append]

theorem Descends.turns_ne_nil (hd : Descends threshold root s) (hs : s.start ≠ root.start)
    (hle : 0 < s.len) : turns threshold ht root s.start ≠ [] := by
  induction hd with
  | refl => exact absurd rfl hs
  | @lower s hd h ih => exact ih hs (by omega)
  | @upper s hd h ih =>
    have hstart := start_lt_upper ht h
    have hstop : s.upper.start < s.stop := by
      simp only [Span.upper, Span.stop] at hle ⊢
      omega
    rw [hd.turns_eq (by omega) hstop, turns_upper h (Nat.le_refl _)]
    exact List.append_ne_nil_of_right_ne_nil _ (List.cons_ne_nil _ _)

theorem leafOf_lower (h : threshold < s.len) (hi : i < s.upper.start) :
    leafOf threshold ht s i = leafOf threshold ht s.lower i := by
  rw [leafOf, if_pos h, if_pos hi]

theorem leafOf_upper (h : threshold < s.len) (hi : s.upper.start ≤ i) :
    leafOf threshold ht s i = leafOf threshold ht s.upper i := by
  rw [leafOf, if_pos h, if_neg (Nat.not_lt.2 hi)]

theorem Descends.leafOf_eq (hd : Descends threshold root s) (hi : s.start ≤ i) (hi' : i < s.stop) :
    leafOf threshold ht root i = leafOf threshold ht s i := by
  induction hd generalizing i with
  | refl => rfl
  | @lower s _ h ih =>
    have hstop : s.lower.stop ≤ s.stop := s.lower_inside.2
    rw [ih hi (by omega), leafOf_lower h hi']
  | @upper s _ h ih =>
    have hstart := start_lt_upper ht h
    rw [Span.stop_upper] at hi'
    rw [ih (by omega) hi', leafOf_upper h hi]

/-- The sum of what precedes index `i`, if that is where a node starts. -/
def before (threshold : Nat) (ht : 0 < threshold) (root : Span) (i : Nat) : Option Grouping :=
  leftFold join ((turns threshold ht root i).map (sumOf threshold ht))

/-- What precedes the upper half of a span is what precedes the span, and the lower half. -/
theorem Descends.before_upper (hd : Descends threshold root s) (h : threshold < s.len) :
    before threshold ht root s.upper.start =
      some (((before threshold ht root s.start).elim (sumOf threshold ht s.lower)
        (join · (sumOf threshold ht s.lower)))) := by
  have hstart := start_lt_upper ht h
  have hstop : s.upper.start < s.stop := by
    simp only [Span.upper, Span.stop] at *
    omega
  rw [before, hd.turns_eq (Nat.le_of_lt hstart) hstop, turns_upper h (Nat.le_refl _), turns_start,
    List.map_append, before]
  cases hturns : (turns threshold ht root s.start).map (sumOf threshold ht) with
  | nil => rfl
  | cons g gs =>
    rw [List.cons_append, leftFold, leftFold, List.foldl_append]
    rfl

/-- In a leaf, the value at an index is the sum of what precedes the leaf and the elements. -/
theorem Descends.upTo_leaf {len : Nat} (hd : Descends threshold ⟨0, len⟩ s)
    (h : ¬ threshold < s.len) (hi : s.start ≤ i) (hi' : i < s.stop) :
    upTo threshold ht len i = leftFold join ((before threshold ht ⟨0, len⟩ s.start).toList ++
      elems ⟨s.start, i + 1 - s.start⟩) := by
  have hturns : turns threshold ht s i = [] := by rw [turns, if_neg h]
  have hleaf : leafOf threshold ht s i = s := by rw [leafOf, if_neg h]
  rw [upTo, parts, hd.turns_eq hi hi', hd.leafOf_eq hi hi', hturns, hleaf, List.append_nil, before]
  cases hmap : (turns threshold ht ⟨0, len⟩ s.start).map (sumOf threshold ht) with
  | nil => rfl
  | cons g gs => rw [leftFold_append_of_some (z := gs.foldl join g) rfl]; rfl

end Grouping

/-! ## Settings -/

open Grouping

/-- What a run of the visits is determined by, but for the order of their steps. -/
structure Setting (α : Type) where
  plan : Plan
  family : plan.IsFamily
  op : α → α → α
  /-- The elements before the scan, by their positions. -/
  elem : Nat → α

namespace Setting

variable (S : Setting α)

/-- What a grouping is worth. -/
def worth : Grouping → α := Grouping.eval S.op S.elem

/-- The sum of a node, as its visits take it. -/
def sumOf (t : Nat) : Grouping := Grouping.sumOf S.plan.threshold S.family.pos (S.plan.span t)

/-- What precedes a node; nothing precedes the first ones. -/
def before (t : Nat) : Option Grouping :=
  Grouping.before S.plan.threshold S.family.pos ⟨0, S.plan.len⟩ (S.plan.span t).start

def sum (t : Nat) : α := S.worth (S.sumOf t)

/-- The worth of what precedes a node that is not a first one. -/
def carry (t : Nat) : α := ((S.before t).map S.worth).getD (S.elem 0)

/-- The elements of a node before the scan. -/
def original (t : Nat) : List α :=
  (List.range' (S.plan.span t).start (S.plan.span t).len).map S.elem

/-- The value that the scan leaves at a position. -/
def result (i : Nat) : α :=
  ((upTo S.plan.threshold S.family.pos S.plan.len i).map S.worth).getD (S.elem i)

/-- The elements of a node after the scan. -/
def swept (t : Nat) : List α :=
  (List.range' (S.plan.span t).start (S.plan.span t).len).map S.result

variable {S} {t l r : Nat}

@[simp] theorem length_original : (S.original t).length = (S.plan.span t).len := by
  rw [original, List.length_map, List.length_range']

@[simp] theorem length_swept : (S.swept t).length = (S.plan.span t).len := by
  rw [swept, List.length_map, List.length_range']

theorem descends (ht : t < S.plan.nodes.size) :
    Descends S.plan.threshold ⟨0, S.plan.len⟩ (S.plan.span t) := by
  induction t using Nat.strongRecOn with
  | ind t ih =>
    by_cases h0 : t = 0
    · rw [h0, S.family.span_root]
      exact .refl
    · obtain ⟨p, l, r, hcut, htlr⟩ := S.family.exists_parent ht h0
      have hp := ih p (hcut.lt_child S.family htlr) hcut.lt_size
      rcases htlr with rfl | rfl
      · rw [hcut.span_left]
        exact hp.lower hcut.lt_len
      · rw [hcut.span_right]
        exact hp.upper hcut.lt_len

/-! ### At a node that is cut -/

theorem sumOf_cut (h : S.plan.Cut t l r) : S.sumOf t = .join (S.sumOf l) (S.sumOf r) := by
  rw [sumOf, sumOf_node h.lt_len, sumOf, sumOf, h.span_left, h.span_right]

theorem sum_cut (h : S.plan.Cut t l r) : S.sum t = S.op (S.sum l) (S.sum r) := by
  rw [sum, sumOf_cut h]
  rfl

theorem before_left (h : S.plan.Cut t l r) : S.before l = S.before t := by
  rw [before, before, h.span_left, Span.start_lower]

theorem carry_left (h : S.plan.Cut t l r) : S.carry l = S.carry t := by
  rw [carry, carry, before_left h]

theorem before_right (h : S.plan.Cut t l r) :
    S.before r = some ((S.before t).elim (S.sumOf l) (.join · (S.sumOf l))) := by
  rw [before, h.span_right, (descends h.lt_size).before_upper h.lt_len, before, sumOf, h.span_left]

theorem before_of_first (h : S.plan.isFirst t = true) : S.before t = none := by
  have hstart : (S.plan.span t).start = 0 := by simpa [Plan.isFirst] using h
  rw [before, Grouping.before, hstart, turns_start ⟨0, S.plan.len⟩]
  rfl

theorem before_of_not_first (ht : t < S.plan.nodes.size) (h : S.plan.isFirst t = false) :
    ∃ g, S.before t = some g ∧ S.carry t = S.worth g := by
  have hstart : (S.plan.span t).start ≠ 0 := by simpa [Plan.isFirst] using h
  have hturns : turns S.plan.threshold S.family.pos ⟨0, S.plan.len⟩ (S.plan.span t).start ≠ [] :=
    (descends ht).turns_ne_nil hstart (S.family.len_pos ht)
  obtain ⟨g, hg⟩ := exists_leftFold Grouping.join
    (mt List.map_eq_nil_iff.1 hturns :
      (turns _ S.family.pos _ _).map (Grouping.sumOf S.plan.threshold S.family.pos) ≠ [])
  have hbefore : S.before t = some g := hg
  exact ⟨g, hbefore, by rw [carry, hbefore, Option.map_some, Option.getD_some]⟩

theorem carry_right_of_first (h : S.plan.Cut t l r) (hfirst : S.plan.isFirst t = true) :
    S.carry r = S.sum l := by
  rw [carry, before_right h, before_of_first hfirst]
  rfl

theorem carry_right (h : S.plan.Cut t l r) (hfirst : S.plan.isFirst t = false) :
    S.carry r = S.op (S.carry t) (S.sum l) := by
  obtain ⟨g, hg, hcarry⟩ := before_of_not_first h.lt_size hfirst
  rw [hcarry, carry, before_right h, hg]
  rfl

/-! ### At a leaf -/

/-- The elements of a leaf as groupings, with what precedes the leaf in front. -/
def summands (S : Setting α) (t : Nat) : List Grouping := (S.before t).toList ++ elems (S.plan.span t)

theorem map_worth_elems (s : Span) :
    (elems s).map S.worth = (List.range' s.start s.len).map S.elem := map_eval_elems s

theorem leftFold_map_worth (gs : List Grouping) :
    leftFold S.op (gs.map S.worth) = (leftFold .join gs).map S.worth := leftFold_map_eval gs

theorem additions_map_worth (gs : List Grouping) : additions S.op (gs.map S.worth) =
    (additions .join gs).map (Prod.map S.worth S.worth) := additions_map_eval gs

theorem leftFold_elems (hleaf : S.plan.IsLeaf t) (hpos : 0 < (S.plan.span t).len) :
    leftFold .join (elems (S.plan.span t)) = some (S.sumOf t) := by
  rw [sumOf, sumOf_leaf (Nat.not_lt.2 hleaf), Grouping.fold]
  obtain ⟨k, hk⟩ : ∃ k, (S.plan.span t).len = k + 1 := ⟨_, (Nat.sub_add_cancel hpos).symm⟩
  simp only [elems, hk, List.range'_succ, List.map_cons, leftFold, Nat.add_sub_cancel]

theorem returns_fold_leaf (ht : t < S.plan.nodes.size) (hleaf : S.plan.IsLeaf t) :
    Returns S.op (Scan.fold (S.original t)) (some (S.sum t))
      ((additions .join (elems (S.plan.span t))).map (Prod.map S.worth S.worth)) := by
  have h : Returns S.op _ _ _ := returns_fold ((elems (S.plan.span t)).map S.worth)
  rwa [leftFold_map_worth, leftFold_elems hleaf (S.family.len_pos ht), additions_map_worth,
    map_worth_elems] at h

/-- A leaf is swept with what precedes it carried in. -/
theorem returns_sweep_leaf (ht : t < S.plan.nodes.size) (hleaf : S.plan.IsLeaf t) :
    Returns S.op (Scan.sweep ((S.before t).map S.worth) (S.original t)) (S.swept t)
      ((additions .join (S.summands t)).map (Prod.map S.worth S.worth)) := by
  have hcarry : ((S.before t).map S.worth).toList = (S.before t).toList.map S.worth := by
    cases S.before t <;> rfl
  have hsummands : ((S.before t).map S.worth).toList ++ S.original t =
      (S.summands t).map S.worth := by
    rw [summands, List.map_append, hcarry, map_worth_elems, original]
  rw [← additions_map_worth, ← hsummands]
  refine returns_sweep _ (by simp) fun i hi => ?_
  rw [length_original] at hi
  have htake : (S.original t).take (i + 1) =
      (elems ⟨(S.plan.span t).start, i + 1⟩).map S.worth := by
    rw [map_worth_elems, original, ← List.map_take, List.take_range'_of_length_ge hi]
  have hvalue : upTo S.plan.threshold S.family.pos S.plan.len ((S.plan.span t).start + i) =
      leftFold .join ((S.before t).toList ++ elems ⟨(S.plan.span t).start, i + 1⟩) := by
    rw [(descends ht).upTo_leaf (Nat.not_lt.2 hleaf) (Nat.le_add_right _ i)
      (Nat.add_lt_add_left hi _), Nat.add_assoc, Nat.add_sub_cancel_left, before]
  obtain ⟨g, hg⟩ := exists_leftFold Grouping.join
    (List.append_ne_nil_of_right_ne_nil (S.before t).toList
      (by simp [elems] : elems ⟨(S.plan.span t).start, i + 1⟩ ≠ []))
  rw [htake, hcarry, ← List.map_append, leftFold_map_worth, hg, swept, List.getElem?_map,
    List.getElem?_range' hi, Option.map_some, Nat.one_mul, result, hvalue, hg]
  rfl

/-- The last value that is left at the first leaf is the sum of the leaf. -/
theorem getLast?_swept_first (ht : t < S.plan.nodes.size) (hleaf : S.plan.IsLeaf t)
    (hfirst : S.plan.isFirst t = true) : (S.swept t).getLast? = some (S.sum t) := by
  have hpos := S.family.len_pos ht
  have hlast : (S.plan.span t).len - 1 < (S.plan.span t).len := Nat.sub_lt hpos Nat.one_pos
  have hvalue : upTo S.plan.threshold S.family.pos S.plan.len
      ((S.plan.span t).start + ((S.plan.span t).len - 1)) = _ :=
    (descends ht).upTo_leaf (Nat.not_lt.2 hleaf) (Nat.le_add_right _ _)
      (Nat.add_lt_add_left hlast _)
  have hlen : (S.plan.span t).start + ((S.plan.span t).len - 1) + 1 - (S.plan.span t).start =
      (S.plan.span t).len := by omega
  rw [hlen, show Grouping.before _ _ _ _ = S.before t from rfl, before_of_first hfirst,
    Option.toList_none, List.nil_append, leftFold_elems hleaf hpos] at hvalue
  rw [List.getLast?_eq_getElem?, length_swept, swept, List.getElem?_map,
    List.getElem?_range' hlast, Option.map_some, Nat.one_mul, result, hvalue]
  rfl

end Setting

end ForkJoin.Scan
