import ForkJoin.Proofs.Sorting.Cuts
import ForkJoin.Proofs.Sorting.Recursive

/-!
# What a sort ensures because its steps do

One rule for each of the three recursive functions. `Pre` is what is known of the lists a function is
given, and `Post` relates them to the list it leaves. A rule asks what one step ensures, from what
the recursive calls have ensured of their parts; where the recursion goes and that it ends it knows
itself, so a property of a sort needs no induction of its own.
-/
namespace ForkJoin.Sorting

open Calling

variable {α : Type} {K : Contract α Ordering} {granularity : Nat}

/-! ## Merging with cuts -/

section

variable (Pre : List α → List α → Prop) (Post : List α → List α → List α → Prop)
  {left right : List α}

/-- The two parts of a cut are merges again, and what they leave is what the whole one leaves. -/
structure Cut.Parts (left right : List α) {ln rn : Nat} (c : Cut ln rn) : Prop where
  before : Pre (left.take c.left) (right.take c.right)
  behind : Pre (left.drop c.left) (right.drop c.right)
  join : ∀ head tail, Post (left.take c.left) (right.take c.right) head →
    Post (left.drop c.left) (right.drop c.right) tail → Post left right (head ++ tail)

theorem splitMerge_ensures (hg : 0 < granularity)
    (hmerge : ∀ left right, Pre left right → (merge left right).Ensures K (Post left right))
    (hcut : ∀ left right, Pre left right →
      (cut? granularity left.toArray right.toArray left.length right.length).Ensures K fun c? =>
        ∀ c, c? = some c → c.Parts Pre Post left right)
    (h : Pre left right) : (splitMerge granularity left right).Ensures K (Post left right) := by
  induction hlen : left.length + right.length using Nat.strongRecOn generalizing left right with
  | ind len ih =>
    rw [splitMerge]
    refine ((hcut left right h).and_any (cut?_halves granularity (by simp) (by simp))).bind ?_
    rintro (_ | c) ⟨hparts, hhalves⟩
    · exact hmerge left right h
    · obtain ⟨hbefore, hbehind, hjoin⟩ := hparts c rfl
      have hpos := (hhalves c rfl).pos hg
      have hl := c.left_le
      have hr := c.right_le
      have hshrinks := c.shrinks
      simp only [dif_pos hpos]
      refine (ih _ ?_ hbefore rfl).bind fun head hhead => ?_
      · simp only [List.length_take]
        omega
      refine (ih _ ?_ hbehind rfl).bind fun tail htail => ?_
      · simp only [List.length_drop]
        omega
      exact hjoin head tail hhead htail

end

/-! ## Sorting -/

theorem quarters_lower (xs : List α) (half : Nat) :
    xs.take (half / 2) ++ (xs.drop (half / 2)).take (half - half / 2) = xs.take half := by
  rw [← List.take_add, Nat.add_sub_cancel' (Nat.div_le_self _ _)]

theorem quarters_upper (xs : List α) (half quarter : Nat) :
    (xs.drop half).take quarter ++ xs.drop (half + quarter) = xs.drop half := by
  rw [← List.drop_drop, List.take_append_drop]

section

variable (Pre : List α → Prop) (Post : List α → List α → Prop) {xs : List α}
  (hpart : ∀ {xs ys : List α}, Pre xs → ys.Sublist xs → Pre ys)

include hpart

/-- Neither half of a list that is cut is empty, so the last of the one and the first of the other
are compared. -/
theorem sortShort_ensures (hlen : ∀ xs ys, Post xs ys → ys.length = xs.length)
    (hinsert : ∀ xs, Pre xs → (insertionSort xs).Ensures K (Post xs))
    (hjoin : ∀ xs xs' left right, Pre (xs ++ xs') → Post xs left → Post xs' right →
      ∀ (hl : left ≠ []) (hr : right ≠ []), K.asks (left.getLast hl) (right.head hr) ∧
        ∀ o, K.answers (left.getLast hl) (right.head hr) o →
          (if o = .gt then merge left right else pure (left ++ right)).Ensures K
            (Post (xs ++ xs')))
    (h : Pre xs) : (sortShort xs).Ensures K (Post xs) := by
  induction hxs : xs.length using Nat.strongRecOn generalizing xs with
  | ind len ih =>
    rw [sortShort]
    by_cases hshort : xs.length ≤ insertionLimit
    · rw [dif_pos hshort]
      exact hinsert xs h
    · have hlong : 16 < xs.length := Nat.lt_of_not_le hshort
      rw [dif_neg hshort]
      refine (ih _ ?_ (hpart h (List.take_sublist (xs.length / 2) xs)) rfl).bind
        fun left hleft => ?_
      · rw [List.length_take]
        omega
      refine (ih _ ?_ (hpart h (List.drop_sublist (xs.length / 2) xs)) rfl).bind
        fun right hright => ?_
      · rw [List.length_drop]
        omega
      have hl : left ≠ [] := by
        rw [← List.length_pos_iff, hlen _ _ hleft, List.length_take]
        omega
      have hr : right ≠ [] := by
        rw [← List.length_pos_iff, hlen _ _ hright, List.length_drop]
        omega
      have hwhole := List.take_append_drop (xs.length / 2) xs
      have hends := hjoin _ _ left right (by rwa [hwhole]) hleft hright hl hr
      rw [hwhole] at hends
      rw [List.getLast?_eq_some_getLast hl, List.head?_eq_some_head hr]
      simp only [ask_bind, ensures_call]
      exact hends

theorem sortQuarters_ensures (hg : 0 < granularity)
    (hshort : ∀ xs, Pre xs → (sortShort xs).Ensures K (Post xs))
    (hmerge : ∀ xs xs' ys ys', Pre (xs ++ xs') → Post xs ys → Post xs' ys' →
      (splitMerge granularity ys ys').Ensures K (Post (xs ++ xs')))
    (h : Pre xs) : (sortQuarters granularity hg xs).Ensures K (Post xs) := by
  induction hxs : xs.length using Nat.strongRecOn generalizing xs with
  | ind len ih =>
    rw [sortQuarters]
    by_cases hlong : granularity < xs.length
    · rw [if_pos hlong]
      have hlower := quarters_lower xs (xs.length / 2)
      have hupper := quarters_upper xs (xs.length / 2) (xs.length / 2 / 2)
      have hwhole := List.take_append_drop (xs.length / 2) xs
      have hlow := hpart h (List.take_sublist (xs.length / 2) xs)
      have hhigh := hpart h (List.drop_sublist (xs.length / 2) xs)
      refine (ih _ ?_ (hpart h (List.take_sublist _ _)) rfl).bind fun first hfirst => ?_
      · rw [List.length_take]
        omega
      refine (ih _ ?_ (hpart h ((List.take_sublist _ _).trans (List.drop_sublist _ _))) rfl).bind
        fun second hsecond => ?_
      · rw [List.length_take, List.length_drop]
        omega
      have hmerged := hmerge _ _ first second (by rwa [hlower]) hfirst hsecond
      rw [hlower] at hmerged
      refine hmerged.bind fun lower hl => ?_
      refine (ih _ ?_ (hpart h ((List.take_sublist _ _).trans (List.drop_sublist _ _))) rfl).bind
        fun third hthird => ?_
      · rw [List.length_take, List.length_drop]
        omega
      refine (ih _ ?_ (hpart h (List.drop_sublist _ _)) rfl).bind fun fourth hfourth => ?_
      · rw [List.length_drop]
        omega
      have hmerged := hmerge _ _ third fourth (by rwa [hupper]) hthird hfourth
      rw [hupper] at hmerged
      refine hmerged.bind fun upper hu => ?_
      have hall := hmerge _ _ lower upper (by rwa [hwhole]) hl hu
      rwa [hwhole] at hall
    · rw [if_neg hlong]
      exact hshort xs h

end

end ForkJoin.Sorting
