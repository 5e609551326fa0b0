/-!
# Stable arrangements

A comparator is a total preorder on some elements if its answers are consistent there. A stable
arrangement of a list has the same elements, in the order of the comparator, and those that compare
equal stand as they stood before. There is only one.

`Rearranged` is what each part of a sort does to the elements that it moves, sorted or not.
-/
namespace ForkJoin.Sorting

variable {α : Type}

/-- On the elements that satisfy `P`, the comparator is a total preorder. -/
structure TotalPreorderOn (cmp : α → α → Ordering) (P : α → Prop) : Prop where
  swap : ∀ a b, P a → P b → (cmp a b = .lt ↔ cmp b a = .gt)
  trans : ∀ a b c, P a → P b → P c → cmp a b ≠ .gt → cmp b c ≠ .gt → cmp a c ≠ .gt
  total : ∀ a b, P a → P b → cmp a b ≠ .gt ∨ cmp b a ≠ .gt

/-- An arrangement has the same elements, in the order of the comparator, and where they compare equal
as before. -/
structure StableArrangement (cmp : α → α → Ordering) (xs ys : List α) : Prop where
  perm : ys.Perm xs
  sorted : ys.Pairwise fun a b => cmp a b ≠ .gt
  stable : ∀ x ∈ xs, ys.filter (cmp x · == .eq) = xs.filter (cmp x · == .eq)

variable {cmp : α → α → Ordering} {P : α → Prop} {a b c : α} {xs ys zs : List α}

namespace TotalPreorderOn

theorem mono {Q : α → Prop} (h : TotalPreorderOn cmp P) (hQ : ∀ a, Q a → P a) :
    TotalPreorderOn cmp Q :=
  ⟨fun a b ha hb => h.swap a b (hQ a ha) (hQ b hb),
    fun a b c ha hb hc => h.trans a b c (hQ a ha) (hQ b hb) (hQ c hc),
    fun a b ha hb => h.total a b (hQ a ha) (hQ b hb)⟩

/-- A comparison of keys is a total preorder on any elements. -/
theorem comparing {κ : Type} [Ord κ] [Std.TransOrd κ] (key : α → κ) (P : α → Prop) :
    TotalPreorderOn (fun a b => compare (key a) (key b)) P where
  swap _ _ _ _ := Std.OrientedCmp.gt_iff_lt.symm
  trans a b c _ _ _ hab hbc := by
    simp only [← Ordering.isLE_iff_ne_gt] at hab hbc ⊢
    exact Std.TransCmp.isLE_trans hab hbc
  total a b _ _ := by
    have hswap : compare (key b) (key a) = .gt ↔ compare (key a) (key b) = .lt :=
      Std.OrientedCmp.gt_iff_lt
    cases hab : compare (key a) (key b) with
    | lt => exact .inl Ordering.noConfusion
    | eq => exact .inl Ordering.noConfusion
    | gt => exact .inr fun hba => Ordering.noConfusion (hab.symm.trans (hswap.1 hba))

variable (h : TotalPreorderOn cmp P)

include h

theorem refl (ha : P a) : cmp a a ≠ .gt := (h.total a a ha ha).elim id id

theorem eq_self (ha : P a) : cmp a a = .eq := by
  have hgt := h.refl ha
  have hlt : cmp a a ≠ .lt := fun hlt => hgt ((h.swap a a ha ha).1 hlt)
  cases hc : cmp a a with
  | lt => exact absurd hc hlt
  | eq => rfl
  | gt => exact absurd hc hgt

/-- Equal is neither less nor greater. -/
theorem eq_iff (ha : P a) (hb : P b) : cmp a b = .eq ↔ cmp a b ≠ .gt ∧ cmp b a ≠ .gt := by
  have hswap := h.swap a b ha hb
  cases hc : cmp a b with
  | lt => simpa [hc] using hswap
  | eq => simpa [hc] using hswap
  | gt => simp

/-- Of two elements of which one is less, not both are equal to a third. -/
theorem not_eq_of_lt {x : α} (hx : P x) (ha : P a) (hb : P b) (hlt : cmp a b = .lt)
    (hxa : cmp x a = .eq) : cmp x b ≠ .eq := by
  intro hxb
  have hxa' := ((h.eq_iff hx ha).1 hxa).1
  have hbx := ((h.eq_iff hx hb).1 hxb).2
  exact h.trans b x a hb hx ha hbx hxa' ((h.swap a b ha hb).1 hlt)

end TotalPreorderOn

/-! ## Moving elements -/

/-- A rearrangement has the same elements, and those that compare equal to `x` stand as before, for any
`x` that satisfies `P`. -/
structure Rearranged (cmp : α → α → Ordering) (P : α → Prop) (xs ys : List α) : Prop where
  perm : ys.Perm xs
  stable : ∀ x, P x → ys.filter (cmp x · == .eq) = xs.filter (cmp x · == .eq)

namespace Rearranged

theorem refl (xs : List α) : Rearranged cmp P xs xs := ⟨.refl _, fun _ _ => rfl⟩

theorem trans (h : Rearranged cmp P xs ys) (h' : Rearranged cmp P ys zs) :
    Rearranged cmp P xs zs :=
  ⟨h'.perm.trans h.perm, fun x hx => (h'.stable x hx).trans (h.stable x hx)⟩

theorem append {xs' ys' : List α} (h : Rearranged cmp P xs ys) (h' : Rearranged cmp P xs' ys') :
    Rearranged cmp P (xs ++ xs') (ys ++ ys') := by
  refine ⟨h.perm.append h'.perm, fun x hx => ?_⟩
  rw [List.filter_append, List.filter_append, h.stable x hx, h'.stable x hx]

theorem cons (a : α) (h : Rearranged cmp P xs ys) : Rearranged cmp P (a :: xs) (a :: ys) :=
  (refl [a]).append h

theorem forall_mem (h : Rearranged cmp P xs ys) {Q : α → Prop} (hxs : ∀ x ∈ xs, Q x) :
    ∀ y ∈ ys, Q y :=
  fun y hy => hxs y (h.perm.mem_iff.1 hy)

/-- Elements may change places with elements that are less. -/
theorem swap (hcmp : TotalPreorderOn cmp P) (hxs : ∀ x ∈ xs, P x) (hys : ∀ y ∈ ys, P y)
    (hlt : ∀ x ∈ xs, ∀ y ∈ ys, cmp y x = .lt) : Rearranged cmp P (xs ++ ys) (ys ++ xs) := by
  refine ⟨List.perm_append_comm, fun z hz => ?_⟩
  rw [List.filter_append, List.filter_append]
  cases hleft : xs.filter (cmp z · == .eq) with
  | nil => rw [List.append_nil, List.nil_append]
  | cons x rest =>
    obtain ⟨hx, hzx⟩ := List.mem_filter.1 (hleft ▸ List.mem_cons_self : x ∈ xs.filter _)
    have hnil : ys.filter (cmp z · == .eq) = [] := by
      refine List.filter_eq_nil_iff.2 fun y hy hzy => ?_
      rw [beq_iff_eq] at hzx hzy
      exact hcmp.not_eq_of_lt hz (hys y hy) (hxs x hx) (hlt x hx y hy) hzy hzx
    rw [hnil, List.append_nil, List.nil_append]

/-- Sorted at last, it is a stable arrangement. -/
theorem stableArrangement (h : Rearranged cmp P xs ys) (hxs : ∀ x ∈ xs, P x)
    (hys : ys.Pairwise fun a b => cmp a b ≠ .gt) : StableArrangement cmp xs ys :=
  ⟨h.perm, hys, fun x hx => h.stable x (hxs x hx)⟩

end Rearranged

/-! ## There is only one -/

/-- Two sorted lists with the same elements start with the same element if elements that compare
equal stand alike. -/
theorem head_eq {y z : α} (hcmp : TotalPreorderOn cmp (· ∈ z :: zs))
    (hperm : (y :: ys).Perm (z :: zs)) (hys : (y :: ys).Pairwise fun a b => cmp a b ≠ .gt)
    (hzs : (z :: zs).Pairwise fun a b => cmp a b ≠ .gt)
    (hstable : (y :: ys).filter (cmp y · == .eq) = (z :: zs).filter (cmp y · == .eq)) : y = z := by
  have hymem : y ∈ z :: zs := hperm.mem_iff.1 List.mem_cons_self
  have hzmem : z ∈ y :: ys := hperm.mem_iff.2 List.mem_cons_self
  have hyz : cmp y z ≠ .gt := by
    rcases List.mem_cons.1 hzmem with rfl | hz
    · exact hcmp.refl hymem
    · exact List.rel_of_pairwise_cons hys hz
  have hzy : cmp z y ≠ .gt := by
    rcases List.mem_cons.1 hymem with rfl | hy
    · exact hcmp.refl hymem
    · exact List.rel_of_pairwise_cons hzs hy
  have heq : cmp y z = .eq := (hcmp.eq_iff hymem List.mem_cons_self).2 ⟨hyz, hzy⟩
  rw [List.filter_cons_of_pos (by rw [hcmp.eq_self hymem]; rfl),
    List.filter_cons_of_pos (by rw [heq]; rfl)] at hstable
  exact (List.cons.inj hstable).1

theorem eq_of_stable (hcmp : TotalPreorderOn cmp (· ∈ zs)) (hperm : ys.Perm zs)
    (hys : ys.Pairwise fun a b => cmp a b ≠ .gt) (hzs : zs.Pairwise fun a b => cmp a b ≠ .gt)
    (hstable : ∀ x ∈ zs, ys.filter (cmp x · == .eq) = zs.filter (cmp x · == .eq)) : ys = zs := by
  induction ys generalizing zs with
  | nil => exact hperm.nil_eq
  | cons y ys ih =>
    cases zs with
    | nil => exact absurd hperm.symm.nil_eq (List.cons_ne_nil _ _).symm
    | cons z zs =>
      have hymem : y ∈ z :: zs := hperm.mem_iff.1 List.mem_cons_self
      obtain rfl := head_eq hcmp hperm hys hzs (hstable y hymem)
      have hsub : ∀ x, x ∈ zs → x ∈ y :: zs := fun x hx => List.mem_cons_of_mem y hx
      rw [ih (hcmp.mono hsub) hperm.cons_inv hys.of_cons hzs.of_cons fun x hx => ?_]
      have hx' := hstable x (hsub x hx)
      rw [List.filter_cons, List.filter_cons] at hx'
      split at hx'
      · exact (List.cons.inj hx').2
      · exact hx'

/-- **A list has only one stable arrangement.** -/
theorem StableArrangement.unique (hcmp : TotalPreorderOn cmp (· ∈ xs))
    (hys : StableArrangement cmp xs ys) (hzs : StableArrangement cmp xs zs) : ys = zs := by
  have hmem : ∀ x, x ∈ zs → x ∈ xs := fun x hx => hzs.perm.mem_iff.1 hx
  refine eq_of_stable (hcmp.mono hmem) (hys.perm.trans hzs.perm.symm) hys.sorted hzs.sorted ?_
  intro x hx
  rw [hys.stable x (hmem x hx), hzs.stable x (hmem x hx)]

end ForkJoin.Sorting
