import ForkJoin.Proofs.Sorting.StableParts

/-!
# Cuts of sorted runs

Between sorted runs the probes of a cut are consistent, so the search finds the one place at which
they change. Everything before the cut is then no greater than anything behind it, and what is
before it in the right run is less than what is behind it in the left run.
-/
namespace ForkJoin.Sorting

open Calling

variable {α β : Type}

/-! ## Searching -/

section

variable {K : Contract α β} {probe : Nat → Calling α β Bool} {p : Nat → Bool} {n : Nat}

theorem halve_on (hp : ∀ i < n, (probe i).Ensures K (· = p i))
    (hmono : ∀ i j, i ≤ j → j < n → p j = true → p i = true) {base size : Nat} (h : 0 < size)
    (hn : base + size ≤ n) (hlow : ∀ i < base, p i = true)
    (hhigh : ∀ i, base + size ≤ i → i < n → p i = false) :
    (halve probe base size h).Ensures K fun k =>
      (∀ i < k.1, p i = true) ∧ ∀ i, k.1 < i → i < n → p i = false := by
  induction size using Nat.strongRecOn generalizing base with
  | ind size ih =>
    rw [halve]
    by_cases hs : size ≤ 1
    · rw [dif_pos hs]
      refine ⟨hlow, fun i hi hin => hhigh i ?_ hin⟩
      dsimp only at hi
      omega
    · rw [dif_neg hs]
      refine (hp (base + size / 2) (by omega)).bind ?_
      rintro _ rfl
      cases hup : p (base + size / 2) with
      | true =>
        refine (ih (size - size / 2) (by omega) (by omega) (by omega)
          (fun i hi => hmono i _ (Nat.le_of_lt hi) (by omega) hup)
          fun i hi hin => hhigh i (by omega) hin).bind ?_
        exact fun k hk => hk
      | false =>
        have hdown : ∀ i, base + size / 2 ≤ i → i < n → p i = false := by
          intro i hi hin
          refine Bool.eq_false_iff.2 fun hpi => ?_
          rw [hmono _ i hi hin hpi] at hup
          cases hup
        refine (ih (size - size / 2) (by omega) (by omega) (by omega) hlow
          fun i hi hin => hdown i (by omega) hin).bind ?_
        exact fun k hk => hk

/-- Of probes that hold up to some position and at none after it, the position is found. -/
theorem partitionPoint_on (hp : ∀ i < n, (probe i).Ensures K (· = p i))
    (hmono : ∀ i j, i ≤ j → j < n → p j = true → p i = true) :
    (partitionPoint probe n).Ensures K fun k => ∀ i < n, p i = decide (i < k.1) := by
  rw [partitionPoint]
  by_cases hn : n = 0
  · rw [dif_pos hn]
    intro i hi
    omega
  · rw [dif_neg hn]
    refine (halve_on hp hmono (by omega) (by omega) (fun i hi => absurd hi (Nat.not_lt_zero i))
      fun i hi hin => by omega).bind ?_
    rintro ⟨k, hk⟩ ⟨hlow, hhigh⟩
    refine (hp k (by omega)).bind ?_
    rintro _ rfl
    cases hpk : p k with
    | true =>
      intro i hi
      rcases Nat.lt_trichotomy i k with hik | rfl | hik
      · rw [hlow i hik, decide_eq_true (by dsimp only; omega)]
      · rw [hpk, decide_eq_true (by dsimp only; omega)]
      · rw [hhigh i hik hi, decide_eq_false (by dsimp only; omega)]
    | false =>
      intro i hi
      rcases Nat.lt_trichotomy i k with hik | rfl | hik
      · rw [hlow i hik, decide_eq_true hik]
      · rw [hpk, decide_eq_false (Nat.lt_irrefl _)]
      · rw [hhigh i hik hi, decide_eq_false (Nat.not_lt.2 (Nat.le_of_lt hik))]

end

/-! ## Cutting -/

variable {cmp : α → α → Ordering} {P : α → Prop} {left right : List α}

theorem compareAt_on {item : α} (hitem : P item) {run : List α} (hrun : ∀ x ∈ run, P x) {i : Nat}
    {x : α} (hi : run[i]? = some x) :
    (compareAt item run.toArray i).Ensures (.on P cmp) (· = cmp item x) := by
  rw [compareAt, List.getElem?_toArray, hi]
  exact ⟨⟨hitem, hrun x (List.mem_of_getElem? hi)⟩, fun _ h => h⟩

/-- What is before the cut, and what is behind it. -/
structure Cut.Separates (cmp : α → α → Ordering) (left right : List α) {ln rn : Nat}
    (c : Cut ln rn) : Prop where
  before : ∀ a ∈ left.take c.left, ∀ b ∈ right.drop c.right, cmp a b ≠ .gt
  behind : ∀ a ∈ left.drop c.left, ∀ b ∈ right.take c.right, cmp b a = .lt

theorem exists_index_of_mem_take {run : List α} {k : Nat} {a : α} (h : a ∈ run.take k) :
    ∃ i < k, run[i]? = some a := by
  obtain ⟨i, hi⟩ := List.mem_iff_getElem?.1 h
  rw [List.getElem?_take] at hi
  by_cases hik : i < k
  · rw [if_pos hik] at hi
    exact ⟨i, hik, hi⟩
  · rw [if_neg hik] at hi
    cases hi

theorem exists_index_of_mem_drop {run : List α} {k : Nat} {a : α} (h : a ∈ run.drop k) :
    ∃ i, k ≤ i ∧ run[i]? = some a := by
  obtain ⟨i, hi⟩ := List.mem_iff_getElem?.1 h
  rw [List.getElem?_drop] at hi
  exact ⟨k + i, Nat.le_add_right k i, hi⟩

section

variable (hcmp : TotalPreorderOn cmp P) (hleft : OrderedRun cmp P left)
  (hright : OrderedRun cmp P right) {m k : Nat} {item : α}

include hcmp hleft hright

/-- The left run is cut before `item`, and the right one where the elements that are less end. -/
theorem separates_at_left (hitem : left[m]? = some item)
    (hk : ∀ j b, right[j]? = some b → (cmp item b == .gt) = decide (j < k)) :
    (∀ a ∈ left.take m, ∀ b ∈ right.drop k, cmp a b ≠ .gt) ∧
      ∀ a ∈ left.drop m, ∀ b ∈ right.take k, cmp b a = .lt := by
  have hpitem := hleft.each item (List.mem_of_getElem? hitem)
  constructor
  · intro a ha b hb
    obtain ⟨i, hi, hai⟩ := exists_index_of_mem_take ha
    obtain ⟨j, hj, hbj⟩ := exists_index_of_mem_drop hb
    have hib : cmp item b ≠ .gt := by
      have := hk j b hbj
      rw [decide_eq_false (Nat.not_lt.2 hj), beq_eq_false_iff_ne] at this
      exact this
    exact hcmp.trans a item b (hleft.each a (List.mem_of_getElem? hai)) hpitem
      (hright.each b (List.mem_of_getElem? hbj))
      (hleft.le_of_index hcmp (Nat.le_of_lt hi) hai hitem) hib
  · intro a ha b hb
    obtain ⟨i, hi, hai⟩ := exists_index_of_mem_drop ha
    obtain ⟨j, hj, hbj⟩ := exists_index_of_mem_take hb
    have hpa := hleft.each a (List.mem_of_getElem? hai)
    have hpb := hright.each b (List.mem_of_getElem? hbj)
    have hib : cmp item b = .gt := by
      have := hk j b hbj
      rwa [decide_eq_true hj, beq_iff_eq] at this
    refine (hcmp.swap b a hpb hpa).2 (Classical.byContradiction fun hab => ?_)
    exact hcmp.trans item a b hpitem hpa hpb (hleft.le_of_index hcmp hi hitem hai) hab hib

/-- The right run is cut before `item`, and the left one where the elements that are greater
begin. -/
theorem separates_at_right (hitem : right[m]? = some item)
    (hk : ∀ i a, left[i]? = some a → (cmp item a != .lt) = decide (i < k)) :
    (∀ a ∈ left.take k, ∀ b ∈ right.drop m, cmp a b ≠ .gt) ∧
      ∀ a ∈ left.drop k, ∀ b ∈ right.take m, cmp b a = .lt := by
  have hpitem := hright.each item (List.mem_of_getElem? hitem)
  constructor
  · intro a ha b hb
    obtain ⟨i, hi, hai⟩ := exists_index_of_mem_take ha
    obtain ⟨j, hj, hbj⟩ := exists_index_of_mem_drop hb
    have hpa := hleft.each a (List.mem_of_getElem? hai)
    have hia : cmp item a ≠ .lt := by
      have := hk i a hai
      rwa [decide_eq_true hi, bne_iff_ne] at this
    exact hcmp.trans a item b hpa hpitem (hright.each b (List.mem_of_getElem? hbj))
      (fun hgt => hia ((hcmp.swap item a hpitem hpa).2 hgt))
      (hright.le_of_index hcmp hj hitem hbj)
  · intro a ha b hb
    obtain ⟨i, hi, hai⟩ := exists_index_of_mem_drop ha
    obtain ⟨j, hj, hbj⟩ := exists_index_of_mem_take hb
    have hpa := hleft.each a (List.mem_of_getElem? hai)
    have hpb := hright.each b (List.mem_of_getElem? hbj)
    have hia : cmp item a = .lt := by
      have := hk i a hai
      rwa [decide_eq_false (Nat.not_lt.2 hi), bne_eq_false_iff_eq] at this
    refine (hcmp.swap b a hpb hpa).2 (Classical.byContradiction fun hab => ?_)
    exact hcmp.trans a b item hpa hpb hpitem hab
      (hright.le_of_index hcmp (Nat.le_of_lt hj) hbj hitem) ((hcmp.swap item a hpitem hpa).1 hia)

end

section

variable (hcmp : TotalPreorderOn cmp P) {run : List α} (hrun : OrderedRun cmp P run) {item : α}
  (hitem : P item) (i j : Nat) (hij : i ≤ j) (hj : j < run.length)

include hcmp hrun hitem hij hj

/-- The elements that are less than `item` come first in a sorted run. -/
theorem greater_of_index (h : run[j]?.any (cmp item · == .gt) = true) :
    run[i]?.any (cmp item · == .gt) = true := by
  have hi : i < run.length := Nat.lt_of_le_of_lt hij hj
  rw [List.getElem?_eq_getElem hj, Option.any_some, beq_iff_eq] at h
  rw [List.getElem?_eq_getElem hi, Option.any_some, beq_iff_eq]
  refine Classical.byContradiction fun hle => ?_
  exact hcmp.trans item run[i] run[j] hitem (hrun.each _ (List.getElem_mem hi))
    (hrun.each _ (List.getElem_mem hj)) hle (hrun.le_of_index hcmp hij
      (List.getElem?_eq_getElem hi) (List.getElem?_eq_getElem hj)) h

/-- The elements that are not greater than `item` come first in a sorted run. -/
theorem not_less_of_index (h : run[j]?.any (cmp item · != .lt) = true) :
    run[i]?.any (cmp item · != .lt) = true := by
  have hi : i < run.length := Nat.lt_of_le_of_lt hij hj
  have hpi := hrun.each _ (List.getElem_mem hi)
  have hpj := hrun.each _ (List.getElem_mem hj)
  rw [List.getElem?_eq_getElem hj, Option.any_some, bne_iff_ne] at h
  rw [List.getElem?_eq_getElem hi, Option.any_some, bne_iff_ne]
  intro hlt
  exact hcmp.trans run[i] run[j] item hpi hpj hitem (hrun.le_of_index hcmp hij
      (List.getElem?_eq_getElem hi) (List.getElem?_eq_getElem hj))
    (fun hgt => h ((hcmp.swap item _ hitem hpj).2 hgt)) ((hcmp.swap item _ hitem hpi).1 hlt)

end

/-- **A cut of sorted runs separates them**, with equal elements of the right run behind those of
the left run. -/
theorem cut?_separates (hcmp : TotalPreorderOn cmp P) (g : Nat) (hleft : OrderedRun cmp P left)
    (hright : OrderedRun cmp P right) :
    (cut? g left.toArray right.toArray left.length right.length).Ensures (.on P cmp) fun c? =>
      ∀ c, c? = some c → c.Separates cmp left right := by
  rw [cut?]
  split
  · split
    · rintro _ ⟨⟩
    · have hm : left.length / 2 < left.length := by omega
      have hitem : left[left.length / 2]? = some left[left.length / 2] :=
        List.getElem?_eq_getElem hm
      have hpitem := hleft.each _ (List.mem_of_getElem? hitem)
      rw [List.getElem?_toArray, hitem]
      refine (partitionPoint_on (p := fun j => right[j]?.any (cmp left[left.length / 2] · == .gt))
        (fun j hj => ?_) (greater_of_index hcmp hright hpitem)).bind ?_
      · refine Ensures.map ((compareAt_on hpitem hright.each (List.getElem?_eq_getElem hj)).mono ?_)
        rintro _ rfl
        rw [List.getElem?_eq_getElem hj]
        rfl
      · rintro ⟨k, hk⟩ hfound _ ⟨⟩
        obtain ⟨hbefore, hbehind⟩ := separates_at_left hcmp hleft hright hitem (k := k)
          fun j b hb => by
            rw [← hfound j (List.getElem?_eq_some_iff.1 hb).1, hb]
            rfl
        exact ⟨hbefore, hbehind⟩
  · split
    · rintro _ ⟨⟩
    · have hm : right.length / 2 < right.length := by omega
      have hitem : right[right.length / 2]? = some right[right.length / 2] :=
        List.getElem?_eq_getElem hm
      have hpitem := hright.each _ (List.mem_of_getElem? hitem)
      rw [List.getElem?_toArray, hitem]
      refine (partitionPoint_on (p := fun i => left[i]?.any (cmp right[right.length / 2] · != .lt))
        (fun i hi => ?_) (not_less_of_index hcmp hleft hpitem)).bind ?_
      · refine Ensures.map ((compareAt_on hpitem hleft.each (List.getElem?_eq_getElem hi)).mono ?_)
        rintro _ rfl
        rw [List.getElem?_eq_getElem hi]
        rfl
      · rintro ⟨k, hk⟩ hfound _ ⟨⟩
        obtain ⟨hbefore, hbehind⟩ := separates_at_right hcmp hleft hright hitem (k := k)
          fun i a ha => by
            rw [← hfound i (List.getElem?_eq_some_iff.1 ha).1, ha]
            rfl
        exact ⟨hbefore, hbehind⟩

end ForkJoin.Sorting
