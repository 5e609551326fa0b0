import ForkJoin.Proofs.Scan.Stages

/-!
# Moves of a node and of its children

A step of a walker moves one node to another stage, and its parent or its children with it if they
are to see another face. What goes together still does after each of these moves.
-/
namespace ForkJoin.Scan

theorem Down.ready_of_fresh {d : Down} (h : d.fresh = true) : d.ready = false := by
  cases d <;> first | rfl | cases h

theorem Down.ne_told_of_fresh {d : Down} (h : d.fresh = true) :
    d ≠ .told ∧ ∀ seen, d ≠ .deliver seen := by
  cases d <;> simp_all [fresh]

theorem Down.ne_called_of_ready {d : Down} (h : d.ready = true) : d ≠ .called ∧ d ≠ .idle := by
  cases d <;> simp_all [ready]

/-! ## Leaves -/

namespace AtLeaf

variable {first : Bool} {a : Stage}

/-- The first pass of a leaf goes on. -/
theorem rise (h : AtLeaf first a) {up : Up} (hup : a.up ≠ .told) (hbelow : up ≠ .below)
    (htotal : first = true → up ≠ .total) (hsweep : first = false → up ≠ .sweep)
    (htold : up ≠ .told) : AtLeaf first { a with up := up } where
  not_below := hbelow
  total := htotal
  sweep := hsweep
  down := h.down
  down_first hf := .inl ⟨((h.down_first hf).resolve_right fun hd => hup hd.2).1, htold⟩
  down_later hf hd := absurd (h.down_later hf hd) hup

/-- The first pass of a leaf is over, and with it the second if the leaf is the first. -/
theorem tell (h : AtLeaf first a) :
    AtLeaf first { a with up := .told, down := if first then .told else a.down } where
  not_below := by simp
  total _ := by simp
  sweep _ := by simp
  down := by
    cases first
    · exact h.down
    · rfl
  down_first hf := .inr ⟨if_pos hf, rfl⟩
  down_later _ _ := rfl

/-- The second pass of a leaf goes on. -/
theorem sink (h : AtLeaf first a) {down : Down} (hf : first = false) (hup : a.up = .told)
    (hcut : down.atCut = false) : AtLeaf first { a with down := down } where
  not_below := h.not_below
  total := h.total
  sweep := h.sweep
  down := hcut
  down_first hf' := by rw [hf] at hf'; cases hf'
  down_later _ _ := hup

end AtLeaf

/-! ## Nodes that are cut -/

namespace Linked

variable {first leftLeaf : Bool} {a : Stage} {l r : Face}

/-! ### What follows for the node -/

theorem up_below (h : Linked first leftLeaf a l r) (hidle : l.up ≠ .idle ∨ r.up ≠ .idle)
    (htold : l.up ≠ .told ∨ r.up ≠ .told) : a.up = .below := by
  have hbefore := h.before
  have hready := h.ready
  have hup := h.up
  cases hcase : a.up <;> simp_all [Up.ready, Up.worked, Up.atLeaf]

/-- The second pass is not at the node before both its children are summed. -/
theorem down_idle (h : Linked first leftLeaf a l r) (htold : l.up ≠ .told ∨ r.up ≠ .told) :
    a.down = .idle := by
  by_contra hne
  have hboth : l.up = .told ∧ r.up = .told := by
    cases first with
    | true => exact ((h.awake_first rfl).2).1 hne
    | false => exact h.ready (by rw [h.awake_later rfl hne]; rfl)
  exact htold.elim (· hboth.1) (· hboth.2)

theorem both_told (h : Linked first leftLeaf a l r) (hdown : a.down ≠ .idle) :
    l.up = .told ∧ r.up = .told := by
  by_contra hne
  exact hdown (h.down_idle (not_and_or.1 hne))

/-- While a child adds up, the other one has told. -/
theorem other_told (h : Linked first leftLeaf a l r) :
    (l.up ≠ .told → r.up.seen? = none) ∧ (r.up ≠ .told → l.up.seen? = none) := by
  constructor <;> intro hne <;> by_contra hsome <;>
    obtain ⟨seen, hseen⟩ := Option.ne_none_iff_exists'.1 hsome
  · exact hne (h.right seen hseen).1
  · exact hne (h.left seen hseen).1

theorem down_below (h : Linked first leftLeaf a l r)
    (hdown : l.down = .busy ∧ r.down = .told ∨ l.down = .told ∧ r.down = .busy) :
    a.down = .below := by
  have hfresh := h.fresh
  have hwaking := h.waking
  have hswept := h.swept
  have hleaf := h.down
  cases hcase : a.down <;> simp_all [Down.fresh, Down.ready, Down.atLeaf]

/-! ### Moves of the node -/

/-- The first pass comes to the node. -/
theorem arrive (h : Linked first leftLeaf a l r) (hup : a.up = .idle) :
    Linked first leftLeaf { a with up := .enter } l r :=
  { h with
    before := fun _ => h.before (.inl hup)
    below := by simp
    ready := by rintro ⟨⟩
    up := rfl
    awake_later := fun hf hd => by
      have := h.awake_later hf hd
      rw [hup] at this
      cases this }

/-- The node is summed, and its first pass goes on. -/
theorem rise (h : Linked first leftLeaf a l r) {up : Up} (hready : a.up.ready = true)
    (hup : a.up ≠ .told) (hready' : up.ready = true) (hleaf : up.atLeaf = false) :
    Linked first leftLeaf { a with up := up } l r :=
  { h with
    before := by rintro (rfl | rfl) <;> cases hready'
    below := by rintro rfl; cases hready'
    ready := fun _ => h.ready hready
    up := hleaf
    awake_later := fun hf hd => absurd (h.awake_later hf hd) hup }

/-- The node is called, or tells its children what precedes them. -/
theorem hand (h : Linked first leftLeaf a l r) {down : Down} (hf : a.down.fresh = true)
    (hf' : down.fresh = true) (h0 : down ≠ .idle)
    (hup : first = false → a.up = .told) (h1 : first = true → a.down ≠ .idle ∧ down ≠ .called) :
    Linked first leftLeaf { a with down := down } l r :=
  { h with
    fresh := fun _ => h.fresh hf
    waking := by rintro rfl; cases hf'
    sweeping := by rintro rfl; cases hf'
    swept := fun hd => by rw [Down.ready_of_fresh hf'] at hd; cases hd
    down := by cases down <;> first | rfl | cases hf'
    awake_first := fun hfirst => ⟨(h1 hfirst).2,
      iff_of_true h0 (h.both_told (h1 hfirst).1)⟩
    awake_later := fun hfirst _ => hup hfirst }

/-- All leaves below the node are swept, and its second pass goes on. -/
theorem sink (h : Linked first leftLeaf a l r) {down : Down} (hready : a.down.ready = true)
    (hready' : down.ready = true) : Linked first leftLeaf { a with down := down } l r :=
  have hne := Down.ne_called_of_ready hready
  have hne' := Down.ne_called_of_ready hready'
  { h with
    fresh := fun hf => by rw [Down.ready_of_fresh hf] at hready'; cases hready'
    waking := by rintro rfl; cases hready'
    sweeping := by rintro rfl; cases hready'
    swept := fun _ => h.swept hready
    down := by cases down <;> first | rfl | cases hready'
    awake_first := fun hfirst => ⟨hne'.1, iff_of_true hne'.2 (h.both_told hne.2)⟩
    awake_later := fun hfirst _ => h.awake_later hfirst hne.2 }

/-! ### The first pass of the children -/

/-- The first pass goes down to both children. -/
theorem descend (h : Linked first leftLeaf a l r) (hup : a.up = .enter) :
    Linked first leftLeaf { a with up := .below } { l with up := .busy } { r with up := .busy } := by
  obtain ⟨hl, hr⟩ := h.before (.inr hup)
  have hidle : a.down = .idle := h.down_idle (.inl (by simp [hl]))
  exact { h with
    before := by simp
    below := fun _ => ⟨by simp, by simp, by simp⟩
    ready := by rintro ⟨⟩
    up := rfl
    left := by rintro _ ⟨⟩
    right := by rintro _ ⟨⟩
    joined := by rw [h.joined, hl, hr]; rfl
    awake_first := fun hf => ⟨(h.awake_first hf).1, iff_of_false (by simp [hidle]) (by simp)⟩
    awake_later := fun hf hd => absurd hidle hd }

/-- The first pass is below the node, and the second one has not come to it. -/
theorem of_below (hup : a.up = .below) (hdown : a.down = .idle) (hl : l.up ≠ .idle)
    (hr : r.up ≠ .idle) (htold : l.up ≠ .told ∨ r.up ≠ .told)
    (left : ∀ seen, l.up.seen? = some seen →
      r.up = .told ∧ Seen first leftLeaf true a.again l.down r.down seen)
    (right : ∀ seen, r.up.seen? = some seen →
      l.up = .told ∧ Seen first leftLeaf false a.again l.down r.down seen)
    (joined : a.joined = (l.up.joins || r.up.joins))
    (again : a.again = true → first = true ∧ leftLeaf = false ∧ l.down = .told)
    (hdowns : r.down = .idle ∧ (first = false → l.down = .idle)) :
    Linked first leftLeaf a l r :=
  have hboth : ¬ (l.up = .told ∧ r.up = .told) := fun hb => htold.elim (· hb.1) (· hb.2)
  { before := fun hb => by rw [hup] at hb; exact hb.elim (by simp) (by simp)
    below := fun _ => ⟨hl, hr, hboth⟩
    ready := fun h => by rw [hup] at h; cases h
    up := by rw [hup]; rfl
    left := left
    right := right
    joined := by
      rw [joined, Bool.eq_false_iff.2 (by simpa using hboth : (l.up == .told && r.up == .told) ≠ true),
        Bool.or_false]
    again := again
    fresh := fun _ => hdowns
    waking := fun h => by rw [hdown] at h; cases h
    sweeping := fun h => by rw [hdown] at h; cases h
    swept := fun h => by rw [hdown] at h; cases h
    down := by rw [hdown]; rfl
    awake_first := fun _ => ⟨by simp [hdown], iff_of_false (by simp [hdown]) hboth⟩
    awake_later := fun _ h => absurd hdown h }

theorem joined_below (h : Linked first leftLeaf a l r) (htold : l.up ≠ .told ∨ r.up ≠ .told) :
    a.joined = (l.up.joins || r.up.joins) := by
  have hboth : ¬ (l.up = .told ∧ r.up = .told) := fun hb => htold.elim (· hb.1) (· hb.2)
  rw [h.joined, Bool.eq_false_iff.2 (by simpa using hboth : (l.up == .told && r.up == .told) ≠ true),
    Bool.or_false]

theorem downs_idle (h : Linked first leftLeaf a l r) (htold : l.up ≠ .told ∨ r.up ≠ .told) :
    r.down = .idle ∧ (first = false → l.down = .idle) :=
  h.fresh (by rw [h.down_idle htold]; rfl)

/-- A child is the first to report. The first leaf reports both passes at once. -/
theorem deliver_left {down : Down.Face} (h : Linked first leftLeaf a l r) (hl : l.up = .busy)
    (hr : r.up ≠ .told) (hdown : down = l.down ∨ first = true ∧ down = .told) :
    Linked first leftLeaf a ⟨.told, down⟩ r := by
  have hl' : l.up ≠ .idle ∧ l.up ≠ .told := by simp [hl]
  have hup := h.up_below (.inl hl'.1) (.inr hr)
  have hjoined := h.joined_below (.inr hr)
  have hdowns := h.downs_idle (.inr hr)
  refine .of_below hup (h.down_idle (.inr hr)) (by rintro ⟨⟩) (h.below hup).2.1 (.inr hr)
    (by rintro _ ⟨⟩) (fun seen hs => ?_) (by rw [hjoined, hl]; rfl) (fun ha => ?_) ⟨hdowns.1, fun hf => ?_⟩
  · rw [h.other_told.1 hl'.2] at hs
    cases hs
  · obtain ⟨hf, hleaf, htold⟩ := h.again ha
    exact ⟨hf, hleaf, hdown.elim (·.trans htold) And.right⟩
  · rcases hdown with rfl | ⟨hf', _⟩
    · exact hdowns.2 hf
    · rw [hf] at hf'; cases hf'

theorem deliver_right (h : Linked first leftLeaf a l r) (hr : r.up = .busy)
    (hl : l.up ≠ .told) : Linked first leftLeaf a l { r with up := .told } := by
  have hr' : r.up ≠ .idle ∧ r.up ≠ .told := by simp [hr]
  have hup := h.up_below (.inr hr'.1) (.inl hl)
  have hjoined := h.joined_below (.inl hl)
  refine .of_below hup (h.down_idle (.inl hl)) (h.below hup).1 (by simp) (.inl hl)
    (fun seen hs => ?_) (by rintro _ ⟨⟩) (by rw [hjoined, hr]; rfl) h.again (h.downs_idle (.inl hl))
  rw [h.other_told.2 hr'.2] at hs
  cases hs

/-- A child is the second to report, and is about to add up. -/
theorem add_left {seen : Phase} (h : Linked first leftLeaf a l r) (hl : l.up = .busy)
    (hr : r.up = .told) (hseen : Seen first leftLeaf true a.again l.down r.down seen) :
    Linked first leftLeaf a { l with up := .adding seen false false } r := by
  have hl' : l.up ≠ .idle ∧ l.up ≠ .told := by simp [hl]
  have hup := h.up_below (.inl hl'.1) (.inl hl'.2)
  refine .of_below hup (h.down_idle (.inl hl'.2)) (by simp) (h.below hup).2.1 (.inl (by simp))
    (fun seen' hs => ?_) (fun _ hs => ?_) ?_ h.again (h.downs_idle (.inl hl'.2))
  · obtain rfl : seen = seen' := Option.some.inj hs
    exact ⟨hr, hseen⟩
  · rw [hr] at hs; cases hs
  · rw [h.joined_below (.inl hl'.2), hl]
    rfl

theorem add_right {seen : Phase} (h : Linked first leftLeaf a l r) (hr : r.up = .busy)
    (hl : l.up = .told) (hseen : Seen first leftLeaf false a.again l.down r.down seen) :
    Linked first leftLeaf a l { r with up := .adding seen false false } := by
  have hr' : r.up ≠ .idle ∧ r.up ≠ .told := by simp [hr]
  have hup := h.up_below (.inr hr'.1) (.inr hr'.2)
  refine .of_below hup (h.down_idle (.inr hr'.2)) (h.below hup).1 (by simp) (.inr (by simp))
    (fun _ hs => ?_) (fun seen' hs => ?_) ?_ h.again (h.downs_idle (.inr hr'.2))
  · rw [hl] at hs; cases hs
  · obtain rfl : seen = seen' := Option.some.inj hs
    exact ⟨hl, hseen⟩
  · rw [h.joined_below (.inr hr'.2), hr]
    rfl

/-- A child that adds up goes on, or gives up to look again. -/
theorem move_left {seen : Phase} {j b : Bool} {up : Up.Face} {again : Bool}
    (h : Linked first leftLeaf a l r) (hl : l.up = .adding seen j b)
    (hidle : up ≠ .idle) (htold : up ≠ .told)
    (hseen : up.seen? = some seen ∧ again = a.again ∨ up.seen? = none ∧
      (again = true → first = true ∧ leftLeaf = false ∧ l.down = .told)) :
    Linked first leftLeaf (a.toJoined up.joins again) { l with up := up } r := by
  have hl' : l.up ≠ .idle ∧ l.up ≠ .told := by simp [hl]
  obtain ⟨hr, hold⟩ := h.left seen (by rw [hl]; rfl)
  have hup := h.up_below (.inl hl'.1) (.inl hl'.2)
  refine .of_below hup (h.down_idle (.inl hl'.2)) hidle (h.below hup).2.1 (.inl htold)
    (fun seen' hs => ?_) (fun _ hs => ?_) (by rw [hr]; exact (Bool.or_false _).symm) (fun ha => ?_)
    (h.downs_idle (.inl hl'.2))
  · rcases hseen with ⟨hsome, rfl⟩ | ⟨hnone, _⟩
    · obtain rfl : seen = seen' := Option.some.inj (hsome.symm.trans hs)
      exact ⟨hr, hold⟩
    · exact absurd (hnone.symm.trans hs) (by simp)
  · rw [hr] at hs; cases hs
  · rcases hseen with ⟨_, rfl⟩ | ⟨_, hagain⟩
    · exact h.again ha
    · exact hagain ha

theorem move_right {seen : Phase} {j b : Bool} {up : Up.Face} {again : Bool}
    (h : Linked first leftLeaf a l r) (hr : r.up = .adding seen j b)
    (hidle : up ≠ .idle) (htold : up ≠ .told)
    (hseen : up.seen? = some seen ∧ again = a.again ∨ up.seen? = none ∧
      (again = true → first = true ∧ leftLeaf = false ∧ l.down = .told)) :
    Linked first leftLeaf (a.toJoined up.joins again) l { r with up := up } := by
  have hr' : r.up ≠ .idle ∧ r.up ≠ .told := by simp [hr]
  obtain ⟨hl, hold⟩ := h.right seen (by rw [hr]; rfl)
  have hup := h.up_below (.inr hr'.1) (.inr hr'.2)
  refine .of_below hup (h.down_idle (.inr hr'.2)) (h.below hup).1 hidle (.inr htold)
    (fun _ hs => ?_) (fun seen' hs => ?_) (by rw [hl]; exact (Bool.false_or _).symm) (fun ha => ?_)
    (h.downs_idle (.inr hr'.2))
  · rw [hl] at hs; cases hs
  · rcases hseen with ⟨hsome, rfl⟩ | ⟨hnone, _⟩
    · obtain rfl : seen = seen' := Option.some.inj (hsome.symm.trans hs)
      exact ⟨hl, hold⟩
    · exact absurd (hnone.symm.trans hs) (by simp)
  · rcases hseen with ⟨_, rfl⟩ | ⟨_, hagain⟩
    · exact h.again ha
    · exact hagain ha

/-- Both children are summed, and the node is about to be reported itself; nothing precedes a first
node, so its second pass starts. -/
theorem tell (h : Linked first leftLeaf a l r) {down : Down.Face}
    (hl : l.up ≠ .idle ∧ (l.up = .told ∨ l.up.joins = true))
    (hr : r.up ≠ .idle ∧ (r.up = .told ∨ r.up.joins = true))
    (htold : l.up ≠ .told ∨ r.up ≠ .told)
    (hdown : down = l.down ∨ first = true ∧ down = .told) :
    Linked first leftLeaf (a.joinUp first) ⟨.told, down⟩ { r with up := .told } := by
  have hidle := h.down_idle htold
  have hjoined : a.joined = true := by
    rw [h.joined_below htold]
    rcases hl.2 with hl | hl
    · rcases hr.2 with hr | hr
      · exact absurd ⟨hl, hr⟩ (not_and_or.2 htold)
      · rw [hr, Bool.or_true]
    · rw [hl, Bool.true_or]
  have hfresh : (a.joinUp first).down.fresh = true := by
    cases first <;> simp [Stage.joinUp, hidle, Down.fresh]
  exact {
    before := by rintro (hup | hup) <;> cases hup
    below := by rintro ⟨⟩
    ready := fun _ => ⟨rfl, rfl⟩
    up := rfl
    left := by rintro _ ⟨⟩
    right := by rintro _ ⟨⟩
    joined := hjoined
    again := fun ha => by
      obtain ⟨hf, hleaf, htold⟩ := h.again ha
      exact ⟨hf, hleaf, hdown.elim (·.trans htold) And.right⟩
    fresh := fun _ => ⟨(h.downs_idle htold).1, fun hf => by
      rcases hdown with rfl | ⟨hf', _⟩
      · exact (h.downs_idle htold).2 hf
      · rw [hf] at hf'; cases hf'⟩
    waking := fun hd => by rw [hd] at hfresh; cases hfresh
    sweeping := fun hd => by rw [hd] at hfresh; cases hfresh
    swept := fun hd => by rw [Down.ready_of_fresh hfresh] at hd; cases hd
    down := by cases first <;> simp [Stage.joinUp, hidle, Down.atLeaf]
    awake_first := fun hf => by
      subst hf
      exact ⟨by rintro ⟨⟩, iff_of_true (by rintro ⟨⟩) ⟨rfl, rfl⟩⟩
    awake_later := fun hf hd => by
      subst hf
      exact absurd hidle hd }

/-! ### The second pass of the children -/

/-- The right child is called. -/
theorem wake_right (h : Linked first leftLeaf a l r) (hd : a.down = .wakeRight) :
    Linked first leftLeaf { a with down := .wakeLeft } l { r with down := .called } := by
  have hne : a.down ≠ .idle := by simp [hd]
  obtain ⟨hl, hr⟩ := h.both_told hne
  have hfresh := h.fresh (by rw [hd]; rfl)
  exact { h with
    left := fun seen hs => by rw [hl] at hs; cases hs
    right := fun seen hs => by rw [hr] at hs; cases hs
    fresh := by rintro ⟨⟩
    waking := fun _ => ⟨rfl, hfresh.2⟩
    sweeping := by simp
    swept := by rintro ⟨⟩
    down := rfl
    awake_first := fun _ => ⟨by simp, iff_of_true (by simp) ⟨hl, hr⟩⟩
    awake_later := fun hf _ => h.awake_later hf hne }

/-- The second pass goes down to both children; at a first node it came to the left one before. -/
theorem wake_left {down : Down.Face} (h : Linked first leftLeaf a l r) (hd : a.down = .wakeLeft)
    (hdown : down = .busy ∨ down = .told) (hfirst : first = true → down = l.down) :
    Linked first leftLeaf { a with down := .below } { l with down := down }
      { r with down := .busy } := by
  have hne : a.down ≠ .idle := by simp [hd]
  obtain ⟨hl, hr⟩ := h.both_told hne
  exact { h with
    left := fun seen hs => by rw [hl] at hs; cases hs
    right := fun seen hs => by rw [hr] at hs; cases hs
    again := fun ha => by
      obtain ⟨hf, hleaf, htold⟩ := h.again ha
      exact ⟨hf, hleaf, (hfirst hf).trans htold⟩
    fresh := by rintro ⟨⟩
    waking := by simp
    sweeping := fun _ => ⟨hdown, .inl rfl, by simp⟩
    swept := by rintro ⟨⟩
    down := rfl
    awake_first := fun _ => ⟨by simp, iff_of_true (by simp) ⟨hl, hr⟩⟩
    awake_later := fun hf _ => h.awake_later hf hne }

/-- All leaves below both children are swept. -/
theorem finish (h : Linked first leftLeaf a l r) (hd : a.down = .below) :
    Linked first leftLeaf { a with down := .climb } { l with down := .told }
      { r with down := .told } := by
  have hne : a.down ≠ .idle := by simp [hd]
  obtain ⟨hl, hr⟩ := h.both_told hne
  exact { h with
    left := fun seen hs => by rw [hl] at hs; cases hs
    right := fun seen hs => by rw [hr] at hs; cases hs
    again := fun ha => ⟨(h.again ha).1, (h.again ha).2.1, rfl⟩
    fresh := by rintro ⟨⟩
    waking := by simp
    sweeping := by simp
    swept := fun _ => ⟨rfl, rfl⟩
    down := rfl
    awake_first := fun _ => ⟨by simp, iff_of_true (by simp) ⟨hl, hr⟩⟩
    awake_later := fun hf _ => h.awake_later hf hne }

/-- All leaves below one child are swept, and it is the first to report this. -/
theorem finish_left (h : Linked first leftLeaf a l r) (hl : l.down = .busy)
    (hr : r.down ≠ .told) : Linked first leftLeaf a { l with down := .told } r :=
  { h with
    left := fun seen hs =>
      ⟨(h.left seen hs).1, { (h.left seen hs).2 with finished := fun _ _ => .inl rfl }⟩
    right := fun seen hs =>
      ⟨(h.right seen hs).1, { (h.right seen hs).2 with finished := fun _ _ => .inl rfl }⟩
    again := fun ha => ⟨(h.again ha).1, (h.again ha).2.1, rfl⟩
    fresh := fun hf => ⟨(h.fresh hf).1, fun hfirst => by
      have := (h.fresh hf).2 hfirst
      rw [hl] at this
      cases this⟩
    waking := fun hd => ⟨(h.waking hd).1, fun hfirst => by
      have := (h.waking hd).2 hfirst
      rw [hl] at this
      cases this⟩
    sweeping := fun hd => ⟨.inr rfl, (h.sweeping hd).2.1, fun hboth => hr hboth.2⟩
    swept := fun hd => absurd (h.swept hd).2 hr }

theorem finish_right (h : Linked first leftLeaf a l r) (hr : r.down = .busy)
    (hl : l.down ≠ .told) : Linked first leftLeaf a l { r with down := .told } :=
  { h with
    left := fun seen hs =>
      ⟨(h.left seen hs).1, { (h.left seen hs).2 with finished := fun _ _ => .inr rfl }⟩
    right := fun seen hs =>
      ⟨(h.right seen hs).1, { (h.right seen hs).2 with finished := fun _ _ => .inr rfl }⟩
    fresh := fun hf => by
      have := (h.fresh hf).1
      rw [hr] at this
      cases this
    waking := fun hd => by
      have := (h.waking hd).1
      rw [hr] at this
      cases this
    sweeping := fun hd => ⟨(h.sweeping hd).1, .inr rfl, fun hboth => hl hboth.1⟩
    swept := fun hd => absurd (h.swept hd).1 hl }

end Linked

end ForkJoin.Scan
