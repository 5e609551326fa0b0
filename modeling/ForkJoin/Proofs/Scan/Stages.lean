import Mathlib.Data.Multiset.Replicate
import ForkJoin.Proofs.Scan.Values

/-!
# How far each node of a scan has come

At any moment of a run, under any policy, each node of the split tree is at some stage of its first
pass and at some stage of its second pass, and each of the two has one walker at most. `Stage` names
the two stages, and the live visits are the walkers of all stages: `Setting.walkers`. What a walker
has in hand is known from where it stands, but for the phase that it has seen.

Of a child, the parent knows its `Face` only: whether it has started, whether it is adding up the
two sums of the parent, and whether it has told. `Linked` says which stages of a node and which
faces of its children go together.
-/
namespace ForkJoin.Scan

variable {α : Type}

/-! ## Stages -/

/-- How far the first pass has come at a node. -/
inductive Up where
  | idle
  | enter
  | takeOn
  | total
  /-- Both passes go over the first leaf at once. -/
  | sweep
  | leave
  /-- The first pass is below the node. -/
  | below
  | climb
  | deliver (seen : Phase)
  | addLeft (seen : Phase)
  | addRight (seen : Phase)
  | leaveSum (seen : Phase)
  | publish (seen : Phase)
  /-- The parent knows, or there is none. -/
  | told
  deriving DecidableEq

/-- How far the second pass has come at a node. -/
inductive Down where
  | idle
  /-- The node is awake, and its visit is still to be forked. -/
  | called
  | enter
  | takeOn
  | fetch
  | sweep
  | leave
  | handDown
  | addCarry
  | giveLeft
  | giveRight
  | wakeRight
  | wakeLeft
  /-- The second pass is below the node. -/
  | below
  | climb
  | deliver (seen : Phase)
  /-- The parent knows, or the end of the run was announced. -/
  | told
  deriving DecidableEq

/-- How far a node has come. -/
structure Stage where
  up : Up := .idle
  down : Down := .idle
  /-- The sums of the children were added up, and this is known or about to be made known. -/
  joined : Bool := false
  /-- The sums of the children were added up in vain once. -/
  again : Bool := false
  deriving DecidableEq

namespace Stage

variable (a : Stage)

/-- The first pass comes further. -/
def toUp (up : Up) : Stage := { a with up := up }

/-- The second pass comes further. -/
def toDown (down : Down) : Stage := { a with down := down }

/-- Both children are summed. Nothing precedes a first node, so its second pass starts at once. -/
def joinUp (first : Bool) : Stage :=
  { a with up := .climb, down := if first then .enter else a.down }

/-- Whether the sums of the children were added up, and whether they were once in vain. -/
def toJoined (joined again : Bool) : Stage := { a with joined := joined, again := again }

@[simp] theorem toUp_up (up : Up) : (a.toUp up).up = up := rfl

@[simp] theorem toUp_down (up : Up) : (a.toUp up).down = a.down := rfl

@[simp] theorem toDown_up (down : Down) : (a.toDown down).up = a.up := rfl

@[simp] theorem toDown_down (down : Down) : (a.toDown down).down = down := rfl

theorem joinUp_eq {a : Stage} (h : a.down = .idle) (first : Bool) :
    a.joinUp first = (a.toUp .climb).toDown (if first then .enter else .idle) := by
  rw [joinUp, h]
  rfl

end Stage

namespace Up

/-- The leaf is not yet taken on. -/
def early : Up → Bool
  | idle | enter | takeOn => true
  | _ => false

/-- What was to be done at the leaf is done. -/
def worked : Up → Bool
  | idle | enter | takeOn | total | sweep | below => false
  | _ => true

/-- The sum of the node is in its slot. -/
def ready : Up → Bool
  | leave => false
  | up => up.worked

/-- Only a leaf comes to this stage. -/
def atLeaf : Up → Bool
  | takeOn | total | sweep | leave => true
  | _ => false

/-- The phase of the parent was looked at before this stage. -/
def aloft : Up → Bool
  | deliver _ | addLeft _ | addRight _ | leaveSum _ | publish _ => true
  | _ => false

/-- A bound for the steps of the first pass still to be made from the node, if no visit comes in
between. -/
def ahead : Up → Nat
  | idle => 10
  | enter => 9
  | takeOn => 8
  | total | sweep => 7
  | leave | below => 6
  | climb => 5
  | addLeft _ => 4
  | addRight _ => 3
  | leaveSum _ => 2
  | deliver _ | publish _ => 1
  | told => 0

theorem ahead_le (up : Up) : up.ahead ≤ 10 := by
  cases up <;> simp [ahead]

end Up

namespace Down

/-- The leaf is not yet taken on for the second time. -/
def early : Down → Bool
  | idle | called | enter | takeOn => true
  | _ => false

/-- The leaf is swept. -/
def worked : Down → Bool
  | leave | climb | deliver _ | told => true
  | _ => false

/-- All leaves below the node are swept, and this is about to be told or was. -/
def ready : Down → Bool
  | climb | deliver _ | told => true
  | _ => false

/-- Only a leaf comes to this stage. -/
def atLeaf : Down → Bool
  | takeOn | fetch | sweep | leave => true
  | _ => false

/-- Only a node that is cut comes to this stage. -/
def atCut : Down → Bool
  | handDown | addCarry | giveLeft | giveRight | wakeRight | wakeLeft | below => true
  | _ => false

/-- Neither child was woken yet. -/
def fresh : Down → Bool
  | idle | called | enter | handDown | addCarry | giveLeft | giveRight | wakeRight => true
  | _ => false

/-- What precedes the left child is in its slot. -/
def gaveLeft : Down → Bool
  | giveRight | wakeRight | wakeLeft => true
  | _ => false

/-- The sum of what precedes the right child was taken. -/
def added : Down → Bool
  | giveLeft | giveRight | wakeRight | wakeLeft | below | climb | deliver _ | told => true
  | _ => false

/-- A bound for the steps of the second pass still to be made from the node, if no visit comes in
between. -/
def ahead : Down → Nat
  | idle => 12
  | called => 11
  | enter => 10
  | handDown => 9
  | addCarry => 8
  | giveLeft => 7
  | takeOn | giveRight => 6
  | fetch | wakeRight => 5
  | sweep | wakeLeft => 4
  | leave | below => 3
  | climb => 2
  | deliver _ => 1
  | told => 0

theorem ahead_le (down : Down) : down.ahead ≤ 12 := by
  cases down <;> simp [ahead]

end Down

/-- A bound for the steps still to be made from a node. -/
def Stage.ahead (a : Stage) : Nat := a.up.ahead + a.down.ahead

/-! ## Faces -/

/-- What a parent knows of the first pass of a child. -/
inductive Up.Face where
  | idle
  | busy
  /-- The child is the second to report; whether the sums are added up, and left in the slot. -/
  | adding (seen : Phase) (joined left : Bool)
  | told
  deriving DecidableEq

/-- What a parent knows of the second pass of a child. -/
inductive Down.Face where
  | idle
  | called
  | busy
  | told
  deriving DecidableEq

def Up.face : Up → Up.Face
  | idle => .idle
  | addLeft seen | addRight seen => .adding seen false false
  | leaveSum seen => .adding seen true false
  | publish seen => .adding seen true true
  | told => .told
  | _ => .busy

def Down.face : Down → Down.Face
  | idle => .idle
  | called => .called
  | told => .told
  | _ => .busy

namespace Up.Face

/-- The phase of the parent that the second to report has seen. -/
def seen? : Up.Face → Option Phase
  | adding seen _ _ => some seen
  | _ => none

def joins : Up.Face → Bool
  | adding _ joined _ => joined
  | _ => false

def leaves : Up.Face → Bool
  | adding _ _ left => left
  | _ => false

end Up.Face

/-- What a parent knows of a child. -/
structure Face where
  up : Up.Face
  down : Down.Face
  deriving DecidableEq

/-- The second pass of a first node starts by itself, which its parent does not see. -/
def Down.Face.shown (first : Bool) : Down.Face → Down.Face
  | idle => if first then busy else idle
  | face => face

/-- What the parent of the node `t` knows of it, if the nodes are at these stages. -/
def Plan.face (plan : Plan) (c : Nat → Stage) (t : Nat) : Face :=
  ⟨(c t).up.face, (c t).down.face.shown (plan.isFirst t)⟩

theorem Down.face_eq_idle {d : Down} : d.face = .idle ↔ d = .idle := by
  cases d <;> simp [Down.face]

theorem Down.face_eq_called {d : Down} : d.face = .called ↔ d = .called := by
  cases d <;> simp [Down.face]

theorem Down.face_eq_told {d : Down} : d.face = .told ↔ d = .told := by
  cases d <;> simp [Down.face]

theorem Up.face_eq_idle {u : Up} : u.face = .idle ↔ u = .idle := by
  cases u <;> simp [Up.face]

theorem Up.face_eq_told {u : Up} : u.face = .told ↔ u = .told := by
  cases u <;> simp [Up.face]

@[simp] theorem Down.Face.shown_false (face : Down.Face) : face.shown false = face := by
  cases face <;> rfl

theorem Down.Face.shown_eq_told {first : Bool} {face : Down.Face} :
    face.shown first = .told ↔ face = .told := by
  cases face <;> cases first <;> simp [shown]

theorem Plan.face_congr {plan : Plan} {c c' : Nat → Stage} {t : Nat}
    (hup : (c' t).up.face = (c t).up.face) (hdown : (c' t).down.face = (c t).down.face) :
    plan.face c' t = plan.face c t := by
  rw [face, face, hup, hdown]

theorem Plan.face_of_stage_eq {plan : Plan} {c c' : Nat → Stage} {t : Nat} (h : c' t = c t) :
    plan.face c' t = plan.face c t :=
  face_congr (by rw [h]) (by rw [h])

/-! ## What goes together -/

/-- A leaf at this stage. -/
structure AtLeaf (first : Bool) (a : Stage) : Prop where
  not_below : a.up ≠ .below
  total : first = true → a.up ≠ .total
  sweep : first = false → a.up ≠ .sweep
  down : a.down.atCut = false
  down_first : first = true → a.down = .idle ∧ a.up ≠ .told ∨ a.down = .told ∧ a.up = .told
  down_later : first = false → a.down ≠ .idle → a.up = .told

/-- What is seen of the phase of a node by the second of its children to report. The left child of a
first node that is a leaf itself reports both passes at once. -/
structure Seen (first leftLeaf isLeft again : Bool) (l r : Down.Face) (seen : Phase) : Prop where
  summed : seen.summed = true
  asleep : first = true → seen.awake = false
  finished : first = true → seen.finished = true → l = .told ∨ r = .told
  again : again = true → seen.finished = true
  leaf : first = true → leftLeaf = true → seen.finished = !isLeft

/-- A node that is cut, and its children, at these stages. -/
structure Linked (first leftLeaf : Bool) (a : Stage) (l r : Face) : Prop where
  before : a.up = .idle ∨ a.up = .enter → l.up = .idle ∧ r.up = .idle
  below : a.up = .below → l.up ≠ .idle ∧ r.up ≠ .idle ∧ ¬ (l.up = .told ∧ r.up = .told)
  ready : a.up.ready = true → l.up = .told ∧ r.up = .told
  up : a.up.atLeaf = false
  left : ∀ seen, l.up.seen? = some seen →
    r.up = .told ∧ Seen first leftLeaf true a.again l.down r.down seen
  right : ∀ seen, r.up.seen? = some seen →
    l.up = .told ∧ Seen first leftLeaf false a.again l.down r.down seen
  joined : a.joined = (l.up.joins || r.up.joins || (l.up == .told && r.up == .told))
  again : a.again = true → first = true ∧ leftLeaf = false ∧ l.down = .told
  fresh : a.down.fresh = true → r.down = .idle ∧ (first = false → l.down = .idle)
  waking : a.down = .wakeLeft → r.down = .called ∧ (first = false → l.down = .idle)
  sweeping : a.down = .below → (l.down = .busy ∨ l.down = .told) ∧
    (r.down = .busy ∨ r.down = .told) ∧ ¬ (l.down = .told ∧ r.down = .told)
  swept : a.down.ready = true → l.down = .told ∧ r.down = .told
  down : a.down.atLeaf = false
  awake_first : first = true → a.down ≠ .called ∧
    (a.down ≠ .idle ↔ l.up = .told ∧ r.up = .told)
  awake_later : first = false → a.down ≠ .idle → a.up = .told

/-- The phase of a leaf. -/
def LeafPhase (first : Bool) (a : Stage) (ph : Phase) : Prop :=
  if first = true then
    if a.up.early = true then ph = {} else ph.summed = true ∧ ph.finished = true
  else ph = { awake := a.down != .idle, summed := !a.up.early, finished := !a.down.early }

/-- The phase of a node that is cut. -/
def cutPhase (a : Stage) (l r : Face) : Phase where
  awake := a.down != .idle
  summed := l.up == .told || r.up == .told
  finished := l.down == .told || r.down == .told

/-! ## Walkers and calls -/

namespace Plan

/-- The parent of a node that has one. -/
def parentOf (plan : Plan) (t : Nat) : Nat := (plan.nodes[t]?.bind Node.parent).getD 0

theorem Cut.parentOf_eq {plan : Plan} {p l r t : Nat} (h : plan.Cut p l r) (ht : t = l ∨ t = r) :
    plan.parentOf t = p := by
  obtain ⟨n, hn, hp⟩ := h.parent ht
  rw [parentOf, hn, Option.bind_some, hp, Option.getD_some]

end Plan

namespace Plan

variable (plan : Plan) (t : Nat) (a : Stage)

/-- The sum of the leaf was taken on its own; this is not done at the ends of the window. -/
def summed : Bool := !plan.isFirst t && (!plan.isLast (plan.span t) && a.up.worked)

/-- The leaf was swept. -/
def swept : Bool := if plan.isFirst t then a.up.worked else a.down.worked

variable {plan t a}

theorem summed_toUp {up : Up} (h : up.worked = a.up.worked) :
    plan.summed t (a.toUp up) = plan.summed t a := by
  rw [summed, summed, Stage.toUp_up, h]

theorem swept_toUp {up : Up} (h : up.worked = a.up.worked) :
    plan.swept t (a.toUp up) = plan.swept t a := by
  rw [swept, swept, Stage.toUp_up, Stage.toUp_down, h]

theorem swept_toDown {down : Down} (h : down.worked = a.down.worked) :
    plan.swept t (a.toDown down) = plan.swept t a := by
  rw [swept, swept, Stage.toDown_up, Stage.toDown_down, h]

end Plan

namespace Setting

variable (S : Setting α)

/-- What the first pass reports of a node. -/
def gain (t : Nat) : Gain := if S.plan.IsLeaf t ∧ S.plan.isFirst t = true then .both else .summed

/-- What the first pass leaves in the slot of a leaf. -/
def slot (t : Nat) : Option α :=
  if S.plan.isLast (S.plan.span t) = true ∧ S.plan.isFirst t = false then none else some (S.sum t)

/-- What the second of two reports leaves in the slot of the parent. -/
def joint (p : Nat) : α :=
  if S.plan.isLast (S.plan.span p) = true then S.sum (S.plan.kids p).1 else S.sum p

/-- The walker of a node in its first pass. -/
def upWalker (t : Nat) : Up → Multiset (Visit α)
  | .idle | .below | .told => 0
  | .enter => {.enter t}
  | .takeOn => {.takeOn t {}}
  | .total => {.total t}
  | .sweep => {.sweep t .both none}
  | .leave => {.leave t (S.gain t) (S.slot t)}
  | .climb => {.climb t (S.gain t)}
  | .deliver seen => {.deliver t (S.gain t) seen}
  | .addLeft seen => {.addLeft t (S.gain t) seen}
  | .addRight seen => {.addRight t (S.gain t) seen (S.sum (S.plan.kids (S.plan.parentOf t)).1)}
  | .leaveSum seen => {.leaveSum t (S.gain t) seen (S.joint (S.plan.parentOf t))}
  | .publish seen => {.publish t (S.gain t) seen}

/-- The walker of a node in its second pass. -/
def downWalker (t : Nat) : Down → Multiset (Visit α)
  | .idle | .called | .below | .told => 0
  | .enter => {.enter t}
  | .takeOn => {.takeOn t { awake := true, summed := true }}
  | .fetch => {.fetch t .finished}
  | .sweep => {.sweep t .finished (some (S.carry t))}
  | .leave => {.leave t .finished (S.swept t).getLast?}
  | .handDown => {.handDown t}
  | .addCarry => {.addCarry t (S.sum (S.plan.kids t).1)}
  | .giveLeft => {.giveLeft t (S.carry t) (S.carry (S.plan.kids t).2)}
  | .giveRight => {.giveRight t (S.carry (S.plan.kids t).2)}
  | .wakeRight => {.wakeRight t}
  | .wakeLeft => {.wakeLeft t true}
  | .climb => {.climb t .finished}
  | .deliver seen => {.deliver t .finished seen}

/-- A node has one walker at most in either pass. -/
theorem card_upWalker_le (t : Nat) (up : Up) : (S.upWalker t up).card ≤ 1 := by
  cases up <;> simp [upWalker]

theorem card_downWalker_le (t : Nat) (down : Down) : (S.downWalker t down).card ≤ 1 := by
  cases down <;> simp [downWalker]

/-- The walkers of a node. -/
def walkers (t : Nat) (a : Stage) : Multiset (Visit α) := S.upWalker t a.up + S.downWalker t a.down

/-- The calls that are made when a leaf is summed. -/
def foldCalls (t : Nat) : List (α × α) :=
  (additions .join (Grouping.elems (S.plan.span t))).map (Prod.map S.worth S.worth)

/-- The calls that are made when a leaf is swept. -/
def sweepCalls (t : Nat) : List (α × α) :=
  (additions .join (S.summands t)).map (Prod.map S.worth S.worth)

/-- The calls that are made for a leaf. -/
def leafCalls (t : Nat) (summed swept : Bool) : Multiset (α × α) :=
  (if summed then ↑(S.foldCalls t) else 0) + if swept then ↑(S.sweepCalls t) else 0

/-- The calls that are made for a node that is cut: the carry and the sum of the left child are added
up, and, so many times, the sums of the children. -/
def cutCalls (t : Nat) (added : Bool) (joins : Nat) : Multiset (α × α) :=
  (if added then {(S.carry t, S.sum (S.plan.kids t).1)} else 0) +
    Multiset.replicate joins (S.sum (S.plan.kids t).1, S.sum (S.plan.kids t).2)

/-- How many times the sums of the children of a node were added up. -/
def joins (t : Nat) (a : Stage) : Nat :=
  if S.plan.isLast (S.plan.span t) then 0 else a.joined.toNat + a.again.toNat

/-- The calls that were made for a node so far. -/
def calls (t : Nat) (a : Stage) : Multiset (α × α) :=
  if S.plan.IsLeaf t then S.leafCalls t (S.plan.summed t a) (S.plan.swept t a)
  else S.cutCalls t (!S.plan.isFirst t && a.down.added) (S.joins t a)

variable {S} {t : Nat} {a a' : Stage}

theorem gain_of_not_first (hf : S.plan.isFirst t = false) : S.gain t = .summed := by
  rw [gain, if_neg fun h => by rw [hf] at h; cases h.2]

theorem gain_of_cut (hcut : ¬ S.plan.IsLeaf t) : S.gain t = .summed := by
  rw [gain, if_neg fun h => hcut h.1]

theorem gain_of_first_leaf (hleaf : S.plan.IsLeaf t) (hf : S.plan.isFirst t = true) :
    S.gain t = .both := by
  rw [gain, if_pos ⟨hleaf, hf⟩]

/-- No calls are made for a leaf. -/
theorem calls_leaf_eq (hleaf : S.plan.IsLeaf t) (hsummed : S.plan.summed t a' = S.plan.summed t a)
    (hswept : S.plan.swept t a' = S.plan.swept t a) :
    S.calls t a' = S.calls t a + ([] : List (α × α)) := by
  rw [calls, calls, if_pos hleaf, if_pos hleaf, hsummed, hswept, Multiset.coe_nil, Multiset.add_zero]

/-- No calls are made for a node that is cut. -/
theorem calls_cut_eq (hcut : ¬ S.plan.IsLeaf t) (hadded : a'.down.added = a.down.added)
    (hjoins : S.joins t a' = S.joins t a) :
    S.calls t a' = S.calls t a + ([] : List (α × α)) := by
  rw [calls, calls, if_neg hcut, if_neg hcut, hadded, hjoins, Multiset.coe_nil, Multiset.add_zero]

/-- Where a node only moves on in its first pass, no calls are made. -/
theorem calls_toUp {up : Up} (h : up.worked = a.up.worked) :
    S.calls t (a.toUp up) = S.calls t a + ([] : List (α × α)) := by
  by_cases hleaf : S.plan.IsLeaf t
  · exact calls_leaf_eq hleaf (Plan.summed_toUp h) (Plan.swept_toUp h)
  · exact calls_cut_eq hleaf rfl rfl

/-- Where a node that is cut only moves on in its second pass, no calls are made. -/
theorem calls_toDown_cut (hcut : ¬ S.plan.IsLeaf t) {down : Down}
    (hadded : down.added = a.down.added) :
    S.calls t (a.toDown down) = S.calls t a + ([] : List (α × α)) :=
  calls_cut_eq hcut hadded rfl

/-- Where a node only moves on in its second pass, no calls are made. -/
theorem calls_toDown {down : Down} (hworked : down.worked = a.down.worked)
    (hadded : down.added = a.down.added) :
    S.calls t (a.toDown down) = S.calls t a + ([] : List (α × α)) := by
  by_cases hleaf : S.plan.IsLeaf t
  · exact calls_leaf_eq hleaf rfl (Plan.swept_toDown hworked)
  · exact calls_toDown_cut hleaf hadded

end Setting

end ForkJoin.Scan
