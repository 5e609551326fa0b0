import ForkJoin.Sort
import ForkJoin.Workload.Generator

/-!
# Operators, comparators and keys by name

The operators that scans are tried with: some are associative, some are not, and one may refuse an
answer. The comparators that sorts are tried with: most are orders, some only look like one, and one
may refuse an answer. A sort by key is given by the key.

To see what a kernel does when the caller's function fails, the function is made to fail at the
calls with given operands.
-/
namespace ForkJoin.Workload

/-! ## Operators -/

/-- An operator that may refuse an answer with a message. -/
abbrev Operator (α : Type) := α → α → Except String α

namespace Operator

variable {α : Type}

/-- An operator that always has an answer. -/
def total (f : α → α → α) : Operator α := fun a b => .ok (f a b)

/-- The nearest number of 64 bits. -/
def saturate (x : Int) : Int64 :=
  Int64.ofInt (max Int64.minValue.toInt (min Int64.maxValue.toInt x))

/-- Refuses a sum that is no number of 64 bits. -/
def checkedAdd (a b : Int64) : Except String Int64 :=
  let sum := a.toInt + b.toInt
  if (Int64.ofInt sum).toInt = sum then .ok (Int64.ofInt sum) else .error "overflow"

def int64? : String → Option (Operator Int64)
  | "add" => some (total (· + ·))
  | "sub" => some (total (· - ·))
  | "mul" => some (total (· * ·))
  | "checked_add" => some checkedAdd
  | "sat_add" => some (total fun a b => saturate (a.toInt + b.toInt))
  | "min" => some (total fun a b => if b < a then b else a)
  | "max" => some (total fun a b => if a < b then b else a)
  | "xor" => some (total (· ^^^ ·))
  | "left" => some (total fun a _ => a)
  | "right" => some (total fun _ b => b)
  | "digits" => some (total fun a b => a * 10 + b)
  | "avg" => some (total fun a b => (a + b) >>> 1)
  | _ => none

/-- Sums that start anew at every odd tag. -/
def segmented (a b : Tagged) : Tagged :=
  if b.tag &&& 1 = 1 then b else ⟨a.key + b.key, a.tag ||| b.tag⟩

def tagged? : String → Option (Operator Tagged)
  | "add" => some (total fun a b => ⟨a.key + b.key, a.tag + b.tag⟩)
  | "max_left" => some (total fun a b => if a.key < b.key then b else a)
  | "max_right" => some (total fun a b => if b.key < a.key then a else b)
  | "segmented" => some (total segmented)
  | _ => none

def affine? : String → Option (Operator Affine)
  | "then" => some (total fun a b => ⟨a.factor * b.factor, a.offset * b.factor + b.offset⟩)
  | _ => none

def binary64? : String → Option (Operator Binary64)
  | "add" => some (total (Binary64.arith (· + ·)))
  | "sub" => some (total (Binary64.arith (· - ·)))
  | "mul" => some (total (Binary64.arith (· * ·)))
  | "max" => some (total fun a b => if a.lt b then b else a)
  | "min" => some (total fun a b => if b.lt a then b else a)
  | _ => none

def text? : String → Option (Operator String)
  | "concat" => some (total fun a b => a ++ b)
  | "rconcat" => some (total fun a b => b ++ a)
  | "paren" => some (total fun a b => s!"({a}{b})")
  | "left" => some (total fun a _ => a)
  | "right" => some (total fun _ b => b)
  | "min" => some (total fun a b => if b < a then b else a)
  | "max" => some (total fun a b => if a < b then b else a)
  | "longer" => some (total fun a b => if a.utf8ByteSize < b.utf8ByteSize then b else a)
  | _ => none

end Operator

/-! ## Comparators and keys -/

/-- A comparator that may refuse an answer with a message. -/
abbrev Comparator (α : Type) := α → α → Except String Ordering

/-- A sort by some key, for a number of threads. -/
abbrev KeySort (α : Type) := Count → Array α → Except (Failure String) (Report α (Array α))

/-- The sort by this key. -/
def KeySort.by {α κ : Type} [Ord κ] (key : α → κ) : KeySort α :=
  fun threads xs => sortByKey threads key xs

namespace Comparator

variable {α β : Type}

/-- Compares by a key. -/
def on [Ord β] (key : α → β) : Comparator α := fun a b => .ok (compare (key a) (key b))

/-- Compares by a key, the greater first. -/
def down [Ord β] (key : α → β) : Comparator α := fun a b => .ok (compare (key b) (key a))

/-- Always the same answer. -/
def always (o : Ordering) : Comparator α := fun _ _ => .ok o

/-- Each number is less than the one after it, counted modulo three. -/
def rockPaperScissors (a b : Int) : Ordering :=
  if (a - b) % 3 = 0 then .eq else if (a - b) % 3 = 1 then .gt else .lt

/-- Numbers at most `m` apart are equal. -/
def near (m : Int) (a b : Int) : Ordering := if (a - b).natAbs ≤ m then .eq else compare a b

/-- The comparators of numbers, for elements that have a number. -/
def number? (number : α → Int) (m : Int) : String → Option (Comparator α)
  | "asc" => some (on number)
  | "desc" => some (down number)
  | "abs" => some (on fun x => (number x).natAbs)
  | "parity" => some (on fun x => number x % 2)
  | "mod" => some (on fun x => number x % m)
  | "equal" => some (always .eq)
  | "less" => some (always .lt)
  | "greater" => some (always .gt)
  | "rps" => some fun a b => .ok (rockPaperScissors (number a) (number b))
  | "near" => some fun a b => .ok (near m (number a) (number b))
  | _ => none

def int64? : (m : Int) → String → Option (Comparator Int64) := number? (·.toInt)

def tagged? (m : Int) : String → Option (Comparator Tagged)
  | "full" => some fun a b => .ok (Element.order a b)
  | name => number? (·.key.toInt) m name

def binary64? : String → Option (Comparator Binary64)
  | "total" => some fun a b => .ok (a.totalOrder b)
  | "partial" => some fun a b => .ok ((a.order? b).getD .eq)
  | "strict" => some fun a b => match a.order? b with
    | some o => .ok o
    | none => .error "nan"
  | _ => none

/-- The letters of the alphabet in lower case; all else as it is. -/
def foldCase (s : String) : String := s.map Char.toLower

/-- The code of the last character; zero if there is none, and otherwise one more. -/
def lastCode (s : String) : Nat :=
  match s.toList.getLast? with
  | some c => c.toNat + 1
  | none => 0

def text? : String → Option (Comparator String)
  | "asc" => some (on id)
  | "desc" => some (down id)
  | "len" => some (on String.utf8ByteSize)
  | "chars" => some (on String.length)
  | "ci" => some (on foldCase)
  | "last" => some (on lastCode)
  | "equal" => some (always .eq)
  | _ => none

end Comparator

namespace KeySort

/-- The keys of numbers, for elements that have a number. -/
def number? {α : Type} (number : α → Int) (m : Int) : String → Option (KeySort α)
  | "asc" => some (KeySort.by number)
  | "desc" => some (KeySort.by fun x => -number x)
  | "abs" => some (KeySort.by fun x => (number x).natAbs)
  | "parity" => some (KeySort.by fun x => number x % 2)
  | "mod" => some (KeySort.by fun x => number x % m)
  | "equal" => some (KeySort.by fun _ => 0)
  | _ => none

def text? : String → Option (KeySort String)
  | "asc" => some (KeySort.by id)
  | "len" => some (KeySort.by String.utf8ByteSize)
  | "chars" => some (KeySort.by String.length)
  | "ci" => some (KeySort.by Comparator.foldCase)
  | "last" => some (KeySort.by Comparator.lastCode)
  | _ => none

end KeySort

/-! ## Functions that trip -/

/-- The calls at which a function trips: those with these operands, as far as given. -/
structure Trip (α : Type) where
  left : Option α
  right : Option α
  /-- One of the two operands. -/
  either : Option α

namespace Trip

variable {α β : Type} [BEq α]

/-- Whether an operand is the one that is wanted, if one is. -/
def fits (wanted : Option α) (x : α) : Bool := wanted.all (x == ·)

/-- Whether a call trips. -/
def holds (t : Trip α) (a b : α) : Bool :=
  fits t.left a && fits t.right b && (fits t.either a || fits t.either b)

/-- Fails with the message at the calls that trip, if any are to. -/
def guard (trip? : Option (Trip α)) (message : String) (f : α → α → Except String β) (a b : α) :
    Except String β :=
  if trip?.any (·.holds a b) then .error message else f a b

end Trip

end ForkJoin.Workload
