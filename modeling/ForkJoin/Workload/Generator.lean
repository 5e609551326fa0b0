/-!
# Elements, and arrays of them

The kernels work on elements of any type. The workloads that exercise them use five: numbers of 64
bits, numbers tagged so that equal ones can be told apart, pairs that stand for affine maps,
floating point numbers and text. An element has a written form, which identifies it, and a natural
order; and of every number there is a sample element.

A floating point number is kept as its 64 bits, since two numbers may be told apart that no
arithmetic tells apart: the zeros, and the many patterns that are not a number. Comparison is exact
on the bits: without the sign they grow with the magnitude.

Large arrays are described by a rule for their numbers: a linear congruential generator, a ramp
that may start over again and again, or an organ pipe that rises to the middle and falls.
-/
namespace ForkJoin.Workload

/-! ## Kinds of elements -/

/-- What a workload needs to know of its elements. -/
class Element (α : Type) extends BEq α where
  /-- The written form. -/
  text : α → String
  /-- The natural order. -/
  order : α → α → Ordering
  /-- The element made from the `i`-th number of a sequence. -/
  sample : (x : Int) → (i : Nat) → α

/-- Compares by a key first, and by another where those are equal. -/
def orderThen {α β γ : Type} [Ord β] [Ord γ] (first : α → β) (second : α → γ) (a b : α) :
    Ordering :=
  (compare (first a) (first b)).then (compare (second a) (second b))

instance : Element Int64 where
  text x := toString x.toInt
  order a b := compare a.toInt b.toInt
  sample x _ := Int64.ofInt x

/-- A number with a tag. -/
structure Tagged where
  key : Int64
  tag : Int64
  deriving BEq

instance : Element Tagged where
  text x := s!"{x.key.toInt}:{x.tag.toInt}"
  order := orderThen (·.key.toInt) (·.tag.toInt)
  sample x i := ⟨Int64.ofInt x, Int64.ofNat i⟩

/-- The map `x ↦ factor * x + offset` on numbers modulo 2⁶⁴. -/
structure Affine where
  factor : UInt64
  offset : UInt64
  deriving BEq

instance : Element Affine where
  text x := s!"{x.factor.toNat}:{x.offset.toNat}"
  order := orderThen (·.factor.toNat) (·.offset.toNat)
  sample x i := ⟨(Int64.ofInt x).toUInt64, UInt64.ofNat i⟩

instance : Element String where
  text x := x
  order := compare
  sample x _ := toString x

/-! ## Words in hexadecimal -/

namespace Hex

/-- The digits of a number in base 16, at least `width` of them, in front of `tail`. -/
def digits : (width : Nat) → Nat → List Char → List Char
  | 0, _, tail => tail
  | width + 1, n, tail => digits width (n / 16) (Nat.digitChar (n % 16) :: tail)

/-- A word in sixteen digits. -/
def encode (x : UInt64) : String := String.ofList (digits 16 x.toNat [])

def digitValue? (c : Char) : Option Nat :=
  if '0' ≤ c ∧ c ≤ '9' then some (c.toNat - '0'.toNat)
  else if 'a' ≤ c ∧ c ≤ 'f' then some (c.toNat - 'a'.toNat + 10)
  else none

/-- Reads a word of exactly sixteen digits. -/
def decode? (s : String) : Option UInt64 := do
  guard (s.length = 16)
  let n ← s.toList.foldlM (fun n c => return 16 * n + (← digitValue? c)) 0
  return UInt64.ofNat n

end Hex

/-! ## Floating point numbers by their bits -/

/-- A binary64 number. -/
structure Binary64 where
  bits : UInt64
  deriving BEq

namespace Binary64

def negative (x : Binary64) : Bool := x.bits >>> 63 = 1

/-- The bits without the sign. -/
def magnitude (x : Binary64) : Nat := (x.bits &&& 0x7fffffffffffffff).toNat

/-- Larger than infinity. -/
def isNaN (x : Binary64) : Bool := 0x7ff0000000000000 < x.magnitude

/-- Where a number stands among all numbers; both zeros stand at the same place. -/
def rank (x : Binary64) : Int := if x.negative then -x.magnitude else x.magnitude

/-- Where a pattern stands in the total order, in which minus zero comes right before zero and
what is not a number comes at either end. -/
def totalRank (x : Binary64) : Int := if x.negative then -x.magnitude - 1 else x.magnitude

/-- The order of all patterns. -/
def totalOrder (a b : Binary64) : Ordering := compare a.totalRank b.totalRank

/-- The order of numbers; none if either is not one. -/
def order? (a b : Binary64) : Option Ordering :=
  if a.isNaN || b.isNaN then none else some (compare a.rank b.rank)

def lt (a b : Binary64) : Bool := order? a b == some .lt

/-- The quiet pattern of an operand that is not a number. -/
def quiet (x : Binary64) : Binary64 := ⟨x.bits ||| 0x0008000000000000⟩

/-- The pattern of an operation without a value. -/
def invalid : Binary64 := ⟨0xfff8000000000000⟩

/-- An operation on numbers: the first operand that is not a number is the result, made quiet. -/
def arith (op : Float → Float → Float) (a b : Binary64) : Binary64 :=
  if a.isNaN then a.quiet
  else if b.isNaN then b.quiet
  else
    let r := op (Float.ofBits a.bits) (Float.ofBits b.bits)
    if r.isNaN then invalid else ⟨r.toBits⟩

def text (x : Binary64) : String := if x.isNaN then "nan" else Hex.encode x.bits

/-- A tenth of a number. -/
def tenth (x : Int) : Binary64 := ⟨((Int64.ofInt x).toFloat / 10.0).toBits⟩

end Binary64

instance : Element Binary64 where
  text := Binary64.text
  order := Binary64.totalOrder
  sample x _ := Binary64.tenth x

/-! ## Generated arrays -/

inductive Generator where
  /-- Pseudo-random numbers from `add` to below `add + modulus`. -/
  | lcg (seed : UInt64) (modulus : Nat) (add : Int)
  /-- From `start` in steps, reduced by the modulus if there is one. -/
  | ramp (start step : Int) (modulus : Nat)
  | organ

namespace Generator

def nextState (state : UInt64) : UInt64 := state * 6364136223846793005 + 1442695040888963407

/-- The numbers that follow a state of the congruential generator. -/
def lcgFrom (modulus : Nat) (add : Int) : Nat → UInt64 → List Int
  | 0, _ => []
  | n + 1, state =>
    let next := nextState state
    (((next >>> 33).toNat % modulus : Nat) + add) :: lcgFrom modulus add n next

/-- The first `len` numbers. -/
def numbers (len : Nat) : Generator → List Int
  | lcg seed modulus add => lcgFrom modulus add len seed
  | ramp start step modulus => (List.range len).map fun i : Nat =>
    let x := start + step * i
    if 0 < modulus then x % (modulus : Int) else x
  | organ => (List.range len).map fun i : Nat => ((min i (len - 1 - i) : Nat) : Int)

/-- The array of sample elements. -/
def elements {α : Type} [Element α] (g : Generator) (len : Nat) : Array α :=
  ((g.numbers len).zipIdx.map fun (x, i) => Element.sample x i).toArray

end Generator

end ForkJoin.Workload
