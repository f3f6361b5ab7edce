/-! Integer ranges, with or without their end. A range can cover more numbers than fit in memory, so
it is never listed as a whole: its length and its members are computed. -/

namespace AutoLang

structure IntRange where
  start : Int32
  stop : Int32
  inclusive : Bool
deriving DecidableEq, Repr, Inhabited

namespace IntRange

/-- how many integers the range covers -/
def count (r : IntRange) : Nat :=
  let gap := r.stop.toInt - r.start.toInt
  (if r.inclusive then gap + 1 else gap).toNat

/-- the integer at a position, for positions below `count` -/
def get (r : IntRange) (i : Nat) : Int32 := Int32.ofInt (r.start.toInt + i)

def isEmpty (r : IntRange) : Bool := r.count == 0

/-- the first `n` members in order -/
def first (r : IntRange) (n : Nat) : List Int32 := (List.range (min n r.count)).map r.get

/-- the last `n` members, from the end backwards -/
def last (r : IntRange) (n : Nat) : List Int32 :=
  (List.range (min n r.count)).map fun i => r.get (r.count - 1 - i)

def shown (r : IntRange) : String :=
  toString r.start.toInt ++ (if r.inclusive then "..=" else "..") ++ toString r.stop.toInt

end IntRange

end AutoLang
