import LexParse.CharSet

/-!
# Symbol classes

An alphabet of many symbols is divided into few classes, such that no character set of a given list
tells two symbols of a class apart. The classes are the columns of a scan table.

The sets can change their mind only at the ends of their intervals. So the alphabet is cut at these
ends into *segments*, each set is constant on a segment, and the class of a segment is read off its
first symbol: segments with the same *signature*, the list of the sets' answers, have one class.
Classes are numbered in the order in which segments show them.
-/

namespace LexParse

/-- Put a value into an increasing list, unless it is there. -/
def insertOnce (c : Int) : List Int → List Int
  | [] => [c]
  | d :: rest =>
    if c < d then c :: d :: rest else if c = d then d :: rest else d :: insertOnce c rest

/-- The classes of an alphabet's symbols. -/
structure SymbolClasses where
  /-- The number of symbols of the alphabet. -/
  size : Nat
  /-- The first values of the segments, increasing. -/
  starts : List Int
  /-- The class of each segment. -/
  classes : List Nat
  /-- The number of classes. -/
  count : Nat
deriving DecidableEq, Repr

namespace SymbolClasses

/-- The values below the alphabet's size where a set may change its mind. -/
def bounds (size : Nat) (s : CharSet) : List Int :=
  (s.intervals.flatMap fun i => [i.lo, i.hi + 1]).filter (· < size)

/-- The first values of the segments: zero and the bounds of all sets. -/
def segmentStarts (size : Nat) (sets : List CharSet) : List Int :=
  (sets.flatMap (bounds size)).foldr insertOnce [0]

/-- The answers of the sets for one value. -/
def signature (sets : List CharSet) (c : Int) : List Bool := sets.map (·.contains c)

/-- Divide an alphabet into the classes that some sets do not tell apart. -/
def ofSets (size : Nat) (sets : List CharSet) : SymbolClasses :=
  let sets := sets.eraseDups
  let starts := segmentStarts size sets
  let signatures := starts.map (signature sets)
  let distinct := signatures.eraseDups
  { size, starts, classes := signatures.map distinct.idxOf, count := distinct.length }

/-- The number of segments that start at or before a value. -/
def rank (k : SymbolClasses) (c : Int) : Nat := k.starts.countP (· ≤ c)

/-- The class of a symbol; a value outside the alphabet has none. -/
def classify (k : SymbolClasses) (c : Int) : Option Nat :=
  if 0 ≤ c ∧ c < k.size then k.classes[k.rank c - 1]? else none

/-- The classes of the segments that an interval touches. An interval that starts before the first
segment touches the last one too, as if the segments stood in a circle. -/
def touched (k : SymbolClasses) (i : Interval) : List Nat :=
  let first := k.rank i.lo
  let last := k.rank (min i.hi (k.size - 1))
  (if first = 0 then k.classes.getLast?.toList else []) ++ (k.classes.take last).drop (first - 1)

/-- The classes that make up a set, increasing. Intervals beyond the alphabet have no part in it. -/
def classesOf (k : SymbolClasses) (s : CharSet) : List Nat :=
  let found := (s.intervals.takeWhile fun i => i.lo < (k.size : Int)).flatMap k.touched
  (List.range k.count).filter found.contains

/-- The last values of the segments. -/
def ends (k : SymbolClasses) : List Int := k.starts.tail.map (· - 1) ++ [(k.size : Int) - 1]

/-- The symbols of a class. -/
def members (k : SymbolClasses) (cls : Nat) : CharSet :=
  CharSet.ofIntervals <|
    ((k.starts.zip (k.ends.zip k.classes)).filter (·.2.2 == cls)).map fun p => ⟨p.1, p.2.1⟩

end SymbolClasses

end LexParse
