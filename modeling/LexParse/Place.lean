/-!
# Places in a sequence

A place is counted from the front, from zero on, or, when it is negative, from the back, where `-1`
is the last one. Only places of sixty-four bits are looked for.
-/

namespace LexParse

/-- Why a sequence has nothing at a place. -/
inductive PlaceFault where
  /-- The sequence does not reach that far. -/
  | beyond
  /-- The place has more than sixty-four bits. -/
  | tooLarge
deriving DecidableEq, Repr

/-- The wording of a fault; `sort` tells what sort of sequence it is. -/
def PlaceFault.message (sort : String) : PlaceFault → String
  | .beyond => sort ++ " index out of range"
  | .tooLarge => "cannot fit 'int' into an index-sized integer"

/-- The index of a place in a sequence of some length, if the sequence reaches that far. -/
def placeIndex? (length : Nat) (place : Int) : Option Nat :=
  if 0 ≤ place ∧ place < length then some place.toNat
  else if place < 0 ∧ 0 ≤ place + length then some (place + length).toNat
  else none

/-- Why a sequence that does not reach a place has nothing there. -/
def placeFault (place : Int) : PlaceFault :=
  if -0x8000000000000000 ≤ place ∧ place ≤ 0x7FFFFFFFFFFFFFFF then .beyond else .tooLarge

/-- The item at a place. -/
def itemAt {α : Type} (items : Array α) (place : Int) : Except PlaceFault α :=
  match (placeIndex? items.size place).bind (items[·]?) with
  | some item => .ok item
  | none => .error (placeFault place)

/-- The index of a place lies in the sequence. -/
theorem lt_of_placeIndex?_eq_some {length i : Nat} {place : Int}
    (h : placeIndex? length place = some i) : i < length := by
  unfold placeIndex? at h
  split at h
  · cases h
    omega
  · split at h
    · cases h
      omega
    · cases h

/-- A place that is an index stands for itself. -/
theorem placeIndex?_natCast {length i : Nat} (h : i < length) :
    placeIndex? length (i : Int) = some i := by
  simp [placeIndex?, h]

/-- At an index there is the item of that index. -/
theorem itemAt_natCast {α : Type} (items : Array α) {i : Nat} (h : i < items.size) :
    itemAt items (i : Int) = .ok items[i] := by
  simp [itemAt, placeIndex?_natCast h, h]

end LexParse
