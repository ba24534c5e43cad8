/-!
# Finite sets of numbers

A finite set of small numbers, kept as the number whose binary digits are its members. Equal sets
are equal numbers, so sets can be compared and used as keys. They hold the states of an automaton
and the terminals of a lookahead.
-/

namespace LexParse

/-- A finite set of numbers: `i` is a member when bit `i` is set. -/
@[ext] structure NatSet where
  /-- The members as binary digits. -/
  bits : Nat
deriving DecidableEq, Repr

namespace NatSet

instance : EmptyCollection NatSet := ⟨⟨0⟩⟩
instance : Inhabited NatSet := ⟨∅⟩
instance : Membership Nat NatSet := ⟨fun s i => s.bits.testBit i = true⟩

instance (i : Nat) (s : NatSet) : Decidable (i ∈ s) :=
  inferInstanceAs (Decidable (s.bits.testBit i = true))

/-- The set of one number. -/
def single (i : Nat) : NatSet := ⟨1 <<< i⟩

/-- The numbers in one set or the other. -/
def union (s t : NatSet) : NatSet := ⟨s.bits ||| t.bits⟩

instance : Union NatSet := ⟨union⟩

/-- Add a number to a set. -/
def insert (s : NatSet) (i : Nat) : NatSet := s ∪ single i

/-- Every member of the one set is a member of the other. -/
def subset (s t : NatSet) : Bool := s ∪ t = t

/-- Sets are hashed by their remainder modulo a large prime, to which all members contribute. -/
instance : Hashable NatSet := ⟨fun s => hash (s.bits % 9223372036854775783)⟩

/-- A number without its highest binary digit is smaller. -/
theorem sub_shiftLeft_log2_lt {bits : Nat} (h : bits ≠ 0) : bits - 1 <<< bits.log2 < bits := by
  have : 0 < 1 <<< bits.log2 := by
    rw [Nat.shiftLeft_eq]
    exact Nat.mul_pos Nat.one_pos (Nat.two_pow_pos _)
  omega

/-- The places of the binary digits of a number, increasing, in front of a list. -/
def placesOnto (bits : Nat) (behind : List Nat) : List Nat :=
  if h : bits = 0 then behind
  else
    have := sub_shiftLeft_log2_lt h
    placesOnto (bits - 1 <<< bits.log2) (bits.log2 :: behind)
termination_by bits

/-- The members, increasing. -/
def toList (s : NatSet) : List Nat := placesOnto s.bits []

theorem mem_def {i : Nat} {s : NatSet} : i ∈ s ↔ s.bits.testBit i = true := Iff.rfl

@[simp] theorem not_mem_empty (i : Nat) : ¬ i ∈ (∅ : NatSet) := by
  simp [mem_def, EmptyCollection.emptyCollection]

@[simp] theorem mem_union {i : Nat} {s t : NatSet} : i ∈ s ∪ t ↔ i ∈ s ∨ i ∈ t := by
  simp [mem_def, Union.union, union]

@[simp] theorem mem_single {i j : Nat} : i ∈ single j ↔ i = j := by
  simp only [mem_def, single, Nat.testBit_shiftLeft, Bool.and_eq_true, decide_eq_true_eq]
  constructor
  · rintro ⟨hle, h⟩
    have := Nat.testBit_one_eq_true_iff_self_eq_zero.1 h
    omega
  · rintro rfl
    simp

@[simp] theorem mem_insert {i j : Nat} {s : NatSet} : i ∈ s.insert j ↔ i ∈ s ∨ i = j := by
  simp [insert]

/-- Sets with the same members are equal. -/
theorem ext_mem {s t : NatSet} (h : ∀ i, i ∈ s ↔ i ∈ t) : s = t := by
  apply NatSet.ext
  apply Nat.eq_of_testBit_eq
  intro i
  exact Bool.eq_iff_iff.2 (h i)

theorem subset_iff {s t : NatSet} : s.subset t = true ↔ ∀ i, i ∈ s → i ∈ t := by
  simp only [subset, decide_eq_true_eq]
  constructor
  · intro h i hi
    rw [← h]
    exact mem_union.2 (.inl hi)
  · intro h
    apply ext_mem
    intro i
    simp only [mem_union]
    exact ⟨fun hi => hi.elim (h i) id, .inr⟩

/-- A number without its highest binary digit has all the others. -/
theorem testBit_sub_shiftLeft_log2 {bits : Nat} (h : bits ≠ 0) (i : Nat) :
    bits.testBit i = true ↔ i = bits.log2 ∨ (bits - 1 <<< bits.log2).testBit i = true := by
  have hle : 2 ^ bits.log2 ≤ bits := Nat.log2_self_le h
  have hlt : bits < 2 ^ (bits.log2 + 1) := Nat.lt_log2_self
  rw [Nat.pow_succ] at hlt
  have hrest : bits - 1 <<< bits.log2 = bits % 2 ^ bits.log2 := by
    rw [Nat.shiftLeft_eq, Nat.one_mul, Nat.mod_eq_sub_mod hle, Nat.mod_eq_of_lt (by omega)]
  have hdiv : bits / 2 ^ bits.log2 = 1 :=
    Nat.div_eq_of_lt_le (by omega) (by omega)
  rw [hrest, Nat.testBit_mod_two_pow, Bool.and_eq_true, decide_eq_true_eq]
  rcases Nat.lt_trichotomy i bits.log2 with hi | hi | hi
  · simp [hi, Nat.ne_of_lt hi]
  · subst hi
    simp [Nat.testBit_eq_decide_div_mod_eq, hdiv]
  · -- above the highest digit there is none
    have hnone : bits.testBit i = false :=
      Nat.testBit_lt_two_pow (Nat.lt_of_lt_of_le Nat.lt_log2_self
        (Nat.pow_le_pow_right (by omega) (by omega)))
    simp [hnone, Nat.ne_of_gt hi]

theorem mem_placesOnto {bits i : Nat} {behind : List Nat} :
    i ∈ placesOnto bits behind ↔ bits.testBit i = true ∨ i ∈ behind := by
  fun_induction placesOnto bits behind with
  | case1 behind => simp
  | case2 bits behind h hlt ih =>
    rw [ih, testBit_sub_shiftLeft_log2 h, List.mem_cons]
    constructor
    · rintro (hb | hi | hm)
      · exact .inl (.inr hb)
      · exact .inl (.inl hi)
      · exact .inr hm
    · rintro ((hi | hb) | hm)
      · exact .inr (.inl hi)
      · exact .inl hb
      · exact .inr (.inr hm)

@[simp] theorem mem_toList {i : Nat} {s : NatSet} : i ∈ s.toList ↔ i ∈ s := by
  simp [toList, mem_placesOnto, mem_def]

theorem pairwise_placesOnto {bits : Nat} {behind : List Nat} (h : behind.Pairwise (· < ·))
    (hlt : ∀ i ∈ behind, bits < 1 <<< i) : (placesOnto bits behind).Pairwise (· < ·) := by
  fun_induction placesOnto bits behind with
  | case1 behind => exact h
  | case2 bits behind hne hrest ih =>
    have hhigh : bits < 2 ^ (bits.log2 + 1) := Nat.lt_log2_self
    refine ih (List.pairwise_cons.2 ⟨fun i hi => (Nat.log2_lt hne).2 ?_, h⟩) fun i hi => ?_
    · rw [← Nat.one_shiftLeft]
      exact hlt i hi
    · rcases List.mem_cons.1 hi with rfl | hi
      · rw [Nat.pow_succ] at hhigh
        rw [Nat.one_shiftLeft]
        omega
      · exact Nat.lt_trans hrest (hlt i hi)

/-- The members are listed once. -/
theorem nodup_toList (s : NatSet) : s.toList.Nodup :=
  (pairwise_placesOnto List.Pairwise.nil (by simp)).imp Nat.ne_of_lt

end NatSet

end LexParse
