import LexParse.Proofs.Lr.Comparison
import Mathlib.Logic.Equiv.Basic

/-!
# Ties

Two candidates for a cell *tie* if nothing decides between them: a reduction with the shift or the
acceptance, or with another reduction that the shift is not kept against. But the candidates are not
compared two by two. Each reduction is compared with what has been chosen so far, so a tie between
two of them goes unnoticed where a third one that beats both has been chosen before.

A tie is *open* if there is no such third candidate. An open tie is noticed in whatever order the
reductions are considered, and where there is no tie at all there is none to be noticed. Between the
two it depends on the order: a tie that is not open is noticed where weaker reductions come first,
and none is where stronger ones do.

This is said here of one cell, by its best candidate among the reductions before a given one.

## What is proved

* `Cell.Best.tied`, `Cell.Best.not_openlyTied`: the two directions for any order.
* `Cell.Tied.exists_undecided`, `Cell.Best.openlyTied`: what the two orders make of the ties that
  are not open.
-/

namespace LexParse

/-- The place of an associativity among those of one level. -/
def Assoc.place : Assoc → Nat
  | .left => 0
  | .nonassoc => 1
  | .right => 2

/-- The place of a precedence among all: by level, and of one level those that group to the left
before those that do not group, and these before those that group to the right. -/
def Precedence.rank (x : Precedence) : Nat := 3 * x.level + x.assoc.place

theorem Assoc.place_le (a : Assoc) : a.place ≤ 2 := by
  cases a <;> decide

theorem Precedence.level_le_of_rank_le {x y : Precedence} (h : x.rank ≤ y.rank) :
    x.level ≤ y.level := by
  have := y.assoc.place_le
  unfold rank at h
  omega

theorem Precedence.rank_lt_of_level_lt {x y : Precedence} (h : x.level < y.level) :
    x.rank < y.rank := by
  have := x.assoc.place_le
  unfold rank
  omega

namespace Lr

section
variable {old new : Option Precedence}

theorem judgeReductions_eq_keep_iff :
    judgeReductions old new = .keep ↔ judgeReductions new old = .replace := by
  rw [judgeReductions_eq_replace_iff]
  rcases old with _ | x
  · simp [judgeReductions]
  · rcases new with _ | y
    · simp [judgeReductions]
    · rw [judgeReductions]
      rcases lt_trichotomy x.level y.level with h | h | h
      · simp [h, h.le]
      · simp [h]
      · simp [h, h.not_gt]

/-- Reductions tie whichever of them comes first. -/
theorem judgeReductions_eq_conflict_iff {kind : ConflictKind} :
    judgeReductions old new = .conflict kind ↔ kind = .reduceReduce ∧
      ∀ x y, old = some x → new = some y → x.level = y.level := by
  rcases old with _ | x
  · simp [judgeReductions, eq_comm]
  · rcases new with _ | y
    · simp [judgeReductions, eq_comm]
    · rw [judgeReductions]
      rcases lt_trichotomy x.level y.level with h | h | h
      · simp [h, h.ne]
      · simp [h, eq_comm]
      · simp [h, h.not_gt, h.ne']

theorem judgeReductions_eq_conflict {x y : Precedence} (hx : old = some x) (hy : new = some y)
    (h : x.level = y.level) : judgeReductions old new = .conflict .reduceReduce := by
  subst hx hy
  simp [judgeReductions, h]

theorem judgeShift_eq_conflict_iff {x y : Precedence} :
    (∃ kind, judgeShift (some x) (some y) = .conflict kind) ↔
      x.level = y.level ∧ y.assoc = .nonassoc := by
  rw [judgeShift]
  rcases lt_trichotomy x.level y.level with h | h | h
  · simp [h, h.ne]
  · cases y.assoc <;> simp [h]
  · simp [h, h.not_gt, h.ne']

end

/-- Later productions have precedences of higher ranks. -/
def Rising (precedence : Nat → Option Precedence) : Prop :=
  ∀ ⦃p q x y⦄, p < q → precedence p = some x → precedence q = some y → x.rank ≤ y.rank

/-- Later productions have precedences of lower ranks. -/
def Falling (precedence : Nat → Option Precedence) : Prop :=
  ∀ ⦃p q x y⦄, p < q → precedence p = some x → precedence q = some y → y.rank ≤ x.rank

/-- The candidates for a cell of a table. -/
@[ext]
structure Cell where
  /-- A shift or the acceptance is a candidate. -/
  held : Prop
  /-- The precedence of the terminal. -/
  terminal : Option Precedence
  /-- The reductions that are candidates, by their productions. -/
  reduces : Nat → Prop
  /-- The precedences of productions. -/
  precedence : Nat → Option Precedence

namespace Cell

variable (c : Cell) (p q : Nat)

/-- How a reduction compares with the shift. -/
def judge : Verdict := judgeShift c.terminal (c.precedence p)

/-- A reduction is a candidate that the shift is not kept against. -/
def Contends : Prop := c.reduces p ∧ (c.held → c.judge p ≠ .keep)

/-- A reduction is a candidate that replaces the shift. -/
def Prevails : Prop := c.reduces p ∧ (c.held → c.judge p = .replace)

/-- A reduction beats another one. -/
def Beats : Prop := judgeReductions (c.precedence q) (c.precedence p) = .replace

/-- A reduction ties with the shift. -/
structure TiesShift : Prop where
  held : c.held
  reduces : c.reduces p
  undecided : ∃ kind, c.judge p = .conflict kind

/-- A reduction that the shift is not kept against ties with another one. -/
structure Ties : Prop where
  ne : p ≠ q
  contends : c.Contends p
  reduces : c.reduces q
  undecided : ∃ kind, judgeReductions (c.precedence p) (c.precedence q) = .conflict kind

/-- Two candidates tie. -/
def Tied : Prop := (∃ p, c.TiesShift p) ∨ ∃ p q, c.Ties p q

/-- Two candidates tie, and no third one beats both. -/
def OpenlyTied : Prop :=
  (∃ p, c.TiesShift p ∧ ∀ r, c.Prevails r → ¬ c.Beats r p) ∨
    ∃ p q, c.Ties p q ∧ c.Contends q ∧ ∀ r, c.Prevails r → ¬ (c.Beats r p ∧ c.Beats r q)

variable {c p q} {S : Nat → Prop} {x : Option Nat}

theorem OpenlyTied.tied (h : c.OpenlyTied) : c.Tied := by
  rcases h with ⟨p, hp, -⟩ | ⟨p, q, hpq, -⟩
  · exact .inl ⟨p, hp⟩
  · exact .inr ⟨p, q, hpq⟩

theorem Tied.exists_reduces (h : c.Tied) : ∃ p, c.reduces p := by
  rcases h with ⟨p, hp⟩ | ⟨p, q, hpq⟩
  · exact ⟨p, hp.reduces⟩
  · exact ⟨q, hpq.reduces⟩

theorem beats_iff : c.Beats p q ↔
    ∃ x y, c.precedence p = some x ∧ c.precedence q = some y ∧ y.level < x.level := by
  rw [Beats, judgeReductions_eq_replace_iff]
  exact ⟨fun ⟨y, x, hy, hx, h⟩ => ⟨x, y, hx, hy, h⟩, fun ⟨x, y, hx, hy, h⟩ => ⟨y, x, hy, hx, h⟩⟩

theorem judge_eq_keep_iff : c.judge p = .keep ↔ ∃ x y, c.terminal = some x ∧
    c.precedence p = some y ∧ (y.level < x.level ∨ y.level = x.level ∧ y.assoc = .right) := by
  unfold judge
  cases c.terminal with
  | none => simp [judgeShift]
  | some x =>
    cases c.precedence p with
    | none => simp [judgeShift]
    | some y => simp [judgeShift_eq_keep_iff]

theorem judge_eq_replace_iff : c.judge p = .replace ↔ ∃ x y, c.terminal = some x ∧
    c.precedence p = some y ∧ (x.level < y.level ∨ x.level = y.level ∧ y.assoc = .left) := by
  unfold judge
  cases c.terminal with
  | none => simp [judgeShift]
  | some x =>
    cases c.precedence p with
    | none => simp [judgeShift]
    | some y => simp [judgeShift_eq_replace_iff]

theorem Beats.trans {r : Nat} (h : c.Beats p q) (h' : c.Beats q r) : c.Beats p r := by
  obtain ⟨x, y, hx, hy, hlt⟩ := beats_iff.1 h
  obtain ⟨y', z, hy', hz, hlt'⟩ := beats_iff.1 h'
  obtain rfl : y = y' := Option.some.inj (hy.symm.trans hy')
  exact beats_iff.2 ⟨x, z, hx, hz, by omega⟩

theorem Beats.asymm (h : c.Beats p q) : ¬ c.Beats q p := by
  intro h'
  obtain ⟨x, y, hx, hy, hlt⟩ := beats_iff.1 (h.trans h')
  obtain rfl : x = y := Option.some.inj (hx.symm.trans hy)
  exact Nat.lt_irrefl _ hlt

/-! ### Other numbers for productions -/

/-- The same candidates with other numbers for their productions. -/
def relabel (c : Cell) (π : Equiv.Perm Nat) : Cell where
  held := c.held
  terminal := c.terminal
  reduces p := c.reduces (π p)
  precedence p := c.precedence (π p)

section
variable (π : Equiv.Perm Nat)

theorem tiesShift_relabel_iff : (c.relabel π).TiesShift p ↔ c.TiesShift (π p) :=
  ⟨fun h => ⟨h.held, h.reduces, h.undecided⟩, fun h => ⟨h.held, h.reduces, h.undecided⟩⟩

theorem ties_relabel_iff : (c.relabel π).Ties p q ↔ c.Ties (π p) (π q) :=
  ⟨fun h => ⟨π.injective.ne h.ne, h.contends, h.reduces, h.undecided⟩,
    fun h => ⟨fun heq => h.ne (congrArg π heq), h.contends, h.reduces, h.undecided⟩⟩

/-- Ties have nothing to do with numbers. -/
theorem tied_relabel_iff : (c.relabel π).Tied ↔ c.Tied := by
  refine or_congr (π.exists_congr fun p => tiesShift_relabel_iff π) ?_
  exact π.exists_congr fun p => π.exists_congr fun q => ties_relabel_iff π

theorem openlyTied_relabel_iff : (c.relabel π).OpenlyTied ↔ c.OpenlyTied := by
  refine or_congr ?_ ?_
  · refine π.exists_congr fun p => and_congr (tiesShift_relabel_iff π) ?_
    exact π.forall_congr fun r => Iff.rfl
  · refine π.exists_congr fun p => π.exists_congr fun q => and_congr (ties_relabel_iff π) ?_
    exact and_congr Iff.rfl (π.forall_congr fun r => Iff.rfl)

end

/-! ### The best of some candidates -/

/-- The best of the shift and some reductions: the shift if it is kept against all of them, or a
reduction that replaces it and beats all others but for those that the shift is kept against. -/
def Best (c : Cell) (S : Nat → Prop) : Option Nat → Prop
  | none => ∀ p, S p → c.held ∧ c.judge p = .keep
  | some p => S p ∧ (c.held → c.judge p = .replace) ∧
    ∀ q, S q → q ≠ p → c.held ∧ c.judge q = .keep ∨ c.Beats p q

/-- Nothing decides between a reduction and what has been chosen. -/
def Undecided (c : Cell) : Option Nat → Nat → Prop
  | none, p => c.held ∧ ∃ kind, c.judge p = .conflict kind
  | some q, p => ∃ kind, judgeReductions (c.precedence q) (c.precedence p) = .conflict kind

theorem Best.congr {S' : Nat → Prop} (h : c.Best S x) (hS : ∀ p, S p ↔ S' p) : c.Best S' x := by
  obtain rfl : S = S' := funext fun p => propext (hS p)
  exact h

theorem Best.contends (h : c.Best S (some p)) (hp : c.reduces p) : c.Contends p :=
  ⟨hp, fun hheld hkeep => by cases (h.2.1 hheld).symm.trans hkeep⟩

/-- A reduction that the shift is not kept against is the best one, or is beaten by it. -/
theorem Best.eq_or_beats (h : c.Best S x) (hq : c.Contends q) (hS : S q) :
    ∃ p, x = some p ∧ S p ∧ (q = p ∨ c.Beats p q) := by
  have hnot : ¬ (c.held ∧ c.judge q = .keep) := fun ⟨hheld, hkeep⟩ => hq.2 hheld hkeep
  cases x with
  | none => exact absurd (h q hS) hnot
  | some p =>
    refine ⟨p, rfl, h.1, ?_⟩
    by_cases heq : q = p
    · exact .inl heq
    · exact .inr ((h.2.2 q hS heq).resolve_left hnot)

/-- A reduction that nothing decides for or against ties. -/
theorem Best.tied (h : c.Best (fun q => c.reduces q ∧ q < p) x) (hp : c.reduces p)
    (hundecided : c.Undecided x p) : c.Tied := by
  cases x with
  | none => exact .inl ⟨p, hundecided.1, hp, hundecided.2⟩
  | some q =>
    obtain ⟨hq, hlt⟩ := h.1
    exact .inr ⟨q, p, hlt.ne, h.contends hq, hp, hundecided⟩

/-- There is no best candidate where two tie and no third one beats both. -/
theorem Best.not_openlyTied (h : c.Best c.reduces x) : ¬ c.OpenlyTied := by
  rintro (⟨p, ⟨hheld, hp, kind, hkind⟩, hopen⟩ | ⟨p, q, ⟨hne, hp, -, kind, hkind⟩, hq, hopen⟩)
  · have hcontends : c.Contends p := ⟨hp, fun _ hkeep => by cases hkeep.symm.trans hkind⟩
    obtain ⟨k, rfl, hk, rfl | hbeats⟩ := h.eq_or_beats hcontends hp
    · cases hkind.symm.trans (h.2.1 hheld)
    · exact hopen k ⟨hk, h.2.1⟩ hbeats
  · obtain ⟨k, rfl, hk, hpk⟩ := h.eq_or_beats hp hp.1
    obtain ⟨k', heq, -, hqk⟩ := h.eq_or_beats hq hq.1
    obtain rfl := Option.some.inj heq
    have hlevel := (judgeReductions_eq_conflict_iff.1 hkind).2
    rcases hpk with rfl | hpk
    · obtain ⟨x, y, hx, hy, hlt⟩ := beats_iff.1 (hqk.resolve_left hne.symm)
      exact hlt.ne' (hlevel x y hx hy)
    · rcases hqk with rfl | hqk
      · obtain ⟨y, x, hy, hx, hlt⟩ := beats_iff.1 hpk
        exact hlt.ne (hlevel x y hx hy)
      · exact hopen k ⟨hk, h.2.1⟩ ⟨hpk, hqk⟩

/-! ### Orders that show ties, and orders that hide them -/

/-- A reduction that the shift is kept against has a higher rank than one of its level that replaces
the shift. -/
theorem rank_lt_of_judge (hp : c.judge p = .replace) (hq : c.judge q = .keep)
    (hlevel : ∀ y z, c.precedence p = some y → c.precedence q = some z → y.level = z.level) :
    ∃ y z, c.precedence p = some y ∧ c.precedence q = some z ∧ y.rank < z.rank := by
  obtain ⟨x, y, hx, hy, hreplace⟩ := judge_eq_replace_iff.1 hp
  obtain ⟨x', z, hx', hz, hkeep⟩ := judge_eq_keep_iff.1 hq
  obtain rfl := Option.some.inj (hx'.symm.trans hx)
  have heq := hlevel y z hy hz
  obtain ⟨-, hleft⟩ := hreplace.resolve_left (by omega)
  obtain ⟨-, hright⟩ := hkeep.resolve_left (by omega)
  refine ⟨y, z, hy, hz, ?_⟩
  simp only [Precedence.rank, hleft, hright, heq, Assoc.place]
  omega

/-- What is beaten and ties with the shift has the level of the terminal. -/
theorem TiesShift.level_eq (h : c.TiesShift p) {r : Nat} (hr : c.Prevails r)
    (hbeats : c.Beats r p) : ∃ x y, c.terminal = some x ∧ c.precedence p = some y ∧
      x.level = y.level := by
  obtain ⟨z, y, hz, hy, -⟩ := beats_iff.1 hbeats
  obtain ⟨x, _, hx, -, -⟩ := judge_eq_replace_iff.1 (hr.2 h.held)
  have hconflict := h.undecided
  rw [judge, hx, hy] at hconflict
  exact ⟨x, y, hx, hy, (judgeShift_eq_conflict_iff.1 hconflict).1⟩

/-- Where the ranks rise a reduction that ties with the shift, though not openly, is noticed: if the
shift has been replaced, then by a reduction of its level. -/
theorem TiesShift.undecided_of_rising (h : c.TiesShift p) (hopen : ¬ c.OpenlyTied)
    (hrising : Rising c.precedence) (hbest : c.Best (fun q => c.reduces q ∧ q < p) x) :
    c.Undecided x p := by
  obtain ⟨r, hr, hbeats⟩ : ∃ r, c.Prevails r ∧ c.Beats r p := by
    by_contra hnot
    exact hopen (.inl ⟨p, h, fun r hr hbeats => hnot ⟨r, hr, hbeats⟩⟩)
  obtain ⟨x', y, hx, hy, hlevel⟩ := h.level_eq hr hbeats
  cases x with
  | none => exact ⟨h.held, h.undecided⟩
  | some k =>
    obtain ⟨⟨-, hlt⟩, hreplace, -⟩ := hbest
    obtain ⟨x'', z, hx', hz, hreplace⟩ := judge_eq_replace_iff.1 (hreplace h.held)
    obtain rfl := Option.some.inj (hx'.symm.trans hx)
    -- it has replaced the shift, so its level is not lower, and by its rank not higher
    have := Precedence.level_le_of_rank_le (hrising hlt hz hy)
    exact ⟨.reduceReduce, judgeReductions_eq_conflict hz hy (by omega)⟩

/-- Where the ranks rise the former of two reductions of one level has been chosen when the latter
is considered, unless the shift is kept against it. -/
theorem Best.undecided_of_rising (hrising : Rising c.precedence)
    (h : c.Best (fun k => c.reduces k ∧ k < q) x) (hp : c.Contends p) (hlt : p < q)
    {y z : Precedence} (hy : c.precedence p = some y) (hz : c.precedence q = some z)
    (hlevel : y.level = z.level) : c.Undecided x q := by
  obtain ⟨k, rfl, ⟨-, hk⟩, rfl | hbeats⟩ := h.eq_or_beats hp ⟨hp.1, hlt⟩
  · exact ⟨.reduceReduce, judgeReductions_eq_conflict hy hz hlevel⟩
  · -- what beats it has a higher level, and comes later
    obtain ⟨x, y', hx, hy', hlt⟩ := beats_iff.1 hbeats
    obtain rfl := Option.some.inj (hy'.symm.trans hy)
    have := Precedence.level_le_of_rank_le (hrising hk hx hz)
    omega

/-- Two reductions that tie, though not openly, have one level. If the shift is kept against one of
them that one has the higher rank. -/
theorem Ties.precedence_eq (h : c.Ties p q) (hopen : ¬ c.OpenlyTied)
    (hshift : ∀ p, ¬ c.TiesShift p) : ∃ y z, c.precedence p = some y ∧ c.precedence q = some z ∧
      y.level = z.level ∧ (c.Contends q ∨ y.rank < z.rank) := by
  obtain ⟨kind, hkind⟩ := h.undecided
  have hlevel := (judgeReductions_eq_conflict_iff.1 hkind).2
  by_cases hq : c.Contends q
  · obtain ⟨r, hp, hq'⟩ : ∃ r, c.Beats r p ∧ c.Beats r q := by
      by_contra hnot
      exact hopen (.inr ⟨p, q, h, hq, fun r _ hbeats => hnot ⟨r, hbeats⟩⟩)
    obtain ⟨_, y, -, hy, -⟩ := beats_iff.1 hp
    obtain ⟨_, z, -, hz, -⟩ := beats_iff.1 hq'
    exact ⟨y, z, hy, hz, hlevel y z hy hz, .inl hq⟩
  · obtain ⟨hheld, hkeep⟩ : c.held ∧ c.judge q = .keep := by
      by_contra hnot
      exact hq ⟨h.reduces, fun hheld hkeep => hnot ⟨hheld, hkeep⟩⟩
    have hreplace : c.judge p = .replace := by
      cases hjudge : c.judge p with
      | keep => exact absurd hjudge (h.contends.2 hheld)
      | replace => rfl
      | conflict kind => exact absurd ⟨hheld, h.contends.1, kind, hjudge⟩ (hshift p)
    obtain ⟨y, z, hy, hz, hrank⟩ := rank_lt_of_judge hreplace hkeep hlevel
    exact ⟨y, z, hy, hz, hlevel y z hy hz, .inr hrank⟩

/-- **Where the ranks rise a tie does not go unnoticed.** -/
theorem Tied.exists_undecided (htied : c.Tied) (hrising : Rising c.precedence)
    (hbest : ∃ x, c.Best c.reduces x)
    (hbefore : ∀ p, c.reduces p → ∃ x, c.Best (fun q => c.reduces q ∧ q < p) x ∧
      ¬ c.Undecided x p) : False := by
  have hopen : ¬ c.OpenlyTied := hbest.elim fun x hx => hx.not_openlyTied
  have hshift : ∀ p, ¬ c.TiesShift p := by
    intro p h
    obtain ⟨k, hk, hdecided⟩ := hbefore p h.reduces
    exact hdecided (h.undecided_of_rising hopen hrising hk)
  rcases htied with ⟨p, h⟩ | ⟨p, q, h⟩
  · exact hshift p h
  · obtain ⟨y, z, hy, hz, hlevel, hor⟩ := h.precedence_eq hopen hshift
    have hformer : p < q → False := by
      intro hlt
      obtain ⟨x, hx, hdecided⟩ := hbefore q h.reduces
      exact hdecided (hx.undecided_of_rising hrising h.contends hlt hy hz hlevel)
    rcases Nat.lt_or_gt_of_ne h.ne with hlt | hlt
    · exact hformer hlt
    · rcases hor with hq | hrank
      · obtain ⟨x, hx, hdecided⟩ := hbefore p h.contends.1
        exact hdecided (hx.undecided_of_rising hrising hq hlt hz hy hlevel.symm)
      · have := hrising hlt hz hy
        omega

/-- **Where the ranks fall only open ties are noticed.** -/
theorem Best.openlyTied (hfalling : Falling c.precedence)
    (h : c.Best (fun q => c.reduces q ∧ q < p) x) (hp : c.reduces p)
    (hundecided : c.Undecided x p) : c.OpenlyTied := by
  -- what beats the reduction comes before it
  have hbefore : ∀ r, c.Prevails r → c.Beats r p → c.reduces r ∧ r < p := by
    intro r hr hbeats
    obtain ⟨z, y, hz, hy, hlt⟩ := beats_iff.1 hbeats
    refine ⟨hr.1, ?_⟩
    rcases Nat.lt_trichotomy r p with hrp | rfl | hrp
    · exact hrp
    · exact absurd hbeats hbeats.asymm
    · have := hfalling hrp hy hz
      have := Precedence.rank_lt_of_level_lt hlt
      omega
  have hcontends : ∀ r, c.Prevails r → c.Contends r := fun r hr =>
    ⟨hr.1, fun hheld hkeep => by cases (hr.2 hheld).symm.trans hkeep⟩
  cases x with
  | none =>
    refine .inl ⟨p, ⟨hundecided.1, hp, hundecided.2⟩, fun r hr hbeats => ?_⟩
    obtain ⟨k, hk, -⟩ := h.eq_or_beats (hcontends r hr) (hbefore r hr hbeats)
    cases hk
  | some q =>
    obtain ⟨hq, hlt⟩ := h.1
    refine .inr ⟨q, p, ⟨hlt.ne, h.contends hq, hp, hundecided⟩, ⟨hp, fun hheld hkeep => ?_⟩, ?_⟩
    · -- of one level the shift is replaced by the former, and kept against the latter
      obtain ⟨kind, hkind⟩ := hundecided
      obtain ⟨y, z, hy, hz, hrank⟩ :=
        rank_lt_of_judge (h.2.1 hheld) hkeep (judgeReductions_eq_conflict_iff.1 hkind).2
      have := hfalling hlt hy hz
      omega
    · rintro r hr ⟨hbeats, hbeats'⟩
      obtain ⟨k, hk, -, rfl | hk'⟩ := h.eq_or_beats (hcontends r hr) (hbefore r hr hbeats')
      · obtain rfl := Option.some.inj hk
        exact hbeats.asymm hbeats
      · obtain rfl := Option.some.inj hk
        exact hbeats.asymm hk'

end Cell

end Lr

end LexParse
