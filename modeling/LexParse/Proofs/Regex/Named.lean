import LexParse.Proofs.Grammar.Resolved
import LexParse.Regex.Named
import Mathlib.Data.List.Chain
import Mathlib.Data.List.TakeWhile
import Mathlib.Logic.Relation

/-!
# Which named patterns can be resolved

Definitions can be resolved just if each name that is referred to is defined and no name leads back
to itself. The search goes depth first and keeps a path of the names that are being resolved and a
table of those that have been. A name that comes up again is either in the table, and is then one
that two definitions share, or on the path, and is then a cycle; it is never both, since nothing on
the path gets into the table before its turn.

## What is proved

* `outcome_of_searching`: what the search does, for one name and for several.
* `resolveAll_eq_error_iff`: which definitions cannot be resolved.
* `solves_of_resolveAll`, `Solves.perm`: the result solves the definitions taken as equations, and
  is their only solution.
* `resolveAll_perm`: the order of the definitions does not matter.
-/

namespace LexParse.Regex

/-! ### References -/

/-- The definition of a name refers to another name. -/
def RefersTo (defs : Definitions) (a b : String) : Prop :=
  ∃ r, defs.lookup a = some r ∧ b ∈ r.references

/-- A definition refers to a name that is not defined. -/
def Dangling (defs : Definitions) : Prop := ∃ a b, RefersTo defs a b ∧ defs.lookup b = none

/-- A name leads back to itself by references. -/
def Cyclic (defs : Definitions) : Prop := ∃ a, Relation.TransGen (RefersTo defs) a a

/-- A fault tells what is wrong with definitions. -/
def ReferenceFault.Explains (defs : Definitions) : ReferenceFault → Prop
  | .undefined b => (∃ a, RefersTo defs a b) ∧ defs.lookup b = none
  | .cyclic path => path.IsChain (RefersTo defs) ∧ ∃ a middle, path = a :: middle ++ [a]

/-- The references of a name can be followed only so far. -/
abbrev Grounded (defs : Definitions) (name : String) : Prop :=
  Acc (Function.swap (RefersTo defs)) name

variable {defs done done' done'' : Definitions} {path names : List String} {name a b : String}
  {r r' : Regex} {fault : ReferenceFault}

theorem not_transGen_of_grounded (h : Grounded defs name) :
    ¬ Relation.TransGen (RefersTo defs) name name := by
  intro hcycle
  have hacc : Acc (Relation.TransGen (Function.swap (RefersTo defs))) name := h.transGen
  induction hacc with
  | intro name _ ih =>
    exact ih name (Relation.transGen_swap.2 hcycle) h hcycle

/-- A chain of references that ends with its first name is a cycle. -/
theorem transGen_of_isChain {middle : List String}
    (h : (a :: middle ++ [b]).IsChain (RefersTo defs)) :
    Relation.TransGen (RefersTo defs) a b := by
  induction middle generalizing a with
  | nil => exact .single (List.isChain_pair.1 h)
  | cons c middle ih =>
    obtain ⟨hfirst, hrest⟩ := List.isChain_cons_cons.1 h
    exact .head hfirst (ih hrest)

theorem ReferenceFault.Explains.dangling_or_cyclic (h : fault.Explains defs) :
    Dangling defs ∨ Cyclic defs := by
  cases fault with
  | undefined b =>
    obtain ⟨⟨a, href⟩, hnone⟩ := h
    exact .inl ⟨a, b, href, hnone⟩
  | cyclic path =>
    obtain ⟨hchain, a, middle, rfl⟩ := h
    exact .inr ⟨a, transGen_of_isChain hchain⟩

theorem RefersTo.exists_mem (h : RefersTo defs a b) : ∃ entry ∈ defs, entry.1 = a ∧
    b ∈ entry.2.references := by
  obtain ⟨r, hr, hb⟩ := h
  obtain ⟨l₁, l₂, rfl, -⟩ := List.lookup_eq_some_iff.1 hr
  exact ⟨(a, r), by simp, rfl, hb⟩

theorem not_dangling
    (h : ∀ entry ∈ defs, ∀ b ∈ entry.2.references, (defs.lookup b).isSome = true) :
    ¬ Dangling defs := by
  rintro ⟨a, b, href, hnone⟩
  obtain ⟨entry, hentry, -, hb⟩ := href.exists_mem
  simpa [hnone] using h entry hentry b hb

/-- Names with a rank that falls along references do not lead back to themselves. -/
theorem not_cyclic_of_rank (rank : String → Nat)
    (h : ∀ entry ∈ defs, ∀ b ∈ entry.2.references, rank b < rank entry.1) : ¬ Cyclic defs := by
  have hstep : ∀ {a b}, RefersTo defs a b → rank b < rank a := by
    intro a b href
    obtain ⟨entry, hentry, rfl, hb⟩ := href.exists_mem
    exact h entry hentry b hb
  have hfalls : ∀ {a b}, Relation.TransGen (RefersTo defs) a b → rank b < rank a := by
    intro a b hpath
    induction hpath with
    | single href => exact hstep href
    | tail _ href ih => exact (hstep href).trans ih
  rintro ⟨a, hcycle⟩
  exact (hfalls hcycle).false

/-! ### Replacing references -/

section substitute

variable {binding binding' : String → Option Regex}

theorem exists_substitute (h : ∀ name ∈ r.references, ∃ s, binding name = some s) :
    ∃ r', r.substitute binding = .ok r' := by
  induction r with
  | empty | chars set => exact ⟨_, rfl⟩
  | named name =>
    obtain ⟨s, hs⟩ := h name (List.mem_singleton.2 rfl)
    exact ⟨s, by rw [substitute, hs]⟩
  | seq a b iha ihb | alt a b iha ihb =>
    obtain ⟨hleft, hright⟩ := List.forall_mem_append.1 h
    obtain ⟨a', ha⟩ := iha hleft
    obtain ⟨b', hb⟩ := ihb hright
    exact ⟨_, by rw [substitute, ha, hb]; rfl⟩
  | opt a ih | star a ih =>
    obtain ⟨a', ha⟩ := ih h
    exact ⟨_, by rw [substitute, ha]; rfl⟩

theorem exists_binding_of_substitute (h : r.substitute binding = .ok r') :
    ∀ name ∈ r.references, ∃ s, binding name = some s := by
  induction r generalizing r' with
  | empty | chars set => nofun
  | named name =>
    rw [substitute] at h
    rintro other hother
    obtain rfl := List.mem_singleton.1 hother
    split at h
    · exact ⟨_, ‹_›⟩
    · cases h
  | seq a b iha ihb | alt a b iha ihb =>
    obtain ⟨a', ha, h⟩ := bind_eq_ok_iff.1 h
    obtain ⟨b', hb, -⟩ := bind_eq_ok_iff.1 h
    exact List.forall_mem_append.2 ⟨iha ha, ihb hb⟩
  | opt a ih | star a ih =>
    obtain ⟨a', ha, -⟩ := bind_eq_ok_iff.1 h
    exact ih ha

theorem references_of_substitute
    (hfree : ∀ name ∈ r.references, ∀ s, binding name = some s → s.references = [])
    (h : r.substitute binding = .ok r') : r'.references = [] := by
  induction r generalizing r' with
  | empty | chars set =>
    cases h
    rfl
  | named name =>
    rw [substitute] at h
    split at h
    · rename_i s hs
      cases h
      exact hfree name (List.mem_singleton.2 rfl) _ hs
    · cases h
  | seq a b iha ihb | alt a b iha ihb =>
    obtain ⟨hleft, hright⟩ := List.forall_mem_append.1 hfree
    obtain ⟨a', ha, h⟩ := bind_eq_ok_iff.1 h
    obtain ⟨b', hb, h⟩ := bind_eq_ok_iff.1 h
    cases h
    exact List.append_eq_nil_iff.2 ⟨iha hleft ha, ihb hright hb⟩
  | opt a ih | star a ih =>
    obtain ⟨a', ha, h⟩ := bind_eq_ok_iff.1 h
    cases h
    show a'.references = []
    exact ih hfree ha

/-- Only the bindings of the references matter. -/
theorem substitute_congr (h : ∀ name ∈ r.references, binding name = binding' name) :
    r.substitute binding = r.substitute binding' := by
  induction r with
  | empty | chars set => rfl
  | named name => rw [substitute, substitute, h name (List.mem_singleton.2 rfl)]
  | seq a b iha ihb | alt a b iha ihb =>
    obtain ⟨hleft, hright⟩ := List.forall_mem_append.1 h
    rw [substitute, substitute, iha hleft, ihb hright]
  | opt a ih | star a ih => rw [substitute, substitute, ih h]

end substitute

theorem resolveWith_eq_ok_iff :
    resolveWith done r = .ok r' ↔ r.substitute (fun name => done.lookup name) = .ok r' :=
  mapError_eq_ok_iff

theorem resolveWith_congr (h : ∀ name ∈ r.references, done.lookup name = done'.lookup name) :
    resolveWith done r = resolveWith done' r := by
  rw [resolveWith, substitute_congr h, resolveWith]

/-- An expression whose references are replaced by expressions without any has none left. -/
theorem references_of_resolveWith
    (hfree : ∀ name s, done.lookup name = some s → s.references = [])
    (h : resolveWith done r = .ok r') : r'.references = [] :=
  references_of_substitute (fun name _ => hfree name) (resolveWith_eq_ok_iff.1 h)

/-! ### The search -/

/-- What has been resolved so far: the definitions of some names, each with what its references were
resolved to. -/
structure Settled (defs done : Definitions) : Prop where
  nodup : (done.map (·.1)).Nodup
  solved : ∀ name r', done.lookup name = some r' →
    ∃ r, defs.lookup name = some r ∧ resolveWith done r = .ok r'
  free : ∀ name r', done.lookup name = some r' → r'.references = []
  grounded : ∀ name r', done.lookup name = some r' → Grounded defs name

/-- Resolving some names below a path has got on: the names are resolved and those on the path are
left alone. -/
structure Advances (defs : Definitions) (path names : List String) (done done' : Definitions) :
    Prop where
  settled : Settled defs done'
  keeps : ∀ name r, done.lookup name = some r → done'.lookup name = some r
  avoids : ∀ name ∈ path, done'.lookup name = done.lookup name
  found : ∀ name ∈ names, ∃ r, done'.lookup name = some r

theorem lookup_cons (k : String) (r : Regex) (defs : Definitions) (name : String) :
    List.lookup name ((k, r) :: defs) = if name = k then some r else defs.lookup name := by
  rw [List.lookup_cons]
  split
  · rename_i heq
    rw [if_pos (by simpa using heq)]
  · rename_i hne
    rw [if_neg (by simpa using hne)]

theorem exists_lookup_iff_mem : (∃ r, done.lookup name = some r) ↔ name ∈ done.map (·.1) := by
  induction done with
  | nil => simp
  | cons p done ih =>
    obtain ⟨k, r⟩ := p
    rw [lookup_cons, List.map_cons, List.mem_cons, ← ih]
    split
    · rename_i heq
      exact ⟨fun _ => .inl heq, fun _ => ⟨r, rfl⟩⟩
    · rename_i hne
      exact (or_iff_right hne).symm

theorem Settled.nil : Settled defs [] where
  nodup := List.nodup_nil
  solved := nofun
  free := nofun
  grounded := nofun

theorem lookup_append_singleton (hname : done.lookup name = none) (other : String) :
    (done ++ [(name, r)]).lookup other = if other = name then some r else done.lookup other := by
  rw [List.lookup_append, lookup_cons]
  split
  · rename_i heq
    rw [heq, hname]
    rfl
  · exact Option.or_none

/-- A name is settled once its references are. -/
theorem Settled.add (h : Settled defs done) (hname : done.lookup name = none)
    (hr : defs.lookup name = some r) (hrefs : ∀ b ∈ r.references, ∃ s, done.lookup b = some s)
    (hr' : resolveWith done r = .ok r') : Settled defs (done ++ [(name, r')]) := by
  have hlookup := lookup_append_singleton (r := r') hname
  have hkeep : ∀ other s, done.lookup other = some s →
      (done ++ [(name, r')]).lookup other = some s := by
    intro other s hs
    rw [List.lookup_append, hs]
    rfl
  -- an expression that has been resolved before is resolved to the same
  have hagain : ∀ s s', resolveWith done s = .ok s' →
      resolveWith (done ++ [(name, r')]) s = .ok s' := by
    intro s s' hs
    rw [← hs]
    refine resolveWith_congr fun b hb => ?_
    obtain ⟨t, ht⟩ := exists_binding_of_substitute (resolveWith_eq_ok_iff.1 hs) b hb
    rw [hkeep b t ht, ht]
  constructor
  case nodup =>
    rw [List.map_append, List.nodup_append_comm, List.map_singleton, List.singleton_append,
      List.nodup_cons, ← exists_lookup_iff_mem]
    exact ⟨by simp [hname], h.nodup⟩
  case solved =>
    intro other s hs
    rw [hlookup] at hs
    split at hs
    · cases hs
      rename_i heq
      exact ⟨r, heq ▸ hr, hagain r r' hr'⟩
    · obtain ⟨t, ht, hts⟩ := h.solved other s hs
      exact ⟨t, ht, hagain t s hts⟩
  case free =>
    intro other s hs
    rw [hlookup] at hs
    split at hs
    · cases hs
      exact references_of_resolveWith h.free hr'
    · exact h.free other s hs
  case grounded =>
    intro other s hs
    rw [hlookup] at hs
    split at hs
    · rename_i heq
      subst heq
      refine .intro _ fun b ⟨t, ht, hb⟩ => ?_
      obtain rfl := Option.some.inj (hr.symm.trans ht)
      obtain ⟨u, hu⟩ := hrefs b hb
      exact h.grounded b u hu
    · exact h.grounded other s hs

theorem Advances.refl (h : Settled defs done)
    (hfound : ∀ name ∈ names, ∃ r, done.lookup name = some r) :
    Advances defs path names done done where
  settled := h
  keeps _ _ := id
  avoids _ _ := rfl
  found := hfound

theorem Advances.cons (h : Advances defs path [name] done done')
    (h' : Advances defs path names done' done'') :
    Advances defs path (name :: names) done done'' where
  settled := h'.settled
  keeps other r hr := h'.keeps other r (h.keeps other r hr)
  avoids other ho := (h'.avoids other ho).trans (h.avoids other ho)
  found := by
    refine List.forall_mem_cons.2 ⟨?_, h'.found⟩
    obtain ⟨r, hr⟩ := h.found name (List.mem_singleton.2 rfl)
    exact ⟨r, h'.keeps name r hr⟩

/-- When the references of a name have been resolved the name can be, and is not on the path. -/
theorem Advances.resolve (hname : done.lookup name = none) (hpath : name ∉ path)
    (hr : defs.lookup name = some r) (h : Advances defs (path ++ [name]) r.references done done') :
    ∃ r', resolveWith done' r = .ok r' ∧
      Advances defs path [name] done (done' ++ [(name, r')]) := by
  obtain ⟨r', hr'⟩ := exists_substitute h.found
  have hr' : resolveWith done' r = .ok r' := resolveWith_eq_ok_iff.2 hr'
  have hnone : done'.lookup name = none := by
    rw [h.avoids name (by simp), hname]
  have hlookup := lookup_append_singleton (r := r') hnone
  refine ⟨r', hr', ?_⟩
  constructor
  case settled => exact h.settled.add hnone hr h.found hr'
  case keeps =>
    intro other s hs
    rw [List.lookup_append, h.keeps other s hs]
    rfl
  case avoids =>
    intro other hother
    have hne : other ≠ name := fun heq => hpath (heq ▸ hother)
    rw [hlookup, if_neg hne]
    exact h.avoids other (List.mem_append_left _ hother)
  case found =>
    intro other hother
    exact ⟨r', by rw [hlookup, if_pos (List.mem_singleton.1 hother)]⟩

/-- What the search has to do: get on, or explain why it cannot. -/
def Outcome (defs : Definitions) (path names : List String) (done : Definitions) :
    Except ReferenceFault Definitions → Prop
  | .ok done' => Advances defs path names done done'
  | .error fault => fault.Explains defs

/-- Where a search stands: `unvisited` holds the definitions of all names that are not on the path,
and the path is one of references that leads to each of the names to be resolved. -/
structure Searching (defs unvisited : Definitions) (path names : List String)
    (done : Definitions) : Prop where
  unvisited : ∀ name, name ∉ path → unvisited.lookup name = defs.lookup name
  chain : ∀ name ∈ names, (path ++ [name]).IsChain (RefersTo defs)
  start : path = [] → ∀ name ∈ names, ∃ r, defs.lookup name = some r
  settled : Settled defs done

theorem Searching.head {unvisited : Definitions}
    (h : Searching defs unvisited path (name :: names) done) :
    Searching defs unvisited path [name] done where
  unvisited := h.unvisited
  chain := by simpa using h.chain name (List.mem_cons_self ..)
  start hnil := by simpa using h.start hnil name (List.mem_cons_self ..)
  settled := h.settled

theorem Searching.tail {unvisited : Definitions}
    (h : Searching defs unvisited path (name :: names) done) (h' : Settled defs done') :
    Searching defs unvisited path names done' where
  unvisited := h.unvisited
  chain other ho := h.chain other (List.mem_cons_of_mem _ ho)
  start hnil other ho := h.start hnil other (List.mem_cons_of_mem _ ho)
  settled := h'

theorem lookup_filter_ne {unvisited : Definitions} {other : String} (hne : other ≠ name) :
    (unvisited.filter (·.1 != name)).lookup other = unvisited.lookup other := by
  induction unvisited with
  | nil => rfl
  | cons p rest ih =>
    obtain ⟨k, r⟩ := p
    by_cases hk : k = name
    · have hother : other ≠ k := fun heq => hne (heq.trans hk)
      rw [List.filter_cons_of_neg (by simp [hk]), ih, lookup_cons, if_neg hother]
    · rw [List.filter_cons_of_pos (by simp [hk]), lookup_cons, lookup_cons, ih]

/-- The search goes on with the references of a name. -/
theorem Searching.descend {unvisited : Definitions}
    (h : Searching defs unvisited path [name] done) (hpath : name ∉ path)
    (hr : unvisited.lookup name = some r) :
    defs.lookup name = some r ∧ Searching defs (unvisited.filter (·.1 != name)) (path ++ [name])
      r.references done := by
  have hr : defs.lookup name = some r := (h.unvisited name hpath).symm.trans hr
  refine ⟨hr, ?_⟩
  constructor
  case unvisited =>
    intro other hother
    obtain ⟨ho, hne⟩ := not_or.1 (mt List.mem_append.2 hother)
    rw [lookup_filter_ne (by simpa using hne), h.unvisited other ho]
  case chain =>
    intro b hb
    rw [List.append_assoc, List.singleton_append, List.isChain_split]
    exact ⟨h.chain name (List.mem_singleton.2 rfl), List.isChain_pair.2 ⟨r, hr, hb⟩⟩
  case start => simp
  case settled => exact h.settled

/-- A name on the path leads back to itself. -/
theorem Searching.explains_cyclic {unvisited : Definitions}
    (h : Searching defs unvisited path [name] done) (hpath : name ∈ path) :
    (ReferenceFault.cyclic (path.dropWhile (· != name) ++ [name])).Explains defs := by
  refine ⟨?_, ?_⟩
  · refine (h.chain name (List.mem_singleton.2 rfl)).suffix ?_
    obtain ⟨before, hbefore⟩ := List.dropWhile_suffix (l := path) (· != name)
    exact ⟨before, by rw [← List.append_assoc, hbefore]⟩
  · cases hdrop : path.dropWhile (· != name) with
    | nil => simpa using List.dropWhile_eq_nil_iff.1 hdrop name hpath
    | cons first rest =>
      have hfirst := List.head?_dropWhile_not (· != name) path
      rw [hdrop] at hfirst
      obtain rfl : first = name := by simpa using hfirst
      exact ⟨first, rest, rfl⟩

/-- A name without a definition is referred to by the last one on the path. -/
theorem Searching.explains_undefined {unvisited : Definitions}
    (h : Searching defs unvisited path [name] done) (hpath : name ∉ path)
    (hnone : unvisited.lookup name = none) : (ReferenceFault.undefined name).Explains defs := by
  have hnone : defs.lookup name = none := (h.unvisited name hpath).symm.trans hnone
  refine ⟨?_, hnone⟩
  have hchain := h.chain name (List.mem_singleton.2 rfl)
  rcases List.eq_nil_or_concat path with rfl | ⟨init, a, rfl⟩
  · obtain ⟨r, hr⟩ := h.start rfl name (List.mem_singleton.2 rfl)
    rw [hnone] at hr
    cases hr
  · rw [List.concat_eq_append, List.append_assoc, List.singleton_append,
      List.isChain_split] at hchain
    exact ⟨a, List.isChain_pair.1 hchain.2⟩

section

variable {unvisited : Definitions}

theorem resolveName_of_lookup_eq_none (hdone : ¬ (done.lookup name).isSome = true)
    (hpath : ¬ path.contains name = true) (hnone : unvisited.lookup name = none) :
    resolveName unvisited path done name = .error (.undefined name) := by
  rw [resolveName, if_neg hdone, if_neg hpath]
  split
  · rfl
  · rename_i hsome
    rw [hnone] at hsome
    cases hsome

/-- The references of a name are resolved before the name. -/
theorem resolveName_of_lookup_eq_some (hdone : ¬ (done.lookup name).isSome = true)
    (hpath : ¬ path.contains name = true) (hr : unvisited.lookup name = some r) :
    resolveName unvisited path done name =
      (resolveNames (unvisited.filter (·.1 != name)) (path ++ [name]) done r.references).bind
        fun done => (resolveWith done r).map fun resolved => done ++ [(name, resolved)] := by
  rw [resolveName, if_neg hdone, if_neg hpath]
  split
  · rename_i hnone
    rw [hr] at hnone
    cases hnone
  · rename_i s hs
    obtain rfl := Option.some.inj (hr.symm.trans hs)
    cases resolveNames (unvisited.filter (·.1 != name)) (path ++ [name]) done r.references <;> rfl

end

/-- **What the search does.** Both for one name and for several ones it resolves them and leaves
those on the path alone, or explains why it cannot. -/
theorem outcome_of_searching (defs : Definitions) :
    (∀ unvisited path done name, Searching defs unvisited path [name] done →
      Outcome defs path [name] done (resolveName unvisited path done name)) ∧
    ∀ unvisited path done names, Searching defs unvisited path names done →
      Outcome defs path names done (resolveNames unvisited path done names) := by
  apply resolveName.mutual_induct
  case case1 =>
    intro unvisited path done name hdone h
    rw [resolveName, if_pos hdone]
    obtain ⟨r, hr⟩ := Option.isSome_iff_exists.1 hdone
    exact .refl h.settled (by simpa using ⟨r, hr⟩)
  case case2 =>
    intro unvisited path done name hdone hpath h
    rw [resolveName, if_neg hdone, if_pos hpath]
    exact h.explains_cyclic (by simpa using hpath)
  case case3 =>
    intro unvisited path done name hdone hpath hnone h
    rw [resolveName_of_lookup_eq_none hdone hpath hnone]
    exact h.explains_undefined (by simpa using hpath) hnone
  case case4 =>
    intro unvisited path done name hdone hpath r hr _ fault hfault ih h
    obtain ⟨-, hnext⟩ := h.descend (by simpa using hpath) hr
    have hout := ih hnext
    rw [hfault] at hout
    rw [resolveName_of_lookup_eq_some hdone hpath hr, hfault]
    exact hout
  case case5 =>
    intro unvisited path done name hdone hpath r hr _ done' hdone' ih h
    have hpath' : name ∉ path := by simpa using hpath
    obtain ⟨hdef, hnext⟩ := h.descend hpath' hr
    have hout := ih hnext
    rw [hdone'] at hout
    obtain ⟨r', hr', hadvances⟩ := hout.resolve (Option.not_isSome_iff_eq_none.1 hdone) hpath' hdef
    rw [resolveName_of_lookup_eq_some hdone hpath hr, hdone', Except.bind, hr']
    exact hadvances
  case case6 =>
    intro unvisited path done h
    rw [resolveNames]
    exact .refl h.settled nofun
  case case7 =>
    intro unvisited path done name rest fault hfault ih h
    have hout := ih h.head
    rw [resolveNames, hfault]
    rwa [hfault] at hout
  case case8 =>
    intro unvisited path done name rest done' hdone' ih ihrest h
    have hout := ih h.head
    rw [hdone'] at hout
    rw [resolveNames, hdone']
    have hrest := ihrest (h.tail hout.settled)
    dsimp only
    revert hrest
    cases resolveNames unvisited path done' rest with
    | error fault => exact id
    | ok done'' => exact hout.cons

/-! ### All definitions -/

variable {defs' res res' : Definitions}

/-- A solution of definitions, taken as equations: it has their names, nothing in it refers to
anything, and each expression in it is its definition with the solution in place of references. -/
structure Solves (defs res : Definitions) : Prop where
  names : (res.map (·.1)).Perm (defs.map (·.1))
  free : ∀ name r', res.lookup name = some r' → r'.references = []
  equation : ∀ name r, defs.lookup name = some r →
    ∃ r', res.lookup name = some r' ∧ resolveWith res r = .ok r'

theorem outcome_resolveAll (defs : Definitions) :
    Outcome defs [] (defs.map (·.1)) [] (resolveAll defs) := by
  refine (outcome_of_searching defs).2 defs [] [] _ ?_
  constructor
  case unvisited => exact fun _ _ => rfl
  case chain => exact fun _ _ => List.isChain_singleton _
  case start => exact fun _ name hname => exists_lookup_iff_mem.2 hname
  case settled => exact .nil

theorem advances_of_resolveAll (h : resolveAll defs = .ok res) :
    Advances defs [] (defs.map (·.1)) [] res := by
  have hout := outcome_resolveAll defs
  rwa [h] at hout

/-- A fault tells what is wrong with the definitions. -/
theorem explains_of_resolveAll (h : resolveAll defs = .error fault) : fault.Explains defs := by
  have hout := outcome_resolveAll defs
  rwa [h] at hout

/-- What has been resolved is a solution. -/
theorem solves_of_resolveAll (hnodup : (defs.map (·.1)).Nodup) (h : resolveAll defs = .ok res) :
    Solves defs res := by
  have hadvances := advances_of_resolveAll h
  constructor
  case names =>
    rw [List.perm_ext_iff_of_nodup hadvances.settled.nodup hnodup]
    intro name
    constructor
    · intro hname
      obtain ⟨r', hr'⟩ := exists_lookup_iff_mem.2 hname
      obtain ⟨r, hr, -⟩ := hadvances.settled.solved name r' hr'
      exact exists_lookup_iff_mem.1 ⟨r, hr⟩
    · exact fun hname => exists_lookup_iff_mem.1 (hadvances.found name hname)
  case free => exact hadvances.settled.free
  case equation =>
    intro name r hr
    obtain ⟨r', hr'⟩ := hadvances.found name (exists_lookup_iff_mem.1 ⟨r, hr⟩)
    obtain ⟨s, hs, hsr'⟩ := hadvances.settled.solved name r' hr'
    obtain rfl := Option.some.inj (hr.symm.trans hs)
    exact ⟨r', hr', hsr'⟩

/-- **Which definitions cannot be resolved**: those with a name that is not defined, or one that
leads back to itself. -/
theorem resolveAll_eq_error_iff :
    (∃ fault, resolveAll defs = .error fault) ↔ Dangling defs ∨ Cyclic defs := by
  constructor
  · rintro ⟨fault, h⟩
    exact (explains_of_resolveAll h).dangling_or_cyclic
  · intro hbad
    cases h : resolveAll defs with
    | error fault => exact ⟨fault, rfl⟩
    | ok res =>
      exfalso
      have hadvances := advances_of_resolveAll h
      -- a name that is defined has been resolved
      have hfound : ∀ a b, RefersTo defs a b → ∃ r', res.lookup a = some r' := fun a b ⟨r, hr, _⟩ =>
        hadvances.found a (exists_lookup_iff_mem.1 ⟨r, hr⟩)
      rcases hbad with ⟨a, b, href, hnone⟩ | ⟨a, hcycle⟩
      · obtain ⟨r', hr'⟩ := hfound a b href
        obtain ⟨r, hr, hb⟩ := href
        obtain ⟨s, hs, hsr'⟩ := hadvances.settled.solved a r' hr'
        obtain rfl := Option.some.inj (hr.symm.trans hs)
        obtain ⟨t, ht⟩ :=
          exists_binding_of_substitute (resolveWith_eq_ok_iff.1 hsr') b hb
        obtain ⟨u, hu, -⟩ := hadvances.settled.solved b t ht
        rw [hnone] at hu
        cases hu
      · obtain ⟨b, href, -⟩ := Relation.TransGen.head'_iff.1 hcycle
        obtain ⟨r', hr'⟩ := hfound a b href
        exact not_transGen_of_grounded (hadvances.settled.grounded a r' hr') hcycle

/-! ### The order of the definitions -/

theorem lookup_eq_some_iff_mem (hnodup : (defs.map (·.1)).Nodup) :
    defs.lookup name = some r ↔ (name, r) ∈ defs := by
  induction defs with
  | nil => simp
  | cons p defs ih =>
    obtain ⟨k, s⟩ := p
    obtain ⟨hk, hnodup⟩ := List.nodup_cons.1 hnodup
    rw [lookup_cons, List.mem_cons, Prod.mk.injEq]
    split
    · rename_i heq
      subst heq
      have hnot : (name, r) ∉ defs := fun hmem => hk (List.mem_map.2 ⟨_, hmem, rfl⟩)
      simp [hnot, eq_comm]
    · rename_i hne
      simp [hne, ih hnodup]

theorem lookup_eq_of_perm (hnodup : (defs.map (·.1)).Nodup) (hperm : defs.Perm defs')
    (name : String) : defs.lookup name = defs'.lookup name := by
  have hnodup' : (defs'.map (·.1)).Nodup := (hperm.map _).nodup hnodup
  refine Option.ext fun r => ?_
  rw [lookup_eq_some_iff_mem hnodup, lookup_eq_some_iff_mem hnodup', hperm.mem_iff]

theorem refersTo_eq_of_perm (hnodup : (defs.map (·.1)).Nodup) (hperm : defs.Perm defs') :
    RefersTo defs = RefersTo defs' := by
  funext a b
  simp only [RefersTo, lookup_eq_of_perm hnodup hperm]

theorem Solves.of_perm (h : Solves defs res) (hnodup : (defs.map (·.1)).Nodup)
    (hperm : defs.Perm defs') : Solves defs' res where
  names := h.names.trans (hperm.map _)
  free := h.free
  equation name r hr := h.equation name r ((lookup_eq_of_perm hnodup hperm name).trans hr)

/-- Two solutions agree on a name, if its references can be followed only so far. -/
theorem Solves.lookup_eq (h : Solves defs res) (h' : Solves defs res')
    (hname : Grounded defs name) (hdef : ∃ r, defs.lookup name = some r) :
    res.lookup name = res'.lookup name := by
  induction hname with
  | intro name _ ih =>
    obtain ⟨r, hr⟩ := hdef
    obtain ⟨s, hs, hrs⟩ := h.equation name r hr
    obtain ⟨s', hs', hrs'⟩ := h'.equation name r hr
    have hsame : resolveWith res r = resolveWith res' r := by
      refine resolveWith_congr fun b hb => ih b ⟨r, hr, hb⟩ ?_
      -- what is replaced is in the solution, so it has been defined
      obtain ⟨t, ht⟩ := exists_binding_of_substitute (resolveWith_eq_ok_iff.1 hrs) b hb
      exact exists_lookup_iff_mem.2 (h.names.mem_iff.1 (exists_lookup_iff_mem.1 ⟨t, ht⟩))
    rw [hrs, hrs'] at hsame
    rw [hs, hs', Except.ok.inj hsame]

/-- **A result is the only solution**, up to the order of its entries. -/
theorem Solves.perm (hnodup : (defs.map (·.1)).Nodup) (h : resolveAll defs = .ok res)
    (h' : Solves defs res') : res'.Perm res := by
  have hsolves := solves_of_resolveAll hnodup h
  have hres : (res.map (·.1)).Nodup := (hsolves.names.nodup_iff).2 hnodup
  have hres' : (res'.map (·.1)).Nodup := (h'.names.nodup_iff).2 hnodup
  rw [List.perm_ext_iff_of_nodup (.of_map _ hres') (.of_map _ hres)]
  rintro ⟨name, r⟩
  rw [← lookup_eq_some_iff_mem hres, ← lookup_eq_some_iff_mem hres']
  by_cases hname : ∃ r, defs.lookup name = some r
  · obtain ⟨s, hs⟩ := (advances_of_resolveAll h).found name (exists_lookup_iff_mem.1 hname)
    have hgrounded := (advances_of_resolveAll h).settled.grounded name s hs
    rw [h'.lookup_eq hsolves hgrounded hname]
  · have hnot : ∀ {sol : Definitions}, Solves defs sol → sol.lookup name ≠ some r := by
      intro sol hsol hr
      have hmem := hsol.names.mem_iff.1 (exists_lookup_iff_mem.1 ⟨r, hr⟩)
      exact hname (exists_lookup_iff_mem.2 hmem)
    exact iff_of_false (hnot h') (hnot hsolves)

/-- The order of the definitions does not matter. -/
theorem resolveAll_perm (hnodup : (defs.map (·.1)).Nodup) (hperm : defs.Perm defs')
    (h : resolveAll defs = .ok res) : ∃ res', resolveAll defs' = .ok res' ∧ res'.Perm res := by
  cases h' : resolveAll defs' with
  | ok res' =>
    have hnodup' : (defs'.map (·.1)).Nodup := (hperm.map _).nodup hnodup
    have hsolves := (solves_of_resolveAll hnodup' h').of_perm hnodup' hperm.symm
    exact ⟨res', rfl, hsolves.perm hnodup h⟩
  | error fault =>
    have hbad := resolveAll_eq_error_iff.1 ⟨fault, h'⟩
    simp only [Dangling, Cyclic, ← refersTo_eq_of_perm hnodup hperm,
      ← lookup_eq_of_perm hnodup hperm] at hbad
    obtain ⟨fault', hfault⟩ := resolveAll_eq_error_iff.2 hbad
    rw [h] at hfault
    cases hfault

end LexParse.Regex
