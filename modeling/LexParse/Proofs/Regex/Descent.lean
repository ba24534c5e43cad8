import LexParse.Regex.Descent

/-!
# The descent and the stack

The descent through the notation reads what the reader with a stack reads. Where a reader of the
descent takes some tokens, the other one takes them as well and changes the innermost of its levels
only: it pushes an item, or several, or goes on to a level whose alternatives are those of a
pattern. Where the descent ends with a fault, the other one ends with the same one, whatever there
is on its stack. What remains is the one way to end that the reader with a stack does not have: the
groups in the tokens are nested deeper than the descent may go.

## What is proved

* `Descent.gives_readPattern`: what the reader of a pattern does, given what that of groups does.
* `parseByDescent_cases`: the descent gives what `parse` gives, or groups are nested too deep.
-/

namespace LexParse.Regex

/-- How many groups are open at once at most, where so many are open in front. -/
def deepest (around : Nat) : List Token → Nat
  | [] => around
  | .opening :: ts => deepest (around + 1) ts
  | .closing :: ts => max around (deepest (around - 1) ts)
  | _ :: ts => deepest around ts

theorem le_deepest (around : Nat) (ts : List Token) : around ≤ deepest around ts := by
  fun_induction deepest around ts with
  | case1 => exact Nat.le_refl _
  | case2 _ _ ih => exact Nat.le_of_succ_le ih
  | case3 => exact Nat.le_max_left ..
  | case4 _ _ _ _ _ ih => exact ih

namespace Descent

variable {ι κ α : Type} {room depth : Nat} {ts us rest : List Token} {r : Regex}
  {before between after : ι → Level} {abort : Abort} {group : PatternReader}

/-! ### What readers give -/

/-- The reader with a stack goes on from some tokens to others, and from a level to another. -/
structure Moves (room : Nat) (before after : ι → Level) (ts rest : List Token) : Prop where
  parseFrom_eq : ∀ i outer,
    parseFrom room (before i) outer ts = parseFrom room (after i) outer rest
  deepest_le : ∀ around, deepest around rest ≤ deepest around ts

/-- What an end without an expression tells of the tokens: the reader with a stack ends with the
same fault, or groups are nested deeper than they may be. -/
def Abort.Explains (room depth : Nat) (before : ι → Level) (ts : List Token) : Abort → Prop
  | .fault found => ∀ i outer, parseFrom room (before i) outer ts = .error found
  | .tooDeep => ∀ around, around + depth < deepest around ts
  | .unexpected => False

/-- A reader ends with one of some aborts or with one of some results. -/
def Gives (bad : Abort → Prop) (good : α → Prop) : Except Abort α → Prop
  | .error abort => bad abort
  | .ok a => good a

theorem Moves.refl : Moves room before before ts ts := ⟨fun _ _ => rfl, fun _ => Nat.le_refl _⟩

theorem Moves.trans (h : Moves room before between ts us) (h' : Moves room between after us rest) :
    Moves room before after ts rest where
  parseFrom_eq i outer := (h.parseFrom_eq i outer).trans (h'.parseFrom_eq i outer)
  deepest_le around := Nat.le_trans (h'.deepest_le around) (h.deepest_le around)

theorem Moves.reindex (h : Moves room before after ts rest) (f : κ → ι) :
    Moves room (before ∘ f) (after ∘ f) ts rest :=
  ⟨fun i => h.parseFrom_eq (f i), h.deepest_le⟩

theorem Abort.Explains.reindex (h : abort.Explains room depth before ts) (f : κ → ι) :
    abort.Explains room depth (before ∘ f) ts := by
  cases abort with
  | fault found => exact fun i => h (f i)
  | tooDeep | unexpected => exact h

/-- Where a reader has got to some other tokens, what is told of these is told of all. -/
theorem Abort.Explains.of_moves (h : Moves room before between ts us)
    (habort : abort.Explains room depth between us) : abort.Explains room depth before ts := by
  cases abort with
  | fault found => exact fun i outer => (h.parseFrom_eq i outer).trans (habort i outer)
  | tooDeep => exact fun around => Nat.lt_of_lt_of_le (habort around) (h.deepest_le around)
  | unexpected => exact habort

/-- What is next works on no item. -/
structure Unpostfixed (ts : List Token) : Prop where
  postfixOp : ∀ operator us, ts ≠ .postfixOp operator :: us
  repetition : ∀ counts us, ts ≠ .repetition counts :: us

/-- What is next begins no item. -/
structure NoItem (ts : List Token) : Prop where
  chars : ∀ set us, ts ≠ .chars set :: us
  reference : ∀ name us, ts ≠ .reference name :: us
  opening : ∀ us, ts ≠ .opening :: us

/-- A pattern ends at the end of the tokens, in front of a closing parenthesis, or in front of an
operator without an operand. -/
inductive Ends (level : Level) : List Token → Prop where
  /-- There are no more tokens. -/
  | last : Ends level []
  /-- The group is closed. -/
  | closing {ts : List Token} : Ends level (.closing :: ts)
  /-- There is no item for a postfix operator. -/
  | postfixOp {operator : Postfix} {ts : List Token} :
      level.items = [] → Ends level (.postfixOp operator :: ts)
  /-- There is no item for a repetition. -/
  | repetition {counts : List (Option Int)} {ts : List Token} :
      level.items = [] → Ends level (.repetition counts :: ts)

/-! ### Items -/

/-- A postfix operator changes the last item. -/
theorem moves_postfixOp (operator : Postfix) (r : Regex) (ts : List Token) :
    Moves room (Level.push · r) (Level.push · (operator.apply r)) (.postfixOp operator :: ts) ts :=
  ⟨fun _ _ => rfl, fun _ => Nat.le_refl _⟩

/-- A repetition changes the last item, if it can. -/
theorem moves_repetition {counts : List (Option Int)} {r' : Regex}
    (h : applyCounts room r counts = .ok r') :
    Moves room (Level.push · r) (Level.push · r') (.repetition counts :: ts) ts where
  parseFrom_eq level outer := by
    rw [parseFrom]
    simp only [Level.push, h]
  deepest_le _ := Nat.le_refl _

theorem gives_readPostfixes (room depth : Nat) (r : Regex) (ts : List Token) :
    Gives (Abort.Explains room depth (Level.push · r) ts)
      (fun reading => Moves room (Level.push · r) (Level.push · reading.value) ts reading.rest ∧
        Unpostfixed reading.rest)
      (readPostfixes room r ts) := by
  fun_induction readPostfixes room r ts with
  | case1 r operator ts abort habort ih =>
    rw [habort] at ih
    exact ih.of_moves (moves_postfixOp operator r ts)
  | case2 r operator ts r' rest fewer hok ih =>
    rw [hok] at ih
    exact ⟨(moves_postfixOp operator r ts).trans ih.1, ih.2⟩
  | case3 r counts ts found hfault =>
    intro level outer
    rw [parseFrom]
    simp only [Level.push, hfault]
  | case4 r counts ts r' hcounts abort habort ih =>
    rw [habort] at ih
    exact ih.of_moves (moves_repetition hcounts)
  | case5 r counts ts r' hcounts r'' rest fewer hok ih =>
    rw [hok] at ih
    exact ⟨(moves_repetition hcounts).trans ih.1, ih.2⟩
  | case6 r ts hpostfix hrepetition => exact ⟨.refl, hpostfix, hrepetition⟩

/-- What the reader of groups has to do: where the reader with a stack opens a group, it comes to a
level that closes to the same expression. -/
def ReadsGroups (room depth : Nat) (group : PatternReader) : Prop :=
  ∀ ts, Gives (Abort.Explains room depth (fun level : Level => level) (.opening :: ts))
    (fun reading => ∃ level : Level, level.close = reading.value ∧ Ends level reading.rest ∧
      Moves room (fun _ : Unit => {}) (fun _ => level) ts reading.rest)
    (group ts)

theorem gives_readBase (hgroup : ReadsGroups room depth group) (ts : List Token) :
    Gives (Abort.Explains room depth (fun level : Level => level) ts)
      (fun base => match base with
        | none => NoItem ts
        | some reading =>
          Moves room (fun level => level) (Level.push · reading.value) ts reading.rest)
      (readBase group ts) := by
  unfold readBase
  split
  · exact ⟨fun _ _ => rfl, fun _ => Nat.le_refl _⟩
  · exact ⟨fun _ _ => rfl, fun _ => Nat.le_refl _⟩
  · rename_i ts
    have hgives := hgroup ts
    split
    · rename_i abort habort
      rw [habort] at hgives
      exact hgives
    · rename_i inside hinside
      rw [hinside] at hgives
      obtain ⟨level, hclose, hends, hmoves⟩ := hgives
      split
      · rename_i rest hrest
        rw [hrest] at hmoves
        refine ⟨fun around outer => ?_, fun around => ?_⟩
        · rw [parseFrom, hmoves.parseFrom_eq (), parseFrom, hclose]
        · exact Nat.le_trans (Nat.le_max_right ..) (hmoves.deepest_le (around + 1))
      · rename_i hrest
        -- the group ends in front of something that does not close it
        intro around outer
        rw [parseFrom, hmoves.parseFrom_eq ()]
        generalize inside.rest = rest at hends hrest
        cases hends with
        | last => rfl
        | closing => exact (hrest _ rfl).elim
        | postfixOp hitems | repetition hitems =>
          rw [parseFrom, hitems]
          rfl
  · exact ⟨‹_›, ‹_›, ‹_›⟩

theorem gives_readItem (hgroup : ReadsGroups room depth group) (ts : List Token) :
    Gives (Abort.Explains room depth (fun level : Level => level) ts)
      (fun item => match item with
        | none => NoItem ts
        | some reading =>
          Moves room (fun level => level) (Level.push · reading.value) ts reading.rest ∧
            Unpostfixed reading.rest)
      (readItem room group ts) := by
  have hbase := gives_readBase hgroup ts
  fun_cases readItem room group ts with
  | case1 abort habort =>
    rw [habort] at hbase
    exact hbase
  | case2 hnone =>
    rw [hnone] at hbase
    exact hbase
  | case3 r rest fewer hsome abort habort =>
    have hpostfixes := gives_readPostfixes room depth r rest
    rw [hsome] at hbase
    rw [habort] at hpostfixes
    exact hpostfixes.of_moves hbase
  | case4 r rest fewer hsome r' rest' fewer' hok =>
    have hpostfixes := gives_readPostfixes room depth r rest
    rw [hsome] at hbase
    rw [hok] at hpostfixes
    exact ⟨hbase.trans hpostfixes.1, hpostfixes.2⟩

/-- Items are pushed one after the other. -/
def pushAll (items : List Regex) (level : Level) : Level :=
  { level with items := items.reverse ++ level.items }

theorem pushAll_cons (item : Regex) (items : List Regex) :
    pushAll (item :: items) = pushAll items ∘ (Level.push · item) := by
  funext level
  simp [pushAll, Level.push]

theorem gives_readItems (hgroup : ReadsGroups room depth group) (ts : List Token) :
    Gives (Abort.Explains room depth (fun level : Level => level) ts)
      (fun reading => Moves room (fun level => level) (pushAll reading.value) ts reading.rest ∧
        NoItem reading.rest ∧
        (reading.value = [] ∧ reading.rest = ts ∨ Unpostfixed reading.rest))
      (readItems room group ts) := by
  fun_induction readItems room group ts with
  | case1 ts abort habort =>
    have hitem := gives_readItem hgroup ts
    rw [habort] at hitem
    exact hitem
  | case2 ts hnone =>
    have hitem := gives_readItem hgroup ts
    rw [hnone] at hitem
    exact ⟨.refl, hitem, .inl ⟨rfl, rfl⟩⟩
  | case3 ts item rest fewer hsome abort habort ih =>
    have hitem := gives_readItem hgroup ts
    rw [hsome] at hitem
    rw [habort] at ih
    exact (ih.reindex (Level.push · item)).of_moves hitem.1
  | case4 ts item rest fewer hsome items rest' fewer' hok ih =>
    have hitem := gives_readItem hgroup ts
    rw [hsome] at hitem
    rw [hok] at ih
    obtain ⟨hmoves, hnone, hends⟩ := ih
    refine ⟨?_, hnone, .inr ?_⟩
    · rw [pushAll_cons]
      exact hitem.1.trans (hmoves.reindex (Level.push · item))
    · -- behind the last item stands what its postfix operators have left
      rcases hends with ⟨-, hrest⟩ | hends
      · obtain rfl : rest' = rest := hrest
        exact hitem.2
      · exact hends

/-! ### Patterns -/

/-- A chain that is nothing is as good as one that matches the empty word. -/
theorem getD_joinAll? (items : List Regex) :
    (joinAll? .seq items).getD .empty = sequence items := by
  cases items <;> rfl

theorem chain_pushAll (items alternatives : List Regex) :
    (pushAll items { alternatives }).chain = (joinAll? .seq items).getD .empty := by
  rw [getD_joinAll?, Level.chain, pushAll, List.append_nil, List.reverse_reverse]

theorem joinAll?_alternatives (level : Level) :
    joinAll? .alt (level.chain :: level.alternatives).reverse = some level.close := by
  rw [Level.close]
  cases h : (level.chain :: level.alternatives).reverse with
  | nil => simp at h
  | cons first rest => rfl

theorem ends_of_noItem {level : Level} (hnone : NoItem rest) (hbar : ∀ us, rest ≠ .bar :: us)
    (hitems : level.items = [] ∨ Unpostfixed rest) : Ends level rest := by
  cases rest with
  | nil => exact .last
  | cons t us =>
    cases t with
    | chars set => exact (hnone.chars _ _ rfl).elim
    | reference name => exact (hnone.reference _ _ rfl).elim
    | opening => exact (hnone.opening _ rfl).elim
    | bar => exact (hbar _ rfl).elim
    | closing => exact .closing
    | postfixOp operator => exact .postfixOp (hitems.resolve_right (·.postfixOp _ _ rfl))
    | repetition counts => exact .repetition (hitems.resolve_right (·.repetition _ _ rfl))

/-- A bar ends the chain. -/
theorem moves_bar : Moves room (fun level => level) Level.divide (.bar :: ts) ts :=
  ⟨fun _ _ => rfl, fun _ => Nat.le_refl _⟩

theorem gives_readChain (hgroup : ReadsGroups room depth group) (ts : List Token) :
    Gives (Abort.Explains room depth (fun level : Level => level) ts)
      (fun reading => ∃ items, joinAll? .seq items = reading.value ∧
        Moves room (fun level => level) (pushAll items) ts reading.rest ∧
        NoItem reading.rest ∧ (items = [] ∨ Unpostfixed reading.rest))
      (readChain room group ts) := by
  have hitems := gives_readItems hgroup ts
  fun_cases readChain room group ts with
  | case1 abort habort =>
    rw [habort] at hitems
    exact hitems
  | case2 items rest fewer hok =>
    rw [hok] at hitems
    exact ⟨items, rfl, hitems.1, hitems.2.1, hitems.2.2.imp And.left id⟩

theorem gives_readChains (hgroup : ReadsGroups room depth group) (ts : List Token) :
    Gives (Abort.Explains room depth (fun level : Level => level) ts)
      (fun reading => ∀ alternatives : List Regex, ∃ level : Level,
        level.chain :: level.alternatives =
          (reading.value.map (·.getD .empty)).reverse ++ alternatives ∧
        Ends level reading.rest ∧
        Moves room (fun _ : Unit => { alternatives }) (fun _ => level) ts reading.rest)
      (readChains room group ts) := by
  fun_induction readChains room group ts with
  | case1 ts abort habort =>
    have hchain := gives_readChain hgroup ts
    rw [habort] at hchain
    exact hchain
  | case2 ts chain hchain rest hbar fewer abort habort ih =>
    have hgives := gives_readChain hgroup ts
    rw [hchain] at hgives
    obtain ⟨items, -, hmoves, -⟩ := hgives
    rw [hbar] at hmoves
    rw [habort] at ih
    exact (ih.reindex (Level.divide ∘ pushAll items)).of_moves
      (hmoves.trans (moves_bar.reindex (pushAll items)))
  | case3 ts chain hchain rest hbar fewer chains rest' fewer' hok ih =>
    have hgives := gives_readChain hgroup ts
    rw [hchain] at hgives
    obtain ⟨items, hvalue, hmoves, -⟩ := hgives
    rw [hbar] at hmoves
    rw [hok] at ih
    intro alternatives
    obtain ⟨level, hlevel, hends, hrest⟩ := ih (chain.value.getD .empty :: alternatives)
    refine ⟨level, by simpa using hlevel, hends, .trans ?_ hrest⟩
    have hdivide : (pushAll items { alternatives }).divide =
        { alternatives := chain.value.getD .empty :: alternatives } := by
      rw [← hvalue, ← chain_pushAll items alternatives]
      rfl
    rw [← hdivide]
    exact (hmoves.trans (moves_bar.reindex (pushAll items))).reindex fun _ => { alternatives }
  | case4 ts chain hchain hbar =>
    have hgives := gives_readChain hgroup ts
    rw [hchain] at hgives
    obtain ⟨items, hvalue, hmoves, hnone, hends⟩ := hgives
    intro alternatives
    refine ⟨pushAll items { alternatives }, ?_, ?_, hmoves.reindex fun _ => { alternatives }⟩
    · rw [chain_pushAll, hvalue]
      rfl
    · exact ends_of_noItem hnone hbar (hends.imp (fun h => by simp [pushAll, h]) id)

/-- **A pattern is read as the reader with a stack reads it**, if groups are. -/
theorem gives_readPattern (hgroup : ReadsGroups room depth group) (ts : List Token) :
    Gives (Abort.Explains room depth (fun level : Level => level) ts)
      (fun reading => ∃ level : Level, level.close = reading.value ∧ Ends level reading.rest ∧
        Moves room (fun _ : Unit => {}) (fun _ => level) ts reading.rest)
      (readPattern room group ts) := by
  have hchains := gives_readChains hgroup ts
  unfold readPattern
  cases hresult : readChains room group ts with
  | error abort =>
    rw [hresult] at hchains
    exact hchains
  | ok reading =>
    rw [hresult] at hchains
    obtain ⟨level, hlevel, hends, hmoves⟩ := hchains []
    have hjoin : joinAll? .alt (reading.value.map (·.getD .empty)) = some level.close := by
      rw [← joinAll?_alternatives, hlevel, List.append_nil, List.reverse_reverse]
    simp only [hjoin]
    exact ⟨level, rfl, hends, hmoves⟩

/-! ### Groups -/

/-- What goes wrong in a group goes wrong where it is opened. -/
theorem Abort.Explains.opening
    (h : abort.Explains room depth (fun level : Level => level) ts) :
    abort.Explains room (depth + 1) (fun level : Level => level) (.opening :: ts) := by
  cases abort with
  | fault found => exact fun level outer => h {} (level :: outer)
  | tooDeep =>
    intro around
    have := h (around + 1)
    rw [deepest]
    omega
  | unexpected => exact h

theorem readsGroups_readGroup (room depth : Nat) :
    ReadsGroups room depth (readGroup room depth) := by
  induction depth with
  | zero => exact fun ts around => le_deepest (around + 1) ts
  | succ depth ih =>
    intro ts
    have hpattern := gives_readPattern ih ts
    rw [readGroup]
    cases hresult : readPattern room (readGroup room depth) ts with
    | error abort =>
      rw [hresult] at hpattern
      exact Abort.Explains.opening hpattern
    | ok reading =>
      rw [hresult] at hpattern
      exact hpattern

end Descent

/-! ### Whole patterns -/

open Descent

/-- The descent gives what the reader with a stack gives, or more groups are opened than may be. -/
theorem descend_cases (room depth : Nat) (ts : List Token) :
    descend room depth ts = (parseTokens room ts).mapError .fault ∨
    descend room depth ts = .error .tooDeep ∧ depth < deepest 0 ts := by
  have hpattern := gives_readPattern (readsGroups_readGroup room depth) ts
  unfold descend
  cases hresult : readPattern room (readGroup room depth) ts with
  | error abort =>
    rw [hresult] at hpattern
    cases abort with
    | fault found =>
      refine .inl ?_
      rw [parseTokens, hpattern {} []]
      rfl
    | tooDeep => exact .inr ⟨rfl, by simpa using hpattern 0⟩
    | unexpected => exact hpattern.elim
  | ok reading =>
    rw [hresult] at hpattern
    obtain ⟨value, rest, fewer⟩ := reading
    obtain ⟨level, rfl, hends, hmoves⟩ := hpattern
    refine .inl ?_
    rw [parseTokens, hmoves.parseFrom_eq ()]
    cases hends with
    | last | closing => rfl
    | postfixOp hitems | repetition hitems =>
      rw [parseFrom, hitems]
      rfl

/-- **The descent and the stack read the same.** However many groups may be open at once, the
descent ends as `parse` does, or groups are nested deeper than that. -/
theorem parseByDescent_cases (room depth : Nat) (text : String) :
    parseByDescent room depth text = (parse room text).mapError .fault ∨
    parseByDescent room depth text = .error .tooDeep ∧
      ∃ ts, tokens text.toList = .ok ts ∧ depth < deepest 0 ts := by
  unfold parseByDescent parse
  cases htokens : tokens text.toList with
  | error found => exact .inl rfl
  | ok ts => exact (descend_cases room depth ts).imp id fun h => ⟨h.1, ts, rfl, h.2⟩

example : parseByDescent 0 1 "((a))" = .error .tooDeep := by cbv
example : parseByDescent 0 2 "((a))" = .ok (.chars (.ofChar 'a')) := by cbv

end LexParse.Regex
