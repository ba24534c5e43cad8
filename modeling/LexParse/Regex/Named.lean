import LexParse.Regex.Basic

/-!
# Named patterns

Definitions of patterns may refer to one another by name. Resolving them puts the expression of a
name in place of each reference, depth first: a pattern is resolved after those it refers to, and
each one once. It fails when a name is not defined, and when a definition leads back to itself.

The search recurses along references, and with it the path of names grows. An interpreter that
limits how deep functions may call one another stops on a chain of references that is long enough;
that limit is outside the model.
-/

namespace LexParse.Regex

/-- Definitions of names, in the order in which they were made. -/
abbrev Definitions := List (String × Regex)

/-- Why definitions cannot be resolved. -/
inductive ReferenceFault where
  /-- A name is used and not defined. -/
  | undefined (name : String)
  /-- The names form a cycle, given with its first name repeated at the end. -/
  | cyclic (path : List String)
deriving DecidableEq, Repr

/-- The wording of a fault. -/
def ReferenceFault.message : ReferenceFault → String
  | .undefined name => "undefined named pattern \x7b" ++ name ++ "\x7d"
  | .cyclic path => "cyclic named pattern definition: " ++ " -> ".intercalate path

/-- Put resolved patterns in place of references. -/
def resolveWith (bindings : Definitions) (r : Regex) : Except ReferenceFault Regex :=
  (r.substitute fun name => bindings.lookup name).mapError .undefined

theorem length_eraseName_lt {defs : Definitions} {name : String} {r : Regex}
    (h : defs.lookup name = some r) : (defs.filter (·.1 != name)).length < defs.length := by
  apply List.length_filter_lt_length_iff_exists.2
  obtain ⟨l₁, l₂, he, -⟩ := List.lookup_eq_some_iff.1 h
  exact ⟨(name, r), by simp [he], by simp⟩

mutual

/-- Resolve a name. `unvisited` are the definitions that are not being resolved already, `path` the
names that are, and `done` the patterns resolved so far, in the order in which they were. -/
def resolveName (unvisited : Definitions) (path : List String) (done : Definitions)
    (name : String) : Except ReferenceFault Definitions :=
  if (done.lookup name).isSome then .ok done
  else if path.contains name then .error (.cyclic (path.dropWhile (· != name) ++ [name]))
  else
    match h : unvisited.lookup name with
    | none => .error (.undefined name)
    | some r =>
      have := length_eraseName_lt h
      match resolveNames (unvisited.filter (·.1 != name)) (path ++ [name]) done r.references with
      | .error fault => .error fault
      | .ok done => (resolveWith done r).map fun resolved => done ++ [(name, resolved)]
termination_by (unvisited.length, 0)

/-- Resolve names one after the other. -/
def resolveNames (unvisited : Definitions) (path : List String) (done : Definitions) :
    List String → Except ReferenceFault Definitions
  | [] => .ok done
  | name :: rest =>
    match resolveName unvisited path done name with
    | .error fault => .error fault
    | .ok done => resolveNames unvisited path done rest
termination_by names => (unvisited.length, names.length + 1)

end

/-- Resolve all definitions, in their order. The answer lists the names in the order in which they
got resolved. -/
def resolveAll (defs : Definitions) : Except ReferenceFault Definitions :=
  resolveNames defs [] [] (defs.map (·.1))

end LexParse.Regex
