/-!
# Fresh names

A name is made from a stem: the stem itself, then the stem with 1, 2, … appended. `allocate`
issues the first of these that was not issued before, and starts looking where the last search for
the same stem ended.
-/

namespace PathQuery

/-- The names issued so far, and for each stem how many candidates were tried. -/
structure Symbols where
  tried : List (String × Nat) := []
  issued : List String := []

namespace Symbols

/-- The `n`-th name that a stem gives rise to. -/
def candidate (stem : String) : Nat → String
  | 0 => stem
  | n + 1 => stem ++ toString (n + 1)

/-- The first candidate from `start` on that was not issued. Among one candidate more than there
are issued names there is one. -/
def firstFree (issued : List String) (stem : String) (start : Nat) : Nat :=
  let candidates := List.range' start (issued.length + 1)
  (candidates.find? fun n => !issued.contains (candidate stem n)).getD start

/-- Issues a name for `stem`. -/
def allocate (symbols : Symbols) (stem : String) : String × Symbols :=
  let n := firstFree symbols.issued stem ((symbols.tried.lookup stem).getD 0)
  let name := candidate stem n
  (name, ⟨(stem, n + 1) :: symbols.tried, name :: symbols.issued⟩)

/-- Issues a name for each stem in turn. -/
def allocateAll (symbols : Symbols) : List String → List String
  | [] => []
  | stem :: stems =>
    let (name, symbols) := symbols.allocate stem
    name :: symbols.allocateAll stems

/-- What is left after a name was issued for each stem in turn. -/
def allocated (symbols : Symbols) (stems : List String) : Symbols :=
  stems.foldl (fun symbols stem => (symbols.allocate stem).2) symbols

end Symbols

end PathQuery
