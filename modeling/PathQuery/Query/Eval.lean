import PathQuery.Code.Exec
import PathQuery.Query.Basic

/-!
# The meaning of queries

`Query.eval` gives the answer of a query on a value under a host, by recursion on the query. It
knows nothing of slots and code.
-/

namespace PathQuery

/-- What a computation under a host comes to: a result or an error, and the host's state. -/
abbrev Reply (σ α : Type) := Except RuntimeError α × σ

namespace Reply

variable {σ α β : Type}

/-- Goes on with the result, unless there is an error. -/
def andThen (reply : Reply σ α) (next : α → σ → Reply σ β) : Reply σ β :=
  match reply with
  | (.ok a, s) => next a s
  | (.error error, s) => (.error error, s)

/-- The results of a computation on each value in turn, up to the first error. -/
def forEach (f : α → σ → Reply σ β) : List α → σ → Reply σ (List β)
  | [], s => (.ok [], s)
  | a :: as, s =>
    andThen (f a s) fun b s => andThen (forEach f as s) fun bs s => (.ok (b :: bs), s)

end Reply

namespace Value

/-- The array with the arrays in it opened, or null. -/
def flatten : Value → Value
  | .array items => .array (items.flatMap opened)
  | _ => .null

/-- The elements that a projection runs over, if the value is of the kind it asks for. -/
def projected? : SourceKind → Value → Option (List Value)
  | .array, .array items => some items
  | .object, .object entries => some (Entries.values entries)
  | _, _ => none

end Value

namespace Query

open Reply

variable {σ : Type}

mutual

/-- The answer of a query on a value. -/
def eval (host : Host σ) : Query → Value → σ → Reply σ Value
  | .literal value, _, s => (.ok value, s)
  | .field name, value, s => (.ok (value.field name), s)
  | .index i, value, s => (.ok (value.item i), s)
  | .current, value, s => (.ok value, s)
  | .subexpression left right, value, s =>
    andThen (left.eval host value s) fun v s =>
      if v.isNull then (.ok .null, s) else right.eval host v s
  | .pipe left right, value, s =>
    andThen (left.eval host value s) fun v s => right.eval host v s
  | .or left right, value, s =>
    andThen (left.eval host value s) fun v s =>
      if v.truthy then (.ok v, s) else right.eval host value s
  | .and left right, value, s =>
    andThen (left.eval host value s) fun v s =>
      if v.truthy then right.eval host value s else (.ok v, s)
  | .not query, value, s =>
    andThen (query.eval host value s) fun v s => (.ok (.boolean !v.truthy), s)
  | .flatten query, value, s =>
    andThen (query.eval host value s) fun v s => (.ok v.flatten, s)
  | .projection source left right, value, s =>
    andThen (left.eval host value s) fun v s =>
      match v.projected? source with
      | none => (.ok .null, s)
      | some elements =>
        andThen (forEach (fun element s => right.eval host element s) elements s) fun vs s =>
          (.ok (.array (vs.filter fun v => !v.isNull)), s)
  | .comparator op left right, value, s =>
    andThen (left.eval host value s) fun a s =>
      andThen (right.eval host value s) fun b s =>
        (.ok (if op.compare a b then value else .null), s)
  | .list items, value, s =>
    if value.isNull then (.ok .null, s)
    else andThen (evalAll host items value s) fun vs s => (.ok (.array vs), s)
  | .hash entries, value, s =>
    if value.isNull then (.ok .null, s)
    else andThen (evalEntries host entries value s) fun pairs s =>
      (.ok (.object (Entries.ofPairs pairs)), s)
  | .call name args, value, s =>
    andThen (evalAll host args value s) fun vs s => host.invoke name vs s
  | .slice start stop step, value, s => host.invoke "slice" (value :: bounds start stop step) s
  | .reference site node, _, s => (.ok (.expref (.site site) node), s)

/-- The answers of several queries on one value. -/
def evalAll (host : Host σ) : List Query → Value → σ → Reply σ (List Value)
  | [], _, s => (.ok [], s)
  | query :: queries, value, s =>
    andThen (query.eval host value s) fun v s =>
      andThen (evalAll host queries value s) fun vs s => (.ok (v :: vs), s)

/-- The answers of several queries on one value, each with its key. -/
def evalEntries (host : Host σ) :
    List (String × Query) → Value → σ → Reply σ (List (String × Value))
  | [], _, s => (.ok [], s)
  | (key, query) :: entries, value, s =>
    andThen (query.eval host value s) fun v s =>
      andThen (evalEntries host entries value s) fun pairs s => (.ok ((key, v) :: pairs), s)

end

end Query

end PathQuery
