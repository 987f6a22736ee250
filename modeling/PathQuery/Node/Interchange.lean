import PathQuery.Json.Reader
import PathQuery.Json.Writer
import PathQuery.Node.Basic
import PathQuery.Value.Interchange

/-!
# The interchange form of nodes

A node is written as a JSON object with a `type` member and, where the node has them, `value`,
`children` and `source` members. Reading also takes `kind` for a missing `type`, the second
spellings of kinds, and the bounds of a slice as its `children`.
-/

namespace PathQuery

/-- What is wrong with the interchange form of a node. -/
inductive NodeError where
  /-- The text is not JSON. -/
  | invalidJson
  | expectedNode (json : Json)
  | missingKind (json : Json)
  | invalidSource (json : Json)
  | invalidChildren (kind : Kind)

namespace NodeError

def message : NodeError → String
  | .invalidJson => "invalid AST JSON: malformed text"
  | .expectedNode json => "expected an AST node object, got " ++ json.compact
  | .missingKind json => "AST node has no \"type\" member: " ++ json.compact
  | .invalidSource json =>
    "unknown projection source " ++ json.compact ++ ", expected \"array\" or \"object\""
  | .invalidChildren kind => "\"children\" of a " ++ kind.name ++ " node must be an array"

end NodeError

namespace Node

/-- The kind that the members of a node name. A `type` that is not a string is not made good by a
`kind`. -/
def kindOf? (members : Entries Json) : Option Kind :=
  match (members.lookup "type").orElse fun _ => members.lookup "kind" with
  | some (.string name) => some (Kind.ofName name)
  | _ => none

/-- The projection source that the members of a node name, if they name one. -/
def sourceOf (members : Entries Json) : Except NodeError (Option SourceKind) :=
  match members.lookup "source" with
  | none | some .null => .ok none
  | some (.string name) =>
    match SourceKind.ofName? name with
    | some source => .ok (some source)
    | none => .error (.invalidSource (.string name))
  | some json => .error (.invalidSource json)

/-- The bounds of a slice that are given as its children. -/
def boundsOf? (members : Entries Json) : Option Value :=
  match members.lookup "children" with
  | some (.array items) => some (Value.ofJson (.array items))
  | _ => none

/-- The value of a node: its `value` member, which for a slice may be replaced by its `children`.
-/
def valueOf? (kind : Kind) (members : Entries Json) : Option Value :=
  match members.lookup "value", kind with
  | some json, _ => some (Value.ofJson json)
  | none, .slice => boundsOf? members
  | none, _ => none

mutual

/-- Reads a node. The kind is checked first, then the source, then the children from left to
right. -/
def ofJson : Json → Except NodeError Node
  | .object members => do
    let some kind := kindOf? members | .error (.missingKind (.object members))
    let source ← sourceOf members
    let children ← childrenOf kind members
    return ⟨kind, valueOf? kind members, children, source⟩
  | json => .error (.expectedNode json)

/-- Reads the children that the members of a node hold. A slice has none. -/
def childrenOf (kind : Kind) : List (String × Json) → Except NodeError (List Node)
  | [] => .ok []
  | (key, json) :: members =>
    if key = "children" then
      match json with
      | .null => .ok []
      | .array items => if kind = .slice then .ok [] else ofJsonItems items
      | _ => .error (.invalidChildren kind)
    else childrenOf kind members

def ofJsonItems : List Json → Except NodeError (List Node)
  | [] => .ok []
  | item :: items => do
    let node ← ofJson item
    let nodes ← ofJsonItems items
    return node :: nodes

end

/-- Reads a node from the text of its interchange form. -/
def parse (text : String) : Except NodeError Node :=
  match Json.parse? text with
  | some json => ofJson json
  | none => .error .invalidJson

mutual

/-- Writes a node under the canonical name of its kind. -/
def toJson : Node → Json
  | ⟨kind, value, children, source⟩ =>
    .object <|
      [("type", .string kind.name)] ++
      (match value with
        | some v => [("value", v.toJson)]
        | none => []) ++
      (match toJsonList children with
        | [] => []
        | items => [("children", .array items)]) ++
      (match source with
        | some s => [("source", .string s.name)]
        | none => [])

@[inherit_doc toJson]
def toJsonList : List Node → List Json
  | [] => []
  | node :: nodes => node.toJson :: toJsonList nodes

end

/-- The text of a node: its interchange form without blanks. -/
def text (node : Node) : String := node.toJson.compact

end Node

end PathQuery
