import Mathlib
import PathQuery.Proofs.Interchange
import PathQuery.Proofs.Names
import PathQuery.Value.Literal

/-!
# Data is known by its text

Compact JSON and the literals of listings are written alike, up to blanks, escapes and the layout of
floats. `Format.text` is what they have in common:

* `Format.Clear.lexes_text`: what the text of a value is read as;
* `Format.Clear.tree_inj`: a value is known by what its text is read as, in a format that can tell
  floats apart;
* `Json.compact_eq_text`, `Value.Portable.literal_eq_text`: compact JSON and literals are in such
  formats.
-/

namespace PathQuery

/-- A way to write data. -/
structure Format where
  comma : String
  colon : String
  float : Binary64 → String
  escape : Char → String

namespace Format

variable (f : Format)

def quote (s : String) : String := "\"" ++ String.join (s.toList.map f.escape) ++ "\""

mutual

/-- The text of a value in a format. -/
def text : Json → String
  | .null => "null"
  | .bool b => if b then "true" else "false"
  | .integer n => toString n
  | .float x => f.float x
  | .string s => f.quote s
  | .array items => "[" ++ f.comma.intercalate (textItems items) ++ "]"
  | .object members => "\x7b" ++ f.comma.intercalate (textMembers members) ++ "\x7d"

@[inherit_doc text]
def textItems : List Json → List String
  | [] => []
  | item :: items => text item :: textItems items

@[inherit_doc text]
def textMembers : List (String × Json) → List String
  | [] => []
  | (key, item) :: members => (f.quote key ++ f.colon ++ text item) :: textMembers members

end

/-- What a quoted text is read as. -/
def quoted (s : String) : Tree := .atom (.quoted (s.toList.flatMap fun c => (f.escape c).toList))

mutual

/-- What the text of a value is read as. -/
def tree : Json → Tree
  | .null => .atom (.word "null".toList)
  | .bool b => .atom (.word (if b then "true" else "false").toList)
  | .integer n => .atom (.word (toString n).toList)
  | .float x => .atom (.word (f.float x).toList)
  | .string s => f.quoted s
  | .array items => .group '[' (Tree.commas (treeItems items))
  | .object members => .group '\x7b' (Tree.commas (treeMembers members))

@[inherit_doc tree]
def treeItems : List Json → List (List Tree)
  | [] => []
  | item :: items => [tree item] :: treeItems items

@[inherit_doc tree]
def treeMembers : List (String × Json) → List (List Tree)
  | [] => []
  | (key, item) :: members => [f.quoted key, .atom (.mark ':'), tree item] :: treeMembers members

end

theorem textItems_eq_map (items : List Json) : f.textItems items = items.map f.text := by
  induction items with
  | nil => rfl
  | cons item items ih => rw [textItems, ih, List.map_cons]

theorem textMembers_eq_map (members : List (String × Json)) :
    f.textMembers members =
      members.map fun member => f.quote member.1 ++ f.colon ++ f.text member.2 := by
  induction members with
  | nil => rfl
  | cons member members ih => rw [textMembers, ih, List.map_cons]

theorem treeItems_eq_map (items : List Json) :
    f.treeItems items = items.map fun item => [f.tree item] := by
  induction items with
  | nil => rfl
  | cons item items ih => rw [treeItems, ih, List.map_cons]

theorem treeMembers_eq_map (members : List (String × Json)) :
    f.treeMembers members =
      members.map fun member => [f.quoted member.1, .atom (.mark ':'), f.tree member.2] := by
  induction members with
  | nil => rfl
  | cons member members ih => rw [treeMembers, ih, List.map_cons]

/-- The format can be read, and the floats with the property are told from each other and from all
else. -/
structure Clear (ok : Binary64 → Prop) : Prop where
  comma : Breaks f.comma [.atom (.mark ',')]
  comma_divides : Divides f.comma
  colon : Breaks f.colon [.atom (.mark ':')]
  escape : ∀ c, Escape c (f.escape c).toList
  float_word : ∀ x, ok x → ∀ c ∈ (f.float x).toList, isWord c = true
  float_not_integer : ∀ x, ok x → ∃ c ∈ (f.float x).toList, c.isDigit = false ∧ c ≠ '-'
  float_not_scalar : ∀ x, ok x → (f.float x).toList ∉ scalarWords
  float_inj : ∀ x y, ok x → ok y → f.float x = f.float y → x = y

end Format

/-- All floats in the JSON value have the property. -/
inductive Json.Floats (ok : Binary64 → Prop) : Json → Prop
  | null : Floats ok .null
  | bool (b : Bool) : Floats ok (.bool b)
  | integer (n : Int) : Floats ok (.integer n)
  | float {x : Binary64} : ok x → Floats ok (.float x)
  | string (s : String) : Floats ok (.string s)
  | array {items : List Json} : (∀ item ∈ items, Floats ok item) → Floats ok (.array items)
  | object {members : List (String × Json)} : (∀ member ∈ members, Floats ok member.2) →
    Floats ok (.object members)

theorem Json.Valid.floats {json : Json} (h : json.Valid) :
    json.Floats fun x => x.isFinite = true := by
  induction h with
  | null => exact .null
  | bool b => exact .bool b
  | integer _ _ => exact .integer _
  | float hx => exact .float hx
  | string s => exact .string s
  | array _ ih => exact .array ih
  | object _ ih => exact .object ih

/-! ## Integers -/

/-- An integer is written with digits and a minus sign. -/
theorem integer_chars (n : Int) :
    (toString n).toList ≠ [] ∧ ∀ c ∈ (toString n).toList, c.isDigit = true ∨ c = '-' := by
  have hdigits (k : Nat) : ∀ c ∈ k.repr.toList, c.isDigit = true ∨ c = '-' := by
    intro c hc
    rw [Nat.toList_repr] at hc
    exact .inl (Numeral.toDigits_digits k c hc)
  rw [Int.toString_eq_repr, Int.repr_eq_if]
  split
  · exact ⟨by rw [Nat.toList_repr]; exact Nat.toDigits_ne_nil, hdigits _⟩
  · rw [String.toList_append]
    exact ⟨by simp, List.forall_mem_cons.2 ⟨.inr rfl, hdigits _⟩⟩

theorem integer_notMem_scalarWords (n : Int) : (toString n).toList ∉ scalarWords := by
  have hscalar : ∀ word ∈ scalarWords, ∃ c ∈ word, c.isDigit = false ∧ c ≠ '-' := by
    simp [scalarWords]
  intro hmem
  obtain ⟨c, hc, hdigit, hminus⟩ := hscalar _ hmem
  rcases (integer_chars n).2 c hc with h | h
  · rw [h] at hdigit
    cases hdigit
  · exact hminus h

theorem lexes_integer (n : Int) : Lexes (toString n) [.atom (.word (toString n).toList)] := by
  refine lexes_word (integer_chars n).1 fun c hc => ?_
  rcases (integer_chars n).2 c hc with h | rfl
  · exact Numeral.isWord_of_isDigit h
  · rfl

theorem lexes_natural (n : Nat) : Lexes (toString n) [.atom (.word (toString n).toList)] :=
  lexes_integer n

namespace Format

variable {f : Format} {ok : Binary64 → Prop}

/-! ## Reading a value -/

theorem Clear.breaks_quote (hf : f.Clear ok) (s : String) :
    Breaks (f.quote s) (Tree.flatten [f.quoted s]) :=
  breaks_quoted hf.escape s

theorem forall₂_textItems {items : List Json}
    (h : ∀ item ∈ items, Lexes (f.text item) (Tree.flatten [f.tree item])) :
    List.Forall₂ (fun part trees => Lexes part (Tree.flatten trees)) (f.textItems items)
      (f.treeItems items) := by
  induction items with
  | nil => exact .nil
  | cons item items ih =>
    obtain ⟨hitem, hitems⟩ := List.forall_mem_cons.1 h
    exact .cons hitem (ih hitems)

theorem forall₂_textMembers (hf : f.Clear ok) {members : List (String × Json)}
    (h : ∀ member ∈ members, Lexes (f.text member.2) (Tree.flatten [f.tree member.2])) :
    List.Forall₂ (fun part trees => Lexes part (Tree.flatten trees)) (f.textMembers members)
      (f.treeMembers members) := by
  induction members with
  | nil => exact .nil
  | cons member members ih =>
    obtain ⟨hmember, hmembers⟩ := List.forall_mem_cons.1 h
    exact .cons (((hf.breaks_quote member.1).append hf.colon).append_lexes hmember) (ih hmembers)

/-- What the text of a value is read as. -/
theorem Clear.lexes_text (hf : f.Clear ok) {json : Json} (h : json.Floats ok) :
    Lexes (f.text json) (Tree.flatten [f.tree json]) := by
  induction h with
  | null => exact lexes_word (by simp [text]) (by simp [text, isWord])
  | bool b => cases b <;> exact lexes_word (by simp [text]) (by simp [text, isWord])
  | integer n => exact lexes_integer n
  | @float x hx =>
    obtain ⟨c, hc, -⟩ := hf.float_not_integer x hx
    exact lexes_word (List.ne_nil_of_mem hc) (hf.float_word x hx)
  | string s => exact (hf.breaks_quote s).lexes
  | @array items _ ih =>
    have hitems := lexes_intercalate hf.comma hf.comma_divides (forall₂_textItems ih)
    exact (breaks_group (fun _ => rfl) hitems (fun _ => rfl) (by simp [Divides, isWord])).lexes
  | @object members _ ih =>
    have hmembers := lexes_intercalate hf.comma hf.comma_divides (forall₂_textMembers hf ih)
    exact (breaks_group (fun _ => rfl) hmembers (fun _ => rfl) (by simp [Divides, isWord])).lexes

/-! ## Telling values apart -/

theorem Clear.quoted_inj (hf : f.Clear ok) {s t : String} (h : f.quoted s = f.quoted t) :
    s = t := by
  simp only [quoted, Tree.atom.injEq, Atom.quoted.injEq] at h
  exact String.toList_inj.1 (flatMap_escape_inj hf.escape h)

/-- What one of the scalar words stands for. -/
def scalarOf (word : List Char) : Json :=
  if word = "null".toList then .null else .bool (word = "true".toList)

/-- What is written as a word. -/
theorem word_cases {json : Json} (h : json.Floats ok) {word : List Char}
    (hw : f.tree json = .atom (.word word)) :
    (word ∈ scalarWords ∧ json = scalarOf word) ∨
      (∃ n, json = .integer n ∧ word = (toString n).toList) ∨
      ∃ x, ok x ∧ json = .float x ∧ word = (f.float x).toList := by
  cases h with
  | null =>
    simp only [tree, Tree.atom.injEq, Atom.word.injEq] at hw
    subst hw
    exact .inl (by simp [scalarWords, scalarOf])
  | bool b =>
    simp only [tree, Tree.atom.injEq, Atom.word.injEq] at hw
    subst hw
    cases b <;> exact .inl (by simp [scalarWords, scalarOf])
  | integer n =>
    simp only [tree, Tree.atom.injEq, Atom.word.injEq] at hw
    exact .inr (.inl ⟨n, rfl, hw.symm⟩)
  | @float x hx =>
    simp only [tree, Tree.atom.injEq, Atom.word.injEq] at hw
    exact .inr (.inr ⟨x, hx, rfl, hw.symm⟩)
  | string _ => simp [tree, quoted] at hw
  | array _ => simp [tree] at hw
  | object _ => simp [tree] at hw

theorem Clear.integer_ne_float (hf : f.Clear ok) (n : Int) {x : Binary64} (hx : ok x) :
    (toString n).toList ≠ (f.float x).toList := by
  intro heq
  obtain ⟨c, hc, hdigit, hminus⟩ := hf.float_not_integer x hx
  rcases (integer_chars n).2 c (heq ▸ hc) with h | h
  · rw [h] at hdigit
    cases hdigit
  · exact hminus h

/-- A value that is written as a word is known by the word. -/
theorem Clear.word_inj (hf : f.Clear ok) {json other : Json} (h : json.Floats ok)
    (ho : other.Floats ok) {word : List Char} (hw : f.tree json = .atom (.word word))
    (hwo : f.tree other = .atom (.word word)) : json = other := by
  rcases word_cases h hw with ⟨hmem, rfl⟩ | ⟨n, rfl, rfl⟩ | ⟨x, hx, rfl, rfl⟩
  · rcases word_cases ho hwo with ⟨-, rfl⟩ | ⟨m, rfl, rfl⟩ | ⟨y, hy, rfl, rfl⟩
    · rfl
    · exact absurd hmem (integer_notMem_scalarWords m)
    · exact absurd hmem (hf.float_not_scalar y hy)
  · rcases word_cases ho hwo with ⟨hmem, rfl⟩ | ⟨m, rfl, heq⟩ | ⟨y, hy, rfl, heq⟩
    · exact absurd hmem (integer_notMem_scalarWords n)
    · rw [String.toList_inj, Int.toString_eq_repr, Int.toString_eq_repr] at heq
      rw [Int.repr_injective heq]
    · exact absurd heq (hf.integer_ne_float n hy)
  · rcases word_cases ho hwo with ⟨hmem, rfl⟩ | ⟨m, rfl, heq⟩ | ⟨y, hy, rfl, heq⟩
    · exact absurd hmem (hf.float_not_scalar x hx)
    · exact absurd heq.symm (hf.integer_ne_float m hx)
    · rw [hf.float_inj x y hx hy (String.toList_inj.1 heq)]

theorem tree_ne_mark (json : Json) (c : Char) : f.tree json ≠ .atom (.mark c) := by
  cases json <;> simp [tree, quoted]

theorem isItem_tree (json : Json) : Tree.IsItem [f.tree json] := by
  simpa [Tree.IsItem] using (tree_ne_mark json ',').symm

theorem isItem_of_mem_treeItems {items : List Json} :
    ∀ trees ∈ f.treeItems items, Tree.IsItem trees := by
  rw [treeItems_eq_map]
  exact List.forall_mem_map.2 fun item _ => isItem_tree item

theorem isItem_of_mem_treeMembers {members : List (String × Json)} :
    ∀ trees ∈ f.treeMembers members, Tree.IsItem trees := by
  rw [treeMembers_eq_map]
  refine List.forall_mem_map.2 fun member _ => ?_
  simpa [Tree.IsItem, quoted] using (tree_ne_mark member.2 ',').symm

end Format

/-- Lists with one image are related item by item if items with one image are. -/
theorem forall₂_of_map_eq_map {α β : Type} {g : α → β} {R : α → α → Prop} {as bs : List α}
    (h : ∀ a ∈ as, ∀ b ∈ bs, g a = g b → R a b) (heq : as.map g = bs.map g) :
    List.Forall₂ R as bs := by
  induction as generalizing bs with
  | nil =>
    rw [List.map_eq_nil_iff.1 heq.symm]
    exact .nil
  | cons a as ih =>
    cases bs with
    | nil => cases heq
    | cons b bs =>
      obtain ⟨hhead, htail⟩ := List.cons.inj heq
      exact .cons (h a List.mem_cons_self b List.mem_cons_self hhead) (ih (fun a ha b hb =>
        h a (List.mem_cons_of_mem _ ha) b (List.mem_cons_of_mem _ hb)) htail)

/-- A list is known by its image if its members are. -/
theorem eq_of_map_eq_map {α β : Type} {g : α → β} {as bs : List α}
    (h : ∀ a ∈ as, ∀ b ∈ bs, g a = g b → a = b) (heq : as.map g = bs.map g) : as = bs :=
  List.forall₂_eq_eq_eq ▸ forall₂_of_map_eq_map h heq

namespace Format

variable {f : Format} {ok : Binary64 → Prop}

/-- A value is known by what its text is read as. -/
theorem Clear.tree_inj (hf : f.Clear ok) {json other : Json} (h : json.Floats ok)
    (ho : other.Floats ok) (heq : f.tree json = f.tree other) : json = other := by
  induction h generalizing other with
  | null => exact hf.word_inj .null ho rfl heq.symm
  | bool b => exact hf.word_inj (.bool b) ho rfl heq.symm
  | integer n => exact hf.word_inj (.integer n) ho rfl heq.symm
  | float hx => exact hf.word_inj (.float hx) ho rfl heq.symm
  | string s =>
    cases ho with
    | string t => rw [hf.quoted_inj heq]
    | _ => simp [tree, quoted] at heq
  | @array items _ ih =>
    cases ho with
    | @array others hos =>
      simp only [tree, Tree.group.injEq, true_and] at heq
      have hitems := Tree.commas_inj isItem_of_mem_treeItems isItem_of_mem_treeItems heq
      rw [treeItems_eq_map, treeItems_eq_map] at hitems
      rw [eq_of_map_eq_map (fun a ha b hb hab => ih a ha (hos b hb) (List.cons.inj hab).1) hitems]
    | _ => simp [tree, quoted] at heq
  | @object members _ ih =>
    cases ho with
    | @object others hos =>
      simp only [tree, Tree.group.injEq, true_and] at heq
      have hmembers := Tree.commas_inj isItem_of_mem_treeMembers isItem_of_mem_treeMembers heq
      rw [treeMembers_eq_map, treeMembers_eq_map] at hmembers
      rw [eq_of_map_eq_map (fun a ha b hb hab => ?_) hmembers]
      simp only [List.cons.injEq, true_and, and_true] at hab
      exact Prod.ext (hf.quoted_inj hab.1) (ih a ha (hos b hb) hab.2)
    | _ => simp [tree, quoted] at heq

/-- A format that writes finite numbers in some layout tells them apart. -/
theorem clear_of_layout {f : Format} (layout : Layout)
    (hfloat : ∀ x : Binary64, x.isFinite = true → f.float x = layout.render x)
    (hcomma : Breaks f.comma [.atom (.mark ',')]) (hdivides : Divides f.comma)
    (hcolon : Breaks f.colon [.atom (.mark ':')])
    (hescape : ∀ c, Escape c (f.escape c).toList) : f.Clear fun x => x.isFinite = true where
  comma := hcomma
  comma_divides := hdivides
  colon := hcolon
  escape := hescape
  float_word := fun x hx => hfloat x hx ▸ (layout.word_render x).1
  float_not_integer := fun x hx => hfloat x hx ▸ (layout.word_render x).2.2
  float_not_scalar := by
    intro x hx hmem
    rw [hfloat x hx] at hmem
    have hscalar : ∀ word ∈ scalarWords, ∀ c ∈ word.head?, c ≠ '-' ∧ c.isDigit = false := by
      simp [scalarWords]
    obtain ⟨-, ⟨c, hc, hfirst⟩, -⟩ := layout.word_render x
    obtain ⟨hminus, hdigit⟩ := hscalar _ hmem c hc
    rcases hfirst with h | h
    · exact hminus h
    · rw [h] at hdigit
      cases hdigit
  float_inj := by
    intro x y hx hy heq
    rw [hfloat x hx, hfloat y hy] at heq
    exact layout.render_inj heq

end Format

/-! ## Compact JSON -/

namespace Json

/-- The format of compact JSON. -/
def compactFormat : Format where
  comma := ","
  colon := ":"
  float := fun x => if x.isFinite then numberLayout.render x else "null"
  escape := escape

theorem clear_compactFormat : compactFormat.Clear fun x => x.isFinite = true :=
  Format.clear_of_layout numberLayout (fun _ hx => if_pos hx) (fun _ => rfl)
    (by simp [Divides, compactFormat, isWord]) (fun _ => rfl) escape_escape

theorem compactItems_eq_text {items : List Json}
    (h : ∀ item ∈ items, item.compact = compactFormat.text item) :
    compactItems items = compactFormat.textItems items := by
  induction items with
  | nil => rfl
  | cons item items ih =>
    obtain ⟨hitem, hitems⟩ := List.forall_mem_cons.1 h
    rw [compactItems, Format.textItems, hitem, ih hitems]

theorem compactMembers_eq_text {members : List (String × Json)}
    (h : ∀ member ∈ members, member.2.compact = compactFormat.text member.2) :
    compactMembers members = compactFormat.textMembers members := by
  induction members with
  | nil => rfl
  | cons member members ih =>
    obtain ⟨hmember, hmembers⟩ := List.forall_mem_cons.1 h
    rw [compactMembers, Format.textMembers, hmember, ih hmembers]
    rfl

theorem compact_eq_text (json : Json) : json.compact = compactFormat.text json := by
  induction json with
  | null | bool b | integer n | float x | string s => rfl
  | array items ih => rw [compact, compactItems_eq_text ih]; rfl
  | object members ih => rw [compact, compactMembers_eq_text ih]; rfl

end Json

/-! ## Literals -/

namespace Value

/-- The format of literals. -/
def literalFormat : Format where
  comma := ", "
  colon := ": "
  float := floatLiteral
  escape := Text.escape

theorem clear_literalFormat : literalFormat.Clear fun x => x.isFinite = true :=
  Format.clear_of_layout floatLayout (fun _ hx => if_pos hx) (fun _ => rfl)
    (by simp [Divides, literalFormat, isWord]) (fun _ => rfl) Text.escape_escape

theorem literalItems_eq_map (items : List Value) : literalItems items = items.map literal := by
  induction items with
  | nil => rfl
  | cons item items ih => rw [literalItems, ih, List.map_cons]

theorem literalEntries_eq_map (entries : List (String × Value)) :
    literalEntries entries =
      entries.map fun entry => Text.quote entry.1 ++ ": " ++ entry.2.literal := by
  induction entries with
  | nil => rfl
  | cons entry entries ih => rw [literalEntries, ih, List.map_cons]

section

variable {json : Value → Json}

theorem literalItems_eq_text {items : List Value}
    (h : ∀ item ∈ items, item.literal = literalFormat.text (json item)) :
    literalItems items = literalFormat.textItems (items.map json) := by
  rw [literalItems_eq_map, Format.textItems_eq_map, List.map_map]
  exact List.map_congr_left h

theorem literalEntries_eq_text {entries : List (String × Value)}
    (h : ∀ entry ∈ entries, entry.2.literal = literalFormat.text (json entry.2)) :
    literalEntries entries =
      literalFormat.textMembers (entries.map fun entry => (entry.1, json entry.2)) := by
  rw [literalEntries_eq_map, Format.textMembers_eq_map, List.map_map]
  refine List.map_congr_left fun entry he => ?_
  rw [h entry he]
  rfl

end

/-- The literal of a portable value is its JSON form, in another format. -/
theorem Portable.literal_eq_text {value : Value} (h : value.Portable) :
    value.literal = literalFormat.text value.toJson := by
  induction h with
  | null | boolean b | integer _ | string s => rfl
  | float hx => rw [toJson, if_pos hx]; rfl
  | array _ ih => rw [literal, toJson, literalItems_eq_text ih, toJsonItems_eq_map]; rfl
  | object _ ih => rw [literal, toJson, literalEntries_eq_text ih, toJsonEntries_eq_map]; rfl

theorem Portable.valid_toJson {value : Value} (h : value.Portable) : value.toJson.Valid := by
  induction h with
  | null => exact .null
  | boolean b => exact .bool b
  | @integer n hn =>
    simp only [fits, Bool.and_eq_true, decide_eq_true_eq] at hn
    exact .integer (by omega) (by omega)
  | float hx =>
    rw [toJson, if_pos hx]
    exact .float hx
  | string s => exact .string s
  | array _ ih =>
    rw [toJson, toJsonItems_eq_map]
    exact .array (List.forall_mem_map.2 ih)
  | object _ ih =>
    rw [toJson, toJsonEntries_eq_map]
    exact .object (List.forall_mem_map.2 ih)

/-- What the literal of a portable value is read as. -/
def tree (value : Value) : Tree := literalFormat.tree value.toJson

theorem Portable.lexes_literal {value : Value} (h : value.Portable) :
    Lexes value.literal (Tree.flatten [value.tree]) := by
  rw [h.literal_eq_text]
  exact clear_literalFormat.lexes_text h.valid_toJson.floats

/-- A portable value is known by what its literal is read as. -/
theorem Portable.tree_inj {value other : Value} (h : value.Portable) (ho : other.Portable)
    (heq : value.tree = other.tree) : value = other := by
  have hjson := clear_literalFormat.tree_inj h.valid_toJson.floats ho.valid_toJson.floats heq
  rw [← (ofJson_toJson_iff value).2 h, hjson, (ofJson_toJson_iff other).2 ho]

end Value

/-! ## Nodes -/

namespace Node

theorem Portable.valid_toJson {node : Node} (h : node.Portable) : node.toJson.Valid := by
  induction h with
  | @mk kind value children source _ _ hvalue _ ih =>
    simp only [toJson, toJsonList_eq_map]
    refine .object (List.forall_mem_append.2 ⟨List.forall_mem_append.2
      ⟨List.forall_mem_append.2 ⟨?_, ?_⟩, ?_⟩, ?_⟩)
    · simpa using .string _
    · cases value with
      | none => simp
      | some v => simpa using (hvalue v rfl).valid_toJson
    · split
      · simp
      · simpa using .array (List.forall_mem_map.2 ih)
    · cases source with
      | none => simp
      | some source => simpa using .string _

/-- What the text of a node is read as. -/
def tree (node : Node) : Tree := Json.compactFormat.tree node.toJson

theorem Portable.lexes_text {node : Node} (h : node.Portable) :
    Lexes node.text (Tree.flatten [node.tree]) := by
  rw [text, Json.compact_eq_text]
  exact Json.clear_compactFormat.lexes_text h.valid_toJson.floats

/-- A portable node is known by what its text is read as. -/
theorem Portable.tree_inj {node other : Node} (h : node.Portable) (ho : other.Portable)
    (heq : node.tree = other.tree) : node = other := by
  have hjson := Json.clear_compactFormat.tree_inj h.valid_toJson.floats ho.valid_toJson.floats heq
  have hread := (ofJson_toJson_iff node).2 h
  rw [hjson, (ofJson_toJson_iff other).2 ho] at hread
  exact (Except.ok.inj hread).symm

end Node

end PathQuery
