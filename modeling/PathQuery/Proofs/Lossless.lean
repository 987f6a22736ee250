import Mathlib
import PathQuery.Proofs.Literals

/-!
# Literals lose nothing

A value without expression references is known by its literal, floats that are not finite included.
All that is not a number has one text, so floats are known up to that:

* `Value.floatLiteral_eq_iff`: which floats have one text;
* `Value.Same`: values that differ in nothing but floats with one text;
* `Value.literal_lossless`: exactly such values have one literal.
-/

namespace PathQuery

/-! ## Floats -/

theorem Layout.exists_digit_render (layout : Layout) (x : Binary64) :
    ∃ c ∈ (layout.render x).toList, c.isDigit = true := by
  obtain ⟨n, hn, htext, -⟩ := layout.unsigned_numeral x
  obtain ⟨d, ds, hwhole⟩ := List.exists_cons_of_ne_nil hn.whole_ne_nil
  refine ⟨d, ?_, hn.whole_digits d (hwhole ▸ List.mem_cons_self)⟩
  rw [render_eq, String.toList_append, htext, Numeral.text, hwhole]
  simp

namespace Binary64

/-- The number, or one and the same float for all that is not a number. -/
def canonical (x : Binary64) : Binary64 := if x.isNaN then ofBits 0x7FF8000000000000 else x

theorem canonical_of_isNaN {x : Binary64} (h : x.isNaN = true) :
    x.canonical = ofBits 0x7FF8000000000000 :=
  if_pos h

theorem canonical_of_not_isNaN {x : Binary64} (h : x.isNaN = false) : x.canonical = x := by
  rw [canonical, h, if_neg (by decide)]

theorem canonical_canonical (x : Binary64) : x.canonical.canonical = x.canonical := by
  cases h : x.isNaN with
  | true =>
    rw [canonical_of_isNaN h]
    rfl
  | false => rw [canonical_of_not_isNaN h, canonical_of_not_isNaN h]

theorem isNaN_canonical (x : Binary64) : x.canonical.isNaN = x.isNaN := by
  cases h : x.isNaN with
  | true =>
    rw [canonical_of_isNaN h]
    rfl
  | false => rw [canonical_of_not_isNaN h, h]

theorem canonical_eq_iff {x y : Binary64} :
    x.canonical = y.canonical ↔ x = y ∨ x.isNaN = true ∧ y.isNaN = true := by
  constructor
  · intro h
    have hnan : x.isNaN = y.isNaN := by rw [← isNaN_canonical x, h, isNaN_canonical]
    cases hx : x.isNaN with
    | true => exact .inr ⟨rfl, hnan.symm.trans hx⟩
    | false =>
      rw [canonical_of_not_isNaN hx, canonical_of_not_isNaN (hnan.symm.trans hx)] at h
      exact .inl h
  · rintro (rfl | ⟨hx, hy⟩)
    · rfl
    · rw [canonical_of_isNaN hx, canonical_of_isNaN hy]

/-- There is one infinity of each sign. -/
theorem eq_of_infinite {x y : Binary64} (hx : x.isFinite = false) (hnx : x.isNaN = false)
    (hy : y.isFinite = false) (hny : y.isNaN = false) (h : x.negative = y.negative) : x = y := by
  obtain ⟨sign, exponent, fraction⟩ := x
  obtain ⟨sign', exponent', fraction'⟩ := y
  simp [isFinite, isNaN] at hx hnx hy hny h
  have he : exponent = exponent' := Fin.ext (by omega)
  have hf : fraction = fraction' := Fin.ext (by omega)
  rw [h, he, hf]

end Binary64

namespace Value

open Binary64

/-- The texts of the floats that are not finite. -/
def infiniteWords : List String := ["NaN", "inf", "-inf"]

theorem floatLiteral_mem_infiniteWords {x : Binary64} (h : x.isFinite = false) :
    floatLiteral x ∈ infiniteWords := by
  rw [floatLiteral, h, if_neg (by decide)]
  split_ifs <;> simp [infiniteWords]

/-- They are words without digits that can be told from integers and from the other words of
literals. -/
theorem infiniteWords_spec : ∀ word ∈ infiniteWords, (∀ c ∈ word.toList, isWord c = true) ∧
    (∀ c ∈ word.toList, c.isDigit = false) ∧ (∃ c ∈ word.toList, c ≠ '-') ∧
    word.toList ∉ scalarWords := by
  simp [infiniteWords, isWord, scalarWords]

theorem floatLiteral_ne {x y : Binary64} (hx : x.isFinite = true) (hy : y.isFinite = false) :
    floatLiteral x ≠ floatLiteral y := by
  intro heq
  obtain ⟨c, hc, hdigit⟩ := floatLayout.exists_digit_render x
  have hrender : floatLiteral x = floatLayout.render x := if_pos hx
  rw [← hrender, heq] at hc
  have hno := (infiniteWords_spec _ (floatLiteral_mem_infiniteWords hy)).2.1 c hc
  rw [hdigit] at hno
  cases hno

theorem floatLiteral_of_infinite {x : Binary64} (h : x.isFinite = false) :
    floatLiteral x = if x.isNaN then "NaN" else if x.negative then "-inf" else "inf" := by
  rw [floatLiteral, h, if_neg (by decide)]

/-- A float is known by its text, if all that is not a number counts as one. -/
theorem floatLiteral_inj {x y : Binary64} (hx : x.canonical = x) (hy : y.canonical = y)
    (h : floatLiteral x = floatLiteral y) : x = y := by
  cases hfx : x.isFinite with
  | true =>
    cases hfy : y.isFinite with
    | true =>
      rw [floatLiteral, floatLiteral, if_pos hfx, if_pos hfy] at h
      exact floatLayout.render_inj h
    | false => exact absurd h (floatLiteral_ne hfx hfy)
  | false =>
    cases hfy : y.isFinite with
    | true => exact absurd h.symm (floatLiteral_ne hfy hfx)
    | false =>
      rw [floatLiteral_of_infinite hfx, floatLiteral_of_infinite hfy] at h
      cases hnx : x.isNaN <;> cases hny : y.isNaN <;> rw [hnx, hny] at h
      · refine eq_of_infinite hfx hnx hfy hny ?_
        cases hsx : x.negative <;> cases hsy : y.negative <;> simp [hsx, hsy] at h ⊢
      · cases hsx : x.negative <;> simp [hsx] at h
      · cases hsy : y.negative <;> simp [hsy] at h
      · rw [← hx, ← hy, canonical_of_isNaN hnx, canonical_of_isNaN hny]

theorem floatLiteral_canonical (x : Binary64) : floatLiteral x.canonical = floatLiteral x := by
  cases h : x.isNaN with
  | true =>
    have hfinite : x.isFinite = false :=
      Bool.eq_false_iff.2 fun hf => by simp [not_isNaN_of_isFinite hf] at h
    rw [canonical_of_isNaN h, floatLiteral_of_infinite hfinite, h]
    rfl
  | false => rw [canonical_of_not_isNaN h]

/-- Two floats have one text just if they are the same or both are not numbers. -/
theorem floatLiteral_eq_iff (x y : Binary64) :
    floatLiteral x = floatLiteral y ↔ x.canonical = y.canonical := by
  rw [← floatLiteral_canonical x, ← floatLiteral_canonical y]
  exact ⟨floatLiteral_inj (canonical_canonical x) (canonical_canonical y), congrArg floatLiteral⟩

/-! ## Values -/

/-- No expression reference stands in the value, at any depth of arrays and objects. -/
inductive Closed : Value → Prop
  | null : Closed .null
  | boolean (b : Bool) : Closed (.boolean b)
  | integer (n : Int) : Closed (.integer n)
  | float (x : Binary64) : Closed (.float x)
  | string (s : String) : Closed (.string s)
  | array {items : List Value} : (∀ item ∈ items, Closed item) → Closed (.array items)
  | object {entries : List (String × Value)} : (∀ entry ∈ entries, Closed entry.2) →
    Closed (.object entries)

/-- The values are the same, except that floats are only held to have one text: the same scalars and
strings, arrays item by item, and objects with the same keys in the same order, value by value. -/
inductive Same : Value → Value → Prop
  | null : Same .null .null
  | boolean (b : Bool) : Same (.boolean b) (.boolean b)
  | integer (n : Int) : Same (.integer n) (.integer n)
  | float {x y : Binary64} : floatLiteral x = floatLiteral y → Same (.float x) (.float y)
  | string (s : String) : Same (.string s) (.string s)
  | array {items others : List Value} : List.Forall₂ Same items others →
    Same (.array items) (.array others)
  | object {entries others : List (String × Value)} : Entries.keys entries = Entries.keys others →
    List.Forall₂ Same (Entries.values entries) (Entries.values others) →
    Same (.object entries) (.object others)

mutual

/-- The value as JSON data in which all that is not a number is one float. -/
def plain : Value → Json
  | .null => .null
  | .boolean b => .bool b
  | .integer n => .integer n
  | .float x => .float x.canonical
  | .string s => .string s
  | .array items => .array (plainItems items)
  | .object entries => .object (plainEntries entries)
  | .expref _ _ => .null

@[inherit_doc plain]
def plainItems : List Value → List Json
  | [] => []
  | item :: items => item.plain :: plainItems items

@[inherit_doc plain]
def plainEntries : List (String × Value) → List (String × Json)
  | [] => []
  | (key, item) :: entries => (key, item.plain) :: plainEntries entries

end

theorem plainItems_eq_map (items : List Value) : plainItems items = items.map plain := by
  induction items with
  | nil => rfl
  | cons item items ih => rw [plainItems, ih, List.map_cons]

theorem plainEntries_eq_map (entries : List (String × Value)) :
    plainEntries entries = entries.map fun entry => (entry.1, entry.2.plain) := by
  induction entries with
  | nil => rfl
  | cons entry entries ih => rw [plainEntries, ih, List.map_cons]

theorem floats_plain (value : Value) : value.plain.Floats fun x => x.canonical = x := by
  induction value with
  | null | expref => exact .null
  | boolean b => exact .bool b
  | integer n => exact .integer n
  | float x => exact .float (canonical_canonical x)
  | string s => exact .string s
  | array items ih =>
    rw [plain, plainItems_eq_map]
    exact .array (List.forall_mem_map.2 ih)
  | object entries ih =>
    rw [plain, plainEntries_eq_map]
    exact .object (List.forall_mem_map.2 ih)

theorem Closed.literal_eq_text {value : Value} (h : value.Closed) :
    value.literal = literalFormat.text value.plain := by
  induction h with
  | null | boolean | integer | string => rfl
  | float x => exact (floatLiteral_canonical x).symm
  | array _ ih => rw [literal, plain, literalItems_eq_text ih, plainItems_eq_map]; rfl
  | object _ ih => rw [literal, plain, literalEntries_eq_text ih, plainEntries_eq_map]; rfl

/-- Literals tell apart all floats but those that are not numbers. -/
theorem clear_canonical : literalFormat.Clear fun x => x.canonical = x where
  comma := clear_literalFormat.comma
  comma_divides := clear_literalFormat.comma_divides
  colon := clear_literalFormat.colon
  escape := clear_literalFormat.escape
  float_word := by
    intro x _
    cases hx : x.isFinite with
    | true => exact clear_literalFormat.float_word x hx
    | false => exact (infiniteWords_spec _ (floatLiteral_mem_infiniteWords hx)).1
  float_not_integer := by
    intro x _
    cases hx : x.isFinite with
    | true => exact clear_literalFormat.float_not_integer x hx
    | false =>
      obtain ⟨-, hdigit, ⟨c, hc, hminus⟩, -⟩ :=
        infiniteWords_spec _ (floatLiteral_mem_infiniteWords hx)
      exact ⟨c, hc, hdigit c hc, hminus⟩
  float_not_scalar := by
    intro x _
    cases hx : x.isFinite with
    | true => exact clear_literalFormat.float_not_scalar x hx
    | false => exact (infiniteWords_spec _ (floatLiteral_mem_infiniteWords hx)).2.2.2
  float_inj := fun _ _ => floatLiteral_inj

/-- The literal of a value gives away its plain form. -/
theorem plain_eq_of_literal {a b : Value} (ha : a.Closed) (hb : b.Closed)
    (h : a.literal = b.literal) : a.plain = b.plain := by
  have hlex (value : Value) (hv : value.Closed) :
      lex value.literal.toList = Tree.flatten [literalFormat.tree value.plain] := by
    have hread := clear_canonical.lexes_text value.floats_plain [] stops_nil
    rw [← hv.literal_eq_text, List.append_nil] at hread
    exact hread.trans (List.append_nil _)
  have htokens := (hlex a ha).symm.trans (h ▸ hlex b hb)
  have htree := (List.cons.inj (Tree.flatten_inj htokens)).1
  exact clear_canonical.tree_inj a.floats_plain b.floats_plain htree

theorem keys_eq_of_plainEntries {entries others : List (String × Value)}
    (h : plainEntries entries = plainEntries others) :
    Entries.keys entries = Entries.keys others := by
  have hfst := congrArg (List.map Prod.fst) h
  simpa [plainEntries_eq_map, Entries.keys, Function.comp_def] using hfst

theorem values_of_plainEntries {entries others : List (String × Value)}
    (h : plainEntries entries = plainEntries others) :
    (Entries.values entries).map plain = (Entries.values others).map plain := by
  have hsnd := congrArg (List.map Prod.snd) h
  simpa [plainEntries_eq_map, Entries.values, Function.comp_def] using hsnd

theorem same_of_plain {a b : Value} (ha : a.Closed) (hb : b.Closed) (h : a.plain = b.plain) :
    a.Same b := by
  induction ha generalizing b with
  | null =>
    cases hb with
    | null => exact .null
    | _ => cases h
  | boolean x =>
    cases hb with
    | boolean y =>
      cases h
      exact .boolean x
    | _ => cases h
  | integer n =>
    cases hb with
    | integer m =>
      cases h
      exact .integer n
    | _ => cases h
  | float x =>
    cases hb with
    | float y => exact .float ((floatLiteral_eq_iff x y).2 (Json.float.inj h))
    | _ => cases h
  | string s =>
    cases hb with
    | string t =>
      cases h
      exact .string s
    | _ => cases h
  | array _ ih =>
    cases hb with
    | array hothers =>
      rw [plain, plain, plainItems_eq_map, plainItems_eq_map] at h
      exact .array (forall₂_of_map_eq_map (fun a ha b hb => ih a ha (hothers b hb))
        (Json.array.inj h))
    | _ => cases h
  | object _ ih =>
    cases hb with
    | object hothers =>
      have hentries := Json.object.inj h
      refine .object (keys_eq_of_plainEntries hentries)
        (forall₂_of_map_eq_map (fun a ha b hb heq => ?_) (values_of_plainEntries hentries))
      obtain ⟨entry, he, rfl⟩ := List.mem_map.1 ha
      obtain ⟨other, ho, rfl⟩ := List.mem_map.1 hb
      exact ih entry he (hothers other ho) heq
    | _ => cases h

theorem literalItems_eq_of_same {items others : List Value}
    (hi : ∀ item ∈ items, ∀ other, item.Same other → item.literal = other.literal)
    (h : List.Forall₂ Same items others) : literalItems items = literalItems others := by
  induction h with
  | nil => rfl
  | cons hx _ ih =>
    obtain ⟨hitem, hitems⟩ := List.forall_mem_cons.1 hi
    rw [literalItems, literalItems, hitem _ hx, ih hitems]

theorem literalEntries_eq_of_same {entries others : List (String × Value)}
    (hi : ∀ entry ∈ entries, ∀ other, entry.2.Same other → entry.2.literal = other.literal)
    (hk : Entries.keys entries = Entries.keys others)
    (h : List.Forall₂ Same (Entries.values entries) (Entries.values others)) :
    literalEntries entries = literalEntries others := by
  induction entries generalizing others with
  | nil =>
    cases others with
    | nil => rfl
    | cons other others => cases hk
  | cons entry entries ih =>
    cases others with
    | nil => cases hk
    | cons other others =>
      obtain ⟨key, a⟩ := entry
      obtain ⟨key', b⟩ := other
      obtain ⟨hkey, hkeys⟩ := List.cons.inj hk
      obtain ⟨hsame, hrest⟩ := List.forall₂_cons.1 h
      obtain ⟨hentry, hentries⟩ := List.forall_mem_cons.1 hi
      rw [literalEntries, literalEntries, ih hentries hkeys hrest]
      simp only at hkey hentry hsame
      rw [hkey, hentry b hsame]

theorem Same.literal_eq {a b : Value} (h : a.Same b) : a.literal = b.literal := by
  induction a generalizing b with
  | null | boolean | integer | string =>
    cases h
    rfl
  | float x =>
    cases h with
    | float hx => exact hx
  | array items ih =>
    cases h with
    | array hitems =>
      rw [literal, literal, literalItems_eq_of_same (fun item hi other => ih item hi) hitems]
  | object entries ih =>
    cases h with
    | object hk hvalues =>
      rw [literal, literal,
        literalEntries_eq_of_same (fun entry he other => ih entry he) hk hvalues]
  | expref => cases h

/-- Values without expression references have one literal just if they are the same, floats up to
their text. Two floats have one text just if they are the same or neither is a number, and two
strings are never quoted alike. -/
theorem literal_lossless :
    (∀ a b : Value, a.Closed → b.Closed → (a.literal = b.literal ↔ a.Same b)) ∧
    (∀ x y : Binary64, floatLiteral x = floatLiteral y ↔
      x = y ∨ x.isNaN = true ∧ y.isNaN = true) ∧
    Function.Injective Text.quote := by
  refine ⟨fun a b ha hb => ⟨fun h => ?_, Same.literal_eq⟩, fun x y => ?_, fun s t h => ?_⟩
  · exact same_of_plain ha hb (plain_eq_of_literal ha hb h)
  · rw [floatLiteral_eq_iff, canonical_eq_iff]
  · exact Json.string.inj (plain_eq_of_literal (.string s) (.string t) h)

/-- A string that looks like an escape, and floats that are not numbers: the two arrays with
different floats of that sort have one literal, the one with the control character another. -/
theorem literal_lossless_escape :
    let a : Value := .array [.string "\\u0085", .float ⟨false, 2047, 1⟩]
    let b : Value := .array [.string "\\u0085", .float ⟨true, 2047, 5⟩]
    let c : Value := .array [.string "\u0085", .float ⟨false, 2047, 1⟩]
    (a.Closed ∧ b.Closed ∧ c.Closed) ∧ (a.literal = b.literal ∧ a.Same b) ∧
      (¬a.Same c ∧ a.literal ≠ c.literal) := by
  intro a b c
  obtain ⟨hiff, -, -⟩ := literal_lossless
  have ha : a.Closed := .array (by simp [Closed.string, Closed.float])
  have hb : b.Closed := .array (by simp [Closed.string, Closed.float])
  have hc : c.Closed := .array (by simp [Closed.string, Closed.float])
  have hnan {x : Binary64} (hx : x.isFinite = false) (hn : x.isNaN = true) :
      floatLiteral x = "NaN" := by
    rw [floatLiteral_of_infinite hx, if_pos hn]
  have hab : a.literal = b.literal := by
    simp only [a, b, literal, literalItems, hnan (x := ⟨false, 2047, 1⟩) rfl rfl,
      hnan (x := ⟨true, 2047, 5⟩) rfl rfl]
  have hstring {s t : String} (h : (string s).Same (.string t)) : s = t := by
    cases h
    rfl
  have hac : ¬a.Same c := by
    intro h
    change (array [_, _]).Same (.array [_, _]) at h
    cases h with
    | array h =>
      cases h with
      | cons h _ => exact absurd (hstring h) (by decide)
  exact ⟨⟨ha, hb, hc⟩, ⟨hab, (hiff a b ha hb).1 hab⟩, hac, fun h => hac ((hiff a c ha hc).1 h)⟩

end Value

end PathQuery
