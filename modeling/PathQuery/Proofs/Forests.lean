import Mathlib
import PathQuery.Procedure
import PathQuery.Proofs.Literals
import PathQuery.Proofs.Slots

/-!
# What listings are read as

* `Expr.Readable`, `Test.Readable`, `Stmt.Readable`: code whose listing can be read back. Values
  are portable, and what two expressions are written with alike is told apart by the slot that it is
  assigned to: literals go to the running result, fresh lists and objects to temporaries;
* `Expr.forest`, `Test.forest`, `Stmt.forest`: what the listing of code is read as;
* `Expr.lexes_listing`, `Test.lexes_listing`, `Stmt.spells_steps`: it is.
-/

namespace PathQuery

/-! ## Readable code -/

/-- The expression can be read back, given whether it is assigned to the running result. -/
def Expr.Readable (result : Bool) : Expr → Prop
  | .literal value => result = true ∧ value.Portable
  | .list items => result = false ∧ ∀ value, .literal value ∈ items → value.Portable
  | .emptyObject => result = false
  | .element _ (.literal value) => value.Portable
  | .expref _ node => node.Portable
  | _ => True

def Test.Positive : Test → Prop
  | .not _ => False
  | _ => True

/-- Not negated twice. -/
def Test.Readable : Test → Prop
  | .not test => test.Positive
  | _ => True

namespace Stmt

mutual

/-- The statement can be read back. -/
def Readable : Stmt → Prop
  | .assign target expr => expr.Readable (target = .value)
  | .branch test yes no => test.Readable ∧ ReadableAll yes ∧ ReadableAll no
  | .forEach _ _ body => ReadableAll body
  | .push _ _ | .extend _ _ | .insert _ _ _ => True

/-- The block can be read back. -/
def ReadableAll : List Stmt → Prop
  | [] => True
  | stmt :: stmts => stmt.Readable ∧ ReadableAll stmts

end

end Stmt

/-! ## Forests -/

namespace Token

abbrev word (s : String) : Token := .atom (.word s.toList)

abbrev mark (c : Char) : Token := .atom (.mark c)

end Token

namespace Tree

abbrev word (s : String) : Tree := .atom (.word s.toList)

abbrev mark (c : Char) : Tree := .atom (.mark c)

/-- A word with arguments. -/
abbrev applied (s : String) (args : List Tree) : List Tree := [word s, .group '(' args]

end Tree

open PathQuery.Tree (word mark applied)

def Operand.tree (slots : SlotNames) : Operand → Tree
  | .slot source => word (slots.name source)
  | .literal value => value.tree

def Text.tree (s : String) : Tree := Value.literalFormat.quoted s

namespace Expr

def forest (slots : SlotNames) : Expr → List Tree
  | .literal value => [value.tree]
  | .load slot => [word (slots.name slot)]
  | .field source name => applied "field" [word (slots.name source), mark ',', Text.tree name]
  | .element source index =>
    applied "element" [word (slots.name source), mark ',', index.tree slots]
  | .offset source delta =>
    applied "length" [word (slots.name source)] ++
      [word (if delta < 0 then "-" else "+"), word (toString delta.natAbs)]
  | .list items => [.group '[' (Tree.commas (items.map fun item => [item.tree slots]))]
  | .emptyObject => [.group '\x7b' []]
  | .compare op left right =>
    let l := word (slots.name left)
    let r := word (slots.name right)
    if op.isOrdering then
      applied "is_int" [l] ++ [mark '&', mark '&'] ++ applied "is_int" [r] ++
        [mark '&', mark '&', l] ++ op.symbol.toList.map mark ++ [r]
    else (if op = .notEqual then [mark '!'] else []) ++ applied "equals" [l, mark ',', r]
  | .not slot => mark '!' :: applied "truthy" [word (slots.name slot)]
  | .call name args =>
    applied "interpreter.functions.invoke" [Text.tree name, mark ',', word (slots.name args)]
  | .expref _ node => applied "expref" [node.tree]

end Expr

namespace Test

def forest (slots : SlotNames) : Test → List Tree
  | .isNull slot => applied "is_null" [word (slots.name slot)]
  | .isSequence slot => applied "is_sequence" [word (slots.name slot)]
  | .isMapping slot => applied "is_mapping" [word (slots.name slot)]
  | .falsy slot => mark '!' :: applied "truthy" [word (slots.name slot)]
  | .isTrue slot => [word (slots.name slot), mark '=', mark '=', word "true"]
  | .emptySequence slot => applied "is_empty_sequence" [word (slots.name slot)]
  | .nonEmptySequence slot => applied "is_nonempty_sequence" [word (slots.name slot)]
  | .not (.falsy slot) => applied "truthy" [word (slots.name slot)]
  | .not (.isTrue slot) => [word (slots.name slot), mark '!', mark '=', word "true"]
  | .not test => mark '!' :: test.forest slots

end Test

namespace Stmt

mutual

/-- What the lines of a statement are read as. -/
def forest (slots : SlotNames) : Stmt → List Tree
  | .assign target expr => word (slots.name target) :: mark '=' :: expr.forest slots ++ [mark ';']
  | .branch test yes no =>
    word "if" :: test.forest slots ++ .group '\x7b' (forestAll slots yes) ::
      match no with
      | [] => []
      | _ => [word "else", .group '\x7b' (forestAll slots no)]
  | .forEach item source body =>
    [word "for", word (slots.name item), word "in"] ++
      applied "iterate" [word (slots.name source)] ++ [.group '\x7b' (forestAll slots body)]
  | .push list item =>
    applied "push" [word (slots.name list), mark ',', word (slots.name item)] ++ [mark ';']
  | .extend list items =>
    applied "extend" [word (slots.name list), mark ',', word (slots.name items)] ++ [mark ';']
  | .insert object key item =>
    applied "insert" [word (slots.name object), mark ',', Text.tree key, mark ',',
      word (slots.name item)] ++ [mark ';']

@[inherit_doc forest]
def forestAll (slots : SlotNames) : List Stmt → List Tree
  | [] => []
  | stmt :: stmts => stmt.forest slots ++ forestAll slots stmts

end

end Stmt

/-! ## Reading expressions and tests -/

theorem IsName.lexes {name : String} (h : IsName name.toList) : Lexes name [.word name] :=
  lexes_word h.ne_nil h.isWord

theorem breaks_quote (s : String) : Breaks (Text.quote s) (Tree.flatten [Text.tree s]) :=
  Value.clear_literalFormat.breaks_quote s

/-- A text in parentheses. -/
theorem breaks_call (s : List Token) {call text : String} {trees : List Tree}
    (hc : Breaks call (s ++ [.opening '('])) (ht : Lexes text (Tree.flatten trees)) :
    Breaks (call ++ text ++ ")") (s ++ Tree.flatten [.group '(' trees]) := by
  have hclose : Breaks ")" [.closing] := fun _ => rfl
  have h := (hc.append_lexes ht).append_breaks hclose (by simp [Divides, isWord])
  simpa [Tree.flatten, Tree.tokens] using h

/-- Two texts in parentheses. -/
theorem breaks_call_pair (s : List Token) {call first second : String} {trees : List Tree}
    (hc : Breaks call (s ++ [.opening '(']))
    (ht : Lexes (first ++ ", " ++ second) (Tree.flatten trees)) :
    Breaks (call ++ first ++ ", " ++ second ++ ")") (s ++ Tree.flatten [.group '(' trees]) := by
  have hcall := breaks_call s hc ht
  rwa [← String.append_assoc, ← String.append_assoc] at hcall

theorem breaks_comma : Breaks ", " [.mark ','] := fun _ => rfl

theorem divides_comma : Divides ", " := by simp [Divides, isWord]

/-- A quoted text and something else, behind a comma. -/
theorem lexes_quote_comma (s : String) {text : String} {trees : List Tree}
    (ht : Lexes text (Tree.flatten trees)) :
    Lexes (Text.quote s ++ ", " ++ text) (Tree.flatten (Text.tree s :: mark ',' :: trees)) :=
  ((breaks_quote s).append breaks_comma).append_lexes ht

theorem Operand.lexes_listing {slots : SlotNames} {operand : Operand}
    (hv : ∀ value, operand = .literal value → value.Portable)
    (hn : ∀ slot ∈ operand.slots, IsName (slots.name slot).toList) :
    Lexes (operand.listing slots) (Tree.flatten [operand.tree slots]) := by
  cases operand with
  | slot source => exact (hn source List.mem_cons_self).lexes
  | literal value => exact (hv value rfl).lexes_literal

section

variable {slots : SlotNames} {a b : Slot} (ha : IsName (slots.name a).toList)
  (hb : IsName (slots.name b).toList)

include ha

/-- The name of a slot in parentheses. -/
theorem breaks_call_name (s : List Token) {call : String}
    (hc : Breaks call (s ++ [.opening '('])) :
    Breaks (call ++ slots.name a ++ ")") (s ++ Tree.flatten [.group '(' [word (slots.name a)]]) :=
  breaks_call s hc ha.lexes

/-- The name of a slot and something else, behind a comma. -/
theorem lexes_name_comma {text : String} {trees : List Tree}
    (ht : Lexes text (Tree.flatten trees)) :
    Lexes (slots.name a ++ ", " ++ text)
      (Tree.flatten (word (slots.name a) :: mark ',' :: trees)) :=
  (ha.lexes.append_breaks breaks_comma divides_comma).append_lexes ht

include hb

theorem lexes_names : Lexes (slots.name a ++ ", " ++ slots.name b)
    (Tree.flatten [word (slots.name a), mark ',', word (slots.name b)]) :=
  lexes_name_comma ha hb.lexes

end

namespace Expr

variable {slots : SlotNames}

theorem lexes_list {items : List Operand} (hv : ∀ value, .literal value ∈ items → value.Portable)
    (hn : ∀ slot ∈ items.flatMap Operand.slots, IsName (slots.name slot).toList) :
    Lexes (", ".intercalate (items.map (Operand.listing slots)))
      (Tree.flatten (Tree.commas (items.map fun item => [item.tree slots]))) := by
  refine lexes_intercalate breaks_comma divides_comma ?_
  rw [List.forall₂_map_left_iff, List.forall₂_map_right_iff, List.forall₂_same]
  intro item hi
  exact Operand.lexes_listing (fun value h => hv value (h ▸ hi))
    fun slot hs => hn slot (List.mem_flatMap.2 ⟨item, hi, hs⟩)

theorem breaks_symbol (op : Comparator) : Breaks op.symbol (op.symbol.toList.map .mark) := by
  cases op <;> exact fun _ => rfl

theorem lexes_ordering (op : Comparator) {a b : Slot} (ha : IsName (slots.name a).toList)
    (hb : IsName (slots.name b).toList) :
    Lexes ("is_int(" ++ slots.name a ++ ") && is_int(" ++ slots.name b ++ ") && " ++
        slots.name a ++ " " ++ op.symbol ++ " " ++ slots.name b)
      (Tree.flatten (applied "is_int" [word (slots.name a)] ++ [mark '&', mark '&'] ++
        applied "is_int" [word (slots.name b)] ++ [mark '&', mark '&', word (slots.name a)] ++
        op.symbol.toList.map mark ++ [word (slots.name b)])) := by
  have hopen : Breaks "is_int(" [.word "is_int", .opening '('] := fun _ => rfl
  have hnext : Breaks ") && is_int("
      [.closing, .mark '&', .mark '&', .word "is_int", .opening '('] := fun _ => rfl
  have hend : Breaks ") && " [.closing, .mark '&', .mark '&'] := fun _ => rfl
  have hblank : Breaks " " [] := fun _ => rfl
  have hleft := (hopen.append_lexes ha.lexes).append_breaks hnext (by simp [Divides, isWord])
  have hright := (hleft.append_lexes hb.lexes).append_breaks hend (by simp [Divides, isWord])
  have hfirst := (hright.append_lexes ha.lexes).append_breaks hblank (by simp [Divides, isWord])
  have h := ((hfirst.append (breaks_symbol op)).append hblank).append_lexes hb.lexes
  cases op <;> exact h

theorem breaks_equals {bang : String} {s : List Token} (h : Breaks bang s) {a b : Slot}
    (ha : IsName (slots.name a).toList) (hb : IsName (slots.name b).toList) :
    Breaks (bang ++ "equals(" ++ slots.name a ++ ", " ++ slots.name b ++ ")")
      (s ++ Tree.flatten
        (applied "equals" [word (slots.name a), mark ',', word (slots.name b)])) := by
  have hequals : Breaks "equals(" [.word "equals", .opening '('] := fun _ => rfl
  have hopen : Breaks (bang ++ "equals(") ((s ++ [.word "equals"]) ++ [.opening '(']) := by
    rw [List.append_assoc]
    exact h.append hequals
  have hcall := breaks_call_pair (s ++ [.word "equals"]) hopen (lexes_names ha hb)
  rwa [List.append_assoc] at hcall

theorem lexes_compare (op : Comparator) {a b : Slot} (ha : IsName (slots.name a).toList)
    (hb : IsName (slots.name b).toList) :
    Lexes ((compare op a b).listing slots) (Tree.flatten ((compare op a b).forest slots)) := by
  have hbang : Breaks "!" [.mark '!'] := fun _ => rfl
  have hempty : Breaks "" [] := fun _ => rfl
  cases op with
  | equal => exact (breaks_equals hempty ha hb).lexes
  | notEqual => exact (breaks_equals hbang ha hb).lexes
  | less | lessEqual | greater | greaterEqual => exact lexes_ordering _ ha hb

theorem lexes_listing {x : Expr} {result : Bool} (h : x.Readable result)
    (hn : ∀ slot ∈ x.slots, IsName (slots.name slot).toList) :
    Lexes (x.listing slots) (Tree.flatten (x.forest slots)) := by
  cases x with
  | literal value => exact h.2.lexes_literal
  | load slot => exact (hn slot List.mem_cons_self).lexes
  | field source name =>
    have hargs := lexes_name_comma (hn source List.mem_cons_self) (breaks_quote name).lexes
    have hcall : Breaks ("field(" ++ slots.name source ++ ", " ++ Text.quote name ++ ")") _ :=
      breaks_call_pair [.word "field"] (fun _ => rfl) hargs
    exact hcall.lexes
  | element source index =>
    have hindex : Lexes (index.listing slots) (Tree.flatten [index.tree slots]) := by
      refine Operand.lexes_listing ?_ fun slot hs => hn slot (List.mem_cons_of_mem _ hs)
      rintro value rfl
      exact h
    have hargs := lexes_name_comma (hn source List.mem_cons_self) hindex
    have hcall : Breaks ("element(" ++ slots.name source ++ ", " ++ index.listing slots ++ ")") _ :=
      breaks_call_pair [.word "element"] (fun _ => rfl) hargs
    exact hcall.lexes
  | offset source delta =>
    have hname := (hn source List.mem_cons_self).lexes
    have hopen : Breaks "length(" [.word "length", .opening '('] := fun _ => rfl
    have hsign : Breaks (if delta < 0 then ") - " else ") + ")
        [.closing, .word (if delta < 0 then "-" else "+")] := by
      split <;> exact fun _ => rfl
    have hdivides : Divides (if delta < 0 then ") - " else ") + ") := by
      split <;> simp [Divides, isWord]
    exact ((hopen.append_lexes hname).append_breaks hsign hdivides).append_lexes
      (lexes_natural delta.natAbs)
  | list items =>
    exact (breaks_group (fun _ => rfl) (lexes_list h.2 hn) (fun _ => rfl)
      (by simp [Divides, isWord])).lexes
  | emptyObject =>
    have hbraces : Breaks "\x7b\x7d" [.opening '\x7b', .closing] := fun _ => rfl
    exact hbraces.lexes
  | compare op left right =>
    exact lexes_compare op (hn left List.mem_cons_self)
      (hn right (List.mem_cons_of_mem _ List.mem_cons_self))
  | not slot =>
    have hcall : Breaks ("!truthy(" ++ slots.name slot ++ ")") _ :=
      breaks_call_name (hn slot List.mem_cons_self) [.mark '!', .word "truthy"] fun _ => rfl
    exact hcall.lexes
  | call name args =>
    have hname : Lexes (slots.name args) (Tree.flatten [word (slots.name args)]) :=
      (hn args List.mem_cons_self).lexes
    have hargs := lexes_quote_comma name hname
    have hcall : Breaks ("interpreter.functions.invoke(" ++ Text.quote name ++ ", " ++
        slots.name args ++ ")") _ :=
      breaks_call_pair [.word "interpreter.functions.invoke"] (fun _ => rfl) hargs
    exact hcall.lexes
  | expref site node =>
    have hcall : Breaks ("expref(" ++ node.text ++ ")") _ :=
      breaks_call [.word "expref"] (fun _ => rfl) h.lexes_text
    exact hcall.lexes

end Expr

namespace Test

variable {slots : SlotNames}

/-- What tests that are written as calls are read as. -/
theorem lexes_listing_call {test : Test} (h : IsName (slots.name test.slot).toList) (s : List Token)
    {call : String} (hc : Breaks call (s ++ [.opening '(']))
    (ht : test.listing slots = call ++ slots.name test.slot ++ ")")
    (hf : Tree.flatten (test.forest slots) =
      s ++ Tree.flatten [.group '(' [word (slots.name test.slot)]]) :
    Lexes (test.listing slots) (Tree.flatten (test.forest slots)) := by
  rw [ht, hf]
  exact (breaks_call_name h s hc).lexes

/-- What tests that compare with true are read as. -/
theorem lexes_listing_true {a : Slot} (h : IsName (slots.name a).toList) (first second : Char)
    {sign text : String} (hs : Breaks sign [.mark first, .mark second]) (hd : Divides sign)
    (ht : text = sign ++ "true") :
    Lexes (slots.name a ++ text)
      (Tree.flatten [word (slots.name a), mark first, mark second, word "true"]) := by
  have htrue : Lexes "true" [.word "true"] := lexes_word (by simp) (by simp [isWord])
  subst ht
  refine h.lexes.append (hs.append_lexes htrue) fun rest => ?_
  rw [String.toList_append, List.append_assoc]
  exact hd _

theorem lexes_listing (test : Test) (h : IsName (slots.name test.slot).toList) :
    Lexes (test.listing slots) (Tree.flatten (test.forest slots)) := by
  induction test with
  | isNull slot => exact lexes_listing_call h [.word "is_null"] (fun _ => rfl) rfl rfl
  | isSequence slot => exact lexes_listing_call h [.word "is_sequence"] (fun _ => rfl) rfl rfl
  | isMapping slot => exact lexes_listing_call h [.word "is_mapping"] (fun _ => rfl) rfl rfl
  | falsy slot => exact lexes_listing_call h [.mark '!', .word "truthy"] (fun _ => rfl) rfl rfl
  | emptySequence slot =>
    exact lexes_listing_call h [.word "is_empty_sequence"] (fun _ => rfl) rfl rfl
  | nonEmptySequence slot =>
    exact lexes_listing_call h [.word "is_nonempty_sequence"] (fun _ => rfl) rfl rfl
  | isTrue slot =>
    have hsign : Breaks " == " [.mark '=', .mark '='] := fun _ => rfl
    exact lexes_listing_true h '=' '=' hsign (by simp [Divides, isWord]) rfl
  | not test ih =>
    cases test with
    | falsy slot => exact lexes_listing_call h [.word "truthy"] (fun _ => rfl) rfl rfl
    | isTrue slot =>
      have hsign : Breaks " != " [.mark '!', .mark '='] := fun _ => rfl
      exact lexes_listing_true h '!' '=' hsign (by simp [Divides, isWord]) rfl
    | _ =>
      have hbang : Breaks "!" [.mark '!'] := fun _ => rfl
      exact hbang.append_lexes (ih h)

end Test

/-! ## Reading lines -/

open Emitter (Step)

/-- The steps write a text with these tokens, wherever they start. -/
def Spells (steps : List Step) (tokens : List Token) : Prop :=
  ∀ emitter : Emitter, ∃ out, (emitter.run steps).text = emitter.text ++ out ∧ Breaks out tokens

theorem breaks_indentation (depth : Nat) : Breaks (Emitter.indentation depth) [] := by
  have hlevel : Breaks "    " [] := fun _ => rfl
  induction depth with
  | zero => exact fun _ => rfl
  | succ depth ih =>
    rw [Emitter.indentation, List.replicate_succ, String.join_cons]
    exact hlevel.append ih

theorem spells_nil : Spells [] [] := fun emitter => ⟨"", by simp [Emitter.run], fun _ => rfl⟩

namespace Spells

variable {steps others : List Step} {s t : List Token}

theorem append (hs : Spells steps s) (ht : Spells others t) :
    Spells (steps ++ others) (s ++ t) := by
  intro emitter
  obtain ⟨first, hfirst, hbf⟩ := hs emitter
  obtain ⟨second, hsecond, hbs⟩ := ht (emitter.run steps)
  refine ⟨first ++ second, ?_, hbf.append hbs⟩
  rw [Emitter.run_append, hsecond, hfirst, String.append_assoc]

theorem emit {line : String} (hl : Breaks line s) (ht : Spells steps t) :
    Spells (.emit line :: steps) (s ++ t) := by
  have hline : Spells [.emit line] s := by
    intro emitter
    have hend : Breaks "\n" [] := fun _ => rfl
    refine ⟨Emitter.indentation emitter.depth ++ line ++ "\n", ?_, ?_⟩
    · simp only [Emitter.run, List.foldl_cons, List.foldl_nil, Emitter.apply, String.append_assoc]
    · have h := ((breaks_indentation emitter.depth).append hl).append hend
      rwa [List.nil_append, List.append_nil] at h
  exact hline.append ht

theorem indent (h : Spells steps s) : Spells (.indent :: steps) s :=
  fun emitter => h (emitter.apply .indent)

theorem outdent (h : Spells steps s) : Spells (.outdent :: steps) s :=
  fun emitter => h (emitter.apply .outdent)

end Spells

namespace Stmt

variable {slots : SlotNames}

theorem readableAll_iff {block : List Stmt} :
    ReadableAll block ↔ ∀ stmt ∈ block, stmt.Readable := by
  induction block with
  | nil => exact ⟨fun _ => List.forall_mem_nil _, fun _ => trivial⟩
  | cons stmt stmts ih => rw [ReadableAll, List.forall_mem_cons, ih]

theorem spells_stepsAll_of {block : List Stmt}
    (hb : ∀ stmt ∈ block, (∀ slot ∈ stmt.slots, IsName (slots.name slot).toList) →
      Spells (stmt.steps slots) (Tree.flatten (stmt.forest slots)))
    (hn : ∀ slot ∈ slotsAll block, IsName (slots.name slot).toList) :
    Spells (stepsAll slots block) (Tree.flatten (forestAll slots block)) := by
  induction block with
  | nil => exact spells_nil
  | cons stmt stmts ih =>
    obtain ⟨hstmt, hstmts⟩ := List.forall_mem_cons.1 hb
    obtain ⟨hfirst, hrest⟩ := List.forall_mem_append.1 hn
    rw [stepsAll, forestAll, Tree.flatten_append]
    exact (hstmt hfirst).append (ih hstmts hrest)

attribute [local simp] Tree.flatten Tree.flatten_append Tree.tokens Token.word

theorem spells_assign {target : Slot} {expr : Expr} (ht : IsName (slots.name target).toList)
    (he : Lexes (expr.listing slots) (Tree.flatten (expr.forest slots))) :
    Spells (steps slots (.assign target expr))
      (Tree.flatten (forest slots (.assign target expr))) := by
  have hequal : Breaks " = " [.mark '='] := fun _ => rfl
  have hend : Breaks ";" [.mark ';'] := fun _ => rfl
  have hline := ((ht.lexes.append_breaks hequal (by simp [Divides, isWord])).append_lexes
    he).append_breaks hend (by simp [Divides, isWord])
  have h := Spells.emit hline spells_nil
  rw [steps, forest]
  simpa using h

theorem spells_branch {test : Test} {yes no : List Stmt}
    (ht : Lexes (test.listing slots) (Tree.flatten (test.forest slots)))
    (hy : Spells (stepsAll slots yes) (Tree.flatten (forestAll slots yes)))
    (hn : Spells (stepsAll slots no) (Tree.flatten (forestAll slots no))) :
    Spells (steps slots (.branch test yes no))
      (Tree.flatten (forest slots (.branch test yes no))) := by
  have hif : Breaks "if " [.word "if"] := fun _ => rfl
  have hopen : Breaks " \x7b" [.opening '\x7b'] := fun _ => rfl
  have helse : Breaks "\x7d else \x7b" [.closing, .word "else", .opening '\x7b'] := fun _ => rfl
  have hclose : Breaks "\x7d" [.closing] := fun _ => rfl
  have hline := (hif.append_lexes ht).append_breaks hopen (by simp [Divides, isWord])
  have hend := Spells.emit hclose spells_nil
  cases no with
  | nil =>
    have h := Spells.emit hline (hy.append hend.outdent).indent
    rw [steps, forest]
    simpa using h
  | cons stmt stmts =>
    have h := Spells.emit hline
      (hy.append (Spells.emit helse (hn.append hend.outdent).indent).outdent).indent
    rw [steps, forest]
    · simpa using h
    · exact List.cons_ne_nil stmt stmts
    · exact List.cons_ne_nil stmt stmts

theorem spells_forEach {item source : Slot} {body : List Stmt}
    (hi : IsName (slots.name item).toList) (hs : IsName (slots.name source).toList)
    (hb : Spells (stepsAll slots body) (Tree.flatten (forestAll slots body))) :
    Spells (steps slots (.forEach item source body))
      (Tree.flatten (forest slots (.forEach item source body))) := by
  have hfor : Breaks "for " [.word "for"] := fun _ => rfl
  have hin : Breaks " in iterate(" [.word "in", .word "iterate", .opening '('] := fun _ => rfl
  have hopen : Breaks ") \x7b" [.closing, .opening '\x7b'] := fun _ => rfl
  have hclose : Breaks "\x7d" [.closing] := fun _ => rfl
  have hline := (((hfor.append_lexes hi.lexes).append_breaks hin
    (by simp [Divides, isWord])).append_lexes hs.lexes).append_breaks hopen
    (by simp [Divides, isWord])
  have h := Spells.emit hline (hb.append (Spells.emit hclose spells_nil).outdent).indent
  rw [steps, forest]
  simpa using h

/-- The lines that are a call and nothing else. -/
theorem spells_call (w : String) {call first second : String} {trees : List Tree}
    (hc : Breaks call [.word w, .opening '('])
    (ht : Lexes (first ++ ", " ++ second) (Tree.flatten trees)) :
    Spells [.emit (call ++ first ++ ", " ++ second ++ ");")]
      (Tree.flatten (applied w trees ++ [mark ';'])) := by
  have hend : Breaks ");" [.closing, .mark ';'] := fun _ => rfl
  have hline := (hc.append_lexes ht).append_breaks hend (by simp [Divides, isWord])
  rw [← String.append_assoc, ← String.append_assoc] at hline
  have h := Spells.emit hline spells_nil
  simpa using h

/-- What the lines of a statement are read as. -/
theorem spells_steps (stmt : Stmt) (hr : stmt.Readable)
    (hn : ∀ slot ∈ stmt.slots, IsName (slots.name slot).toList) :
    Spells (stmt.steps slots) (Tree.flatten (stmt.forest slots)) := by
  induction stmt with
  | assign target expr =>
    obtain ⟨ht, he⟩ := List.forall_mem_cons.1 hn
    exact spells_assign ht (expr.lexes_listing hr he)
  | branch test yes no ihy ihn =>
    rw [Readable, readableAll_iff, readableAll_iff] at hr
    obtain ⟨ht, hblocks⟩ := List.forall_mem_cons.1 hn
    obtain ⟨hyes, hno⟩ := List.forall_mem_append.1 hblocks
    exact spells_branch (test.lexes_listing ht)
      (spells_stepsAll_of (fun stmt hm => ihy stmt hm (hr.2.1 stmt hm)) hyes)
      (spells_stepsAll_of (fun stmt hm => ihn stmt hm (hr.2.2 stmt hm)) hno)
  | forEach item source body ih =>
    rw [Readable, readableAll_iff] at hr
    obtain ⟨hi, hrest⟩ := List.forall_mem_cons.1 hn
    obtain ⟨hs, hbody⟩ := List.forall_mem_cons.1 hrest
    exact spells_forEach hi hs (spells_stepsAll_of (fun stmt hm => ih stmt hm (hr stmt hm)) hbody)
  | push list item =>
    have hargs := lexes_names (hn list List.mem_cons_self)
      (hn item (List.mem_cons_of_mem _ List.mem_cons_self))
    exact spells_call "push" (fun _ => rfl) hargs
  | extend list items =>
    have hargs := lexes_names (hn list List.mem_cons_self)
      (hn items (List.mem_cons_of_mem _ List.mem_cons_self))
    exact spells_call "extend" (fun _ => rfl) hargs
  | insert object key item =>
    have hitem : Lexes (slots.name item) (Tree.flatten [word (slots.name item)]) :=
      (hn item (List.mem_cons_of_mem _ List.mem_cons_self)).lexes
    have hargs := lexes_name_comma (hn object List.mem_cons_self) (lexes_quote_comma key hitem)
    rw [← String.append_assoc, ← String.append_assoc] at hargs
    have hopen : Breaks "insert(" [.word "insert", .opening '('] := fun _ => rfl
    have h := spells_call "insert" hopen hargs
    rwa [← String.append_assoc, ← String.append_assoc] at h

/-- What the lines of a block are read as. -/
theorem spells_stepsAll (block : List Stmt) (hr : ReadableAll block)
    (hn : ∀ slot ∈ slotsAll block, IsName (slots.name slot).toList) :
    Spells (stepsAll slots block) (Tree.flatten (forestAll slots block)) :=
  spells_stepsAll_of (fun stmt hm => stmt.spells_steps (readableAll_iff.1 hr stmt hm)) hn

end Stmt

end PathQuery
