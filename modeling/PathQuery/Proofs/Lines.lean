import Mathlib
import PathQuery.Code.Listing
import PathQuery.Proofs.Literals

/-!
# The lines of a listing

A listing is given by its lines, each with its level, and not only by the steps of an emitter:

* `Stmt.lines`: the lines of a statement on a level. A block stands one level further in;
* `Emitter.Writes`: what steps write from wherever they start, when they come back to the level they
  started on and never leave it;
* `Stmt.writes_steps`: the steps of a statement write its lines;
* `Stmt.perm_levels`, `Stmt.openings_sublist`: which lines belong to which statement;
* `OneLine`: what is written on a line does not break it. Names are free of line feeds by
  hypothesis, and all other text is quoted;
* `Listing.render_lines`: all of this together, for a whole procedure.
-/

namespace PathQuery

/-- A line of a listing: how far in it stands, and what stands on it. -/
structure Line where
  level : Nat
  text : String

namespace Line

/-- The line as it is written: four spaces a level, the text and a line feed. -/
def written (line : Line) : String :=
  String.ofList (List.replicate (4 * line.level) ' ') ++ line.text ++ "\n"

end Line

namespace Stmt

/-- The line that a statement starts with. -/
def opening (slots : SlotNames) : Stmt → String
  | .assign target expr => slots.name target ++ " = " ++ expr.listing slots ++ ";"
  | .branch test _ _ => "if " ++ test.listing slots ++ " \x7b"
  | .forEach item source _ =>
    "for " ++ slots.name item ++ " in iterate(" ++ slots.name source ++ ") \x7b"
  | .push list item => "push(" ++ slots.name list ++ ", " ++ slots.name item ++ ");"
  | .extend list items => "extend(" ++ slots.name list ++ ", " ++ slots.name items ++ ");"
  | .insert object key item =>
    "insert(" ++ slots.name object ++ ", " ++ Text.quote key ++ ", " ++ slots.name item ++ ");"

mutual

/-- The lines of a statement that stands on a level. -/
def lines (slots : SlotNames) (level : Nat) : Stmt → List Line
  | .branch test yes no =>
    ⟨level, opening slots (.branch test yes no)⟩ :: linesAll slots (level + 1) yes ++
      (match no with
        | [] => []
        | _ => ⟨level, "\x7d else \x7b"⟩ :: linesAll slots (level + 1) no) ++ [⟨level, "\x7d"⟩]
  | .forEach item source body =>
    ⟨level, opening slots (.forEach item source body)⟩ :: linesAll slots (level + 1) body ++
      [⟨level, "\x7d"⟩]
  | stmt => [⟨level, opening slots stmt⟩]

/-- The lines of a block that stands on a level. -/
def linesAll (slots : SlotNames) (level : Nat) : List Stmt → List Line
  | [] => []
  | stmt :: stmts => stmt.lines slots level ++ linesAll slots level stmts

end

/-- How many lines a statement has of its own, beside those of its blocks. -/
def ownLines : Stmt → Nat
  | .branch _ _ [] => 2
  | .branch _ _ (_ :: _) => 3
  | .forEach _ _ _ => 2
  | _ => 1

/-- The line that a statement starts with, where it stands in so many blocks of a procedure. -/
def openingLine (slots : SlotNames) (place : Nat × Stmt) : Line :=
  ⟨place.1 + 1, place.2.opening slots⟩

/-- The levels of the lines that the statement has of its own there. -/
def ownLevels (place : Nat × Stmt) : List Nat := List.replicate place.2.ownLines (place.1 + 1)

mutual

/-- The statements in a statement, itself first, each with the number of blocks it stands in. -/
def nested (nesting : Nat) : Stmt → List (Nat × Stmt)
  | .branch test yes no =>
    (nesting, .branch test yes no) :: nestedAll (nesting + 1) yes ++ nestedAll (nesting + 1) no
  | .forEach item source body =>
    (nesting, .forEach item source body) :: nestedAll (nesting + 1) body
  | stmt => [(nesting, stmt)]

@[inherit_doc nested]
def nestedAll (nesting : Nat) : List Stmt → List (Nat × Stmt)
  | [] => []
  | stmt :: stmts => stmt.nested nesting ++ nestedAll nesting stmts

end

end Stmt

/-- The lines of a procedure on a level: the query it came from as comments, a header, the body and
the result. -/
def Listing.lines (name display : String) (slots : SlotNames) (level : Nat) (body : List Stmt) :
    List Line :=
  (Text.lines display).map (fun line => ⟨level, "// " ++ line⟩) ++
    ⟨level, "fn " ++ name ++ "(interpreter, " ++ slots.name .value ++ ") \x7b"⟩ ::
    Stmt.linesAll slots (level + 1) body ++
    [⟨level + 1, "return " ++ slots.name .value ++ ";"⟩, ⟨level, "\x7d"⟩]

/-! ## What steps write -/

namespace Emitter

theorem run_cons (emitter : Emitter) (step : Step) (steps : List Step) :
    emitter.run (step :: steps) = (emitter.apply step).run steps :=
  rfl

theorem indentation_eq (depth : Nat) :
    indentation depth = String.ofList (List.replicate (4 * depth) ' ') := by
  induction depth with
  | zero => rfl
  | succ depth ih =>
    rw [indentation, List.replicate_succ, String.join_cons, ← indentation, ih, Nat.mul_add,
      Nat.add_comm, List.replicate_add, String.ofList_append]
    rfl

theorem depth_apply_indent (emitter : Emitter) :
    (emitter.apply .indent).depth = emitter.depth + 1 :=
  rfl

/-- From wherever they start, the steps write the lines that belong to the level they start on, come
back to that level, and on their way only go out from further in. -/
structure Writes (steps : List Step) (lines : Nat → List Line) : Prop where
  text : ∀ emitter : Emitter, (emitter.run steps).text =
    emitter.text ++ String.join ((lines emitter.depth).map Line.written)
  depth : ∀ emitter : Emitter, (emitter.run steps).depth = emitter.depth
  inside : ∀ (emitter : Emitter) (before after : List Step), steps = before ++ .outdent :: after →
    emitter.depth < (emitter.run before).depth

/-- A member of a list in two parts stands in the first part or in the second. -/
theorem append_eq_append_cons {α : Type} {first second before after : List α} {a : α}
    (h : first ++ second = before ++ a :: after) :
    (∃ rest, first = before ++ a :: rest) ∨
      ∃ rest, before = first ++ rest ∧ second = rest ++ a :: after := by
  rcases List.append_eq_append_iff.1 h with ⟨rest, hbefore, hsecond⟩ | ⟨rest, hfirst, hrest⟩
  · exact .inr ⟨rest, hbefore, hsecond⟩
  · cases rest with
    | nil => exact .inr ⟨[], by simpa using hfirst.symm, hrest.symm⟩
    | cons b rest =>
      obtain ⟨rfl, -⟩ := List.cons.inj hrest
      exact .inl ⟨rest, hfirst⟩

theorem writes_nil : Writes [] fun _ => [] where
  text := by simp [run]
  depth := fun _ => rfl
  inside := by simp

theorem writes_emit (line : String) : Writes [.emit line] fun level => [⟨level, line⟩] where
  text := by
    intro emitter
    simp [run, apply, Line.written, indentation_eq, String.append_assoc]
  depth := fun _ => rfl
  inside := by
    intro emitter before after h
    cases before with
    | nil => cases h
    | cons step before => simp at h

namespace Writes

variable {steps others : List Step} {lines more : Nat → List Line}

theorem append (hs : Writes steps lines) (ho : Writes others more) :
    Writes (steps ++ others) fun level => lines level ++ more level where
  text := by
    intro emitter
    rw [run_append, ho.text, hs.text, hs.depth, List.map_append, String.join_append,
      String.append_assoc]
  depth := by
    intro emitter
    rw [run_append, ho.depth, hs.depth]
  inside := by
    intro emitter before after h
    rcases append_eq_append_cons h with ⟨rest, hsteps⟩ | ⟨rest, rfl, hothers⟩
    · exact hs.inside emitter before rest hsteps
    · have hlt := ho.inside (emitter.run steps) rest after hothers
      rwa [hs.depth, ← run_append] at hlt

/-- A block stands one level further in. -/
theorem block (h : Writes steps lines) :
    Writes (.indent :: steps ++ [.outdent]) fun level => lines (level + 1) where
  text := by
    intro emitter
    rw [List.cons_append, run_cons, run_append]
    exact h.text (emitter.apply .indent)
  depth := by
    intro emitter
    have hback := h.depth (emitter.apply .indent)
    rw [List.cons_append, run_cons, run_append]
    exact congrArg (· - 1) hback
  inside := by
    intro emitter before after heq
    cases before with
    | nil => cases heq
    | cons step before =>
      obtain ⟨rfl, hrest⟩ := List.cons.inj heq
      rw [run_cons]
      rcases append_eq_append_cons hrest with ⟨rest, hsteps⟩ | ⟨rest, rfl, hlast⟩
      · have hlt := h.inside (emitter.apply .indent) before rest hsteps
        rw [depth_apply_indent] at hlt
        omega
      · -- this is the step that ends the block
        obtain rfl : rest = [] := by
          cases rest with
          | nil => rfl
          | cons step rest => simp at hlast
        rw [List.append_nil, h.depth, depth_apply_indent]
        exact Nat.lt_succ_self _

end Writes

theorem writes_emits (texts : List String) :
    Writes (texts.map Step.emit) fun level => texts.map fun text => ⟨level, text⟩ := by
  induction texts with
  | nil => exact writes_nil
  | cons text texts ih => exact (writes_emit text).append ih

end Emitter

namespace Stmt

open Emitter (Writes writes_nil writes_emit)

variable {slots : SlotNames}

theorem writes_stepsAll_of {block : List Stmt}
    (h : ∀ stmt ∈ block, Writes (stmt.steps slots) fun level => stmt.lines slots level) :
    Writes (stepsAll slots block) fun level => linesAll slots level block := by
  induction block with
  | nil => exact writes_nil
  | cons stmt stmts ih =>
    obtain ⟨hstmt, hstmts⟩ := List.forall_mem_cons.1 h
    exact hstmt.append (ih hstmts)

theorem writes_branch {test : Test} {yes no : List Stmt}
    (hy : Writes (stepsAll slots yes) fun level => linesAll slots level yes)
    (hn : Writes (stepsAll slots no) fun level => linesAll slots level no) :
    Writes (steps slots (.branch test yes no)) fun level =>
      lines slots level (.branch test yes no) := by
  have hopen := writes_emit (opening slots (.branch test yes no))
  have hclose := writes_emit "\x7d"
  cases no with
  | nil =>
    have h := (hopen.append hy.block).append hclose
    rw [steps]
    simpa [lines, opening] using h
  | cons stmt stmts =>
    have helse := writes_emit "\x7d else \x7b"
    have h := (hopen.append hy.block).append ((helse.append hn.block).append hclose)
    rw [steps]
    · simpa [lines, opening] using h
    · exact List.cons_ne_nil stmt stmts

/-- The steps of a statement write its lines. -/
theorem writes_steps (stmt : Stmt) :
    Writes (stmt.steps slots) fun level => stmt.lines slots level := by
  induction stmt with
  | branch test yes no ihy ihn =>
    exact writes_branch (writes_stepsAll_of ihy) (writes_stepsAll_of ihn)
  | forEach item source body ih =>
    have hopen := writes_emit (opening slots (.forEach item source body))
    have h := (hopen.append (writes_stepsAll_of ih).block).append (writes_emit "\x7d")
    rw [steps]
    simpa [lines, opening] using h
  | assign | push | extend | insert => exact writes_emit _

/-! ## Which statement a line belongs to -/

theorem perm_levelsAll_of {block : List Stmt} {nesting : Nat}
    (h : ∀ stmt ∈ block, ((stmt.lines slots (nesting + 1)).map Line.level).Perm
      ((stmt.nested nesting).flatMap ownLevels)) :
    ((linesAll slots (nesting + 1) block).map Line.level).Perm
      ((nestedAll nesting block).flatMap ownLevels) := by
  induction block with
  | nil => exact .nil
  | cons stmt stmts ih =>
    obtain ⟨hstmt, hstmts⟩ := List.forall_mem_cons.1 h
    rw [linesAll, nestedAll, List.map_append, List.flatMap_append]
    exact hstmt.append (ih hstmts)

/-- Every statement has its own lines on the level one above the number of blocks it stands in. -/
theorem perm_levels (stmt : Stmt) (nesting : Nat) :
    ((stmt.lines slots (nesting + 1)).map Line.level).Perm
      ((stmt.nested nesting).flatMap ownLevels) := by
  induction stmt generalizing nesting with
  | branch test yes no ihy ihn =>
    have hyes := perm_levelsAll_of fun stmt hs => ihy stmt hs (nesting + 1)
    have hno := perm_levelsAll_of fun stmt hs => ihn stmt hs (nesting + 1)
    cases no with
    | nil =>
      simp only [lines, nested, nestedAll, ownLevels, ownLines, List.map_append, List.map_cons,
        List.map_nil, List.append_nil, List.flatMap_cons]
      exact ((List.perm_append_singleton _ _).trans (hyes.cons _)).cons _
    | cons stmt stmts =>
      simp only [lines, nested, ownLevels, ownLines, List.map_append, List.map_cons, List.map_nil,
        List.flatMap_cons, List.cons_append, List.flatMap_append]
      -- the three lines of the branch are moved to the front, the last one first
      have hblocks := List.perm_middle.trans ((hyes.append hno).cons (nesting + 1))
      exact ((List.perm_append_singleton _ _).trans (hblocks.cons _)).cons _
  | forEach item source body ih =>
    have hbody := perm_levelsAll_of fun stmt hs => ih stmt hs (nesting + 1)
    simp only [lines, nested, ownLevels, ownLines, List.map_append, List.map_cons, List.map_nil,
      List.flatMap_cons]
    exact ((List.perm_append_singleton _ _).trans (hbody.cons _)).cons _
  | assign | push | extend | insert => exact .refl _

theorem openingsAll_sublist_of {block : List Stmt} {nesting : Nat}
    (h : ∀ stmt ∈ block, ((stmt.nested nesting).map (openingLine slots)).Sublist
      (stmt.lines slots (nesting + 1))) :
    ((nestedAll nesting block).map (openingLine slots)).Sublist
      (linesAll slots (nesting + 1) block) := by
  induction block with
  | nil => exact .slnil
  | cons stmt stmts ih =>
    obtain ⟨hstmt, hstmts⟩ := List.forall_mem_cons.1 h
    rw [linesAll, nestedAll, List.map_append]
    exact hstmt.append (ih hstmts)

/-- The lines that statements start with stand in pre-order. -/
theorem openings_sublist (stmt : Stmt) (nesting : Nat) :
    ((stmt.nested nesting).map (openingLine slots)).Sublist
      (stmt.lines slots (nesting + 1)) := by
  induction stmt generalizing nesting with
  | branch test yes no ihy ihn =>
    have hyes := openingsAll_sublist_of fun stmt hs => ihy stmt hs (nesting + 1)
    have hno := openingsAll_sublist_of fun stmt hs => ihn stmt hs (nesting + 1)
    cases no with
    | nil =>
      simp only [lines, nested, nestedAll, List.map_cons, List.append_nil, List.cons_append]
      exact (hyes.trans (List.sublist_append_left _ _)).cons_cons _
    | cons stmt stmts =>
      simp only [lines, nested, List.map_append, List.map_cons, List.cons_append]
      exact ((hyes.append (hno.cons _)).trans (List.sublist_append_left _ _)).cons_cons _
  | forEach item source body ih =>
    have hbody := openingsAll_sublist_of fun stmt hs => ih stmt hs (nesting + 1)
    simp only [lines, nested, List.map_cons, List.cons_append]
    exact (hbody.trans (List.sublist_append_left _ _)).cons_cons _
  | assign | push | extend | insert => exact .refl _

end Stmt

/-! ## What stands on a line -/

/-- The text does not break the line that it stands on. -/
abbrev OneLine (text : String) : Prop := '\n' ∉ text.toList

theorem OneLine.append {a b : String} (ha : OneLine a) (hb : OneLine b) : OneLine (a ++ b) := by
  simpa [OneLine] using ⟨ha, hb⟩

section

variable {parts : List String} (h : ∀ part ∈ parts, OneLine part)

include h

theorem oneLine_join : OneLine (String.join parts) := by
  simpa [OneLine, String.toList_join] using h

theorem oneLine_intercalate {comma : String} (hc : OneLine comma) :
    OneLine (comma.intercalate parts) := by
  induction parts with
  | nil => simp [OneLine]
  | cons part parts ih =>
    obtain ⟨hpart, hparts⟩ := List.forall_mem_cons.1 h
    cases parts with
    | nil => simpa using hpart
    | cons next parts =>
      rw [String.intercalate_cons_cons]
      exact (hpart.append hc).append (ih hparts)

end

theorem oneLine_of_word {text : String} (h : ∀ c ∈ text.toList, isWord c = true) :
    OneLine text := by
  intro hmem
  cases h _ hmem

theorem oneLine_integer (n : Int) : OneLine (toString n) := by
  intro hmem
  rcases (integer_chars n).2 _ hmem with h | h <;> cases h

theorem Escape.oneLine {c : Char} {e : List Char} (h : Escape c e) : '\n' ∉ e := by
  cases h with
  | plain _ _ hs =>
    rw [List.mem_singleton]
    rintro rfl
    exact absurd hs (by decide)
  | short he =>
    -- a letter or a mark stands for the character
    unfold Json.Reader.escapedChar at he
    split at he <;> simp at he ⊢
  | code _ =>
    have hdigit : ∀ n < 16, '\n' ≠ Nat.digitChar n := by decide
    simp [hdigit _ (Nat.mod_lt _ (by decide : 16 > 0))]

theorem oneLine_quoted {escape : Char → String} (he : ∀ c, Escape c (escape c).toList)
    (s : String) : OneLine ("\"" ++ String.join (s.toList.map escape) ++ "\"") := by
  have hchars : OneLine (String.join (s.toList.map escape)) :=
    oneLine_join (List.forall_mem_map.2 fun c _ => (he c).oneLine)
  simpa [OneLine] using hchars

/-- A format that breaks no line with a comma, a colon, a float or a character breaks none. -/
theorem Format.oneLine_text {f : Format} (hcomma : OneLine f.comma) (hcolon : OneLine f.colon)
    (hescape : ∀ c, Escape c (f.escape c).toList) (hfloat : ∀ x, OneLine (f.float x))
    (json : Json) : OneLine (f.text json) := by
  induction json with
  | null => simp [OneLine, text]
  | bool b => cases b <;> simp [OneLine, text]
  | integer n => exact oneLine_integer n
  | float x => exact hfloat x
  | string s => exact oneLine_quoted hescape s
  | array items ih =>
    have hitems : ∀ part ∈ f.textItems items, OneLine part := by
      rw [textItems_eq_map]
      exact List.forall_mem_map.2 ih
    simpa [OneLine, text, -String.toList_intercalate] using oneLine_intercalate hitems hcomma
  | object members ih =>
    have hmembers : ∀ part ∈ f.textMembers members, OneLine part := by
      rw [textMembers_eq_map]
      refine List.forall_mem_map.2 fun member hm => ?_
      exact ((oneLine_quoted hescape member.1).append hcolon).append (ih member hm)
    simpa [OneLine, text, -String.toList_intercalate] using oneLine_intercalate hmembers hcomma

theorem Json.oneLine_compact (json : Json) : OneLine json.compact := by
  rw [compact_eq_text]
  refine Format.oneLine_text (by simp [OneLine, compactFormat]) (by simp [OneLine, compactFormat])
    clear_compactFormat.escape (fun x => ?_) json
  simp only [compactFormat]
  split
  · exact oneLine_of_word (numberLayout.word_render x).1
  · simp [OneLine]

theorem Node.oneLine_text (node : Node) : OneLine node.text := Json.oneLine_compact node.toJson

theorem Text.oneLine_quote (s : String) : OneLine (quote s) := oneLine_quoted escape_escape s

namespace Value

theorem oneLine_floatLiteral (x : Binary64) : OneLine (floatLiteral x) := by
  unfold floatLiteral
  split_ifs
  · exact oneLine_of_word (floatLayout.word_render x).1
  all_goals simp [OneLine]

/-- Also when expression references stand in the value, of whatever kinds their nodes are. -/
theorem oneLine_literal (value : Value) : OneLine value.literal := by
  have hcomma : OneLine ", " := by simp [OneLine]
  have hcolon : OneLine ": " := by simp [OneLine]
  induction value with
  | null => simp [OneLine, literal]
  | boolean b => cases b <;> simp [OneLine, literal]
  | integer n => exact oneLine_integer n
  | float x => exact oneLine_floatLiteral x
  | string s => exact Text.oneLine_quote s
  | array items ih =>
    have hitems : ∀ part ∈ literalItems items, OneLine part := by
      rw [literalItems_eq_map]
      exact List.forall_mem_map.2 ih
    simpa [OneLine, literal, -String.toList_intercalate] using oneLine_intercalate hitems hcomma
  | object entries ih =>
    have hentries : ∀ part ∈ literalEntries entries, OneLine part := by
      rw [literalEntries_eq_map]
      refine List.forall_mem_map.2 fun entry he => ?_
      exact ((Text.oneLine_quote entry.1).append hcolon).append (ih entry he)
    simpa [OneLine, literal, -String.toList_intercalate] using oneLine_intercalate hentries hcomma
  | expref origin node => simpa [OneLine, literal] using node.oneLine_text

end Value

namespace Text

/-- What was read of the current line never holds a line feed. -/
theorem oneLine_of_mem_linesFrom {line cs : List Char} (h : '\n' ∉ line) :
    ∀ text ∈ linesFrom line cs, OneLine text := by
  fun_induction linesFrom line cs with
  | case1 line _ => exact List.forall_mem_nil _
  | case2 line _ => simpa [OneLine] using h
  | case3 line rest ih => exact List.forall_mem_cons.2 ⟨by simpa [OneLine] using h, ih (by simp)⟩
  | case4 line rest ih => exact List.forall_mem_cons.2 ⟨by simpa [OneLine] using h, ih (by simp)⟩
  | case5 line c rest _ hc ih =>
    refine ih fun hmem => ?_
    rcases List.mem_cons.1 hmem with rfl | hmem
    · exact hc rfl
    · exact h hmem

theorem oneLine_of_mem_lines {s text : String} (h : text ∈ lines s) : OneLine text :=
  oneLine_of_mem_linesFrom (by simp) text h

end Text

section

variable {slots : SlotNames} (hslots : ∀ slot ∈ slots, OneLine slot)

include hslots

theorem SlotNames.oneLine_name (slot : Slot) : OneLine (slots.name slot) := by
  rw [name, List.getD_eq_getElem?_getD]
  cases h : slots[slot.index]? with
  | none => simp [OneLine]
  | some text => exact hslots text (List.mem_of_getElem? h)

theorem Operand.oneLine_listing (operand : Operand) : OneLine (operand.listing slots) := by
  cases operand with
  | slot source => exact slots.oneLine_name hslots source
  | literal value => exact value.oneLine_literal

theorem Expr.oneLine_listing (expr : Expr) : OneLine (expr.listing slots) := by
  have hname := slots.oneLine_name hslots
  -- literals, names of members and functions, and nodes are the texts that come from the query
  cases expr with
  | literal value => exact value.oneLine_literal
  | load slot => exact hname slot
  | field source name =>
    show OneLine ("field(" ++ slots.name source ++ ", " ++ Text.quote name ++ ")")
    simp [OneLine, hname, Text.oneLine_quote]
  | element source index =>
    show OneLine ("element(" ++ slots.name source ++ ", " ++ index.listing slots ++ ")")
    simp [OneLine, hname, index.oneLine_listing hslots]
  | offset source delta =>
    show OneLine ("length(" ++ slots.name source ++ (if delta < 0 then ") - " else ") + ") ++
      toString delta.natAbs)
    have hdelta : OneLine (toString delta.natAbs) := oneLine_integer delta.natAbs
    refine OneLine.append ?_ hdelta
    split <;> simp [OneLine, hname]
  | list items =>
    show OneLine ("[" ++ ", ".intercalate (items.map (Operand.listing slots)) ++ "]")
    have hitems : OneLine (", ".intercalate (items.map (Operand.listing slots))) :=
      oneLine_intercalate (List.forall_mem_map.2 fun item _ => item.oneLine_listing hslots)
        (by simp [OneLine])
    simpa [OneLine, -String.toList_intercalate] using hitems
  | emptyObject =>
    show OneLine "\x7b\x7d"
    simp [OneLine]
  | compare op left right =>
    show OneLine (if op.isOrdering then
      "is_int(" ++ slots.name left ++ ") && is_int(" ++ slots.name right ++ ") && " ++
        slots.name left ++ " " ++ op.symbol ++ " " ++ slots.name right
      else (if op = .notEqual then "!" else "") ++
        "equals(" ++ slots.name left ++ ", " ++ slots.name right ++ ")")
    cases op <;> simp [OneLine, hname, Comparator.isOrdering, Comparator.symbol]
  | not slot =>
    show OneLine ("!truthy(" ++ slots.name slot ++ ")")
    simp [OneLine, hname]
  | call name args =>
    show OneLine ("interpreter.functions.invoke(" ++ Text.quote name ++ ", " ++ slots.name args ++
      ")")
    simp [OneLine, hname, Text.oneLine_quote]
  | expref site node =>
    show OneLine ("expref(" ++ node.text ++ ")")
    simp [OneLine, node.oneLine_text]

theorem Test.oneLine_listing (test : Test) : OneLine (test.listing slots) := by
  have hname := slots.oneLine_name hslots
  fun_induction Test.listing slots test with
  | case10 test _ _ ih => simp [OneLine, ih]
  | _ => simp [OneLine, hname]

theorem Stmt.oneLine_opening (stmt : Stmt) : OneLine (stmt.opening slots) := by
  have hname := slots.oneLine_name hslots
  cases stmt with
  | assign target expr => simp [OneLine, opening, hname, expr.oneLine_listing hslots]
  | branch test yes no => simp [OneLine, opening, test.oneLine_listing hslots]
  | insert object key item => simp [OneLine, opening, hname, Text.oneLine_quote]
  | forEach | push | extend => simp [OneLine, opening, hname]

end

namespace Stmt

variable {slots : SlotNames} (hslots : ∀ slot ∈ slots, OneLine slot)

theorem oneLine_of_mem_linesAll {block : List Stmt} {level : Nat}
    (h : ∀ stmt ∈ block, ∀ line ∈ stmt.lines slots level, OneLine line.text) :
    ∀ line ∈ linesAll slots level block, OneLine line.text := by
  induction block with
  | nil => exact List.forall_mem_nil _
  | cons stmt stmts ih =>
    obtain ⟨hstmt, hstmts⟩ := List.forall_mem_cons.1 h
    exact List.forall_mem_append.2 ⟨hstmt, ih hstmts⟩

include hslots in
theorem oneLine_of_mem_lines (stmt : Stmt) (level : Nat) :
    ∀ line ∈ stmt.lines slots level, OneLine line.text := by
  have hopening := oneLine_opening hslots
  have hclose : OneLine "\x7d" := by simp [OneLine]
  induction stmt generalizing level with
  | branch test yes no ihy ihn =>
    have hyes := oneLine_of_mem_linesAll fun stmt hs => ihy stmt hs (level + 1)
    have hno := oneLine_of_mem_linesAll fun stmt hs => ihn stmt hs (level + 1)
    have helse : OneLine "\x7d else \x7b" := by simp [OneLine]
    refine List.forall_mem_append.2 ⟨List.forall_mem_append.2
      ⟨List.forall_mem_cons.2 ⟨hopening _, hyes⟩, ?_⟩, List.forall_mem_singleton.2 hclose⟩
    cases no with
    | nil => exact List.forall_mem_nil _
    | cons stmt stmts => exact List.forall_mem_cons.2 ⟨helse, hno⟩
  | forEach item source body ih =>
    have hbody := oneLine_of_mem_linesAll fun stmt hs => ih stmt hs (level + 1)
    exact List.forall_mem_append.2
      ⟨List.forall_mem_cons.2 ⟨hopening _, hbody⟩, List.forall_mem_singleton.2 hclose⟩
  | assign | push | extend | insert => exact List.forall_mem_singleton.2 (hopening _)

end Stmt

namespace Listing

open Emitter (Writes writes_emit)

variable {name display : String} {slots : SlotNames} {body : List Stmt}

theorem writes_steps :
    Writes (steps name display slots body) fun level => lines name display slots level body := by
  have hcomments := Emitter.writes_emits ((Text.lines display).map fun line => "// " ++ line)
  have hheader := writes_emit ("fn " ++ name ++ "(interpreter, " ++ slots.name .value ++ ") \x7b")
  have hbody : Writes (Stmt.stepsAll slots body) _ :=
    Stmt.writes_stepsAll_of fun stmt _ => stmt.writes_steps
  have hresult := writes_emit ("return " ++ slots.name .value ++ ";")
  have h := hcomments.append ((hheader.append (hbody.append hresult).block).append
    (writes_emit "\x7d"))
  simpa [steps, lines, Function.comp_def] using h

theorem oneLine_of_mem_lines (hname : OneLine name) (hslots : ∀ slot ∈ slots, OneLine slot)
    (level : Nat) : ∀ line ∈ lines name display slots level body, OneLine line.text := by
  have hvalue := slots.oneLine_name hslots .value
  have hbody := Stmt.oneLine_of_mem_linesAll fun stmt (_ : stmt ∈ body) =>
    Stmt.oneLine_of_mem_lines hslots stmt (level + 1)
  unfold lines
  refine List.forall_mem_append.2 ⟨List.forall_mem_append.2 ⟨List.forall_mem_map.2 ?_,
    List.forall_mem_cons.2 ⟨?_, hbody⟩⟩,
    List.forall_mem_cons.2 ⟨?_, List.forall_mem_singleton.2 ?_⟩⟩
  · intro text htext
    simpa [OneLine] using Text.oneLine_of_mem_lines htext
  · simp [OneLine, hname, hvalue]
  · simp [OneLine, hvalue]
  · simp [OneLine]

/-- A listing is made of lines, and nothing that is written on a line breaks it. In the body, each
statement has its own lines on the level one above the number of blocks that it stands in: a branch
two, or three with an alternative, a loop two and any other statement one. The lines they start with
stand in pre-order. In the end the emitter is back on the level of the margin, and it never goes out
from there. -/
theorem render_lines (name display : String) (slots : SlotNames) (body : List Stmt)
    (hname : OneLine name) (hslots : ∀ slot ∈ slots, OneLine slot) :
    render name display slots body =
      String.join ((lines name display slots 0 body).map Line.written) ∧
    (∀ line ∈ lines name display slots 0 body, OneLine line.text) ∧
    ((Stmt.linesAll slots 1 body).map Line.level).Perm
      ((Stmt.nestedAll 0 body).flatMap Stmt.ownLevels) ∧
    ((Stmt.nestedAll 0 body).map (Stmt.openingLine slots)).Sublist
      (Stmt.linesAll slots 1 body) ∧
    (Emitter.run {} (steps name display slots body)).depth = 0 ∧
    ∀ before after, steps name display slots body = before ++ .outdent :: after →
      0 < (Emitter.run {} before).depth := by
  have h : Writes (steps name display slots body) _ := writes_steps
  refine ⟨?_, oneLine_of_mem_lines hname hslots 0, ?_, ?_, h.depth {}, h.inside {}⟩
  · have htext := h.text {}
    simpa [render] using htext
  · exact Stmt.perm_levelsAll_of fun stmt _ => stmt.perm_levels 0
  · exact Stmt.openingsAll_sublist_of fun stmt _ => stmt.openings_sublist 0

/-- A loop around a branch with an alternative. The query is written on two lines, and a key and a
literal hold line feeds. -/
theorem render_lines_nested :
    let slots := ["value", "current", "item"]
    let body : List Stmt := [.forEach ⟨2⟩ ⟨0⟩ [.branch (.isNull ⟨2⟩)
      [.insert ⟨1⟩ "a\nb" ⟨2⟩] [.assign ⟨0⟩ (.literal (.array [.string "\n"]))]]]
    (OneLine "main" ∧ ∀ slot ∈ slots, OneLine slot) ∧
    render "main" "x\r\ny" slots body = String.join ([⟨0, "// x"⟩, ⟨0, "// y"⟩,
      ⟨0, "fn main(interpreter, value) \x7b"⟩,
      ⟨1, "for item in iterate(value) \x7b"⟩,
      ⟨2, "if is_null(item) \x7b"⟩,
      ⟨3, "insert(current, \"a\\nb\", item);"⟩,
      ⟨2, "\x7d else \x7b"⟩,
      ⟨3, "value = [\"\\n\"];"⟩,
      ⟨2, "\x7d"⟩,
      ⟨1, "\x7d"⟩,
      ⟨1, "return value;"⟩,
      ⟨0, "\x7d"⟩].map Line.written) ∧
    (Emitter.run {} (steps "main" "x\r\ny" slots body)).depth = 0 := by
  intro slots body
  have hname : OneLine "main" := by simp [OneLine]
  have hslots : ∀ slot ∈ slots, OneLine slot := by simp [slots, OneLine]
  obtain ⟨htext, -, -, -, hdepth, -⟩ := render_lines "main" "x\r\ny" slots body hname hslots
  exact ⟨⟨hname, hslots⟩, htext.trans rfl, hdepth⟩

end Listing

end PathQuery
