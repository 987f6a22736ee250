import Mathlib
import PathQuery.Json.Reader
import PathQuery.Json.Writer
import PathQuery.Text.Quoted

/-!
# Reading the notation

The texts of listings, literals and compact JSON are made of words, quoted texts and marks, and
brackets nest in them. So a text is read in two steps, each of which is a function:

* `lex` divides a text into tokens and leaves blanks out;
* `Tree.nest` puts what stands between brackets into groups. It undoes `Tree.flatten`
  (`Tree.nest_flatten`), so trees with the same tokens are the same (`Tree.flatten_inj`).

What `lex` reads from a quoted text is the text as it was escaped. Both ways to escape are of one
kind (`Escape`), which can be undone (`flatMap_escape_inj`).
-/

namespace PathQuery

/-- A piece of text that is no bracket and no blank. -/
inductive Atom where
  | word (chars : List Char)
  /-- What stands between two quotes, as it was written. -/
  | quoted (chars : List Char)
  | mark (c : Char)

inductive Token where
  | atom (atom : Atom)
  | opening (c : Char)
  | closing

/-! ## Lexing -/

/-- The characters of words: those of names and numbers. -/
def isWord (c : Char) : Bool :=
  c.isAlphanum || c == '_' || c == '.' || c == '-' || c == '+'

namespace Lexer

/-- Where in a token a text stands. What was read of it is kept last character first. -/
inductive Mode where
  | between
  | word (read : List Char)
  | quoted (read : List Char)
  /-- Right behind a backslash. -/
  | escaped (read : List Char)

/-- What a character outside of words and quoted texts stands for. -/
def symbol (c : Char) : List Token :=
  if c == ' ' || c == '\n' then []
  else if c == '(' || c == '[' || c == '\x7b' then [.opening c]
  else if c == ')' || c == ']' || c == '\x7d' then [.closing]
  else [.atom (.mark c)]

/-- Reads on after a character outside of words and quoted texts. -/
def start (c : Char) : List Token × Mode :=
  if c == '"' then ([], .quoted [])
  else if isWord c then ([], .word [c])
  else (symbol c, .between)

def step : Mode → Char → List Token × Mode
  | .between, c => start c
  | .word read, c =>
    if isWord c then ([], .word (c :: read))
    else (.atom (.word read.reverse) :: (start c).1, (start c).2)
  | .quoted read, c =>
    if c == '"' then ([.atom (.quoted read.reverse)], .between)
    else if c == '\\' then ([], .escaped (c :: read))
    else ([], .quoted (c :: read))
  | .escaped read, c => ([], .quoted (c :: read))

/-- The tokens of the rest of a text. -/
def run : Mode → List Char → List Token
  | .word read, [] => [.atom (.word read.reverse)]
  | _, [] => []
  | mode, c :: cs => (step mode c).1 ++ run (step mode c).2 cs

end Lexer

/-- The tokens of a text. -/
def lex (cs : List Char) : List Token := Lexer.run .between cs

/-- No word goes on with the text. -/
def Stops (cs : List Char) : Prop := ∀ c ∈ cs.head?, isWord c = false

@[simp] theorem stops_nil : Stops [] := by simp [Stops]

@[simp] theorem stops_cons {c : Char} {cs : List Char} : Stops (c :: cs) ↔ isWord c = false := by
  simp [Stops]

namespace Lexer

theorem run_word {read word rest : List Char} (hw : ∀ c ∈ word, isWord c = true)
    (hr : Stops rest) :
    run (.word read) (word ++ rest) =
      .atom (.word (read.reverse ++ word)) :: run .between rest := by
  induction word generalizing read with
  | nil =>
    rw [List.append_nil, List.nil_append]
    cases rest with
    | nil => rfl
    | cons c cs =>
      rw [stops_cons] at hr
      simp [run, step, hr]
  | cons c word ih =>
    obtain ⟨hc, hword⟩ := List.forall_mem_cons.1 hw
    rw [List.cons_append, run, step, if_pos hc, List.nil_append, ih hword, List.reverse_cons,
      List.append_assoc, List.singleton_append]

end Lexer

/-- A word that starts a text is read in one piece. -/
theorem lex_word {c : Char} {word rest : List Char} (hw : ∀ d ∈ c :: word, isWord d = true)
    (hr : Stops rest) : lex (c :: word ++ rest) = .atom (.word (c :: word)) :: lex rest := by
  obtain ⟨hc, hword⟩ := List.forall_mem_cons.1 hw
  have hq : (c == '"') = false := beq_eq_false_iff_ne.2 (by rintro rfl; cases hc)
  rw [lex, List.cons_append, Lexer.run, Lexer.step, Lexer.start, hq, if_neg (by decide), if_pos hc,
    List.nil_append, Lexer.run_word hword hr]
  rfl

/-! ## Escapes -/

/-- The ways in which a character may stand in a quoted text. -/
inductive Escape (c : Char) : List Char → Prop
  | plain : c ≠ '"' → c ≠ '\\' → ' ' ≤ c → Escape c [c]
  | short {e : Char} : Json.Reader.escapedChar e = some c → Escape c ['\\', e]
  | code : c.toNat < 256 →
    Escape c ['\\', 'u', '0', '0', Nat.digitChar (c.toNat / 16 % 16), Nat.digitChar (c.toNat % 16)]

theorem le_of_toNat_le {c d : Char} (h : c.toNat ≤ d.toNat) : c ≤ d := by
  rw [Char.le_def, UInt32.le_iff_toNat_le]
  exact h

theorem Text.toList_hex {n : Nat} (h : n < 0xA0) :
    (hex 4 n).toList = ['0', '0', Nat.digitChar (n / 16 % 16), Nat.digitChar (n % 16)] := by
  have hall : ∀ n < 0xA0, Nat.toDigits 16 n =
      if n < 16 then [Nat.digitChar n] else [Nat.digitChar (n / 16), Nat.digitChar (n % 16)] := by
    decide +kernel
  rw [hex, hall n h, String.toList_ofList]
  split
  · next h16 =>
    rw [Nat.mod_eq_of_lt h16, Nat.div_eq_of_lt h16]
    rfl
  · next h16 =>
    rw [Nat.mod_eq_of_lt (by omega : n / 16 < 16)]
    rfl

theorem Text.escape_escape (c : Char) : Escape c (Text.escape c).toList := by
  unfold Text.escape
  split_ifs with h1 h2 h3 h4 h5 h6
  · cases eq_of_beq h1
    exact .short (e := '"') rfl
  · cases eq_of_beq h2
    exact .short (e := '\\') rfl
  · cases eq_of_beq h3
    exact .short (e := 'n') rfl
  · cases eq_of_beq h4
    exact .short (e := 'r') rfl
  · cases eq_of_beq h5
    exact .short (e := 't') rfl
  · simp only [isControl, Bool.or_eq_true, Bool.and_eq_true, decide_eq_true_eq] at h6
    rw [String.toList_append, Text.toList_hex (by omega)]
    exact .code (by omega)
  · simp only [isControl, Bool.or_eq_true, Bool.and_eq_true, decide_eq_true_eq] at h6
    rw [String.toList_singleton]
    exact .plain (by simpa using h1) (by simpa using h2) (le_of_toNat_le (by simp; omega))

theorem Json.escape_escape (c : Char) : Escape c (Json.escape c).toList := by
  unfold Json.escape
  split_ifs with h1 h2 h3 h4 h5 h6 h7 h8
  · cases eq_of_beq h1
    exact .short (e := '"') rfl
  · cases eq_of_beq h2
    exact .short (e := '\\') rfl
  · cases eq_of_beq h3
    exact .short (e := 'b') rfl
  · cases eq_of_beq h4
    exact .short (e := 'f') rfl
  · cases eq_of_beq h5
    exact .short (e := 'n') rfl
  · cases eq_of_beq h6
    exact .short (e := 'r') rfl
  · cases eq_of_beq h7
    exact .short (e := 't') rfl
  · have hc : c.toNat < 32 := by
      rw [Char.lt_def, UInt32.lt_iff_toNat_lt] at h8
      exact h8
    simp only [String.toList_append, hexByte, String.toList_ofList]
    exact Escape.code (c := c) (by omega)
  · rw [String.toList_singleton]
    exact .plain (by simpa using h1) (by simpa using h2) (Char.not_lt.1 h8)

namespace Escape

variable {c : Char} {e : List Char}

theorem digitChar_ne {n : Nat} (h : n < 16) : Nat.digitChar n ≠ '"' ∧ Nat.digitChar n ≠ '\\' := by
  have hall : ∀ n < 16, Nat.digitChar n ≠ '"' ∧ Nat.digitChar n ≠ '\\' := by decide
  exact hall n h

/-- The lexer goes past an escaped character without ending the quoted text. -/
theorem run_quoted (h : Escape c e) (read rest : List Char) :
    Lexer.run (.quoted read) (e ++ rest) = Lexer.run (.quoted (e.reverse ++ read)) rest := by
  cases h with
  | plain hq hb _ => simp [Lexer.run, Lexer.step, hq, hb]
  | short _ => rfl
  | code _ =>
    have hhigh := digitChar_ne (Nat.mod_lt (c.toNat / 16) (by decide : 16 > 0))
    have hlow := digitChar_ne (Nat.mod_lt c.toNat (by decide : 16 > 0))
    simp [Lexer.run, Lexer.step, hhigh, hlow]

/-- A reader of quoted texts finds the character. -/
theorem text_append (h : Escape c e) (read rest : List Char) :
    Json.Reader.text read (e ++ rest) = Json.Reader.text (c :: read) rest := by
  cases h with
  | plain hq hb hs =>
    have hc : (c < ' ' || c == '\\') = false := by simp [hb, Char.not_lt.2 hs]
    rw [List.singleton_append, Json.Reader.text, hc, if_neg (by decide)]
    · exact hq
    · rintro _ _ _ _ _ rfl
      exact absurd rfl hb
    · rintro _ _ rfl
      exact absurd rfl hb
  | short he =>
    unfold Json.Reader.escapedChar at he
    split at he <;> cases he
    all_goals rfl
  | code hn =>
    have hall : ∀ n < 256, Json.Reader.hexUnit '0' '0' (Nat.digitChar (n / 16 % 16))
        (Nat.digitChar (n % 16)) = some n := by
      decide +kernel
    have hh : Json.Reader.isHighSurrogate c.toNat = false := by
      simp [Json.Reader.isHighSurrogate]; omega
    have hl : Json.Reader.isLowSurrogate c.toNat = false := by
      simp [Json.Reader.isLowSurrogate]; omega
    simp only [List.cons_append, List.nil_append]
    rw [Json.Reader.text, hall _ hn]
    simp only [hh, hl, Char.ofNat_toNat]
    rfl

end Escape

section

variable {escape : Char → String} (he : ∀ c, Escape c (escape c).toList)

include he

/-- A quoted text is one token. -/
theorem lex_quoted (s rest : List Char) :
    lex ('"' :: (s.flatMap fun c => (escape c).toList) ++ '"' :: rest) =
      .atom (.quoted (s.flatMap fun c => (escape c).toList)) :: lex rest := by
  have hrun (read : List Char) :
      Lexer.run (.quoted read) ((s.flatMap fun c => (escape c).toList) ++ '"' :: rest) =
        .atom (.quoted (read.reverse ++ s.flatMap fun c => (escape c).toList)) :: lex rest := by
    induction s generalizing read with
    | nil => simp [Lexer.run, Lexer.step, lex]
    | cons c s ih =>
      rw [List.flatMap_cons, List.append_assoc, (he c).run_quoted, ih, List.reverse_append,
        List.reverse_reverse, List.append_assoc]
  exact hrun []

/-- What was escaped can be found again. -/
theorem flatMap_escape_inj {s t : List Char}
    (h : (s.flatMap fun c => (escape c).toList) = t.flatMap fun c => (escape c).toList) :
    s = t := by
  have htext (s read : List Char) :
      Json.Reader.text read ((s.flatMap fun c => (escape c).toList) ++ ['"']) =
        some (String.ofList (read.reverse ++ s), []) := by
    induction s generalizing read with
    | nil => simp [Json.Reader.text]
    | cons c s ih =>
      rw [List.flatMap_cons, List.append_assoc, (he c).text_append, ih, List.reverse_cons,
        List.append_assoc, List.singleton_append]
  have hs := htext s []
  rw [h, htext t []] at hs
  exact String.ofList_injective (congrArg Prod.fst (Option.some.inj hs)).symm

end

/-! ## Brackets -/

/-- Tokens in which everything between two brackets is one piece. -/
inductive Tree where
  | atom (atom : Atom)
  | group (opening : Char) (trees : List Tree)

namespace Tree

@[elab_as_elim, induction_eliminator]
theorem induction {motive : Tree → Prop} (atom : ∀ a, motive (.atom a))
    (group : ∀ opening trees, (∀ tree ∈ trees, motive tree) → motive (.group opening trees)) :
    ∀ tree, motive tree := by
  intro tree
  refine Tree.rec atom group ?nil ?cons tree
  case nil => exact List.forall_mem_nil _
  case cons => exact fun _ _ head tail => List.forall_mem_cons.2 ⟨head, tail⟩

mutual

/-- The tokens of a tree. -/
def tokens : Tree → List Token
  | .atom a => [.atom a]
  | .group opening trees => .opening opening :: flatten trees ++ [.closing]

/-- The tokens of several trees. -/
def flatten : List Tree → List Token
  | [] => []
  | tree :: trees => tree.tokens ++ flatten trees

end

theorem flatten_append (first second : List Tree) :
    flatten (first ++ second) = flatten first ++ flatten second := by
  induction first with
  | nil => rfl
  | cons tree trees ih => rw [List.cons_append, flatten, flatten, ih, List.append_assoc]

/-- Puts what stands between brackets into groups. The stack has an entry for each bracket that is
still open, with the trees that stand before it. -/
def nest : List (Char × List Tree) → List Tree → List Token → List Tree
  | _, done, [] => done
  | stack, done, .atom a :: tokens => nest stack (done ++ [.atom a]) tokens
  | stack, done, .opening c :: tokens => nest ((c, done) :: stack) [] tokens
  | [], done, .closing :: tokens => nest [] done tokens
  | (c, before) :: stack, done, .closing :: tokens =>
    nest stack (before ++ [.group c done]) tokens

theorem nest_flatten_of {trees : List Tree}
    (h : ∀ tree ∈ trees, ∀ stack done rest,
      nest stack done (tree.tokens ++ rest) = nest stack (done ++ [tree]) rest)
    (stack : List (Char × List Tree)) (done : List Tree) (rest : List Token) :
    nest stack done (flatten trees ++ rest) = nest stack (done ++ trees) rest := by
  induction trees generalizing done with
  | nil => rw [flatten, List.nil_append, List.append_nil]
  | cons tree trees ih =>
    obtain ⟨ht, hts⟩ := List.forall_mem_cons.1 h
    rw [flatten, List.append_assoc, ht, ih hts, List.append_assoc, List.singleton_append]

theorem nest_tokens (tree : Tree) (stack : List (Char × List Tree)) (done : List Tree)
    (rest : List Token) :
    nest stack done (tree.tokens ++ rest) = nest stack (done ++ [tree]) rest := by
  induction tree generalizing stack done rest with
  | atom a => rw [tokens, List.singleton_append, nest]
  | group opening trees ih =>
    rw [tokens, List.cons_append, List.cons_append, nest, List.append_assoc, nest_flatten_of ih,
      List.singleton_append, nest, List.nil_append]

theorem nest_flatten (trees : List Tree) : nest [] [] (flatten trees) = trees := by
  rw [← List.append_nil (flatten trees), nest_flatten_of fun tree _ => nest_tokens tree, nest,
    List.nil_append]

/-- Trees with the same tokens are the same. -/
theorem flatten_inj {trees others : List Tree} (h : flatten trees = flatten others) :
    trees = others := by
  rw [← nest_flatten trees, h, nest_flatten]

/-- Trees that are divided by commas. -/
def commas (forests : List (List Tree)) : List Tree := [.atom (.mark ',')].intercalate forests

theorem commas_cons_cons (first second : List Tree) (forests : List (List Tree)) :
    commas (first :: second :: forests) =
      first ++ .atom (.mark ',') :: commas (second :: forests) := by
  rw [commas, List.intercalate_cons_cons, List.append_assoc, List.singleton_append, commas]

/-- What stands between two commas, if it is something and has no comma itself. -/
def IsItem (trees : List Tree) : Prop := trees ≠ [] ∧ .atom (.mark ',') ∉ trees

/-- Items are known by what they give when they are divided by commas. -/
theorem commas_inj {forests others : List (List Tree)} (h : ∀ trees ∈ forests, IsItem trees)
    (ho : ∀ trees ∈ others, IsItem trees) (heq : commas forests = commas others) :
    forests = others := by
  classical
  have hnil {forests : List (List Tree)} (h : ∀ trees ∈ forests, IsItem trees) :
      commas forests = [] ↔ forests = [] := by
    rcases forests with _ | ⟨first, _ | ⟨second, forests⟩⟩
    · simp [commas]
    · simpa [commas] using (h first List.mem_cons_self).1
    · simp [commas_cons_cons]
  by_cases hf : forests = []
  · rw [hf, (hnil ho).1 (heq ▸ (hnil h).2 hf)]
  · have hne : others ≠ [] := fun hn => hf ((hnil h).1 (heq.trans ((hnil ho).2 hn)))
    rw [← List.splitOn_intercalate (.atom (.mark ',')) (fun trees ht => (h trees ht).2) hf,
      ← List.splitOn_intercalate (.atom (.mark ',')) (fun trees ht => (ho trees ht).2) hne]
    exact congrArg _ heq

end Tree

/-! ## Texts in a row -/

/-- The tokens of a text, whatever follows it. -/
def Breaks (text : String) (tokens : List Token) : Prop :=
  ∀ rest, lex (text.toList ++ rest) = tokens ++ lex rest

/-- The tokens of a text, provided that no word goes on with what follows it. -/
def Lexes (text : String) (tokens : List Token) : Prop :=
  ∀ rest, Stops rest → lex (text.toList ++ rest) = tokens ++ lex rest

/-- No word goes on with the text. -/
def Divides (text : String) : Prop := ∀ rest, Stops (text.toList ++ rest)

section

variable {a b : String} {s t : List Token}

theorem Breaks.lexes (h : Breaks a s) : Lexes a s := fun rest _ => h rest

theorem Breaks.append (ha : Breaks a s) (hb : Breaks b t) : Breaks (a ++ b) (s ++ t) := by
  intro rest
  rw [String.toList_append, List.append_assoc, ha, hb, List.append_assoc]

theorem Breaks.append_lexes (ha : Breaks a s) (hb : Lexes b t) : Lexes (a ++ b) (s ++ t) := by
  intro rest hr
  rw [String.toList_append, List.append_assoc, ha, hb rest hr, List.append_assoc]

theorem Lexes.append (ha : Lexes a s) (hb : Lexes b t) (hd : Divides b) :
    Lexes (a ++ b) (s ++ t) := by
  intro rest hr
  rw [String.toList_append, List.append_assoc, ha _ (hd rest), hb rest hr, List.append_assoc]

theorem Lexes.append_breaks (ha : Lexes a s) (hb : Breaks b t) (hd : Divides b) :
    Breaks (a ++ b) (s ++ t) := by
  intro rest
  rw [String.toList_append, List.append_assoc, ha _ (hd rest), hb, List.append_assoc]

theorem lexes_empty : Lexes "" [] := fun _ _ => rfl

/-- A text of nothing but the characters of words is one word. -/
theorem lexes_word (hne : a.toList ≠ []) (hw : ∀ c ∈ a.toList, isWord c = true) :
    Lexes a [.atom (.word a.toList)] := by
  intro rest hr
  obtain ⟨c, word, hc⟩ := List.exists_cons_of_ne_nil hne
  rw [hc] at hw ⊢
  exact lex_word hw hr

/-- A text in quotes is one token. -/
theorem breaks_quoted {escape : Char → String} (he : ∀ c, Escape c (escape c).toList) (s : String) :
    Breaks ("\"" ++ String.join (s.toList.map escape) ++ "\"")
      [.atom (.quoted (s.toList.flatMap fun c => (escape c).toList))] := by
  intro rest
  have h := lex_quoted he s.toList rest
  simpa [String.toList_join, List.flatMap_def, Function.comp_def] using h

theorem breaks_group {opening text closing : String} {c : Char} {trees : List Tree}
    (ho : Breaks opening [.opening c]) (ht : Lexes text (Tree.flatten trees))
    (hc : Breaks closing [.closing]) (hd : Divides closing) :
    Breaks (opening ++ text ++ closing) (Tree.flatten [.group c trees]) := by
  have h := (ho.append_lexes ht).append_breaks hc hd
  rwa [← List.append_nil (_ ++ [Token.closing])] at h

/-- Texts that are divided by commas. -/
theorem lexes_intercalate {comma : String} (hc : Breaks comma [.atom (.mark ',')])
    (hd : Divides comma) {parts : List String} {forests : List (List Tree)}
    (h : List.Forall₂ (fun part trees => Lexes part (Tree.flatten trees)) parts forests) :
    Lexes (comma.intercalate parts) (Tree.flatten (Tree.commas forests)) := by
  induction h with
  | nil => exact lexes_empty
  | @cons part trees parts forests hpart hrest ih =>
    cases hrest with
    | nil =>
      rw [String.intercalate_singleton, Tree.commas, List.intercalate_singleton]
      exact hpart
    | cons hnext hrest =>
      rw [String.intercalate_cons_cons, Tree.commas_cons_cons, Tree.flatten_append]
      have hfront := (hpart.append_breaks hc hd).append_lexes ih
      rwa [List.append_assoc] at hfront

end

end PathQuery
