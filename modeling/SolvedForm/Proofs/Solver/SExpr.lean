import Mathlib.Data.List.Forall2
import Mathlib.Tactic.Common

/-!
S-expressions and their texts.

* `SExpr`: words, symbols between bars, and lists.
* `SExpr.lex`: the tokens of a text; blanks, parentheses and bars end a word.
* `SExpr.parse`, `SExpr.read`: the S-expressions that tokens, or the text, consist of.
* `SExpr.lex_word`, `SExpr.lex_quoted`: words and symbols are found as they were written.
* `SExpr.parse_tokens`: S-expressions are found again in their tokens.
* `SExpr.Spells`, `SExpr.read_lines`: a text that is read as an expression, and lines of such texts.
-/

namespace SolvedForm

/-- An S-expression; a quoted symbol is given without its bars. -/
inductive SExpr where
  | word (text : String)
  | quoted (name : String)
  | list (items : List SExpr)

namespace SExpr

/-! ### Tokens -/

/-- A token. -/
inductive Token where
  | opening
  | closing
  | word (text : String)
  | quoted (name : String)

/-- What has been read of a token that may go on. -/
inductive Partial where
  | blank
  | word (cs : List Char)
  | quoted (cs : List Char)

/-- The character separates tokens and says nothing else. -/
def isBlank (c : Char) : Bool := c = ' ' || c = '\n' || c = '\t' || c = '\r'

/-- The character ends a word. -/
def isDelimiter (c : Char) : Bool := c = '(' || c = ')' || c = '|' || isBlank c

/-- What a character outside a token is or begins. -/
def begin (c : Char) : List Token × Partial :=
  if c = '(' then ([.opening], .blank)
  else if c = ')' then ([.closing], .blank)
  else if c = '|' then ([], .quoted [])
  else if isBlank c then ([], .blank)
  else ([], .word [c])

/-- The tokens that a further character completes, and what may go on after it; a backslash is not
allowed between bars. -/
def next (c : Char) : Partial → Option (List Token × Partial)
  | .blank => some (begin c)
  | .word cs =>
    if isDelimiter c then some (.word (.ofList cs) :: (begin c).1, (begin c).2)
    else some ([], .word (cs ++ [c]))
  | .quoted cs =>
    if c = '|' then some ([.quoted (.ofList cs)], .blank)
    else if c = '\\' then none
    else some ([], .quoted (cs ++ [c]))

/-- The token at the end of a text; a symbol needs its second bar. -/
def finish : Partial → Option (List Token)
  | .blank => some []
  | .word cs => some [.word (.ofList cs)]
  | .quoted _ => none

/-- The tokens of a text. -/
def lex : Partial → List Char → Option (List Token)
  | p, [] => finish p
  | p, c :: cs => (next c p).bind fun r => (lex r.2 cs).map (r.1 ++ ·)

/-! ### Expressions -/

/-- The innermost open list with an item more. -/
def push (e : SExpr) : List (List SExpr) → List (List SExpr)
  | [] => []
  | es :: stack => (es ++ [e]) :: stack

/-- The expressions that tokens consist of. The stack has the items of the lists that are still
open, the innermost first; at the bottom are the expressions that stand outside all lists. -/
def parse (stack : List (List SExpr)) : List Token → Option (List SExpr)
  | [] =>
    match stack with
    | [es] => some es
    | _ => none
  | .opening :: ts => parse ([] :: stack) ts
  | .closing :: ts =>
    match stack with
    | es :: fs :: stack => parse (push (.list es) (fs :: stack)) ts
    | _ => none
  | .word w :: ts => parse (push (.word w) stack) ts
  | .quoted s :: ts => parse (push (.quoted s) stack) ts

/-- The expressions of a text. -/
def read (text : String) : Option (List SExpr) := (lex .blank text.toList).bind (parse [[]])

mutual

/-- The tokens of an expression. -/
def tokens : SExpr → List Token
  | .word w => [.word w]
  | .quoted s => [.quoted s]
  | .list es => .opening :: (tokensAll es ++ [.closing])
  termination_by structural e => e

/-- The tokens of several expressions. -/
def tokensAll : List SExpr → List Token
  | [] => []
  | e :: es => tokens e ++ tokensAll es
  termination_by structural es => es

end

mutual

/-- An expression is found in its tokens. -/
lemma parse_tokens (e : SExpr) (es : List SExpr) (stack : List (List SExpr)) (ts : List Token) :
    parse (es :: stack) (e.tokens ++ ts) = parse ((es ++ [e]) :: stack) ts := by
  cases e with
  | word w => rfl
  | quoted s => rfl
  | list items =>
      rw [tokens, List.cons_append, parse, List.append_assoc, parse_tokensAll, List.nil_append]
      rfl
  termination_by structural e

/-- Several expressions are found in their tokens. -/
lemma parse_tokensAll (items : List SExpr) (es : List SExpr) (stack : List (List SExpr))
    (ts : List Token) :
    parse (es :: stack) (tokensAll items ++ ts) = parse ((es ++ items) :: stack) ts := by
  cases items with
  | nil => rw [tokensAll, List.nil_append, List.append_nil]
  | cons e items =>
      rw [tokensAll, List.append_assoc, parse_tokens, parse_tokensAll, List.append_assoc]
      rfl
  termination_by structural items

end

/-! ### Texts -/

variable {p q : Partial} {c : Char} {cs w s : List Char}

/-- A character that completes no token. -/
lemma lex_cons (h : next c p = some ([], q)) : lex p (c :: cs) = lex q cs := by
  rw [lex, h]
  exact Option.map_id'

@[simp] lemma lex_opening : lex .blank ('(' :: cs) = (lex .blank cs).map (.opening :: ·) := rfl

@[simp] lemma lex_closing : lex .blank (')' :: cs) = (lex .blank cs).map (.closing :: ·) := rfl

@[simp] lemma lex_space : lex .blank (' ' :: cs) = lex .blank cs := lex_cons rfl

@[simp] lemma lex_newline : lex .blank ('\n' :: cs) = lex .blank cs := lex_cons rfl

/-- A symbol between bars is one token. -/
lemma lex_quoted (hs : ∀ c ∈ s, c ≠ '|' ∧ c ≠ '\\') :
    lex .blank ('|' :: (s ++ '|' :: cs)) = (lex .blank cs).map (.quoted (.ofList s) :: ·) := by
  have go : ∀ seen, lex (.quoted seen) (s ++ '|' :: cs) =
      (lex .blank cs).map (.quoted (.ofList (seen ++ s)) :: ·) := by
    induction s with
    | nil =>
        intro seen
        rw [List.append_nil]
        rfl
    | cons c s ih =>
        intro seen
        rw [List.forall_mem_cons] at hs
        have hnext : next c (.quoted seen) = some ([], .quoted (seen ++ [c])) := by
          rw [next, if_neg hs.1.1, if_neg hs.1.2]
        rw [List.cons_append, lex_cons hnext, ih hs.2, List.append_assoc, List.singleton_append]
  rw [lex_cons (q := .quoted []) rfl, go, List.nil_append]

/-- A word before a delimiter is one token. -/
lemma lex_word (hne : w ≠ []) (hw : ∀ c ∈ w, isDelimiter c = false) (hc : isDelimiter c = true) :
    lex .blank (w ++ c :: cs) = (lex .blank (c :: cs)).map (.word (.ofList w) :: ·) := by
  have go : ∀ w seen, (∀ c ∈ w, isDelimiter c = false) → lex (.word seen) (w ++ c :: cs) =
      (lex .blank (c :: cs)).map (.word (.ofList (seen ++ w)) :: ·) := by
    intro w
    induction w with
    | nil =>
        intro seen _
        rw [List.nil_append, List.append_nil, lex, next, if_pos hc, Option.bind_some, lex, next,
          Option.bind_some, Option.map_map]
        rfl
    | cons d w ih =>
        intro seen hw
        rw [List.forall_mem_cons] at hw
        have hnext : next d (.word seen) = some ([], .word (seen ++ [d])) := by
          rw [next, if_neg (by simp [hw.1])]
        rw [List.cons_append, lex_cons hnext, ih _ hw.2, List.append_assoc, List.singleton_append]
  obtain ⟨d, w, rfl⟩ := List.exists_cons_of_ne_nil hne
  rw [List.forall_mem_cons] at hw
  have hnext : next d .blank = some ([], .word [d]) := by
    have hd := hw.1
    simp only [isDelimiter, Bool.or_eq_false_iff, decide_eq_false_iff_not] at hd
    simp [next, begin, hd]
  rw [List.cons_append, lex_cons hnext, go _ _ hw.2, List.singleton_append]

/-! ### Spelling -/

/-- Before a delimiter the text is read as the expression. -/
def Spells (text : String) (e : SExpr) : Prop :=
  ∀ ⦃c cs⦄, isDelimiter c = true →
    lex .blank (text.toList ++ c :: cs) = (lex .blank (c :: cs)).map (e.tokens ++ ·)

lemma spells_word {text : String} (hne : text ≠ "")
    (hw : text.toList.any isDelimiter = false) : Spells text (.word text) := by
  intro c cs hc
  have hword : ∀ c ∈ text.toList, isDelimiter c = false := by simpa using hw
  rw [lex_word (by simpa using hne) hword hc, String.ofList_toList]
  rfl

lemma spells_quoted {name : String} (hs : ∀ c ∈ name.toList, c ≠ '|' ∧ c ≠ '\\') :
    Spells ("|" ++ name ++ "|") (.quoted name) := by
  intro c cs hc
  have hlist : ("|" ++ name ++ "|").toList ++ c :: cs =
      '|' :: (name.toList ++ '|' :: c :: cs) := by simp
  rw [hlist, lex_quoted hs, String.ofList_toList]
  rfl

/-- Texts with spaces between them. -/
lemma lex_intercalate {texts : List String} {es : List SExpr} (h : List.Forall₂ Spells texts es)
    (hc : isDelimiter c = true) :
    lex .blank ((" ".intercalate texts).toList ++ c :: cs) =
      (lex .blank (c :: cs)).map (tokensAll es ++ ·) := by
  induction h with
  | nil => simp [tokensAll]
  | @cons text e texts es htext h ih =>
      cases texts with
      | nil =>
          cases h
          rw [String.intercalate_singleton, htext hc, tokensAll, tokensAll, List.append_nil]
      | cons text' texts =>
          have hlist : (" ".intercalate (text :: text' :: texts)).toList ++ c :: cs =
              text.toList ++ ' ' :: ((" ".intercalate (text' :: texts)).toList ++ c :: cs) := by
            rw [String.intercalate_cons_cons]
            simp
          rw [hlist, htext rfl, lex_space, ih, Option.map_map, tokensAll]
          exact congrArg (Option.map · _) (funext fun ts => (List.append_assoc ..).symm)

/-- A list of at least one item in parentheses. -/
lemma spells_list {first : String} {e : SExpr} {texts : List String} {es : List SExpr}
    (he : Spells first e) (h : List.Forall₂ Spells texts es) :
    Spells ("(" ++ first ++ " " ++ " ".intercalate texts ++ ")") (.list (e :: es)) := by
  intro c cs hc
  have hlist : ("(" ++ first ++ " " ++ " ".intercalate texts ++ ")").toList ++ c :: cs =
      '(' :: (first.toList ++ ' ' :: ((" ".intercalate texts).toList ++ ')' :: c :: cs)) := by simp
  rw [hlist, lex_opening, he rfl, lex_space, lex_intercalate h rfl, lex_closing, tokens, tokensAll]
  simp only [Option.map_map]
  exact congrArg (Option.map · _) (funext fun ts => by simp)

/-- A list in parentheses. -/
lemma spells_items {texts : List String} {es : List SExpr} (h : List.Forall₂ Spells texts es) :
    Spells ("(" ++ " ".intercalate texts ++ ")") (.list es) := by
  intro c cs hc
  have hlist : ("(" ++ " ".intercalate texts ++ ")").toList ++ c :: cs =
      '(' :: ((" ".intercalate texts).toList ++ ')' :: c :: cs) := by simp
  rw [hlist, lex_opening, lex_intercalate h rfl, lex_closing, tokens]
  simp only [Option.map_map]
  exact congrArg (Option.map · _) (funext fun ts => by simp)

/-- Lines, each with an expression. -/
lemma lex_lines {lines : List String} {es : List SExpr}
    (h : List.Forall₂ (fun line e => ∃ text, line = text ++ "\n" ∧ Spells text e) lines es)
    (cs : List Char) :
    lex .blank ((String.join lines).toList ++ cs) = (lex .blank cs).map (tokensAll es ++ ·) := by
  induction h with
  | nil => simp [tokensAll]
  | @cons line e lines es hline h ih =>
      obtain ⟨text, rfl, htext⟩ := hline
      have hlist : (String.join ((text ++ "\n") :: lines)).toList ++ cs =
          text.toList ++ '\n' :: ((String.join lines).toList ++ cs) := by simp
      rw [hlist, htext rfl, lex_newline, ih, Option.map_map, tokensAll]
      exact congrArg (Option.map · _) (funext fun ts => (List.append_assoc ..).symm)

/-- A text that consists of lines is read as their expressions. -/
theorem read_lines {lines : List String} {es : List SExpr}
    (h : List.Forall₂ (fun line e => ∃ text, line = text ++ "\n" ∧ Spells text e) lines es) :
    read (String.join lines) = some es := by
  have hlex := lex_lines h []
  have hnil : lex .blank [] = some [] := rfl
  rw [List.append_nil, hnil, Option.map_some, List.append_nil] at hlex
  have hparse := parse_tokensAll es [] [] []
  rw [List.append_nil] at hparse
  rw [read, hlex, Option.bind_some, hparse]
  rfl

end SExpr

end SolvedForm
