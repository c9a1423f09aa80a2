import SqlCatalog.Text.Blank
import SqlCatalog.Text.Letter
import SqlCatalog.Text.Utf8

/-!
# Tokens

The text of a dump is cut into tokens in two steps.

* **Lexemes.** ASCII blanks separate words and are dropped; a comma and a
  semicolon are *marks*, which stand alone whatever they touch
  (`SqlCatalog.Token.lexemes`).
* **Loose brackets.** A word keeps the brackets that pair up inside it, so that
  `varchar(10)` and `(id)` are one token each, and gives up the *loose* ones,
  which have no partner in the word: `(id` becomes `(` and `id`, and `null)`
  becomes `null` and `)` (`SqlCatalog.Token.splitLoose`).

Letters are lower-cased in the ASCII range, and what is not UTF-8 is replaced,
word by word.

Both steps are written from the right: the head of a result is the piece still
being read, and `SqlCatalog.Token.push` puts it in front of the finished ones
when it holds anything.
-/

namespace SqlCatalog

namespace Token

open Text

/-- A finished piece in front of the others; an empty piece is none. -/
def push {α : Type} (piece : List α) (pieces : List (List α)) : List (List α) :=
  match piece with
  | [] => pieces
  | _ :: _ => piece :: pieces

/-! ### Lexemes -/

/-- **A mark**: a comma or a semicolon. -/
def isMark (b : UInt8) : Bool :=
  b == 0x2C || b == 0x3B

/-- The lexemes of an input: the word it begins with, which may be empty, and
the lexemes after that word, none of them empty. -/
def lexemesFrom : List UInt8 → List UInt8 × List (List UInt8)
  | [] => ([], [])
  | b :: bytes =>
    let (word, others) := lexemesFrom bytes
    if isMark b then ([], [b] :: push word others)
    else if isAsciiBlank b then ([], push word others)
    else (b :: word, others)

/-- **The lexemes of an input**: marks, each alone, and words. -/
def lexemes (bytes : List UInt8) : List (List UInt8) :=
  push (lexemesFrom bytes).1 (lexemesFrom bytes).2

/-! ### Loose brackets -/

/-- The number of closing brackets in a text that no bracket of the text
opens. -/
def surplus : List Char → Nat
  | [] => 0
  | c :: text =>
    if c = ')' then surplus text + 1
    else if c = '(' then surplus text - 1
    else surplus text

/-- The pieces of a word that follows `depth` open brackets: the piece it
begins with, which may be empty, and the others. An opening bracket is loose
when the rest of the word has no closing bracket to spare for it, and a closing
bracket when none is open. -/
def splitLooseFrom : Nat → List Char → List Char × List (List Char)
  | _, [] => ([], [])
  | depth, c :: text =>
    if c = '(' then
      -- the rest of the word decides whether this one is closed
      let (piece, others) := splitLooseFrom (depth + 1) text
      if surplus text = 0 then ([], [c] :: push piece others) else (c :: piece, others)
    else if c = ')' then
      -- and what came before whether this one was opened
      let (piece, others) := splitLooseFrom (depth - 1) text
      if depth = 0 then ([], [c] :: push piece others) else (c :: piece, others)
    else
      let (piece, others) := splitLooseFrom depth text
      (c :: piece, others)

/-- **A word cut at its loose brackets**, which become pieces of their own. -/
def splitLoose (word : List Char) : List (List Char) :=
  push (splitLooseFrom 0 word).1 (splitLooseFrom 0 word).2

/-! ### Tokens -/

/-- The tokens of one lexeme. -/
def ofLexeme (lexeme : List UInt8) : List String :=
  (splitLoose (lossy (lexeme.map lowerByte))).map String.ofList

end Token

/-- **The tokens of an input**, in order. -/
def tokenize (bytes : List UInt8) : List String :=
  (Token.lexemes bytes).flatMap Token.ofLexeme

end SqlCatalog
