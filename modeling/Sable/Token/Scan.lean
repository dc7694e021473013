import Sable.Span
import Sable.Token

/-! Cutting a source text into tokens.

Blanks and comments separate tokens and are dropped. Everywhere else the longest piece of text that
is a lexeme becomes a token; a character at which no lexeme starts is reported and skipped. -/
namespace Sable.Token

/-! ## Classes of characters -/

/-- Space, tab, carriage return and line feed. -/
def isBlank (c : Char) : Bool := c = ' ' || c = '\t' || c = '\r' || c = '\n'

def isNameStart (c : Char) : Bool := c.isAlpha || c = '_'

def isNamePart (c : Char) : Bool := c.isAlphanum || c = '_'

/-! ## Lexemes -/

/-- The value of decimal digits. -/
def digitsValue (digits : List Char) : Nat :=
  digits.foldl (fun value c => 10 * value + (c.toNat - '0'.toNat)) 0

/-- The number nearest to `whole.fraction`, of two equally near the even one. -/
def numberOf (whole fraction : List Char) : Token :=
  .number (.ofScientific (digitsValue (whole ++ fraction)) true fraction.length)

/-- A word is a keyword if it is spelt like one, else a name. -/
def ofWord (word : String) : Token :=
  match Keyword.ofText? word with
  | some k => .keyword k
  | none => .ident word

/-- The lexeme at the front of the text: its token and its characters. -/
def lexeme? (text : List Char) : Option (Token × List Char) :=
  match text with
  | [] => none
  | c :: _ =>
    if c.isDigit then
      let whole := text.takeWhile Char.isDigit
      match text.dropWhile Char.isDigit with
      | 'n' :: _ => some (.bigInteger (.ofList whole), whole ++ ['n'])
      | '.' :: rest =>
        let fraction := rest.takeWhile Char.isDigit
        if fraction.isEmpty then some (numberOf whole [], whole)
        else some (numberOf whole fraction, whole ++ '.' :: fraction)
      | _ => some (numberOf whole [], whole)
    else if isNameStart c then
      let word := text.takeWhile isNamePart
      some (ofWord (.ofList word), word)
    else
      (Punctuation.all.find? fun p => p.chars.isPrefixOf text).map fun p => (.mark p, p.chars)

/-! ## Scanning -/

/-- What stands at a place in the text. -/
inductive Piece where
  | token (token : Token)
  /-- A character that starts no lexeme. -/
  | unexpected
deriving DecidableEq, Repr

/-- The number of bytes that the characters take up. -/
def byteLength : List Char → Nat
  | [] => 0
  | c :: rest => c.utf8Size + byteLength rest

/-- The pieces of a text that begins at byte `start`, looking at no more than `count` places. -/
def piecesUpTo : (count start : Nat) → List Char → List (Spanned Piece)
  | 0, _, _ | _, _, [] => []
  | count + 1, start, c :: rest =>
    if isBlank c then piecesUpTo count (start + c.utf8Size) rest
    else if c = ';' then
      let comment := rest.takeWhile (· ≠ '\n')
      piecesUpTo count (start + c.utf8Size + byteLength comment) (rest.drop comment.length)
    else
      match lexeme? (c :: rest) with
      | some (token, chars) =>
        let stop := start + byteLength chars
        ⟨.token token, ⟨start, stop⟩⟩ :: piecesUpTo count stop ((c :: rest).drop chars.length)
      | none =>
        let stop := start + c.utf8Size
        ⟨.unexpected, ⟨start, stop⟩⟩ :: piecesUpTo count stop rest

/-- The pieces of a text in order; there are at most as many places as characters. -/
def pieces (text : List Char) : List (Spanned Piece) := piecesUpTo text.length 0 text

end Token

/-- The tokens of a text, and the places of the characters that belong to none. -/
structure Scan where
  tokens : List (Spanned Token)
  unexpected : List Span
deriving DecidableEq, Repr

def Scan.ofPieces (pieces : List (Spanned Token.Piece)) : Scan where
  tokens := pieces.filterMap fun
    | ⟨.token t, span⟩ => some ⟨t, span⟩
    | _ => none
  unexpected := pieces.filterMap fun
    | ⟨.unexpected, span⟩ => some span
    | _ => none

/-- Cuts a source text into tokens. -/
def scan (source : String) : Scan := .ofPieces (Token.pieces source.toList)

end Sable
