import CssLex.Byte

namespace CssLex

/-- The type of a token. The order of the constructors fixes the tags, which are stable. -/
inductive Kind where
  /-- End of input, which is also the type at the end of a stream. -/
  | eof
  | ident
  /-- A name and the parenthesis that opens its arguments. -/
  | function
  | atKeyword
  | hash
  | string
  /-- A string cut short by a newline. -/
  | badString
  /-- An unquoted `url(…)` with both parentheses. -/
  | url
  /-- An unquoted url with something in it that it may not hold, up to where reading recovers. -/
  | badUrl
  | delim
  | number
  | percentage
  | dimension
  | whiteSpace
  /-- The mark `<!--`, which a style sheet may hold where it stands inside a page. -/
  | commentOpen
  /-- The mark `-->`. -/
  | commentClose
  | colon
  | semicolon
  | comma
  | leftSquare
  | rightSquare
  | leftParenthesis
  | rightParenthesis
  | leftCurly
  | rightCurly
  | comment
  deriving DecidableEq, Repr

namespace Kind

instance : Inhabited Kind := ⟨.eof⟩

/-- Every kind, in the order of tags. -/
def all : List Kind :=
  [.eof, .ident, .function, .atKeyword, .hash, .string, .badString, .url, .badUrl, .delim, .number, .percentage,
    .dimension, .whiteSpace, .commentOpen, .commentClose, .colon, .semicolon, .comma, .leftSquare, .rightSquare,
    .leftParenthesis, .rightParenthesis, .leftCurly, .rightCurly, .comment]

/-- The number that stands for a kind. -/
def tag (k : Kind) : Nat := k.ctorIdx

/-- The kind that a number stands for. -/
def ofTag? (n : Nat) : Option Kind := all[n]?

/-- The name a kind is shown by. -/
def name : Kind → String
  | eof => "EOF"
  | ident => "Ident"
  | function => "Function"
  | atKeyword => "AtKeyword"
  | hash => "Hash"
  | string => "String"
  | badString => "BadString"
  | url => "Url"
  | badUrl => "BadUrl"
  | delim => "Delim"
  | number => "Number"
  | percentage => "Percentage"
  | dimension => "Dimension"
  | whiteSpace => "WhiteSpace"
  | commentOpen => "CDO"
  | commentClose => "CDC"
  | colon => "Colon"
  | semicolon => "Semicolon"
  | comma => "Comma"
  | leftSquare => "LeftSquareBracket"
  | rightSquare => "RightSquareBracket"
  | leftParenthesis => "LeftParenthesis"
  | rightParenthesis => "RightParenthesis"
  | leftCurly => "LeftCurlyBracket"
  | rightCurly => "RightCurlyBracket"
  | comment => "Comment"

instance : ToString Kind := ⟨name⟩

/-- The identifier a kind is written as in structured data: its name, with acronyms spelled as words. -/
def identifier : Kind → String
  | eof => "Eof"
  | commentOpen => "Cdo"
  | commentClose => "Cdc"
  | k => k.name

/-- The kind with exactly this identifier. -/
def ofIdentifier? (s : String) : Option Kind := all.find? fun k => k.identifier == s

/-- The kind that closes an opening bracket; a function is closed by a parenthesis. -/
def closingPair? : Kind → Option Kind
  | function | leftParenthesis => some rightParenthesis
  | leftSquare => some rightSquare
  | leftCurly => some rightCurly
  | _ => none

/-- Opening brackets and functions. -/
def isOpen (k : Kind) : Bool := k.closingPair?.isSome

/-- Closing brackets. -/
def isClose : Kind → Bool
  | rightParenthesis | rightSquare | rightCurly => true
  | _ => false

/-- Whitespace and comments. -/
def isTrivia : Kind → Bool
  | whiteSpace | comment => true
  | _ => false

/-- The text of a kind that has only one spelling. -/
def lexeme? : Kind → Option String
  | commentOpen => some "<!--"
  | commentClose => some "-->"
  | colon => some ":"
  | semicolon => some ";"
  | comma => some ","
  | leftSquare => some "["
  | rightSquare => some "]"
  | leftParenthesis => some "("
  | rightParenthesis => some ")"
  | leftCurly => some "\x7b"
  | rightCurly => some "\x7d"
  | _ => none

/-- The kind of a byte that is a token by itself, whatever follows it. -/
def ofPunctuation? : UInt8 → Option Kind
  | Byte.colon => some colon
  | Byte.semicolon => some semicolon
  | Byte.comma => some comma
  | Byte.leftSquare => some leftSquare
  | Byte.rightSquare => some rightSquare
  | Byte.leftParenthesis => some leftParenthesis
  | Byte.rightParenthesis => some rightParenthesis
  | Byte.leftCurly => some leftCurly
  | Byte.rightCurly => some rightCurly
  | _ => none

end Kind
end CssLex
