/-!
# Tokens

The vocabulary of TesLang: words, numbers, strings, twenty-one keywords and twenty-six symbols.  `keywords` and
`symbols` are the tables by which a text is cut up; `Kind.name` is what messages and listings call a kind.
-/
namespace TesLang

/-- The kinds of token, which are the terminals of the grammar. -/
inductive Kind where
  | id | number | string | mstring
  | plus | minus | times | divide
  | assign | equal | notEqual | atLeast | atMost | greater | less
  | doubleColon | semicolon | comma
  | leftParen | rightParen | leftBrace | rightBrace | leftBracket | rightBracket
  | or | and | not | question | colon | arrow
  | funkKw | returnKw | asKw | forKw | toKw | lengthKw | beginKw | endKw | ifKw | elseKw | whileKw | doKw
  | intKw | vectorKw | strKw | mstrKw | boolKw | nullKw | trueKw | falseKw | printKw
  deriving DecidableEq, Repr

namespace Kind

def name : Kind → String
  | .id          => "ID"
  | .number      => "NUMBER"
  | .string      => "STRING"
  | .mstring     => "MSTRING"
  | .plus        => "PLUS"
  | .minus       => "MINUS"
  | .times       => "MULTIPLY"
  | .divide      => "DIVIDE"
  | .assign      => "EQ"
  | .equal       => "EQEQ"
  | .notEqual    => "NEQ"
  | .atLeast     => "GTEQ"
  | .atMost      => "LTEQ"
  | .greater     => "GREATER_THAN"
  | .less        => "LESS_THAN"
  | .doubleColon => "DBL_COLON"
  | .semicolon   => "SEMI_COLON"
  | .comma       => "COMMA"
  | .leftParen   => "LPAREN"
  | .rightParen  => "RPAREN"
  | .leftBrace   => "LCURLYEBR"
  | .rightBrace  => "RCURLYEBR"
  | .leftBracket => "LSQUAREBR"
  | .rightBracket => "RSQUAREBR"
  | .or          => "OR"
  | .and         => "AND"
  | .not         => "NOT"
  | .question    => "QMARK"
  | .colon       => "COLON"
  | .arrow       => "ARROW"
  | .funkKw      => "FUNK"
  | .returnKw    => "RETURN"
  | .asKw        => "AS"
  | .forKw       => "FOR"
  | .toKw        => "TO"
  | .lengthKw    => "LEN"
  | .beginKw     => "BEGIN"
  | .endKw       => "END"
  | .ifKw        => "IF"
  | .elseKw      => "ELSE"
  | .whileKw     => "WHILE"
  | .doKw        => "DO"
  | .intKw       => "INT"
  | .vectorKw    => "VECTOR"
  | .strKw       => "STR"
  | .mstrKw      => "MSTR"
  | .boolKw      => "BOOL"
  | .nullKw      => "NULL"
  | .trueKw      => "TRUE"
  | .falseKw     => "FALSE"
  | .printKw     => "PRINT"

end Kind

/-- The words that are no identifiers. -/
def keywords : List (String × Kind) :=
  [("funk", .funkKw), ("return", .returnKw), ("as", .asKw), ("for", .forKw), ("to", .toKw), ("length", .lengthKw),
   ("begin", .beginKw), ("end", .endKw), ("if", .ifKw), ("else", .elseKw), ("while", .whileKw), ("do", .doKw),
   ("int", .intKw), ("vector", .vectorKw), ("str", .strKw), ("mstr", .mstrKw), ("bool", .boolKw), ("null", .nullKw),
   ("true", .trueKw), ("false", .falseKw), ("print", .printKw)]

/-- The symbols, the longer ones first, so that the first that fits is the longest that fits. -/
def symbols : List (String × Kind) :=
  [("||", .or), ("&&", .and), ("==", .equal), ("!=", .notEqual), (">=", .atLeast), ("<=", .atMost), ("::", .doubleColon),
   ("=>", .arrow), ("+", .plus), ("-", .minus), ("*", .times), ("/", .divide), (">", .greater), ("<", .less),
   ("=", .assign), (";", .semicolon), (",", .comma), ("?", .question), (":", .colon), ("!", .not), ("(", .leftParen),
   (")", .rightParen), ("\x7b", .leftBrace), ("\x7d", .rightBrace), ("[", .leftBracket), ("]", .rightBracket)]

/-- The kind of a word: its keyword, or an identifier. -/
def Kind.ofWord (w : String) : Kind := (keywords.lookup w).getD .id

namespace Token

/-- What a token stands for: a number for a number literal, its text for all else.  The text of a string is what
stands between its quotes, exactly as written. -/
inductive Value where
  | text (s : String)
  | number (n : Nat)
  deriving DecidableEq, Repr

end Token

/-- A token, with the line and the position at which it starts. -/
structure Token where
  kind : Kind
  value : Token.Value
  line : Nat
  pos : Nat
  deriving DecidableEq, Repr

namespace Token

/-- The value in writing; a number loses its leading zeros and its script. -/
def text (t : Token) : String :=
  match t.value with
  | .text s   => s
  | .number n => toString n

/-- The number that a token stands for; zero for a token that is no number literal. -/
def count (t : Token) : Nat :=
  match t.value with
  | .text _   => 0
  | .number n => n

end Token
end TesLang
