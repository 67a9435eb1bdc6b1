-- The keywords of the dialect. Case does not matter for them, and most of
-- them may also name a table or a tag.
namespace TagDialect

inductive Keyword where
  | alter | as | call | create | days | delete | exists | false | hours | if | map | minutes
  | not | of | or | rename | replace | retain | show | table | tag | tags | to | true | version
deriving DecidableEq

namespace Keyword

/-- The canonical spelling. -/
def text : Keyword → String
  | .alter => "ALTER"
  | .as => "AS"
  | .call => "CALL"
  | .create => "CREATE"
  | .days => "DAYS"
  | .delete => "DELETE"
  | .exists => "EXISTS"
  | .false => "FALSE"
  | .hours => "HOURS"
  | .if => "IF"
  | .map => "MAP"
  | .minutes => "MINUTES"
  | .not => "NOT"
  | .of => "OF"
  | .or => "OR"
  | .rename => "RENAME"
  | .replace => "REPLACE"
  | .retain => "RETAIN"
  | .show => "SHOW"
  | .table => "TABLE"
  | .tag => "TAG"
  | .tags => "TAGS"
  | .to => "TO"
  | .true => "TRUE"
  | .version => "VERSION"

def all : List Keyword :=
  [.alter, .as, .call, .create, .days, .delete, .exists, .false, .hours, .if, .map, .minutes,
    .not, .of, .or, .rename, .replace, .retain, .show, .table, .tag, .tags, .to, .true, .version]

/-- The keyword that a word spells in any mix of upper and lower case. -/
def ofWord? (word : List Char) : Option Keyword :=
  all.find? fun k => k.text.toList == word.map Char.toUpper

/-- A reserved keyword never names anything. -/
def isReserved : Keyword → Bool
  | .minutes | .rename | .show | .tags | .to => Bool.true
  | _ => Bool.false

theorem ofWord?_text (k : Keyword) : ofWord? k.text.toList = some k := by cases k <;> decide

end Keyword

end TagDialect
