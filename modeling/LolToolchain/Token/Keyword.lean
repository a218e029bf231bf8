import LolToolchain.Text.Basic

/-! The reserved words of the language. They are case-sensitive, and TILL is another spelling of TIL. -/
namespace LolToolchain

inductive Keyword where
  | HAI | KTHXBYE | I | HAS | A | ITZ | R | AN | SUM | OF | DIFF | PRODUKT | QUOSHUNT | MOD
  | BIGGR | SMALLR | BOTH | EITHER | WON | NOT | ALL | ANY | SAEM | DIFFRINT | SMOOSH | MKAY
  | MAEK | IS | NOW | VISIBLE | GIMMEH | O | RLY | YA | MEBBE | NO | WAI | OIC | WTF | OMG
  | OMGWTF | GTFO | IM | IN | YR | OUTTA | UPPIN | NERFIN | TIL | WILE | HOW | IZ | IF | U
  | SAY | SO | FOUND | CAN | WIN | FAIL | NOOB | NUMBR | NUMBAR | YARN | TROOF | BUKKIT | IT
  | LEN | PUT | MAH | AT | PICK | FRONT | BAK
  deriving DecidableEq, Repr, Inhabited

namespace Keyword

def all : List Keyword := [
    .HAI, .KTHXBYE, .I, .HAS, .A, .ITZ, .R, .AN, .SUM, .OF, .DIFF, .PRODUKT, .QUOSHUNT, .MOD,
    .BIGGR, .SMALLR, .BOTH, .EITHER, .WON, .NOT, .ALL, .ANY, .SAEM, .DIFFRINT, .SMOOSH, .MKAY,
    .MAEK, .IS, .NOW, .VISIBLE, .GIMMEH, .O, .RLY, .YA, .MEBBE, .NO, .WAI, .OIC, .WTF, .OMG,
    .OMGWTF, .GTFO, .IM, .IN, .YR, .OUTTA, .UPPIN, .NERFIN, .TIL, .WILE, .HOW, .IZ, .IF, .U,
    .SAY, .SO, .FOUND, .CAN, .WIN, .FAIL, .NOOB, .NUMBR, .NUMBAR, .YARN, .TROOF, .BUKKIT, .IT,
    .LEN, .PUT, .MAH, .AT, .PICK, .FRONT, .BAK]

def word : Keyword → String
  | .HAI => "HAI" | .KTHXBYE => "KTHXBYE" | .I => "I" | .HAS => "HAS" | .A => "A"
  | .ITZ => "ITZ" | .R => "R" | .AN => "AN" | .SUM => "SUM" | .OF => "OF" | .DIFF => "DIFF"
  | .PRODUKT => "PRODUKT" | .QUOSHUNT => "QUOSHUNT" | .MOD => "MOD" | .BIGGR => "BIGGR"
  | .SMALLR => "SMALLR" | .BOTH => "BOTH" | .EITHER => "EITHER" | .WON => "WON" | .NOT => "NOT"
  | .ALL => "ALL" | .ANY => "ANY" | .SAEM => "SAEM" | .DIFFRINT => "DIFFRINT"
  | .SMOOSH => "SMOOSH" | .MKAY => "MKAY" | .MAEK => "MAEK" | .IS => "IS" | .NOW => "NOW"
  | .VISIBLE => "VISIBLE" | .GIMMEH => "GIMMEH" | .O => "O" | .RLY => "RLY" | .YA => "YA"
  | .MEBBE => "MEBBE" | .NO => "NO" | .WAI => "WAI" | .OIC => "OIC" | .WTF => "WTF"
  | .OMG => "OMG" | .OMGWTF => "OMGWTF" | .GTFO => "GTFO" | .IM => "IM" | .IN => "IN"
  | .YR => "YR" | .OUTTA => "OUTTA" | .UPPIN => "UPPIN" | .NERFIN => "NERFIN" | .TIL => "TIL"
  | .WILE => "WILE" | .HOW => "HOW" | .IZ => "IZ" | .IF => "IF" | .U => "U" | .SAY => "SAY"
  | .SO => "SO" | .FOUND => "FOUND" | .CAN => "CAN" | .WIN => "WIN" | .FAIL => "FAIL"
  | .NOOB => "NOOB" | .NUMBR => "NUMBR" | .NUMBAR => "NUMBAR" | .YARN => "YARN"
  | .TROOF => "TROOF" | .BUKKIT => "BUKKIT" | .IT => "IT" | .LEN => "LEN" | .PUT => "PUT"
  | .MAH => "MAH" | .AT => "AT" | .PICK => "PICK" | .FRONT => "FRONT" | .BAK => "BAK"

/-- The spellings of all reserved words, TILL included. -/
def spellings : List (String × Keyword) :=
  all.map (fun k => (k.word, k)) ++ [("TILL", .TIL)]

def ofWord? (t : Text) : Option Keyword :=
  (spellings.find? fun entry => Text.ofString entry.1 == t).map Prod.snd

end Keyword
end LolToolchain
