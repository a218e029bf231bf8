import LolToolchain.Text.CharName

namespace LolToolchain

/-- Some of the Unicode names, for a run that needs no others. -/
@[reducible] def CharNames.common : CharNames where
  rows := [
    (' ', "SPACE"),
    ('"', "QUOTATION MARK"),
    (':', "COLON"),
    ('a', "LATIN SMALL LETTER A"),
    ('\x7b', "LEFT CURLY BRACKET"),
    ('\u00A0', "NO-BREAK SPACE"),
    ('á', "LATIN SMALL LETTER A WITH ACUTE"),
    ('Ω', "GREEK CAPITAL LETTER OMEGA"),
    ('α', "GREEK SMALL LETTER ALPHA"),
    ('€', "EURO SIGN"),
    ('☃', "SNOWMAN"),
    ('❤', "HEAVY BLACK HEART"),
    ('🐱', "CAT FACE"),
    ('💩', "PILE OF POO"),
    ('🔔', "BELL")]
  ascending := by decide
  ascii := by simp

end LolToolchain
