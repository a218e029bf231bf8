import LolToolchain.Text.Basic

/-! Short explanations of the words that start a construct. -/
namespace LolToolchain.Editor

def explanations : List (String × String) := [
  ("HAI", "`HAI <version>` opens a program."),
  ("KTHXBYE", "`KTHXBYE` ends a program."),
  ("BTW", "`BTW` starts a comment that runs to the end of the line."),
  ("OBTW", "`OBTW ... TLDR` is a block comment."),
  ("CAN", "`CAN HAS <lib>?` imports a library. Accepted and ignored."),
  ("I",
    "`I HAS A <var> [ITZ <expr> | ITZ A <type>]` declares a variable.\n\n`I IZ <fn> [YR <arg> "
      ++ "[AN YR <arg>]...] MKAY` calls a function."),
  ("R", "`<var> R <expr>` assigns a value."),
  ("IS", "`<var> IS NOW A <type>` casts a variable in place."),
  ("MAEK", "`MAEK <expr> [A] <type>` casts a value."),
  ("SUM", "`SUM OF <x> AN <y>` adds two numbers."),
  ("DIFF", "`DIFF OF <x> AN <y>` subtracts y from x."),
  ("PRODUKT", "`PRODUKT OF <x> AN <y>` multiplies two numbers."),
  ("QUOSHUNT", "`QUOSHUNT OF <x> AN <y>` divides x by y. NUMBR division truncates."),
  ("MOD", "`MOD OF <x> AN <y>` is the remainder of x divided by y."),
  ("BIGGR", "`BIGGR OF <x> AN <y>` is the larger of two numbers."),
  ("SMALLR", "`SMALLR OF <x> AN <y>` is the smaller of two numbers."),
  ("BOTH", "`BOTH OF <x> AN <y>` is logical and.\n\n`BOTH SAEM <x> AN <y>` tests equality."),
  ("EITHER", "`EITHER OF <x> AN <y>` is logical or."),
  ("WON", "`WON OF <x> AN <y>` is logical exclusive or."),
  ("NOT", "`NOT <x>` negates a TROOF."),
  ("ALL", "`ALL OF <x> [AN <y>]... MKAY` is true when every operand is."),
  ("ANY", "`ANY OF <x> [AN <y>]... MKAY` is true when some operand is."),
  ("DIFFRINT", "`DIFFRINT <x> AN <y>` tests inequality."),
  ("SMOOSH", "`SMOOSH <x> [AN <y>]... MKAY` concatenates values as YARNs."),
  ("VISIBLE",
    "`VISIBLE <expr>... [!]` prints its arguments. A trailing `!` suppresses the newline."),
  ("GIMMEH", "`GIMMEH <var>` reads a line of input into a variable."),
  ("O", "`O RLY? YA RLY ... [MEBBE <expr> ...] [NO WAI ...] OIC` branches on IT."),
  ("MEBBE", "`MEBBE <expr>` is an else-if arm of `O RLY?`."),
  ("WTF",
    "`WTF? OMG <literal> ... [OMGWTF ...] OIC` switches on IT. Arms fall through until `GTFO`."),
  ("GTFO", "`GTFO` leaves the enclosing loop or switch, or returns NOOB from a function."),
  ("IM",
    "`IM IN YR <label> [UPPIN|NERFIN YR <var>] [TIL|WILE <expr>] ... IM OUTTA YR <label>` loops."),
  ("HOW", "`HOW IZ I <name> [YR <param> [AN YR <param>]...] ... IF U SAY SO` defines a function."),
  ("FOUND", "`FOUND YR <expr>` returns a value from a function."),
  ("IT", "`IT` holds the value of the last bare expression."),
  ("WIN", "`WIN` is the TROOF true."),
  ("FAIL", "`FAIL` is the TROOF false."),
  ("NOOB", "`NOOB` is the untyped null value."),
  ("NUMBR", "`NUMBR` is the integer type."),
  ("NUMBAR", "`NUMBAR` is the floating point type."),
  ("YARN", "`YARN` is the string type."),
  ("TROOF", "`TROOF` is the boolean type."),
  ("BUKKIT", "`BUKKIT` is the list type."),
  ("LEN", "`LEN OF <expr>` counts the elements of a BUKKIT or the characters of a YARN."),
  ("PUT", "`PUT <expr> IN MAH <list> [AT <index>]` appends to a list or stores at an index."),
  ("PICK",
    "`PICK <index> OUTTA <src>` indexes a BUKKIT or YARN from zero. `PICK FRONT` and `PICK BAK` "
      ++ "take the first and last element."),
  ("FRONT", "`PICK FRONT OUTTA <src>` is the first element."),
  ("BAK", "`PICK BAK OUTTA <src>` is the last element.")]

/-- The explanation of a word under its name, in Markdown. -/
def explain? (word : Text) : Option Text :=
  (explanations.find? fun e => (e.1 : Text) == word).map fun e =>
    "**" ++ word ++ "**\n\n" ++ (e.2 : Text)

end LolToolchain.Editor
