import LolToolchain.Text.Basic

/-! Paths as texts. Nothing here looks at files: `..` undoes the component before it. -/
namespace LolToolchain.Path

def slash : UInt8 := 0x2F

def isAbsolute (p : Text) : Bool :=
  p.head? == some slash

def components (p : Text) : List Text :=
  Text.splitOn slash p

/-- The components of the shortest equal path, the last one first. -/
def reduce (absolute : Bool) : List Text → List Text → List Text
  | done, [] => done
  | done, c :: cs =>
    if c.isEmpty || c == "." then reduce absolute done cs
    else if c == ".." then
      match done with
      | [] => reduce absolute (if absolute then [] else [c]) cs
      | d :: ds =>
        if d == ".." then reduce absolute (c :: d :: ds) cs else reduce absolute ds cs
    else reduce absolute (c :: done) cs

/-- The shortest equal path; the empty path is `.`. -/
def clean (p : Text) : Text :=
  let body := Text.join "/" (reduce (isAbsolute p) [] (components p)).reverse
  if isAbsolute p then "/" ++ body
  else if body.isEmpty then "." else body

def join (p q : Text) : Text :=
  if p.isEmpty && q.isEmpty then []
  else if p.isEmpty then clean q
  else if q.isEmpty then clean p
  else clean (p ++ "/" ++ q)

def parent (p : Text) : Text :=
  clean (Text.dropRightWhile (· != slash) p)

def absolute (directory p : Text) : Text :=
  if isAbsolute p then clean p else join directory p

end LolToolchain.Path
