/-! Whole numbers of 64 bits: the range of the language's integers. -/
namespace LolToolchain.Numbr

def least : Int := -0x8000000000000000
def greatest : Int := 0x7FFFFFFFFFFFFFFF

def ofInt? (n : Int) : Option Int64 :=
  if least ≤ n ∧ n ≤ greatest then some (Int64.ofInt n) else none

end LolToolchain.Numbr
