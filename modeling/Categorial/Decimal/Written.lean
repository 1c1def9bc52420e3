import Categorial.Decimal.Layout
import Categorial.Decimal.Reader
set_option autoImplicit false

namespace Categorial

class Written (α : Type) where
  plain : α → List Char
  full : α → List Char
  /-- Two places, for reports. -/
  rounded : α → List Char
  read : List Char → Except Decimal.ReadError α

instance : Written Double where
  plain := Decimal.plain
  full := Decimal.full
  rounded := Decimal.fixed 2
  read := Decimal.read

end Categorial
