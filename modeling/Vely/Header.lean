import Vely.Lib.CString

/-!
# What the modules share (`vely.h`)
-/

namespace Vely

/-- A status: `VV_OKAY` or `VV_ERR_EXIST`. -/
inductive Status where
  | okay
  | errExist
  deriving DecidableEq

/-- A pointer to a string (`char *`), with the string it points to. -/
structure StringPtr where
  addr : Addr
  text : CString
  deriving DecidableEq

end Vely
