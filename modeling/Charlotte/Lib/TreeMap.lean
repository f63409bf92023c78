import Mathlib

/-!
# Ordered maps as lists of records
-/

namespace Charlotte.Lib

open Std (ExtTreeMap)

/-- Two maps are equal when they list the same records. -/
instance decidableEqExtTreeMap {κ α : Type} [Ord κ] [Std.TransOrd κ] [DecidableEq κ]
    [DecidableEq α] : DecidableEq (ExtTreeMap κ α) :=
  fun m m' => decidable_of_iff (m.toList = m'.toList) ExtTreeMap.toList_inj

end Charlotte.Lib
