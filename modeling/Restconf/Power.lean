set_option autoImplicit false

/-! # Powers of natural numbers

Bit fields and decimal places are measured in powers. -/

namespace Restconf

/-- The power of the core library comes before those that an imported library may add, so a power
    means the same in every module. -/
@[default_instance high]
instance (priority := high) powNat : Pow Nat Nat :=
  instPowNat

end Restconf
