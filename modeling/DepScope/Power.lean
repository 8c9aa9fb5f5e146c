/-!
# DepScope.Power

A power with a natural exponent is the core library's, the one the compiled program computes,
also where a module brings a second instance into scope.
-/

namespace DepScope

@[default_instance 20000]
instance (priority := 20000) corePower {α : Type} [NatPow α] : Pow α Nat :=
  instPowNat

end DepScope
