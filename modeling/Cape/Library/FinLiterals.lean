import Mathlib.Tactic.Common

/-!
# Literals of small finite types

A literal of `Fin n` needs that `n` is not 0. For the sizes of small graphs this is an instance without
arguments, which names the zero that the literals have.
-/

set_option autoImplicit false

namespace Cape.Library

instance neZeroTwo : @NeZero Nat Zero.ofOfNat0 2 := ⟨Nat.succ_ne_zero 1⟩

instance neZeroThree : @NeZero Nat Zero.ofOfNat0 3 := ⟨Nat.succ_ne_zero 2⟩

instance neZeroFour : @NeZero Nat Zero.ofOfNat0 4 := ⟨Nat.succ_ne_zero 3⟩

instance neZeroFive : @NeZero Nat Zero.ofOfNat0 5 := ⟨Nat.succ_ne_zero 4⟩

instance neZeroSix : @NeZero Nat Zero.ofOfNat0 6 := ⟨Nat.succ_ne_zero 5⟩

instance neZeroSeven : @NeZero Nat Zero.ofOfNat0 7 := ⟨Nat.succ_ne_zero 6⟩

instance neZeroNine : @NeZero Nat Zero.ofOfNat0 9 := ⟨Nat.succ_ne_zero 8⟩

instance neZeroTwelve : @NeZero Nat Zero.ofOfNat0 12 := ⟨Nat.succ_ne_zero 11⟩

end Cape.Library
