/-! Powers.

Powers of naturals and integers are those of the core library, in modules that import Mathlib too. -/

attribute [instance (2000), default_instance high] instPowNat
