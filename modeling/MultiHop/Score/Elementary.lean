/-
MultiHop/Score/Elementary.lean

The elementary functions of single precision that scoring needs.  The number format
fixes sums, products and quotients to the last bit, but not these: each platform
rounds them in its own way.  They are therefore a parameter of everything that uses
them, and a law that rests on a property of them names that property.
-/

namespace MultiHop

/-- Exponential, natural logarithm and power in single precision. -/
class Elementary where
  exp : Float32 → Float32
  log : Float32 → Float32
  /-- `pow x y` is `x` to the power `y`. -/
  pow : Float32 → Float32 → Float32

/-- The elementary functions of the platform. -/
@[reducible] def Elementary.platform : Elementary := ⟨Float32.exp, Float32.log, Float32.pow⟩

end MultiHop
