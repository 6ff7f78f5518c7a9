/-
MultiHop/Query/Settings.lean

Settings of a reasoner: which connectives it uses, how wide its beams are, and
whether it ranks its answers.
-/
import MultiHop.Fuzzy.Norm

namespace MultiHop

/-- What makes settings unusable. -/
inductive SettingsError where
  /-- A text that is not the JSON of settings. -/
  | unreadable
  | unknownTNorm (name : String)
  | unknownNegation (name : String)
  /-- The beam would hold every entity, or more than there are. -/
  | beamTooWide (width entities : Nat)
  /-- The parameter of the negation is infinite or NaN. -/
  | lambdaNotFinite (lambda : Float32)
  /-- Sugeno's negation needs a parameter above -1. -/
  | sugenoLambda (lambda : Float32)
  /-- Yager's negation needs a parameter above 0. -/
  | yagerLambda (lambda : Float32)
deriving DecidableEq, Repr

/-- Wording of a settings error. -/
def SettingsError.message : SettingsError → String
  | .unreadable => "unreadable settings"
  | .unknownTNorm name => s!"unknown t-norm '{name}' (expected min or prod)"
  | .unknownNegation name =>
    s!"unknown negation norm '{name}' (expected standard, sugeno or yager)"
  | .beamTooWide width entities =>
    s!"beam width k = {width} must be below the entity count {entities}"
  | .lambdaNotFinite lambda => "lambda must be finite, got " ++ Decimal.ofSingle lambda
  | .sugenoLambda lambda =>
    "sugeno negation requires lambda > -1, got " ++ Decimal.ofSingle lambda
  | .yagerLambda lambda =>
    "yager negation requires lambda > 0, got " ++ Decimal.ofSingle lambda

/-- The t-norm of a name. -/
def TNorm.ofName (s : String) : Except SettingsError TNorm :=
  match TNorm.ofName? s with
  | some t => .ok t
  | none => .error (.unknownTNorm s)

/-- The negation of a name. -/
def Negation.ofName (s : String) : Except SettingsError Negation :=
  match Negation.ofName? s with
  | some n => .ok n
  | none => .error (.unknownNegation s)

/-- Refuses a parameter for which the negation is undefined somewhere on the unit
interval. -/
def Negation.validate (n : Negation) (lambda : Float32) : Except SettingsError Unit :=
  if !lambda.isFinite then .error (.lambdaNotFinite lambda)
  else
    match n with
    | .standard => .ok ()
    | .sugeno => if lambda ≤ -1 then .error (.sugenoLambda lambda) else .ok ()
    | .yager => if lambda ≤ 0 then .error (.yagerLambda lambda) else .ok ()

/-- Connectives, beam width and form of the answer. -/
structure Settings where
  tnorm : TNorm
  negation : Negation
  /-- Parameter of the negation. -/
  lambda : Float32
  /-- Entities kept between two hops. -/
  width : Nat
  /-- Whether the answer is the bare fuzzy set. -/
  onlyScores : Bool
deriving DecidableEq

namespace Settings

/-- Product logic with a beam of ten. -/
def standard : Settings := ⟨.product, .standard, 0, 10, false⟩

/-- Refuses settings that do not fit a graph of `entities` entities: the beam must
be narrower than the graph, and the parameter must suit the negation. -/
def validate (s : Settings) (entities : Nat) : Except SettingsError Unit :=
  if entities ≤ s.width then .error (.beamTooWide s.width entities)
  else s.negation.validate s.lambda

end Settings

end MultiHop
