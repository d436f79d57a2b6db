import SoftTyping.Binding
import SoftTyping.Lattice

/-!
# Choosing an overload

An argument fits a parameter when each type it may have promotes, or where the parameter allows it converts, to one of
the parameter's types. The fit of an overload adds up the levels of its arguments. Among the overloads that fit, those
that convert nothing are preferred, unless conversions have been accepted already; then the lowest level wins, and the
first of those.
-/

namespace SoftTyping

/-- How well arguments fit. -/
structure Fit where
  level : Nat
  /-- Some argument is converted. -/
  converting : Bool
deriving DecidableEq, Repr, Inhabited

namespace Fit

/-- The fit of what needs no step at all. -/
def exact : Fit := ⟨0, false⟩

/-- Whether one fit is at least as good as another: the level decides, then that nothing is converted. -/
def le (a b : Fit) : Bool :=
  a.level < b.level || (a.level == b.level && (!a.converting || b.converting))

/-- The best of some fits. -/
def best? : List Fit → Option Fit
  | [] => none
  | fit :: rest => some (rest.foldl (fun best next => if best.le next then best else next) fit)

end Fit

/-- What is known of an argument. -/
inductive Argument where
  /-- A parameter of the caller that has no type yet; it fits everywhere. -/
  | untyped
  | typed (union : Union)

namespace Lattice

/-- How one type fits another. -/
def memberFit? (lattice : Lattice) (convertible : Bool) (member target : SymbolId) : Option Fit :=
  if target = lattice.erroneous then some .exact
  else match lattice.promotionLevel? member target with
    | some level => some ⟨level, false⟩
    | none => if convertible then (lattice.conversionLevel? member target).map (fun level => ⟨level, true⟩) else none

/-- How the types of an argument that are not erroneous fit a parameter: the highest level counts. -/
def membersFit? (lattice : Lattice) (parameter : ParameterType) : List SymbolId → Option Fit
  | [] => some .exact
  | member :: rest => do
    let fit ← Fit.best? (parameter.bound.symbols.filterMap (lattice.memberFit? parameter.convertible member))
    let others ← lattice.membersFit? parameter rest
    some ⟨max fit.level others.level, fit.converting || others.converting⟩

/-- How an argument fits a parameter. -/
def argumentFit? (lattice : Lattice) (argument : Union) (parameter : ParameterType) : Option Fit :=
  lattice.membersFit? parameter (argument.symbols.filter (fun member => member != lattice.erroneous))

/-- How a list of arguments fits a list of parameters of the same length. -/
def argumentsFit? (lattice : Lattice) : List Argument → List ParameterType → Option Fit
  | [], [] => some .exact
  | argument :: arguments, parameter :: parameters => do
    let fit ← match argument with
      | .untyped => some Fit.exact
      | .typed union => lattice.argumentFit? union parameter
    let others ← lattice.argumentsFit? arguments parameters
    some ⟨fit.level + others.level, fit.converting || others.converting⟩
  | _, _ => none

/-- The overloads that fit, each with its place and its fit. -/
def candidates (lattice : Lattice) (overloads : List Overload) (arguments : List Argument) :
    List (Nat × Overload × Fit) :=
  overloads.zipIdx.filterMap fun (overload, index) =>
    (lattice.argumentsFit? arguments overload.parameters).map fun fit => (index, overload, fit)

end Lattice

/-- The first candidate of the lowest level. -/
def lowestLevel? : List (Nat × Overload × Fit) → Option (Nat × Overload × Fit)
  | [] => none
  | candidate :: rest =>
    some (rest.foldl (fun best next => if best.2.2.level ≤ next.2.2.level then best else next) candidate)

/-- The most specific candidate, given how many conversions have been accepted already. -/
def mostSpecific? (conversions : Nat) (candidates : List (Nat × Overload × Fit)) : Option (Nat × Overload × Fit) :=
  let exact := candidates.filter (fun candidate => !candidate.2.2.converting)
  lowestLevel? (if exact.isEmpty || conversions != 0 then candidates else exact)

end SoftTyping
