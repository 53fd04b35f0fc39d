import GridKernel.Layout

/-!
Why a computation stops. A `Cause` is a diagnosed failure, and `Cause.report` gives its stage, code
and wording. A `Fault` is a cause, or the abort of arithmetic or an allocation that leaves the range
of words (`overflow`) or of an access past the end of a list (`missing`).
-/
namespace GridKernel

/-- The activity that reports a failure. -/
inductive Stage where
  | config
  | kernel
  | propagator
  | evaluation
deriving DecidableEq, Repr, Inhabited

def Stage.label : Stage → String
  | .config => "ConfigError"
  | .kernel => "KernelError"
  | .propagator => "PropagatorError"
  | .evaluation => "EvaluationError"

inductive Code where
  | noError
  | generic
  | badIdentifier
  | duplicateDimension
  | unknownDimension
  | unclassifiedDimension
  | unknownEntity
  | duplicateEntity
  | unknownParameter
  | missingKernelSource
  | badShape
  | timeOffsetOutOfRing
  | haloExtentExceeded
  | mismatchedArguments
  | badConfig
  | unboundSymbol
  | indexOutOfBounds
deriving DecidableEq, Repr, Inhabited

def Code.label : Code → String
  | .noError => "no_error"
  | .generic => "generic"
  | .badIdentifier => "bad_identifier"
  | .duplicateDimension => "duplicate_dimension"
  | .unknownDimension => "unknown_dimension"
  | .unclassifiedDimension => "unclassified_dimension"
  | .unknownEntity => "unknown_entity"
  | .duplicateEntity => "duplicate_entity"
  | .unknownParameter => "unknown_parameter"
  | .missingKernelSource => "missing_kernel_source"
  | .badShape => "bad_shape"
  | .timeOffsetOutOfRing => "time_offset_out_of_ring"
  | .haloExtentExceeded => "halo_extent_exceeded"
  | .mismatchedArguments => "mismatched_arguments"
  | .badConfig => "bad_config"
  | .unboundSymbol => "unbound_symbol"
  | .indexOutOfBounds => "index_out_of_bounds"

def Code.all : List Code :=
  [.noError, .generic, .badIdentifier, .duplicateDimension, .unknownDimension,
    .unclassifiedDimension, .unknownEntity, .duplicateEntity, .unknownParameter,
    .missingKernelSource, .badShape, .timeOffsetOutOfRing, .haloExtentExceeded,
    .mismatchedArguments, .badConfig, .unboundSymbol, .indexOutOfBounds]

structure Report where
  stage : Stage
  code : Code
  details? : Option String
deriving DecidableEq, Repr, Inhabited

/-- A report reads as its stage, with the code and any details in braces. -/
def Report.text (r : Report) : String :=
  match r.details? with
  | some details => s!"{r.stage.label}\x7b{r.code.label}: {details}\x7d"
  | none => s!"{r.stage.label}\x7b{r.code.label}\x7d"

/-- A diagnosed failure, with the names and numbers that its wording mentions. -/
inductive Cause where
  | badIdentifier (name : String)
  | repeatedDimension (array dim : String)
  | shapeRank (array : String) (rank entries : Nat)
  | haloRank (array : String) (rank entries : Nat)
  | unknownPinned (dim : String)
  | unknownFree (dim : String)
  | pinnedAndFree (dim : String)
  | neitherPinnedNorFree (dim : String)
  | untypedSymbol (name : String)
  | twoEntities (name : String)
  | haloExceeded (side : Side) (dim array : String) (width halo : Nat)
  | alreadyRegistered (name entry : String)
  | noBody (entry : String)
  | unregistered (name entry : String)
  | badConfig
  | gridRank (rank : Nat)
  | borderTooWide (border extent : Nat)
  | axisCount (name : String) (axes rank : Nat)
  | extentMismatch (name : String) (extent : Nat) (dim : String) (walked : Nat)
  | shortRing (name : String) (slots : Nat)
  | notTimeOffset (index time : String)
  | outsideRing (offset : Int) (slots : Nat)
  | listCount (equations lists : Nat)
  | argumentCount (names arguments : Nat)
  | noKernelSource (name : String)
  | symbolValue (name : String)
  | unboundScalar (name : String)
  | notIterated (dim : String)
  | unboundSize (name : String)
  | unboundArray (name : String)
  | outOfBounds (indices : List Int) (array : String) (dims : List Nat)
  | notAnIndex (expr value : String)
  | zeroStep (dim : String)
  | notAssignable (target : String)
  | boundShape (array : String) (dims : List Nat) (expected : List Int)
  | unfilled (values : Nat) (dims : List Nat)
deriving DecidableEq, Repr, Inhabited

namespace Cause

/-- A list of numbers in brackets, with commas between. -/
def bracketed (numbers : List Int) : String :=
  "[" ++ ", ".intercalate (numbers.map toString) ++ "]"

private def extents (dims : List Nat) : String := bracketed (dims.map Int.ofNat)

def report : Cause → Report
  | badIdentifier name => ⟨.kernel, .badIdentifier, name⟩
  | repeatedDimension array dim =>
    ⟨.kernel, .duplicateDimension, s!"array '{array}' repeats dimension '{dim}'"⟩
  | shapeRank array rank entries =>
    ⟨.kernel, .badShape, s!"array '{array}' has {rank} dimensions but a shape of rank {entries}"⟩
  | haloRank array rank entries =>
    ⟨.kernel, .badShape, s!"array '{array}' has {rank} dimensions but {entries} halo extents"⟩
  | unknownPinned dim =>
    ⟨.kernel, .unknownDimension, s!"fixed dimension '{dim}' is not a dimension of the array"⟩
  | unknownFree dim =>
    ⟨.kernel, .unknownDimension, s!"free dimension '{dim}' is not a dimension of the array"⟩
  | pinnedAndFree dim =>
    ⟨.kernel, .unclassifiedDimension, s!"dimension '{dim}' is both fixed and free"⟩
  | neitherPinnedNorFree dim =>
    ⟨.kernel, .unclassifiedDimension, s!"dimension '{dim}' is neither fixed nor free"⟩
  | untypedSymbol name =>
    ⟨.kernel, .unknownEntity, s!"'{name}' is neither an array nor a scalar"⟩
  | twoEntities name => ⟨.kernel, .duplicateEntity, s!"'{name}' names two different entities"⟩
  | haloExceeded side dim array width halo =>
    let word := match side with
      | .left => "left"
      | .right => "right"
    ⟨.kernel, .haloExtentExceeded, s!"{side.label} buffer for '{dim}' is {width} wide " ++
      s!"but '{array}' has a {word} halo of {halo}"⟩
  | alreadyRegistered name entry =>
    ⟨.kernel, .duplicateEntity, s!"'{name}' is already registered with '{entry}'"⟩
  | noBody entry => ⟨.kernel, .missingKernelSource, s!"function '{entry}' has no body"⟩
  | unregistered name entry =>
    ⟨.kernel, .unknownParameter, s!"'{name}' is used by '{entry}' but was never registered"⟩
  | badConfig => ⟨.config, .badConfig, none⟩
  | gridRank rank =>
    ⟨.propagator, .badShape, s!"grids of rank {rank} are unsupported, expected 1 to 3 axes"⟩
  | borderTooWide border extent =>
    ⟨.propagator, .badShape, s!"a border of {border} doesn't fit an axis of extent {extent}"⟩
  | axisCount name axes rank =>
    ⟨.propagator, .badShape,
      s!"'{name}' has {axes} axes but the grid has {rank} space dimensions"⟩
  | extentMismatch name extent dim walked =>
    ⟨.propagator, .badShape,
      s!"'{name}' spans {extent} along '{dim}' but the grid walks it over {walked}"⟩
  | shortRing name slots =>
    ⟨.propagator, .badShape, s!"ring-buffered '{name}' needs at least {slots} time slots"⟩
  | notTimeOffset index time =>
    ⟨.propagator, .timeOffsetOutOfRing, s!"'{index}' is not a constant offset from '{time}'"⟩
  | outsideRing offset slots =>
    ⟨.propagator, .timeOffsetOutOfRing,
      s!"time offset {offset} falls outside the {slots}-slot ring"⟩
  | listCount equations lists =>
    ⟨.propagator, .mismatchedArguments, s!"{equations} equations but {lists} argument lists"⟩
  | argumentCount names arguments =>
    ⟨.propagator, .mismatchedArguments, s!"{names} substitutions but {arguments} arguments"⟩
  | noKernelSource name =>
    ⟨.propagator, .missingKernelSource,
      s!"'{name}' needs set_jit_params or set_jit_simple before get_fd"⟩
  | symbolValue name => ⟨.evaluation, .unboundSymbol, s!"untyped symbol '{name}'"⟩
  | unboundScalar name => ⟨.evaluation, .unboundSymbol, s!"scalar '{name}' is not bound"⟩
  | notIterated dim => ⟨.evaluation, .unboundSymbol, s!"dimension '{dim}' is not being iterated"⟩
  | unboundSize name => ⟨.evaluation, .unboundSymbol, s!"size of '{name}' is not bound"⟩
  | unboundArray name => ⟨.evaluation, .unboundSymbol, s!"array '{name}' is not bound"⟩
  | outOfBounds indices array dims =>
    ⟨.evaluation, .indexOutOfBounds, s!"{bracketed indices} is outside '{array}' {extents dims}"⟩
  | notAnIndex expr value => ⟨.evaluation, .generic, s!"index '{expr}' evaluated to {value}"⟩
  | zeroStep dim => ⟨.evaluation, .generic, s!"loop over '{dim}' has a zero step"⟩
  | notAssignable target => ⟨.evaluation, .generic, s!"can't assign to '{target}'"⟩
  | boundShape array dims expected =>
    ⟨.evaluation, .badShape, s!"array '{array}' is bound to a {extents dims} buffer, " ++
      s!"expected {bracketed expected}"⟩
  | unfilled values dims =>
    ⟨.evaluation, .badShape, s!"{values} values don't fill a buffer of {extents dims}"⟩

end Cause

inductive Fault where
  /-- A diagnosed failure, after which the session goes on. -/
  | cause (c : Cause)
  /-- A word or an allocation would exceed its range. -/
  | overflow
  /-- A list had no entry at the position asked for. -/
  | missing
deriving DecidableEq, Repr, Inhabited

abbrev Result := Except Fault

/-- Stops with a diagnosed cause. -/
def refuse {α : Type} (c : Cause) : Result α := .error (.cause c)

/-- The entry at a position, or an abort past the end. -/
def entryAt {α : Type} (xs : List α) (i : Nat) : Result α :=
  match xs[i]? with
  | some x => .ok x
  | none => .error .missing

end GridKernel
