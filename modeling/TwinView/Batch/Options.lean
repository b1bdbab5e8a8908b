import TwinView.Batch.Path

/-!
The options of a batch, and reading them from command line arguments.
-/

namespace TwinView

structure Options where
  inputs : List String
  outDir : Path
  serverRoot : Option String
  clientRoot : Option String
  config : Option Path
  verbose : Bool
deriving DecidableEq, Repr

inductive UsageFault
  | noInput
  /-- An option stands without its value, or with an empty path. -/
  | noValue
  | needlessValue
  | unknown
  | repeated
  | helpAsked
  | versionAsked
deriving DecidableEq, Repr

namespace Options

inductive Key
  | input
  | outDir
  | serverRoot
  | clientRoot
  | config
deriving DecidableEq, Repr

inductive Flag
  | verbose
  | help
  | version
deriving DecidableEq, Repr

abbrev Word := Key ⊕ Flag

def longWords : List (String × Word) := [
  ("input", .inl .input), ("outdir", .inl .outDir), ("server-prefix", .inl .serverRoot),
  ("client-prefix", .inl .clientRoot), ("config", .inl .config), ("verbose", .inr .verbose),
  ("help", .inr .help), ("version", .inr .version)]

def shortWords : List (Char × Word) := [
  ('i', .inl .input), ('o', .inl .outDir), ('v', .inr .verbose), ('h', .inr .help),
  ('V', .inr .version)]

structure Given where
  values : List (Key × String) := []
  verbose : Bool := false
  /-- The last option, if it may still be waiting for its value. -/
  pending : Option (Key × Option String) := none
deriving DecidableEq, Repr

namespace Given

def value? (g : Given) (key : Key) : Option String := g.values.lookup key

def isPath : Key → Bool
  | .outDir => true
  | .config => true
  | _ => false

/-- Only the inputs may be given more than once, and a path is not empty. -/
def take (g : Given) (key : Key) (value : String) : Except UsageFault Given :=
  if key ≠ .input ∧ (g.value? key).isSome then .error .repeated
  else if isPath key ∧ value = "" then .error .noValue
  else .ok { g with values := g.values ++ [(key, value)] }

def settle (g : Given) : Except UsageFault Given :=
  match g.pending with
  | none => .ok g
  | some (_, none) => .error .noValue
  | some (key, some value) => take { g with pending := none } key value

def raise (g : Given) : Flag → Except UsageFault Given
  | .verbose => if g.verbose then .error .repeated else .ok { g with verbose := true }
  | .help => .error .helpAsked
  | .version => .error .versionAsked

/-- Reads the letters behind a dash. What follows an option with a value is its value. -/
def letters (g : Given) : List Char → Except UsageFault Given
  | [] => .ok g
  | c :: rest =>
    match shortWords.lookup c with
    | none => .error .unknown
    | some (.inr flag) => do ((← g.settle).raise flag) >>= fun g => g.letters rest
    | some (.inl key) => do
      let g ← g.settle
      match rest with
      | [] => return { g with pending := some (key, none) }
      | '=' :: value => g.take key (String.ofList value)
      | value => g.take key (String.ofList value)

/-- Reads the word behind two dashes, with the value behind an equals sign. -/
def word (g : Given) (name : List Char) (value : Option (List Char)) : Except UsageFault Given :=
  match longWords.lookup (String.ofList name), value with
  | none, _ => .error .unknown
  | some (.inr _), some _ => .error .needlessValue
  | some (.inr flag), none => do (← g.settle).raise flag
  | some (.inl key), some value => do (← g.settle).take key (String.ofList value)
  | some (.inl key), none => do return { (← g.settle) with pending := some (key, none) }

/-- Reads the arguments in order. Behind two dashes alone nothing may follow. -/
def arguments (g : Given) : List String → Except UsageFault Given
  | [] => g.settle
  | arg :: rest =>
    match arg.toList with
    | ['-', '-'] => if rest.isEmpty then g.settle else .error .unknown
    | '-' :: '-' :: cs => do
      let value :=
        match cs.dropWhile (· ≠ '=') with
        | [] => none
        | _ :: value => some value
      (← g.word (cs.takeWhile (· ≠ '=')) value).arguments rest
    | '-' :: c :: cs => do (← g.letters (c :: cs)).arguments rest
    | _ =>
      match g.pending with
      | some (key, none) => { g with pending := some (key, some arg) }.arguments rest
      | _ => .error .unknown

end Given

def parse (arguments : List String) : Except UsageFault Options := do
  let g ← Given.arguments {} arguments
  let inputs := (g.values.filter (·.1 = .input)).map (·.2)
  if inputs.isEmpty then .error .noInput
  else
    return {
      inputs
      outDir := ⟨(g.value? .outDir).getD "."⟩
      serverRoot := g.value? .serverRoot
      clientRoot := g.value? .clientRoot
      config := (g.value? .config).map Path.mk
      verbose := g.verbose }

end Options

end TwinView
