import DeferLang.Code.Lower

/-!
# Options of a compilation

What a single compilation needs to know besides the source.
-/

namespace DeferLang

/-- The passes that a compilation can stop behind.  Emitting target code comes last. -/
inductive Pass where
  | scan
  | parse
  | check
  | cleanup
deriving DecidableEq

namespace Pass

/-- The name of a pass in options. -/
def name : Pass → String
  | .scan => "lex"
  | .parse => "parse"
  | .check => "sema"
  | .cleanup => "raii"

/-- The place of a pass among the passes. -/
def rank : Pass → Nat
  | .scan => 0
  | .parse => 1
  | .check => 2
  | .cleanup => 3

def all : List Pass :=
  [.scan, .parse, .check, .cleanup]

def ofName? (name : String) : Option Pass :=
  all.find? (·.name = name)

end Pass

/-- The target of compilations that name none. -/
def defaultTriple : String :=
  "x86_64-unknown-linux-gnu"

/-- The options of a compilation. -/
structure Options where
  /-- The last pass to run, if not all passes run. -/
  stopAfter : Option Pass := none
  /-- The number of source lines shown on either side of a diagnostic. -/
  contextLines : Nat := 2
  /-- Whether warnings are errors. -/
  denyWarnings : Bool := false
  /-- The routine that `print` calls. -/
  printSymbol : String := printName
  targetTriple : Option String := none
  /-- Where the target code goes, if anywhere. -/
  irPath : Option String := none
  /-- Where the program in canonical form goes, if anywhere. -/
  astPath : Option String := none
deriving DecidableEq

namespace Options

/-- Whether the passes behind a pass run. -/
def runsPast (o : Options) (pass : Pass) : Bool :=
  match o.stopAfter with
  | none => true
  | some last => pass.rank < last.rank

def lowering (o : Options) : Code.LowerOptions where
  printSymbol := o.printSymbol
  targetTriple := o.targetTriple.getD defaultTriple

end Options

end DeferLang
