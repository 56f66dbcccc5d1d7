import AsmBlock.Token

/-!
# Log events

A scan reports every change of the brace depth and, at its end, why it ended.
An event knows its level, the target it is filed under, its message and its
named fields; the written line is put together from these.
-/

namespace AsmBlock

namespace Log

/-- The levels of events, the gravest first. -/
inductive Level where
  | error
  | warn
  | info
  | debug
  | trace
  deriving DecidableEq, Repr

namespace Level

/-- How talkative a level is: the gravest level has rank one. -/
def rank : Level → Nat
  | .error => 1
  | .warn => 2
  | .info => 3
  | .debug => 4
  | .trace => 5

def label : Level → String
  | .error => "ERROR"
  | .warn => "WARN"
  | .info => "INFO"
  | .debug => "DEBUG"
  | .trace => "TRACE"

end Level

/-- What a scan and the plug-in around it report. -/
inductive Event where
  /-- An opening brace raised the depth to `depth`. -/
  | braceOpened (depth : Nat)
  /-- A closing brace lowered the depth to `depth`. -/
  | braceClosed (depth : Nat)
  /-- The input ended with `depth` braces open. -/
  | inputEnded (depth : Nat)
  | stringUnterminated
  | commentUnterminated
  /-- The closing brace of the block was found. -/
  | blockMatched
  /-- The parser host was handed a token. -/
  | tokenRecognized (kind : Token.Kind)
  /-- A successful scan left a symbol that names no token. -/
  | symbolUnrecognized (error : SymbolError)
  deriving DecidableEq, Repr

inductive Value where
  | number (value : Nat)
  | text (value : String)
  deriving DecidableEq, Repr

def Value.written : Value → String
  | .number value => toString value
  | .text value => value

namespace Event

/-- Depth changes are traced; how a scan ended is told at the debug level. -/
def level : Event → Level
  | .braceOpened _ | .braceClosed _ => .trace
  | _ => .debug

/-- The scan files its events apart from the plug-in. -/
def target : Event → String
  | .tokenRecognized _ | .symbolUnrecognized _ => "autolang_scanner::ffi"
  | _ => "autolang_scanner::llvm_ir"

def message : Event → String
  | .braceOpened _ => "llvm_ir: open brace"
  | .braceClosed _ => "llvm_ir: close brace"
  | .inputEnded _ => "llvm_ir: end of input before closing brace"
  | .stringUnterminated => "llvm_ir: unterminated string constant"
  | .commentUnterminated => "llvm_ir: comment runs to end of input"
  | .blockMatched => "llvm_ir: matched"
  | .tokenRecognized _ => "external token recognized"
  | .symbolUnrecognized _ => "scan left an invalid result symbol"

def fields : Event → List (String × Value)
  | .braceOpened depth | .braceClosed depth | .inputEnded depth => [("depth", .number depth)]
  | .tokenRecognized kind => [("token", .text kind.name)]
  | .symbolUnrecognized error => [("err", .text error.message)]
  | .stringUnterminated | .commentUnterminated | .blockMatched => []

def line (event : Event) : String :=
  event.fields.foldl (fun written field => written ++ " " ++ field.1 ++ "=" ++ field.2.written)
    (event.level.label ++ " " ++ event.target ++ ": " ++ event.message)

end Event

end Log

end AsmBlock
