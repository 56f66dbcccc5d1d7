import AsmBlock.Log.Logger

/-!
# Filters of directives

A filter may be written as a list of directives between commas.  A directive
gives a level, a target, or both as `target=level`; it is about every target
that it starts.  An event is decided by the directive with the longest target
among those about the event's target, and by the last of several with that
target.  A level is given by its name or by its rank.
-/

namespace AsmBlock

namespace Log

/-- The most talkative level that is let through, if any level is. -/
inductive Threshold where
  | off
  | upTo (level : Level)
  deriving DecidableEq, Repr

namespace Threshold

def allows (threshold : Threshold) (level : Level) : Bool :=
  match threshold with
  | .off => false
  | .upTo limit => level.rank ≤ limit.rank

/-- Reads a level: its name, in upper or lower case, or its rank. -/
def ofWord? (word : String) : Option Threshold :=
  match word.toLower with
  | "off" | "0" => some .off
  | "error" | "1" => some (.upTo .error)
  | "warn" | "2" => some (.upTo .warn)
  | "info" | "3" => some (.upTo .info)
  | "debug" | "4" => some (.upTo .debug)
  | "trace" | "5" => some (.upTo .trace)
  | _ => none

end Threshold

/-- A threshold for the events of some targets. -/
structure Directive where
  /-- The directive is about the targets that start with this one. -/
  target : String
  threshold : Threshold
  deriving DecidableEq, Repr

/-- The pieces of a text between the places where a character stands. -/
def pieces (text : String) (separator : Char) : List String :=
  (text.split separator).toList.map String.Slice.copy

namespace Directive

/-- Reads a directive.  A level alone is about every target, and a target alone
lets everything through. -/
def parse? (text : String) : Option Directive :=
  match pieces text '=' with
  | [word] =>
    match Threshold.ofWord? word with
    | some threshold => some ⟨"", threshold⟩
    | none => some ⟨word, .upTo .trace⟩
  | [target, word] =>
    if target.isEmpty then none
    else (Threshold.ofWord? word).map fun threshold => ⟨target, threshold⟩
  | _ => none

def covers (directive : Directive) (target : String) : Bool :=
  directive.target.toList.isPrefixOf target.toList

end Directive

/-- The directives of a filter, in the order in which they were written. -/
structure Filter where
  directives : List Directive
  deriving DecidableEq, Repr

namespace Filter

/-- Reads a filter.  Pieces that are no directive are left out, and a filter
without any directive lets errors through. -/
def parse (text : String) : Filter :=
  match ((pieces text ',').filter fun piece => !piece.isEmpty).filterMap Directive.parse? with
  | [] => ⟨[⟨"", .upTo .error⟩]⟩
  | directives => ⟨directives⟩

/-- Of two directives about one target, the one that decides: the one with the
longer target, and otherwise the later. -/
def prefer (earlier : Option Directive) (later : Directive) : Option Directive :=
  match earlier with
  | none => some later
  | some earlier =>
    if earlier.target.length ≤ later.target.length then some later else some earlier

/-- The directive that decides about a target, if there is one. -/
def decisive? (filter : Filter) (target : String) : Option Directive :=
  (filter.directives.filter fun directive => directive.covers target).foldl prefer none

def admits (filter : Filter) (target : String) (level : Level) : Bool :=
  match filter.decisive? target with
  | none => false
  | some directive => directive.threshold.allows level

/-- What filters of directives admit. -/
def admission : Admission := fun text => (parse text).admits

end Filter

end Log

end AsmBlock
