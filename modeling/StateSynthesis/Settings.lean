import StateSynthesis.Fault
import StateSynthesis.Decimal.Notation

/-!
Settings by text. An absent text leaves the default.
-/
namespace StateSynthesis

structure Settings where
  threshold : Float := 1e-10
  defaultTolerance : Float := 0.0

namespace Settings

def number (default : Float) : Option String → Except (Fault Float) Float
  | none => .ok default
  | some s => match Decimal.number? s with
    | some x => .ok x
    | none => .error (.notANumber s)

def ofTexts (threshold defaultTolerance : Option String) : Except (Fault Float) Settings := do
  let standard : Settings := {}
  let threshold ← number standard.threshold threshold
  let defaultTolerance ← number standard.defaultTolerance defaultTolerance
  return { threshold, defaultTolerance }

end Settings

end StateSynthesis
