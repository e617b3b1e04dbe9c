import StateSynthesis.Gate.Basic

/-!
Arguments whose type is not known beforehand. Callers may hand over anything where a qubit, a gate,
a list or a number is expected; a `Datum` is what they handed over, a `Literal` what can be written
down, which leaves out qubits, gates and receivers of gates. Equality of data ignores whether a
number is written as a truth value, an integer or a real, but is exact: an integer equals a real
only if the real is that integer.
-/
namespace StateSynthesis

inductive Literal (α : Type) where
  | absent
  | flag (b : Bool)
  | integer (n : Int)
  | number (x : α)
  | text (s : String)
  | list (items : List (Literal α))
  | table (entries : List (String × Literal α))

inductive Datum (α : Type) where
  | absent
  | flag (b : Bool)
  | integer (n : Int)
  | number (x : α)
  | text (s : String)
  | list (items : List (Datum α))
  | table (entries : List (String × Datum α))
  | qubit (q : Qubit)
  | gate (g : Gate α)
  /-- A circuit, told apart by its number. -/
  | circuit (n : Nat)
  /-- A list of gates, by its number and by what it holds. -/
  | gates (n : Nat) (gs : List (Gate α))

mutual

def Literal.datum {α : Type} : Literal α → Datum α
  | .absent => .absent
  | .flag b => .flag b
  | .integer n => .integer n
  | .number x => .number x
  | .text s => .text s
  | .list items => .list (Literal.data items)
  | .table entries => .table (Literal.dataEntries entries)

def Literal.data {α : Type} : List (Literal α) → List (Datum α)
  | [] => []
  | l :: ls => l.datum :: Literal.data ls

def Literal.dataEntries {α : Type} : List (String × Literal α) → List (String × Datum α)
  | [] => []
  | (k, l) :: es => (k, l.datum) :: Literal.dataEntries es

end

namespace Datum

variable {α : Type}

instance : Inhabited (Datum α) := ⟨absent⟩

/-- What a loop over the value goes through; most values can not be looped over. -/
def items? : Datum α → Option (List (Datum α))
  | list items => some items
  | text s => some (s.toList.map fun c => text c.toString)
  | table entries => some (entries.map fun e => text e.1)
  | gates _ gs => some (gs.map gate)
  | _ => none

/-- The members of a list, of whatever is in it. -/
def members? : Datum α → Option (List (Datum α))
  | list items => some items
  | gates _ gs => some (gs.map gate)
  | _ => none

/-- An integer, as which a truth value counts too. -/
def integer? : Datum α → Option Int
  | integer n => some n
  | flag b => some (if b then 1 else 0)
  | _ => none

def number? [Scalar α] : Datum α → Option α
  | number x => some x
  | d => d.integer?.map Scalar.ofInt

def qubit? : Datum α → Option Qubit
  | qubit q => some q
  | _ => none

def gate? : Datum α → Option (Gate α)
  | gate g => some g
  | _ => none

/-- A list where a single qubit stands for the list of itself. -/
def qubitItems? : Datum α → Option (List (Datum α))
  | qubit q => some [qubit q]
  | d => d.items?

/-- Values that may change, or hold others: these can not be looked up. -/
def isContainer : Datum α → Bool
  | list _ | table _ | gate _ | gates .. => true
  | _ => false

variable [Scalar α]

/-- A number is the same as an integer only if it is that integer. -/
def sameNumber (d e : Datum α) : Bool :=
  match d, e with
  | number x, number y => x == y
  | number x, e => e.integer?.any fun n => Scalar.integer? x == some n
  | d, number y => d.integer?.any fun m => Scalar.integer? y == some m
  | d, e => d.integer?.any fun m => e.integer? == some m

/-- Of the number that differs from itself there is only one, which a list or table that holds it
has in common with every other one. -/
def bothIndefinite : Datum α → Datum α → Bool
  | number x, number y => !(x == x) && !(y == y)
  | _, _ => false

def sameGates : List (Gate α) → List (Datum α) → Bool
  | [], [] => true
  | g :: gs, gate h :: ds => g.same h && sameGates gs ds
  | _, _ => false

mutual

def same : Datum α → Datum α → Bool
  | absent, absent => true
  | text s, text t => s == t
  | list xs, list ys => sameItems xs ys
  | list ds, gates _ gs | gates _ gs, list ds => sameGates gs ds
  | gates m gs, gates n hs => m == n || sameGates gs (hs.map gate)
  | table xs, table ys => xs.length == ys.length && sameEntries xs ys
  | qubit q, qubit r => q == r
  | gate g, gate h => g.same h
  | circuit m, circuit n => m == n
  | d, e => sameNumber d e

def sameItems : List (Datum α) → List (Datum α) → Bool
  | [], [] => true
  | x :: xs, y :: ys => (bothIndefinite x y || same x y) && sameItems xs ys
  | _, _ => false

def sameEntries : List (String × Datum α) → List (String × Datum α) → Bool
  | [], _ => true
  | (k, x) :: xs, ys => (match ys.find? (·.1 == k) with
    | some e => bothIndefinite x e.2 || same x e.2
    | none => false) && sameEntries xs ys

end

/-- Equality of the members of a collection. -/
def alike (d e : Datum α) : Bool := bothIndefinite d e || d.same e

end Datum

end StateSynthesis
