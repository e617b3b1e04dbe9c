import StateSynthesis.Circuit.Sink

/-!
Sessions: the qubits, gates, circuits and lists that came up so far. Receivers of gates live in the
session under numbers, so several names may mean one receiver, and one that lost its name can still
be written to. A name stands for one object of any sort, the last one it was given to. An action
that fails keeps what it had done to the session before.
-/
namespace StateSynthesis

/-- What a name can stand for. -/
inductive Object (α : Type) where
  | qubit (q : Qubit)
  | gate (g : Gate α)
  /-- The circuit or list with a number. -/
  | receiver (n : Nat)

def Object.receiver? {α : Type} : Object α → Option Nat
  | receiver n => some n
  | _ => none

structure Session (α : Type) where
  /-- Qubits created so far; the next one gets this number as its token. -/
  created : Nat
  /-- Identifiers made up so far. -/
  generated : Nat
  receivers : List (Sink α)
  /-- The names given so far, the latest first. -/
  names : List (String × Object α)
  threshold : α
  defaultTolerance : α

namespace Session

variable {α : Type}

def start (threshold defaultTolerance : α) : Session α :=
  ⟨0, 0, [], [], threshold, defaultTolerance⟩

def named (s : Session α) (name : String) : Option (Object α) := s.names.lookup name

def give (name : String) (o : Object α) (s : Session α) : Session α :=
  { s with names := (name, o) :: s.names }

@[simp] theorem named_give (s : Session α) (name : String) (o : Object α) :
    (s.give name o).named name = some o := by
  simp [named, give]

theorem named_give_of_ne (s : Session α) {name other : String} (o : Object α)
    (h : other ≠ name) : (s.give name o).named other = s.named other := by
  simp [named, give, List.lookup_cons, beq_false_of_ne h]

/-- The gates in an object that takes any. -/
def gatesIn (s : Session α) (o : Object α) : Option (List (Gate α)) :=
  o.receiver?.bind fun n => s.receivers[n]?.map Sink.gates

end Session

abbrev Action (α β : Type) := ExceptT (Fault α) (StateM (Session α)) β

namespace Action

variable {α : Type}

def createQubit (identifier : String) : Action α Qubit := do
  let s ← get
  set { s with created := s.created + 1 }
  return ⟨s.created, identifier⟩

/-- A qubit with the next made-up identifier, which is used up whatever becomes of the qubit. -/
def freshQubit : Action α Qubit := do
  modify fun s => { s with generated := s.generated + 1 }
  createQubit ("qb_" ++ toString (← get).generated)

def createReceiver (r : Sink α) : Action α Nat := do
  let s ← get
  set { s with receivers := s.receivers ++ [r] }
  return s.receivers.length

def receiver (n : Nat) : Action α (Sink α) := do
  match (← get).receivers[n]? with
  | some r => return r
  | none => throw .noSuchOperation

def putReceiver (n : Nat) (r : Sink α) : Action α Unit :=
  modify fun s => { s with receivers := s.receivers.set n r }

/-- The circuit under a number; a list is none. -/
def circuit (n : Nat) : Action α (Circuit α) := do
  match ← receiver n with
  | .circuit c => return c
  | .list _ => throw .noSuchOperation

/-- Keeps the receiver, then fails if there was a refusal. -/
def settle (n : Nat) (outcome : Sink α × Option (Fault α)) : Action α Unit := do
  putReceiver n outcome.1
  match outcome.2 with
  | some f => throw f
  | none => return ()

/-- Hands gates to a receiver. Without a receiver already the first gate fails. -/
def deliver (n : Option Nat) (gs : List (Gate α)) : Action α Unit := do
  match n with
  | some n => settle n ((← receiver n).accept gs)
  | none => if gs.isEmpty then return () else throw .noSuchOperation

/-- Adds a qubit to a circuit, a fresh one if the operand is absent. -/
def addQubit (n : Nat) (operand : Datum α) : Action α Qubit := do
  let c ← circuit n
  let d ← match operand with
    | .absent => Datum.qubit <$> freshQubit
    | d => pure d
  match d with
  | .qubit q =>
    putReceiver n (.circuit (← c.addQubit q))
    return q
  | d => throw (.addedType d)

def addFreshQubits (n : Nat) : Nat → Action α Unit
  | 0 => return ()
  | k + 1 => do
    let _ ← addQubit n .absent
    addFreshQubits n k

/-- A name for a circuit that was given none. -/
def defaultName : Action α String := do
  return "circuit_" ++ toString (← get).receivers.length

/-- A circuit with a number of fresh qubits; a negative number makes none. -/
def createCircuit (size : Datum α) (name : Option String) : Action α Nat := do
  let name ← match name with
    | some name => pure name
    | none => defaultName
  match size.integer? with
  | none => throw (.circuitSize size)
  | some k =>
    let n ← createReceiver (.circuit (Circuit.empty name))
    addFreshQubits n k.toNat
    return n

/-- The object behind a name, if there is a name and an object. -/
def named (name : Option String) : Action α (Option (Object α)) := do
  return name.bind (← get).named

def give (name : Option String) (o : Object α) : Action α Unit :=
  match name with
  | some name => modify (Session.give name o)
  | none => return ()

/-- The number of a receiver whose operation is asked for. -/
def needReceiver (o : Option (Object α)) : Action α Nat :=
  match o.bind Object.receiver? with
  | some n => return n
  | none => throw .noSuchOperation

/-- An object as an operand. -/
def datum : Object α → Action α (Datum α)
  | .qubit q => return .qubit q
  | .gate g => return .gate g
  | .receiver n => do
    match ← receiver n with
    | .circuit _ => return .circuit n
    | .list gs => return .gates n gs

/-- The qubits of a circuit or a gate; other objects have none. -/
def qubitsOf : Option (Object α) → Action α (List Qubit)
  | some (.gate g) => return g.qubits
  | o => do return (← circuit (← needReceiver o)).qubits

end Action

end StateSynthesis
