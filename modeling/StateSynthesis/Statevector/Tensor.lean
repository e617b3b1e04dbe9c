import StateSynthesis.Dimension
import StateSynthesis.Qubit

/-!
States as tensors with one axis per qubit. The outermost axis belongs to the first qubit of the
list; written out, its zero half comes before its one half. A gate reaches the entries where all
its controls are one, and its target pairs the entries that differ only there.
-/
namespace StateSynthesis

def Tensor (β : Type) : List Qubit → Type
  | [] => β
  | _ :: qs => Tensor β qs × Tensor β qs

namespace Tensor

variable {β : Type}

/-- The entry at an assignment of bits to the qubits. -/
def get : {r : List Qubit} → Tensor β r → (Qubit → Bool) → β
  | [], x, _ => x
  | q :: qs, t, bits => if bits q then get (r := qs) t.2 bits else get (r := qs) t.1 bits

def toList : {r : List Qubit} → Tensor β r → List β
  | [], x => [x]
  | _ :: qs, t => toList (r := qs) t.1 ++ toList (r := qs) t.2

/-- The tensor of the first entries of a list; `fill` stands for missing ones. -/
def ofList (fill : β) : (qs : List Qubit) → List β → Tensor β qs
  | [], xs => xs.headD fill
  | _ :: qs, xs =>
    (ofList fill qs (xs.take (dimension qs.length)),
      ofList fill qs (xs.drop (dimension qs.length)))

theorem length_toList {qs : List Qubit} (t : Tensor β qs) :
    t.toList.length = dimension qs.length := by
  induction qs with
  | nil => rfl
  | cons q qs ih => simp [toList, ih, dimension_succ]

theorem toList_ofList (fill : β) (qs : List Qubit) (xs : List β)
    (h : xs.length = dimension qs.length) : (ofList fill qs xs).toList = xs := by
  induction qs generalizing xs with
  | nil =>
    match xs, h with
    | [x], _ => rfl
  | cons q qs ih =>
    have hl : xs.length = dimension qs.length + dimension qs.length := by
      rw [h, List.length_cons, dimension_succ]
    simp only [ofList, toList]
    rw [ih _ (by simp; omega), ih _ (by simp; omega), List.take_append_drop]

/-- Applies `f` to the entries where all controls are one. -/
def mapUnder (controls : List Qubit) (f : β → β) : {r : List Qubit} → Tensor β r → Tensor β r
  | [], x => f x
  | q :: qs, t =>
    (if q ∈ controls then t.1 else mapUnder controls f (r := qs) t.1,
      mapUnder controls f (r := qs) t.2)

/-- Applies `f` to the pairs of entries of two tensors where all controls are one. -/
def pairUnder (controls : List Qubit) (f : β → β → β × β) :
    {r : List Qubit} → Tensor β r → Tensor β r → Tensor β r × Tensor β r
  | [], x, y => f x y
  | q :: qs, t, u =>
    let low := if q ∈ controls then (t.1, u.1) else pairUnder controls f (r := qs) t.1 u.1
    let high := pairUnder controls f (r := qs) t.2 u.2
    ((low.1, high.1), (low.2, high.2))

/-- Applies `f` to the pairs of entries that differ in the target, where all controls are one. -/
def onTarget (controls : List Qubit) (target : Qubit) (f : β → β → β × β) :
    {r : List Qubit} → Tensor β r → Tensor β r
  | [], x => x
  | q :: qs, t =>
    if q = target then pairUnder controls f (r := qs) t.1 t.2
    else
      (if q ∈ controls then t.1 else onTarget controls target f (r := qs) t.1,
        onTarget controls target f (r := qs) t.2)

end Tensor

end StateSynthesis
