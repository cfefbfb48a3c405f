import Mathlib.Algebra.BigOperators.Group.List.Basic
import Mathlib.Algebra.Ring.Nat
import Mathlib.Data.List.ReduceOption
import SyntaxToC.Code.Room
import SyntaxToC.Proofs.Outcome

/-!
# Lists of nodes

A function that goes through the slots of a body does nothing at an empty one, so it is `List.map`,
`List.flatMap` or `List.mapM` over the filled slots.  This holds of emission:

    emitItems layout slots      = slots.reduceOption.mapM (emit layout)
    emitStatements layout slots = slots.reduceOption.mapM (emitStatement layout)
    emitArguments layout nodes  = nodes.mapM (emit layout)

and of the rooms for what it writes.  A property of the text of a node carries over to lists of
nodes by a lemma about `List.mapM`.
-/

namespace SyntaxToC.Tree

namespace Slots

/-- Slot by slot, and a slot is empty or filled. -/
theorem induct {P : Slots → Prop} (nil : P [])
    (empty : ∀ slots : Slots, P slots → P (none :: slots))
    (filled : ∀ (n : Node) (slots : Slots), P slots → P (some n :: slots)) (slots : Slots) :
    P slots := by
  induction slots with
  | nil => exact nil
  | cons slot slots ih =>
    cases slot with
    | none => exact empty slots ih
    | some n => exact filled n slots ih

variable {β : Type}

theorem eq_map (F : Slots → List β) {f : Node → β} (nil : F [] = [])
    (empty : ∀ slots, F (none :: slots) = F slots)
    (filled : ∀ n slots, F (some n :: slots) = f n :: F slots) (slots : Slots) :
    F slots = slots.reduceOption.map f := by
  induction slots using Slots.induct with
  | nil => exact nil
  | empty slots ih => exact (empty slots).trans ih
  | filled n slots ih => rw [filled, ih, List.reduceOption_cons_of_some, List.map_cons]

theorem eq_flatMap (F : Slots → List β) {f : Node → List β} (nil : F [] = [])
    (empty : ∀ slots, F (none :: slots) = F slots)
    (filled : ∀ n slots, F (some n :: slots) = f n ++ F slots) (slots : Slots) :
    F slots = slots.reduceOption.flatMap f := by
  induction slots using Slots.induct with
  | nil => exact nil
  | empty slots ih => exact (empty slots).trans ih
  | filled n slots ih => rw [filled, ih, List.reduceOption_cons_of_some, List.flatMap_cons]

theorem eq_sum (F : Slots → Nat) {f : Node → Nat} (nil : F [] = 0)
    (empty : ∀ slots, F (none :: slots) = F slots)
    (filled : ∀ n slots, F (some n :: slots) = f n + F slots) (slots : Slots) :
    F slots = (slots.reduceOption.map f).sum := by
  induction slots using Slots.induct with
  | nil => exact nil
  | empty slots ih => exact (empty slots).trans ih
  | filled n slots ih =>
    rw [filled, ih, List.reduceOption_cons_of_some, List.map_cons, List.sum_cons]

theorem eq_mapM {ε : Type} (F : Slots → Except ε (List β)) {f : Node → Except ε β}
    (nil : F [] = .ok []) (empty : ∀ slots, F (none :: slots) = F slots)
    (filled : ∀ n slots, F (some n :: slots) = do return (← f n) :: (← F slots)) (slots : Slots) :
    F slots = slots.reduceOption.mapM f := by
  induction slots using Slots.induct with
  | nil => exact nil
  | empty slots ih => exact (empty slots).trans ih
  | filled n slots ih => rw [filled, ih, List.reduceOption_cons_of_some, List.mapM_cons]

end Slots

end SyntaxToC.Tree

namespace SyntaxToC.Code

open SyntaxToC.Tree

variable (layout : Layout)

/-! ## Texts -/

/-- A statement of a block with its terminator. -/
def emitStatement (n : Node) : Except EmitError String := do
  return (← emit layout n) ++ terminator layout n

theorem emitItems_eq_mapM (slots : Slots) :
    emitItems layout slots = slots.reduceOption.mapM (emit layout) :=
  Slots.eq_mapM (emitItems layout) rfl (fun _ => rfl) (fun _ _ => rfl) slots

theorem emitStatements_eq_mapM (slots : Slots) :
    emitStatements layout slots = slots.reduceOption.mapM (emitStatement layout) := by
  refine Slots.eq_mapM (emitStatements layout) rfl (fun _ => rfl) (fun n slots => ?_) slots
  rw [emitStatements, emitStatement]
  cases emit layout n <;> rfl

theorem emitArguments_eq_mapM (nodes : List Node) :
    emitArguments layout nodes = nodes.mapM (emit layout) := by
  induction nodes with
  | nil => rfl
  | cons n nodes ih => rw [emitArguments, ih, List.mapM_cons]

/-! ## Rooms -/

def statementRoom (n : Node) : Except Obstacle Room := do
  (← emitRoom layout n).push (bytes (terminator layout n))

theorem itemRooms_eq_mapM (slots : Slots) :
    itemRooms layout slots = slots.reduceOption.mapM (emitRoom layout) :=
  Slots.eq_mapM (itemRooms layout) rfl (fun _ => rfl) (fun _ _ => rfl) slots

theorem statementRooms_eq_mapM (slots : Slots) :
    statementRooms layout slots = slots.reduceOption.mapM (statementRoom layout) := by
  refine Slots.eq_mapM (statementRooms layout) rfl (fun _ => rfl) (fun n slots => ?_) slots
  rw [statementRooms, statementRoom]
  cases emitRoom layout n <;> rfl

theorem argumentRooms_eq_mapM (nodes : List Node) :
    argumentRooms layout nodes = nodes.mapM (emitRoom layout) := by
  induction nodes with
  | nil => rfl
  | cons n nodes ih => rw [argumentRooms, ih, List.mapM_cons]

end SyntaxToC.Code
