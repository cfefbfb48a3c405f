import SyntaxToC.Proofs.Location

/-!
# Loading a part of a value in its place

The loader goes from a node to the nodes below it in steps, and what it makes of a node depends on
nothing around the node.  So a part of a value that loads may be exchanged for another one: the tree
has the new part in the corresponding place, and a fault of the new part is reported behind the
path to the place.

    load v = .ok t → Visits v p x →
      load (v.put p.path w) = (within p.path (load w)).map (t.put p)       (load_put)

The body of a function is a place that wants a block.  A node of another kind there is a fault of
the function.
-/

namespace SyntaxToC.Json.Value

open SyntaxToC.Tree

/-! ## Exchanging a part of a value -/

/-- The value with another part at a segment. -/
def setPart : Value → Segment → Value → Value
  | .object members, .member key, w => .object (Members.insert members key w)
  | .array items, .item index, w => .array (items.set index w)
  | v, _, _ => v

/-- The value with another part at the end of a path. -/
def put : Value → Path → Value → Value
  | _, [], w => w
  | v, s :: p, w =>
    match v.part? s with
    | some x => v.setPart s (put x p w)
    | none => v

theorem put_append {v x : Value} {p : Path} (h : v.at? p = some x) (q : Path) (w : Value) :
    v.put (p ++ q) w = v.put p (x.put q w) := by
  induction p generalizing v with
  | nil =>
    cases h
    rfl
  | cons s p ih =>
    obtain ⟨y, hy, hp⟩ := Option.bind_eq_some_iff.1 h
    rw [List.cons_append, put, put, hy]
    simp only [ih hp]

variable {v x : Value} {key : String}

theorem put_member (h : v.get? key = some x) (w : Value) :
    v.put [.member key] w = v.setPart (.member key) w := by
  simp [put, part?, h]

theorem get?_put (h : v.get? key = some x) (w : Value) (key' : String) :
    (v.put [.member key] w).get? key' = if key' = key then some w else v.get? key' := by
  rw [put_member h]
  cases v with
  | object members => exact Members.get?_insert members key key' w
  | _ => cases h

theorem get?_put_here (h : v.get? key = some x) (w : Value) :
    (v.put [.member key] w).get? key = some w := by
  rw [get?_put h, if_pos rfl]

theorem get?_put_other (h : v.get? key = some x) (w : Value) {key' : String} (hne : key' ≠ key) :
    (v.put [.member key] w).get? key' = v.get? key' := by
  rw [get?_put h, if_neg hne]

theorem put_item {items : List Value} {index : Nat} (h : v.get? key = some (.array items))
    (hx : items[index]? = some x) (w : Value) :
    v.put [.member key, .item index] w = v.put [.member key] (.array (items.set index w)) := by
  simp [put, part?, h, hx, setPart]

end SyntaxToC.Json.Value

namespace SyntaxToC.Tree

open SyntaxToC.Json SyntaxToC.Outcome

/-! ## Steps from node to node -/

/-- A step from a node to one below it: to a slot of a body, to the body of a function, to an
argument of a call, or to a child. -/
inductive Step where
  | slot (index : Nat)
  | body
  | argument
  | expression
  | value
  | item (index : Nat)
  | left
  | right
deriving DecidableEq, Repr

def Step.path : Step → Path
  | .slot index => [.member "body", .item index]
  | .body => [.member "body"]
  | .argument => [.member "argument"]
  | .expression => [.member "expression"]
  | .value => [.member "value"]
  | .item index => [.member "arguments", .item index]
  | .left => [.member "left"]
  | .right => [.member "right"]

/-- The steps from the root to a node. -/
abbrev Position := List Step

def Position.path (p : Position) : Path := p.flatMap Step.path

/-- The steps that the loader takes from the value of a node. -/
inductive Child : Value → Step → Value → Prop
  | program {v x : Value} {ws : List Value} {index : Nat} :
      Tagged v "Program" → v.get? "body" = some (.array ws) → ws[index]? = some x → ¬ Falsy x →
      Child v (.slot index) x
  | block {v x : Value} {ws : List Value} {index : Nat} :
      Tagged v "BlockStatement" → v.get? "body" = some (.array ws) → ws[index]? = some x →
      ¬ Falsy x → Child v (.slot index) x
  | functionDecl {v x : Value} :
      Tagged v "FunctionDeclaration" → v.get? "body" = some x → Child v .body x
  | returnStmt {v x : Value} :
      Tagged v "ReturnStatement" → v.get? "argument" = some x → Child v .argument x
  | exprStmt {v x : Value} :
      Tagged v "ExpressionStatement" → v.get? "expression" = some x → Child v .expression x
  | variableDecl {v x : Value} :
      Tagged v "VariableDeclaration" → v.get? "value" = some x → Child v .value x
  | call {v x : Value} {ws : List Value} {index : Nat} :
      Tagged v "CallExpression" → v.get? "arguments" = some (.array ws) → ws[index]? = some x →
      Child v (.item index) x
  | left {v x : Value} :
      Tagged v "BinaryExpression" → v.get? "left" = some x → Child v .left x
  | right {v x : Value} :
      Tagged v "BinaryExpression" → v.get? "right" = some x → Child v .right x

/-- The loader comes to the value `x` at a position of `v`. -/
inductive Visits : Value → Position → Value → Prop
  | root (v : Value) : Visits v [] v
  | step {v x y : Value} {s : Step} {p : Position} :
      Child v s x → Visits x p y → Visits v (s :: p) y

namespace Node

/-- The node at a step; that of a function leads to its body as a block. -/
def child? : Node → Step → Option Node
  | .program body, .slot index => body[index]?.join
  | .block body, .slot index => body[index]?.join
  | .functionDecl _ _ _ body, .body => some (.block body)
  | .returnStmt argument, .argument => some argument
  | .exprStmt expression, .expression => some expression
  | .variableDecl _ _ _ value, .value => some value
  | .call _ arguments, .item index => arguments[index]?
  | .binary left _ _, .left => some left
  | .binary _ _ right, .right => some right
  | _, _ => none

/-- The node with another one at a step. -/
def setChild : Node → Step → Node → Node
  | .program body, .slot index, u => .program (body.set index (some u))
  | .block body, .slot index, u => .block (body.set index (some u))
  | .functionDecl name returnType params _, .body, .block body =>
    .functionDecl name returnType params body
  | .returnStmt _, .argument, u => .returnStmt u
  | .exprStmt _, .expression, u => .exprStmt u
  | .variableDecl mutable name typing _, .value, u => .variableDecl mutable name typing u
  | .call callee arguments, .item index, u => .call callee (arguments.set index u)
  | .binary _ op right, .left, u => .binary u op right
  | .binary left op _, .right, u => .binary left op u
  | t, _, _ => t

/-- The tree with another one at a position. -/
def put : Node → Position → Node → Node
  | _, [], u => u
  | t, s :: p, u =>
    match t.child? s with
    | some c => t.setChild s (c.put p u)
    | none => t

end Node

/-! ## Lists -/

theorem loadSlots_set {ws : List Value} {slots : Slots} {first index : Nat} {w : Value}
    (h : loadSlots first ws = .ok slots) (hindex : index < ws.length) (hw : ¬ Falsy w) :
    loadSlots first (ws.set index w) =
      (within [.member "body", .item (first + index)] (load w)).map fun u =>
        slots.set index (some u) := by
  induction ws generalizing first index slots with
  | nil => cases hindex
  | cons y ws ih =>
    rw [loadSlots_cons] at h
    simp only [bind_eq_ok_iff, pure_eq_ok_iff] at h
    obtain ⟨slot, hslot, rest, hrest, rfl⟩ := h
    cases index with
    | zero =>
      rw [List.set_cons_zero, loadSlots_cons, loadSlot_of_not_falsy hw, hrest, Nat.add_zero]
      cases load w <;> rfl
    | succ index =>
      rw [List.set_cons_succ, loadSlots_cons, hslot, ih hrest (Nat.lt_of_succ_lt_succ hindex),
        Nat.succ_add_eq_add_succ]
      cases load w <;> rfl

theorem loadArguments_set {ws : List Value} {nodes : List Node} {first index : Nat} {w : Value}
    (h : loadArguments first ws = .ok nodes) (hindex : index < ws.length) :
    loadArguments first (ws.set index w) =
      (within [.member "arguments", .item (first + index)] (load w)).map fun u =>
        nodes.set index u := by
  induction ws generalizing first index nodes with
  | nil => cases hindex
  | cons y ws ih =>
    rw [loadArguments] at h
    simp only [bind_eq_ok_iff, pure_eq_ok_iff] at h
    obtain ⟨node, hnode, rest, hrest, rfl⟩ := h
    cases index with
    | zero =>
      rw [List.set_cons_zero, loadArguments, hrest, Nat.add_zero]
      cases load w <;> rfl
    | succ index =>
      rw [List.set_cons_succ, loadArguments, hnode, ih hrest (Nat.lt_of_succ_lt_succ hindex),
        Nat.succ_add_eq_add_succ]
      cases load w <;> rfl

theorem loadSlots_get {ws : List Value} {slots : Slots} {first index : Nat} {x : Value}
    (h : loadSlots first ws = .ok slots) (hx : ws[index]? = some x) (hfalsy : ¬ Falsy x) :
    ∃ u, load x = .ok u ∧ slots[index]? = some (some u) := by
  induction ws generalizing first index slots with
  | nil => cases hx
  | cons y ws ih =>
    rw [loadSlots_cons] at h
    simp only [bind_eq_ok_iff, pure_eq_ok_iff] at h
    obtain ⟨slot, hslot, rest, hrest, rfl⟩ := h
    cases index with
    | zero =>
      cases hx
      rw [loadSlot_of_not_falsy hfalsy] at hslot
      obtain ⟨u, hu, rfl⟩ := map_eq_ok_iff.1 hslot
      exact ⟨u, within_eq_ok_iff.1 hu, rfl⟩
    | succ index =>
      obtain ⟨u, hu, hget⟩ := ih hrest hx
      exact ⟨u, hu, hget⟩

theorem loadArguments_get {ws : List Value} {nodes : List Node} {first index : Nat} {x : Value}
    (h : loadArguments first ws = .ok nodes) (hx : ws[index]? = some x) :
    ∃ u, load x = .ok u ∧ nodes[index]? = some u := by
  induction ws generalizing first index nodes with
  | nil => cases hx
  | cons y ws ih =>
    rw [loadArguments] at h
    simp only [bind_eq_ok_iff, pure_eq_ok_iff] at h
    obtain ⟨node, hnode, rest, hrest, rfl⟩ := h
    cases index with
    | zero =>
      cases hx
      exact ⟨node, within_eq_ok_iff.1 hnode, rfl⟩
    | succ index =>
      obtain ⟨u, hu, hget⟩ := ih hrest hx
      exact ⟨u, hu, hget⟩

/-! ## One step -/

/-- The node at a step is the one loaded there, and may be exchanged; for the body of a function
only by a block. -/
structure Exchanges (v : Value) (t : Node) (s : Step) (x : Value) : Prop where
  child : ∃ u, load x = .ok u ∧ t.child? s = some u
  put : ∀ w, ¬ Falsy w → (s = .body → ∀ u, load w = .ok u → ∃ slots, u = .block slots) →
    load (v.put s.path w) = (within s.path (load w)).map (t.setChild s)

section

variable {v x : Value} {t : Node}

/-- A child under a key of its own, with the other members fixed. -/
theorem exchanges_member {s : Step} {key : String} (make : Node → Node)
    (hpath : s.path = [.member key]) (hchild : ∀ u, (make u).child? s = some u)
    (hset : ∀ u u', (make u).setChild s u' = make u')
    (hload : ∀ v' w, (∀ key', key' ≠ key → v'.get? key' = v.get? key') → v'.get? key = some w →
      load v' = (within [.member key] (load w)).map make)
    (hv : load v = .ok t) (hx : v.get? key = some x) : Exchanges v t s x := by
  rw [hload v x (fun _ _ => rfl) hx] at hv
  obtain ⟨u, hu, rfl⟩ := map_eq_ok_iff.1 hv
  refine ⟨⟨u, within_eq_ok_iff.1 hu, hchild u⟩, fun w _ _ => ?_⟩
  have hmake : (make u).setChild s = make := funext (hset u)
  rw [hpath, hmake]
  exact hload _ w (fun key' h => Value.get?_put_other hx w h) (Value.get?_put_here hx w)

/-- A slot of a body, in a program and in a block. -/
theorem exchanges_slot {tag : String} {ws : List Value} {index : Nat} (make : Slots → Node)
    (hchild : ∀ slots, (make slots).child? (.slot index) = slots[index]?.join)
    (hset : ∀ slots u, (make slots).setChild (.slot index) u = make (slots.set index (some u)))
    (hload : ∀ v' ws', Tagged v' tag → v'.get? "body" = some (.array ws') →
      load v' = (loadSlots 0 ws').map make)
    (hv : load v = .ok t) (htag : Tagged v tag) (hws : v.get? "body" = some (.array ws))
    (hx : ws[index]? = some x) (hfalsy : ¬ Falsy x) : Exchanges v t (.slot index) x := by
  rw [hload v ws htag hws] at hv
  obtain ⟨slots, hslots, rfl⟩ := map_eq_ok_iff.1 hv
  obtain ⟨u, hu, hslot⟩ := loadSlots_get hslots hx hfalsy
  refine ⟨⟨u, hu, by rw [hchild, hslot]; rfl⟩, fun w hw _ => ?_⟩
  have hindex := (List.getElem?_eq_some_iff.1 hx).1
  have hmake : (make slots).setChild (.slot index) = fun u => make (slots.set index (some u)) :=
    funext (hset slots)
  rw [Step.path, Value.put_item hws hx,
    hload _ _ ((Value.get?_put_other hws _ (by decide)).trans htag) (Value.get?_put_here hws _),
    loadSlots_set hslots hindex hw, Nat.zero_add, hmake]
  cases load w <;> rfl

theorem exchanges_item {ws : List Value} {index : Nat} (hv : load v = .ok t)
    (htag : Tagged v "CallExpression") (hws : v.get? "arguments" = some (.array ws))
    (hx : ws[index]? = some x) : Exchanges v t (.item index) x := by
  have hdecodes := decodes_of_load hv
  have hkind := kind?_of_decodes (k := .callExpression) hdecodes htag
  cases hdecodes with
  | call _ hc hcallee hws' hnodes =>
    cases hws.symm.trans hws'
    have hload := loadArguments_of_decodesAll 0 hnodes
    obtain ⟨u, hu, hnode⟩ := loadArguments_get hload hx
    refine ⟨⟨u, hu, hnode⟩, fun w _ _ => ?_⟩
    have hindex := (List.getElem?_eq_some_iff.1 hx).1
    rw [Step.path, Value.put_item hws hx,
      load_call ((Value.get?_put_other hws _ (by decide)).trans htag)
        ((Value.get?_put_other hws _ (by decide)).trans hc) hcallee
        (Value.get?_put_here hws _), loadArguments_set hload hindex, Nat.zero_add]
    cases load w <;> rfl
  | _ => cases hkind

theorem exchanges_value (hv : load v = .ok t) (htag : Tagged v "VariableDeclaration")
    (hx : v.get? "value" = some x) : Exchanges v t .value x := by
  have hdecodes := decodes_of_load hv
  have hkind := kind?_of_decodes (k := .variableDeclaration) hdecodes htag
  cases hdecodes with
  | @variableDecl _ _ _ _ mutable name typing _ _ hm hi hname hy htyping _ _ =>
    refine exchanges_member (.variableDecl mutable name typing) rfl (fun _ => rfl)
      (fun _ _ => rfl) (fun v' w hother hw => ?_) hv hx
    exact load_variableDecl ((hother _ (by decide)).trans htag) ((hother _ (by decide)).trans hm)
      ((hother _ (by decide)).trans hi) hname ((hother _ (by decide)).trans hy) htyping hw
  | _ => cases hkind

theorem exchanges_left (hv : load v = .ok t) (htag : Tagged v "BinaryExpression")
    (hx : v.get? "left" = some x) : Exchanges v t .left x := by
  have hdecodes := decodes_of_load hv
  have hkind := kind?_of_decodes (k := .binaryExpression) hdecodes htag
  cases hdecodes with
  | @binary _ _ _ op _ right _ hop _ _ hr hright =>
    refine exchanges_member (.binary · op right) rfl (fun _ => rfl) (fun _ _ => rfl)
      (fun v' w hother hw => ?_) hv hx
    rw [load_binary ((hother _ (by decide)).trans htag) ((hother _ (by decide)).trans hop) hw
      ((hother _ (by decide)).trans hr), load_of_decodes hright]
    cases load w <;> rfl
  | _ => cases hkind

theorem exchanges_right (hv : load v = .ok t) (htag : Tagged v "BinaryExpression")
    (hx : v.get? "right" = some x) : Exchanges v t .right x := by
  have hdecodes := decodes_of_load hv
  have hkind := kind?_of_decodes (k := .binaryExpression) hdecodes htag
  cases hdecodes with
  | @binary _ _ _ op left _ _ hop hl hleft _ _ =>
    refine exchanges_member (.binary left op ·) rfl (fun _ => rfl) (fun _ _ => rfl)
      (fun v' w hother hw => ?_) hv hx
    rw [load_binary ((hother _ (by decide)).trans htag) ((hother _ (by decide)).trans hop)
      ((hother _ (by decide)).trans hl) hw, load_of_decodes hleft]
    cases load w <;> rfl
  | _ => cases hkind

/-- A function keeps its signature, whatever takes the place of its body. -/
theorem load_put_body (hv : load v = .ok t) (htag : Tagged v "FunctionDeclaration")
    (hx : v.get? "body" = some x) :
    ∃ name returnType params slots, t = .functionDecl name returnType params slots ∧
      load x = .ok (.block slots) ∧ ∀ w, load (v.put [.member "body"] w) =
        within [.member "body"] (load w) >>= functionOf name returnType params := by
  have hdecodes := decodes_of_load hv
  have hkind := kind?_of_decodes (k := .functionDeclaration) hdecodes htag
  cases hdecodes with
  | functionDecl _ hi hname hr hreturn hp hparams hb hbody =>
    cases hx.symm.trans hb
    refine ⟨_, _, _, _, rfl, load_of_decodes hbody, fun w => ?_⟩
    exact load_functionDecl ((Value.get?_put_other hx w (by decide)).trans htag)
      ((Value.get?_put_other hx w (by decide)).trans hi) hname
      ((Value.get?_put_other hx w (by decide)).trans hr) hreturn
      ((Value.get?_put_other hx w (by decide)).trans hp) hparams (Value.get?_put_here hx w)
  | _ => cases hkind

theorem exchanges_body (hv : load v = .ok t) (htag : Tagged v "FunctionDeclaration")
    (hx : v.get? "body" = some x) : Exchanges v t .body x := by
  obtain ⟨name, returnType, params, slots, rfl, hload, hput⟩ := load_put_body hv htag hx
  refine ⟨⟨_, hload, rfl⟩, fun w _ hblock => ?_⟩
  rw [Step.path, hput w]
  cases hw : load w with
  | error e => rfl
  | ok u =>
    obtain ⟨slots', rfl⟩ := hblock rfl u hw
    rfl

theorem exchanges_of_child {s : Step} (hv : load v = .ok t) (h : Child v s x) :
    Exchanges v t s x := by
  cases h with
  | program htag hws hx hfalsy =>
    exact exchanges_slot .program (fun _ => rfl) (fun _ _ => rfl) (fun _ _ => load_program) hv htag
      hws hx hfalsy
  | block htag hws hx hfalsy =>
    exact exchanges_slot .block (fun _ => rfl) (fun _ _ => rfl) (fun _ _ => load_block) hv htag
      hws hx hfalsy
  | functionDecl htag hx => exact exchanges_body hv htag hx
  | returnStmt htag hx =>
    refine exchanges_member .returnStmt rfl (fun _ => rfl) (fun _ _ => rfl) ?_ hv hx
    exact fun v' w hother => load_returnStmt ((hother _ (by decide)).trans htag)
  | exprStmt htag hx =>
    refine exchanges_member .exprStmt rfl (fun _ => rfl) (fun _ _ => rfl) ?_ hv hx
    exact fun v' w hother => load_exprStmt ((hother _ (by decide)).trans htag)
  | variableDecl htag hx => exact exchanges_value hv htag hx
  | call htag hws hx => exact exchanges_item hv htag hws hx
  | left htag hx => exact exchanges_left hv htag hx
  | right htag hx => exact exchanges_right hv htag hx

end

/-! ## Many steps -/

theorem within_append {α : Type} (p q : Path) (x : Except NodeError α) :
    within (p ++ q) x = within p (within q x) := by
  cases x with
  | ok a => rfl
  | error e => simp [within, Except.mapError]

theorem Position.path_cons (s : Step) (p : Position) :
    Position.path (s :: p) = s.path ++ p.path :=
  List.flatMap_cons

section

variable {v x w : Value} {s : Step} {p : Position}

theorem at?_of_child (h : Child v s x) : v.at? s.path = some x := by
  cases h with
  | program _ hws hx _ => exact Value.at?_item hws hx
  | block _ hws hx _ => exact Value.at?_item hws hx
  | functionDecl _ hx => exact Value.at?_member hx
  | returnStmt _ hx => exact Value.at?_member hx
  | exprStmt _ hx => exact Value.at?_member hx
  | variableDecl _ hx => exact Value.at?_member hx
  | call _ hws hx => exact Value.at?_item hws hx
  | left _ hx => exact Value.at?_member hx
  | right _ hx => exact Value.at?_member hx

theorem at?_of_visits (h : Visits v p x) : v.at? p.path = some x := by
  induction h with
  | root v => rfl
  | step hchild _ ih =>
    rw [Position.path_cons, Value.at?_append (at?_of_child hchild)]
    exact ih

/-- A node stays an object when a node below it is exchanged. -/
theorem not_falsy_put_child (h : Child v s x) (w : Value) : ¬ Falsy (v.put s.path w) := by
  cases h with
  | program _ hws hx _ =>
    rw [Step.path, Value.put_item hws hx]
    exact not_falsy_of_get? (Value.get?_put_here hws _)
  | block _ hws hx _ =>
    rw [Step.path, Value.put_item hws hx]
    exact not_falsy_of_get? (Value.get?_put_here hws _)
  | functionDecl _ hx => exact not_falsy_of_get? (Value.get?_put_here hx w)
  | returnStmt _ hx => exact not_falsy_of_get? (Value.get?_put_here hx w)
  | exprStmt _ hx => exact not_falsy_of_get? (Value.get?_put_here hx w)
  | variableDecl _ hx => exact not_falsy_of_get? (Value.get?_put_here hx w)
  | call _ hws hx =>
    rw [Step.path, Value.put_item hws hx]
    exact not_falsy_of_get? (Value.get?_put_here hws _)
  | left _ hx => exact not_falsy_of_get? (Value.get?_put_here hx w)
  | right _ hx => exact not_falsy_of_get? (Value.get?_put_here hx w)

theorem not_falsy_put (h : Visits v p x) (hw : ¬ Falsy w) : ¬ Falsy (v.put p.path w) := by
  cases h with
  | root v => exact hw
  | step hchild _ =>
    rw [Position.path_cons, Value.put_append (at?_of_child hchild)]
    exact not_falsy_put_child hchild _

end

theorem child?_body {t c : Node} (h : t.child? .body = some c) : ∃ slots, c = .block slots := by
  cases t with
  | functionDecl name returnType params body =>
    cases h
    exact ⟨body, rfl⟩
  | _ => cases h

/-- A block stays a block when a node below it is exchanged. -/
theorem put_block (slots : Slots) (s : Step) (p : Position) (u : Node) :
    ∃ slots', (Node.block slots).put (s :: p) u = .block slots' := by
  rw [Node.put]
  split
  · cases s with
    | slot index => exact ⟨_, rfl⟩
    | _ => exact ⟨slots, rfl⟩
  · exact ⟨slots, rfl⟩

/-- Exchanging a part and loading is loading and exchanging; in the place of a function's body the
part has to be a block. -/
theorem load_put {v y w : Value} {t : Node} {p : Position} (hv : load v = .ok t)
    (hp : Visits v p y) (hw : ¬ Falsy w)
    (hbody : p.getLast? = some .body → ∀ u, load w = .ok u → ∃ slots, u = .block slots) :
    load (v.put p.path w) = (within p.path (load w)).map (t.put p) := by
  induction hp generalizing t with
  | root v =>
    show load w = _
    cases load w <;> rfl
  | @step v x y s p hchild hvisits ih =>
    have hone := exchanges_of_child hv hchild
    obtain ⟨c, hx, hc⟩ := hone.child
    have hload : load (x.put p.path w) = (within p.path (load w)).map (c.put p) := by
      refine ih hx fun hlast => hbody ?_
      rw [List.getLast?_cons, hlast]
      rfl
    -- a function's body that is only changed further down is still a block
    have hblock : s = .body → ∀ u, load (x.put p.path w) = .ok u → ∃ slots, u = .block slots := by
      rintro rfl u hu
      cases p with
      | nil => exact hbody rfl u hu
      | cons s p =>
        rw [hload] at hu
        obtain ⟨u', -, rfl⟩ := map_eq_ok_iff.1 hu
        obtain ⟨slots, rfl⟩ := child?_body hc
        exact put_block slots s p u'
    have hput : t.put (s :: p) = fun u => t.setChild s (c.put p u) := by
      funext u
      rw [Node.put, hc]
    rw [Position.path_cons, Value.put_append (at?_of_child hchild),
      hone.put _ (not_falsy_put hvisits hw) hblock, hload, hput, within_append]
    cases load w <;> rfl

theorem loads_of_visits {v x : Value} {t : Node} {p : Position} (hv : load v = .ok t)
    (hp : Visits v p x) : ∃ u, load x = .ok u := by
  induction hp generalizing t with
  | root v => exact ⟨t, hv⟩
  | step hchild _ ih =>
    obtain ⟨c, hc, -⟩ := (exchanges_of_child hv hchild).child
    exact ih hc

theorem visits_append_singleton {v x : Value} {p : Position} {s : Step}
    (h : Visits v (p ++ [s]) x) : ∃ y, Visits v p y ∧ Child y s x := by
  induction p generalizing v with
  | nil =>
    cases h with
    | step hchild hrest =>
      cases hrest
      exact ⟨v, .root v, hchild⟩
  | cons s' p ih =>
    cases h with
    | step hchild hrest =>
      obtain ⟨y, hy, hlast⟩ := ih hrest
      exact ⟨y, .step hchild hy, hlast⟩

/-- A node of another kind in the place of a function's body is a fault of the function. -/
theorem load_put_wrongBody {v x w : Value} {t u : Node} {p : Position} (hv : load v = .ok t)
    (hp : Visits v (p ++ [.body]) x) (hu : load w = .ok u) (hne : ∀ slots, u ≠ .block slots) :
    load (v.put (Position.path (p ++ [.body])) w) =
      .error ⟨p.path, .malformed .functionDeclaration (.bodyNotBlock u.tag)⟩ := by
  obtain ⟨f, hf, hchild⟩ := visits_append_singleton hp
  obtain ⟨tf, htf⟩ := loads_of_visits hv hf
  have hfunction : load (f.put [.member "body"] w) =
      malformed .functionDeclaration (.bodyNotBlock u.tag) := by
    cases hchild with
    | functionDecl htag hx =>
      obtain ⟨name, returnType, params, slots, -, -, hput⟩ := load_put_body htf htag hx
      rw [hput, hu]
      cases u with
      | block slots => exact absurd rfl (hne slots)
      | _ => rfl
  have hpath : Position.path (p ++ [.body]) = p.path ++ [.member "body"] := List.flatMap_append
  have hobject : ¬ Falsy (f.put [.member "body"] w) := not_falsy_put_child hchild w
  rw [hpath, Value.put_append (at?_of_visits hf), load_put hv hf hobject, hfunction]
  · simp [malformed, within, Except.mapError, Except.map]
  · intro _ u' hu'
    rw [hfunction] at hu'
    cases hu'

/-! ## Paths -/

theorem Step.path_plain (s : Step) : s.path.Plain := by
  cases s with
  | slot index => exact Path.plain_item (by decide) index
  | item index => exact Path.plain_item (by decide) index
  | _ => exact Path.plain_member (by decide)

theorem Position.path_plain (p : Position) : p.path.Plain := by
  intro segment h
  obtain ⟨s, -, hs⟩ := List.mem_flatMap.1 h
  exact s.path_plain segment hs

/-! ## Results and faults of a part -/

section

variable {v x w : Value} {t : Node} {p : Position}

theorem load_put_of_ok {u : Node} (hv : load v = .ok t) (hp : Visits v p x) (hw : ¬ Falsy w)
    (hu : load w = .ok u) (hbody : p.getLast? = some .body → ∃ slots, u = .block slots) :
    load (v.put p.path w) = .ok (t.put p u) := by
  rw [load_put hv hp hw, hu]
  · rfl
  · intro hlast u' hu'
    cases hu.symm.trans hu'
    exact hbody hlast

theorem load_put_of_error {e : NodeError} (hv : load v = .ok t) (hp : Visits v p x)
    (hw : ¬ Falsy w) (he : load w = .error e) :
    load (v.put p.path w) = .error (e.under p.path) ∧
      (e.under p.path).path.text = Path.joinText p.path.text e.path.text := by
  refine ⟨?_, Path.text_append p.path_plain (located_of_load_error he).1⟩
  rw [load_put hv hp hw, he]
  · rfl
  · intro _ u hu
    cases he.symm.trans hu

end

/-! ## Top theorem -/

/-- A part of a value that loads may be exchanged for any other one that leaves no slot empty: what
the new part loads to is in the tree at its position, and its fault is reported behind the path to
it.  Only the body of a function has to be a block, or else the function is at fault. -/
theorem load_put_at_position (v : Value) (t : Node) (hv : load v = .ok t) :
    (∀ (p : Position) (x w : Value), Visits v p x → p.getLast? ≠ some .body → ¬ Falsy w →
      (∀ u, load w = .ok u → load (v.put p.path w) = .ok (t.put p u)) ∧
      ∀ e, load w = .error e → load (v.put p.path w) = .error (e.under p.path) ∧
        (e.under p.path).path.text = Path.joinText p.path.text e.path.text) ∧
    ∀ (p q : Position) (x w : Value), q = p ++ [.body] → Visits v q x → ¬ Falsy w →
      (∀ slots, load w = .ok (.block slots) →
        load (v.put q.path w) = .ok (t.put q (.block slots))) ∧
      (∀ u, load w = .ok u → (∀ slots, u ≠ .block slots) → load (v.put q.path w) =
        .error ⟨p.path, .malformed .functionDeclaration (.bodyNotBlock u.tag)⟩) ∧
      ∀ e, load w = .error e → load (v.put q.path w) = .error (e.under q.path) ∧
        (e.under q.path).path.text = Path.joinText q.path.text e.path.text := by
  constructor
  · intro p x w hp hlast hw
    refine ⟨fun u hu => ?_, fun e he => load_put_of_error hv hp hw he⟩
    exact load_put_of_ok hv hp hw hu fun h => absurd h hlast
  · rintro p q x w rfl hp hw
    refine ⟨fun slots hslots => ?_, fun u hu hne => load_put_wrongBody hv hp hu hne,
      fun e he => load_put_of_error hv hp hw he⟩
    exact load_put_of_ok hv hp hw hslots fun _ => ⟨slots, rfl⟩

/-- The argument of a `return` deep in a program, exchanged for a name and for a name that lacks its
text, and the body of the function around it, exchanged for a name. -/
theorem load_put_at_position_function :
    let x : Value := .object [("type", .string "Identifier"), ("name", .string "x")]
    let y : Value := .object [("type", .string "Identifier"), ("name", .string "y")]
    let nameless : Value := .object [("type", .string "Identifier")]
    let block : Value := .object [("type", .string "BlockStatement"),
      ("body", .array [.object [("type", .string "ReturnStatement"), ("argument", x)]])]
    let v : Value := .object [("type", .string "Program"), ("body", .array [.null, .object
      [("type", .string "FunctionDeclaration"), ("id", .object [("name", .string "f")]),
        ("returnType", .object [("name", .string "int")]), ("params", .array []),
        ("body", block)]])]
    let tree (n : Node) : Node :=
      .program [none, some (.functionDecl "f" "int" [] [some (.returnStmt n)])]
    let p : Position := [.slot 1, .body, .slot 0, .argument]
    let q : Position := [.slot 1, .body]
    load v = .ok (tree (.identifier "x")) ∧
      load (v.put p.path y) = .ok (tree (.identifier "y")) ∧
      (∃ e, load (v.put p.path nameless) = .error e ∧
        e.path.text = "/body/1/body/body/0/argument") ∧
      load (v.put q.path block) = .ok (tree (.identifier "x")) ∧
      load (v.put q.path y) = .error ⟨[.member "body", .item 1],
        .malformed .functionDeclaration (.bodyNotBlock "Identifier")⟩ := by
  intro x y nameless block v tree p q
  have hytag : Tagged y "Identifier" := rfl
  have hnamelesstag : Tagged nameless "Identifier" := rfl
  have hblocktag : Tagged block "BlockStatement" := rfl
  have hy : load y = .ok (.identifier "y") := load_of_decodes (.identifier rfl rfl)
  have hnameless : load nameless = .error (missingFault .identifier "name") := by
    rw [load_of_tagged (k := .identifier) hnamelesstag, loadAs]
    rfl
  have hstatement : ∀ {w : Value}, Tagged w "ReturnStatement" → ¬ Falsy w := not_falsy_of_get?
  have hfunction : ∀ {w : Value}, Tagged w "FunctionDeclaration" → ¬ Falsy w := not_falsy_of_get?
  have hblock : Decodes block (.block [some (.returnStmt (.identifier "x"))]) :=
    .block rfl rfl (.node (hstatement rfl) (.returnStmt rfl rfl (.identifier rfl rfl)) .nil)
  have hv : load v = .ok (tree (.identifier "x")) :=
    load_of_decodes (.program rfl rfl (.empty .null (.node (hfunction rfl)
      (.functionDecl rfl rfl (.object rfl) rfl (.object rfl) rfl .nil rfl hblock) .nil)))
  have hq : Visits v q block :=
    .step (.program rfl rfl rfl (hfunction rfl)) (.step (.functionDecl rfl rfl) (.root _))
  have hp : Visits v p x :=
    .step (.program rfl rfl rfl (hfunction rfl)) (.step (.functionDecl rfl rfl)
      (.step (.block rfl rfl rfl (hstatement rfl)) (.step (.returnStmt rfl rfl) (.root _))))
  obtain ⟨hat, hbody⟩ := load_put_at_position v _ hv
  have hexchanged := hat p x y hp (by decide) (not_falsy_of_get? hytag)
  have hfaulty := hat p x nameless hp (by decide) (not_falsy_of_get? hnamelesstag)
  have hsame := hbody [.slot 1] q block block rfl hq (not_falsy_of_get? hblocktag)
  have hother := hbody [.slot 1] q block y rfl hq (not_falsy_of_get? hytag)
  obtain ⟨herror, htext⟩ := hfaulty.2 _ hnameless
  exact ⟨hv, hexchanged.1 _ hy, ⟨_, herror, htext⟩, hsame.1 _ (load_of_decodes hblock),
    hother.2.1 _ hy fun _ h => by cases h⟩

end SyntaxToC.Tree
