import SyntaxToC.Proofs.Induction
import SyntaxToC.Proofs.Loading

/-!
# All faults of a JSON value

`load` stops at the first fault.  `faults` goes on: it lists every fault of a value, of its
attributes and of the nodes below it, in the order in which `load` would come to them.  Of a node
without a tag nothing more is said, and neither is anything about a node of no known kind.

    (∃ t, load v = .ok t) ↔ faults v = []
    load v = .error e     ↔ (faults v).head? = some e
-/

namespace SyntaxToC.Tree

open SyntaxToC.Json SyntaxToC.Outcome

/-! ## Attributes -/

namespace Attribute

def textFaults : Value → List AttributeError
  | .string _ => []
  | v => [.wrongType v .text]

def flagFaults : Value → List AttributeError
  | .bool _ => []
  | v => [.wrongType v .flag]

/-- The faults of a member that is there. -/
def memberFaults (ms : Members) (key : String) (faults : Value → List AttributeError) :
    List AttributeError :=
  match ms.get? key with
  | some v => faults v
  | none => []

def absenceFaults (ms : Members) (key : String) : List AttributeError :=
  if (ms.get? key).isNone then [.missing key] else []

def nameFaults : Value → List AttributeError
  | .object ms => memberFaults ms "name" textFaults ++ absenceFaults ms "name"
  | .array [] => [.tooShort 0 .name]
  | .array [v] => textFaults v
  | .array (v :: vs) => textFaults v ++ [.tooLong (vs.length + 1)]
  | v => [.wrongType v (.record .name)]

/-- The faults of a record of two fields, given those of the fields. -/
def recordFaults (r : Record) (first : String) (firstFaults : Value → List AttributeError)
    (second : String) (secondFaults : Value → List AttributeError) : Value → List AttributeError
  | .object ms =>
    memberFaults ms first firstFaults ++ memberFaults ms second secondFaults ++
      absenceFaults ms first ++ absenceFaults ms second
  | .array [] => [.tooShort 0 r]
  | .array [v] => firstFaults v ++ [.tooShort 1 r]
  | .array [v, w] => firstFaults v ++ secondFaults w
  | .array (v :: w :: vs) => firstFaults v ++ secondFaults w ++ [.tooLong (vs.length + 2)]
  | v => [.wrongType v (.record r)]

def importSourceFaults : Value → List AttributeError :=
  recordFaults .importSource "std" flagFaults "value" textFaults

def paramFaults : Value → List AttributeError :=
  recordFaults .param "name" nameFaults "typing" nameFaults

def paramsFaults : Value → List AttributeError
  | .array items => items.flatMap paramFaults
  | v => [.wrongType v .sequence]

end Attribute

/-! ## Nodes -/

/-- A fault of a part of a node, seen from the node. -/
def NodeError.under (path : Path) (e : NodeError) : NodeError := { e with path := path ++ e.path }

def missingFault (kind : Kind) (key : String) : NodeError := ⟨[], .malformed kind (.missing key)⟩

def attributeFaults (kind : Kind) (v : Value) (key : String)
    (faults : Value → List AttributeError) : List NodeError :=
  match v.get? key with
  | some w => (faults w).map fun e => ⟨[], .malformed kind (.badAttribute key e)⟩
  | none => [missingFault kind key]

def literalFaults (v : Value) : List NodeError :=
  match v.get? "value" with
  | some (.string _) | some (.number _) | some (.bool _) => []
  | some _ => [⟨[], .malformed .literal .literalType⟩]
  | none => [missingFault .literal "value"]

/-- The fault of a function whose body is a node, but not a block. -/
def wrongBodyFaults (w : Value) : List NodeError :=
  match w.get? "type" with
  | some (.string tag) =>
    if tag = Kind.blockStatement.tag then []
    else [⟨[], .malformed .functionDeclaration (.bodyNotBlock tag)⟩]
  | _ => []

mutual

/-- All faults of a value that is read as a node. -/
def faults (v : Value) : List NodeError :=
  match v.get? "type" with
  | some (.string tag) =>
    match Kind.ofTag? tag with
    | some kind => faultsAs kind v
    | none => []
  | _ => [⟨[], .noKind⟩]
termination_by (sizeOf v, 2)

def faultsAs (kind : Kind) (v : Value) : List NodeError :=
  match kind with
  | .program | .blockStatement => itemsFaults kind v "body" Value.isBlank
  | .importDeclaration => attributeFaults kind v "source" Attribute.importSourceFaults
  | .functionDeclaration =>
    attributeFaults kind v "id" Attribute.nameFaults ++
      attributeFaults kind v "returnType" Attribute.nameFaults ++
      attributeFaults kind v "params" Attribute.paramsFaults ++
      functionBodyFaults v
  | .returnStatement => childFaults kind v "argument"
  | .expressionStatement => childFaults kind v "expression"
  | .variableDeclaration =>
    attributeFaults kind v "mutable" Attribute.flagFaults ++
      attributeFaults kind v "id" Attribute.nameFaults ++
      attributeFaults kind v "typing" Attribute.nameFaults ++
      childFaults kind v "value"
  | .callExpression =>
    attributeFaults kind v "callee" Attribute.nameFaults ++
      itemsFaults kind v "arguments" fun _ => false
  | .binaryExpression =>
    attributeFaults kind v "op" Attribute.textFaults ++ childFaults kind v "left" ++
      childFaults kind v "right"
  | .literal => literalFaults v
  | .identifier => attributeFaults kind v "name" Attribute.textFaults
termination_by (sizeOf v, 1)

/-- The faults of the node that a member holds. -/
def childFaults (kind : Kind) (v : Value) (key : String) : List NodeError :=
  match h : v.get? key with
  | some w =>
    have := Value.sizeOf_get?_lt h
    (faults w).map (.under [.member key])
  | none => [missingFault kind key]
termination_by (sizeOf v, 0)

/-- The faults of a function's body; only a body without any has to be a block. -/
def functionBodyFaults (v : Value) : List NodeError :=
  match h : v.get? "body" with
  | some w =>
    have := Value.sizeOf_get?_lt h
    match faults w with
    | [] => wrongBodyFaults w
    | found => found.map (.under [.member "body"])
  | none => [missingFault .functionDeclaration "body"]
termination_by (sizeOf v, 0)

/-- The faults of the nodes in an array, less the items that are left out. -/
def itemsFaults (kind : Kind) (v : Value) (key : String) (skip : Value → Bool) :
    List NodeError :=
  match h : v.get? key with
  | some (.array ws) =>
    have := sizeOf_items_lt h
    itemFaults key skip 0 ws
  | some _ => [⟨[], .malformed kind (.notArray key)⟩]
  | none => [missingFault kind key]
termination_by (sizeOf v, 0)

/-- The same for the items from `index` on. -/
def itemFaults (key : String) (skip : Value → Bool) (index : Nat) (ws : List Value) :
    List NodeError :=
  match ws with
  | [] => []
  | w :: ws =>
    (if skip w then [] else (faults w).map (.under [.member key, .item index])) ++
      itemFaults key skip (index + 1) ws
termination_by (sizeOf ws, 0)

end

/-! ## Lemmas -/

/-! ### Attributes -/

namespace Attribute

theorem text_reports (v : Value) : Reports (textFaults v) (text v) := by
  cases v with
  | string s => exact .ok s
  | _ => exact .error _ _

theorem flag_reports (v : Value) : Reports (flagFaults v) (flag v) := by
  cases v with
  | bool b => exact .ok b
  | _ => exact .error _ _

section

variable {α β : Type} {ms : Members} {key : String} {decode : Decoder α}
  {faults : Value → List AttributeError}

theorem member_reports (h : ∀ v, Reports (faults v) (decode v)) :
    Reports (memberFaults ms key faults) (member ms key decode) := by
  unfold memberFaults member
  cases ms.get? key with
  | none => exact .ok none
  | some v => exact (h v).map some

/-- A member is absent exactly if nothing was read for it. -/
theorem present_reports {x : Option α} (h : member ms key decode = .ok x) :
    Reports (absenceFaults ms key) (present key x) := by
  unfold member at h
  unfold absenceFaults
  cases hv : ms.get? key with
  | none =>
    rw [hv] at h
    cases h
    exact .error _ _
  | some v =>
    rw [hv] at h
    obtain ⟨a, -, rfl⟩ := map_eq_ok_iff.1 h
    exact .ok a

end

theorem name_reports (v : Value) : Reports (nameFaults v) (name v) := by
  cases v with
  | object ms => exact (member_reports text_reports).bind fun x hx => present_reports hx
  | array items =>
    match items with
    | [] => exact .error _ _
    | [w] => exact text_reports w
    | w :: _ :: _ => exact (text_reports w).bind fun _ _ => .error _ _
  | _ => exact .error _ _

theorem record_reports {α β : Type} {r : Record} {first second : String}
    {decodeFirst : Decoder α} {decodeSecond : Decoder β}
    {firstFaults secondFaults : Value → List AttributeError}
    (hfirst : ∀ v, Reports (firstFaults v) (decodeFirst v))
    (hsecond : ∀ v, Reports (secondFaults v) (decodeSecond v)) (v : Value) :
    Reports (recordFaults r first firstFaults second secondFaults v)
      (record r first decodeFirst second decodeSecond v) := by
  cases v with
  | object ms =>
    simp only [recordFaults, List.append_assoc]
    -- both members are read before either of them is found missing
    refine (member_reports hfirst).bind fun a ha => (member_reports hsecond).bind fun b hb => ?_
    exact (present_reports ha).bind fun x _ => (present_reports hb).map fun y => (x, y)
  | array items =>
    match items with
    | [] => exact .error _ _
    | [x] => exact (hfirst x).bind fun _ _ => .error _ _
    | [x, y] => exact (hfirst x).bind fun a _ => (hsecond y).map fun b => (a, b)
    | x :: y :: _ :: _ =>
      simp only [recordFaults, List.append_assoc]
      exact (hfirst x).bind fun _ _ => (hsecond y).bind fun _ _ => .error _ _
  | _ => exact .error _ _

theorem importSource_reports (v : Value) : Reports (importSourceFaults v) (importSource v) :=
  record_reports flag_reports text_reports v

theorem param_reports (v : Value) : Reports (paramFaults v) (param v) :=
  (record_reports name_reports name_reports v).map _

theorem params_reports (v : Value) : Reports (paramsFaults v) (params v) := by
  cases v with
  | array items => exact .mapM fun w _ => param_reports w
  | _ => exact .error _ _

end Attribute

/-! ### The tag of a node -/

theorem faults_of_tagged {v : Value} {k : Kind} (h : Tagged v k.tag) :
    faults v = faultsAs k v := by
  rw [faults, h]
  simp [Kind.ofTag?_eq_some_iff.2 rfl]

theorem faults_of_unknown {v : Value} {tag : String} (h : Tagged v tag)
    (hk : ∀ k : Kind, k.tag ≠ tag) : faults v = [] := by
  rw [faults, h]
  simp [ofTag?_eq_none hk]

theorem faults_of_untagged {v : Value} (h : ∀ tag, ¬ Tagged v tag) :
    faults v = [⟨[], .noKind⟩] := by
  rw [faults]
  split
  · rename_i tag htag
    exact absurd htag (h tag)
  · rfl

/-! ### Members of a node -/

section

variable {α : Type} {kind : Kind} {v : Value} {key : String}

theorem within_reports {es : List NodeError} {x : Except NodeError α} (path : Path)
    (h : Reports es x) : Reports (es.map (.under path)) (within path x) :=
  h.mapError _

theorem readAttribute_reports {decode : Decoder α} {found : Value → List AttributeError}
    (h : ∀ w, Reports (found w) (decode w)) :
    Reports (attributeFaults kind v key found) (readAttribute kind v key decode) := by
  unfold attributeFaults readAttribute
  cases v.get? key with
  | none => exact .error _ _
  | some w => exact (h w).mapError _

theorem literalText_reports : Reports (literalFaults v) (literalText v) := by
  unfold literalFaults literalText
  cases v.get? "value" with
  | none => exact .error _ _
  | some w =>
    cases w with
    | string _ | number _ | bool _ => exact .ok _
    | _ => exact .error _ _

/-- The node that a member holds, and whatever is done with it. -/
theorem child_reports {rest : List NodeError} {f : Node → Except NodeError α}
    (ih : ∀ w, sizeOf w < sizeOf v → Reports (faults w) (load w))
    (hf : ∀ n, Reports rest (f n)) :
    Reports (childFaults kind v key ++ rest)
      (do
        let ⟨w, _⟩ ← field kind v key
        f (← within [.member key] (load w))) := by
  rw [childFaults]
  split
  · rename_i w h
    rw [field_of_get? h]
    exact (within_reports _ (ih w (Value.sizeOf_get?_lt h))).bind fun n _ => hf n
  · rename_i h
    rw [field_of_missing h]
    exact .error _ _

theorem lastChild_reports {f : Node → Except NodeError α}
    (ih : ∀ w, sizeOf w < sizeOf v → Reports (faults w) (load w))
    (hf : ∀ n, Reports [] (f n)) :
    Reports (childFaults kind v key)
      (do
        let ⟨w, _⟩ ← field kind v key
        f (← within [.member key] (load w))) := by
  rw [← List.append_nil (childFaults kind v key)]
  exact child_reports ih hf

/-- The array that a member holds, and whatever is done with its items. -/
theorem items_reports {skip : Value → Bool}
    {f : { ws : List Value // sizeOf ws < sizeOf v } → Except NodeError α}
    (hf : ∀ ws, Reports (itemFaults key skip 0 ws.1) (f ws)) :
    Reports (itemsFaults kind v key skip) (items kind v key >>= f) := by
  rw [itemsFaults]
  split
  · rename_i ws h
    rw [items_of_get? h]
    exact hf ⟨ws, sizeOf_items_lt h⟩
  · rename_i w hw h
    rw [items_of_not_array h hw]
    exact .error _ _
  · rename_i h
    rw [items_of_missing h]
    exact .error _ _

end

theorem loadSlots_reports {ws : List Value} (ih : ∀ w ∈ ws, Reports (faults w) (load w))
    (index : Nat) :
    Reports (itemFaults "body" Value.isBlank index ws) (loadSlots index ws) := by
  induction ws generalizing index with
  | nil =>
    rw [itemFaults, loadSlots]
    exact .ok []
  | cons w ws ihs =>
    have hrest := ihs (fun x hx => ih x (List.mem_cons_of_mem w hx)) (index + 1)
    rw [itemFaults, loadSlots]
    split
    · exact hrest.map (none :: ·)
    · exact ((within_reports _ (ih w List.mem_cons_self)).map some).bind
        fun slot _ => hrest.map (slot :: ·)

theorem loadArguments_reports {ws : List Value} (ih : ∀ w ∈ ws, Reports (faults w) (load w))
    (index : Nat) :
    Reports (itemFaults "arguments" (fun _ => false) index ws) (loadArguments index ws) := by
  induction ws generalizing index with
  | nil =>
    rw [itemFaults, loadArguments]
    exact .ok []
  | cons w ws ihs =>
    have hrest := ihs (fun x hx => ih x (List.mem_cons_of_mem w hx)) (index + 1)
    rw [itemFaults, loadArguments]
    exact (within_reports _ (ih w List.mem_cons_self)).bind fun n _ => hrest.map (n :: ·)

/-! ### The body of a function -/

theorem eq_block_of_tag {v : Value} {t : Node} (h : Decodes v t)
    (htag : t.tag = Kind.blockStatement.tag) : ∃ slots, t = .block slots := by
  have hkind := kind?_of_decodes (k := .blockStatement) h (htag ▸ tagged_of_decodes h)
  cases t with
  | block slots => exact ⟨slots, rfl⟩
  | _ => cases hkind

/-- A body that was loaded is a block, or it is named by its tag. -/
theorem wrongBody_reports {w : Value} {n : Node} {f : Slots → Except NodeError Node}
    (hn : load w = .ok n) (hf : ∀ slots, Reports [] (f slots)) :
    Reports (wrongBodyFaults w)
      (match n with
      | .block body => f body
      | other => malformed .functionDeclaration (.bodyNotBlock other.tag)) := by
  have hdecodes := decodes_of_load hn
  rw [wrongBodyFaults, tagged_of_decodes hdecodes]
  simp only
  split
  · rename_i htag
    obtain ⟨slots, rfl⟩ := eq_block_of_tag hdecodes htag
    exact hf slots
  · rename_i htag
    split
    · exact absurd rfl htag
    · exact .error _ _

theorem functionBody_reports {v : Value} {f : Slots → Except NodeError Node}
    (ih : ∀ w, sizeOf w < sizeOf v → Reports (faults w) (load w))
    (hf : ∀ slots, Reports [] (f slots)) :
    Reports (functionBodyFaults v)
      (do
        let ⟨w, _⟩ ← field .functionDeclaration v "body"
        match ← within [.member "body"] (load w) with
        | .block body => f body
        | other => malformed .functionDeclaration (.bodyNotBlock other.tag)) := by
  rw [functionBodyFaults]
  split
  · rename_i w h
    rw [field_of_get? h]
    have hw := within_reports [.member "body"] (ih w (Value.sizeOf_get?_lt h))
    cases hfaults : faults w with
    | nil =>
      rw [hfaults] at hw
      exact hw.bind fun n hn => wrongBody_reports (within_eq_ok_iff.1 hn) hf
    | cons e rest =>
      rw [hfaults] at hw
      have herror : within [.member "body"] (load w) = .error _ := hw
      show Reports _ (within [.member "body"] (load w) >>= _)
      rw [herror]
      exact .error _ _
  · rename_i h
    rw [field_of_missing h]
    exact .error _ _

/-! ### One level -/

theorem loadAs_reports {kind : Kind} {v : Value}
    (ih : ∀ w, sizeOf w < sizeOf v → Reports (faults w) (load w)) :
    Reports (faultsAs kind v) (loadAs kind v) := by
  have ihs : ∀ ws : { ws : List Value // sizeOf ws < sizeOf v }, ∀ w ∈ ws.1,
      Reports (faults w) (load w) :=
    fun ws w hw => ih w (Nat.lt_trans (List.sizeOf_lt_of_mem hw) ws.2)
  rw [faultsAs.eq_def, loadAs.eq_def]
  cases kind with
  | program =>
    exact items_reports fun ws => (loadSlots_reports (ihs ws) 0).map Node.program
  | importDeclaration =>
    exact (readAttribute_reports Attribute.importSource_reports).map _
  | functionDeclaration =>
    simp only [List.append_assoc]
    refine (readAttribute_reports Attribute.name_reports).bind fun name _ => ?_
    refine (readAttribute_reports Attribute.name_reports).bind fun returnType _ => ?_
    refine (readAttribute_reports Attribute.params_reports).bind fun params _ => ?_
    exact functionBody_reports ih fun body => .ok _
  | blockStatement =>
    exact items_reports fun ws => (loadSlots_reports (ihs ws) 0).map Node.block
  | returnStatement => exact lastChild_reports ih fun n => .ok _
  | expressionStatement => exact lastChild_reports ih fun n => .ok _
  | variableDeclaration =>
    simp only [List.append_assoc]
    refine (readAttribute_reports Attribute.flag_reports).bind fun mutable _ => ?_
    refine (readAttribute_reports Attribute.name_reports).bind fun name _ => ?_
    refine (readAttribute_reports Attribute.name_reports).bind fun typing _ => ?_
    exact lastChild_reports ih fun n => .ok _
  | callExpression =>
    refine (readAttribute_reports Attribute.name_reports).bind fun callee _ => ?_
    exact items_reports fun ws => (loadArguments_reports (ihs ws) 0).map (Node.call callee)
  | binaryExpression =>
    simp only [List.append_assoc]
    refine (readAttribute_reports Attribute.text_reports).bind fun op _ => ?_
    refine child_reports ih fun left => ?_
    exact lastChild_reports ih fun right => .ok _
  | literal => exact literalText_reports.map _
  | identifier => exact (readAttribute_reports Attribute.text_reports).map _

theorem load_reports (v : Value) : Reports (faults v) (load v) := by
  induction v using Value.sizeInduct with
  | smaller v ih =>
    rcases tag_cases v with ⟨kind, hkind⟩ | ⟨tag, htag, hk⟩ | hnone
    · rw [faults_of_tagged hkind, load_of_tagged hkind]
      exact loadAs_reports ih
    · rw [faults_of_unknown htag hk, load_of_unknown htag hk]
      exact .ok _
    · rw [faults_of_untagged hnone, load_of_untagged hnone]
      exact .error _ _

/-! ## Top theorem -/

/-- The loader succeeds exactly on the values without faults, and otherwise stops at the first
one. -/
theorem load_outcome_by_faults (v : Value) :
    ((∃ t, load v = .ok t) ↔ faults v = []) ∧
      ∀ e, load v = .error e ↔ (faults v).head? = some e :=
  ⟨(load_reports v).ok_iff, (load_reports v).error_iff⟩

end SyntaxToC.Tree
