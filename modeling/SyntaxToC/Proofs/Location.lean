import SyntaxToC.Proofs.Faults
import SyntaxToC.Proofs.Pointer

/-!
# Where a fault is

Each kind of node has its attributes, and each attribute a shape (`Kind.attributes`).  A fault of a
value leads by its path to the part at fault: one without a tag, or a node of the reported kind and
an attribute of that kind which is missing or does not have its shape.  The message of the fault
names the attribute, and says whether it is missing.

    e ∈ faults v → Located v e                                   (faults_located)
-/

namespace SyntaxToC.Tree

open SyntaxToC.Json SyntaxToC.Outcome

/-! ## Attributes and their shapes -/

inductive Shape where
  | text
  | flag
  | name
  | params
  | source
  | literal
  | array
  | node
  | block
deriving DecidableEq, Repr

/-- The value has the shape. -/
def Shape.Fits : Shape → Value → Prop
  | .text, w => ∃ s, w = .string s
  | .flag, w => ∃ b, w = .bool b
  | .name, w => ∃ s, IsName w s
  | .params, w => ∃ ps items, w = .array items ∧ List.Forall₂ IsParam items ps
  | .source, w => ∃ std s, IsSource w std s
  | .literal, w => ∃ s, IsLiteral w s
  | .array, w => ∃ ws, w = .array ws
  | .node, w => ∃ n, Decodes w n
  | .block, w => ∃ slots, Decodes w (.block slots)

/-- The attributes of a kind, in the order in which they are read. -/
def Kind.attributes : Kind → List (String × Shape)
  | .program => [("body", .array)]
  | .importDeclaration => [("source", .source)]
  | .functionDeclaration =>
    [("id", .name), ("returnType", .name), ("params", .params), ("body", .block)]
  | .blockStatement => [("body", .array)]
  | .returnStatement => [("argument", .node)]
  | .expressionStatement => [("expression", .node)]
  | .variableDeclaration => [("mutable", .flag), ("id", .name), ("typing", .name), ("value", .node)]
  | .callExpression => [("callee", .name), ("arguments", .array)]
  | .binaryExpression => [("op", .text), ("left", .node), ("right", .node)]
  | .literal => [("value", .literal)]
  | .identifier => [("name", .text)]

/-! ## Faults in their place -/

/-- How the message of a flaw names an attribute. -/
inductive Names : String → String → Prop
  | missing (key : String) : Names ("missing field `" ++ key ++ "`") key
  | notArray (key : String) : Names ("field `" ++ key ++ "` must be an array") key
  | badAttribute (key reason : String) : Names ("field `" ++ key ++ "`: " ++ reason) key
  | literalType : Names "value must be a string, number or boolean" "value"
  | bodyNotBlock (tag : String) : Names ("body must be a BlockStatement, found " ++ tag) "body"

/-- A message about a node of a kind names one of its attributes, and rightly so. -/
structure Blames (kind : Kind) (w : Value) (message key : String) (shape : Shape) : Prop where
  listed : (key, shape) ∈ kind.attributes
  names : Names message key
  missing_iff : message = "missing field `" ++ key ++ "`" ↔ w.get? key = none
  misfit : ∀ x, w.get? key = some x → ¬ shape.Fits x
  /-- The body of a function is a node of another kind, whose tag is in the message. -/
  wrongBody : shape = .block → ∀ x, w.get? key = some x →
    ∃ u, load x = .ok u ∧ (∀ slots, u ≠ .block slots) ∧ Tagged x u.tag ∧
      message = "body must be a BlockStatement, found " ++ u.tag

/-- The problem is one of the value itself. -/
inductive Faulty (w : Value) : Problem → Prop
  | noKind : (∀ tag, ¬ Tagged w tag) → Faulty w .noKind
  | malformed {kind : Kind} {flaw : Flaw} {key : String} {shape : Shape} :
      Tagged w kind.tag → Blames kind w flaw.message key shape → Faulty w (.malformed kind flaw)

/-- The path of a fault leads to the part at fault. -/
def Located (v : Value) (e : NodeError) : Prop :=
  e.path.Plain ∧ ∃ w, v.at? e.path = some w ∧ Faulty w e.problem

theorem located_here {v : Value} {problem : Problem} (h : Faulty v problem) :
    Located v ⟨[], problem⟩ :=
  ⟨fun _ hs => absurd hs List.not_mem_nil, v, rfl, h⟩

theorem located_under {v w : Value} {p : Path} {e : NodeError} (hw : v.at? p = some w)
    (hp : p.Plain) (he : Located w e) : Located v (e.under p) := by
  obtain ⟨hplain, x, hx, hfaulty⟩ := he
  refine ⟨fun s hs => ?_, x, ?_, hfaulty⟩
  · rcases List.mem_append.1 hs with h | h
    · exact hp s h
    · exact hplain s h
  · rw [← hx]
    exact Value.at?_append hw e.path

/-! ### Messages -/

theorem head?_append_of_head? {s t : String} {c : Char} (h : s.toList.head? = some c) :
    (s ++ t).toList.head? = some c := by
  rw [String.toList_append, List.head?_append, h]
  rfl

/-- Only a missing attribute is called missing: the messages differ in their first letters. -/
theorem message_ne_missing (flaw : Flaw) (hflaw : ∀ key, flaw ≠ .missing key) (key : String) :
    flaw.message ≠ "missing field `" ++ key ++ "`" := by
  intro h
  have hm : flaw.message.toList.head? = some 'm' := by
    rw [h]
    exact head?_append_of_head? (head?_append_of_head? rfl)
  have hne : ∀ c, flaw.message.toList.head? = some c → c = 'm' := fun c hc =>
    Option.some.inj (hc.symm.trans hm)
  cases flaw with
  | missing key' => exact hflaw key' rfl
  | notArray key' =>
    exact absurd (hne 'f' (head?_append_of_head? (head?_append_of_head? rfl))) (by decide)
  | badAttribute key' e =>
    exact absurd (hne 'f' (head?_append_of_head? (head?_append_of_head?
      (head?_append_of_head? rfl)))) (by decide)
  | literalType => exact absurd (hne 'v' rfl) (by decide)
  | bodyNotBlock tag => exact absurd (hne 'b' (head?_append_of_head? rfl)) (by decide)

/-! ### Which attribute is to blame -/

section

variable {kind : Kind} {v w : Value} {key : String} {shape : Shape}

theorem located_missing (htag : Tagged v kind.tag) (hkey : (key, shape) ∈ kind.attributes)
    (h : v.get? key = none) : Located v (missingFault kind key) := by
  refine located_here (.malformed htag ⟨hkey, .missing key, ?_, ?_, ?_⟩)
  · exact iff_of_true rfl h
  · intro x hx
    cases h.symm.trans hx
  · intro _ x hx
    cases h.symm.trans hx

/-- A flaw of an attribute that is there, other than the body of a function. -/
theorem located_misfit {flaw : Flaw} (htag : Tagged v kind.tag)
    (hkey : (key, shape) ∈ kind.attributes) (hw : v.get? key = some w) (hfit : ¬ shape.Fits w)
    (hnames : Names flaw.message key) (hflaw : ∀ key, flaw ≠ .missing key)
    (hshape : shape ≠ .block) : Located v ⟨[], .malformed kind flaw⟩ := by
  refine located_here (.malformed htag ⟨hkey, hnames, ?_, ?_, ?_⟩)
  · refine iff_of_false (message_ne_missing flaw hflaw key) fun h => ?_
    cases hw.symm.trans h
  · intro x hx
    cases hw.symm.trans hx
    exact hfit
  · intro h
    exact absurd h hshape

/-- An attribute that is decoded in one go. -/
theorem attributeFaults_located {α : Type} {decode : Decoder α}
    {found : Value → List AttributeError} (hreports : ∀ w, Reports (found w) (decode w))
    (hfits : ∀ w, shape.Fits w → ∃ a, decode w = .ok a) (hshape : shape ≠ .block)
    (htag : Tagged v kind.tag) (hkey : (key, shape) ∈ kind.attributes) :
    ∀ e ∈ attributeFaults kind v key found, Located v e := by
  intro e he
  unfold attributeFaults at he
  split at he
  · rename_i w hw
    obtain ⟨reason, hreason, rfl⟩ := List.mem_map.1 he
    refine located_misfit htag hkey hw ?_ (.badAttribute key _) (fun _ h => by cases h) hshape
    intro hfit
    rw [(hreports w).ok_iff.1 (hfits w hfit)] at hreason
    cases hreason
  · rename_i hnone
    obtain rfl := List.mem_singleton.1 he
    exact located_missing htag hkey hnone

end

theorem plain_of_mem_attributes {kind : Kind} {key : String} {shape : Shape}
    (h : (key, shape) ∈ kind.attributes) : key.toList ≠ [] ∧ '/' ∉ key.toList := by
  have hall : ∀ a ∈ kind.attributes, a.1.toList ≠ [] ∧ '/' ∉ a.1.toList := by
    cases kind <;> decide
  exact hall (key, shape) h

/-! ### Nodes below a node -/

section

variable {kind : Kind} {v : Value} {key : String}

theorem childFaults_located (htag : Tagged v kind.tag) (hkey : (key, .node) ∈ kind.attributes)
    (ih : ∀ w, sizeOf w < sizeOf v → ∀ e ∈ faults w, Located w e) :
    ∀ e ∈ childFaults kind v key, Located v e := by
  intro e he
  rw [childFaults] at he
  split at he
  · rename_i w hw
    obtain ⟨e, hfault, rfl⟩ := List.mem_map.1 he
    exact located_under (Value.at?_member hw) (Path.plain_member (plain_of_mem_attributes hkey))
      (ih w (Value.sizeOf_get?_lt hw) e hfault)
  · rename_i hnone
    obtain rfl := List.mem_singleton.1 he
    exact located_missing htag hkey hnone

/-- The items from `index` on are where their paths say. -/
theorem itemFaults_located {skip : Value → Bool} {all ws : List Value} {index : Nat}
    (hkey : (key, .array) ∈ kind.attributes) (hall : v.get? key = some (.array all))
    (hws : all.drop index = ws) (ih : ∀ w ∈ ws, ∀ e ∈ faults w, Located w e) :
    ∀ e ∈ itemFaults key skip index ws, Located v e := by
  induction ws generalizing index with
  | nil =>
    intro e he
    rw [itemFaults] at he
    cases he
  | cons w ws ihs =>
    intro e he
    rw [itemFaults] at he
    rcases List.mem_append.1 he with he | he
    · split at he
      · cases he
      · obtain ⟨e, hfault, rfl⟩ := List.mem_map.1 he
        have hitem : all[index]? = some w := by
          rw [← List.head?_drop, hws]
          rfl
        exact located_under (Value.at?_item hall hitem)
          (Path.plain_item (plain_of_mem_attributes hkey) index) (ih w List.mem_cons_self e hfault)
    · have hrest : all.drop (index + 1) = ws := by
        rw [← List.tail_drop, hws]
        rfl
      exact ihs hrest (fun x hx => ih x (List.mem_cons_of_mem w hx)) e he

theorem itemsFaults_located {skip : Value → Bool} (htag : Tagged v kind.tag)
    (hkey : (key, .array) ∈ kind.attributes)
    (ih : ∀ w, sizeOf w < sizeOf v → ∀ e ∈ faults w, Located w e) :
    ∀ e ∈ itemsFaults kind v key skip, Located v e := by
  intro e he
  rw [itemsFaults] at he
  split at he
  · rename_i ws hws
    refine itemFaults_located hkey hws rfl (fun w hw => ih w ?_) e he
    exact Nat.lt_trans (List.sizeOf_lt_of_mem hw) (sizeOf_items_lt hws)
  · rename_i w hne hw
    obtain rfl := List.mem_singleton.1 he
    refine located_misfit htag hkey hw ?_ (.notArray key) (fun _ h => by cases h) (by decide)
    rintro ⟨ws, rfl⟩
    exact hne ws rfl
  · rename_i hnone
    obtain rfl := List.mem_singleton.1 he
    exact located_missing htag hkey hnone

end

theorem literalFaults_located {v : Value} (htag : Tagged v Kind.literal.tag) :
    ∀ e ∈ literalFaults v, Located v e := by
  intro e he
  unfold literalFaults at he
  have hkey : ("value", Shape.literal) ∈ Kind.literal.attributes := List.mem_singleton_self _
  split at he
  · cases he
  · cases he
  · cases he
  · rename_i w hstring hnumber hbool hw
    obtain rfl := List.mem_singleton.1 he
    refine located_misfit htag hkey hw ?_ .literalType (fun _ h => by cases h) (by decide)
    rintro ⟨s, _ | _ | _ | _ | _⟩
    · exact hstring _ rfl
    · exact hnumber _ rfl
    · exact hnumber _ rfl
    · exact hbool _ rfl
    · exact hbool _ rfl
  · rename_i hnone
    obtain rfl := List.mem_singleton.1 he
    exact located_missing htag hkey hnone

theorem body_mem_attributes : ("body", Shape.block) ∈ Kind.functionDeclaration.attributes := by
  decide

/-- The tag in the message is the one of the node that stands for the body. -/
theorem wrongBodyFaults_located {v w : Value} (htag : Tagged v Kind.functionDeclaration.tag)
    (hw : v.get? "body" = some w) (hnone : faults w = []) :
    ∀ e ∈ wrongBodyFaults w, Located v e := by
  intro e he
  obtain ⟨u, hu⟩ := (load_reports w).ok_iff.2 hnone
  have hutag := tagged_of_decodes (decodes_of_load hu)
  rw [wrongBodyFaults, hutag] at he
  simp only at he
  split at he
  · cases he
  · rename_i hne
    obtain rfl := List.mem_singleton.1 he
    have hblock : ∀ slots, u ≠ .block slots := by
      rintro slots rfl
      exact hne rfl
    refine located_here (.malformed htag ⟨body_mem_attributes, .bodyNotBlock _, ?_, ?_, ?_⟩)
    · refine iff_of_false ?_ fun h => ?_
      · exact message_ne_missing (.bodyNotBlock u.tag) (fun _ h => by cases h) _
      · cases hw.symm.trans h
    · rintro x hx ⟨slots, hslots⟩
      cases hw.symm.trans hx
      rw [load_of_decodes hslots] at hu
      exact hblock slots (Except.ok.inj hu).symm
    · intro _ x hx
      cases hw.symm.trans hx
      exact ⟨u, hu, hblock, hutag, rfl⟩

theorem functionBodyFaults_located {v : Value} (htag : Tagged v Kind.functionDeclaration.tag)
    (ih : ∀ w, sizeOf w < sizeOf v → ∀ e ∈ faults w, Located w e) :
    ∀ e ∈ functionBodyFaults v, Located v e := by
  intro e he
  rw [functionBodyFaults] at he
  split at he
  · rename_i w hw
    split at he
    · rename_i hnone
      exact wrongBodyFaults_located htag hw hnone e he
    · obtain ⟨e, hfault, rfl⟩ := List.mem_map.1 he
      exact located_under (Value.at?_member hw)
        (Path.plain_member (plain_of_mem_attributes body_mem_attributes))
        (ih w (Value.sizeOf_get?_lt hw) e hfault)
  · rename_i hnone
    obtain rfl := List.mem_singleton.1 he
    exact located_missing htag body_mem_attributes hnone

/-! ### One level -/

theorem text_of_fits (w : Value) (h : Shape.text.Fits w) : ∃ s, Attribute.text w = .ok s :=
  h.imp fun _ => Attribute.text_eq_ok_iff.2

theorem flag_of_fits (w : Value) (h : Shape.flag.Fits w) : ∃ b, Attribute.flag w = .ok b :=
  h.imp fun _ => Attribute.flag_eq_ok_iff.2

theorem name_of_fits (w : Value) (h : Shape.name.Fits w) : ∃ s, Attribute.name w = .ok s :=
  h.imp fun _ => Attribute.name_eq_ok_iff.2

theorem params_of_fits (w : Value) (h : Shape.params.Fits w) :
    ∃ ps, Attribute.params w = .ok ps :=
  h.imp fun _ => Attribute.params_eq_ok_iff.2

theorem source_of_fits (w : Value) (h : Shape.source.Fits w) :
    ∃ source, Attribute.importSource w = .ok source := by
  obtain ⟨std, s, hs⟩ := h
  exact ⟨(std, s), Attribute.importSource_eq_ok_iff.2 hs⟩

theorem faultsAs_located {kind : Kind} {v : Value} (htag : Tagged v kind.tag)
    (ih : ∀ w, sizeOf w < sizeOf v → ∀ e ∈ faults w, Located w e) :
    ∀ e ∈ faultsAs kind v, Located v e := by
  have hname : ∀ key, (key, Shape.name) ∈ kind.attributes →
      ∀ e ∈ attributeFaults kind v key Attribute.nameFaults, Located v e := fun key =>
    attributeFaults_located Attribute.name_reports name_of_fits (by decide) htag
  have htext : ∀ key, (key, Shape.text) ∈ kind.attributes →
      ∀ e ∈ attributeFaults kind v key Attribute.textFaults, Located v e := fun key =>
    attributeFaults_located Attribute.text_reports text_of_fits (by decide) htag
  intro e he
  rw [faultsAs.eq_def] at he
  cases kind with
  | program => exact itemsFaults_located htag (by decide) ih e he
  | importDeclaration =>
    exact attributeFaults_located Attribute.importSource_reports source_of_fits (by decide) htag
      (by decide) e he
  | functionDeclaration =>
    simp only [List.mem_append] at he
    rcases he with ((he | he) | he) | he
    · exact hname "id" (by decide) e he
    · exact hname "returnType" (by decide) e he
    · exact attributeFaults_located Attribute.params_reports params_of_fits (by decide) htag
        (by decide) e he
    · exact functionBodyFaults_located htag ih e he
  | blockStatement => exact itemsFaults_located htag (by decide) ih e he
  | returnStatement => exact childFaults_located htag (by decide) ih e he
  | expressionStatement => exact childFaults_located htag (by decide) ih e he
  | variableDeclaration =>
    simp only [List.mem_append] at he
    rcases he with ((he | he) | he) | he
    · exact attributeFaults_located Attribute.flag_reports flag_of_fits (by decide) htag
        (by decide) e he
    · exact hname "id" (by decide) e he
    · exact hname "typing" (by decide) e he
    · exact childFaults_located htag (by decide) ih e he
  | callExpression =>
    rcases List.mem_append.1 he with he | he
    · exact hname "callee" (by decide) e he
    · exact itemsFaults_located htag (by decide) ih e he
  | binaryExpression =>
    simp only [List.mem_append] at he
    rcases he with (he | he) | he
    · exact htext "op" (by decide) e he
    · exact childFaults_located htag (by decide) ih e he
    · exact childFaults_located htag (by decide) ih e he
  | literal => exact literalFaults_located htag e he
  | identifier => exact htext "name" (by decide) e he

theorem faults_located (v : Value) : ∀ e ∈ faults v, Located v e := by
  induction v using Value.sizeInduct with
  | smaller v ih =>
    intro e he
    rcases tag_cases v with ⟨kind, hkind⟩ | ⟨tag, htag, hk⟩ | hnone
    · rw [faults_of_tagged hkind] at he
      exact faultsAs_located hkind ih e he
    · rw [faults_of_unknown htag hk] at he
      cases he
    · rw [faults_of_untagged hnone] at he
      obtain rfl := List.mem_singleton.1 he
      exact located_here (.noKind hnone)

/-- The fault that the loader stops at is one of those. -/
theorem located_of_load_error {v : Value} {e : NodeError} (h : load v = .error e) :
    Located v e :=
  faults_located v e (List.mem_of_mem_head? (((load_reports v).error_iff e).1 h))

/-! ## Top theorem -/

/-- A value that cannot be loaded has a part at fault, to which the text of the path leads: a part
without a tag, or a node of the reported kind with an attribute that is rightly blamed. -/
theorem load_error_points_at_fault (v : Value) (e : LoadError)
    (h : (load v).mapError .node = .error e) :
    ∃ path problem w, e = .node ⟨path, problem⟩ ∧ v.pointed? path.text = some w ∧
      Faulty w problem := by
  cases hload : load v with
  | ok t =>
    rw [hload] at h
    cases h
  | error error =>
    rw [hload] at h
    cases h
    obtain ⟨hplain, w, hw, hfaulty⟩ := located_of_load_error hload
    exact ⟨error.path, error.problem, w, rfl, Value.pointed?_text hw hplain, hfaulty⟩

/-- A function with a literal for its body is itself at fault, behind an empty slot that counts. -/
theorem load_error_points_at_fault_function :
    let body : Value := .object [("type", .string "Literal"), ("value", .bool true)]
    let f : Value := .object
      [("type", .string "FunctionDeclaration"), ("id", .object [("name", .string "f")]),
        ("returnType", .object [("name", .string "int")]), ("params", .array []), ("body", body)]
    let v : Value := .object [("type", .string "Program"), ("body", .array [.null, f])]
    let problem : Problem := .malformed .functionDeclaration (.bodyNotBlock "Literal")
    (load v).mapError LoadError.node =
        .error (LoadError.node ⟨[.member "body", .item 1], problem⟩) ∧
      v.pointed? "/body/1" = some f ∧ Faulty f problem := by
  intro body f v problem
  have hftag : Tagged f "FunctionDeclaration" := rfl
  have hbody : load body = .ok (.literal "true") := load_of_decodes (.literal rfl rfl .true)
  have hfunction : load f = .error ⟨[], problem⟩ := by
    rw [load_functionDecl hftag rfl (.object rfl) rfl (.object rfl) rfl .nil rfl, hbody]
    rfl
  have herror : (load v).mapError LoadError.node =
      .error (LoadError.node ⟨[.member "body", .item 1], problem⟩) := by
    rw [load_program rfl rfl, loadSlots_cons, loadSlots_cons,
      loadSlot_of_not_falsy (not_falsy_of_get? hftag), hfunction]
    rfl
  have hf : v.pointed? "/body/1" = some f := rfl
  obtain ⟨path, problem', w, he, hw, hfaulty⟩ := load_error_points_at_fault v _ herror
  cases he
  obtain rfl : f = w := Option.some.inj (hf.symm.trans hw)
  exact ⟨herror, hf, hfaulty⟩

end SyntaxToC.Tree
