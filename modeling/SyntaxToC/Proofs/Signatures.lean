import SyntaxToC.Proofs.Lines

/-!
# Reading signatures back

The first line of a function is its signature, and it tells the types, the names and the number of
the parameters:

    int* f (char* x, int y) {

The type of a parameter may contain spaces, so that a parameter is read from the right: behind its
last space there is the name.  A list of parameters is cut at the commas, and the word `void` for no
parameters is not a parameter, because it has no space at all.
-/

namespace SyntaxToC.Code

open SyntaxToC.Tree SyntaxToC.Outcome

/-! ## Readable signatures -/

/-- The characters that names do without. -/
def nameStops : List Char := [' ', ',', '(', ')', '\n']

/-- The characters that types do without. -/
def typeStops : List Char := [',', '(', ')', '\n']

structure ReadableSignature (returnType name : String) (params : List Param) : Prop where
  returnType : Lacks typeStops (typeText returnType)
  name : Lacks nameStops name
  params : ∀ p ∈ params, Lacks typeStops (typeText p.typing) ∧ Lacks nameStops p.name

/-- What C writes of a parameter: its type and its name. -/
def paramParts (p : Param) : String × String := (typeText p.typing, p.name)

/-! ## Types and names -/

/-- The name stands behind the last space. -/
theorem name_unique {typing typing' name name' : String} (hname : ' ' ∉ name.toList)
    (hname' : ' ' ∉ name'.toList) (h : typing ++ " " ++ name = typing' ++ " " ++ name') :
    typing = typing' ∧ name = name' := by
  have hreverse : name.toList.reverse ++ ' ' :: typing.toList.reverse =
      name'.toList.reverse ++ ' ' :: typing'.toList.reverse := by
    simpa using congrArg (fun s : String => s.toList.reverse) h
  have hword : ∀ n : String, ' ' ∉ n.toList → ∀ c ∈ n.toList.reverse, c ∉ [' '] := by
    intro n hn c hc hspace
    obtain rfl := List.mem_singleton.1 hspace
    exact hn (List.mem_reverse.1 hc)
  have hspace : ' ' ∈ [' '] := List.mem_singleton.2 rfl
  obtain ⟨hnames, htypes⟩ := word_unique (hword name hname) (hword name' hname')
    (startsIn_cons hspace _) (startsIn_cons hspace _) hreverse
  obtain ⟨-, htypes'⟩ := List.cons.inj htypes
  exact ⟨String.toList_inj.1 (List.reverse_inj.1 htypes'),
    String.toList_inj.1 (List.reverse_inj.1 hnames)⟩

/-! ## Lists of parameters -/

/-- Every parameter brings a space. -/
theorem space_mem_paramsText (p : Param) (params : List Param) :
    ' ' ∈ (paramsText (p :: params)).toList := by
  have hparam : ' ' ∈ (paramText p).toList := by simp [paramText]
  cases params with
  | nil => simpa [paramsText] using hparam
  | cons q params => simp [paramsText, hparam]

theorem paramsText_ne_void {params : List Param} (h : params ≠ []) :
    paramsText params ≠ "void" := by
  obtain ⟨p, rest, rfl⟩ := List.exists_cons_of_ne_nil h
  intro hvoid
  have hspace := space_mem_paramsText p rest
  rw [hvoid] at hspace
  simp at hspace

theorem toList_comma_intercalate (s : String) (rest : List String) :
    (", ".intercalate (s :: rest)).toList =
      [','].intercalate (s.toList :: rest.map fun s' => ' ' :: s'.toList) := by
  induction rest generalizing s with
  | nil => simp
  | cons s' rest ih =>
    rw [String.intercalate_cons_cons, String.toList_append, ih s', List.map_cons,
      List.intercalate_cons_cons]
    cases rest <;> simp

/-- Texts without commas come back from their list. -/
theorem comma_intercalate_unique {s s' : String} {rest rest' : List String}
    (hs : ∀ t ∈ s :: rest, ',' ∉ t.toList) (hs' : ∀ t ∈ s' :: rest', ',' ∉ t.toList)
    (h : ", ".intercalate (s :: rest) = ", ".intercalate (s' :: rest')) :
    s :: rest = s' :: rest' := by
  have hsplit : ∀ (t : String) (ts : List String), (∀ u ∈ t :: ts, ',' ∉ u.toList) →
      (", ".intercalate (t :: ts)).toList.splitOn ',' =
        t.toList :: ts.map fun u => ' ' :: u.toList := by
    intro t ts hts
    rw [List.forall_mem_cons] at hts
    rw [toList_comma_intercalate, List.splitOn_intercalate]
    · rw [List.forall_mem_cons, List.forall_mem_map]
      refine ⟨hts.1, fun u hu => ?_⟩
      simpa using hts.2 u hu
    · simp
  have hfields := hsplit s rest hs
  rw [h, hsplit s' rest' hs'] at hfields
  obtain ⟨hhead, htail⟩ := List.cons.inj hfields
  have hinjective : Function.Injective fun u : String => ' ' :: u.toList := by
    intro u v huv
    exact String.toList_inj.1 (List.cons.inj huv).2
  rw [String.toList_inj.1 hhead, List.map_injective_iff.2 hinjective htail]

theorem comma_not_mem_paramText {params : List Param}
    (hparams : ∀ p ∈ params, Lacks typeStops (typeText p.typing) ∧ Lacks nameStops p.name) :
    ∀ text ∈ params.map paramText, ',' ∉ text.toList := by
  rw [List.forall_mem_map]
  intro p hp
  obtain ⟨htyping, hname⟩ := hparams p hp
  have htyping' : ',' ∉ (typeText p.typing).toList := fun h => htyping ',' h (by simp [typeStops])
  have hname' : ',' ∉ p.name.toList := fun h => hname ',' h (by simp [nameStops])
  simp [paramText, htyping', hname']

theorem space_not_mem_name {name : String} (h : Lacks nameStops name) : ' ' ∉ name.toList :=
  fun hmem => h ' ' hmem (by simp [nameStops])

/-- The text of a parameter tells its type and its name. -/
theorem paramParts_of_paramText {params params' : List Param}
    (hparams : ∀ p ∈ params, Lacks nameStops p.name)
    (hparams' : ∀ p ∈ params', Lacks nameStops p.name)
    (h : params.map paramText = params'.map paramText) :
    params.map paramParts = params'.map paramParts := by
  induction params generalizing params' with
  | nil =>
    cases params' with
    | nil => rfl
    | cons q params' => cases h
  | cons p params ih =>
    cases params' with
    | nil => cases h
    | cons q params' =>
      rw [List.forall_mem_cons] at hparams hparams'
      obtain ⟨hhead, htail⟩ := List.cons.inj h
      obtain ⟨htype, hname⟩ :=
        name_unique (space_not_mem_name hparams.1) (space_not_mem_name hparams'.1) hhead
      rw [List.map_cons, List.map_cons, ih hparams.2 hparams'.2 htail, paramParts, paramParts,
        htype, hname]

theorem paramParts_of_paramsText {params params' : List Param}
    (hparams : ∀ p ∈ params, Lacks typeStops (typeText p.typing) ∧ Lacks nameStops p.name)
    (hparams' : ∀ p ∈ params', Lacks typeStops (typeText p.typing) ∧ Lacks nameStops p.name)
    (h : paramsText params = paramsText params') :
    params.map paramParts = params'.map paramParts := by
  cases params with
  | nil =>
    cases params' with
    | nil => rfl
    | cons q params' => exact absurd h.symm (paramsText_ne_void (by simp))
  | cons p params =>
    cases params' with
    | nil => exact absurd h (paramsText_ne_void (by simp))
    | cons q params' =>
      apply paramParts_of_paramText (fun r hr => (hparams r hr).2) fun r hr => (hparams' r hr).2
      exact comma_intercalate_unique (comma_not_mem_paramText hparams)
        (comma_not_mem_paramText hparams') h

/-! ## Signatures -/

section

variable {name name' returnType returnType' : String} {params params' : List Param}

/-- There is no parenthesis in front of the parameters. -/
theorem ReadableSignature.front (h : ReadableSignature returnType name params) :
    Lacks ['('] (typeText returnType ++ " " ++ name ++ " ") := by
  have htype : Lacks ['('] (typeText returnType) := h.returnType.mono (by simp [typeStops])
  have hname : Lacks ['('] name := h.name.mono (by simp [nameStops])
  have hspace : Lacks ['('] " " := by simp [Lacks]
  exact ((htype.append hspace).append hname).append hspace

theorem signature_unique (h : ReadableSignature returnType name params)
    (h' : ReadableSignature returnType' name' params')
    (heq : signature returnType name params = signature returnType' name' params') :
    typeText returnType = typeText returnType' ∧ name = name' ∧
      params.map paramParts = params'.map paramParts := by
  have hlist : (typeText returnType ++ " " ++ name ++ " ").toList ++
        '(' :: (paramsText params ++ ")").toList =
      (typeText returnType' ++ " " ++ name' ++ " ").toList ++
        '(' :: (paramsText params' ++ ")").toList := by
    simpa [signature] using congrArg String.toList heq
  have hopen : '(' ∈ ['('] := List.mem_singleton.2 rfl
  obtain ⟨hfront, hback⟩ :=
    text_unique h.front h'.front (startsIn_cons hopen _) (startsIn_cons hopen _) hlist
  have hhead := (String.append_left_inj " ").1 hfront
  have hparams := (String.append_left_inj ")").1 (String.toList_inj.1 (List.cons.inj hback).2)
  obtain ⟨htype, hname⟩ :=
    name_unique (space_not_mem_name h.name) (space_not_mem_name h'.name) hhead
  exact ⟨htype, hname, paramParts_of_paramsText h.params h'.params hparams⟩

/-- The texts of types and names are all that a signature shows. -/
theorem signature_congr (htype : typeText returnType = typeText returnType') (hname : name = name')
    (hparams : params.map paramParts = params'.map paramParts) :
    signature returnType name params = signature returnType' name' params' := by
  have hparts : ∀ ps : List Param,
      ps.map paramText = (ps.map paramParts).map fun parts => parts.1 ++ " " ++ parts.2 := by
    intro ps
    rw [List.map_map]
    rfl
  have htexts : params.map paramText = params'.map paramText := by
    rw [hparts, hparts, hparams]
  have hlist : paramsText params = paramsText params' := by
    cases params with
    | nil =>
      cases params' with
      | nil => rfl
      | cons q params' => cases hparams
    | cons p params =>
      cases params' with
      | nil => cases hparams
      | cons q params' => exact congrArg ", ".intercalate htexts
  unfold signature
  rw [htype, hname, hlist]

/-! ## First lines -/

theorem head?_textLines {line : String} (h : '\n' ∉ line.toList) (rest : String) :
    (textLines (line ++ "\n" ++ rest)).head? = some line := by
  unfold textLines
  have hlist : (line ++ "\n" ++ rest).toList = line.toList ++ '\n' :: rest.toList := by simp
  rw [String.toList_split_char, hlist, List.splitOn_append_cons_self_of_not_mem h]
  simp

theorem ReadableSignature.firstLine {layout : Layout} {body : Slots} {text : String}
    (h : ReadableSignature returnType name params)
    (htext : emit layout (.functionDecl name returnType params body) = .ok text) :
    (textLines text).head? = some (signature returnType name params ++ " \x7b") := by
  have hmarks : ∀ s ∈ signatureMarks, Lacks ['\n'] s := by simp [signatureMarks, Lacks]
  have hparams : ∀ p ∈ params, Lacks ['\n'] (typeText p.typing) ∧ Lacks ['\n'] p.name := by
    intro p hp
    obtain ⟨htyping, hname⟩ := h.params p hp
    exact ⟨htyping.mono (by simp [typeStops]), hname.mono (by simp [nameStops])⟩
  have hsignature : Lacks ['\n'] (signature returnType name params) :=
    lacks_signature hmarks hparams (h.returnType.mono (by simp [typeStops]))
      (h.name.mono (by simp [nameStops]))
  have hbrace : Lacks ['\n'] " \x7b" := by simp [Lacks]
  have hline : '\n' ∉ (signature returnType name params ++ " \x7b").toList := fun hmem =>
    hsignature.append hbrace '\n' hmem List.mem_cons_self
  rw [emit, bind_eq_ok_iff] at htext
  obtain ⟨statements, -, hreturn⟩ := htext
  rw [pure_eq_ok_iff] at hreturn
  have hbreak : " \x7b\n" = " \x7b" ++ "\n" := rfl
  have hsplit : text = signature returnType name params ++ " \x7b" ++ "\n" ++
      (layout.indent ++ lines layout statements ++ "\n\x7d") := by
    rw [← hreturn, hbreak]
    simp only [String.append_assoc]
  rw [hsplit, head?_textLines hline]

end

/-! ## Top theorem -/

/-- Two functions have the same first line exactly if the types, the names and the parameters in it
are the same, and `void` is written for no parameters only. -/
theorem signature_readable :
    (∀ (layout layout' : Layout) (name name' returnType returnType' : String)
      (params params' : List Param) (body body' : Slots) (text text' : String),
      ReadableSignature returnType name params → ReadableSignature returnType' name' params' →
      emit layout (.functionDecl name returnType params body) = .ok text →
      emit layout' (.functionDecl name' returnType' params' body') = .ok text' →
      ((textLines text).head? = (textLines text').head? ↔
        typeText returnType = typeText returnType' ∧ name = name' ∧
          params.map paramParts = params'.map paramParts)) ∧
    ∀ params : List Param, paramsText params = "void" ↔ params = [] := by
  constructor
  · intro layout layout' name name' returnType returnType' params params' body body' text text'
      h h' htext htext'
    rw [h.firstLine htext, h'.firstLine htext', Option.some.injEq, String.append_left_inj]
    constructor
    · exact signature_unique h h'
    · rintro ⟨htype, hname, hparams⟩
      exact signature_congr htype hname hparams
  · intro params
    constructor
    · intro hvoid
      by_contra hne
      exact paramsText_ne_void hne hvoid
    · rintro rfl
      rfl

/-- Two spellings of a pointer have the same first line, whatever the bodies are; without its
parameter the function has another one. -/
theorem signature_readable_pointer :
    let params : List Param := [⟨"x", "unsigned int"⟩]
    ReadableSignature "ptr*int" "f" params ∧ ReadableSignature "p*int" "f" params ∧
      ReadableSignature "p*int" "f" [] ∧
      ∃ text text' text'',
        emit ⟨"  ", .preserve⟩ (.functionDecl "f" "ptr*int" params []) = .ok text ∧
        emit ⟨"", .collapse⟩
          (.functionDecl "f" "p*int" params [some (.returnStmt (.identifier "x"))]) = .ok text' ∧
        emit ⟨"", .collapse⟩ (.functionDecl "f" "p*int" [] []) = .ok text'' ∧
        (textLines text).head? = (textLines text').head? ∧
        (textLines text).head? ≠ (textLines text'').head? ∧ paramsText params ≠ "void" := by
  intro params
  have hpointer : typeText "ptr*int" = "int*" := rfl
  have hpointer' : typeText "p*int" = "int*" := rfl
  have hunsigned : typeText "unsigned int" = "unsigned int" := rfl
  have hparams : ∀ p ∈ params, Lacks typeStops (typeText p.typing) ∧ Lacks nameStops p.name := by
    simp [params, hunsigned, Lacks, typeStops, nameStops]
  have hint : Lacks typeStops "int*" := by simp [Lacks, typeStops]
  have hname : Lacks nameStops "f" := by simp [Lacks, nameStops]
  have h : ReadableSignature "ptr*int" "f" params := ⟨hpointer ▸ hint, hname, hparams⟩
  have h' : ReadableSignature "p*int" "f" params := ⟨hpointer' ▸ hint, hname, hparams⟩
  have h'' : ReadableSignature "p*int" "f" [] := ⟨hpointer' ▸ hint, hname, by simp⟩
  obtain ⟨text, htext⟩ : ∃ text,
      emit ⟨"  ", .preserve⟩ (.functionDecl "f" "ptr*int" params []) = .ok text := ⟨_, rfl⟩
  obtain ⟨text', htext'⟩ : ∃ text', emit ⟨"", .collapse⟩
      (.functionDecl "f" "p*int" params [some (.returnStmt (.identifier "x"))]) = .ok text' :=
    ⟨_, rfl⟩
  obtain ⟨text'', htext''⟩ : ∃ text'',
      emit ⟨"", .collapse⟩ (.functionDecl "f" "p*int" [] []) = .ok text'' := ⟨_, rfl⟩
  obtain ⟨hlines, hvoid⟩ := signature_readable
  have hsame := hlines _ _ _ _ _ _ _ _ _ _ _ _ h h' htext htext'
  have hother := hlines _ _ _ _ _ _ _ _ _ _ _ _ h h'' htext htext''
  refine ⟨h, h', h'', text, text', text'', htext, htext', htext'', ?_, ?_, ?_⟩
  · exact hsame.2 ⟨hpointer.trans hpointer'.symm, rfl, rfl⟩
  · intro heq
    obtain ⟨-, -, hnone⟩ := hother.1 heq
    cases hnone
  · rw [ne_eq, hvoid]
    exact List.cons_ne_nil _ _

end SyntaxToC.Code
