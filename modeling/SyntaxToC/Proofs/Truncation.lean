import SyntaxToC.Proofs.Decoding
import SyntaxToC.Proofs.Reading

/-!
# Documents that are cut or go on

A text that loads is an object between blanks.  It ends with the brace that closes this object:
without the brace nothing is accepted, however much of the text is there, and behind it nothing but
blanks is.

    text = body ++ "}" ++ blanks        loadText (body ++ "}") = .ok t
    a part of `body` from the front, or `text` with more than blanks behind it, is no JSON text

The reader accepts a text in two kinds of state.  After a whole document only blanks keep it there,
so that a brace cannot follow.  In a numeral outside of all containers it can go on, but only to a
number, and numbers do not load.
-/

namespace SyntaxToC.Json

open SyntaxToC.Outcome

/-! ## Reading as a run of the machine -/

theorem read_eq_ok_iff {text : String} {v : Value} :
    read text = .ok v ↔
      ∃ s, run ([], .between .value) text.toList = .ok s ∧ s.2.atEnd s.1 = .ok v := by
  obtain ⟨p, hp⟩ := foldl_step .start [] (.between .value) text.toList
  have hread : read text =
      (text.toList.foldl State.step (.reading .start [] (.between .value))).finish :=
    read_eq_foldl_toList text
  rw [hread, hp]
  cases hrun : run ([], .between .value) text.toList with
  | ok s =>
    show (s.2.atEnd s.1).mapError _ = .ok v ↔ _
    rw [mapError_eq_ok_iff]
    constructor
    · intro h
      exact ⟨s, rfl, h⟩
    · rintro ⟨s', hs', h⟩
      cases hs'
      exact h
  | error r =>
    constructor
    · intro h
      cases h
    · rintro ⟨s, hs, -⟩
      cases hs

theorem isBlank_iff (c : Char) : isBlank c = true ↔ c ∈ [' ', '\t', '\n', '\r'] := by
  simp only [isBlank, Bool.or_eq_true, beq_iff_eq, List.mem_cons, List.not_mem_nil, or_false]
  tauto

/-! ## After the document -/

theorem next_finished {fs : List Frame} {v : Value} {c : Char} {s : List Frame × Mode}
    (h : next fs (.between (.finished v)) c = .ok s) :
    isBlank c ∧ s = (fs, .between (.finished v)) := by
  by_cases hc : isBlank c
  · simp only [next, nextToken, hc, if_true] at h
    exact ⟨hc, (Except.ok.inj h).symm⟩
  · simp [next, nextToken, hc, refuse] at h

/-- Only blanks may follow a document. -/
theorem run_finished {fs : List Frame} {v : Value} {cs : List Char} {s : List Frame × Mode}
    (h : run (fs, .between (.finished v)) cs = .ok s) :
    Blanks cs ∧ s = (fs, .between (.finished v)) := by
  induction cs with
  | nil => exact ⟨by simp [Blanks], (Except.ok.inj h).symm⟩
  | cons c cs ih =>
    rw [run_cons, bind_eq_ok_iff] at h
    obtain ⟨s₁, hnext, hrun⟩ := h
    obtain ⟨hc, rfl⟩ := next_finished hnext
    obtain ⟨hcs, hs⟩ := ih hrun
    exact ⟨List.forall_mem_cons.2 ⟨(isBlank_iff c).1 hc, hcs⟩, hs⟩

/-! ## A numeral outside of all containers -/

theorem next_numeral {n : Numeral} {c : Char} {s : List Frame × Mode}
    (h : next [] (.numeral n) c = .ok s) :
    (∃ m, s = ([], .numeral m)) ∨ ∃ x, s = ([], .between (.finished (.number x))) := by
  simp only [next] at h
  split at h
  · next m hstep => exact .inl ⟨m, (Except.ok.inj h).symm⟩
  · cases h
  · split at h
    · next x hx =>
      have hfinished : next [] (.between (.finished (.number x))) c = .ok s := h
      exact .inr ⟨x, (next_finished hfinished).2⟩
    · cases h

/-- A numeral goes on to nothing but a number. -/
theorem run_numeral {n : Numeral} {cs : List Char} {s : List Frame × Mode}
    (h : run ([], .numeral n) cs = .ok s) :
    (∃ m, s = ([], .numeral m)) ∨ ∃ x, s = ([], .between (.finished (.number x))) := by
  induction cs generalizing n with
  | nil => exact .inl ⟨n, (Except.ok.inj h).symm⟩
  | cons c cs ih =>
    rw [run_cons, bind_eq_ok_iff] at h
    obtain ⟨s₁, hnext, hrun⟩ := h
    rcases next_numeral hnext with ⟨m, rfl⟩ | ⟨x, rfl⟩
    · exact ih hrun
    · exact .inr ⟨x, (run_finished hrun).2⟩

/-- The states in which a text may end. -/
theorem atEnd_eq_ok {fs : List Frame} {mode : Mode} {v : Value} (h : mode.atEnd fs = .ok v) :
    mode = .between (.finished v) ∨ ∃ n x, fs = [] ∧ mode = .numeral n ∧ v = .number x := by
  cases mode with
  | between place =>
    cases place with
    | finished w =>
      cases h
      exact .inl rfl
    | _ => cases h
  | numeral n =>
    simp only [Mode.atEnd] at h
    cases hnumber : n.number with
    | error cause =>
      rw [hnumber] at h
      cases h
    | ok x =>
      rw [hnumber] at h
      cases fs with
      | nil =>
        cases h
        exact .inr ⟨n, x, rfl, rfl, rfl⟩
      | cons f fs => cases f <;> cases h
  | word expected rest w => cases h
  | string role text => cases h
  | escape role text e => cases h

/-! ## The closing brace -/

/-- The document is not an object that has been read, and no word stands for an object. -/
def NoObject (mode : Mode) : Prop :=
  (∀ ms, mode ≠ .between (.finished (.object ms))) ∧ ∀ c rest ms, mode ≠ .word c rest (.object ms)

/-- The document is an object and has been read. -/
def HasObject (mode : Mode) : Prop := ∃ ms, mode = .between (.finished (.object ms))

/-- A character leads to a state with a whole object only if it is a closing brace. -/
def ClosedBy (c : Char) (s : List Frame × Mode) : Prop :=
  NoObject s.2 ∨ c = '\x7d' ∧ HasObject s.2

/-- The states that a character leads to have the property. -/
def Leads {α : Type} (P : α → Prop) (x : Except Refusal α) : Prop := ∀ s, x = .ok s → P s

namespace Leads

variable {α : Type} {P : α → Prop}

theorem ok {s : α} (h : P s) : Leads P (.ok s) := by
  rintro _ ⟨⟩
  exact h

theorem refuse (cause : Cause) : Leads P (refuse cause) := by
  rintro _ ⟨⟩

theorem ite {p : Prop} [Decidable p] {x y : Except Refusal α} (hx : p → Leads P x)
    (hy : ¬ p → Leads P y) : Leads P (if p then x else y) := by
  by_cases hp : p
  · rw [if_pos hp]
    exact hx hp
  · rw [if_neg hp]
    exact hy hp

end Leads

theorem noObject_complete {v : Value} (hv : ∀ ms, v ≠ .object ms) (fs : List Frame) :
    NoObject (complete v fs).2 := by
  cases fs with
  | nil => simp [NoObject, complete, deliver, hv]
  | cons f fs => cases f <;> simp [NoObject, complete, deliver]

theorem closedBy_complete {c : Char} (hc : c = '\x7d') (ms : Members) (fs : List Frame) :
    ClosedBy c (complete (.object ms) fs) := by
  cases fs with
  | nil => exact .inr ⟨hc, ms, rfl⟩
  | cons f fs =>
    left
    cases f <;> simp [NoObject, complete, deliver]

theorem beginValue_leads (fs : List Frame) (c : Char) :
    Leads (fun s => NoObject s.2) (beginValue fs c) := by
  unfold beginValue
  split
  · exact .ite (fun _ => .ok (by simp [NoObject])) fun _ => .refuse _
  · exact .ite (fun _ => .ok (by simp [NoObject])) fun _ => .refuse _
  · exact .ok (by simp [NoObject])
  · exact .ok (by simp [NoObject])
  · exact .ok (by simp [NoObject])
  · exact .ok (by simp [NoObject])
  · split
    · exact .ok (by simp [NoObject])
    · exact .refuse _

theorem nextToken_leads (fs : List Frame) {place : Place} (c : Char)
    (hplace : NoObject (.between place)) : Leads (ClosedBy c) (nextToken fs place c) := by
  have hbegin (gs : List Frame) : Leads (ClosedBy c) (beginValue gs c) := fun s hs =>
    .inl (beginValue_leads gs c s hs)
  unfold nextToken
  refine .ite (fun _ => .ok (.inl hplace)) fun _ => ?_
  cases place with
  | value => exact hbegin fs
  | firstItem =>
    exact .ite (fun _ => .ok (.inl (noObject_complete (by simp) fs))) fun _ => hbegin _
  | nextItem items => exact .ite (fun _ => .refuse _) fun _ => hbegin _
  | afterItem items =>
    refine .ite (fun _ => .ok (.inl (by simp [NoObject]))) fun _ => ?_
    exact .ite (fun _ => .ok (.inl (noObject_complete (by simp) fs))) fun _ => .refuse _
  | firstKey =>
    refine .ite (fun hbrace => .ok (closedBy_complete hbrace [] fs)) fun _ => ?_
    exact .ite (fun _ => .ok (.inl (by simp [NoObject]))) fun _ => .refuse _
  | nextKey ms =>
    refine .ite (fun _ => .refuse _) fun _ => ?_
    exact .ite (fun _ => .ok (.inl (by simp [NoObject]))) fun _ => .refuse _
  | afterKey ms key => exact .ite (fun _ => .ok (.inl (by simp [NoObject]))) fun _ => .refuse _
  | afterMember ms =>
    refine .ite (fun _ => .ok (.inl (by simp [NoObject]))) fun _ => ?_
    exact .ite (fun hbrace => .ok (closedBy_complete hbrace ms fs)) fun _ => .refuse _
  | finished v => exact .refuse _

theorem closeCode_leads (role : Role) (text : String) (lead : Option Nat) (code : Nat) :
    Leads NoObject (closeCode role text lead code) := by
  unfold closeCode
  cases lead with
  | none =>
    refine .ite (fun _ => .refuse _) fun _ => ?_
    exact .ite (fun _ => .ok (by simp [NoObject])) fun _ => .ok (by simp [NoObject])
  | some first => exact .ite (fun _ => .ok (by simp [NoObject])) fun _ => .refuse _

theorem nextEscape_leads (role : Role) (text : String) (e : Escape) (c : Char) :
    Leads NoObject (nextEscape role text e c) := by
  unfold nextEscape
  cases e with
  | letter =>
    refine .ite (fun _ => .ok (by simp [NoObject])) fun _ => ?_
    split
    · exact .ok (by simp [NoObject])
    · exact .refuse _
  | digits lead bytes code =>
    refine .ite (fun _ => .ok (by simp [NoObject])) fun _ => ?_
    split
    · exact closeCode_leads role text lead _
    · rintro _ ⟨⟩
  | pairBackslash lead => exact .ite (fun _ => .ok (by simp [NoObject])) fun _ => .refuse _
  | pairLetter lead => exact .ite (fun _ => .ok (by simp [NoObject])) fun _ => .refuse _

theorem next_leads (fs : List Frame) {mode : Mode} (c : Char) (hmode : NoObject mode) :
    Leads (ClosedBy c) (next fs mode c) := by
  unfold next
  cases mode with
  | between place => exact nextToken_leads fs c hmode
  | word expected rest v =>
    have hv : ∀ ms, v ≠ .object ms := by
      rintro ms rfl
      exact hmode.2 expected rest ms rfl
    refine .ite (fun _ => ?_) fun _ => .refuse _
    cases rest with
    | nil => exact .ok (.inl (noObject_complete hv fs))
    | cons x rest => exact .ok (.inl (by simp [NoObject, hv]))
  | numeral n =>
    simp only
    split
    · exact .ok (.inl (by simp [NoObject]))
    · exact .refuse _
    · split
      · exact nextToken_leads _ c (noObject_complete (by simp) fs)
      · rintro _ ⟨⟩
  | string role text =>
    refine .ite (fun _ => .ok ?_) fun _ => ?_
    · cases role with
      | value => exact .inl (noObject_complete (by simp) fs)
      | key ms => exact .inl (by simp [NoObject, closeString])
    · refine .ite (fun _ => .ok (.inl (by simp [NoObject]))) fun _ => ?_
      exact .ite (fun _ => .refuse _) fun _ => .ok (.inl (by simp [NoObject]))
  | escape role text e =>
    intro s hs
    obtain ⟨mode', hmode', rfl⟩ := map_eq_ok_iff.1 hs
    exact .inl (nextEscape_leads role text e c mode' hmode')

/-- The text of an object ends with its closing brace, apart from blanks. -/
theorem run_object {s s' : List Frame × Mode} {cs : List Char} (hs : NoObject s.2)
    (h : run s cs = .ok s') (hs' : HasObject s'.2) :
    ∃ body blanks, cs = body ++ '\x7d' :: blanks ∧ Blanks blanks ∧
      run s (body ++ ['\x7d']) = .ok s' := by
  induction cs generalizing s with
  | nil =>
    obtain rfl := Except.ok.inj h
    obtain ⟨ms, hms⟩ := hs'
    exact absurd hms (hs.1 ms)
  | cons c cs ih =>
    rw [run_cons, bind_eq_ok_iff] at h
    obtain ⟨s₁, hnext, hrun⟩ := h
    rcases next_leads s.1 c hs s₁ hnext with hs₁ | ⟨rfl, ms, hms⟩
    · obtain ⟨body, blanks, rfl, hblanks, hbody⟩ := ih hs₁ hrun
      refine ⟨c :: body, blanks, rfl, hblanks, ?_⟩
      rw [List.cons_append, run_cons_ok hnext, hbody]
    · obtain ⟨fs, mode⟩ := s₁
      obtain rfl : mode = .between (.finished (.object ms)) := hms
      obtain ⟨hblanks, rfl⟩ := run_finished hrun
      refine ⟨[], cs, rfl, hblanks, ?_⟩
      rw [List.nil_append, run_cons_ok hnext, run_nil]

end SyntaxToC.Json

namespace SyntaxToC.Tree

open SyntaxToC.Json SyntaxToC.Outcome

/-! ## Documents -/

/-- Only objects denote trees. -/
theorem object_of_load {v : Value} {t : Node} (h : load v = .ok t) : ∃ ms, v = .object ms := by
  cases v with
  | object ms => exact ⟨ms, rfl⟩
  | _ =>
    rw [load] at h
    cases h

theorem loadText_eq_ok_iff {text : String} {t : Node} :
    loadText text = .ok t ↔ ∃ v, read text = .ok v ∧ load v = .ok t := by
  unfold loadText
  cases hread : read text with
  | ok v =>
    constructor
    · intro h
      exact ⟨v, rfl, mapError_eq_ok_iff.1 h⟩
    · rintro ⟨w, hw, hload⟩
      cases hw
      exact mapError_eq_ok_iff.2 hload
  | error fault =>
    constructor
    · intro h
      cases h
    · rintro ⟨w, hw, -⟩
      cases hw

theorem loadText_of_not_read {text : String} (h : ∀ v, read text ≠ .ok v) :
    ∃ fault, loadText text = .error (.json fault) := by
  unfold loadText
  cases hread : read text with
  | ok v => exact absurd hread (h v)
  | error fault => exact ⟨fault, rfl⟩

/-- A text that loads has been read as a whole object. -/
theorem run_of_loadText {text : String} {t : Node} (h : loadText text = .ok t) :
    ∃ s ms, run ([], .between .value) text.toList = .ok s ∧ load (.object ms) = .ok t ∧
      s.2 = .between (.finished (.object ms)) := by
  obtain ⟨v, hread, hload⟩ := loadText_eq_ok_iff.1 h
  obtain ⟨ms, rfl⟩ := object_of_load hload
  obtain ⟨s, hrun, hend⟩ := read_eq_ok_iff.1 hread
  rcases atEnd_eq_ok hend with hmode | ⟨n, x, -, -, hnumber⟩
  · exact ⟨s, ms, hrun, hload, hmode⟩
  · cases hnumber

/-- A state in which the text may end does not go on to a closing brace of an object. -/
theorem not_atEnd_of_run {s s' : List Frame × Mode} {cs : List Char} (hbrace : ¬ Blanks cs)
    (h : run s cs = .ok s') (hs' : HasObject s'.2) (v : Value) : s.2.atEnd s.1 ≠ .ok v := by
  intro hend
  obtain ⟨fs, mode⟩ := s
  obtain ⟨ms, hms⟩ := hs'
  rcases atEnd_eq_ok hend with hmode | ⟨n, x, hfs, hmode, -⟩
  · obtain rfl : mode = .between (.finished v) := hmode
    exact hbrace (run_finished h).1
  · obtain rfl : fs = [] := hfs
    obtain rfl : mode = .numeral n := hmode
    rcases run_numeral h with ⟨m, rfl⟩ | ⟨y, rfl⟩
    · cases hms
    · cases hms

theorem brace_not_mem_blanks {blanks : List Char} (h : Blanks blanks) : '\x7d' ∉ blanks := by
  intro hmem
  have hblank := h '\x7d' hmem
  simp at hblank

/-! ## Top theorem -/

/-- A text that loads is over with the closing brace of its object: it does not load if the brace is
missing or if anything but blanks follows. -/
theorem loadText_cut_or_extended (text : String) (t : Node) (h : loadText text = .ok t) :
    ∃ body blanks : String, text = body ++ "\x7d" ++ blanks ∧ Blanks blanks.toList ∧
      loadText (body ++ "\x7d") = .ok t ∧
      (∀ cut rest : String, body = cut ++ rest → ∃ fault, loadText cut = .error (.json fault)) ∧
      ∀ more : String, ¬ Blanks more.toList →
        ∃ fault, loadText (text ++ more) = .error (.json fault) := by
  obtain ⟨s, ms, hrun, hload, hs⟩ := run_of_loadText h
  have hstart : NoObject (.between .value) := by simp [NoObject]
  obtain ⟨body, blanks, htext, hblanks, hbody⟩ := run_object hstart hrun ⟨ms, hs⟩
  refine ⟨String.ofList body, String.ofList blanks, ?_, by simpa using hblanks, ?_, ?_, ?_⟩
  · apply String.toList_inj.1
    simp [htext]
  · refine loadText_eq_ok_iff.2 ⟨.object ms, read_eq_ok_iff.2 ⟨s, by simpa using hbody, ?_⟩, hload⟩
    rw [hs]
    rfl
  · intro cut rest hcut
    apply loadText_of_not_read
    intro v hread
    obtain ⟨s₁, hrun₁, hend⟩ := read_eq_ok_iff.1 hread
    have hsplit : text.toList = cut.toList ++ (rest.toList ++ '\x7d' :: blanks) := by
      have hlist : body = cut.toList ++ rest.toList := by
        rw [← String.toList_append, ← hcut, String.toList_ofList]
      rw [htext, hlist, List.append_assoc]
    rw [hsplit, run_append_ok hrun₁] at hrun
    have hbrace : ¬ Blanks (rest.toList ++ '\x7d' :: blanks) := fun hall =>
      brace_not_mem_blanks hall (by simp)
    exact not_atEnd_of_run hbrace hrun ⟨ms, hs⟩ v hend
  · intro more hmore
    apply loadText_of_not_read
    intro v hread
    obtain ⟨s₁, hrun₁, -⟩ := read_eq_ok_iff.1 hread
    obtain ⟨fs, mode⟩ := s
    obtain rfl : mode = .between (.finished (.object ms)) := hs
    rw [String.toList_append, run_append_ok hrun] at hrun₁
    exact hmore (run_finished hrun₁).1

/-- There is one last brace with nothing but blanks behind it. -/
theorem closing_brace_unique {body body' blanks blanks' : List Char} (hblanks : Blanks blanks)
    (hblanks' : Blanks blanks') (h : body ++ '\x7d' :: blanks = body' ++ '\x7d' :: blanks') :
    body = body' := by
  rcases List.append_eq_append_iff.1 h with ⟨cs, rfl, hcs⟩ | ⟨cs, rfl, hcs⟩
  · cases cs with
    | nil => rw [List.append_nil]
    | cons c cs =>
      obtain ⟨-, rfl⟩ := List.cons.inj hcs
      exact absurd (by simp) (brace_not_mem_blanks hblanks)
  · cases cs with
    | nil => rw [List.append_nil]
    | cons c cs =>
      obtain ⟨-, rfl⟩ := List.cons.inj hcs
      exact absurd (by simp) (brace_not_mem_blanks hblanks')

/-- A literal cut inside its number, cut in front of the brace, and with a second brace. -/
theorem loadText_cut_or_extended_literal :
    let text := "\x7b\"type\":\"Literal\",\"value\":12\x7d\n"
    loadText text = .ok (.literal "12") ∧
      (∃ fault, loadText "\x7b\"type\":\"Literal\",\"value\":1" = .error (.json fault)) ∧
      (∃ fault, loadText "\x7b\"type\":\"Literal\",\"value\":12" = .error (.json fault)) ∧
      ∃ fault, loadText (text ++ " \x7d") = .error (.json fault) := by
  -- the reader runs on the text itself, not on a name for it
  have hread : read "\x7b\"type\":\"Literal\",\"value\":12\x7d\n" = .ok (.object
      [("type", .string "Literal"), ("value", .number (.integer 12))]) := by
    rw [read_eq_foldl_toList]
    rfl
  have hload : load (.object [("type", .string "Literal"), ("value", .number (.integer 12))]) =
      .ok (.literal "12") := load_of_decodes (.literal rfl rfl .integer)
  intro text
  have htext : loadText text = .ok (.literal "12") := loadText_eq_ok_iff.2 ⟨_, hread, hload⟩
  obtain ⟨body, blanks, hsplit, hblanks, -, hcut, hmore⟩ :=
    loadText_cut_or_extended text _ htext
  have hbody : body = "\x7b\"type\":\"Literal\",\"value\":12" := by
    have hbreak : Blanks ['\n'] := by simp [Blanks]
    apply String.toList_inj.1
    refine closing_brace_unique hblanks hbreak ?_
    have hlist := congrArg String.toList hsplit
    simpa [text] using hlist.symm
  exact ⟨htext, hcut _ "2" hbody, hcut _ "" hbody, hmore _ (by simp [Blanks])⟩

end SyntaxToC.Tree
