import SyntaxToC.Code.Emit

/-!
# Characters that a text lacks

A text is read back from what it is part of by the characters that do not occur in it.  `Lacks cs`
passes from the stored texts to what emission makes of them, and a text that lacks the stops ends
where the first of them stands:

    w ++ r = w' ++ r' → w = w' ∧ r = r'        if w, w' lack the stops and r, r' start with one
-/

namespace SyntaxToC.Code

/-! ## Lacking -/

/-- None of the characters `cs` is in the text. -/
def Lacks (cs : List Char) (text : String) : Prop := ∀ c ∈ text.toList, c ∉ cs

namespace Lacks

variable {cs : List Char}

theorem mono {cs' : List Char} {text : String} (h : Lacks cs text) (hsub : cs' ⊆ cs) :
    Lacks cs' text := fun c hc hmem => h c hc (hsub hmem)

theorem append {a b : String} (ha : Lacks cs a) (hb : Lacks cs b) : Lacks cs (a ++ b) := by
  intro c hc
  rw [String.toList_append, List.mem_append] at hc
  rcases hc with h | h
  · exact ha c h
  · exact hb c h

theorem intercalate {separator : String} (hseparator : Lacks cs separator) {texts : List String}
    (h : ∀ s ∈ texts, Lacks cs s) : Lacks cs (separator.intercalate texts) := by
  induction texts with
  | nil => simp [Lacks]
  | cons s rest ih =>
    rw [List.forall_mem_cons] at h
    cases rest with
    | nil => simpa using h.1
    | cons s' rest =>
      rw [String.intercalate_cons_cons]
      exact (h.1.append hseparator).append (ih h.2)

/-- C writes a type with characters that it already has, apart from the star. -/
theorem typeText {typing : String} (hstar : '*' ∉ cs) (h : Lacks cs typing) :
    Lacks cs (typeText typing) := by
  by_cases hpointer : '*' ∈ typing.toList
  · obtain ⟨before, pointee, hbefore, rfl⟩ := exists_before_star hpointer
    rw [typeText_star hbefore]
    intro c hc
    have hmem : c ∈ pointee.toList ∨ c = '*' := by simpa using hc
    rcases hmem with hpointee | rfl
    · exact h c (by simp [hpointee])
    · exact hstar
  · rwa [typeText_of_not_mem hpointer]

end Lacks

/-! ## Reading from the left -/

/-- The text goes on with one of the given characters. -/
def StartsIn (stops text : List Char) : Prop := ∃ c rest, text = c :: rest ∧ c ∈ stops

theorem startsIn_cons {stops : List Char} {c : Char} (hc : c ∈ stops) (rest : List Char) :
    StartsIn stops (c :: rest) := ⟨c, rest, rfl, hc⟩

theorem StartsIn.mono {stops stops' text : List Char} (h : StartsIn stops text)
    (hsub : stops ⊆ stops') : StartsIn stops' text := by
  obtain ⟨c, rest, rfl, hc⟩ := h
  exact ⟨c, rest, rfl, hsub hc⟩

theorem StartsIn.mem {stops rest : List Char} {c : Char} (h : StartsIn stops (c :: rest)) :
    c ∈ stops := by
  obtain ⟨d, tail, heq, hd⟩ := h
  obtain ⟨rfl, -⟩ := List.cons.inj heq
  exact hd

section

variable {stops : List Char}

theorem word_eq_nil {w r rest : List Char} {c : Char} (hw : ∀ d ∈ w, d ∉ stops)
    (hc : c ∈ stops) (h : w ++ r = c :: rest) : w = [] := by
  cases w with
  | nil => rfl
  | cons d w =>
    obtain ⟨rfl, -⟩ := List.cons.inj h
    exact absurd hc (hw d List.mem_cons_self)

theorem word_unique {w w' r r' : List Char} (hw : ∀ c ∈ w, c ∉ stops)
    (hw' : ∀ c ∈ w', c ∉ stops) (hr : StartsIn stops r) (hr' : StartsIn stops r')
    (h : w ++ r = w' ++ r') : w = w' ∧ r = r' := by
  induction w generalizing w' with
  | nil =>
    obtain ⟨c, rest, rfl, hc⟩ := hr
    have hnil := word_eq_nil hw' hc h.symm
    subst hnil
    exact ⟨rfl, h⟩
  | cons c w ih =>
    cases w' with
    | nil =>
      obtain ⟨d, rest, rfl, hd⟩ := hr'
      cases word_eq_nil hw hd h
    | cons d w' =>
      rw [List.forall_mem_cons] at hw hw'
      obtain ⟨rfl, htail⟩ := List.cons.inj h
      obtain ⟨rfl, hrest⟩ := ih hw.2 hw'.2 htail
      exact ⟨rfl, hrest⟩

theorem text_unique {text text' : String} {r r' : List Char} (htext : Lacks stops text)
    (htext' : Lacks stops text') (hr : StartsIn stops r) (hr' : StartsIn stops r')
    (h : text.toList ++ r = text'.toList ++ r') : text = text' ∧ r = r' := by
  obtain ⟨hlist, hrest⟩ := word_unique htext htext' hr hr' h
  exact ⟨String.toList_inj.1 hlist, hrest⟩

end

end SyntaxToC.Code
