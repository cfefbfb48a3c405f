import Mathlib.Data.List.Forall2

/-!
# Outcomes

How an `Except` computation can come to a result: every step of it did.  Loading, emission and
whole runs are taken apart with these lemmas.

    (x >>= f) = .ok b  ↔ ∃ a, x = .ok a ∧ f a = .ok b          (bind_eq_ok_iff)
    as.mapM f = .ok bs ↔ List.Forall₂ (f · = .ok ·) as bs       (mapM_eq_ok_iff)

`Reports es x` says which of several errors a computation stops at: the first of them, and it comes
to a result if there is none.  `Parallel R` compares two computations: they stop at the same error,
or both come to a result and the results are related by `R`.
-/

namespace SyntaxToC.Outcome

variable {ε ε' α β : Type}

theorem bind_eq_ok_iff {x : Except ε α} {f : α → Except ε β} {b : β} :
    (x >>= f) = .ok b ↔ ∃ a, x = .ok a ∧ f a = .ok b := by
  cases x with
  | error e =>
    show Except.error e = .ok b ↔ _
    simp
  | ok a =>
    show f a = .ok b ↔ _
    simp

theorem bind_eq_error_iff {x : Except ε α} {f : α → Except ε β} {e : ε} :
    (x >>= f) = .error e ↔ x = .error e ∨ ∃ a, x = .ok a ∧ f a = .error e := by
  cases x with
  | error e' =>
    show Except.error e' = .error e ↔ _
    simp
  | ok a =>
    show f a = .error e ↔ _
    simp

theorem pure_eq_ok_iff {a b : α} : (pure a : Except ε α) = .ok b ↔ a = b := by
  show Except.ok a = Except.ok b ↔ a = b
  simp

theorem map_eq_ok_iff {x : Except ε α} {f : α → β} {b : β} :
    x.map f = .ok b ↔ ∃ a, x = .ok a ∧ f a = b := by
  cases x <;> simp [Except.map]

theorem bind_pure_eq_map (x : Except ε α) (f : α → β) :
    (x >>= fun a => pure (f a)) = x.map f := by
  cases x <;> rfl

theorem mapError_eq_ok_iff {x : Except ε α} {f : ε → ε'} {a : α} :
    x.mapError f = .ok a ↔ x = .ok a := by
  cases x <;> simp [Except.mapError]

theorem mapError_eq_error_iff {x : Except ε α} {f : ε → ε'} {e : ε'} :
    x.mapError f = .error e ↔ ∃ e₀, x = .error e₀ ∧ f e₀ = e := by
  cases x <;> simp [Except.mapError]

theorem mapM_eq_ok_iff {f : α → Except ε β} {as : List α} {bs : List β} :
    as.mapM f = .ok bs ↔ List.Forall₂ (fun a b => f a = .ok b) as bs := by
  induction as generalizing bs with
  | nil =>
    rw [List.mapM_nil, pure_eq_ok_iff, List.forall₂_nil_left_iff]
    exact eq_comm
  | cons a as ih =>
    rw [List.mapM_cons, bind_eq_ok_iff, List.forall₂_cons_left_iff]
    simp only [bind_eq_ok_iff, pure_eq_ok_iff, ih]
    constructor
    · rintro ⟨b, hb, bs', hbs, rfl⟩
      exact ⟨b, bs', hb, hbs, rfl⟩
    · rintro ⟨b, bs', hb, hbs, rfl⟩
      exact ⟨b, hb, bs', hbs, rfl⟩

theorem mapM_map_congr {α' : Type} {f : α → Except ε β} {g : α' → Except ε β} {t : α → α'}
    {as : List α} (h : ∀ a ∈ as, f a = g (t a)) : as.mapM f = (as.map t).mapM g := by
  induction as with
  | nil => rfl
  | cons a as ih =>
    rw [List.forall_mem_cons] at h
    rw [List.map_cons, List.mapM_cons, List.mapM_cons, h.1, ih h.2]

/-- The results are those of a function if each of them is. -/
theorem eq_map_of_mapM {f : α → Except ε β} {g : α → β} {as : List α} {bs : List β}
    (h : ∀ a ∈ as, ∀ b, f a = .ok b → b = g a) (hbs : as.mapM f = .ok bs) : bs = as.map g := by
  rw [mapM_eq_ok_iff] at hbs
  induction hbs with
  | nil => rfl
  | cons hb _ ih =>
    rw [List.forall_mem_cons] at h
    rw [List.map_cons, h.1 _ hb, ih h.2]

theorem mapM_eq_ok_map {f : α → Except ε β} {g : α → β} {as : List α}
    (h : ∀ a ∈ as, f a = .ok (g a)) : as.mapM f = .ok (as.map g) := by
  rw [mapM_eq_ok_iff, List.forall₂_map_right_iff, List.forall₂_same]
  exact h

/-! ## The first of several errors -/

/-- A result if there is no error to report, else the first one. -/
def Reports (es : List ε) (x : Except ε α) : Prop :=
  match es with
  | [] => ∃ a, x = .ok a
  | e :: _ => x = .error e

namespace Reports

variable {es es' : List ε}

theorem ok (a : α) : Reports [] (.ok a : Except ε α) := ⟨a, rfl⟩

theorem error (e : ε) (rest : List ε) : Reports (e :: rest) (.error e : Except ε α) := rfl

/-- A second step is reached only if there is nothing to report about the first one. -/
theorem bind {x : Except ε α} {f : α → Except ε β} (hx : Reports es x)
    (hf : ∀ a, x = .ok a → Reports es' (f a)) : Reports (es ++ es') (x >>= f) := by
  cases es with
  | nil =>
    obtain ⟨a, rfl⟩ := hx
    exact hf a rfl
  | cons e rest =>
    obtain rfl : x = .error e := hx
    exact .error e _

/-- What is made of a result adds nothing to report. -/
theorem map {x : Except ε α} (f : α → β) (hx : Reports es x) :
    Reports es (x >>= fun a => pure (f a)) := by
  have h := hx.bind fun a _ => ok (f a)
  rwa [List.append_nil] at h

theorem mapError {x : Except ε α} (f : ε → ε') (hx : Reports es x) :
    Reports (es.map f) (x.mapError f) := by
  cases es with
  | nil =>
    obtain ⟨a, rfl⟩ := hx
    exact .ok a
  | cons e rest =>
    obtain rfl : x = .error e := hx
    exact .error (f e) _

theorem mapM {f : α → Except ε β} {g : α → List ε} {as : List α}
    (h : ∀ a ∈ as, Reports (g a) (f a)) : Reports (as.flatMap g) (as.mapM f) := by
  induction as with
  | nil => exact .ok []
  | cons a as ih =>
    rw [List.forall_mem_cons] at h
    rw [List.flatMap_cons, List.mapM_cons]
    exact h.1.bind fun b _ => (ih h.2).map (b :: ·)

theorem ok_iff {x : Except ε α} (h : Reports es x) : (∃ a, x = .ok a) ↔ es = [] := by
  cases es with
  | nil => exact iff_of_true h rfl
  | cons e rest =>
    obtain rfl : x = .error e := h
    simp

theorem error_iff {x : Except ε α} (h : Reports es x) (e : ε) :
    x = .error e ↔ es.head? = some e := by
  cases es with
  | nil =>
    obtain ⟨a, rfl⟩ := h
    simp
  | cons e' rest =>
    obtain rfl : x = .error e' := h
    simp

end Reports

/-! ## Two computations side by side -/

/-- The same error on both sides, or results that are related. -/
inductive Parallel {α β : Type} (R : α → β → Prop) : Except ε α → Except ε β → Prop
  | ok {a : α} {b : β} : R a b → Parallel R (.ok a) (.ok b)
  | error (e : ε) : Parallel R (.error e) (.error e)

namespace Parallel

variable {γ δ : Type} {R : α → β → Prop} {S : γ → δ → Prop}

theorem bind {x : Except ε α} {y : Except ε β} {f : α → Except ε γ} {g : β → Except ε δ}
    (h : Parallel R x y) (hfg : ∀ a b, R a b → Parallel S (f a) (g b)) :
    Parallel S (x >>= f) (y >>= g) := by
  cases h with
  | ok hab => exact hfg _ _ hab
  | error e => exact .error e

theorem map {x : Except ε α} {y : Except ε β} {f : α → γ} {g : β → δ}
    (h : Parallel R x y) (hfg : ∀ a b, R a b → S (f a) (g b)) :
    Parallel S (x >>= fun a => pure (f a)) (y >>= fun b => pure (g b)) :=
  h.bind fun a b hab => .ok (hfg a b hab)

/-- Side by side over a list, with a relation that grows with it. -/
theorem mapM {ι : Type} {f : ι → Except ε α} {g : ι → Except ε β} {R : ι → α → β → Prop}
    {T : List ι → List α → List β → Prop} (nil : T [] [] [])
    (cons : ∀ {i is a as b bs}, R i a b → T is as bs → T (i :: is) (a :: as) (b :: bs))
    {is : List ι} (h : ∀ i ∈ is, Parallel (R i) (f i) (g i)) :
    Parallel (T is) (is.mapM f) (is.mapM g) := by
  induction is with
  | nil => exact .ok nil
  | cons i is ih =>
    rw [List.forall_mem_cons] at h
    rw [List.mapM_cons, List.mapM_cons]
    exact h.1.bind fun a b hab => (ih h.2).map fun as bs hrest => cons hab hrest

theorem exists_ok {x : Except ε α} {y : Except ε β} (h : Parallel R x y) {a : α}
    (hx : x = .ok a) : ∃ b, y = .ok b ∧ R a b := by
  subst hx
  cases h with
  | ok hab => exact ⟨_, rfl, hab⟩

theorem error_iff {x : Except ε α} {y : Except ε β} (h : Parallel R x y) (e : ε) :
    x = .error e ↔ y = .error e := by
  cases h <;> simp

theorem eq_of_forall {x y : Except ε α} {T : α → α → Prop} (h : Parallel T x y)
    (heq : ∀ a b, T a b → a = b) : x = y := by
  cases h with
  | ok hab => rw [heq _ _ hab]
  | error e => rfl

end Parallel

end SyntaxToC.Outcome
