import Mathlib.Logic.Function.Iterate
import SyntaxToC.Code.Emit

/-!
# Pointer types

`typeText` moves the first star of a type to its end and drops what stood in front of it.  The
stars of a type stay as many as they were, and the star that was moved is again one that a second
application would move:

    typeText^[m] s = rest ++ stars m          where `rest` is behind the `m`-th star of `s`

Once all stars have been moved nothing else is left but them.  So a type must be translated once:
a second time changes it, unless there is no star in it or nothing but stars behind the first one.
-/

namespace SyntaxToC.Code

/-! ## Stars -/

def stars (n : Nat) : String := String.ofList (List.replicate n '*')

/-- How many stars a text has. -/
def starCount (s : String) : Nat := s.toList.count '*'

def OnlyStars (s : String) : Prop := ∀ c ∈ s.toList, c = '*'

/-- What a text has behind its star number `m`, counted from one. -/
def BehindStar (m : Nat) (s rest : String) : Prop :=
  ∃ before, s = before ++ "*" ++ rest ∧ starCount before + 1 = m

theorem toList_stars (n : Nat) : (stars n).toList = List.replicate n '*' := String.toList_ofList

theorem stars_succ (n : Nat) : stars (n + 1) = "*" ++ stars n := by
  apply String.toList_inj.1
  rw [String.toList_append, toList_stars, toList_stars]
  rfl

theorem stars_succ_right (n : Nat) : stars (n + 1) = stars n ++ "*" := by
  apply String.toList_inj.1
  rw [String.toList_append, toList_stars, toList_stars]
  exact List.replicate_succ'

@[simp] theorem starCount_append (s t : String) :
    starCount (s ++ t) = starCount s + starCount t := by
  simp [starCount]

@[simp] theorem starCount_star : starCount "*" = 1 := rfl

theorem starCount_eq_zero_iff {s : String} : starCount s = 0 ↔ '*' ∉ s.toList :=
  List.count_eq_zero

/-- A text with a star, cut at the first one. -/
theorem exists_cut_of_starCount {s : String} (h : 1 ≤ starCount s) :
    ∃ before rest, s = before ++ "*" ++ rest ∧ starCount before = 0 := by
  have hmem : '*' ∈ s.toList := List.count_pos_iff.1 h
  obtain ⟨before, rest, hbefore, rfl⟩ := exists_before_star hmem
  exact ⟨before, rest, rfl, starCount_eq_zero_iff.2 hbefore⟩

theorem onlyStars_iff {s : String} : OnlyStars s ↔ s = stars (starCount s) := by
  constructor
  · intro h
    have hreplicate : s.toList = List.replicate s.toList.length '*' := List.eq_replicate_of_mem h
    have hcount : starCount s = s.toList.length := by
      rw [starCount, hreplicate, List.count_replicate_self, List.length_replicate]
    apply String.toList_inj.1
    rw [toList_stars, hcount]
    exact hreplicate
  · intro h c hc
    rw [h, toList_stars] at hc
    exact List.eq_of_mem_replicate hc

theorem onlyStars_append_star {s : String} : OnlyStars (s ++ "*") ↔ OnlyStars s := by
  simp [OnlyStars, or_imp]

/-- Every star has something behind it, be it the empty text. -/
theorem exists_behindStar {m : Nat} {s : String} (hm : 1 ≤ m) (hs : m ≤ starCount s) :
    ∃ rest, BehindStar m s rest := by
  induction m with
  | zero => omega
  | succ m ih =>
    by_cases hfirst : m = 0
    · obtain ⟨before, rest, hcut, hbefore⟩ := exists_cut_of_starCount (s := s) (by omega)
      exact ⟨rest, before, hcut, by omega⟩
    · obtain ⟨rest, before, rfl, hbefore⟩ := ih (by omega) (by omega)
      simp only [starCount_append, starCount_star] at hs
      obtain ⟨between, rest', rfl, hbetween⟩ := exists_cut_of_starCount (s := rest) (by omega)
      refine ⟨rest', before ++ "*" ++ between, by simp only [String.append_assoc], ?_⟩
      simp only [starCount_append, starCount_star]
      omega

/-! ## One application -/

theorem starCount_typeText (s : String) : starCount (typeText s) = starCount s := by
  by_cases hs : 1 ≤ starCount s
  · obtain ⟨before, rest, rfl, hbefore⟩ := exists_cut_of_starCount hs
    rw [typeText_star (starCount_eq_zero_iff.1 hbefore)]
    simp only [starCount_append, starCount_star]
    omega
  · rw [typeText_of_not_mem (starCount_eq_zero_iff.1 (by omega))]

theorem typeText_stars (n : Nat) : typeText (stars n) = stars n := by
  cases n with
  | zero => rfl
  | succ n =>
    have hmoved : typeText ("" ++ "*" ++ stars n) = stars n ++ "*" := typeText_star (by simp) _
    rw [String.empty_append] at hmoved
    rw [stars_succ, hmoved, ← stars_succ_right, stars_succ]

/-! ## Many applications -/

/-- As many applications as there are stars up to one of them bring these stars to the end. -/
theorem iterate_typeText {m : Nat} {before : String} (rest : String)
    (h : starCount before + 1 = m) : typeText^[m] (before ++ "*" ++ rest) = rest ++ stars m := by
  -- the first application leaves a text with one star less in front of the same place
  induction m generalizing before rest with
  | zero => omega
  | succ m ih =>
    rw [Function.iterate_succ_apply]
    by_cases hbefore : starCount before = 0
    · obtain rfl : m = 0 := by omega
      rw [typeText_star (starCount_eq_zero_iff.1 hbefore)]
      rfl
    · obtain ⟨first, between, rfl, hfirst⟩ := exists_cut_of_starCount (s := before) (by omega)
      have hbetween : starCount between + 1 = m := by
        simp only [starCount_append, starCount_star] at h
        omega
      have hmoved : typeText (first ++ "*" ++ between ++ "*" ++ rest) =
          between ++ "*" ++ (rest ++ "*") := by
        have := typeText_star (starCount_eq_zero_iff.1 hfirst) (between ++ "*" ++ rest)
        simpa only [String.append_assoc] using this
      rw [hmoved, ih (rest ++ "*") hbetween, String.append_assoc, ← stars_succ]

/-- When all stars have been moved the next application drops what is in front of them. -/
theorem iterate_typeText_succ {s : String} (h : 1 ≤ starCount s) :
    typeText^[starCount s + 1] s = stars (starCount s) := by
  obtain ⟨rest, before, hs, hbefore⟩ := exists_behindStar h (Nat.le_refl _)
  have hrest : starCount rest = 0 := by
    have hcount := congrArg starCount hs
    simp only [starCount_append, starCount_star] at hcount
    omega
  have hall : typeText^[starCount s] s = rest ++ stars (starCount s) := by
    have hmoved := iterate_typeText rest hbefore
    rwa [← hs] at hmoved
  obtain ⟨n, hn⟩ : ∃ n, starCount s = n + 1 := ⟨starCount s - 1, by omega⟩
  rw [Function.iterate_succ_apply', hall, hn, stars_succ, ← String.append_assoc,
    typeText_star (starCount_eq_zero_iff.1 hrest), ← stars_succ_right, stars_succ]

theorem iterate_typeText_of_lt {m : Nat} {s : String} (h : 1 ≤ starCount s)
    (hm : starCount s + 1 ≤ m) : typeText^[m] s = stars (starCount s) := by
  obtain ⟨n, rfl⟩ : ∃ n, m = n + (starCount s + 1) := ⟨m - (starCount s + 1), by omega⟩
  rw [Function.iterate_add_apply, iterate_typeText_succ h]
  exact Function.iterate_fixed (typeText_stars _) n

/-! ## Fixed points -/

theorem typeText_eq_self_iff {s : String} :
    typeText s = s ↔ '*' ∉ s.toList ∨ OnlyStars s := by
  constructor
  · intro hfixed
    by_cases hs : 1 ≤ starCount s
    · right
      -- a type that no application changes is what many of them lead to
      have hmany := iterate_typeText_succ hs
      rw [Function.iterate_fixed hfixed] at hmany
      exact onlyStars_iff.2 hmany
    · left
      exact starCount_eq_zero_iff.1 (by omega)
  · rintro (hnone | honly)
    · exact typeText_of_not_mem hnone
    · rw [onlyStars_iff.1 honly]
      exact typeText_stars _

theorem typeText_typeText_iff {s : String} :
    typeText (typeText s) = typeText s ↔
      '*' ∉ s.toList ∨ ∃ rest, BehindStar 1 s rest ∧ OnlyStars rest := by
  rw [typeText_eq_self_iff]
  constructor
  · rintro (hnone | honly)
    · left
      rwa [← starCount_eq_zero_iff, starCount_typeText, starCount_eq_zero_iff] at hnone
    · by_cases hs : 1 ≤ starCount s
      · right
        obtain ⟨before, rest, rfl, hbefore⟩ := exists_cut_of_starCount hs
        rw [typeText_star (starCount_eq_zero_iff.1 hbefore), onlyStars_append_star] at honly
        exact ⟨rest, ⟨before, rfl, by omega⟩, honly⟩
      · left
        exact starCount_eq_zero_iff.1 (by omega)
  · rintro (hnone | ⟨rest, ⟨before, rfl, hbefore⟩, honly⟩)
    · left
      rwa [typeText_of_not_mem hnone]
    · right
      rw [typeText_star (starCount_eq_zero_iff.1 (by omega)), onlyStars_append_star]
      exact honly

/-! ## Top theorem -/

/-- Translating a type keeps its stars.  Applied `m` times it moves the first `m` of them behind
the rest; applied more often than there are stars it leaves nothing but them.  A second application
changes nothing exactly if there is no star, or nothing but stars behind the first one. -/
theorem typeText_applied_repeatedly (s : String) :
    starCount (typeText s) = starCount s ∧
      (∀ m, 1 ≤ m → m ≤ starCount s →
        ∃ rest, BehindStar m s rest ∧ typeText^[m] s = rest ++ stars m) ∧
      (1 ≤ starCount s → ∀ m, starCount s + 1 ≤ m → typeText^[m] s = stars (starCount s)) ∧
      (typeText (typeText s) = typeText s ↔
        '*' ∉ s.toList ∨ ∃ rest, BehindStar 1 s rest ∧ OnlyStars rest) ∧
      (typeText s = s ↔ '*' ∉ s.toList ∨ OnlyStars s) := by
  refine ⟨starCount_typeText s, fun m hm hs => ?_, fun hs m hm => ?_, typeText_typeText_iff,
    typeText_eq_self_iff⟩
  · obtain ⟨rest, before, rfl, hbefore⟩ := exists_behindStar hm hs
    exact ⟨rest, ⟨before, rfl, hbefore⟩, iterate_typeText rest hbefore⟩
  · exact iterate_typeText_of_lt hs hm

/-- A pointer to a pointer, translated twice and four times. -/
theorem typeText_applied_repeatedly_double_pointer :
    (starCount "ptr*const ptr*int" = 2 ∧
        ∃ rest, BehindStar 2 "ptr*const ptr*int" rest ∧
          typeText^[2] "ptr*const ptr*int" = rest ++ stars 2) ∧
      typeText^[4] "ptr*const ptr*int" = "**" ∧
      typeText (typeText "ptr*const ptr*int") ≠ typeText "ptr*const ptr*int" := by
  obtain ⟨-, hmoved, hlost, -⟩ := typeText_applied_repeatedly "ptr*const ptr*int"
  have hcount : starCount "ptr*const ptr*int" = 2 := by decide
  rw [hcount] at hmoved hlost
  exact ⟨⟨hcount, hmoved 2 (by omega) (by omega)⟩, hlost (by omega) 4 (by omega), by decide⟩

end SyntaxToC.Code
