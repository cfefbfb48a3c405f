import SyntaxToC.Decimal.Shortest

/-!
# JSON values

An object is its list of members.  `insert` is how members enter an object: a key that is already
there takes the new value, so `get?` always answers with the member written last.

    get? (insert ms k v) k  = some v
    get? (insert ms k v) k' = get? ms k'         for any other key
-/

namespace SyntaxToC.Json

/-- Whole numbers that fit a 64-bit word are kept exactly, all others as binary64. -/
inductive Number where
  | integer (value : Int)
  | real (value : Binary64)
deriving DecidableEq, Repr

inductive Value where
  | null
  | bool (b : Bool)
  | number (n : Number)
  | string (s : String)
  | array (items : List Value)
  | object (members : List (String × Value))
deriving Inhabited, Repr

abbrev Members := List (String × Value)

/-! ## Numbers -/

namespace Number

def isZero : Number → Bool
  | .integer i => i == 0
  | .real x => x.magnitude.isZero

def sign (negative : Bool) : String := if negative then "-" else ""

/-- The number in full: never an exponent, and no point after a whole number.  Of two shortest
forms at the same distance the larger magnitude is written. -/
def text : Number → String
  | .integer i => toString i
  | .real x => sign x.negative ++ (x.magnitude.shortest .up).positional

end Number

/-! ## Members -/

namespace Members

def get? (ms : Members) (key : String) : Option Value := ms.lookup key

def insert : Members → String → Value → Members
  | [], key, v => [(key, v)]
  | (k, w) :: ms, key, v => if k = key then (key, v) :: ms else (k, w) :: insert ms key v

theorem get?_insert (ms : Members) (key key' : String) (v : Value) :
    (insert ms key v).get? key' = if key' = key then some v else ms.get? key' := by
  induction ms with
  | nil =>
    by_cases h : key' = key <;>
      simp [insert, get?, List.lookup_cons, h, beq_eq_false_iff_ne.2]
  | cons m ms ih =>
    obtain ⟨k, w⟩ := m
    simp only [get?] at ih
    by_cases hk : k = key
    · subst hk
      by_cases h : key' = k <;> simp [insert, get?, List.lookup_cons, h, beq_eq_false_iff_ne.2]
    · by_cases h : key' = k
      · subst h
        simp [insert, get?, hk]
      · simp [insert, get?, hk, List.lookup_cons, beq_eq_false_iff_ne.2 h, ih]

theorem sizeOf_get?_lt {ms : Members} {key : String} {v : Value} (h : ms.get? key = some v) :
    sizeOf v < sizeOf ms := by
  induction ms with
  | nil => simp [get?] at h
  | cons m ms ih =>
    obtain ⟨k, w⟩ := m
    simp only [get?, List.lookup_cons] at h
    split at h
    · cases h
      simp only [List.cons.sizeOf_spec, Prod.mk.sizeOf_spec]
      omega
    · have := ih h
      simp only [List.cons.sizeOf_spec]
      omega

end Members

/-! ## Values -/

namespace Value

/-- The member of an object under a key; no other value has members. -/
def get? : Value → String → Option Value
  | .object ms, key => Members.get? ms key
  | _, _ => none

theorem sizeOf_get?_lt {v w : Value} {key : String} (h : v.get? key = some w) :
    sizeOf w < sizeOf v := by
  cases v with
  | object ms =>
    have := Members.sizeOf_get?_lt (by simpa only [get?] using h)
    simp only [object.sizeOf_spec]
    omega
  | _ => simp [get?] at h

/-- The values that stand for "nothing here": null, false, the empty text and every zero. -/
def isBlank : Value → Bool
  | .null => true
  | .bool b => !b
  | .number n => n.isZero
  | .string s => s == ""
  | _ => false

end Value

end SyntaxToC.Json
