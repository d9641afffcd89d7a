import Restconf.Decimal.Numeral
import Restconf.Query.Error

set_option autoImplicit false

/-! # Values of query parameters

Four of the parameters take their values from a fixed set. Each has a type with its name and its
reader; `parse_name` and `parse_toString` say that a written value reads back. -/

namespace Restconf.Query

/-! ## Content -/

/-- Which kind of data a reply holds. -/
inductive Content where
  | config
  | nonconfig
  | all
  deriving Repr, DecidableEq

namespace Content

/-- The value in a query. -/
def name : Content → String
  | config => "config"
  | nonconfig => "nonconfig"
  | all => "all"

instance : ToString Content := ⟨name⟩

/-- Reads the value of the parameter `content`. -/
def parse (text : String) : Except Error Content :=
  match [config, nonconfig, all].find? (·.name = text) with
  | some v => .ok v
  | none => .error (.badValue .content text)

theorem parse_name (v : Content) : parse v.name = .ok v := by
  cases v <;> rfl

end Content

/-! ## Depth -/

/-- The greatest bound on the depth. -/
def maxDepth : Nat := 65535

/-- How many levels of the data tree a reply holds. -/
inductive Depth where
  | bounded (limit : Nat) (positive : 1 ≤ limit) (fits : limit ≤ maxDepth)
  | unbounded
  deriving Repr, DecidableEq

namespace Depth

/-- The number of levels, if there is a bound. -/
def limit? : Depth → Option Nat
  | bounded limit _ _ => some limit
  | unbounded => none

/-- The value in a query. -/
def render : Depth → String
  | bounded limit _ _ => String.ofList (Decimal.renderNat limit)
  | unbounded => "unbounded"

instance : ToString Depth := ⟨render⟩

/-- The text without one leading plus sign. -/
def dropPlus : List Char → List Char
  | '+' :: cs => cs
  | cs => cs

/-- Reads the value of the parameter `depth`. -/
def parse (text : String) : Except Error Depth :=
  if text = "unbounded" then .ok unbounded
  else
    let digits := dropPlus text.toList
    let limit := Decimal.valueOf digits
    if h : Decimal.isDigits digits = true ∧ 1 ≤ limit ∧ limit ≤ maxDepth then
      .ok (bounded limit h.2.1 h.2.2)
    else .error (.badValue .depth text)

theorem dropPlus_of_isDigits {cs : List Char} (h : Decimal.isDigits cs = true) :
    dropPlus cs = cs := by
  unfold dropPlus
  split
  · simp [Decimal.isDigits] at h
  · rfl

theorem parse_toString (v : Depth) : parse (toString v) = .ok v := by
  cases v with
  | unbounded => rfl
  | bounded limit positive fits =>
    have digits := Decimal.isDigits_renderNat limit
    have ne : String.ofList (Decimal.renderNat limit) ≠ "unbounded" := by
      intro h
      have := congrArg String.toList h
      rw [String.toList_ofList] at this
      rw [this] at digits
      exact absurd digits (by decide)
    show parse (String.ofList (Decimal.renderNat limit)) = _
    simp only [parse, ne, if_false, String.toList_ofList, dropPlus_of_isDigits digits, digits,
      Decimal.valueOf_renderNat, positive, fits, and_self, dite_true]

end Depth

/-! ## Insert -/

/-- Where a new entry of a user-ordered list goes. -/
inductive Insert where
  | first
  | last
  | before
  | after
  deriving Repr, DecidableEq

namespace Insert

/-- The value in a query. -/
def name : Insert → String
  | first => "first"
  | last => "last"
  | before => "before"
  | after => "after"

instance : ToString Insert := ⟨name⟩

/-- The place is relative to the entry that the parameter `point` names. -/
def isRelative : Insert → Bool
  | first | last => false
  | before | after => true

/-- Reads the value of the parameter `insert`. -/
def parse (text : String) : Except Error Insert :=
  match [first, last, before, after].find? (·.name = text) with
  | some v => .ok v
  | none => .error (.badValue .insert text)

theorem parse_name (v : Insert) : parse v.name = .ok v := by
  cases v <;> rfl

end Insert

/-! ## Defaults -/

/-- How a reply shows leaves that have their default value. -/
inductive WithDefaults where
  | reportAll
  | trim
  | explicit
  | reportAllTagged
  deriving Repr, DecidableEq

namespace WithDefaults

/-- The value in a query. -/
def name : WithDefaults → String
  | reportAll => "report-all"
  | trim => "trim"
  | explicit => "explicit"
  | reportAllTagged => "report-all-tagged"

instance : ToString WithDefaults := ⟨name⟩

/-- Reads the value of the parameter `with-defaults`. -/
def parse (text : String) : Except Error WithDefaults :=
  match [reportAll, trim, explicit, reportAllTagged].find? (·.name = text) with
  | some v => .ok v
  | none => .error (.badValue .withDefaults text)

theorem parse_name (v : WithDefaults) : parse v.name = .ok v := by
  cases v <;> rfl

end WithDefaults

end Restconf.Query
