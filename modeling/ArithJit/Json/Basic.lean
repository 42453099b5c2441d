import ArithJit.Binary64.Basic
import ArithJit.Text.CodePoint

/-!
# JSON values

Integers and doubles are different kinds of number, strings are sequences of code points, and
the members of an object keep the order in which their keys were first given.
-/

namespace ArithJit

/-- A JSON value. -/
inductive Json where
  | null
  | bool (value : Bool)
  | int (value : Int)
  | float (value : Binary64)
  | str (value : UnicodeString)
  | arr (items : List Json)
  | obj (members : List (UnicodeString × Json))
  deriving Repr, Inhabited

namespace Json

mutual

/-- Whether two values are the same. -/
def decEq : (a b : Json) → Decidable (a = b)
  | .null, b =>
      match b with
      | .null => isTrue rfl
      | .bool _ | .int _ | .float _ | .str _ | .arr _ | .obj _ => isFalse nofun
  | .bool v, b =>
      match b with
      | .bool w => decidable_of_iff (v = w) (by simp)
      | .null | .int _ | .float _ | .str _ | .arr _ | .obj _ => isFalse nofun
  | .int v, b =>
      match b with
      | .int w => decidable_of_iff (v = w) (by simp)
      | .null | .bool _ | .float _ | .str _ | .arr _ | .obj _ => isFalse nofun
  | .float v, b =>
      match b with
      | .float w => decidable_of_iff (v = w) (by simp)
      | .null | .bool _ | .int _ | .str _ | .arr _ | .obj _ => isFalse nofun
  | .str v, b =>
      match b with
      | .str w => decidable_of_iff (v = w) (by simp)
      | .null | .bool _ | .int _ | .float _ | .arr _ | .obj _ => isFalse nofun
  | .arr v, b =>
      match b with
      | .arr w => @decidable_of_iff _ (v = w) (by simp) (decEqItems v w)
      | .null | .bool _ | .int _ | .float _ | .str _ | .obj _ => isFalse nofun
  | .obj v, b =>
      match b with
      | .obj w => @decidable_of_iff _ (v = w) (by simp) (decEqMembers v w)
      | .null | .bool _ | .int _ | .float _ | .str _ | .arr _ => isFalse nofun

/-- Whether two lists of items are the same. -/
def decEqItems : (vs ws : List Json) → Decidable (vs = ws)
  | [], [] => isTrue rfl
  | [], _ :: _ | _ :: _, [] => isFalse nofun
  | v :: vs, w :: ws =>
      match decEq v w, decEqItems vs ws with
      | isTrue hv, isTrue hvs => isTrue (by rw [hv, hvs])
      | isFalse hv, _ => isFalse fun h => hv (List.cons.inj h).1
      | _, isFalse hvs => isFalse fun h => hvs (List.cons.inj h).2

/-- Whether two lists of members are the same. -/
def decEqMembers : (ms ns : List (UnicodeString × Json)) → Decidable (ms = ns)
  | [], [] => isTrue rfl
  | [], _ :: _ | _ :: _, [] => isFalse nofun
  | (k, v) :: ms, (l, w) :: ns =>
      match decEq v w, decEqMembers ms ns with
      | isTrue hv, isTrue hms => decidable_of_iff (k = l) (by simp [hv, hms])
      | isFalse hv, _ => isFalse fun h => hv (by simp_all)
      | _, isFalse hms => isFalse fun h => hms (List.cons.inj h).2

end

instance : DecidableEq Json := decEq

/-- The members of an object. -/
abbrev Members := List (UnicodeString × Json)

/-- Gives a key a value: a key that is there keeps its place and loses its old value. -/
def setMember (key : UnicodeString) (value : Json) : Members → Members
  | [] => [(key, value)]
  | (k, v) :: rest => if k = key then (k, value) :: rest else (k, v) :: setMember key value rest

/-- The value of a key. -/
def member? (key : String) (members : Members) : Option Json :=
  members.lookup (.ofString key)

end Json

end ArithJit
