import ArithJit.Code.Basic
import ArithJit.Diagnostic
import ArithJit.Proofs.Json.RoundTrip

/-!
# The JSON forms of routines and diagnostics

A routine and a diagnostic can be made again from their JSON forms, where a field that is left out
stands for what was left out: no operands, no value, no place or no details. With what is known of
reading a text back this gives the object from its text, except that all NaNs are one. So two
objects with the same text are the same, however the two texts are indented, and no text is that of
a routine and that of a diagnostic.
-/

namespace ArithJit

/-! ## Fields of a JSON form -/

@[simp] theorem UnicodeString.ofString_inj {s t : String} :
    UnicodeString.ofString s = .ofString t ↔ s = t := by
  constructor
  · intro h
    have htext := congrArg UnicodeString.toString? h
    rwa [toString?_ofString, toString?_ofString, Option.some_inj] at htext
  · exact congrArg _

namespace Json

/-- The integer that a value is. -/
def int? : Json → Option Int
  | .int n => some n
  | _ => none

/-- The double that a value is. -/
def float? : Json → Option Binary64
  | .float x => some x
  | _ => none

/-- The text that a value is. -/
def text? : Json → Option String
  | .str s => s.toString?
  | _ => none

/-- The items of an array, each decoded. -/
def items? {α : Type} (decode : Json → Option α) : Json → Option (List α)
  | .arr vs => vs.mapM decode
  | _ => none

/-- The members of an object. -/
def members? : Json → Option Members
  | .obj ms => some ms
  | _ => none

/-- The field of an object, decoded. -/
def field? {α : Type} (key : String) (decode : Json → Option α) (v : Json) : Option α := do
  decode (← member? key (← v.members?))

/-- The field of an object, decoded, or what stands for it if there is none. -/
def fieldD? {α : Type} (key : String) (absent : α) (decode : Json → Option α) (v : Json) :
    Option α := do
  match member? key (← v.members?) with
  | none => some absent
  | some w => decode w

@[simp] theorem int?_int (n : Int) : int? (.int n) = some n := rfl

@[simp] theorem float?_float (x : Binary64) : float? (.float x) = some x := rfl

@[simp] theorem text?_str (s : String) : text? (.str s) = some s :=
  UnicodeString.toString?_ofString s

@[simp] theorem members?_obj (ms : Members) : members? (.obj ms) = some ms := rfl

@[simp] theorem member?_nil (key : String) : member? key [] = none := rfl

@[simp] theorem member?_cons (key k : String) (v : Json) (ms : Members) :
    member? key ((.ofString k, v) :: ms) = if key = k then some v else member? key ms := by
  by_cases h : key = k
  · simp [member?, h]
  · have hne : UnicodeString.ofString key ≠ .ofString k := mt UnicodeString.ofString_inj.1 h
    simp [member?, List.lookup_cons, beq_false_of_ne hne, h]

theorem items?_map {α : Type} {encode : α → Json} {decode : Json → Option α}
    (h : ∀ x, decode (encode x) = some x) (xs : List α) :
    items? decode (.arr (xs.map encode)) = some xs := by
  have hitems : (xs.map encode).mapM decode = some xs := by
    induction xs with
    | nil => rfl
    | cons x xs ih => simp [h, ih]
  exact hitems

end Json

open Json

/-! ## Routines -/

/-- Makes a node from its JSON form. -/
def Node.ofJson? (v : Json) : Option Node := do
  let id ← v.field? "id" int?
  let op ← v.field? "op" fun w => w.text?.bind Opcode.ofName?
  let inputs ← v.fieldD? "inputs" [] (items? int?)
  let value ← v.fieldD? "value" none fun w => w.float?.map some
  return ⟨id, op, inputs, value⟩

/-- A node with its value made quiet. -/
def Node.quiet (n : Node) : Node := { n with value := n.value.map Binary64.quiet }

theorem Opcode.ofName?_name (op : Opcode) : Opcode.ofName? op.name = some op := by
  rcases op with _ | (_ | _ | _ | _) | _ | _
  all_goals decide

theorem Node.ofJson?_toJson (n : Node) : Node.ofJson? n.toJson = some n := by
  obtain ⟨id, op, inputs, value⟩ := n
  have hinputs := items?_map int?_int inputs
  cases inputs <;> cases value <;>
    simp_all [Node.ofJson?, Node.toJson, field?, fieldD?, Opcode.ofName?_name]

theorem Node.quiet_toJson (n : Node) : n.toJson.quiet = n.quiet.toJson := by
  obtain ⟨id, op, inputs, value⟩ := n
  have hinputs : (inputs.map Json.int).map Json.quiet = inputs.map .int := by
    rw [List.map_map]
    rfl
  cases inputs <;> cases value <;>
    simp_all [Node.toJson, Node.quiet, Json.quiet, quietMembers, quietItems_eq_map]

namespace Routine

/-- Makes a routine from its JSON form. -/
def ofJson? (v : Json) : Option Routine := do
  let name ← v.field? "name" text?
  let nodes ← v.field? "nodes" (items? Node.ofJson?)
  return ⟨name, nodes⟩

/-- A routine with all NaNs in it made one. -/
def quiet (r : Routine) : Routine := { r with nodes := r.nodes.map Node.quiet }

/-- The identifiers in the routine are not too long. -/
def IsWritable (r : Routine) : Prop :=
  ∀ n ∈ r.nodes, IsShort n.id ∧ ∀ i ∈ n.inputs, IsShort i

instance (r : Routine) : Decidable r.IsWritable :=
  inferInstanceAs (Decidable (∀ n ∈ r.nodes, IsShort n.id ∧ ∀ i ∈ n.inputs, IsShort i))

theorem ofJson?_toJson (r : Routine) : ofJson? r.toJson = some r := by
  simp [ofJson?, toJson, field?, items?_map Node.ofJson?_toJson]

theorem quiet_toJson (r : Routine) : r.toJson.quiet = r.quiet.toJson := by
  simp [toJson, quiet, Json.quiet, quietMembers, quietItems_eq_map, Node.quiet_toJson]

end Routine

/-! ## Diagnostics -/

theorem DiagnosticKind.ofName?_name (k : DiagnosticKind) : ofName? k.name = some k := by
  cases k
  all_goals decide

namespace Diagnostic

/-- Makes a place from its JSON form. -/
def placeOfJson? (v : Json) : Option Location := do
  let offset ← v.field? "offset" int?
  let line ← v.field? "line" int?
  let column ← v.field? "column" int?
  return ⟨offset, line, column⟩

/-- Makes a diagnostic from its JSON form. -/
def ofJson? (v : Json) : Option Diagnostic := do
  let kind ← v.field? "kind" fun w => w.text?.bind DiagnosticKind.ofName?
  let message ← v.field? "message" text?
  let place ← v.fieldD? "location" none fun w => (placeOfJson? w).map some
  let details ← v.fieldD? "details" [] members?
  return ⟨kind, message, place, details⟩

/-- A diagnostic with all NaNs in it made one. -/
def quiet (d : Diagnostic) : Diagnostic := { d with details := quietMembers d.details }

/-- The place has no integer that is too long, and the details can be written. -/
def IsWritable (d : Diagnostic) : Prop :=
  (∀ l ∈ d.place, IsShort l.offset ∧ IsShort l.line ∧ IsShort l.column) ∧
    Json.IsWritable (.obj d.details)

theorem placeOfJson?_placeJson (l : Location) : placeOfJson? (placeJson l) = some l := by
  simp [placeOfJson?, placeJson, field?]

theorem ofJson?_toJson (d : Diagnostic) : ofJson? d.toJson = some d := by
  obtain ⟨kind, message, place, details⟩ := d
  cases place <;> cases details <;>
    simp [ofJson?, toJson, field?, fieldD?, DiagnosticKind.ofName?_name, placeOfJson?_placeJson]

theorem quiet_toJson (d : Diagnostic) : d.toJson.quiet = d.quiet.toJson := by
  obtain ⟨kind, message, place, details⟩ := d
  cases place <;> cases details <;>
    simp [toJson, quiet, placeJson, Json.quiet, quietMembers]

end Diagnostic

/-! ## Both forms can be written -/

namespace Json

@[simp] theorem isWritable_int {n : Int} : IsWritable (.int n) ↔ IsShort n :=
  ⟨fun | .int short => short, .int⟩

@[simp] theorem isWritable_float (x : Binary64) : IsWritable (.float x) := .float x

@[simp] theorem isWritable_str (s : String) : IsWritable (.str s) := .str s

@[simp] theorem isWritable_arr {vs : List Json} :
    IsWritable (.arr vs) ↔ ∀ v ∈ vs, IsWritable v :=
  ⟨fun | .arr items => items, .arr⟩

theorem isWritable_obj {ms : Members} :
    IsWritable (.obj ms) ↔ (ms.map Prod.fst).Nodup ∧
      (∀ m ∈ ms, ∃ s : String, m.1 = .ofString s) ∧ ∀ m ∈ ms, IsWritable m.2 :=
  ⟨fun | .obj distinct keys values => ⟨distinct, keys, values⟩, fun h => .obj h.1 h.2.1 h.2.2⟩

end Json

theorem Node.isWritable_toJson {n : Node} (hid : IsShort n.id)
    (hinputs : ∀ i ∈ n.inputs, IsShort i) : n.toJson.IsWritable := by
  obtain ⟨id, op, inputs, value⟩ := n
  cases inputs <;> cases value <;> simp_all [Node.toJson, isWritable_obj]

theorem Routine.IsWritable.toJson {r : Routine} (h : r.IsWritable) : r.toJson.IsWritable := by
  have hnodes : ∀ n ∈ r.nodes, n.toJson.IsWritable := by
    intro n hn
    exact Node.isWritable_toJson (h n hn).1 (h n hn).2
  simpa [Routine.toJson, isWritable_obj] using hnodes

theorem Diagnostic.IsWritable.toJson {d : Diagnostic} (h : d.IsWritable) :
    d.toJson.IsWritable := by
  obtain ⟨kind, message, place, details⟩ := d
  obtain ⟨hshort, hdetails⟩ := h
  have hplace : ∀ l ∈ place, (placeJson l).IsWritable := by
    intro l hl
    simpa [placeJson, isWritable_obj] using hshort l hl
  rw [Diagnostic.toJson, isWritable_obj]
  cases place <;> cases details <;> simp_all

/-! ## Texts -/

/-- Two objects with one text are the same apart from their NaNs, if they can be made again from
    their forms. -/
theorem Json.quiet_eq_of_text_eq {α : Type} {form : α → Json} {make : Json → Option α}
    {quiet : α → α} (hmake : ∀ a, make (form a) = some a)
    (hquiet : ∀ a, (form a).quiet = form (quiet a)) {a b : α} {indent indent' : Option Int}
    (ha : (form a).IsWritable) (hb : (form b).IsWritable)
    (h : text indent (form a) = text indent' (form b)) : quiet a = quiet b := by
  have hread := read_text ha indent
  rw [h, read_text hb indent', hquiet, hquiet] at hread
  have hsame := congrArg make (Except.ok.inj hread)
  rw [hmake, hmake, Option.some_inj] at hsame
  exact hsame.symm

/-- A diagnostic has no name, so no routine is made from its form. -/
theorem Routine.ofJson?_diagnostic (d : Diagnostic) : Routine.ofJson? d.toJson = none := by
  obtain ⟨kind, message, place, details⟩ := d
  cases place <;> cases details <;> simp [Routine.ofJson?, Diagnostic.toJson, field?]

theorem Routine.text_ne_diagnostic {r : Routine} {d : Diagnostic} (hr : r.IsWritable)
    (hd : d.IsWritable) (indent indent' : Option Int) :
    text indent r.toJson ≠ text indent' d.toJson := by
  intro h
  have hread := read_text hr.toJson indent
  rw [h, read_text hd.toJson indent', Diagnostic.quiet_toJson, Routine.quiet_toJson] at hread
  have hmade := congrArg Routine.ofJson? (Except.ok.inj hread)
  rw [Routine.ofJson?_diagnostic, Routine.ofJson?_toJson] at hmade
  exact absurd hmade (by simp)

/-- With every indentation the text of a routine or a diagnostic is read as its JSON form, the object
    is made again from it, and objects that differ have texts that differ. All NaNs count as one. -/
theorem forms_faithful {r s : Routine} {d e : Diagnostic} (hr : r.IsWritable) (hs : s.IsWritable)
    (hd : d.IsWritable) (he : e.IsWritable) (indent indent' : Option Int) :
    (read (text indent r.toJson).toList = .ok r.toJson.quiet ∧
      Routine.ofJson? r.toJson.quiet = some r.quiet) ∧
    (read (text indent d.toJson).toList = .ok d.toJson.quiet ∧
      Diagnostic.ofJson? d.toJson.quiet = some d.quiet) ∧
    (text indent r.toJson = text indent' s.toJson → r.quiet = s.quiet) ∧
    (text indent d.toJson = text indent' e.toJson → d.quiet = e.quiet) ∧
    text indent r.toJson ≠ text indent' d.toJson := by
  refine ⟨⟨read_text hr.toJson indent, ?_⟩, ⟨read_text hd.toJson indent, ?_⟩, ?_, ?_, ?_⟩
  · rw [Routine.quiet_toJson, Routine.ofJson?_toJson]
  · rw [Diagnostic.quiet_toJson, Diagnostic.ofJson?_toJson]
  · exact quiet_eq_of_text_eq Routine.ofJson?_toJson Routine.quiet_toJson hr.toJson hs.toJson
  · exact quiet_eq_of_text_eq Diagnostic.ofJson?_toJson Diagnostic.quiet_toJson hd.toJson he.toJson
  · exact Routine.text_ne_diagnostic hr hd indent indent'

/-- A negative zero, a NaN with a sign, characters that are escaped, and empty containers. -/
theorem forms_faithful_signed_zero :
    Routine.IsWritable ⟨"𝄞\"", [⟨-1, .const, [], some (.zero true)⟩]⟩ ∧
    Routine.IsWritable ⟨"𝄞\"", [⟨-1, .const, [], some (.zero false)⟩]⟩ ∧
    Diagnostic.IsWritable ⟨.internalError, "\n", some ⟨0, 1, -5⟩,
      [("a", .arr [.float (.nan true), .obj []])]⟩ ∧
    read (text (some (-3)) (Routine.toJson ⟨"𝄞\"", [⟨-1, .const, [], some (.zero true)⟩]⟩)).toList =
      .ok (Routine.toJson ⟨"𝄞\"", [⟨-1, .const, [], some (.zero true)⟩]⟩) ∧
    read (text (some (-3)) (Diagnostic.toJson ⟨.internalError, "\n", some ⟨0, 1, -5⟩,
      [("a", .arr [.float (.nan true), .obj []])]⟩)).toList =
      .ok (Diagnostic.toJson ⟨.internalError, "\n", some ⟨0, 1, -5⟩,
        [("a", .arr [.float (.nan false), .obj []])]⟩) ∧
    text (some (-3)) (Routine.toJson ⟨"𝄞\"", [⟨-1, .const, [], some (.zero true)⟩]⟩) ≠
      text none (Routine.toJson ⟨"𝄞\"", [⟨-1, .const, [], some (.zero false)⟩]⟩) := by
  have hr : Routine.IsWritable ⟨"𝄞\"", [⟨-1, .const, [], some (.zero true)⟩]⟩ := by decide
  have hs : Routine.IsWritable ⟨"𝄞\"", [⟨-1, .const, [], some (.zero false)⟩]⟩ := by decide
  have hd : Diagnostic.IsWritable ⟨.internalError, "\n", some ⟨0, 1, -5⟩,
      [("a", .arr [.float (.nan true), .obj []])]⟩ :=
    ⟨by decide, by simp [isWritable_obj]⟩
  obtain ⟨⟨hroutine, -⟩, ⟨hdiagnostic, -⟩, hdistinct, -⟩ :=
    forms_faithful hr hs hd hd (some (-3)) none
  exact ⟨hr, hs, hd, hroutine, hdiagnostic, fun h => absurd (hdistinct h) (by decide)⟩

end ArithJit
