import ArithJit.Proofs.Ssa.Simulation

/-!
# Names of registers

The name of a register is its family, its identifier and, for repetitions, a number, with points
between them. Nothing of this holds a point itself, so the parts can be read off the name and no two
registers share one, whatever identifiers a routine has: a name with a number behind it is never the
name that another identifier has without one.

Emission numbers the registers of a family and an identifier in their order. So each instruction
gets the first name that is free, as `Counted.firstUnused_name` says.
-/

namespace ArithJit.Ssa

/-! ## Numbers in decimal -/

theorem isDigit_of_mem_toDigits {n : Nat} {c : Char} (h : c ∈ Nat.toDigits 10 n) :
    c.isDigit = true :=
  Nat.isDigit_of_mem_toDigits (by decide) (by decide) h

theorem isDigit_or_of_mem_repr {i : Int} {c : Char} (h : c ∈ i.repr.toList) :
    c.isDigit = true ∨ c = '-' := by
  rw [Int.repr_eq_if] at h
  split at h
  · exact .inl (isDigit_of_mem_toDigits (by simpa using h))
  · simp only [String.toList_append, List.mem_append, Nat.toList_repr] at h
    rcases h with h | h
    · exact .inr (by simpa using h)
    · exact .inl (isDigit_of_mem_toDigits h)

theorem toDigits_inj {m n : Nat} (h : Nat.toDigits 10 m = Nat.toDigits 10 n) : m = n := by
  have hvalue := congrArg (fun ds => Nat.ofDigitChars 10 ds 0) h
  simpa using hvalue

theorem repr_inj {i j : Int} (h : i.repr.toList = j.repr.toList) : i = j := by
  have hsign (n m : Nat) : '-' :: Nat.toDigits 10 n ≠ Nat.toDigits 10 m := by
    intro heq
    have hminus : '-' ∈ Nat.toDigits 10 m := heq ▸ List.mem_cons_self
    exact absurd (isDigit_of_mem_toDigits hminus) (by decide)
  rw [Int.repr_eq_if, Int.repr_eq_if] at h
  split at h <;> split at h
  · have := toDigits_inj (by simpa using h)
    omega
  · exact absurd (by simpa using h.symm) (hsign _ _)
  · exact absurd (by simpa using h) (hsign _ _)
  · have := toDigits_inj (by simpa using h)
    omega

/-! ## Names -/

/-- A name with a number behind it; the first of its kind carries none. -/
def numbered (base : String) (copy : Nat) : String := if copy = 0 then base else s!"{base}.{copy}"

namespace Register

/-- The name of the first register of a family and an identifier. -/
def base (family : Family) (id : Int) : String := s!"{family.name}.{id}"

theorem name_eq (r : Register) : r.name = numbered (base r.family r.id) r.copy := rfl

/-- What stands between the points of a name. -/
def parts (r : Register) : List (List Char) :=
  r.family.name.toList :: r.id.repr.toList ::
    if r.copy = 0 then [] else [Nat.toDigits 10 r.copy]

theorem toList_name (r : Register) :
    r.name.toList = r.family.name.toList ++ '.' :: (r.id.repr.toList ++
      if r.copy = 0 then [] else '.' :: Nat.toDigits 10 r.copy) := by
  unfold name
  split <;> simp [*, toString]

theorem point_not_mem_family (family : Family) : '.' ∉ family.name.toList := by
  cases family <;> decide

theorem point_not_mem_repr (i : Int) : '.' ∉ i.repr.toList := by
  intro h
  rcases isDigit_or_of_mem_repr h with h | h
  · exact absurd h (by decide)
  · exact absurd h (by decide)

theorem splitOn_name (r : Register) : r.name.toList.splitOn '.' = r.parts := by
  have hpart {xs : List Char} (h : '.' ∉ xs) : ∀ x ∈ xs, (x == '.') = false := by
    rintro x hx
    simpa using ne_of_mem_of_not_mem hx h
  have hfamily := hpart (point_not_mem_family r.family)
  have hid := hpart (point_not_mem_repr r.id)
  have hcopy : ∀ x ∈ Nat.toDigits 10 r.copy, (x == '.') = false := by
    refine hpart fun h => ?_
    exact absurd (isDigit_of_mem_toDigits h) (by decide)
  rw [toList_name, List.splitOn_eq_splitOnP,
    List.splitOnP_append_cons_of_forall_mem hfamily '.' rfl, parts]
  split
  · rw [List.append_nil, List.splitOnP_eq_singleton hid]
  · rw [List.splitOnP_append_cons_of_forall_mem hid '.' rfl, List.splitOnP_eq_singleton hcopy]

/-- No two registers have the same name. -/
theorem name_injective {r r' : Register} (h : r.name = r'.name) : r = r' := by
  have hparts : r.parts = r'.parts := by rw [← splitOn_name, h, splitOn_name]
  obtain ⟨family, id, copy⟩ := r
  obtain ⟨family', id', copy'⟩ := r'
  simp only [parts, List.cons.injEq] at hparts
  obtain ⟨hfamily, hid, hcopy⟩ := hparts
  have hfamily : family = family' := by
    cases family <;> cases family' <;> simp_all [Family.name]
  have hcopy : copy = copy' := by
    split at hcopy <;> split at hcopy
    · omega
    · simp at hcopy
    · simp at hcopy
    · exact toDigits_inj (by simpa using hcopy)
  rw [hfamily, repr_inj hid, hcopy]

end Register

/-! ## The order of names -/

/-- The name is the first of a base and its numbered forms that is not used. -/
def FirstUnused (used : List String) (base name : String) : Prop :=
  ∃ copy, name = numbered base copy ∧ name ∉ used ∧ ∀ k < copy, numbered base k ∈ used

/-- A body, the latest instruction first, in which every instruction writes a register that was
    fresh when it was added. -/
inductive Counted : List Instr → Prop
  | nil : Counted []
  | ret {x : Operand} {below : List Instr} (h : Counted below) : Counted (.ret x :: below)
  | write {σ : Emission} {i : Instr} {family : Family} {id : Int} (h : Counted σ.body)
      (dest : i.dest? = some (σ.fresh family id)) : Counted (i :: σ.body)

/-- The registers that a body writes. -/
def dests (body : List Instr) : List Register := body.filterMap Instr.dest?

namespace Counted

variable {σ σ' : Emission} {n : Node} {ns : List Node} {i : Instr} {r : Register}
  {body below : List Instr}

/-- Of a family and an identifier the registers written are those with the first numbers. -/
theorem mem_dests_iff (h : Counted σ.body) :
    r ∈ dests σ.body ↔ r.copy < σ.copies r.family r.id := by
  generalize hbody : σ.body = body at h
  induction h generalizing σ with
  | nil => simp [dests, Emission.copies, hbody]
  | ret h ih =>
    have := ih (σ := ⟨[], _⟩) rfl
    simpa [dests, Emission.copies, hbody, Instr.dest?] using this
  | @write τ i family id h dest ih =>
    have hbelow := ih rfl
    have hcopies : σ.copies r.family r.id =
        τ.copies r.family r.id + if family = r.family ∧ id = r.id then 1 else 0 := by
      simp [Emission.copies, hbody, List.countP_cons, dest, Emission.fresh]
    have hmem : r ∈ dests (i :: τ.body) ↔ r = τ.fresh family id ∨ r ∈ dests τ.body := by
      simp [dests, dest]
    rw [hmem, hbelow, hcopies]
    by_cases hsame : family = r.family ∧ id = r.id
    · obtain ⟨rfl, rfl⟩ := hsame
      have hfresh : r = τ.fresh r.family r.id ↔ r.copy = τ.copies r.family r.id := by
        obtain ⟨family, id, copy⟩ := r
        simp [Emission.fresh, Emission.copies]
      rw [hfresh, if_pos ⟨rfl, rfl⟩]
      omega
    · have hne : r ≠ τ.fresh family id := by
        rintro rfl
        exact hsame ⟨rfl, rfl⟩
      simp [hsame, hne]

theorem nodup_dests (h : Counted body) : (dests body).Nodup := by
  induction h with
  | nil => exact .nil
  | ret _ ih => exact ih
  | @write σ i family id h dest ih =>
    have hfresh : σ.fresh family id ∉ dests σ.body := by
      rw [h.mem_dests_iff]
      exact Nat.lt_irrefl _
    simpa [dests, List.filterMap_cons, dest] using ⟨by simpa [dests] using hfresh, ih⟩

theorem of_append {above : List Instr} (h : Counted (above ++ below)) : Counted below := by
  induction above with
  | nil => exact h
  | cons i above ih =>
    generalize hrest : above ++ below = rest at ih
    rw [List.cons_append, hrest] at h
    cases h with
    | ret h => exact ih h
    | write h => exact ih h

/-- Each instruction has the first name that no instruction below it has. -/
theorem firstUnused_name (h : Counted (i :: below)) (hi : i.dest? = some r) :
    FirstUnused ((dests below).map Register.name) (Register.base r.family r.id) r.name := by
  cases h with
  | ret => simp [Instr.dest?] at hi
  | @write σ _ family id h dest =>
    obtain rfl := Option.some.inj (hi.symm.trans dest)
    refine ⟨σ.copies family id, Register.name_eq _, ?_, ?_⟩
    · rw [List.mem_map]
      rintro ⟨r, hr, hname⟩
      rw [Register.name_injective hname, h.mem_dests_iff] at hr
      exact Nat.lt_irrefl _ hr
    · intro k hk
      exact List.mem_map.2 ⟨⟨family, id, k⟩, h.mem_dests_iff.2 hk, Register.name_eq _⟩

theorem node (h : Counted σ.body) (hnode : σ.node n = .ok σ') : Counted σ'.body := by
  rcases Emission.body_of_node hnode with
    ⟨-, hbody⟩ | ⟨-, -, i, family, hdest, hbody⟩ | ⟨-, -, x, hbody⟩
  · rw [hbody]
    exact h
  · rw [hbody]
    exact .write h hdest
  · rw [hbody]
    exact .ret h

theorem nodes (h : Counted σ.body) (hnodes : σ.nodes ns = .ok σ') : Counted σ'.body := by
  induction ns generalizing σ with
  | nil =>
    obtain rfl := Except.ok.inj hnodes
    exact h
  | cons n ns ih =>
    obtain ⟨τ, hnode, hrest⟩ := Emission.nodes_cons_eq_ok_iff.1 hnodes
    exact ih (h.node hnode) hrest

end Counted

end ArithJit.Ssa
