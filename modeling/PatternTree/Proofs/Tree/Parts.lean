import PatternTree.Element.Summary

/-!
# Parts and slots

`parts` lists what an element holds and `part?` looks into one slot. The two agree (`mem_parts`), and
no slot is listed twice (`nodup_slots`), so a part is known by its slot. Everything that is said
about paths starts from here: `get?` follows slots down, and `paths` lists exactly the paths on which
`get?` finds something (`mem_paths`).
-/

namespace PatternTree.Element

/-! ## Slots of the parts -/

theorem mem_childParts {i : Nat} {cs : List Element} {slot : Slot} {d : Element} :
    (slot, d) ∈ childParts i cs ↔ ∃ j, slot = .child (i + j) ∧ cs[j]? = some d := by
  induction cs generalizing i with
  | nil => simp [childParts]
  | cons c cs ih =>
    rw [childParts, List.mem_cons, ih, Prod.mk.injEq]
    constructor
    · rintro (⟨rfl, rfl⟩ | ⟨j, rfl, hj⟩)
      · exact ⟨0, rfl, rfl⟩
      · exact ⟨j + 1, by rw [Nat.add_right_comm, Nat.add_assoc], hj⟩
    · rintro ⟨_ | j, rfl, hj⟩
      · exact Or.inl ⟨rfl, (Option.some.inj hj).symm⟩
      · exact Or.inr ⟨j, by rw [Nat.add_right_comm, Nat.add_assoc], hj⟩

theorem mem_delimiterPart {slot slot' : Slot} {o : Option Element} {d : Element} :
    (slot', d) ∈ delimiterPart slot o ↔ slot' = slot ∧ o = some d := by
  cases o with
  | none => simp [delimiterPart]
  | some c => simp [delimiterPart, eq_comm]

/-- The parts are what stands in the slots. -/
theorem mem_parts {e : Element} {slot : Slot} {d : Element} :
    (slot, d) ∈ e.parts ↔ e.part? slot = some d := by
  simp only [parts, List.mem_append, mem_delimiterPart, mem_childParts, Nat.zero_add]
  cases slot <;> simp [part?]

theorem nodup_childParts (i : Nat) (cs : List Element) :
    ((childParts i cs).map (·.1)).Nodup := by
  induction cs generalizing i with
  | nil => simp [childParts]
  | cons c cs ih =>
    rw [childParts, List.map_cons, List.nodup_cons]
    refine ⟨fun h => ?_, ih (i + 1)⟩
    obtain ⟨⟨slot, d⟩, hd, he⟩ := List.mem_map.1 h
    obtain ⟨j, hj, -⟩ := mem_childParts.1 hd
    have : i + 1 + j = i := Slot.child.inj (hj.symm.trans he)
    omega

theorem map_fst_delimiterPart (slot : Slot) (o : Option Element) :
    (delimiterPart slot o).map (·.1) = if o.isSome then [slot] else [] := by
  cases o <;> rfl

theorem mem_map_fst_childParts {i : Nat} {cs : List Element} {slot : Slot}
    (h : slot ∈ (childParts i cs).map (·.1)) : slot.isChild := by
  obtain ⟨⟨slot, d⟩, hd, rfl⟩ := List.mem_map.1 h
  obtain ⟨j, rfl, -⟩ := mem_childParts.1 hd
  rfl

/-- No two parts stand in the same slot. -/
theorem nodup_slots (e : Element) : (e.parts.map (·.1)).Nodup := by
  have hc := nodup_childParts 0 e.children
  have hs : ∀ slot ∈ (childParts 0 e.children).map (·.1), slot.isChild := fun _ => mem_map_fst_childParts
  simp only [parts, List.map_append, map_fst_delimiterPart]
  generalize (childParts 0 e.children).map (·.1) = slots at hc hs
  have h1 : Slot.start ∉ slots := fun h => by simpa [Slot.isChild] using hs _ h
  have h2 : Slot.type ∉ slots := fun h => by simpa [Slot.isChild] using hs _ h
  have h3 : Slot.finish ∉ slots := fun h => by simpa [Slot.isChild] using hs _ h
  split <;> split <;> split <;> grind

theorem filter_childParts (i : Nat) (cs : List Element) :
    (childParts i cs).filter (·.1.isChild) = childParts i cs := by
  rw [List.filter_eq_self]
  rintro ⟨slot, d⟩ hd
  obtain ⟨j, rfl, -⟩ := mem_childParts.1 hd
  rfl

theorem filter_delimiterPart {slot : Slot} (h : slot.isChild = false) (o : Option Element) :
    (delimiterPart slot o).filter (·.1.isChild) = [] := by
  cases o with
  | none => rfl
  | some d => simp [delimiterPart, h]

/-- The parts that are children, without the delimiters around them. -/
theorem filter_parts (e : Element) : e.parts.filter (·.1.isChild) = childParts 0 e.children := by
  simp only [parts, List.filter_append, filter_childParts]
  rw [filter_delimiterPart rfl, filter_delimiterPart rfl, filter_delimiterPart rfl]
  simp

theorem mem_parts_of_mem_childParts {e : Element} {p : Slot × Element}
    (h : p ∈ childParts 0 e.children) : p ∈ e.parts := by
  rw [← filter_parts] at h
  exact (List.mem_filter.1 h).1

/-- Induction over elements in two cases: a token has no parts, and for a node what holds of its
parts may be used. -/
@[elab_as_elim]
theorem induction_node {P : Element → Prop} (token : ∀ t, P (token t))
    (node : ∀ e : Element, e.isNode = true → (∀ p ∈ e.parts, P p.2) → P e) (e : Element) : P e := by
  induction e using induction_parts with
  | h e ih =>
    cases e with
    | token t => exact token t
    | node children => exact node _ rfl ih
    | group form start type children finish => exact node _ rfl ih

/-- Of two answers, one for tokens and one for nodes, a node gets the second. -/
theorem match_of_isNode {α : Type} (ofToken : Token → α) (ofNode : Element → α) (e : Element) :
    e.isNode = true →
      (match e with
        | token t => ofToken t
        | e => ofNode e) = ofNode e := by
  intro h
  cases e with
  | token t => cases h
  | node children => rfl
  | group form start type children finish => rfl

/-! ## Paths -/

theorem get?_nil (e : Element) : e.get? [] = some e := rfl

theorem get?_cons (e : Element) (slot : Slot) (path : Path) :
    e.get? (slot :: path) = (e.part? slot).bind fun d => d.get? path := rfl

/-- To go down `p ++ q` is to go down `p` and then `q` from there. -/
theorem get?_append (e : Element) (p q : Path) :
    e.get? (p ++ q) = (e.get? p).bind fun d => d.get? q := by
  induction p generalizing e with
  | nil => rfl
  | cons slot p ih =>
    rw [List.cons_append, get?_cons, get?_cons]
    cases e.part? slot with
    | none => rfl
    | some d => exact ih d

/-- The paths of an element are those at whose end something stands. -/
theorem mem_paths {e : Element} {path : Path} : path ∈ e.paths ↔ (e.get? path).isSome := by
  induction e using induction_parts generalizing path with
  | h e ih =>
    rw [paths_eq]
    cases path with
    | nil => simp [get?_nil]
    | cons slot path =>
      rw [List.mem_cons, List.mem_flatMap, get?_cons]
      constructor
      · rintro (h | ⟨⟨slot', d⟩, hd, hp⟩)
        · cases h
        · obtain ⟨p, hp', he⟩ := List.mem_map.1 hp
          obtain ⟨rfl, rfl⟩ := List.cons.inj he
          rw [mem_parts.1 hd]
          exact (ih _ hd).1 hp'
      · intro h
        obtain ⟨d, hd⟩ := Option.isSome_iff_exists.1 (Option.isSome_of_isSome_bind h)
        rw [hd] at h
        exact Or.inr ⟨(slot, d), mem_parts.2 hd, List.mem_map.2 ⟨path, (ih _ (mem_parts.2 hd)).2 h, rfl⟩⟩

end PatternTree.Element
