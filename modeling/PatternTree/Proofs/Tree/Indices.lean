import Mathlib
import PatternTree.Proofs.Tree.Addresses

/-!
# Children under their indices

A child is asked for by a 32-bit index, which counts from the end if it is negative, and so is a
significant child. What an index stands for in a list is said by `entryAt?`. A child is found by adding the
number of children to a negative index; a significant one is found by a walk from the front or
from the back which counts the index down or up as it goes. As long as a node has fewer than 2^31
children, both give the entry of the list under that index, for every index, and no number on the way
leaves the 32 bits (`childAt_exact`).
-/

namespace PatternTree

/-- The entry of a list under an index, counted from the end if the index is negative. -/
def entryAt? {α : Type} (l : List α) (index : Int) : Option α :=
  if 0 ≤ index ∧ index < l.length then l[index.toNat]?
  else if -l.length ≤ index ∧ index < 0 then l[(l.length + index).toNat]?
  else none

section EntryAt

variable {α β : Type}

theorem entryAt?_natCast (l : List α) (n : Nat) : entryAt? l n = l[n]? := by
  unfold entryAt?
  split
  · simp
  · rw [if_neg (by omega), List.getElem?_eq_none (by omega)]

/-- Counted from the end, an entry is one of the reversed list counted from the front. -/
theorem entryAt?_negSucc (l : List α) (n : Nat) : entryAt? l (-(n + 1)) = l.reverse[n]? := by
  unfold entryAt?
  rw [if_neg (by omega)]
  split
  · rw [List.getElem?_reverse (by omega)]
    congr 1
    omega
  · rw [List.getElem?_eq_none (by rw [List.length_reverse]; omega)]

theorem entryAt?_map (f : α → β) (l : List α) (index : Int) :
    entryAt? (l.map f) index = (entryAt? l index).map f := by
  unfold entryAt?
  rw [List.length_map, List.getElem?_map, List.getElem?_map]
  split_ifs <;> rfl

end EntryAt

/-! ## Checked arithmetic -/

namespace Checked

/-- A number that is a signed 32-bit number is not refused. -/
theorem ofInt_eq {n : Int} {c : Int32} (h : c.toInt = n) : ofInt n = .ok c := by
  have hmin := Int32.le_iff_toInt_le.1 c.minValue_le
  have hmax := Int32.le_iff_toInt_le.1 c.le_maxValue
  rw [ofInt, if_pos (by rw [← h]; exact ⟨hmin, hmax⟩), ← h, Int32.ofInt_toInt]

theorem add_eq {a b c : Int32} (h : c.toInt = a.toInt + b.toInt) : add a b = .ok c := ofInt_eq h

theorem add_one {a : Int32} (h : a.toInt + 1 < 2 ^ 31) :
    ∃ c, add a 1 = .ok c ∧ c.toInt = a.toInt + 1 := by
  have hmin := a.le_toInt
  have hc : (Int32.ofInt (a.toInt + 1)).toInt = a.toInt + 1 := Int32.toInt_ofInt_of_le (by omega) h
  exact ⟨_, ofInt_eq hc, hc⟩

theorem sub_one {a : Int32} (h : -2 ^ 31 ≤ a.toInt - 1) :
    ∃ c, sub a 1 = .ok c ∧ c.toInt = a.toInt - 1 := by
  have hmax := a.toInt_lt
  have hc : (Int32.ofInt (a.toInt - 1)).toInt = a.toInt - 1 := Int32.toInt_ofInt_of_le h (by omega)
  exact ⟨_, ofInt_eq hc, hc⟩

end Checked

namespace Element

/-! ## Children -/

/-- Below 2^31 children the sum that a negative index asks for is never refused. -/
theorem childSlot_eq {e : Element} (h : e.children.length < 2 ^ 31) (index : Int32) :
    e.childSlot index = .ok (e.childSlot? index) := by
  have hplace : (if index < 0 then Checked.add index (Int32.ofNat e.children.length) else .ok index) =
      .ok (if index < 0 then index + Int32.ofNat e.children.length else index) := by
    split
    · rename_i hneg
      have hadd := toInt_index_add h (Int32.lt_iff_toInt_lt.1 hneg)
      rw [← Int32.toInt_ofNat_of_lt h] at hadd
      exact Checked.add_eq hadd
    · rfl
  simp only [childSlot, hplace, childSlot?, resolveIndex]
  generalize (if index < 0 then index + Int32.ofNat e.children.length else index) = place
  change Except.ok _ = _
  congr 1
  split <;> rfl

theorem childSlot?_eq {e : Element} (h : e.children.length < 2 ^ 31) (index : Int32) :
    e.childSlot? index = entryAt? ((List.range e.children.length).map .child) index.toInt := by
  rw [childSlot?, entryAt?_map]
  congr 1
  ext i
  rw [resolveIndex_eq_some h, entryAt?, List.length_range]
  split_ifs with hfront hback
  · rw [List.getElem?_range (by omega), Option.some.injEq]
    omega
  · rw [List.getElem?_range (by omega), Option.some.injEq]
    omega
  · simp only [iff_false]
    omega

/-! ## Significant children -/

/-- The slots of the significant ones among children that stand in a row from the place `p` on. -/
def significantRow (p : Nat) (cs : List Element) : List Slot :=
  ((cs.zipIdx p).filter (·.1.significant)).map fun q => .child q.2

theorem significantRow_cons (p : Nat) (c : Element) (cs : List Element) :
    significantRow p (c :: cs) =
      (if c.significant then [.child p] else []) ++ significantRow (p + 1) cs := by
  rw [significantRow, List.zipIdx_cons, List.filter_cons]
  split <;> rfl

theorem significantRow_concat (p : Nat) (cs : List Element) (c : Element) :
    significantRow p (cs ++ [c]) =
      significantRow p cs ++ if c.significant then [.child (p + cs.length)] else [] := by
  rw [significantRow, List.zipIdx_append, List.filter_append, List.map_append]
  congr 1
  simp only [List.zipIdx_cons, List.zipIdx_nil, List.filter_cons, List.filter_nil]
  split <;> rfl

/-- The walk from the front, at the place `p` with `n` significant children to be passed over. -/
theorem walkFromFront_eq {length : Nat} (h : length < 2 ^ 31) {cs : List Element} {p n : Nat}
    {index loc : Int32} (hp : p + cs.length = length) (hloc : loc.toInt = p) (hindex : index.toInt = n) :
    walkFromFront (Int32.ofNat length) index loc cs = .ok (significantRow p cs)[n]? := by
  induction cs generalizing p n index loc with
  | nil => rfl
  | cons c cs ih =>
    rw [List.length_cons] at hp
    have hsize := Int32.toInt_ofNat_of_lt h
    have hrow : loc < Int32.ofNat length := by
      rw [Int32.lt_iff_toInt_lt]
      omega
    obtain ⟨next, hadd, hnext⟩ := Checked.add_one (a := loc) (by omega)
    obtain ⟨left, hsub, hleft⟩ := Checked.sub_one (a := index) (by omega)
    rw [walkFromFront, if_pos hrow, hadd, hsub, significantRow_cons]
    by_cases hc : c.significant = true
    · rw [if_pos hc, if_pos hc]
      change (if 0 ≤ left then _ else _) = _
      cases n with
      | zero =>
        have hdone : ¬ 0 ≤ left := by
          rw [Int32.le_iff_toInt_le, hleft, hindex]
          decide
        rw [if_neg hdone, Int32.toNatClampNeg, hloc, Int.toNat_natCast]
        rfl
      | succ n =>
        have hmore : 0 ≤ left := by
          rw [Int32.le_iff_toInt_le, Int32.toInt_zero]
          omega
        rw [if_pos hmore]
        exact ih (by omega) (by omega) (by omega)
    · rw [if_neg hc, if_neg hc]
      exact ih (by omega) (by omega) hindex

/-- The walk from the back over children in reverse, with `n` significant ones to be passed over. -/
theorem walkFromBack_eq {cs : List Element} (h : cs.length < 2 ^ 31) {n : Nat} {index loc : Int32}
    (hloc : loc.toInt = cs.length - 1) (hindex : index.toInt = -(n + 1)) :
    walkFromBack index loc cs = .ok (significantRow 0 cs.reverse).reverse[n]? := by
  induction cs generalizing n index loc with
  | nil => rfl
  | cons c cs ih =>
    rw [List.length_cons] at h hloc
    have hrow : 0 ≤ loc := by
      rw [Int32.le_iff_toInt_le, Int32.toInt_zero]
      omega
    obtain ⟨next, hsub, hnext⟩ := Checked.sub_one (a := loc) (by omega)
    obtain ⟨left, hadd, hleft⟩ := Checked.add_one (a := index) (by omega)
    rw [walkFromBack, if_pos hrow, hsub, hadd, List.reverse_cons, significantRow_concat]
    by_cases hc : c.significant = true
    · rw [if_pos hc, if_pos hc, List.reverse_append]
      change (if index < -1 then _ else _) = _
      have hlast : (-1 : Int32).toInt = -1 := rfl
      cases n with
      | zero =>
        have hdone : ¬ index < -1 := by
          rw [Int32.lt_iff_toInt_lt]
          omega
        have hplace : loc.toNatClampNeg = cs.reverse.length := by
          rw [Int32.toNatClampNeg, List.length_reverse]
          omega
        rw [if_neg hdone, hplace, Nat.zero_add]
        rfl
      | succ n =>
        have hmore : index < -1 := by
          rw [Int32.lt_iff_toInt_lt]
          omega
        rw [if_pos hmore]
        exact ih (by omega) (by omega) (by omega)
    · rw [if_neg hc, if_neg hc, List.append_nil]
      exact ih (by omega) (by omega) hindex

/-- Below 2^31 children, the walks give the significant child under each index, and nothing that is counted on
the way is refused. -/
theorem significantSlot_eq {e : Element} (h : e.children.length < 2 ^ 31) (index : Int32) :
    e.significantSlot index = .ok (entryAt? e.significantSlots index.toInt) := by
  have hsize := Int32.toInt_ofNat_of_lt h
  unfold significantSlot
  by_cases hpos : 0 ≤ index
  · obtain ⟨n, hn⟩ := Int.eq_ofNat_of_zero_le (Int32.le_iff_toInt_le.1 hpos)
    rw [if_pos hpos, hn, entryAt?_natCast]
    exact walkFromFront_eq h (Nat.zero_add _) rfl hn
  · obtain ⟨n, hn⟩ : ∃ n : Nat, index.toInt = -(n + 1) := by
      have hneg : index.toInt < 0 := Int.not_le.1 fun hle => hpos (Int32.le_iff_toInt_le.2 hle)
      exact ⟨(-index.toInt - 1).toNat, by omega⟩
    obtain ⟨last, hsub, hlast⟩ := Checked.sub_one (a := Int32.ofNat e.children.length) (by omega)
    have hlength : e.children.reverse.length = e.children.length := List.length_reverse
    have hwalk : walkFromBack index last e.children.reverse = _ :=
      walkFromBack_eq (by omega) (by omega) hn
    rw [if_neg hpos, hn, entryAt?_negSucc, hsub]
    rw [List.reverse_reverse] at hwalk
    exact hwalk

end Element

namespace Forest

/-- Whether a significant element stands at the position. -/
def significant (F : Forest) (q : Position) : Bool := (F.get? q).any Element.significant

theorem significant_of_get? {F : Forest} {q : Position} {d : Element} (hd : F.get? q = some d) :
    F.significant q = d.significant := by
  rw [significant, hd, Option.any_some]

theorem children_of_get? {F : Forest} {r : Position} {e : Element} (he : F.get? r = some e) :
    F.children r = ((List.range e.children.length).map .child).map r.push := by
  rw [children, he, List.map_map]
  rfl

theorem significantChildren_of_get? {F : Forest} {r : Position} {e : Element} (he : F.get? r = some e) :
    F.significantChildren r = e.significantSlots.map r.push := by
  rw [significantChildren, he]

/-- The significant children are the significant ones among the children. -/
theorem significantChildren_eq (F : Forest) (r : Position) :
    F.significantChildren r = (F.children r).filter F.significant := by
  cases he : F.get? r with
  | none => simp [significantChildren, children, he]
  | some e =>
    have hplaces : (List.range e.children.length) = e.children.zipIdx.map (·.2) := by
      rw [List.zipIdx_map_snd, List.range_eq_range']
    rw [significantChildren_of_get? he, children_of_get? he, hplaces, Element.significantSlots]
    simp only [List.map_map, List.filter_map]
    congr 1
    refine List.filter_congr fun p hp => ?_
    obtain ⟨c, i⟩ := p
    have hc : F.get? (r.push (.child i)) = some c := by
      rw [get?_push, he]
      exact List.mem_zipIdx_iff_getElem?.1 hp
    exact (significant_of_get? hc).symm

theorem length_significantChildren (F : Forest) (r : Position) :
    (F.significantChildren r).length = F.significantCount r := by
  cases he : F.get? r with
  | none => simp [significantChildren, significantCount, he]
  | some e =>
    rw [significantChildren_of_get? he, significantCount, he, List.length_map,
      Element.significantSlots, List.length_map, ← List.countP_eq_length_filter]
    have hfst := List.countP_map (p := Element.significant) (f := Prod.fst) (l := e.children.zipIdx)
    rw [List.zipIdx_map_fst] at hfst
    exact hfst.symm

/-- A step to a child leads to the entry under its index. -/
theorem step?_child {F : Forest} {r : Position} (h : (F.children r).length < 2 ^ 31) (index : Int32) :
    F.step? r ⟨.child, index⟩ = entryAt? (F.children r) index.toInt := by
  unfold step?
  cases he : F.get? r with
  | none => simp [children, he, entryAt?]
  | some e =>
    have hlen : e.children.length < 2 ^ 31 := by rwa [← length_children he]
    change (e.childSlot? index).map r.push = _
    rw [Element.childSlot?_eq hlen, children_of_get? he, entryAt?_map r.push]

theorem childAt_eq {F : Forest} {r : Position} (h : (F.children r).length < 2 ^ 31) (index : Int32) :
    F.childAt r index = .ok (entryAt? (F.children r) index.toInt) := by
  rw [← step?_child h, childAt, step?]
  cases he : F.get? r with
  | none => rfl
  | some e =>
    have hlen : e.children.length < 2 ^ 31 := by rwa [← length_children he]
    change (e.childSlot index).map (Option.map r.push) = _
    rw [Element.childSlot_eq hlen]
    rfl

theorem significantAt_eq {F : Forest} {r : Position} (h : (F.children r).length < 2 ^ 31)
    (index : Int32) :
    F.significantAt r index = .ok (entryAt? (F.significantChildren r) index.toInt) := by
  unfold significantAt
  cases he : F.get? r with
  | none => simp [significantChildren, he, entryAt?]
  | some e =>
    have hlen : e.children.length < 2 ^ 31 := by rwa [← length_children he]
    change (e.significantSlot index).map (Option.map r.push) = _
    rw [Element.significantSlot_eq hlen, significantChildren_of_get? he, entryAt?_map r.push]
    rfl

/-- **Children under their indices.** In a node with fewer than 2^31 children, the index of a child
is its place in the list of the children, counted from the end if it is negative, and the
same holds for the significant children and the list that keeps these only; any other index stands for
no child. This is so for every 32-bit index, and no number that is formed on the way leaves the 32 bits. -/
theorem childAt_exact (F : Forest) (r : Position) (h : (F.children r).length < 2 ^ 31) (index : Int32) :
    F.significantChildren r = (F.children r).filter F.significant ∧
    (F.significantChildren r).length = F.significantCount r ∧
    F.significantAt r index = .ok (entryAt? (F.significantChildren r) index.toInt) ∧
    F.childAt r index = .ok (entryAt? (F.children r) index.toInt) :=
  ⟨F.significantChildren_eq r, F.length_significantChildren r, significantAt_eq h index,
    childAt_eq h index⟩

/-- A node with a literal and a group among blanks and a comment. The group has a start and a finish and
holds a blank. -/
def spaced : Forest :=
  let token (kind : TokenKind) (content : String) : Element :=
    .token ⟨kind, content, Version.minimum, none⟩
  ⟨[.node
      [token .whitespace " ", token .literal "a", token .comment "#",
        .group .plain (some (token .delimiter "(")) none [token .whitespace " "]
          (some (token .delimiter ")")),
        token .whitespace " "]]⟩

/-- Two of five children are significant: they have the indices 0 and 1, and from the end -2 and -1. The lowest
and the highest index stand for none. -/
theorem childAt_spaced_exact :
    let r : Position := ⟨0, []⟩
    (spaced.children r).length < 2 ^ 31 ∧ spaced.significantCount r = 2 ∧
    spaced.significantAt r (-2) = .ok (some (r.push (.child 1))) ∧
    spaced.significantAt r 1 = .ok (some (r.push (.child 3))) ∧
    spaced.significantAt r Int32.minValue = .ok none ∧
    spaced.significantAt r Int32.maxValue = .ok none ∧
    spaced.childAt r (-5) = .ok (some (r.push (.child 0))) ∧
    spaced.childAt r Int32.minValue = .ok none := by
  intro r
  have h : (spaced.children r).length < 2 ^ 31 := by decide
  have hexact := childAt_exact spaced r h
  refine ⟨h, ?_, ?_, ?_, ?_, ?_, ?_, ?_⟩
  · rw [← (hexact 0).2.1]
    decide
  · rw [(hexact _).2.2.1]
    decide
  · rw [(hexact _).2.2.1]
    decide
  · rw [(hexact _).2.2.1]
    decide
  · rw [(hexact _).2.2.1]
    decide
  · rw [(hexact _).2.2.2]
    decide
  · rw [(hexact _).2.2.2]
    decide

end Forest

end PatternTree
