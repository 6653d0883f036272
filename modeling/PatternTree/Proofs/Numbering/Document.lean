import Mathlib
import PatternTree.Proofs.Numbering.History
import PatternTree.Proofs.Search.Results

/-!
# Numbers in document order

A numbering pass goes through children only, a search goes through all parts. As long as no delimiter is
a capture or contains one, both come to the same captures in the same order (`captures_eq_filter`), so
the captures that a search finds are numbered one after the other
(`number_in_document_order`).
-/

namespace PatternTree

/-- The element is the start, the type or the finish of the node that holds it. -/
def Position.isDelimiter (r : Position) : Bool := r.path.getLast?.any fun slot => !slot.isChild

namespace Element

/-- A capture is known by its kind. -/
theorem isSome_captureForm? (e : Element) : e.captureForm?.isSome = e.kind.isa .capture := by
  cases e with
  | token t => rfl
  | node children => rfl
  | group form start type children finish => cases form <;> rfl

/-- What is reached through children is met in the order of everything else. -/
theorem childPaths_sublist (e : Element) : e.childPaths.Sublist e.paths := by
  induction e using induction_parts with
  | h e ih =>
    rw [childPaths_eq, paths_eq, ← filter_parts]
    refine .cons_cons [] ?_
    -- some parts are left out, and of the others something below them
    exact (List.filter_sublist.flatMap _).trans
      (List.Sublist.flatMap_right _ fun p hp => (ih p hp).map _)

end Element

namespace Forest

theorem isCapture_eq (F : Forest) : F.isCapture = F.isa .capture := by
  funext q
  simp [isCapture, isa, Element.isSome_captureForm?]

theorem captures_sublist (F : Forest) (r : Position) : (F.captures r).Sublist (F.preorder r) := by
  refine List.filter_sublist.trans ?_
  unfold childOrder preorder
  cases F.get? r with
  | none => exact .slnil
  | some e => exact e.childPaths_sublist.map r.extend

theorem nodup_captures (F : Forest) (r : Position) : (F.captures r).Nodup :=
  (F.nodup_preorder r).sublist (F.captures_sublist r)

/-- The captures of a pass are those that it reaches. -/
theorem mem_captures {F : Forest} {r c : Position} :
    c ∈ F.captures r ↔ F.isCapture c = true ∧ F.Reaches r c := by
  rw [captures, List.mem_filter, and_comm]
  exact and_congr_right fun hc => mem_childOrder (mem_positions_of_isCapture hc)

/-! ## Plain delimiters -/

/-- No delimiter below the element is a capture or contains one. -/
def PlainDelimiters (F : Forest) (r : Position) : Prop :=
  ∀ d ∈ F.positions, r.contains (some d) = true → d.isDelimiter = true →
    ∀ q ∈ F.preorder d, F.isCapture q = false

/-- If all slots on the way down are those of children, the way leads through children. -/
theorem reaches_of_isChild {F : Forest} {r q : Position} (hq : q ∈ F.positions)
    (hrq : r.ancestorOf (some q) = true)
    (hway : ∀ n slot, r.ancestorOf (some n) = true → (n.push slot).ancestorOf (some q) = true →
      slot.isChild = true) : F.Reaches r q := by
  induction q using Position.push_induction with
  | root tree =>
    obtain rfl : ⟨tree, []⟩ = r := by simpa [Position.ancestorOf] using hrq
    exact .refl
  | push n slot ih =>
    rcases Position.ancestorOf_iff_eq_or.1 hrq with rfl | hrn
    · exact .refl
    · rw [Position.contains_push] at hrn
      have hn := mem_positions_of_ancestorOf hq (Position.ancestorOf_push n slot)
      have hreach := ih hn hrn fun m a hm ha =>
        hway m a hm (Position.ancestorOf_trans ha (Position.ancestorOf_push n slot))
      have hchild := hway n slot hrn (Position.ancestorOf_self _)
      refine .tail hreach ?_
      obtain ⟨e, he, hpart⟩ := push_mem_positions.1 hq
      cases slot with
      | child i => exact mem_children.2 ⟨e, i, he, by simpa [Element.part?] using hpart, rfl⟩
      | start => cases hchild
      | type => cases hchild
      | finish => cases hchild

/-- Where delimiters are plain, a pass reaches all captures. -/
theorem captures_eq_filter {F : Forest} {r : Position} (h : F.PlainDelimiters r) :
    F.captures r = (F.preorder r).filter F.isCapture := by
  refine eq_filter_of_sublist (F.captures_sublist r) fun q hq => ?_
  obtain ⟨hqF, hrq⟩ := mem_preorder.1 hq
  rw [mem_captures, and_iff_left_iff_imp]
  intro hcapture
  -- a delimiter on the way down to a capture would contain it
  refine reaches_of_isChild hqF hrq fun n slot hn hslot => ?_
  by_contra hdelimiter
  have hplain := h (n.push slot) (mem_positions_of_ancestorOf hqF hslot) (by rwa [Position.contains_push])
    (by simpa [Position.isDelimiter] using hdelimiter) q (mem_preorder.2 ⟨hqF, hslot⟩)
  rw [hcapture] at hplain
  cases hplain

theorem mem_captures_of_plain {F : Forest} {r c : Position} (h : F.PlainDelimiters r) :
    c ∈ F.captures r ↔ F.isCapture c = true ∧ r.ancestorOf (some c) = true := by
  rw [captures_eq_filter h, List.mem_filter, mem_preorder, and_comm]
  exact and_congr_right fun hc => and_iff_right (mem_positions_of_isCapture hc)

end Forest

/-! ## Numbers in a row -/

namespace Numbering

theorem map_fst_numbered (n : UInt32) (l : List Position) : (numbered n l).map (·.1) = l := by
  induction l generalizing n with
  | nil => rfl
  | cons r l ih => rw [numbered, List.map_cons, ih]

theorem map_snd_numbered (n : UInt32) (l : List Position) :
    (numbered n l).map (·.2) = (List.range l.length).map fun i => n + UInt32.ofNat i := by
  induction l generalizing n with
  | nil => rfl
  | cons r l ih =>
    rw [numbered, List.map_cons, ih, List.length_cons, List.range_succ_eq_map, List.map_cons,
      List.map_map]
    simp [add_one_add_ofNat, Function.comp_def]

theorem add_ofNat (n : UInt32) (k : Nat) : n + UInt32.ofNat k = UInt32.ofNat (n.toNat + k) := by
  rw [UInt32.ofNat_add, UInt32.ofNat_toNat]

/-- Numbers in a row differ as long as there are no more of them than words. -/
theorem nodup_row (n : UInt32) {k : Nat} (hk : k ≤ 2 ^ 32) :
    ((List.range k).map fun i => UInt32.ofNat (n.toNat + i)).Nodup := by
  refine List.nodup_range.map_on fun i hi j hj hij => ?_
  have hmod := congrArg UInt32.toNat hij
  rw [List.mem_range] at hi hj
  simp only [UInt32.toNat_ofNat'] at hmod
  omega

end Numbering

namespace Session

/-- A capture keeps the number that a pass gives to it, whatever it had before. -/
theorem number?_record {S : Session} {p : Pass} (hp : (p.assigned.map (·.1)).Nodup)
    {a : Position × UInt32} (ha : a ∈ p.assigned) : (S.record p).number? a.1 = some a.2 := by
  obtain ⟨before, after, hsplit⟩ := List.append_of_mem ha
  rw [hsplit, List.map_append, List.map_cons] at hp
  have hkeys := (List.nodup_append.1 hp).2.2
  have hlookup : p.assigned.lookup a.1 = some a.2 := by
    refine List.lookup_eq_some_iff.2 ⟨before, after, hsplit, fun b hb => ?_⟩
    exact bne_iff_ne.2 (hkeys b.1 (List.mem_map_of_mem hb) a.1 List.mem_cons_self).symm
  rw [number?, record, List.lookup_append, hlookup, Option.some_or]

theorem next_pass {S : Session} {r : Position} (hr : r ∈ S.forest.positions) (n : UInt32) :
    (S.pass r n).next = UInt32.ofNat (n.toNat + (S.forest.captures r).length) := by
  obtain ⟨e, he⟩ := Forest.mem_positions.1 hr
  rw [pass, he, ← Numbering.add_ofNat]
  exact (Numbering.pass_numbers S.options he n).next

theorem map_fst_assigned (S : Session) (r : Position) (n : UInt32) :
    (S.pass r n).assigned.map (·.1) = S.forest.captures r := by
  rw [assigned_pass, Numbering.map_fst_numbered]

/-- After a pass each capture that it reached has the number that the pass gave to it. -/
theorem number?_of_mem_assigned {S : Session} {r : Position} {n : UInt32} {a : Position × UInt32}
    (ha : a ∈ (S.pass r n).assigned) : (S.record (S.pass r n)).number? a.1 = some a.2 :=
  number?_record (S.map_fst_assigned r n ▸ S.forest.nodup_captures r) ha

/-- Captures that have the numbers from `n` on, one after the other. -/
theorem map_number?_eq {S : Session} {n : UInt32} {rs : List Position}
    (h : ∀ a ∈ Numbering.numbered n rs, S.number? a.1 = some a.2) :
    rs.map S.number? = (List.range rs.length).map fun i => some (UInt32.ofNat (n.toNat + i)) := by
  calc rs.map S.number?
      = ((Numbering.numbered n rs).map (·.1)).map S.number? := by rw [Numbering.map_fst_numbered]
    _ = ((Numbering.numbered n rs).map (·.2)).map some := by
        rw [List.map_map, List.map_map]
        exact List.map_congr_left h
    _ = (List.range rs.length).map fun i => some (UInt32.ofNat (n.toNat + i)) := by
        rw [Numbering.map_snd_numbered, List.map_map]
        simp only [Numbering.add_ofNat, Function.comp_def]

/-- The numbers that a pass gives are in a row. -/
theorem map_number?_captures (S : Session) (r : Position) (n : UInt32) :
    (S.forest.captures r).map (S.record (S.pass r n)).number? =
      (List.range (S.forest.captures r).length).map fun i => some (UInt32.ofNat (n.toNat + i)) :=
  map_number?_eq fun _ ha => number?_of_mem_assigned (S.assigned_pass r n ▸ ha)

/-- **Numbers in document order.** Let no delimiter below an element be a capture or contain one. When the
element's captures are numbered from `n` on, those at or below it, first the element itself if it is one
and then what a search for captures finds, named or not, get the numbers `n`, `n + 1` and so on modulo
2^32, and the answer is the number after the last. So none is left without a number, and no two have
the same as long as there are at most 2^32 of them. -/
theorem number_in_document_order {σ : Type} (S : Session) (r : Position) (hr : r ∈ S.forest.positions)
    (hplain : S.forest.PlainDelimiters r) (n : UInt32) (s : σ) :
    let after := (S.perform (.number r n)).2.2
    ∃ found, (S.forest.find S.options r (.name "Structure::Capture") s).result = some found ∧
      ∃ captures, captures = (if S.forest.isCapture r then [r] else []) ++ found ∧
        (∀ c, c ∈ captures ↔ S.forest.isCapture c = true ∧ r.ancestorOf (some c) = true) ∧
        captures.map after.number? =
          (List.range captures.length).map (fun i => some (UInt32.ofNat (n.toNat + i))) ∧
        (S.perform (.number r n)).1 = .next (UInt32.ofNat (n.toNat + captures.length)) ∧
        (∀ c, S.forest.isCapture c = true → r.ancestorOf (some c) = true →
          ∃ m, after.number? c = some m) ∧
        (captures.length ≤ 2 ^ 32 → (captures.map after.number?).Nodup) := by
  intro after
  have hname : Kind.ofName? "Structure::Capture" = some .capture := by decide +kernel
  obtain ⟨found, hfound, hfilter⟩ := Forest.find_kind_eq hr S.options (Selector.resolve?_name hname) s
  rw [← S.forest.isCapture_eq, ← Forest.captures_eq_filter hplain] at hfilter
  have hafter : after = S.record (S.pass r n) := rfl
  have hnumbers := S.map_number?_captures r n
  rw [← hafter] at hnumbers
  refine ⟨found, hfound, S.forest.captures r, hfilter, fun c => Forest.mem_captures_of_plain hplain,
    hnumbers, congrArg Reply.next (next_pass hr n), fun c hc hrc => ?_, fun hk => ?_⟩
  · have hmem := List.mem_map_of_mem (f := after.number?)
      ((Forest.mem_captures_of_plain hplain).2 ⟨hc, hrc⟩)
    rw [hnumbers] at hmem
    obtain ⟨i, -, hi⟩ := List.mem_map.1 hmem
    exact ⟨_, hi.symm⟩
  · rw [hnumbers]
    have hrow := (Numbering.nodup_row n hk).map (Option.some_injective UInt32)
    rwa [List.map_map] at hrow

/-- A capture with plain delimiters holds a named capture inside a group and another capture. It is numbered
from the last number on, and the two others get the numbers zero and one. -/
theorem number_nested_in_document_order :
    let nested : Element := .group .capture (some (.token ⟨.delimiter, "(", Version.minimum, none⟩)) none
      [.group .plain none none [.group (.named "n") none none [] none] none,
        .group .capture none none [] none] none
    let S := start ⟨[.node [nested]]⟩ {}
    let r : Position := ⟨0, [.child 0]⟩
    let found := [r.extend [.child 0, .child 0], r.push (.child 1)]
    r ∈ S.forest.positions ∧ S.forest.PlainDelimiters r ∧ S.forest.isCapture r = true ∧
    (S.forest.find {} r (.name "Structure::Capture") ()).result = some found ∧
    (r :: found).map (S.perform (.number r 4294967295)).2.2.number? = [some 4294967295, some 0, some 1] ∧
    (S.perform (.number r 4294967295)).1 = .next 2 := by
  intro nested S r found
  have hr : r ∈ S.forest.positions := by decide
  have hplain : S.forest.PlainDelimiters r := by unfold Forest.PlainDelimiters; decide
  have hcapture : S.forest.isCapture r = true := by decide
  have hfound : (S.forest.find {} r (.name "Structure::Capture") ()).result = some found := by
    decide +kernel
  obtain ⟨found', hfound', captures, rfl, -, hnumbers, hnext, -⟩ :=
    number_in_document_order S r hr hplain 4294967295 ()
  obtain rfl : found = found' := Option.some.inj (hfound.symm.trans hfound')
  rw [if_pos hcapture] at hnumbers hnext
  exact ⟨hr, hplain, hcapture, hfound, hnumbers.trans (by decide), hnext.trans (by decide)⟩

end Session

end PatternTree
