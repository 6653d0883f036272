import Mathlib
import PatternTree.Proofs.Text.Tokens
import PatternTree.Proofs.Tree.Order

/-!
# The texts of paths

The text of a path is put together from left to right, with a blank before a step only if something is there
already. No step is written as nothing, so this is the same as joining the texts of the steps
(`pathText_eq_join`). No step holds a blank, so the text can be taken apart again, and a step of one of the
four known methods is told by its text (`text_eq_iff`). Together with what is known of addresses, an
element is told by the text of its address (`pathText_inj`), unless there are more elements than addresses
(`pathText_crowd_eq`).
-/

namespace PatternTree

namespace Method

/-- The methods that lead somewhere, each with a name of its own. -/
def isKnown : Method → Bool
  | other _ => false
  | _ => true

theorem eq_of_name_eq {m n : Method} (hm : m.isKnown = true) (hn : n.isKnown = true)
    (h : m.name = n.name) : m = n := by
  cases m <;> cases n <;> simp_all [name, isKnown]

theorem notMem_name (m : Method) : '(' ∉ m.name.toList ∧ ' ' ∉ m.name.toList := by
  cases m <;> simp [name]

end Method

theorem Slot.isKnown_step (slot : Slot) : slot.step.method.isKnown = true := by
  cases slot <;> rfl

namespace Step

/-! ## One step -/

theorem blank_notMem_repr (i : Int) : ' ' ∉ i.repr.toList := by
  have hdigits : ∀ n : Nat, ' ' ∉ Nat.toDigits 10 n := by
    intro n h
    cases Version.isDigit_toDigits n ' ' h
  rw [Int.repr_eq_if]
  split <;> simp [hdigits]

theorem toList_text (s : Step) :
    s.text.toList = s.method.name.toList ++ '(' :: (s.index.toInt.repr.toList ++ [')']) := by
  simp [text]

theorem text_ne_empty (s : Step) : s.text ≠ "" := by
  rw [← String.toList_inj.ne, toList_text]
  simp

theorem blank_notMem_text (s : Step) : ' ' ∉ s.text.toList := by
  rw [toList_text]
  simp [s.method.notMem_name.2, blank_notMem_repr]

/-- The text of a step tells its index and the name of its method. -/
theorem text_eq_iff {s t : Step} : s.text = t.text ↔ s.method.name = t.method.name ∧ s.index = t.index := by
  constructor
  · intro h
    have hchars := congrArg String.toList h
    rw [toList_text, toList_text] at hchars
    obtain ⟨hname, hrest⟩ := Text.append_cons_inj s.method.notMem_name.1 t.method.notMem_name.1 hchars
    have hindex := String.toList_inj.1 (List.append_cancel_right hrest)
    exact ⟨String.toList_inj.1 hname, Int32.toInt_inj.1 (Int.repr_inj.1 hindex)⟩
  · rintro ⟨hname, hindex⟩
    rw [text, text, hname, hindex]

theorem eq_of_text_eq {s t : Step} (hs : s.method.isKnown = true) (ht : t.method.isKnown = true)
    (h : s.text = t.text) : s = t := by
  obtain ⟨method, index⟩ := s
  obtain ⟨method', index'⟩ := t
  obtain ⟨hname, rfl⟩ := text_eq_iff.1 h
  obtain rfl := Method.eq_of_name_eq hs ht hname
  rfl

/-! ## Steps in a row -/

/-- Once something is there, every further step is put behind a blank. -/
theorem foldl_eq_intercalate (steps : List Step) {acc : String} (hacc : acc ≠ "") :
    steps.foldl (fun acc s => if acc.isEmpty then s.text else acc ++ " " ++ s.text) acc =
      " ".intercalate (acc :: steps.map text) := by
  induction steps generalizing acc with
  | nil => simp
  | cons s steps ih =>
    have hnext : acc ++ " " ++ s.text ≠ "" := by simp
    have hfalse : acc.isEmpty = false := by simpa using hacc
    rw [List.foldl_cons, hfalse, if_neg Bool.false_ne_true, ih hnext, String.intercalate_cons_append,
      List.map_cons, String.intercalate_cons_cons]

theorem pathText_eq_intercalate (steps : List Step) : pathText steps = " ".intercalate (steps.map text) := by
  cases steps with
  | nil => rfl
  | cons s steps => exact foldl_eq_intercalate steps s.text_ne_empty

theorem pathText_eq_join (steps : List Step) : pathText steps = Text.join " " (steps.map .step) := by
  rw [pathText_eq_intercalate, Text.join, List.map_map]
  rfl

/-- Taken apart at its blanks, the text of a path gives the texts of its steps. -/
theorem splitOn_pathText {steps : List Step} (h : steps ≠ []) :
    (pathText steps).toList.splitOn ' ' = steps.map fun s => s.text.toList := by
  rw [pathText_eq_intercalate, String.toList_intercalate, List.map_map]
  refine List.splitOn_intercalate ' ' (fun l hl => ?_) (by simpa using h)
  obtain ⟨s, -, rfl⟩ := List.mem_map.1 hl
  exact s.blank_notMem_text

theorem pathText_cons_ne_empty (s : Step) (steps : List Step) : pathText (s :: steps) ≠ "" := by
  intro h
  have hsplit := splitOn_pathText (List.cons_ne_nil s steps)
  rw [h, List.map_cons] at hsplit
  exact s.text_ne_empty (String.toList_inj.1 (List.cons.inj hsplit).1.symm)

/-- Paths with the same text have steps with the same texts. -/
theorem map_text_eq_of_pathText_eq {p q : List Step} (h : pathText p = pathText q) :
    p.map text = q.map text := by
  cases p with
  | nil =>
    cases q with
    | nil => rfl
    | cons t q => exact absurd h.symm (pathText_cons_ne_empty t q)
  | cons s p =>
    cases q with
    | nil => exact absurd h (pathText_cons_ne_empty s p)
    | cons t q =>
      have hsplit := splitOn_pathText (List.cons_ne_nil s p)
      rw [h, splitOn_pathText (List.cons_ne_nil t q)] at hsplit
      have hchars := congrArg (List.map String.ofList) hsplit
      simpa only [List.map_map, Function.comp_def, String.ofList_toList] using hchars.symm

/-- A path of known methods is told by its text. -/
theorem eq_of_pathText_eq {p q : List Step} (hp : ∀ s ∈ p, s.method.isKnown = true)
    (hq : ∀ s ∈ q, s.method.isKnown = true) (h : pathText p = pathText q) : p = q := by
  have htexts := map_text_eq_of_pathText_eq h
  clear h
  induction p generalizing q with
  | nil => exact (List.map_eq_nil_iff.1 htexts.symm).symm
  | cons s p ih =>
    cases q with
    | nil => cases htexts
    | cons t q =>
      obtain ⟨hs, hp⟩ := List.forall_mem_cons.1 hp
      obtain ⟨ht, hq⟩ := List.forall_mem_cons.1 hq
      obtain ⟨htext, hrest⟩ := List.cons.inj htexts
      rw [eq_of_text_eq hs ht htext, ih hp hq hrest]

end Step

namespace Forest

/-! ## Addresses -/

/-- An address names slots, and uses known methods only. -/
theorem isKnown_of_mem_nav {F : Forest} {r : Position} (hr : r ∈ F.positions) :
    ∀ s ∈ F.nav r, s.method.isKnown = true := by
  intro s hs
  rw [nav_eq hr] at hs
  obtain ⟨slot, -, rfl⟩ := List.mem_map.1 hs
  exact slot.isKnown_step

/-- Elements of one tree with the same address are the same. -/
theorem eq_of_nav_eq {F : Forest} {a b : Position} (hF : F.Addressed a.tree) (ha : a ∈ F.positions)
    (hb : b ∈ F.positions) (ht : a.tree = b.tree) (h : F.nav a = F.nav b) : a = b := by
  have hab := (nav_prefix_iff hF ha hb ht).1 (h ▸ List.prefix_rfl)
  have hba := (nav_prefix_iff (ht ▸ hF) hb ha ht.symm).1 (h ▸ List.prefix_rfl)
  obtain ⟨tree, path⟩ := a
  obtain ⟨tree', path'⟩ := b
  obtain rfl : tree = tree' := ht
  obtain rfl : path = path' := hab.eq_of_length (Nat.le_antisymm hab.length_le hba.length_le)
  rfl

/-- **Paths and elements are told apart by their texts.** Two paths of known methods with any indices have the
same text only if they are the same. Every path, of known methods or not, is written as its steps joined by
blanks. So two elements of a tree whose addresses read the same stand in the same slots all the way up, as far
as 32-bit indices tell these apart, and are one element where no node of the tree has more than 2^32
children. The bound is exact: in every other tree two elements have addresses that read the same. -/
theorem pathText_inj :
    (∀ p q : List Step, (∀ s ∈ p, s.method.isKnown = true) → (∀ s ∈ q, s.method.isKnown = true) →
      Step.pathText p = Step.pathText q → p = q) ∧
    (∀ steps : List Step, Step.pathText steps = Text.join " " (steps.map .step)) ∧
    (∀ F : Forest, ∀ a ∈ F.positions, ∀ b ∈ F.positions, a.tree = b.tree →
      Step.pathText (F.nav a) = Step.pathText (F.nav b) →
        a.path.map Slot.step = b.path.map Slot.step ∧ (F.Addressed a.tree → a = b)) ∧
    ∀ (F : Forest) (tree : Nat), ¬ F.Addressed tree →
      ∃ a ∈ F.positions, ∃ b ∈ F.positions, a.tree = tree ∧ b.tree = tree ∧ a ≠ b ∧
        Step.pathText (F.nav a) = Step.pathText (F.nav b) := by
  refine ⟨fun p q => Step.eq_of_pathText_eq, Step.pathText_eq_join, ?_, ?_⟩
  · intro F a ha b hb ht h
    have hnav := Step.eq_of_pathText_eq (isKnown_of_mem_nav ha) (isKnown_of_mem_nav hb) h
    refine ⟨?_, fun hF => eq_of_nav_eq hF ha hb ht hnav⟩
    rwa [nav_eq ha, nav_eq hb] at hnav
  · intro F tree hF
    obtain ⟨r, -, ht, hr⟩ := not_addressed_iff.1 hF
    refine ⟨_, hr.first_mem, _, hr.last_mem, ht, ht, hr.first_ne_last, ?_⟩
    rw [hr.nav_last]

/-- One index of two digits is not taken for two steps, nor a sign for anything else; and the type of the first
capture is not taken for its first child. -/
theorem pathText_sample_inj :
    let p : List Step := [⟨.child, 1⟩, ⟨.child, 2⟩]
    let q : List Step := [⟨.child, -12⟩]
    let a : Position := ⟨0, [.child 0, .type]⟩
    let b : Position := ⟨0, [.child 0, .child 0]⟩
    (∀ s ∈ p ++ q, s.method.isKnown = true) ∧ Step.pathText p ≠ Step.pathText q ∧
    Step.pathText p = Text.join " " (p.map .step) ∧
    a ∈ sample.positions ∧ b ∈ sample.positions ∧ sample.Addressed 0 ∧
    Step.pathText (sample.nav a) ≠ Step.pathText (sample.nav b) := by
  intro p q a b
  have hp : ∀ s ∈ p, s.method.isKnown = true := by decide
  have hq : ∀ s ∈ q, s.method.isKnown = true := by decide
  have ha : a ∈ sample.positions := by decide
  have hb : b ∈ sample.positions := by decide
  have hF : sample.Addressed 0 := by unfold Addressed; decide
  obtain ⟨hpaths, hjoin, helements, -⟩ := pathText_inj
  refine ⟨by decide, fun h => ?_, hjoin p, ha, hb, hF, fun h => ?_⟩
  · have hpq := hpaths p q hp hq h
    exact absurd hpq (by decide)
  · have hab := (helements sample a ha b hb rfl h).2 hF
    exact absurd hab (by decide)

/-- With one child more than there are indices, the addresses of the first child and of the last read the
same. -/
theorem pathText_crowd_eq :
    ⟨0, [.child 0]⟩ ∈ (crowd (2 ^ 32 + 1)).positions ∧
    ⟨0, [.child (2 ^ 32)]⟩ ∈ (crowd (2 ^ 32 + 1)).positions ∧
    (⟨0, [.child 0]⟩ : Position) ≠ ⟨0, [.child (2 ^ 32)]⟩ ∧
    Step.pathText ((crowd (2 ^ 32 + 1)).nav ⟨0, [.child 0]⟩) = "child(0)" ∧
    Step.pathText ((crowd (2 ^ 32 + 1)).nav ⟨0, [.child (2 ^ 32)]⟩) = "child(0)" := by
  have hcrowd := crowd_crowded
  have hfirst : ⟨0, [.child 0]⟩ ∈ (crowd (2 ^ 32 + 1)).positions := hcrowd.first_mem
  have htext : Step.pathText ((crowd (2 ^ 32 + 1)).nav ⟨0, [.child 0]⟩) = "child(0)" := by
    rw [nav_eq hfirst]
    decide +kernel
  refine ⟨hfirst, hcrowd.last_mem, hcrowd.first_ne_last, htext, ?_⟩
  exact (congrArg Step.pathText hcrowd.nav_last).trans htext

end Forest

end PatternTree
