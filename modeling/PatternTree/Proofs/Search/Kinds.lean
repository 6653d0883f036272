import Mathlib
import PatternTree.Proofs.Search.Results

/-!
# Searching by kind

A kind can be asked for by its code or by its name. The check whether one kind stands below another looks
at most four kinds up, and this is far enough to find every kind above (`isa_iff_above`), so the kinds are
ordered by it. A name stands for a kind if it is the name of that kind, or is made of it by putting
the qualifier before it once, and for nothing otherwise (`ofName?_eq_some_iff`).

Together they say what a search by kind gives (`find_by_kind`). A code that stands for no kind makes it fail,
a name that stands for no kind does not: it finds nothing.
-/

namespace PatternTree

namespace Kind

/-! ## The hierarchy -/

/-- The second kind is met on the way up from the first one, which starts with the first one itself. -/
def Above : Kind → Kind → Prop := Relation.ReflTransGen fun k b => k.parent = b

theorem above_of_isaWithin {n : Nat} {k base : Kind} (h : isaWithin n k base = true) : k.Above base := by
  induction n generalizing k with
  | zero =>
    obtain rfl : k = base := by simpa [isaWithin] using h
    exact .refl
  | succ n ih =>
    rw [isaWithin, Bool.or_eq_true, beq_iff_eq] at h
    rcases h with rfl | h
    · exact .refl
    · exact .head rfl (ih h)

/-- How many kinds are above, up to the topmost one. -/
def depth : Kind → Nat
  | element => 0
  | node => 1
  | anyToken => 1
  | token _ => 2
  | group => 2
  | capture => 3
  | namedCapture => 4
  | regexp => 3

theorem depth_le (k : Kind) : k.depth ≤ 4 := by
  cases k <;> simp [depth]

theorem depth_parent {k : Kind} (h : k ≠ element) : k.depth = k.parent.depth + 1 := by
  cases k <;> simp_all [depth, parent]

theorem isaWithin_self (n : Nat) (k : Kind) : isaWithin n k k = true := by
  cases n <;> simp [isaWithin]

/-- A kind above is found by looking as far up as there are kinds above. -/
theorem isaWithin_of_above {k base : Kind} (h : k.Above base) {n : Nat} (hn : k.depth ≤ n) :
    isaWithin n k base = true := by
  induction h using Relation.ReflTransGen.head_induction_on generalizing n with
  | refl => exact isaWithin_self n base
  | @head k b hparent _ ih =>
    by_cases htop : k = element
    · -- the topmost kind is above itself, so nothing has been gained by going up
      obtain rfl : b = k := by rw [← hparent, htop]; rfl
      exact ih hn
    · rw [depth_parent htop, hparent] at hn
      obtain ⟨m, rfl⟩ : ∃ m, n = m + 1 := ⟨n - 1, by omega⟩
      have hrest : isaWithin m b base = true := ih (by omega)
      rw [isaWithin, hparent, hrest, Bool.or_true]

theorem isa_iff_above {k base : Kind} : k.isa base = true ↔ k.Above base :=
  ⟨above_of_isaWithin, fun h => isaWithin_of_above h k.depth_le⟩

theorem isa_trans {a b c : Kind} (hab : a.isa b = true) (hbc : b.isa c = true) : a.isa c = true :=
  isa_iff_above.2 ((isa_iff_above.1 hab).trans (isa_iff_above.1 hbc))

/-! ## Codes -/

theorem ofCode?_eq_none_iff {code : Nat} : ofCode? code = none ↔ all.length ≤ code :=
  List.getElem?_eq_none_iff

theorem ofCode?_code (k : Kind) : ofCode? k.code = some k := by
  cases k with
  | token k => cases k <;> rfl
  | _ => rfl

theorem isaCode_eq {k base : Kind} {code : Nat} (h : ofCode? code = some base) :
    k.isaCode code = k.isa base := by
  rw [isaCode, h, Option.any_some]

/-! ## Names -/

theorem mem_all (k : Kind) : k ∈ all := by
  cases k with
  | token k => cases k <;> decide
  | _ => decide

theorem name_injective {a b : Kind} (h : a.name = b.name) : a = b := by
  have hall : ∀ x ∈ all, ∀ y ∈ all, x.name = y.name → x = y := by decide
  exact hall a a.mem_all b b.mem_all h

/-- No kind has a name that starts like a qualified one. -/
theorem not_prefix_name (k : Kind) : ¬ qualifier.toList <+: k.name.toList := by
  have hall : ∀ x ∈ all, ¬ qualifier.toList <+: x.name.toList := by decide
  exact hall k k.mem_all

theorem unqualified_append (name : String) : unqualified (qualifier ++ name) = name := by
  have hq : qualifier.toList.isPrefixOf (qualifier ++ name).toList = true := by simp
  rw [unqualified, if_pos hq, String.toList_append, ← String.length_toList, List.drop_left,
    String.ofList_toList]

theorem unqualified_eq_self {name : String} (h : ¬ qualifier.toList <+: name.toList) :
    unqualified name = name := by
  rw [unqualified, if_neg (mt List.isPrefixOf_iff_prefix.1 h)]

/-- Only the name of a kind, and that name with one qualifier before it, are read as the name. -/
theorem unqualified_eq_name_iff {name : String} {k : Kind} :
    unqualified name = k.name ↔ name = k.name ∨ name = qualifier ++ k.name := by
  constructor
  · intro h
    by_cases hq : qualifier.toList <+: name.toList
    · obtain ⟨rest, hrest⟩ := hq
      have hname : name = qualifier ++ String.ofList rest := by
        rw [← String.toList_inj, String.toList_append, String.toList_ofList, hrest]
      rw [hname, unqualified_append] at h
      exact Or.inr (by rw [hname, h])
    · rw [unqualified_eq_self hq] at h
      exact Or.inl h
  · rintro (rfl | rfl)
    · exact unqualified_eq_self k.not_prefix_name
    · exact unqualified_append k.name

theorem ofName?_eq_some_iff {name : String} {k : Kind} :
    ofName? name = some k ↔ name = k.name ∨ name = qualifier ++ k.name := by
  rw [← unqualified_eq_name_iff, ofName?]
  constructor
  · intro h
    have hk := List.find?_some h
    exact (beq_iff_eq.1 hk).symm
  · intro h
    cases hfind : all.find? fun x => x.name == unqualified name with
    | none =>
      have := List.find?_eq_none.1 hfind k k.mem_all
      simp [h] at this
    | some x =>
      have hx : x.name = unqualified name := by simpa using List.find?_some hfind
      rw [name_injective (hx.trans h)]

end Kind

namespace Forest

/-- Everything of that kind below the node. -/
theorem find_code_eq {σ : Type} {F : Forest} {r : Position} (hr : r ∈ F.positions) (options : Options)
    {code : Nat} {kind : Kind} (hk : Kind.ofCode? code = some kind) (s : σ) :
    (F.find options r (.code code) s).result =
      some ((F.preorder r).filter fun q => r.contains (some q) && F.isa kind q) := by
  obtain ⟨e, he⟩ := mem_positions.1 hr
  have hself : (r.contains (some r) && F.isa kind r) = false := by rw [Position.contains_self, Bool.false_and]
  rw [find_code he options hk, preorder_of_get? he, List.filter_cons, hself]
  refine congrArg some (List.filter_congr fun q hq => ?_)
  rw [((mem_below_parts he).1 hq).2, Bool.true_and, isa]

theorem isa_mono {F : Forest} {a b : Kind} (hab : a.isa b = true) {q : Position} (h : F.isa a q = true) :
    F.isa b q = true := by
  cases hd : F.get? q with
  | none => simp [isa, hd] at h
  | some d =>
    rw [isa_of_get? hd] at h ⊢
    exact Kind.isa_trans h hab

theorem find_name_eq_code {σ : Type} (F : Forest) (options : Options) (r : Position) {name : String}
    {kind : Kind} (h : Kind.ofName? name = some kind) (s : σ) :
    F.find options r (.name name) s = F.find options r (.code kind.code) s := by
  have hresolve : (Selector.name name : Selector σ).resolve? =
      (Selector.code kind.code : Selector σ).resolve? := by
    rw [Selector.resolve?_name h, Selector.resolve?, Kind.ofCode?_code, Option.map_some]
  rw [find, find, hresolve]

/-- No element is of a kind with an unknown name. -/
theorem find_unknown_name {σ : Type} {F : Forest} {r : Position} (hr : r ∈ F.positions) (options : Options)
    {name : String} (h : Kind.ofName? name = none) (s : σ) :
    (F.find options r (.name name) s).result = some [] := by
  obtain ⟨e, he⟩ := mem_positions.1 hr
  have hresolve : (Selector.name name : Selector σ).resolve? = some Predicate.nothing := by
    rw [Selector.resolve?, h]
  rw [find_accepted (P := fun _ => false) he options hresolve (fun _ _ => rfl)]
  simp

/-- **Searching by kind.** A code that stands for no kind makes the search fail, and every other code gives, in
document order, what is below the node and of that kind or of one below it. A name never makes it
fail: the name of a kind, with the qualifier before it once or not at all, gives what the code of the kind
gives, and any other text gives nothing. Whatever is found for a kind is found for the kinds above it, in
the same order. -/
theorem find_by_kind {σ : Type} (F : Forest) (options : Options) (r : Position) (hr : r ∈ F.positions)
    (s : σ) :
    (∀ code, (F.find options r (.code code) s).result = none ↔ Kind.all.length ≤ code) ∧
    (∀ code, code < Kind.all.length → (F.find options r (.code code) s).result =
      some ((F.preorder r).filter fun q =>
        r.contains (some q) && (F.get? q).any fun d => d.kind.isaCode code)) ∧
    (∀ name, ∃ found, (F.find options r (.name name) s).result = some found ∧
      (∀ kind : Kind, name = kind.name ∨ name = "rx::" ++ kind.name →
        (F.find options r (.code kind.code) s).result = some found) ∧
      ((∀ kind : Kind, name ≠ kind.name ∧ name ≠ "rx::" ++ kind.name) → found = [])) ∧
    ∀ (kind : Kind) (base : Nat), kind.isaCode base = true →
      ∃ few many, (F.find options r (.code kind.code) s).result = some few ∧
        (F.find options r (.code base) s).result = some many ∧ few.Sublist many := by
  refine ⟨fun code => ?_, fun code hcode => ?_, fun name => ?_, fun kind base hbase => ?_⟩
  · rw [← Kind.ofCode?_eq_none_iff]
    cases hk : Kind.ofCode? code with
    | none => simp [find, Selector.resolve?, hk]
    | some kind => simp [find_code_eq hr options hk]
  · cases hk : Kind.ofCode? code with
    | none => exact absurd (Kind.ofCode?_eq_none_iff.1 hk) (Nat.not_le.2 hcode)
    | some kind =>
      rw [find_code_eq hr options hk]
      simp only [isa, Kind.isaCode_eq hk]
  · cases hname : Kind.ofName? name with
    | none =>
      refine ⟨[], find_unknown_name hr options hname s, fun kind hkind => ?_, fun _ => rfl⟩
      rw [Kind.ofName?_eq_some_iff.2 hkind] at hname
      cases hname
    | some kind =>
      have hfound := find_code_eq hr options kind.ofCode?_code s
      refine ⟨_, (find_name_eq_code F options r hname s).symm ▸ hfound, fun other hother => ?_, fun hnone => ?_⟩
      · rw [Kind.ofName?_eq_some_iff.2 hother] at hname
        rw [Option.some.inj hname]
        exact hfound
      · rcases Kind.ofName?_eq_some_iff.1 hname with h | h
        · exact absurd h (hnone kind).1
        · exact absurd h (hnone kind).2
  · obtain ⟨b, hb, hkb⟩ : ∃ b, Kind.ofCode? base = some b ∧ kind.isa b = true :=
      (Option.any_eq_true _ _).1 hbase
    refine ⟨_, _, find_code_eq hr options kind.ofCode?_code s, find_code_eq hr options hb s, ?_⟩
    refine List.monotone_filter_right _ fun q hq => ?_
    rw [Bool.and_eq_true] at hq ⊢
    exact ⟨hq.1, isa_mono hkb hq.2⟩

/-- The three captures, one of them a delimiter and one of them named, are found by name with one qualifier, and
a second qualifier finds nothing; 17 is the first code that stands for nothing. Named captures are
captures, so the one that is found for them is among the three. -/
theorem find_sample_by_kind :
    let r : Position := ⟨0, []⟩
    let captures : List Position := [⟨0, [.child 0]⟩, ⟨0, [.child 0, .type]⟩, ⟨0, [.child 0, .child 1]⟩]
    r ∈ sample.positions ∧
    (sample.find {} r (.code 17) ()).result = none ∧
    (sample.find {} r (.code 14) ()).result = some captures ∧
    (sample.find {} r (.name "rx::Structure::Capture") ()).result = some captures ∧
    (sample.find {} r (.name "rx::rx::Structure::Capture") ()).result = some [] ∧
    ∃ few many, (sample.find {} r (.code 15) ()).result = some few ∧ few.length = 1 ∧
      (sample.find {} r (.code 14) ()).result = some many ∧ few.Sublist many := by
  intro r captures
  have hr : r ∈ sample.positions := by decide
  obtain ⟨hcode, hfound, hname, habove⟩ := find_by_kind sample {} r hr ()
  have hcaptures : (sample.find {} r (.code 14) ()).result = some captures := by
    rw [hfound 14 (by decide)]
    decide
  refine ⟨hr, (hcode 17).2 (by decide), hcaptures, ?_, ?_, ?_⟩
  · obtain ⟨found, hresult, hsame, -⟩ := hname "rx::Structure::Capture"
    rw [hresult, ← hsame .capture (Or.inr (by decide))]
    exact hcaptures
  · obtain ⟨found, hresult, -, hnone⟩ := hname "rx::rx::Structure::Capture"
    have hother : ∀ k ∈ Kind.all,
        "rx::rx::Structure::Capture" ≠ k.name ∧ "rx::rx::Structure::Capture" ≠ "rx::" ++ k.name := by
      decide
    rw [hresult, hnone fun kind => hother kind kind.mem_all]
  · obtain ⟨few, many, hfew, hmany, hsub⟩ := habove .namedCapture 14 (by decide)
    have hlength : (sample.find {} r (.code 15) ()).result.map List.length = some 1 := by decide
    have hfew' : (sample.find {} r (.code 15) ()).result = some few := hfew
    rw [hfew'] at hlength
    exact ⟨few, many, hfew', Option.some.inj hlength, hmany, hsub⟩

end Forest

end PatternTree
