import PatternTree.Proofs.Lists
import PatternTree.Proofs.Store.Climb
import PatternTree.Proofs.Store.Links

/-!
# Sound links after every request

A request takes its parts out of the maker's results, so that parts and results together are what the
results were before (`handOver_perm`). From there it comes to an end without a crash, and the
links are sound again (`perform_sound`); so they are after any requests in a row. In a store with sound
links every way up leads to a later cell each time, hence to a root (`Sound.exists_top`).
-/

namespace PatternTree

namespace Request

/-! ## What is handed over -/

section

variable {α : Type}

theorem take_perm (results : List (Option α)) (k : Option Nat) :
    ((take results k).1.toList ++ (take results k).2.filterMap id).Perm (results.filterMap id) := by
  cases k with
  | none => exact .refl _
  | some k =>
    simp only [take]
    induction results generalizing k with
    | nil => simp
    | cons a results ih =>
      cases k with
      | zero => cases a <;> simp
      | succ k =>
        cases a with
        | none => simpa using ih k
        | some a =>
          simp only [List.getElem?_cons_succ, List.set_cons_succ]
          exact List.perm_middle.trans ((ih k).cons a)

theorem takeAll_perm (results : List (Option α)) (ks : List (Option Nat)) :
    ((takeAll results ks).1.filterMap id ++ (takeAll results ks).2.filterMap id).Perm
      (results.filterMap id) := by
  induction ks generalizing results with
  | nil => exact .refl _
  | cons k ks ih =>
    have hcons : (takeAll results (k :: ks)).1.filterMap id =
        (take results k).1.toList ++ (takeAll (take results k).2 ks).1.filterMap id := by
      simp only [takeAll]
      cases (take results k).1 <;> simp
    rw [hcons, List.append_assoc]
    exact ((ih (take results k).2).append_left _).trans (take_perm results k)

/-- Nothing is lost and nothing doubled when parts are handed over. -/
theorem handOver_perm (results : List (Option α)) (q : Request (Option Nat)) :
    ((q.handOver results).1.parts ++ (q.handOver results).2.filterMap id).Perm
      (results.filterMap id) := by
  cases q with
  | token kind content introduced removed => exact .refl _
  | node children => exact takeAll_perm results children
  | group heading start type children finish =>
    simp only [handOver, parts, List.append_assoc]
    refine .trans ?_ (take_perm results start)
    refine .append_left _ (.trans ?_ (take_perm _ type))
    refine .append_left _ (.trans ?_ (takeAll_perm _ children))
    exact .append_left _ (take_perm _ finish)

end

end Request

theorem Form.isNode_kind (form : Form) : form.kind.isNode = true := by
  cases form <;> rfl

namespace Request

/-! ## What is asked for -/

/-- An element that can be made has the parts that were given, and it is a token or of a kind of
nodes. -/
theorem shape?_eq_some {q : Request (Option Handle)} {shape : Shape} (h : q.shape? = some shape) :
    shape.elements = q.parts ∧ ((∃ t, shape = .token t) ∨ shape.kind.isNode = true) := by
  cases q with
  | token kind content introduced removed =>
    obtain ⟨t, -, rfl⟩ := Option.map_eq_some_iff.1 h
    exact ⟨rfl, Or.inl ⟨t, rfl⟩⟩
  | node children =>
    obtain ⟨hs, hchildren, rfl⟩ := Option.map_eq_some_iff.1 h
    obtain rfl := List.mapM_id_eq_some_iff.1 hchildren
    exact ⟨by simp [parts], Or.inr rfl⟩
  | group heading start type children finish =>
    obtain ⟨form, -, hform⟩ := Option.bind_eq_some_iff.1 h
    obtain ⟨hs, hchildren, hgroup⟩ := Option.bind_eq_some_iff.1 hform
    obtain rfl := Option.some.inj hgroup
    obtain rfl := List.mapM_id_eq_some_iff.1 hchildren
    exact ⟨by simp [parts], Or.inr form.isNode_kind⟩

end Request

namespace Store

/-! ## One request -/

/-- The parts that a request was given are loose beside the results, and linked to nobody. -/
structure Ready (s : Store) (q : Request (Option Handle)) : Prop where
  linked : Linked s (q.parts ++ s.roots)
  free : ∀ x ∈ q.parts ++ s.roots, s.parent? x = none

theorem Sound.ready {s : Store} (h : Sound s) (q : Request (Option Nat)) :
    Ready { s with results := (q.handOver s.results).2 } (q.handOver s.results).1 where
  linked := (h.linked.perm (q.handOver_perm s.results).symm).of_cell? fun _ => rfl
  free x hx := h.free x ((q.handOver_perm s.results).mem_iff.1 hx)

/-- What a request did to a store, with its result still to be kept: it added the element asked for,
or it cleared the parts and left what is still there as it was. -/
inductive Made (s : Store) (q : Request (Option Handle)) : Store → Option Handle → Prop where
  | granted {shape : Shape} {t : Store} (hshape : q.shape? = some shape) (hadds : Adds s shape t) :
      Made s q t (some s.cells.length)
  | refused {t : Store} (hshape : q.shape? = none) (hlinked : Linked t s.roots)
      (hkept : ∀ x, t.alive x = true → t.cell? x = s.cell? x) : Made s q t none

/-- Making an element of loose parts never crashes. -/
theorem make_made {s : Store} {q : Request (Option Handle)} (h : Ready s q) :
    ∃ t result, s.make q = .ok (t.keep result) ∧ t.results = s.results ∧ Made s q t result := by
  unfold make
  split
  · rename_i hshape
    obtain ⟨t, ht, hl, hres, hkept⟩ := clear_linked h.linked
    exact ⟨t, none, by rw [ht]; rfl, hres, .refused hshape hl hkept⟩
  · rename_i t hshape
    refine ⟨s.add (.token t), _, rfl, rfl, .granted hshape fun x => ?_⟩
    simp [cell?_add]
  · rename_i shape hnot hshape
    obtain ⟨hparts, hkind⟩ := Request.shape?_eq_some hshape
    obtain ⟨hl, hfree⟩ := h
    rw [← hparts] at hl hfree
    obtain ⟨t, ht, hres, hadds⟩ := construct_adds hl
      (fun x hx => hfree x (List.mem_append_left _ hx))
      (hkind.resolve_left fun ⟨t, ht⟩ => hnot t ht)
    exact ⟨t, _, ht, hres, .granted hshape hadds⟩

/-- What was made leaves sound links, once its result is kept. -/
theorem Made.sound {s t : Store} {q : Request (Option Handle)} {result : Option Handle}
    (hm : Made s q t result) (h : Ready s q) (hres : t.results = s.results) :
    Sound (t.keep result) := by
  obtain ⟨hl, hfree⟩ := h
  have hroots : t.roots = s.roots := by rw [roots, hres, roots]
  cases hm with
  | granted hshape hadds =>
    rename_i shape
    rw [← (Request.shape?_eq_some hshape).1] at hl
    refine ⟨?_, fun r hr => ?_⟩
    · rw [roots_keep, hroots]
      exact ((hl.adds hadds).perm (List.perm_append_singleton _ _).symm).of_cell? fun _ => rfl
    · rw [roots_keep, hroots, Option.toList_some, List.mem_append, List.mem_singleton] at hr
      change t.parent? r = none
      rcases hr with hr | rfl
      · have hnot : r ∉ shape.elements := fun hm => (List.nodup_append'.1 hl.loose_nodup).2.2 hm hr
        have hne := ne_length_of_alive (hl.loose_alive r (List.mem_append_right _ hr))
        rw [parent?, hadds.cell?_other hne hnot]
        exact hfree r (List.mem_append_right _ hr)
      · simp [parent?, hadds.cell?_new]
  | refused hshape hlinked hkept =>
    refine ⟨?_, fun r hr => ?_⟩
    · rw [roots_keep, hroots, Option.toList_none, List.append_nil]
      exact hlinked.of_cell? fun _ => rfl
    · rw [roots_keep, hroots, Option.toList_none, List.append_nil] at hr
      change (t.cell? r).bind Cell.parent = none
      rw [hkept r (hlinked.loose_alive r hr)]
      exact hfree r (List.mem_append_right _ hr)

/-- A request comes to an end without a crash and leaves sound links. -/
theorem perform_sound {s : Store} (h : Sound s) (q : Request (Option Nat)) :
    ∃ t, s.perform q = .ok t ∧ Sound t := by
  obtain ⟨t, result, ht, hres, hm⟩ := make_made (h.ready q)
  exact ⟨_, ht, hm.sound (h.ready q) hres⟩

/-! ## Requests in a row -/

theorem empty_sound : Sound empty where
  linked := ⟨by simp [roots, empty], by simp [roots, empty], by simp [elements, cell?, empty],
    by simp [elements, cell?, empty], by simp [elements, cell?, empty], by simp [alive, cell?, empty],
    by simp [elements, cell?, empty]⟩
  free := by simp [roots, empty]

theorem foldlM_perform_sound {s : Store} (h : Sound s) (requests : List (Request (Option Nat))) :
    ∃ t, requests.foldlM perform s = .ok t ∧ Sound t := by
  induction requests generalizing s with
  | nil => exact ⟨s, rfl, h⟩
  | cons q requests ih =>
    obtain ⟨t, ht, hsound⟩ := perform_sound h q
    obtain ⟨u, hu, husound⟩ := ih hsound
    exact ⟨u, by rw [List.foldlM_cons, ht]; exact hu, husound⟩

/-! ## Ways up -/

/-- One move to the parent. -/
def Up (s : Store) (a b : Handle) : Prop := s.parent? a = some b

/-- The element is `n` or is found by going down from it. -/
def Holds (s : Store) : Handle → Handle → Prop := Relation.ReflTransGen fun n p => p ∈ s.elements n

theorem top_root {s : Store} {h : Handle} (ha : s.alive h = true) (hp : s.parent? h = none) :
    s.top h = some h :=
  climb_root ha hp

theorem top_up {s : Store} {h p : Handle} (hp : s.parent? h = some p) : s.top h = s.top p :=
  climb_up hp rfl

theorem meets_root {s : Store} {n h : Handle} (ha : s.alive h = true) (hp : s.parent? h = none) :
    s.meets n h = some false :=
  climb_root ha hp

theorem meets_up {s : Store} {n h p : Handle} (hp : s.parent? h = some p) :
    s.meets n h = if p = n then some true else s.meets n p := by
  split
  case isTrue hpn => exact climb_early hp (if_pos hpn)
  case isFalse hpn => exact climb_up hp (if_neg hpn)

namespace Sound

variable {s : Store} (hs : Sound s)

include hs

/-- **Induction from the roots down**: what holds of the roots, and of every part of a node of which it
holds, holds of every element. -/
@[elab_as_elim]
theorem induction_up {P : Handle → Prop} (root : ∀ r ∈ s.roots, s.parent? r = none → P r)
    (part : ∀ n p, p ∈ s.elements n → s.parent? p = some n → P n → P p) {p : Handle}
    (hp : s.alive p = true) : P p := by
  -- a holder is a later cell, so the distance to the end of the store goes down
  induction hk : s.cells.length - p using Nat.strongRecOn generalizing p with
  | _ k ih =>
    by_cases hr : p ∈ s.roots
    · exact root p hr (hs.free p hr)
    · obtain ⟨n, hn⟩ := hs.linked.held p hp hr
      obtain ⟨hlt, hlen⟩ := hs.linked.lt_length hn
      have hdown : s.cells.length - n < k := hk ▸ Nat.sub_lt_sub_left (Nat.lt_trans hlt hlen) hlt
      have hrec := ih (s.cells.length - n) hdown (alive_of_mem_elements hn) rfl
      exact part n p hn (hs.linked.parent n p hn) hrec

/-- The way up from an element ends, and it ends at the root of its tree. -/
theorem exists_top {p : Handle} (hp : s.alive p = true) :
    ∃ r ∈ s.roots, Relation.ReflTransGen s.Up p r ∧ s.top p = some r ∧ s.Holds r p := by
  refine hs.induction_up ?_ ?_ hp
  · intro r hr hfree
    exact ⟨r, hr, .refl, top_root (hs.linked.loose_alive r hr) hfree, .refl⟩
  · rintro n p hn hparent ⟨r, hr, hup, htop, hholds⟩
    exact ⟨r, hr, .head hparent hup, (top_up hparent).trans htop, hholds.tail hn⟩

/-- No two trees hold the same element. -/
theorem top_eq_of_holds {r p : Handle} (hr : r ∈ s.roots) (h : s.Holds r p) : s.top p = some r := by
  induction h with
  | refl => exact top_root (hs.linked.loose_alive r hr) (hs.free r hr)
  | tail _ hn ih => exact (top_up (hs.linked.parent _ _ hn)).trans ih

/-- The search upwards for a node ends, and it finds the node if and only if that is above. -/
theorem exists_meets (n : Handle) {p : Handle} (hp : s.alive p = true) :
    ∃ b, s.meets n p = some b ∧ (b = true ↔ Relation.TransGen s.Up p n) := by
  refine hs.induction_up ?_ ?_ hp
  · intro r hr hfree
    refine ⟨false, meets_root (hs.linked.loose_alive r hr) hfree, by simp, fun h => ?_⟩
    obtain ⟨c, hc, -⟩ := Relation.TransGen.head'_iff.1 h
    exact absurd (hfree.symm.trans hc) (by simp)
  · rintro q p hq hparent ⟨b, hb, hiff⟩
    by_cases hqn : q = n
    · subst hqn
      exact ⟨true, by rw [meets_up hparent, if_pos rfl], by simpa using .single hparent⟩
    · refine ⟨b, by rw [meets_up hparent, if_neg hqn, hb], hiff.trans ⟨.head hparent, fun h => ?_⟩⟩
      obtain ⟨c, hc, htail⟩ := Relation.TransGen.head'_iff.1 h
      obtain rfl : q = c := Option.some.inj (hparent.symm.trans hc)
      exact (Relation.reflTransGen_iff_eq_or_transGen.1 htail).resolve_left (Ne.symm hqn)

end Sound

/-- **Links are sound after every sequence of requests**, whatever is asked for and whatever is refused
on the way. No request crashes. The parts of a node are alive and linked to it; an element that is not
a root is a part of exactly one node, once; a root is linked to nobody and is a part of nothing. From
every element the way up ends at the root of the one tree that holds the element, and so does the
search upwards for any node. -/
theorem run_sound (requests : List (Request (Option Nat))) :
    ∃ s, run requests = .ok s ∧
      (∀ n, ∀ p ∈ s.elements n, s.alive p = true ∧ s.parent? p = some n) ∧
      (∀ p, s.alive p = true → p ∉ s.roots →
        (∃! n, p ∈ s.elements n) ∧ ∀ n, p ∈ s.elements n → (s.elements n).count p = 1) ∧
      (∀ r ∈ s.roots, s.alive r = true ∧ s.parent? r = none ∧ ∀ n, r ∉ s.elements n) ∧
      (∀ p, s.alive p = true → ∃ r ∈ s.roots, Relation.ReflTransGen s.Up p r ∧ s.top p = some r ∧
        ∀ r' ∈ s.roots, s.Holds r' p ↔ r' = r) ∧
      ∀ n p, s.alive p = true →
        ∃ b, s.contains n (some p) = some b ∧ (b = true ↔ Relation.TransGen s.Up p n) := by
  obtain ⟨s, hrun, hs⟩ := foldlM_perform_sound empty_sound requests
  have hl := hs.linked
  refine ⟨s, hrun, ?_, ?_, ?_, ?_, ?_⟩
  · intro n p hp
    exact ⟨alive_of_parent? (hl.parent n p hp), hl.parent n p hp⟩
  · intro p hp hr
    obtain ⟨n, hn⟩ := hl.held p hp hr
    refine ⟨⟨n, hn, fun m hm => ?_⟩, fun m hm => List.count_eq_one_of_mem (hl.nodup m) hm⟩
    exact Option.some.inj ((hl.parent m p hm).symm.trans (hl.parent n p hn))
  · intro r hr
    exact ⟨hl.loose_alive r hr, hs.free r hr, fun n hn => hl.not_loose n r hn hr⟩
  · intro p hp
    obtain ⟨r, hr, hup, htop, hholds⟩ := hs.exists_top hp
    refine ⟨r, hr, hup, htop, fun r' hr' => ⟨fun h => ?_, fun h => h ▸ hholds⟩⟩
    exact Option.some.inj ((hs.top_eq_of_holds hr' h).symm.trans htop)
  · intro n p hp
    exact hs.exists_meets n hp

/-- A capture with a start, a node with a missing child, which is refused, and a node around the
capture. -/
def sampleRequests : List (Request (Option Nat)) :=
  let literal (content : String) : Request (Option Nat) :=
    .token (.token .literal) content none none
  [literal "(", literal "a", .group .capture (some 0) none [some 1] none, literal "b",
    .node [some 3, none], .node [some 2]]

theorem run_sample_sound : ∃ s, run sampleRequests = .ok s ∧ s.roots = [4] ∧
    s.alive 3 = false ∧ s.alive 0 = true ∧ (∃! n, 0 ∈ s.elements n) ∧ s.top 0 = some 4 := by
  obtain ⟨s, hs, -, hheld, -, htop, -⟩ := run_sound sampleRequests
  have hsample : (run sampleRequests).map (fun s => (s.roots, s.alive 3, s.alive 0)) =
      .ok ([4], false, true) := by decide +kernel
  rw [hs] at hsample
  obtain ⟨hroots, hcleared, halive⟩ :
      s.roots = [4] ∧ s.alive 3 = false ∧ s.alive 0 = true := by
    simpa [Except.map] using hsample
  obtain ⟨r, hr, -, hr', -⟩ := htop 0 halive
  rw [hroots, List.mem_singleton] at hr
  exact ⟨s, hs, hroots, hcleared, halive, (hheld 0 halive (by simp [hroots])).1, hr ▸ hr'⟩

end Store

end PatternTree
