import PatternTree.Proofs.Store.Positions

/-!
# Elements made with and without a store

Requests can be carried out without a store: the parts that are handed over are whole elements then,
and `Element.makeNode?` and its like make the result (`Request.elements`). In a store the same requests
give the same: the cells that are found from a result show the element that was made (`Shows`). So a
store is a forest with links, and what is found at a position, what it holds and what is above it are the
same in both (`run_forest`).
-/

namespace PatternTree

namespace Request

/-- The element asked for, if it can be made of the given parts. -/
def element? : Request (Option Element) → Option Element
  | token kind content introduced removed => Element.makeToken? kind content introduced removed
  | node children => Element.makeNode? children
  | group heading start type children finish =>
    Element.makeGroup? heading start type children finish

/-- What requests in a row give, as far as it has not been handed over. -/
def elements (requests : List (Request (Option Nat))) : List (Option Element) :=
  requests.foldl (fun results q => (q.handOver results).2 ++ [(q.handOver results).1.element?]) []

/-! ## Requests with related parts -/

section

variable {α β : Type} (R : α → β → Prop)

/-- The two requests ask for the same, with related parts. -/
inductive Related : Request (Option α) → Request (Option β) → Prop where
  | token (kind content introduced removed) :
      Related (.token kind content introduced removed) (.token kind content introduced removed)
  | node {as : List (Option α)} {bs : List (Option β)} (h : List.Forall₂ (Option.Rel R) as bs) :
      Related (.node as) (.node bs)
  | group (heading) {sa ta fa : Option α} {sb tb fb : Option β} {as : List (Option α)}
      {bs : List (Option β)} (hs : Option.Rel R sa sb) (ht : Option.Rel R ta tb)
      (hc : List.Forall₂ (Option.Rel R) as bs) (hf : Option.Rel R fa fb) :
      Related (.group heading sa ta as fa) (.group heading sb tb bs fb)

variable {R}

theorem take_related {as : List (Option α)} {bs : List (Option β)}
    (h : List.Forall₂ (Option.Rel R) as bs) (k : Option Nat) :
    Option.Rel R (take as k).1 (take bs k).1 ∧
      List.Forall₂ (Option.Rel R) (take as k).2 (take bs k).2 := by
  cases k with
  | none => exact ⟨.none, h⟩
  | some k =>
    simp only [take]
    induction h generalizing k with
    | nil => exact ⟨.none, .nil⟩
    | cons hab hrest ih =>
      cases k with
      | zero => exact ⟨hab, .cons .none hrest⟩
      | succ k => exact ⟨(ih k).1, .cons hab (ih k).2⟩

theorem takeAll_related {as : List (Option α)} {bs : List (Option β)}
    (h : List.Forall₂ (Option.Rel R) as bs) (ks : List (Option Nat)) :
    List.Forall₂ (Option.Rel R) (takeAll as ks).1 (takeAll bs ks).1 ∧
      List.Forall₂ (Option.Rel R) (takeAll as ks).2 (takeAll bs ks).2 := by
  induction ks generalizing as bs with
  | nil => exact ⟨.nil, h⟩
  | cons k ks ih =>
    obtain ⟨ha, hrest⟩ := take_related h k
    obtain ⟨has, hrest⟩ := ih hrest
    exact ⟨.cons ha has, hrest⟩

theorem handOver_related {as : List (Option α)} {bs : List (Option β)}
    (h : List.Forall₂ (Option.Rel R) as bs) (q : Request (Option Nat)) :
    Related R (q.handOver as).1 (q.handOver bs).1 ∧
      List.Forall₂ (Option.Rel R) (q.handOver as).2 (q.handOver bs).2 := by
  cases q with
  | token kind content introduced removed => exact ⟨.token .., h⟩
  | node children =>
    obtain ⟨hc, h⟩ := takeAll_related h children
    exact ⟨.node hc, h⟩
  | group heading start type children finish =>
    obtain ⟨hs, h⟩ := take_related h start
    obtain ⟨ht, h⟩ := take_related h type
    obtain ⟨hc, h⟩ := takeAll_related h children
    obtain ⟨hf, h⟩ := take_related h finish
    exact ⟨.group heading hs ht hc hf, h⟩

end

end Request

/-! ## What cells show -/

/-- What an element is, without its parts. -/
inductive Label where
  | token (t : Token)
  | node
  | group (form : Form)
deriving DecidableEq, Repr

def Element.label : Element → Label
  | token t => .token t
  | node _ => .node
  | group form .. => .group form

def Shape.label : Shape → Label
  | token t => .token t
  | node _ => .node
  | group form .. => .group form

namespace Shape

variable {R : Handle → Element → Prop}

/-- The shape is that of the element, with related parts in the same slots. -/
structure Fits (R : Handle → Element → Prop) (shape : Shape) (e : Element) : Prop where
  label : shape.label = e.label
  part : ∀ slot, Option.Rel R (shape.part? slot) (e.part? slot)

end Shape

/-- Of related parts either way makes an element, and the shape fits the element, or neither does. -/
theorem Request.shape?_fits {R : Handle → Element → Prop} {q : Request (Option Handle)}
    {q' : Request (Option Element)} (h : Related R q q') :
    Option.Rel (Shape.Fits R) q.shape? q'.element? := by
  cases h with
  | token kind content introduced removed =>
    simp only [shape?, element?, Element.makeToken?]
    cases kind.tokenKind? with
    | none => exact .none
    | some k => exact .some ⟨rfl, fun slot => by cases slot <;> exact .none⟩
  | @node as bs h =>
    simp only [shape?, element?, Element.makeNode?]
    have hc := h.mapM_id
    generalize as.mapM id = as' at hc ⊢
    generalize bs.mapM id = bs' at hc ⊢
    cases hc with
    | none => exact .none
    | some hc =>
      refine .some ⟨rfl, fun slot => ?_⟩
      cases slot with
      | child i => exact hc.rel_getElem? i
      | start => exact .none
      | type => exact .none
      | finish => exact .none
  | @group heading sa ta fa sb tb fb as bs hs ht hc hf =>
    simp only [shape?, element?, Element.makeGroup?]
    have hc := hc.mapM_id
    generalize as.mapM id = as' at hc ⊢
    generalize bs.mapM id = bs' at hc ⊢
    cases heading.form? with
    | none => exact .none
    | some form =>
      cases hc with
      | none => exact .none
      | some hc =>
        refine .some ⟨rfl, fun slot => ?_⟩
        cases slot with
        | start => exact hs
        | type => exact ht
        | child i => exact hc.rel_getElem? i
        | finish => exact hf

namespace Store

def label? (s : Store) (h : Handle) : Option Label := (s.cell? h).map fun c => c.shape.label

/-- What is found from the cell on is the element: every path leads to cells as it leads to parts, with
the same labels. -/
def Shows (s : Store) (h : Handle) (e : Element) : Prop :=
  ∀ path, (s.descend? h path).bind s.label? = (e.get? path).map Element.label

theorem Shows.alive {s : Store} {h : Handle} {e : Element} (hs : s.Shows h e) : s.alive h = true := by
  have := hs []
  rw [descend?, Option.bind_some, Element.get?, Option.map_some] at this
  obtain ⟨c, hc, -⟩ := Option.map_eq_some_iff.1 this
  exact alive_iff.2 ⟨c, hc⟩

/-- A cell shows an element if its shape fits and its parts show the parts. -/
theorem Shows.of_fits {s : Store} {h : Handle} {c : Cell} {e : Element} (hc : s.cell? h = some c)
    (hfits : c.shape.Fits s.Shows e) : s.Shows h e := by
  intro path
  cases path with
  | nil => simp [descend?, label?, hc, hfits.label, Element.get?]
  | cons slot path =>
    have hpart := hfits.part slot
    simp only [descend?, part?, hc, Option.bind_some, Element.get?_cons]
    generalize c.shape.part? slot = p at hpart ⊢
    generalize e.part? slot = d at hpart ⊢
    cases hpart with
    | none => rfl
    | some hshows => exact hshows path

/-- From an element of `s` the same is found in `t`, if `t` keeps the shapes of `s` and the parts of
elements of `s` are elements of `s`. -/
theorem descend?_label {s t : Store} (hclosed : ∀ n, ∀ p ∈ s.elements n, s.alive p = true)
    (hkept : ∀ x c, s.cell? x = some c → ∃ c', t.cell? x = some c' ∧ c'.shape = c.shape) (path : Path)
    {h : Handle} (ha : s.alive h = true) :
    (t.descend? h path).bind t.label? = (s.descend? h path).bind s.label? := by
  induction path generalizing h with
  | nil =>
    obtain ⟨c, hc⟩ := alive_iff.1 ha
    obtain ⟨c', hc', hshape⟩ := hkept h c hc
    simp [descend?, label?, hc, hc', hshape]
  | cons slot path ih =>
    obtain ⟨c, hc⟩ := alive_iff.1 ha
    obtain ⟨c', hc', hshape⟩ := hkept h c hc
    simp only [descend?, part?, hc, hc', Option.bind_some, hshape]
    cases hp : c.shape.part? slot with
    | none => rfl
    | some p =>
      refine ih (hclosed h p (mem_elements.2 ⟨slot, ?_⟩))
      simp [part?, hc, hp]

theorem Shows.of_cell? {s t : Store} {h : Handle} {e : Element} (hs : s.Shows h e)
    (hc : ∀ x, t.cell? x = s.cell? x) : t.Shows h e := by
  have hlabel : t.label? = s.label? := funext fun x => by simp [label?, hc]
  have hdescend : ∀ path x, t.descend? x path = s.descend? x path := by
    intro path
    induction path with
    | nil => exact fun _ => rfl
    | cons slot path ih =>
      intro x
      simp [descend?, part?, hc, ih]
  intro path
  rw [hlabel, hdescend]
  exact hs path

/-- What is still there after a request shows what it showed. -/
theorem Made.shows {s t : Store} {q : Request (Option Handle)} {result : Option Handle}
    (hm : Made s q t result) (hready : Ready s q) {h : Handle} {e : Element}
    (ha : t.alive h = true) (hs : s.Shows h e) : t.Shows h e := by
  intro path
  rw [← hs path]
  cases hm with
  | granted hshape hadds =>
    refine descend?_label (fun n p hp => ?_) (fun x c hc => hadds.cell?_old hc) path hs.alive
    exact alive_of_parent? (hready.linked.parent n p hp)
  | refused hshape hlinked hkept =>
    refine (descend?_label (fun n p hp => ?_) (fun x c hc => ⟨c, ?_, rfl⟩) path ha).symm
    · exact alive_of_parent? (hlinked.parent n p hp)
    · rw [← hkept x (alive_iff.2 ⟨c, hc⟩), hc]

/-- The result of a request shows the element that is made of what its parts show. -/
theorem Made.shows_result {s t : Store} {q : Request (Option Handle)} {result : Option Handle}
    (hm : Made s q t result) (hready : Ready s q) {q' : Request (Option Element)}
    (hq : Request.Related s.Shows q q') : Option.Rel t.Shows result q'.element? := by
  have hfits := Request.shape?_fits hq
  generalize q'.element? = e at hfits ⊢
  cases hm with
  | granted hshape hadds =>
    rw [hshape] at hfits
    cases hfits with
    | some hfits =>
      refine .some (.of_fits hadds.cell?_new ⟨hfits.label, fun slot => ?_⟩)
      refine (hfits.part slot).imp_of_eq_some fun p d _ hs => ?_
      exact (Made.granted hshape hadds).shows hready (hadds.alive_iff.2 (Or.inr hs.alive)) hs
  | refused hshape hlinked hkept =>
    rw [hshape] at hfits
    cases hfits with
    | none => exact .none

/-! ## The same results -/

/-- The results of the store show these elements, and where there is no element there is no result. -/
def ShowsAll (s : Store) (es : List (Option Element)) : Prop :=
  List.Forall₂ (Option.Rel s.Shows) s.results es

theorem Made.showsAll {s t : Store} {q : Request (Option Handle)} {result : Option Handle}
    (hm : Made s q t result) (hready : Ready s q) (hres : t.results = s.results)
    {q' : Request (Option Element)} (hq : Request.Related s.Shows q q') {es : List (Option Element)}
    (hes : s.ShowsAll es) : (t.keep result).ShowsAll (es ++ [q'.element?]) := by
  have halive : ∀ a ∈ s.results, ∀ x, a = some x → t.alive x = true := by
    rintro a ha x rfl
    refine (hm.sound hready hres).linked.loose_alive x ?_
    rw [roots_keep, roots, hres]
    exact List.mem_append_left _ (List.mem_filterMap.2 ⟨some x, ha, rfl⟩)
  have hresults : (t.keep result).results = s.results ++ [result] := by rw [← hres]; rfl
  rw [ShowsAll, hresults]
  refine List.rel_append ?_ (.cons ?_ .nil)
  · refine ((List.forall₂_and_left _ _).2 ⟨halive, hes⟩).imp ?_
    rintro a b ⟨ha, hab⟩
    exact hab.imp_of_eq_some fun x _ hx hs =>
      (hm.shows hready (ha x hx) hs).of_cell? fun _ => rfl
  · exact (hm.shows_result hready hq).imp_of_eq_some fun _ _ _ hs => hs.of_cell? fun _ => rfl

theorem perform_shows {s : Store} {es : List (Option Element)} (h : Sound s) (hes : s.ShowsAll es)
    (q : Request (Option Nat)) :
    ∃ t, s.perform q = .ok t ∧ Sound t ∧
      t.ShowsAll ((q.handOver es).2 ++ [(q.handOver es).1.element?]) := by
  have hready := h.ready q
  obtain ⟨t, result, ht, hres, hm⟩ := make_made hready
  -- taking the parts out of the results changes nothing that is shown
  have htaken : List.Forall₂ (Option.Rel (Shows { s with results := (q.handOver s.results).2 }))
      s.results es :=
    hes.imp fun a b hab => hab.imp_of_eq_some fun _ _ _ hs => hs.of_cell? fun _ => rfl
  obtain ⟨hq, hrest⟩ := Request.handOver_related htaken q
  exact ⟨_, ht, hm.sound hready hres, hm.showsAll hready hres hq hrest⟩

/-- After the same requests, the results in store show the elements that are made without one. -/
theorem run_shows (requests : List (Request (Option Nat))) :
    ∃ s, run requests = .ok s ∧ Sound s ∧ s.ShowsAll (Request.elements requests) := by
  have hrun : ∀ {s : Store} {es : List (Option Element)}, Sound s → s.ShowsAll es →
      ∃ t, requests.foldlM perform s = .ok t ∧ Sound t ∧
        t.ShowsAll (requests.foldl
          (fun results q => (q.handOver results).2 ++ [(q.handOver results).1.element?]) es) := by
    induction requests with
    | nil => exact fun h hes => ⟨_, rfl, h, hes⟩
    | cons q requests ih =>
      intro s es h hes
      obtain ⟨t, ht, hsound, hshows⟩ := perform_shows h hes q
      obtain ⟨u, hu, husound, hushows⟩ := ih hsound hshows
      exact ⟨u, by rw [List.foldlM_cons, ht]; exact hu, husound, hushows⟩
  exact hrun empty_sound .nil

end Store

/-! ## The forest in store -/

namespace Shape

theorem filterMap_childParts {f : Slot → Option Handle} {cs : List Element} {hs : List Handle} {i : Nat}
    (hlength : cs.length = hs.length) (hf : ∀ j, f (.child (i + j)) = hs[j]?) :
    (Element.childParts i cs).filterMap (fun p => f p.1) = hs := by
  induction cs generalizing i hs with
  | nil =>
    rw [List.length_nil] at hlength
    rw [List.length_eq_zero_iff.1 hlength.symm]
    rfl
  | cons c cs ih =>
    cases hs with
    | nil => cases hlength
    | cons h hs =>
      have hrest := ih (i := i + 1) (Nat.succ.inj hlength) fun j => by
        rw [Nat.add_assoc, Nat.add_comm 1]
        exact hf (j + 1)
      have hfirst : f (.child i) = some h := hf 0
      simp [Element.childParts, hfirst, hrest]

/-- A shape with the same slots as an element names its parts in the same order. -/
theorem elements_eq {shape : Shape} {e : Element}
    (h : ∀ slot, (shape.part? slot).isSome = (e.part? slot).isSome) :
    shape.elements = e.parts.filterMap fun p => shape.part? p.1 := by
  have hdelimiter : ∀ slot, (Element.delimiterPart slot (e.part? slot)).filterMap
      (fun p => shape.part? p.1) = (shape.part? slot).toList := by
    intro slot
    have := h slot
    cases hd : e.part? slot <;> cases hp : shape.part? slot <;>
      simp_all [Element.delimiterPart]
  have hlength : e.children.length = shape.children.length := by
    have hlt : ∀ i : Nat, i < shape.children.length ↔ i < e.children.length := by
      intro i
      have := h (.child i)
      rw [Bool.eq_iff_iff] at this
      simpa [part?, Element.part?] using this
    have h1 := hlt e.children.length
    have h2 := hlt shape.children.length
    omega
  have hchildren := filterMap_childParts (f := shape.part?) (i := 0) hlength fun j => by
    rw [Nat.zero_add]
    rfl
  simp only [Element.parts, List.filterMap_append, hchildren]
  exact congrArg₂ _ (congrArg (· ++ _) (congrArg₂ _ (hdelimiter .start).symm (hdelimiter .type).symm))
    (hdelimiter .finish).symm

end Shape

namespace Store

variable {s : Store} {F : Forest}

/-- The elements of the store at the positions of the forest are labelled like those of the forest. -/
def Mirrors (s : Store) (F : Forest) : Prop :=
  ∀ r, (s.handle? r).bind s.label? = (F.get? r).map Element.label

theorem ShowsAll.mirrors {es : List (Option Element)} (h : s.ShowsAll es) :
    s.Mirrors ⟨es.filterMap id⟩ := by
  have hroots : List.Forall₂ s.Shows s.roots (es.filterMap id) := by
    rw [roots]
    rw [ShowsAll] at h
    generalize s.results = results at h ⊢
    induction h with
    | nil => exact .nil
    | cons hab _ ih =>
      cases hab with
      | none => exact ih
      | some hs => exact .cons hs ih
  rintro ⟨tree, path⟩
  have htree := hroots.rel_getElem? tree
  simp only [handle?, Forest.get?]
  generalize s.roots[tree]? = h at htree ⊢
  generalize (es.filterMap id)[tree]? = e at htree ⊢
  cases htree with
  | none => rfl
  | some hs => exact hs path

/-- The store has something at the positions of the forest, and nowhere else. -/
theorem Mirrors.isSome (hm : s.Mirrors F) (hs : Sound s) (q : Position) :
    (s.handle? q).isSome = (F.get? q).isSome := by
  have hq := congrArg Option.isSome (hm q)
  rw [Option.isSome_map] at hq
  rw [← hq]
  cases hh : s.handle? q with
  | none => rfl
  | some x =>
    obtain ⟨d, hd⟩ := alive_iff.1 (hs.alive_handle? hh)
    simp [label?, hd]

/-- What a node of the store holds is what the node of the forest at its position holds. -/
theorem Mirrors.elements (hm : s.Mirrors F) (hs : Sound s) {r : Position} {h : Handle}
    (hr : s.handle? r = some h) : s.elements h = (F.elements r).filterMap s.handle? := by
  obtain ⟨c, hc⟩ := alive_iff.1 (hs.alive_handle? hr)
  have hsome := hm.isSome hs
  have hF := hsome r
  rw [hr, Option.isSome_some] at hF
  obtain ⟨e, he⟩ := Option.isSome_iff_exists.1 hF.symm
  have hpush : ∀ slot, s.handle? (r.push slot) = c.shape.part? slot := by
    intro slot
    rw [handle?_push, hr, Option.bind_some, part?, hc, Option.bind_some]
  have hslots : ∀ slot, (c.shape.part? slot).isSome = (e.part? slot).isSome := by
    intro slot
    rw [← hpush, hsome, Forest.get?_push, he, Option.bind_some]
  rw [elements_of_cell? hc, Shape.elements_eq hslots]
  simp only [Forest.elements, he, List.filterMap_map, Function.comp_def, hpush]

/-- **A store is a forest with links.** The requests that build up a store make the same elements
without one, and these form a forest. Every element of the store has exactly one position, and at each
position stands the same in the store as in the forest. The links lead where positions say: the
parent link to the element at the parent of the position, the names of the parts to the elements at the
positions of the parts, the way up to the root, and the search upwards finds a node exactly if its
position is above. -/
theorem run_forest (requests : List (Request (Option Nat))) :
    let F : Forest := ⟨(Request.elements requests).filterMap id⟩
    ∃ s, run requests = .ok s ∧
      (∀ h, s.alive h = true → ∃! r, s.handle? r = some h) ∧
      (∀ r, (s.handle? r).bind s.label? = (F.get? r).map Element.label) ∧
      ∀ r h, s.handle? r = some h →
        s.parent? h = r.parent?.bind s.handle? ∧
        s.elements h = (F.elements r).filterMap s.handle? ∧
        s.top h = s.handle? r.top ∧
        ∀ q k, s.handle? q = some k → s.contains h (some k) = some (r.contains (some q)) := by
  intro F
  obtain ⟨s, hrun, hs, hshows⟩ := run_shows requests
  have hm : s.Mirrors F := hshows.mirrors
  refine ⟨s, hrun, fun h ha => hs.position_unique ha, hm, fun r h hr => ⟨?_, ?_, ?_, ?_⟩⟩
  · exact hs.parent?_handle? hr
  · exact hm.elements hs hr
  · exact hs.top_handle? hr
  · exact fun q k hq => hs.contains_handle? hr hq

end Store

end PatternTree
