import Mathlib
import PatternTree.Blueprint
import PatternTree.Proofs.Lists
import PatternTree.Proofs.Tree.Parts

/-!
# What can be built

A blueprint is built from the inside out, and what cannot be made is missing in the element around it. A missing
child makes that element impossible, too; a missing delimiter does not. So a refusal goes up from child to
element, as far as there are only children on the way, and ends where it comes to a delimiter. `Refused` says
this by three rules, and it is exactly what is not built (`build_eq_none_iff`).

What is built is what was asked for, less the delimiters that could not be made (`listing_of_build`).
-/

namespace PatternTree

namespace Element

/-- The kind of an element and, if it is a token, its content. -/
def entry (e : Element) : Kind × Option String := (e.kind, e.token?.map (·.content))

/-- The entries of an element and of everything below it, each element before its parts. -/
def listing (e : Element) : List (Kind × Option String) :=
  e.paths.filterMap fun path => (e.get? path).map entry

theorem listing_eq (e : Element) : e.listing = e.entry :: e.parts.flatMap fun p => p.2.listing := by
  have hself : (e.get? []).map entry = some e.entry := rfl
  rw [listing, paths_eq, List.filterMap_cons, hself, List.filterMap_flatMap]
  refine congrArg (e.entry :: ·) (List.flatMap_congr fun p hp => ?_)
  obtain ⟨slot, d⟩ := p
  rw [List.filterMap_map]
  refine List.filterMap_congr fun path _ => ?_
  rw [Function.comp_apply, get?_cons, mem_parts.1 hp, Option.bind_some]

theorem flatMap_childParts {β : Type} (f : Element → List β) (i : Nat) (cs : List Element) :
    ((childParts i cs).flatMap fun p => f p.2) = cs.flatMap f := by
  induction cs generalizing i with
  | nil => rfl
  | cons c cs ih => rw [childParts, List.flatMap_cons, ih, List.flatMap_cons]

theorem flatMap_delimiterPart {β : Type} (f : Element → List β) (slot : Slot) (d : Option Element) :
    ((delimiterPart slot d).flatMap fun p => f p.2) = (d.map f).getD [] := by
  cases d <;> simp [delimiterPart]

theorem listing_token (t : Token) : (token t).listing = [(.token t.kind, some t.content)] := by
  rw [listing_eq]
  rfl

theorem listing_node (cs : List Element) : (node cs).listing = (.node, none) :: cs.flatMap listing := by
  rw [listing_eq, ← flatMap_childParts listing 0 cs]
  simp [parts, start?, type?, finish?, children, delimiterPart, entry, kind, token?]

theorem listing_group (form : Form) (s t : Option Element) (cs : List Element) (f : Option Element) :
    (group form s t cs f).listing = (form.kind, none) :: ((s.map listing).getD []
      ++ (t.map listing).getD [] ++ cs.flatMap listing ++ (f.map listing).getD []) := by
  rw [listing_eq]
  simp only [parts, List.flatMap_append, flatMap_delimiterPart, flatMap_childParts]
  rfl

/-! ## Refusals -/

theorem makeToken?_eq_none_iff {kind : Kind} {content : String} {introduced removed : Option Version} :
    makeToken? kind content introduced removed = none ↔ kind.isToken = false := by
  rw [makeToken?, Option.map_eq_none_iff]
  cases kind with
  | token k => cases k <;> simp [Kind.tokenKind?, Kind.isToken, Kind.isa, Kind.isaWithin, Kind.parent]
  | _ => simp [Kind.tokenKind?, Kind.isToken, Kind.isa, Kind.isaWithin, Kind.parent]

theorem makeNode?_eq_none_iff {children : List (Option Element)} :
    makeNode? children = none ↔ none ∈ children := by
  rw [makeNode?, Option.map_eq_none_iff, List.mapM_id_eq_none_iff]

theorem makeGroup?_eq_none_iff {heading : Heading} {start type finish : Option Element}
    {children : List (Option Element)} :
    makeGroup? heading start type children finish = none ↔ heading.form? = none ∨ none ∈ children := by
  rw [makeGroup?, ← List.mapM_id_eq_none_iff]
  cases heading.form? with
  | none => simp
  | some form => cases children.mapM id <;> simp

end Element

/-- The kind that a heading asks for. -/
def Heading.kind : Heading → Kind
  | ofKind kind => kind
  | capture => .capture
  | named _ => .namedCapture

theorem Heading.kind_of_form? {heading : Heading} {form : Form} (h : heading.form? = some form) :
    form.kind = heading.kind := by
  unfold form? at h
  split at h
  · obtain rfl := Option.some.inj h
    rfl
  · obtain rfl := Option.some.inj h
    rfl
  · cases h
  · obtain rfl := Option.some.inj h
    rfl
  · split at h
    · cases h
    · obtain rfl := Option.some.inj h
      rfl

namespace Blueprint

section

variable {V : Type}

def children : Blueprint V → List (Blueprint V)
  | node children => children
  | group _ _ _ children _ => children
  | _ => []

def delimiters : Blueprint V → List (Blueprint V)
  | group _ start type _ finish => [start, type, finish]
  | _ => []

/-- What is asked for in the request itself, whatever its parts, cannot be had: a token of a kind that
tokens do not have, a group of a kind that groups are not made by, or a capture with an empty name. -/
def Denied : Blueprint V → Prop
  | token kind .. => kind.isToken = false
  | group (.ofKind kind) .. => kind ≠ .group ∧ kind ≠ .regexp
  | group (.named name) .. => name = ""
  | _ => False

/-- The blueprint asks for nothing or cannot be met, in itself or in a child. -/
inductive Refused : Blueprint V → Prop where
  | absent : Refused absent
  | denied {b : Blueprint V} (h : b.Denied) : Refused b
  | child {b c : Blueprint V} (hc : c ∈ b.children) (h : Refused c) : Refused b

theorem form?_eq_none_iff (heading : Heading) (start type finish : Blueprint V)
    (children : List (Blueprint V)) :
    heading.form? = none ↔ (group heading start type children finish).Denied := by
  cases heading with
  | ofKind kind => cases kind <;> simp [Heading.form?, Denied]
  | capture => simp [Heading.form?, Denied]
  | named name => simp [Heading.form?, Denied]

/-- Induction over blueprints: what holds of a blueprint as soon as it holds of its children and its delimiters
holds of every blueprint. -/
theorem induction_parts {P : Blueprint V → Prop}
    (h : ∀ b : Blueprint V, (∀ c ∈ b.children, P c) → (∀ d ∈ b.delimiters, P d) → P b)
    (b : Blueprint V) : P b := by
  refine h b (fun c hc => ?_) (fun d hd => ?_)
  · have hlt : sizeOf c < sizeOf b := by
      cases b with
      | node children =>
        have := List.sizeOf_lt_of_mem hc
        simp [Blueprint.children] at *
        omega
      | group heading start type children finish =>
        have := List.sizeOf_lt_of_mem hc
        simp [Blueprint.children] at *
        omega
      | _ => cases hc
    exact induction_parts h c
  · have hlt : sizeOf d < sizeOf b := by
      cases b with
      | group heading start type children finish =>
        simp only [delimiters, List.mem_cons, List.not_mem_nil, or_false] at hd
        rcases hd with rfl | rfl | rfl <;> simp <;> omega
      | _ => cases hd
    exact induction_parts h d
termination_by sizeOf b

/-! ## Listings -/

mutual

/-- The kinds that are asked for, with the contents of tokens, each request before those for its parts. -/
def listing : Blueprint V → List (Kind × Option String)
  | absent => []
  | token kind content _ _ => [(kind, some content)]
  | node children => (.node, none) :: listingAll children
  | group heading start type children finish =>
    (heading.kind, none) :: (listing start ++ listing type ++ listingAll children ++ listing finish)

/-- The listings of blueprints in a row. -/
def listingAll : List (Blueprint V) → List (Kind × Option String)
  | [] => []
  | b :: bs => listing b ++ listingAll bs

end

theorem listingAll_eq (bs : List (Blueprint V)) : listingAll bs = bs.flatMap listing := by
  induction bs with
  | nil => simp [listingAll]
  | cons b bs ih => simp [listingAll, ih]

end

/-! ## What is built -/

/-- A request is refused if it asks for nothing, for what cannot be had, or for something with a child that is
refused. -/
theorem build_eq_none_step (b : Blueprint Version) :
    b.build = none ↔ b = .absent ∨ b.Denied ∨ ∃ c ∈ b.children, c.build = none := by
  cases b with
  | absent => simp [build]
  | token kind content introduced removed =>
    rw [build, Element.makeToken?_eq_none_iff]
    simp [Denied, children]
  | node cs =>
    rw [build, Element.makeNode?_eq_none_iff, buildAll_eq_map]
    simp [Denied, children]
  | group heading start type cs finish =>
    rw [build, Element.makeGroup?_eq_none_iff, buildAll_eq_map,
      form?_eq_none_iff heading start type finish cs]
    simp [children]

theorem build_eq_none_iff {b : Blueprint Version} : b.build = none ↔ b.Refused := by
  constructor
  · intro h
    induction b using induction_parts with
    | h b ihchildren ihdelimiters =>
      rcases (build_eq_none_step b).1 h with rfl | hdenied | ⟨c, hc, hnone⟩
      · exact .absent
      · exact .denied hdenied
      · exact .child hc (ihchildren c hc hnone)
  · intro h
    induction h with
    | absent => rfl
    | denied h => exact (build_eq_none_step _).2 (Or.inr (Or.inl h))
    | child hc _ ih => exact (build_eq_none_step _).2 (Or.inr (Or.inr ⟨_, hc, ih⟩))

instance (b : Blueprint Version) : Decidable b.Refused :=
  decidable_of_iff (b.build.isNone = true) (by rw [Option.isNone_iff_eq_none, build_eq_none_iff])

mutual

/-- The blueprint with every delimiter left out that is refused, also below children and delimiters. -/
def trimmed : Blueprint Version → Blueprint Version
  | absent => absent
  | token kind content introduced removed => token kind content introduced removed
  | node children => node (trimmedAll children)
  | group heading start type children finish =>
    group heading (if start.Refused then absent else trimmed start)
      (if type.Refused then absent else trimmed type) (trimmedAll children)
      (if finish.Refused then absent else trimmed finish)

/-- Blueprints in a row, each without its refused delimiters. -/
def trimmedAll : List (Blueprint Version) → List (Blueprint Version)
  | [] => []
  | b :: bs => trimmed b :: trimmedAll bs

end

theorem trimmedAll_eq (bs : List (Blueprint Version)) : trimmedAll bs = bs.map trimmed := by
  induction bs with
  | nil => simp [trimmedAll]
  | cons b bs ih => simp [trimmedAll, ih]

/-- A delimiter is listed if it can be built, and left out otherwise. -/
theorem listing_delimiter {d : Blueprint Version}
    (ih : ∀ e, d.build = some e → e.listing = d.trimmed.listing) :
    (d.build.map Element.listing).getD [] = (if d.Refused then absent else d.trimmed).listing := by
  cases hd : d.build with
  | none =>
    rw [if_pos (build_eq_none_iff.1 hd)]
    rfl
  | some e =>
    have hbuilt : ¬ d.Refused := by
      rw [← build_eq_none_iff, hd]
      exact Option.some_ne_none e
    rw [if_neg hbuilt, Option.map_some, Option.getD_some, ih e hd]

/-- Children that can all be built are listed one after the other. -/
theorem listing_children {bs : List (Blueprint Version)} {es : List Element}
    (hbs : bs.map build = es.map some)
    (ih : ∀ c ∈ bs, ∀ e, c.build = some e → e.listing = c.trimmed.listing) :
    es.flatMap Element.listing = listingAll (trimmedAll bs) := by
  rw [listingAll_eq, trimmedAll_eq]
  induction bs generalizing es with
  | nil =>
    obtain rfl : es = [] := by simpa using hbs.symm
    rfl
  | cons b bs ihbs =>
    obtain ⟨e, es, rfl, hb, hbs⟩ := List.map_eq_cons_iff.1 hbs.symm
    obtain ⟨hlisting, ih⟩ := List.forall_mem_cons.1 ih
    rw [List.flatMap_cons, List.map_cons, List.flatMap_cons, hlisting e hb.symm, ihbs hbs.symm ih]

/-- What is built is listed as the blueprint without its refused delimiters. -/
theorem listing_of_build {b : Blueprint Version} {e : Element} (h : b.build = some e) :
    e.listing = b.trimmed.listing := by
  induction b using induction_parts generalizing e with
  | h b ihchildren ihdelimiters =>
    cases b with
    | absent => cases h
    | token kind content introduced removed =>
      obtain ⟨k, hk, rfl⟩ := Option.map_eq_some_iff.1 h
      obtain rfl : kind = .token k := by
        cases kind <;> simp_all [Kind.tokenKind?]
      rw [Element.listing_token, trimmed, listing]
    | node cs =>
      rw [build, Element.makeNode?, buildAll_eq_map] at h
      obtain ⟨es, hes, rfl⟩ := Option.map_eq_some_iff.1 h
      rw [Element.listing_node, trimmed, listing,
        listing_children (List.mapM_id_eq_some_iff.1 hes) fun c hc e => ihchildren c hc]
    | group heading start type cs finish =>
      rw [build, Element.makeGroup?, buildAll_eq_map] at h
      obtain ⟨form, hform, h⟩ := Option.bind_eq_some_iff.1 h
      obtain ⟨es, hes, h⟩ := Option.bind_eq_some_iff.1 h
      obtain rfl := Option.some.inj h
      have hd : ∀ d ∈ [start, type, finish], ∀ e, d.build = some e → e.listing = d.trimmed.listing :=
        fun d hd e => ihdelimiters d hd
      rw [Element.listing_group, trimmed, listing, Heading.kind_of_form? hform,
        listing_delimiter (hd start (by simp)), listing_delimiter (hd type (by simp)),
        listing_delimiter (hd finish (by simp)),
        listing_children (List.mapM_id_eq_some_iff.1 hes) fun c hc e => ihchildren c hc]

/-- **What can be built.** Nothing is built just if nothing is asked for, if the request itself asks for what
cannot be had, or if nothing is built for one of its children; so refusals are what `Refused` says. What is asked
for as a delimiter makes no difference to that. Where something is built, it is listed as
the blueprint is, less every delimiter that is missing or refused. -/
theorem build_exact (b : Blueprint Version) :
    (b.build = none ↔ b = .absent ∨ b.Denied ∨ ∃ c ∈ b.children, c.build = none) ∧
    (b.build = none ↔ b.Refused) ∧
    (∀ heading start type children finish start' type' finish',
      b = .group heading start type children finish →
        (b.build = none ↔ (Blueprint.group heading start' type' children finish').build = none)) ∧
    ∀ e, b.build = some e → e.listing = b.trimmed.listing := by
  refine ⟨b.build_eq_none_step, build_eq_none_iff, ?_, fun e => listing_of_build⟩
  rintro heading start type children finish start' type' finish' rfl
  rw [build, build, Element.makeGroup?_eq_none_iff, Element.makeGroup?_eq_none_iff]

/-- A capture whose start is a group with an impossible child and whose type is absent is built without them. The
same group as a child makes the capture impossible. -/
theorem build_trimmed_exact :
    let a : Blueprint Version := .token (.token .literal) "a" none none
    let impossible : Blueprint Version := .node [a, .token .anyToken "b" none none]
    let b : Blueprint Version := .group .capture impossible .absent [.node [a]] a
    ∃ e, b.build = some e ∧
      e.listing =
        [(.capture, none), (.node, none), (.token .literal, some "a"), (.token .literal, some "a")] ∧
      e.listing = b.trimmed.listing ∧
      (Blueprint.group .capture .absent .absent [.node [a], impossible] a).build = none := by
  intro a impossible b
  obtain ⟨e, he⟩ : ∃ e, b.build = some e := ⟨_, rfl⟩
  have hlisting := (build_exact b).2.2.2 e he
  refine ⟨e, he, hlisting.trans (by decide), hlisting, ?_⟩
  refine (build_exact _).1.2 (Or.inr (Or.inr ⟨impossible, by simp [children], ?_⟩))
  rfl

end Blueprint

end PatternTree
